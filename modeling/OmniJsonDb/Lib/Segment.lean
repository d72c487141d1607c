import Mathlib.Order.Interval.Finset.Nat
import Mathlib.Tactic.Common

/-!
# Stretches of an array

The entries of an array from one index up to another, as a multiset: what is there,
wherever it is.

* `segment_cons`: the first entry.
* `segment_set`: one entry is replaced.
* `segment_shift`: one entry comes out, and others move to fill its place.
-/

namespace OmniJsonDb

variable {α : Type*} {f g : ℕ → α} {a b d h : ℕ}

/-- The entries from `a` up to `b`. -/
def segment (f : ℕ → α) (a b : ℕ) : Multiset α := (Finset.Ico a b).val.map f

theorem segment_congr (hg : ∀ x, a ≤ x → x < b → g x = f x) : segment g a b = segment f a b := by
  unfold segment
  refine Multiset.map_congr rfl fun x hx => ?_
  rw [Finset.mem_val, Finset.mem_Ico] at hx
  exact hg x hx.1 hx.2

/-- A stretch, with one of its entries named. -/
theorem segment_eq_cons (hd : a ≤ d) (hd' : d < b) :
    segment f a b = f d ::ₘ ((Finset.Ico a b).erase d).val.map f := by
  have hmem : d ∈ (Finset.Ico a b).val := by
    rw [Finset.mem_val, Finset.mem_Ico]
    exact ⟨hd, hd'⟩
  unfold segment
  rw [Finset.erase_val, ← Multiset.map_cons, Multiset.cons_erase hmem]

/-- **The first entry.** -/
theorem segment_cons (hab : a < b) : segment f a b = f a ::ₘ segment f (a + 1) b := by
  rw [segment_eq_cons le_rfl hab, ← Nat.Ico_succ_left_eq_erase_Ico]
  rfl

/-- **Replacing one entry.** -/
theorem segment_set (hd : a ≤ d) (hd' : d < b) (hg : ∀ x, x ≠ d → g x = f x) :
    f d ::ₘ segment g a b = g d ::ₘ segment f a b := by
  rw [segment_eq_cons (f := f) hd hd', segment_eq_cons (f := g) hd hd', Multiset.cons_swap]
  refine congrArg (fun s => g d ::ₘ f d ::ₘ s) (Multiset.map_congr rfl fun x hx => ?_)
  rw [Finset.mem_val] at hx
  exact hg x (Finset.ne_of_mem_erase hx)

/-- **Taking one entry out.** The entry at `h` fills its place, and the first entry that of `h`. -/
theorem segment_shift (had : a ≤ d) (hdb : d < b) (hah : a ≤ h) (hhd : h ≤ d)
    (hg : ∀ x, a < x → x < b → g x = if x = h then f a else if x = d then f h else f x) :
    f d ::ₘ segment g (a + 1) b = segment f a b := by
  have hab : a < b := by omega
  rw [segment_cons hab]
  by_cases hda : d = a
  · -- the first entry itself comes out
    have hrest : segment g (a + 1) b = segment f (a + 1) b := by
      refine segment_congr fun x hx hxb => ?_
      rw [hg x hx hxb, if_neg (by omega), if_neg (by omega)]
    rw [hrest, hda]
  · have hd : a + 1 ≤ d := by omega
    by_cases hha : h = a
    · -- the first entry fills its place
      have hset := segment_set (f := f) (g := Function.update f d (f a)) hd hdb
        fun x hx => Function.update_of_ne hx _ _
      rw [Function.update_self] at hset
      rw [← hset]
      refine congrArg _ (segment_congr fun x hx hxb => ?_)
      rw [hg x hx hxb, if_neg (by omega), Function.update_apply, hha]
    · have hh : a + 1 ≤ h := by omega
      have hset := segment_set (f := f) (g := Function.update f d (f h)) hd hdb
        fun x hx => Function.update_of_ne hx _ _
      have hset' := segment_set (f := Function.update f d (f h))
        (g := Function.update (Function.update f d (f h)) h (f a)) hh (lt_of_le_of_lt hhd hdb)
        fun x hx => Function.update_of_ne hx _ _
      have hfh : Function.update f d (f h) h = f h := by
        rw [Function.update_apply]
        split
        · rfl
        · rfl
      rw [Function.update_self] at hset hset'
      rw [hfh] at hset'
      have hsame : segment g (a + 1) b =
          segment (Function.update (Function.update f d (f h)) h (f a)) (a + 1) b := by
        refine segment_congr fun x hx hxb => ?_
        rw [hg x hx hxb, Function.update_apply, Function.update_apply]
      rw [hsame, ← Multiset.cons_inj_right (f h)]
      calc f h ::ₘ f d ::ₘ segment (Function.update (Function.update f d (f h)) h (f a)) (a + 1) b
          = f d ::ₘ f a ::ₘ segment (Function.update f d (f h)) (a + 1) b := by
            rw [Multiset.cons_swap, hset']
        _ = f h ::ₘ f a ::ₘ segment f (a + 1) b := by
            rw [Multiset.cons_swap, hset, Multiset.cons_swap]

end OmniJsonDb
