import Mathlib.Tactic.Common
import Mathlib.Order.Nat

/-!
# Extents

Families of extents of files (file, offset, size) that share no byte and stay below the
ends of their files.

* `Apart.map`: a family whose members are members of another one, each at most once.
* `Apart.rotate`: three members change places.
* `Apart.fresh`: a member behind the end of its file.
* `Apart.split`: a member cut in two.
-/

namespace OmniJsonDb

/-- An extent: file, offset, size. -/
abbrev Place := ℕ × ℕ × ℕ

namespace Place

/-- Two extents with no byte in common. -/
def Apart (p q : Place) : Prop :=
  p.1 ≠ q.1 ∨ p.2.2 = 0 ∨ q.2.2 = 0 ∨ p.2.1 + p.2.2 ≤ q.2.1 ∨ q.2.1 + q.2.2 ≤ p.2.1

theorem Apart.symm {p q : Place} (h : p.Apart q) : q.Apart p := by
  unfold Apart at *; omega

/-- A part of an extent: within it, or empty. -/
def Sub (p q : Place) : Prop :=
  p.2.2 = 0 ∨ p.1 = q.1 ∧ q.2.1 ≤ p.2.1 ∧ p.2.1 + p.2.2 ≤ q.2.1 + q.2.2

theorem Sub.refl (p : Place) : p.Sub p := .inr ⟨rfl, le_rfl, le_rfl⟩

theorem Apart.sub {p q p' : Place} (h : p.Apart q) (hp : p'.Sub p) : p'.Apart q := by
  unfold Apart Sub at *; omega

end Place

/-- Extents `P 0 .. P (n-1)` share no byte, and lie below the ends of their files. -/
structure Apart (P : ℕ → Place) (n : ℕ) (ends : ℕ → ℕ) : Prop where
  inside : ∀ r, r < n → 0 < (P r).2.2 → (P r).2.1 + (P r).2.2 ≤ ends (P r).1
  apart : ∀ r s, r < n → s < n → r ≠ s → (P r).Apart (P s)

namespace Apart

variable {P Q : ℕ → Place} {n m : ℕ} {ends ends' : ℕ → ℕ}

/-- **Moving extents about.** Each new one is a part of an old one, and no old one is used
twice. -/
theorem map (h : Apart P n ends) (σ : ℕ → ℕ) (hσ : ∀ r, r < m → σ r < n)
    (hinj : ∀ r s, r < m → s < m → σ r = σ s → r = s)
    (hQ : ∀ r, r < m → (Q r).Sub (P (σ r))) (he : ∀ f, ends f ≤ ends' f) : Apart Q m ends' where
  inside r hr hpos := by
    have h₁ := h.inside (σ r) (hσ r hr)
    have h₂ := hQ r hr
    have h₃ := he (Q r).1
    unfold Place.Sub at h₂
    rcases h₂ with h₂ | ⟨hf, hlo, hle⟩
    · omega
    · rw [hf] at h₃ ⊢
      by_cases hp : 0 < (P (σ r)).2.2
      · exact (hle.trans (h₁ hp)).trans h₃
      · omega
  apart r s hr hs hne :=
    ((h.apart (σ r) (σ s) (hσ r hr) (hσ s hs) fun e => hne (hinj r s hr hs e)).sub
      (hQ r hr)).symm.sub (hQ s hs) |>.symm

/-- Members that stay where they are. -/
theorem congr (h : Apart P n ends) (hQ : ∀ r, r < n → (Q r).Sub (P r)) (he : ∀ f, ends f ≤ ends' f) :
    Apart Q n ends' :=
  h.map id (fun _ hr => hr) (fun _ _ _ _ e => e) hQ he

/-- **A new extent** behind the end of its file. -/
theorem fresh (h : Apart P n ends) {p : Place} (hoff : 0 < p.2.2 → ends p.1 ≤ p.2.1)
    (he : ∀ f, ends f ≤ ends' f) (hp : 0 < p.2.2 → p.2.1 + p.2.2 ≤ ends' p.1) :
    Apart (fun r => if r = n then p else P r) (n + 1) ends' where
  inside r hr hpos := by
    by_cases hrn : r = n
    · simp only [hrn, if_true] at hpos ⊢; exact hp hpos
    · simp only [hrn, if_false] at hpos ⊢
      exact (h.inside r (by omega) hpos).trans (he _)
  apart r s hr hs hne := by
    have key : ∀ t, t < n → (P t).Apart p := by
      intro t ht
      by_cases hf : (P t).1 = p.1
      · by_cases hpos : 0 < (P t).2.2
        · have := h.inside t ht hpos
          rw [hf] at this
          by_cases hp : 0 < p.2.2
          · exact .inr (.inr (.inr (.inl (this.trans (hoff hp)))))
          · exact .inr (.inr (.inl (by omega)))
        · exact .inr (.inl (by omega))
      · exact .inl hf
    by_cases hrn : r = n
    · rw [if_pos hrn, if_neg (by omega)]; exact (key s (by omega)).symm
    · rw [if_neg hrn]
      by_cases hsn : s = n
      · rw [if_pos hsn]; exact key r (by omega)
      · rw [if_neg hsn]; exact h.apart r s (by omega) (by omega) hne

/-- **Rotating** three members: `a` gets what `c` had, `b` what `a` had, `c` what `b` had. -/
theorem rotate (h : Apart P n ends) {a b c : ℕ} (ha : a < n) (hb : b < n) (hc : c < n)
    (hac : a = c → b = a) (hQa : (Q a).Sub (P c)) (hQb : b ≠ a → (Q b).Sub (P a))
    (hQc : c ≠ a → c ≠ b → (Q c).Sub (P b))
    (hQ : ∀ r, r ≠ a → r ≠ b → r ≠ c → (Q r).Sub (P r)) (he : ∀ f, ends f ≤ ends' f) :
    Apart Q n ends' := by
  refine h.map (fun r => if r = a then c else if r = b then a else if r = c then b else r)
    (fun r hr => ?_) (fun r s _ _ he => ?_) (fun r _ => ?_) he
  · split_ifs <;> omega
  · split_ifs at he <;> omega
  · split_ifs with h₁ h₂ h₃
    · exact h₁ ▸ hQa
    · subst h₂; exact hQb h₁
    · subst h₃; exact hQc h₁ h₂
    · exact hQ r h₁ h₂ h₃

/-- **Cutting an extent in two.** The front stays, the rest goes to `e`, which had none. -/
theorem split (h : Apart P n ends) {d e size : ℕ} (hd : d < n) (hne : e ≠ d)
    (hm : ∀ r, r < m → r ≠ e → r < n) (hsize : size ≤ (P d).2.2)
    (hQd : Q d = ((P d).1, (P d).2.1, size))
    (hQe : Q e = ((P d).1, (P d).2.1 + size, (P d).2.2 - size))
    (hQ : ∀ r, r ≠ d → r ≠ e → Q r = P r) : Apart Q m ends where
  inside r hr hpos := by
    by_cases hre : r = e
    · subst hre
      rw [hQe] at hpos ⊢
      have := h.inside d hd (by dsimp only at hpos; omega)
      dsimp only at hpos ⊢; omega
    · by_cases hrd : r = d
      · subst hrd
        rw [hQd] at hpos ⊢
        have := h.inside r hd (by dsimp only at hpos; omega)
        dsimp only at hpos ⊢; omega
      · rw [hQ r hrd hre] at hpos ⊢
        exact h.inside r (hm r hr hre) hpos
  apart := by
    have hde : (Q d).Apart (Q e) := by rw [hQd, hQe]; exact .inr (.inr (.inr (.inl le_rfl)))
    have hsub : (Q d).Sub (P d) ∧ (Q e).Sub (P d) := by
      rw [hQd, hQe]
      exact ⟨.inr ⟨rfl, le_rfl, by dsimp only; omega⟩, .inr ⟨rfl, by dsimp only; omega, by dsimp only; omega⟩⟩
    -- a third extent is apart from both parts
    have third : ∀ r, r < m → r ≠ d → r ≠ e → (Q d).Apart (Q r) ∧ (Q e).Apart (Q r) := by
      intro r hr hrd hre
      have := h.apart d r hd (hm r hr hre) (Ne.symm hrd)
      rw [hQ r hrd hre]
      exact ⟨this.sub hsub.1, this.sub hsub.2⟩
    intro r s hr hs hrs
    by_cases hrd : r = d
    · subst hrd
      by_cases hse : s = e
      · subst hse; exact hde
      · exact (third s hs (Ne.symm hrs) hse).1
    · by_cases hre : r = e
      · subst hre
        by_cases hsd : s = d
        · subst hsd; exact hde.symm
        · exact (third s hs hsd (Ne.symm hrs)).2
      · by_cases hsd : s = d
        · subst hsd; exact (third r hr hrd hre).1.symm
        · by_cases hse : s = e
          · subst hse; exact (third r hr hrd hre).2.symm
          · rw [hQ r hrd hre, hQ s hsd hse]
            exact h.apart r s (hm r hr hre) (hm s hs hse) hrs

end Apart

end OmniJsonDb
