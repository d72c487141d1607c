import Mathlib.Algebra.Order.Floor.Ring
import Mathlib.Tactic.Linarith
import Mathlib.Tactic.Ring
import Mathlib.Tactic.FieldSimp

/-!
# Rounding to the nearest integer

To the nearest integer, and in the middle to the even one.

* `halfEven_eq_iff`: when the result is a given integer.
* `halfEven_mono`: rounding keeps the order.
-/

namespace OmniJsonDb

variable {K : Type*} [Field K] [LinearOrder K] [IsStrictOrderedRing K] [FloorRing K]

def halfEven (x : K) : ℤ :=
  let f := ⌊x⌋
  if x - f < 1 / 2 ∨ (x - f = 1 / 2 ∧ f % 2 = 0) then f else f + 1

theorem halfEven_near (x : K) : x - 1 / 2 ≤ halfEven x ∧ (halfEven x : K) ≤ x + 1 / 2 := by
  have h₁ := Int.floor_le x
  have h₂ := Int.lt_floor_add_one x
  unfold halfEven
  simp only
  split
  · rename_i h
    rcases h with h | ⟨h, -⟩
    · constructor <;> linarith
    · constructor <;> linarith
  · rename_i h
    have hge : 1 / 2 ≤ x - ⌊x⌋ := not_lt.1 fun hc => h (.inl hc)
    push_cast
    constructor <;> linarith

/-- In the middle the result is even. -/
theorem even_halfEven {x : K} (h : x = halfEven x + 1 / 2 ∨ x = halfEven x - 1 / 2) : halfEven x % 2 = 0 := by
  have h₁ := Int.floor_le x
  have h₂ := Int.lt_floor_add_one x
  unfold halfEven at h ⊢
  simp only at h ⊢
  split
  · rename_i hc
    rw [if_pos hc] at h
    rcases hc with hc | ⟨-, hc⟩
    · rcases h with h | h <;> linarith
    · exact hc
  · rename_i hc
    rw [if_neg hc] at h
    push_cast at h
    have hge : 1 / 2 ≤ x - ⌊x⌋ := not_lt.1 fun hd => hc (.inl hd)
    rcases h with h | h
    · linarith
    · have hodd : ¬ ⌊x⌋ % 2 = 0 := fun hd => hc (.inr ⟨by linarith, hd⟩)
      omega

/-- **The nearest integer.** -/
theorem halfEven_eq_iff {x : K} {k : ℤ} : halfEven x = k ↔
    (k - 1 / 2 < x ∧ x < k + 1 / 2) ∨ ((x = k + 1 / 2 ∨ x = k - 1 / 2) ∧ k % 2 = 0) := by
  obtain ⟨h₁, h₂⟩ := halfEven_near x
  constructor
  · rintro rfl
    by_cases hu : x = halfEven x + 1 / 2
    · exact .inr ⟨.inl hu, even_halfEven (.inl hu)⟩
    · by_cases hl : x = halfEven x - 1 / 2
      · exact .inr ⟨.inr hl, even_halfEven (.inr hl)⟩
      · refine .inl ⟨?_, ?_⟩
        · refine lt_of_le_of_ne (by linarith) (Ne.symm hl)
        · refine lt_of_le_of_ne (by linarith) hu
  · intro h
    by_contra hne
    -- two integers that are both nearest differ by one, and only one of them is even
    rcases lt_or_gt_of_ne hne with hlt | hlt
    · have hstep : (halfEven x : K) + 1 ≤ k := by exact_mod_cast hlt
      rcases h with ⟨h₃, h₄⟩ | ⟨h₃ | h₃, hk⟩
      · linarith
      · linarith
      · have hx : x = halfEven x + 1 / 2 := by linarith
        have hk' : (k : K) = (halfEven x + 1 : ℤ) := by push_cast; linarith
        have := even_halfEven (.inl hx)
        have := Int.cast_injective hk'
        omega
    · have hstep : (k : K) + 1 ≤ halfEven x := by exact_mod_cast hlt
      rcases h with ⟨h₃, h₄⟩ | ⟨h₃ | h₃, hk⟩
      · linarith
      · have hx : x = halfEven x - 1 / 2 := by linarith
        have hk' : (halfEven x : K) = (k + 1 : ℤ) := by push_cast; linarith
        have := even_halfEven (.inr hx)
        have := Int.cast_injective hk'
        omega
      · linarith

@[simp] theorem halfEven_intCast (k : ℤ) : halfEven (k : K) = k :=
  halfEven_eq_iff.2 (.inl ⟨by linarith, by linarith⟩)

/-- **Rounding keeps the order.** -/
theorem halfEven_mono {x y : K} (h : x ≤ y) : halfEven x ≤ halfEven y := by
  by_contra hlt
  have hstep : (halfEven y : K) + 1 ≤ halfEven x := by exact_mod_cast not_le.1 hlt
  have hx := (halfEven_near x).2
  have hy := (halfEven_near y).1
  have heq : x = y := le_antisymm h (by linarith)
  rw [heq] at hlt
  exact hlt le_rfl

end OmniJsonDb
