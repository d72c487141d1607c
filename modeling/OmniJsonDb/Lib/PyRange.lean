import Mathlib.Data.Int.Interval
import Mathlib.Data.List.Sort
import Mathlib.Tactic.Linarith
import Mathlib.Tactic.Ring

/-!
# Ranges and slices of Python

`range(a, b, s)` as a list of integers, and the rule by which a slice with omitted, negative or
far bounds becomes a range over a sequence of a given length.

* `mem_pyRange_pos`, `mem_pyRange_neg`: what is in a range.
* `pyRange_ext`: ranges of one step are equal when they have the same members.
* `SliceArgs.indices`: `slice.indices`.
-/

namespace OmniJsonDb

/-! ## Ranges -/

/-- `len(range(a, b, s))`. -/
def rangeLen (a b s : ℤ) : ℕ :=
  if 0 < s then ((b - a + s - 1) / s).toNat else ((a - b - s - 1) / (-s)).toNat

/-- `range(a, b, s)`. -/
def pyRange (a b s : ℤ) : List ℤ := (List.range (rangeLen a b s)).map fun i : ℕ => a + i * s

variable {a b s x : ℤ}

theorem lt_rangeLen_pos (hs : 0 < s) (i : ℕ) : i < rangeLen a b s ↔ a + i * s < b := by
  unfold rangeLen
  rw [if_pos hs, Int.lt_toNat, ← Int.add_one_le_iff, Int.le_ediv_iff_mul_le hs, add_mul]
  constructor <;> intro h <;> omega

theorem lt_rangeLen_neg (hs : s < 0) (i : ℕ) : i < rangeLen a b s ↔ b < a + i * s := by
  unfold rangeLen
  rw [if_neg (by omega), Int.lt_toNat, ← Int.add_one_le_iff, Int.le_ediv_iff_mul_le (by omega), add_mul,
    mul_neg]
  constructor <;> intro h <;> omega

/-- **What a rising range holds.** -/
theorem mem_pyRange_pos (hs : 0 < s) : x ∈ pyRange a b s ↔ a ≤ x ∧ x < b ∧ s ∣ x - a := by
  unfold pyRange
  simp only [List.mem_map, List.mem_range, lt_rangeLen_pos hs]
  constructor
  · rintro ⟨i, hi, rfl⟩
    have h0 : 0 ≤ (i : ℤ) * s := by positivity
    exact ⟨by omega, hi, ⟨i, by ring⟩⟩
  · rintro ⟨hle, hlt, c, hc⟩
    have hc0 : 0 ≤ c := by
      by_contra h
      have := mul_neg_of_pos_of_neg hs (not_le.1 h)
      omega
    refine ⟨c.toNat, ?_, ?_⟩ <;> rw [Int.toNat_of_nonneg hc0, mul_comm] <;> omega

/-- **What a falling range holds.** -/
theorem mem_pyRange_neg (hs : s < 0) : x ∈ pyRange a b s ↔ b < x ∧ x ≤ a ∧ s ∣ x - a := by
  unfold pyRange
  simp only [List.mem_map, List.mem_range, lt_rangeLen_neg hs]
  constructor
  · rintro ⟨i, hi, rfl⟩
    have h0 : (i : ℤ) * s ≤ 0 := mul_nonpos_of_nonneg_of_nonpos (by positivity) hs.le
    exact ⟨hi, by omega, ⟨i, by ring⟩⟩
  · rintro ⟨hlt, hle, c, hc⟩
    have hc0 : 0 ≤ c := by
      by_contra h
      have := mul_pos_of_neg_of_neg hs (not_le.1 h)
      omega
    refine ⟨c.toNat, ?_, ?_⟩ <;> rw [Int.toNat_of_nonneg hc0, mul_comm] <;> omega

/-- Ranges of one step run the same way. -/
theorem pairwise_pyRange (hs : s ≠ 0) (a b : ℤ) : (pyRange a b s).Pairwise fun x y => 0 < (y - x) * s := by
  unfold pyRange
  refine List.pairwise_map.2 (List.pairwise_lt_range.imp fun {i j} hij => ?_)
  have hij' : (0 : ℤ) < (j : ℤ) - i := by omega
  have hss : 0 < s * s := mul_self_pos.2 hs
  calc (0 : ℤ) < ((j : ℤ) - i) * (s * s) := mul_pos hij' hss
    _ = (a + j * s - (a + i * s)) * s := by ring

theorem nodup_pyRange (hs : s ≠ 0) (a b : ℤ) : (pyRange a b s).Nodup :=
  (pairwise_pyRange hs a b).imp fun h he => by rw [he, sub_self, zero_mul] at h; exact lt_irrefl _ h

/-- **Ranges of one step with the same members are equal.** -/
theorem pyRange_ext {a' b' : ℤ} (hs : s ≠ 0) (h : ∀ x, x ∈ pyRange a b s ↔ x ∈ pyRange a' b' s) :
    pyRange a b s = pyRange a' b' s := by
  have hperm : (pyRange a b s).Perm (pyRange a' b' s) :=
    (List.perm_ext_iff_of_nodup (nodup_pyRange hs a b) (nodup_pyRange hs a' b')).2 h
  refine hperm.eq_of_pairwise (fun x y _ _ hxy hyx => ?_) (pairwise_pyRange hs a b) (pairwise_pyRange hs a' b')
  have : (y - x) * s + (x - y) * s = 0 := by ring
  omega

/-- A range that steps by one counts up. -/
theorem pyRange_one (a : ℤ) (m : ℕ) : pyRange a (a + m) 1 = (List.range m).map fun i : ℕ => a + i := by
  have hlen : rangeLen a (a + m) 1 = m := by
    unfold rangeLen
    rw [if_pos one_pos]
    omega
  unfold pyRange
  rw [hlen]
  simp

/-! ## Slices -/

/-- `slice(start, stop, step)` of integers; what is omitted is `none`. -/
structure SliceArgs where
  start : Option ℤ
  stop : Option ℤ
  step : Option ℤ
  deriving DecidableEq, Repr

namespace SliceArgs

/-- The step there is: it is 1 when omitted. -/
def stride (s : SliceArgs) : ℤ := s.step.getD 1

/-- A bound of a slice: negative ones count from the end, then it is clamped. -/
def clamp (n lower upper i : ℤ) : ℤ := if i < 0 then max (i + n) lower else min i upper

/-- `slice.indices(n)`: start and stop of the range. -/
def indices (s : SliceArgs) (n : ℤ) : ℤ × ℤ :=
  if 0 < s.stride then
    ((s.start.map (clamp n 0 n)).getD 0, (s.stop.map (clamp n 0 n)).getD n)
  else
    ((s.start.map (clamp n (-1) (n - 1))).getD (n - 1), (s.stop.map (clamp n (-1) (n - 1))).getD (-1))

/-- `range(*s.indices(n))`. -/
def select (s : SliceArgs) (n : ℤ) : List ℤ := pyRange (s.indices n).1 (s.indices n).2 s.stride

end SliceArgs

end OmniJsonDb
