import OmniJsonDb.Model.Slices
import OmniJsonDb.Proof.Upkeep

/-!
# Slices of rows and slices of Python

* `rising_iff`, `falling_iff`: when the rows of a slice are those Python selects, by the sign of the step.
* `JDb.wp_fKeySlice`: what a slice yields where every version is below the counter.
* `JDb.wp_fKeyPages`: what page after page yields.
* `slices_of_runs`: both, in every state reached.
-/

namespace OmniJsonDb

namespace SliceArgs

/-- Falling slices whose rows are those Python selects, by their bounds. -/
def FallsRight (n step : ℤ) : Option ℤ → Option ℤ → Prop
  | none, none => n = 1
  | none, some j => j = -1 ∨ n - 1 ≤ j
  | some i, none => -n ≤ i
  | some i, some j => i < -n ∨ -n ≤ j ∨ ¬ step ∣ (if i < 0 then n + i else min i (n - 1))

instance (n step : ℤ) : ∀ start stop, Decidable (FallsRight n step start stop)
  | none, none => inferInstanceAs (Decidable (n = 1))
  | none, some j => inferInstanceAs (Decidable (j = -1 ∨ n - 1 ≤ j))
  | some i, none => inferInstanceAs (Decidable (-n ≤ i))
  | some i, some j => inferInstanceAs
      (Decidable (i < -n ∨ -n ≤ j ∨ ¬ step ∣ (if i < 0 then n + i else min i (n - 1))))

/-- **Slices whose rows are those Python selects**, over `n` records.

A rising slice must not run from behind the last record to the end: that yields the last record. A
falling one that starts by default starts at row 0, and one that stops before the first record stops
at row 0. -/
def Regular (n : ℤ) (key : SliceArgs) : Prop :=
  n = 0 ∨ if 0 < key.stride then ¬ ((∃ i ∈ key.start, n ≤ i) ∧ ∀ j ∈ key.stop, n ≤ j)
    else FallsRight n key.stride key.start key.stop

instance (n : ℤ) (key : SliceArgs) : Decidable (key.Regular n) :=
  inferInstanceAs (Decidable (n = 0 ∨ if 0 < key.stride then ¬ ((∃ i ∈ key.start, n ≤ i) ∧ ∀ j ∈ key.stop, n ≤ j)
    else FallsRight n key.stride key.start key.stop))

end SliceArgs

variable {n a b step : ℤ}

/-! ## Bounds -/

theorem pyRange_nil_pos (hs : 0 < step) : pyRange a b step = [] ↔ b ≤ a := by
  rw [List.eq_nil_iff_forall_not_mem]
  constructor
  · intro h
    by_contra hlt
    exact h a ((mem_pyRange_pos hs).2 ⟨le_rfl, not_le.1 hlt, by simp⟩)
  · intro h x hx
    have := (mem_pyRange_pos hs).1 hx
    omega

theorem pyRange_nil_neg (hs : step < 0) : pyRange a b step = [] ↔ a ≤ b := by
  rw [List.eq_nil_iff_forall_not_mem]
  constructor
  · intro h
    by_contra hlt
    exact h a ((mem_pyRange_neg hs).2 ⟨not_le.1 hlt, le_rfl, by simp⟩)
  · intro h x hx
    have := (mem_pyRange_neg hs).1 hx
    omega

/-- A falling range to the first row or to the row before it: they differ where it comes to row 0. -/
theorem falling_stop (hs : step < 0) (ha : 0 ≤ a) : pyRange a 0 step = pyRange a (-1) step ↔ ¬ step ∣ a := by
  have hzero : (0 : ℤ) ∈ pyRange a (-1) step ↔ step ∣ a := by
    rw [mem_pyRange_neg hs, zero_sub, Int.dvd_neg]
    exact ⟨fun h => h.2.2, fun h => ⟨by omega, ha, h⟩⟩
  constructor
  · intro he hd
    rw [← hzero, ← he, mem_pyRange_neg hs] at hd
    omega
  · intro hd
    refine pyRange_ext hs.ne fun x => ?_
    rw [mem_pyRange_neg hs, mem_pyRange_neg hs]
    constructor
    · rintro ⟨h, h'⟩
      exact ⟨by omega, h'⟩
    · rintro ⟨h, h'⟩
      refine ⟨?_, h'⟩
      by_contra hx
      obtain rfl : x = 0 := by omega
      exact hd (by simpa using h'.2)

/-- Falling from behind the last record, nothing comes up before the last one. -/
theorem falling_last (hs : step < 0) (hn : 0 < n) : pyRange (n - 1) (-1) step = pyRange 0 (-1) step ↔ n = 1 := by
  constructor
  · intro h
    have hlast : n - 1 ∈ pyRange (n - 1) (-1) step := (mem_pyRange_neg hs).2 ⟨by omega, le_rfl, by simp⟩
    rw [h, mem_pyRange_neg hs] at hlast
    omega
  · rintro rfl
    rfl

/-! ## Slices -/

/-- **Rising slices.** -/
theorem rising_iff (hn : 0 < n) {key : SliceArgs} (hs : 0 < key.stride) :
    pyRange (startRow n key.start) (stopRow n key.stride key.stop) key.stride = key.select n ↔
      ¬ ((∃ i ∈ key.start, n ≤ i) ∧ ∀ j ∈ key.stop, n ≤ j) := by
  have hstop : stopRow n key.stride key.stop = (key.indices n).2 := by
    unfold stopRow SliceArgs.indices SliceArgs.clamp
    rw [if_pos hs]
    cases key.stop with
    | none => simp [hs]
    | some j =>
      simp only [Option.map_some, Option.getD_some]
      split <;> omega
  unfold SliceArgs.select
  rw [hstop]
  by_cases hpast : ∃ i ∈ key.start, n ≤ i
  · -- Python starts behind the last record, the slice at it
    obtain ⟨i, hi, hle⟩ := hpast
    rw [Option.mem_def] at hi
    have hstart : startRow n key.start = n - 1 := by
      simp only [startRow, hi]
      split_ifs <;> omega
    have hpy : (key.indices n).1 = n := by
      simp only [SliceArgs.indices, SliceArgs.clamp, if_pos hs, hi, Option.map_some, Option.getD_some]
      split <;> omega
    have hle' : (key.indices n).2 ≤ n := by
      rw [← hstop]
      unfold stopRow
      split
      · rw [if_pos hs]
      · exact max_le hn.le (min_le_left _ _)
    have hiff : (∀ j ∈ key.stop, n ≤ j) ↔ n ≤ (key.indices n).2 := by
      unfold SliceArgs.indices SliceArgs.clamp
      rw [if_pos hs]
      cases key.stop with
      | none => simp
      | some j =>
        simp only [Option.mem_def, Option.some.injEq, forall_eq', Option.map_some, Option.getD_some]
        split <;> omega
    rw [hstart, hpy, (pyRange_nil_pos hs).2 hle', pyRange_nil_pos hs, hiff]
    have hex : ∃ i ∈ key.start, n ≤ i := ⟨i, hi, hle⟩
    simp only [hex, true_and]
    omega
  · have hstart : startRow n key.start = (key.indices n).1 := by
      unfold startRow SliceArgs.indices SliceArgs.clamp
      rw [if_pos hs]
      cases hk : key.start with
      | none => rfl
      | some i =>
        have hlt : i < n := by
          by_contra h
          exact hpast ⟨i, hk, not_lt.1 h⟩
        simp only [Option.map_some, Option.getD_some]
        split_ifs <;> omega
    rw [hstart]
    exact iff_of_true rfl fun h => hpast h.1

/-- Where a falling slice starts: Python's own start, but for a start before the first record. -/
theorem startRow_falling (hn : 0 < n) (i : ℤ) :
    startRow n (some i) = if i < -n then 0 else if i < 0 then n + i else min i (n - 1) := by
  simp only [startRow]
  split_ifs <;> omega

theorem clamp_falling (hn : 0 < n) (i : ℤ) :
    SliceArgs.clamp n (-1) (n - 1) i = if i < -n then -1 else if i < 0 then n + i else min i (n - 1) := by
  unfold SliceArgs.clamp
  split_ifs <;> omega

/-- A falling slice that starts at a given row. -/
theorem falling_from (hn : 0 < n) (hs : step < 0) (i j : ℤ) :
    pyRange (startRow n (some i)) (stopRow n step (some j)) step =
        pyRange (SliceArgs.clamp n (-1) (n - 1) i) (SliceArgs.clamp n (-1) (n - 1) j) step ↔
      i < -n ∨ -n ≤ j ∨ ¬ step ∣ (if i < 0 then n + i else min i (n - 1)) := by
  have hstop : stopRow n step (some j) = if j < -n then 0 else if j < 0 then n + j else min n j := by
    simp only [stopRow]
    split_ifs <;> omega
  rw [startRow_falling hn, hstop, clamp_falling hn, clamp_falling hn]
  by_cases hi : i < -n
  · -- both are empty
    have hcode : pyRange 0 (if j < -n then 0 else if j < 0 then n + j else min n j) step = [] := by
      rw [pyRange_nil_neg hs]
      split_ifs <;> omega
    have hpy : pyRange (-1) (if j < -n then -1 else if j < 0 then n + j else min j (n - 1)) step = [] := by
      rw [pyRange_nil_neg hs]
      split_ifs <;> omega
    rw [if_pos hi, if_pos hi, hcode, hpy]
    exact iff_of_true rfl (.inl hi)
  · rw [if_neg hi, if_neg hi]
    set a := if i < 0 then n + i else min i (n - 1) with ha
    have hrow : 0 ≤ a ∧ a ≤ n - 1 := by
      rw [ha]
      split_ifs <;> omega
    by_cases hj : j < -n
    · rw [if_pos hj, if_pos hj, falling_stop hs hrow.1]
      simp only [hi, not_le.2 hj, false_or]
    · rw [if_neg hj, if_neg hj]
      refine iff_of_true ?_ (.inr (.inl (not_lt.1 hj)))
      by_cases hlast : j < n
      · have hmin : min n j = min j (n - 1) := by omega
        rw [hmin]
      · -- a stop behind the last record leaves nothing
        have hcode : pyRange a (if j < 0 then n + j else min n j) step = [] := by
          rw [pyRange_nil_neg hs]
          split_ifs <;> omega
        have hpy : pyRange a (if j < 0 then n + j else min j (n - 1)) step = [] := by
          rw [pyRange_nil_neg hs]
          split_ifs <;> omega
        rw [hcode, hpy]

/-- **Falling slices.** -/
theorem falling_iff (hn : 0 < n) {key : SliceArgs} (hs : key.stride < 0) :
    pyRange (startRow n key.start) (stopRow n key.stride key.stop) key.stride = key.select n ↔
      SliceArgs.FallsRight n key.stride key.start key.stop := by
  have hns : ¬ 0 < key.stride := by omega
  have hopen : stopRow n key.stride none = -1 := by
    simp only [stopRow, if_neg hns, if_pos hn]
  unfold SliceArgs.select SliceArgs.indices
  rw [if_neg hns]
  cases key.start with
  | none =>
    cases key.stop with
    | none =>
      rw [hopen]
      exact eq_comm.trans (falling_last hs hn)
    | some j =>
      -- no row is below a stop that is not negative
      have hcode : pyRange (startRow n none) (stopRow n key.stride (some j)) key.stride = [] :=
        (pyRange_nil_neg hs).2 (le_max_left _ _)
      simp only [Option.map_none, Option.getD_none, Option.map_some, Option.getD_some]
      rw [hcode, eq_comm, pyRange_nil_neg hs, clamp_falling hn, SliceArgs.FallsRight]
      split_ifs <;> omega
  | some i =>
    cases key.stop with
    | none =>
      simp only [Option.map_none, Option.getD_none, Option.map_some, Option.getD_some]
      rw [hopen, startRow_falling hn, clamp_falling hn]
      by_cases hi : i < -n
      · rw [if_pos hi, if_pos hi, (pyRange_nil_neg hs).2 le_rfl, pyRange_nil_neg hs, SliceArgs.FallsRight]
        omega
      · rw [if_neg hi, if_neg hi]
        exact iff_of_true rfl (not_lt.1 hi)
    | some j => exact falling_from hn hs i j

/-- Without records there are no rows. -/
theorem slice_empty {key : SliceArgs} (hs : key.stride ≠ 0) :
    pyRange (startRow 0 key.start) (stopRow 0 key.stride key.stop) key.stride = [] ∧ key.select 0 = [] := by
  have hstart : startRow 0 key.start = 0 := by
    cases key.start with
    | none => rfl
    | some i =>
      simp only [startRow]
      split_ifs <;> omega
  have hstop : stopRow 0 key.stride key.stop = 0 := by
    cases key.stop with
    | none => simp [stopRow]
    | some j =>
      simp only [stopRow]
      split_ifs <;> omega
  have hup : ∀ i, SliceArgs.clamp 0 0 0 i = 0 := by
    intro i
    unfold SliceArgs.clamp
    split_ifs <;> omega
  have hdown : ∀ i, SliceArgs.clamp 0 (-1) (-1) i = -1 := by
    intro i
    unfold SliceArgs.clamp
    split_ifs <;> omega
  rw [hstart, hstop]
  unfold SliceArgs.select SliceArgs.indices
  by_cases hpos : 0 < key.stride
  · rw [if_pos hpos]
    refine ⟨(pyRange_nil_pos hpos).2 le_rfl, (pyRange_nil_pos hpos).2 ?_⟩
    cases key.start <;> cases key.stop <;> simp [hup]
  · have hneg : key.stride < 0 := by omega
    rw [if_neg hpos]
    refine ⟨(pyRange_nil_neg hneg).2 le_rfl, (pyRange_nil_neg hneg).2 ?_⟩
    cases key.start <;> cases key.stop <;> simp [hdown]

/-- The rows of a slice are live ones. -/
theorem mem_slice {x : ℤ} (n : ℕ) {key : SliceArgs} (hs : key.stride ≠ 0)
    (hx : x ∈ pyRange (startRow n key.start) (stopRow n key.stride key.stop) key.stride) : 0 ≤ x ∧ x < n := by
  rcases Nat.eq_zero_or_pos n with rfl | hn
  · have hnil := (slice_empty hs).1
    push_cast at hx
    rw [hnil] at hx
    cases hx
  · have hstart : 0 ≤ startRow n key.start ∧ startRow n key.start ≤ n - 1 := by
      cases key.start with
      | none => exact ⟨le_rfl, by simp only [startRow]; omega⟩
      | some i =>
        simp only [startRow]
        split_ifs <;> omega
    have hstop : -1 ≤ stopRow n key.stride key.stop ∧ stopRow n key.stride key.stop ≤ n := by
      cases key.stop with
      | none =>
        simp only [stopRow]
        split_ifs <;> omega
      | some j =>
        simp only [stopRow]
        split_ifs <;> omega
    by_cases hpos : 0 < key.stride
    · have := (mem_pyRange_pos hpos).1 hx
      omega
    · have := (mem_pyRange_neg (by omega)).1 hx
      omega

/-- **The rows of a slice are those Python selects just when it is regular.** -/
theorem slice_iff (n : ℕ) {key : SliceArgs} (hs : key.stride ≠ 0) :
    pyRange (startRow n key.start) (stopRow n key.stride key.stop) key.stride = key.select n ↔ key.Regular n := by
  unfold SliceArgs.Regular
  rcases Nat.eq_zero_or_pos n with rfl | hn
  · have h := slice_empty hs
    exact iff_of_true (h.1.trans h.2.symm) (.inl rfl)
  · have hn' : (0 : ℤ) < n := Int.natCast_pos.2 hn
    rw [or_iff_right hn'.ne']
    by_cases hpos : 0 < key.stride
    · rw [if_pos hpos]
      exact rising_iff hn' hpos
    · rw [if_neg hpos]
      exact falling_iff hn' (by omega)

/-! ## Pages -/

/-- What the page `i` of `p` records yields, over `n` records. -/
def pageRows (n p i : ℕ) : List ℕ :=
  if i * p < n then List.range' (i * p) (min p (n - i * p)) else if n = 0 then [] else [n - 1]

/-- The pages that begin at a record. -/
theorem pages_within (n p k : ℕ) (h : (k - 1) * p < n ∨ k = 0) :
    (List.range k).flatMap (pageRows n p) = List.range (min n (k * p)) := by
  induction k with
  | zero => simp
  | succ k ih =>
    have hk : k * p < n := by simpa using h
    have hprev : (k - 1) * p < n ∨ k = 0 :=
      .inl (lt_of_le_of_lt (Nat.mul_le_mul_right p (Nat.sub_le k 1)) hk)
    have hmin : min n ((k + 1) * p) = k * p + min p (n - k * p) := by
      rw [Nat.succ_mul]
      omega
    rw [List.range_succ, List.flatMap_append, ih hprev, List.flatMap_singleton, pageRows, if_pos hk,
      min_eq_right hk.le, hmin, List.range_add, List.range'_eq_map_range]

/-- **The pages together are the records, each once**, when they reach the last record and the last
page begins at a record. -/
theorem pages_iff {n p : ℕ} (hp : 0 < p) (k : ℕ) :
    (List.range k).flatMap (pageRows n p) = List.range n ↔ n = 0 ∨ n ≤ k * p ∧ (k - 1) * p < n := by
  by_cases hk : (k - 1) * p < n ∨ k = 0
  · rw [pages_within n p k hk]
    have hlen : List.range (min n (k * p)) = List.range n ↔ n ≤ k * p := by
      constructor
      · intro h
        have := congrArg List.length h
        rw [List.length_range, List.length_range] at this
        omega
      · intro h
        rw [min_eq_left h]
    rw [hlen]
    rcases hk with hk | rfl <;> omega
  · push Not at hk
    obtain ⟨hle, hk0⟩ := hk
    obtain ⟨m, rfl⟩ := Nat.exists_eq_succ_of_ne_zero hk0
    rw [Nat.succ_sub_one] at hle
    rcases Nat.eq_zero_or_pos n with rfl | hn
    · have hnil : ∀ i ∈ List.range (m + 1), pageRows 0 p i = [] := fun i _ => by simp [pageRows]
      exact iff_of_true (List.flatMap_eq_nil_iff.2 hnil) (.inl rfl)
    · -- the last page yields the last record once more
      refine iff_of_false (fun h => ?_) (by rw [Nat.succ_sub_one]; omega)
      have hlast : n - 1 ∈ (List.range m).flatMap (pageRows n p) := by
        have hdiv : (n - 1) / p * p ≤ n - 1 := Nat.div_mul_le_self _ _
        have hmod := Nat.lt_div_mul_add hp (a := n - 1)
        refine List.mem_flatMap.2 ⟨(n - 1) / p, ?_, ?_⟩
        · rw [List.mem_range, Nat.div_lt_iff_lt_mul hp]
          omega
        · rw [pageRows, if_pos (by omega), List.mem_range'_1]
          omega
      have hnd : ((List.range (m + 1)).flatMap (pageRows n p)).Nodup := by
        rw [h]
        exact List.nodup_range
      rw [List.range_succ, List.flatMap_append, List.flatMap_singleton, pageRows, if_neg (by omega),
        if_neg (by omega)] at hnd
      exact List.disjoint_of_nodup_append hnd hlast (List.mem_singleton_self _)

/-- The slice of a page. -/
theorem page_slice {n p : ℕ} (hp : 0 < p) (i : ℕ) :
    (pyRange (startRow n (some (i * p : ℕ))) (stopRow n 1 (some ((i + 1) * p : ℕ))) 1).map Int.toNat =
      pageRows n p i := by
  have hstop : stopRow n 1 (some ((i + 1) * p : ℕ)) = (min n ((i + 1) * p) : ℕ) := by
    simp only [stopRow]
    split_ifs <;> omega
  unfold pageRows
  have hsucc : (i + 1) * p = i * p + p := Nat.succ_mul i p
  by_cases hlt : i * p < n
  · have hstart : startRow n (some (i * p : ℕ)) = (i * p : ℕ) := by
      simp only [startRow]
      split_ifs <;> omega
    have hend : ((min n ((i + 1) * p) : ℕ) : ℤ) = (i * p : ℕ) + (min p (n - i * p) : ℕ) := by omega
    rw [hstart, hstop, hend, pyRange_one, if_pos hlt, List.range'_eq_map_range, List.map_map]
    refine List.map_congr_left fun j _ => ?_
    simp only [Function.comp_apply]
    omega
  · rw [if_neg hlt, hstop]
    rcases Nat.eq_zero_or_pos n with rfl | hn
    · rw [if_pos rfl, List.map_eq_nil_iff, pyRange_nil_pos one_pos]
      simp only [startRow]
      split_ifs <;> omega
    · have hstart : startRow n (some (i * p : ℕ)) = (n - 1 : ℕ) := by
        simp only [startRow]
        split_ifs <;> omega
      have hend : ((min n ((i + 1) * p) : ℕ) : ℤ) = (n - 1 : ℕ) + (1 : ℕ) := by omega
      rw [hstart, hend, pyRange_one, if_neg (by omega)]
      simp

/-! ## What the handle yields -/

namespace JDb

variable {db : JDb} {m : ℕ}

/-- The slice yields the rows that Python selects, in that order. -/
def Slices (db : JDb) (key : SliceArgs) : Prop :=
  ∃ out db', (fKeySlice key).run db = (.ok out, db') ∧ (out.map fun e => (e.1 : ℤ)) = key.select db.io.nRecords

/-- **What a slice yields.** -/
theorem wp_fKeySlice (h : Settled m db) (hd : db.io.Dated) {key : SliceArgs} (hs : key.stride ≠ 0) :
    Exec.Wp (fKeySlice key) db (fun out db' => Settled m db' ∧ db'.io.Dated ∧ db'.io.cnt = db.io.cnt ∧
      out.map Prod.fst = (pyRange (startRow db.io.nRecords key.start) (stopRow db.io.nRecords key.stride key.stop)
        key.stride).map Int.toNat) fun _ _ => False := by
  have hslice : fSlice db.io.nRecords key =
      .ok (startRow db.io.nRecords key.start, stopRow db.io.nRecords key.stride key.stop, key.stride) := if_neg hs
  have hrow : ∀ r ∈ (pyRange (startRow db.io.nRecords key.start) (stopRow db.io.nRecords key.stride key.stop)
      key.stride).map Int.toNat, r < db.io.nRecords := by
    intro r hr
    obtain ⟨x, hx, rfl⟩ := List.mem_map.1 hr
    have hlt := mem_slice db.io.nRecords hs hx
    omega
  unfold fKeySlice
  rw [Exec.wp_bind, Exec.wp_get, Exec.wp_bind, hslice, Exec.wp_lift]
  refine ⟨fun a ha => ?_, fun e he => by cases he⟩
  cases ha
  refine Exec.wp_mono (yieldRows_all _ h hd hrow) ?_ fun _ _ h' => h'
  rintro out db' ⟨hout, h', hd', hcnt⟩
  exact ⟨h', hd', hcnt, hout⟩

/-- The slice without bounds is the one of all records. -/
theorem fKeySlice_all : fKeySlice ⟨none, none, none⟩ = fKeyIter none := by
  have hrows : ∀ n : ℕ, (pyRange 0 n 1).map Int.toNat = List.range n := by
    intro n
    have h := pyRange_one 0 n
    rw [zero_add] at h
    rw [h, List.map_map]
    simp [Function.comp_def]
  funext db
  change yieldRows db.io.cnt.syncId ((pyRange 0 db.io.nRecords 1).map Int.toNat) db = _
  rw [hrows]
  rfl

/-- **A slice yields what Python selects just when it is regular.** -/
theorem Settled.slices_iff (h : Settled m db) (hd : db.io.Dated) {key : SliceArgs} (hs : key.stride ≠ 0) :
    db.Slices key ↔ key.Regular db.io.nRecords := by
  obtain ⟨out, db', hrun, -, -, -, hout⟩ := (wp_fKeySlice h hd hs).returns
  rw [← slice_iff db.io.nRecords hs]
  have hcast : (out.map fun e => (e.1 : ℤ)) =
      pyRange (startRow db.io.nRecords key.start) (stopRow db.io.nRecords key.stride key.stop) key.stride := by
    calc (out.map fun e => (e.1 : ℤ)) = (out.map Prod.fst).map Int.ofNat := by rw [List.map_map]; rfl
      _ = (pyRange (startRow db.io.nRecords key.start) (stopRow db.io.nRecords key.stride key.stop)
            key.stride).map fun x => (x.toNat : ℤ) := by rw [hout, List.map_map]; rfl
      _ = _ := (List.map_congr_left fun x hx => Int.toNat_of_nonneg (mem_slice _ hs hx).1).trans (List.map_id _)
  constructor
  · rintro ⟨out', db'', hrun', hrows⟩
    rw [hrun] at hrun'
    cases hrun'
    rw [← hcast, hrows]
  · intro he
    exact ⟨out, db', hrun, hcast.trans he⟩

/-- **What page after page yields.** -/
theorem wp_fKeyPages {p : ℕ} (hp : 0 < p) (k : ℕ) : ∀ (i : ℕ) {db : JDb}, Settled m db → db.io.Dated →
    Exec.Wp (fKeyPages p i k) db (fun out _ => out = (List.range' i k).flatMap (pageRows db.io.nRecords p))
      fun _ _ => False := by
  induction k with
  | zero => intro i db _ _; rfl
  | succ k ih =>
    intro i db h hd
    unfold fKeyPages
    rw [Exec.wp_bind]
    refine Exec.wp_mono (wp_fKeySlice h hd one_ne_zero) ?_ fun _ _ h' => h'
    rintro page db₁ ⟨h₁, hd₁, hcnt, hpage⟩
    rw [Exec.wp_bind]
    refine Exec.wp_mono (ih (i + 1) h₁ hd₁) ?_ fun _ _ h' => h'
    intro more _ hmore
    have hrec : db₁.io.nRecords = db.io.nRecords := congrArg Counters.nRecords hcnt
    rw [Exec.wp_ret, hpage, hmore, hrec, List.range'_succ, List.flatMap_cons, ← page_slice hp i]
    rfl

/-- The first `k` pages together are the records, each once and in order. -/
def Pages (db : JDb) (p k : ℕ) : Prop :=
  ∃ db', (fKeyPages p 0 k).run db = (.ok (List.range db.io.nRecords), db')

theorem Settled.pages_iff (h : Settled m db) (hd : db.io.Dated) {p : ℕ} (hp : 0 < p) (k : ℕ) :
    db.Pages p k ↔ db.io.nRecords = 0 ∨ db.io.nRecords ≤ k * p ∧ (k - 1) * p < db.io.nRecords := by
  obtain ⟨out, db', hrun, hout⟩ := (wp_fKeyPages hp k 0 h hd).returns
  rw [← List.range_eq_range'] at hout
  rw [← OmniJsonDb.pages_iff hp k, ← hout]
  constructor
  · rintro ⟨db'', hrun'⟩
    rw [hrun] at hrun'
    cases hrun'
    rfl
  · rintro rfl
    exact ⟨db', hrun⟩

end JDb

/-! ## Runs -/

/-- **Slices in every state reached**: where all versions are below the session counter and the
live rows have dates that `date` has, a slice yields the rows that Python selects just when it is
regular; and pages read one after the other are the records, each once, just when the last of them
is the one that holds the last record. -/
theorem slices_of_runs {cfg : Config} {tr : List (Env × Work)} {db : JDb}
    (hr : Runs (FreshStep cfg) (JDb.init cfg) tr db) (hd : db.io.Dated) :
    (∀ key : SliceArgs, key.stride ≠ 0 → (db.Slices key ↔ key.Regular db.io.nRecords)) ∧
    ∀ p, 0 < p → ∀ k, db.Pages p k ↔
      db.io.nRecords = 0 ∨ db.io.nRecords ≤ k * p ∧ (k - 1) * p < db.io.nRecords := by
  have h := settled_of_runs hr
  exact ⟨fun key hs => h.slices_iff hd hs, fun p hp k => h.pages_iff hd hp k⟩

/-- Two records. -/
def sliceWork : List (Env × Work) :=
  [({}, .call .opened), ({}, .call (.write ['A'] (.int 5) {})), ({}, .call (.write ['B'] (.int 6) {})),
    ({}, .call .closed)]

theorem slices_plain : ∃ db, Runs (FreshStep jsonCfg) (JDb.init jsonCfg) sliceWork db ∧ db.io.nRecords = 2 ∧
    db.Slices ⟨some (-1), none, some (-1)⟩ ∧ db.Slices ⟨some (-5), some 7, none⟩ ∧ db.Pages 1 2 := by
  obtain ⟨db, hrun, h⟩ := (Option.any_eq_true (fun db : JDb => decide (db.io.nRecords = 2 ∧ db.io.Dated))
    (runFresh jsonCfg sliceWork (JDb.init jsonCfg))).1 (by decide +kernel)
  obtain ⟨hn, hd⟩ := of_decide_eq_true h
  have hr := runs_of_runFresh hrun
  obtain ⟨hs, hp⟩ := slices_of_runs hr hd
  refine ⟨db, hr, hn, (hs _ (by decide)).2 ?_, (hs _ (by decide)).2 ?_, (hp 1 one_pos 2).2 ?_⟩
  · rw [hn]
    exact .inr (by decide)
  · rw [hn]
    exact .inr (by decide)
  · rw [hn]
    decide

/-- **Backwards over everything**: `keys[::-1]` starts at row 0 and yields it alone; and the page
behind the last record yields that record again. -/
theorem slices_fail : ∃ db, Runs (FreshStep jsonCfg) (JDb.init jsonCfg) sliceWork db ∧
    ¬ db.Slices ⟨none, none, some (-1)⟩ ∧ ¬ db.Slices ⟨some 2, some 4, none⟩ ∧ ¬ db.Pages 2 2 := by
  obtain ⟨db, hrun, h⟩ := (Option.any_eq_true (fun db : JDb => decide (db.io.nRecords = 2 ∧ db.io.Dated))
    (runFresh jsonCfg sliceWork (JDb.init jsonCfg))).1 (by decide +kernel)
  obtain ⟨hn, hd⟩ := of_decide_eq_true h
  have hr := runs_of_runFresh hrun
  have hset := settled_of_runs hr
  refine ⟨db, hr, ?_, ?_, ?_⟩
  · rw [hset.slices_iff hd (by decide), hn]
    decide
  · rw [hset.slices_iff hd (by decide), hn]
    decide
  · rw [hset.pages_iff hd two_pos 2, hn]
    decide

end OmniJsonDb
