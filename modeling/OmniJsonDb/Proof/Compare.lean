import OmniJsonDb.Model.Compare

/-!
# Comparing a stored value with a new one

* `compareBlocks_later`: blocks behind the first are compared as they are.
* `compareValue_eq`: the comparison is that of all the bytes at once.
* `compareValue_iff`: it tells values apart exactly, but for an empty one.
-/

namespace OmniJsonDb

/-- **What counts as unchanged**: the same bytes; of gzip, the same but for the four that hold a time. -/
def Unchanged (gz : Bool) (stored data : Bytes) : Prop :=
  if gz then stored.take 4 = data.take 4 ∧ stored.drop 8 = data.drop 8 else stored = data

instance (gz : Bool) (stored data : Bytes) : Decidable (Unchanged gz stored data) :=
  inferInstanceAs (Decidable (if gz then _ ∧ _ else _))

/-! ## Reading in parts -/

theorem byteSlice_eq (b : Bytes) (start n : ℕ) : byteSlice b start (start + n) = (b.drop start).take n := by
  unfold byteSlice
  rw [List.drop_take, Nat.add_sub_cancel_left]

/-- A part of what is read is read by itself. -/
theorem ByteFile.read_part (f : ByteFile) {off n k m : ℕ} (hf : off + n ≤ f.size) (hk : k + m ≤ n) :
    f.read (off + k) m = ((f.read off n).drop k).take m := by
  refine List.ext_getElem ?_ fun i h₁ h₂ => ?_
  · rw [ByteFile.length_read, List.length_take, List.length_drop, ByteFile.length_read]
    omega
  · rw [List.getElem_take, List.getElem_drop]
    simp only [ByteFile.read, List.getElem_map, List.getElem_range, Nat.add_assoc]

/-- Two parts are equal when their beginnings and their rests are. -/
theorem part_eq_iff (l l' : Bytes) {k a : ℕ} (b : ℕ) (hl : k + a ≤ l.length) (hl' : k + a ≤ l'.length) :
    (l.drop k).take (a + b) = (l'.drop k).take (a + b) ↔
      (l.drop k).take a = (l'.drop k).take a ∧ (l.drop (k + a)).take b = (l'.drop (k + a)).take b := by
  rw [List.take_add, List.take_add, List.drop_drop, List.drop_drop]
  have hlen : ((l.drop k).take a).length = ((l'.drop k).take a).length := by
    rw [List.length_take, List.length_take, List.length_drop, List.length_drop]
    omega
  constructor
  · intro h
    exact List.append_inj h hlen
  · rintro ⟨h₁, h₂⟩
    rw [h₁, h₂]

variable {gz : Bool} {f : ByteFile} {data : Bytes} {offset : ℕ}

/-- A buffer is filled. -/
theorem readinto_full {buf : Bytes} {k : ℕ} (hf : offset + data.length ≤ f.size) (hk : k + buf.length ≤ data.length) :
    f.readinto (offset + k) buf =
      (((f.read offset data.length).drop k).take buf.length, offset + (k + buf.length)) := by
  have hlen : (f.read (offset + k) buf.length).length = buf.length := by
    rw [ByteFile.length_read]
    omega
  unfold ByteFile.readinto
  simp only [hlen, List.drop_length, List.append_nil]
  rw [f.read_part hf hk, Nat.add_assoc]

/-! ## The loop -/

/-- **Blocks behind the first** are compared as they are. -/
theorem compareBlocks_later {rdSize : ℕ} (hf : offset + data.length ≤ f.size) (n : ℕ) :
    ∀ {ii ix : ℕ} {buf : Bytes}, ii ≠ 0 → buf.length = rdSize → ix + n * rdSize ≤ data.length →
      compareBlocks gz f data rdSize n ii ix (offset + ix) buf =
        if ((f.read offset data.length).drop ix).take (n * rdSize) = (data.drop ix).take (n * rdSize) then
          some (ix + n * rdSize, offset + (ix + n * rdSize)) else none := by
  induction n with
  | zero =>
    intro ii ix buf _ _ _
    simp [compareBlocks]
  | succ n ih =>
    intro ii ix buf hii hbuf hle
    have hsucc : (n + 1) * rdSize = rdSize + n * rdSize := by rw [Nat.succ_mul, Nat.add_comm]
    have hstored : (f.read offset data.length).length = data.length := by
      rw [ByteFile.length_read]
      omega
    have hiff := part_eq_iff (f.read offset data.length) data (k := ix) (a := rdSize) (n * rdSize) (by omega)
      (by omega)
    unfold compareBlocks
    rw [readinto_full hf (by omega), hsucc, hbuf]
    simp only [byteSlice_eq]
    by_cases hblock : ((f.read offset data.length).drop ix).take rdSize = (data.drop ix).take rdSize
    · have hlen : (((f.read offset data.length).drop ix).take rdSize).length = rdSize := by
        rw [List.length_take, List.length_drop]
        omega
      rw [if_pos hblock, ih (Nat.succ_ne_zero ii) hlen (by omega), ← Nat.add_assoc ix]
      refine if_congr ?_ rfl rfl
      rw [hiff]
      exact (and_iff_right hblock).symm
    · rw [if_neg hblock, if_neg fun h => hii h.1, if_neg fun h => hblock (hiff.1 h).1]

/-- The first block is unchanged, the time in a header of gzip apart. -/
def FirstSame (gz : Bool) (stored data : Bytes) (rdSize : ℕ) : Prop :=
  stored.take rdSize = data.take rdSize ∨ (16 ≤ data.length ∧ gz = true) ∧
    byteSlice (stored.take rdSize) 0 4 ++ byteSlice data 4 8 ++ (stored.take rdSize).drop 8 = data.take rdSize

instance (gz : Bool) (stored data : Bytes) (rdSize : ℕ) : Decidable (FirstSame gz stored data rdSize) :=
  inferInstanceAs (Decidable (_ ∨ _))

/-- **All whole blocks.** -/
theorem compareBlocks_all {rdSize m : ℕ} {buf : Bytes} (hf : offset + data.length ≤ f.size)
    (hbuf : buf.length = rdSize) (hle : (m + 1) * rdSize ≤ data.length) :
    compareBlocks gz f data rdSize (m + 1) 0 0 offset buf =
      if FirstSame gz (f.read offset data.length) data rdSize ∧
          ((f.read offset data.length).drop rdSize).take (m * rdSize) = (data.drop rdSize).take (m * rdSize) then
        some ((m + 1) * rdSize, offset + (m + 1) * rdSize) else none := by
  have hsucc : (m + 1) * rdSize = rdSize + m * rdSize := by rw [Nat.succ_mul, Nat.add_comm]
  have hstored : (f.read offset data.length).length = data.length := by
    rw [ByteFile.length_read]
    omega
  have hread : f.readinto (offset + 0) buf =
      (((f.read offset data.length).drop 0).take buf.length, offset + (0 + buf.length)) :=
    readinto_full hf (by omega)
  have hdata : byteSlice data 0 rdSize = data.take rdSize := by simp [byteSlice]
  have hlater : ∀ buf' : Bytes, buf'.length = rdSize → compareBlocks gz f data rdSize m 1 rdSize (offset + rdSize) buf' =
      if ((f.read offset data.length).drop rdSize).take (m * rdSize) = (data.drop rdSize).take (m * rdSize) then
        some ((m + 1) * rdSize, offset + (m + 1) * rdSize) else none := by
    intro buf' hbuf'
    rw [compareBlocks_later hf m one_ne_zero hbuf' (by omega), hsucc]
  unfold compareBlocks
  rw [Nat.add_zero, Nat.zero_add, List.drop_zero, hbuf] at hread
  rw [hread]
  simp only [Nat.zero_add, hdata]
  have hlen : ((f.read offset data.length).take rdSize).length = rdSize := by
    rw [List.length_take]
    omega
  unfold FirstSame
  by_cases hsame : (f.read offset data.length).take rdSize = data.take rdSize
  · rw [if_pos hsame, hlater _ hlen]
    exact if_congr (and_iff_right (.inl hsame)).symm rfl rfl
  · rw [if_neg hsame]
    by_cases hgz : 16 ≤ data.length ∧ gz = true
    · rw [if_pos ⟨trivial, hgz⟩]
      by_cases hpatch : byteSlice ((f.read offset data.length).take rdSize) 0 4 ++ byteSlice data 4 8 ++
          ((f.read offset data.length).take rdSize).drop 8 = data.take rdSize
      · rw [if_pos hpatch, hlater]
        · exact if_congr (and_iff_right (.inr ⟨hgz, hpatch⟩)).symm rfl rfl
        · rw [hpatch, List.length_take]
          omega
      · rw [if_neg hpatch, if_neg]
        rintro ⟨h | h, -⟩
        · exact hsame h
        · exact hpatch h.2
    · rw [if_neg fun h => hgz h.2, if_neg]
      rintro ⟨h | h, -⟩
      · exact hsame h
      · exact hgz h.1

/-- The first block and the rest, at once. -/
theorem firstSame_iff (gz : Bool) {stored : Bytes} (rdSize : ℕ) (hlen : stored.length = data.length) (hle : rdSize ≤ data.length)
    (hrd : 16 ≤ data.length → 16 ≤ rdSize) :
    FirstSame gz stored data rdSize ∧ stored.drop rdSize = data.drop rdSize ↔
      stored = data ∨ (16 ≤ data.length ∧ gz = true) ∧ JDb.patchGz stored data = data := by
  have hsplit : ∀ l l' : Bytes, l.length = rdSize → l'.length + rdSize = data.length →
      (l ++ l' = data ↔ l = data.take rdSize ∧ l' = data.drop rdSize) := by
    intro l l' h h'
    constructor
    · rintro rfl
      rw [← h, List.take_left, List.drop_left]
      exact ⟨rfl, rfl⟩
    · rintro ⟨rfl, rfl⟩
      exact List.take_append_drop _ _
  have htake : (stored.take rdSize).length = rdSize := by
    rw [List.length_take]
    omega
  have hdrop : (stored.drop rdSize).length + rdSize = data.length := by
    rw [List.length_drop]
    omega
  have hplain : stored = data ↔ stored.take rdSize = data.take rdSize ∧ stored.drop rdSize = data.drop rdSize := by
    rw [← hsplit _ _ htake hdrop, List.take_append_drop]
  have hpatch : 16 ≤ data.length → (JDb.patchGz stored data = data ↔
      byteSlice (stored.take rdSize) 0 4 ++ byteSlice data 4 8 ++ (stored.take rdSize).drop 8 = data.take rdSize ∧
        stored.drop rdSize = data.drop rdSize) := by
    intro h16
    have h := hrd h16
    rw [← hsplit _ _ ?_ hdrop]
    · have hrest : (stored.take rdSize).drop 8 ++ stored.drop rdSize = stored.drop 8 := by
        rw [← List.drop_append_of_le_length (by omega), List.take_append_drop]
      have hfirst : byteSlice (stored.take rdSize) 0 4 = stored.take 4 := by
        simp only [byteSlice, List.drop_zero, List.take_take]
        rw [min_eq_left (by omega)]
      rw [List.append_assoc, hrest, hfirst, byteSlice_eq data 4 4]
      rfl
    · simp only [byteSlice, List.length_append, List.length_drop, List.length_take]
      omega
  unfold FirstSame
  by_cases hgz : 16 ≤ data.length ∧ gz = true
  · rw [hplain, hpatch hgz.1, or_and_right, and_assoc]
  · rw [hplain]
    simp only [hgz, false_and, or_false]

/-! ## The comparison -/

/-- **The comparison is that of all the bytes at once**: of bytes that lie in the file, and are there. -/
theorem compareValue_eq (hf : offset + data.length ≤ f.size) (hne : data ≠ []) :
    compareValue gz f offset data = some (decide (f.read offset data.length = data ∨
      (16 ≤ data.length ∧ gz = true) ∧ JDb.patchGz (f.read offset data.length) data = data)) := by
  have hpos : 0 < data.length := List.length_pos_iff.2 hne
  obtain ⟨rdSize, hrd⟩ : ∃ n, n = min MAX_BLOCK_SIZE data.length := ⟨_, rfl⟩
  have hmax : 16 ≤ MAX_BLOCK_SIZE := by decide
  have hrdpos : 0 < rdSize := by omega
  have hstored : (f.read offset data.length).length = data.length := by
    rw [ByteFile.length_read]
    omega
  obtain ⟨m, hm⟩ : ∃ m, data.length / rdSize = m + 1 :=
    Nat.exists_eq_succ_of_ne_zero (Nat.div_pos (by omega) hrdpos).ne'
  have hle : (m + 1) * rdSize ≤ data.length := hm ▸ Nat.div_mul_le_self _ _
  have hsucc : (m + 1) * rdSize = rdSize + m * rdSize := by rw [Nat.succ_mul, Nat.add_comm]
  -- what is left behind the last whole block
  obtain ⟨rest, hrest⟩ : ∃ n, n = data.length - (m + 1) * rdSize := ⟨_, rfl⟩
  have hparts : (f.read offset data.length).drop rdSize = data.drop rdSize ↔
      ((f.read offset data.length).drop rdSize).take (m * rdSize) = (data.drop rdSize).take (m * rdSize) ∧
        ((f.read offset data.length).drop ((m + 1) * rdSize)).take rest =
          (data.drop ((m + 1) * rdSize)).take rest := by
    have h := part_eq_iff (f.read offset data.length) data (k := rdSize) (a := m * rdSize) rest (by omega)
      (by omega)
    rw [List.take_of_length_le (by rw [List.length_drop]; omega),
      List.take_of_length_le (by rw [List.length_drop]; omega), ← hsucc] at h
    exact h
  have hiff := (and_congr_right' hparts).symm.trans
    (firstSame_iff gz rdSize hstored (by omega) (by omega))
  refine Eq.trans ?_ (congrArg some (Bool.decide_congr hiff))
  unfold compareValue
  simp only [← hrd, if_pos hpos, hm]
  rw [compareBlocks_all hf List.length_replicate hle]
  by_cases hblocks : FirstSame gz (f.read offset data.length) data rdSize ∧
      ((f.read offset data.length).drop rdSize).take (m * rdSize) = (data.drop rdSize).take (m * rdSize)
  · rw [if_pos hblocks]
    simp only [← hrest]
    rw [byteSlice_eq, f.read_part hf (by omega)]
    by_cases h0 : 0 < rest
    · rw [if_pos h0, Option.some_inj, decide_eq_decide]
      exact ⟨fun h => ⟨hblocks.1, hblocks.2, h⟩, fun h => h.2.2⟩
    · have hzero : rest = 0 := by omega
      simp [hzero, hblocks]
  · rw [if_neg hblocks, Option.some_inj, eq_comm, decide_eq_false_iff_not]
    exact fun h => hblocks ⟨h.1, h.2.1⟩

/-- The comparison of the model of `f_write`. -/
theorem compareValue_sameBytes (cfg : Config) (hf : offset + data.length ≤ f.size) (hne : data ≠ []) :
    compareValue cfg.val.gz f offset data = some (JDb.sameBytes cfg (f.read offset data.length) data) := by
  rw [compareValue_eq hf hne]
  unfold JDb.sameBytes
  cases cfg.val.gz <;> simp

/-- A value of no bytes is not compared. -/
theorem compareValue_empty : compareValue gz f offset [] = none := rfl

theorem unchanged_iff {stored : Bytes} (hlen : stored.length = data.length) (hgz : gz = true → 16 ≤ data.length) :
    stored = data ∨ (16 ≤ data.length ∧ gz = true) ∧ JDb.patchGz stored data = data ↔ Unchanged gz stored data := by
  unfold Unchanged
  cases gz with
  | false => simp
  | true =>
    have h16 := hgz rfl
    have hdata : data = data.take 4 ++ (data.drop 4).take 4 ++ data.drop 8 := by
      rw [← List.take_add, List.take_append_drop]
    have hpatch : JDb.patchGz stored data = data ↔ stored.take 4 = data.take 4 ∧ stored.drop 8 = data.drop 8 := by
      unfold JDb.patchGz
      constructor
      · intro h
        have h' := h.trans hdata
        rw [List.append_assoc, List.append_assoc] at h'
        have hfour : (stored.take 4).length = (data.take 4).length := by
          rw [List.length_take, List.length_take, hlen]
        obtain ⟨h₁, h₂⟩ := List.append_inj h' hfour
        exact ⟨h₁, List.append_cancel_left h₂⟩
      · rintro ⟨h₁, h₂⟩
        rw [h₁, h₂]
        exact hdata.symm
    rw [hpatch, if_pos rfl]
    constructor
    · rintro (rfl | ⟨-, h⟩)
      · exact ⟨rfl, rfl⟩
      · exact h
    · intro h
      exact .inr ⟨⟨h16, rfl⟩, h⟩

/-- **A stored value is told from a new one of its length exactly, unless they are empty.** Bytes that
gzip makes are longer than its header. -/
theorem compareValue_iff (gz : Bool) (f : ByteFile) (offset : ℕ) (data : Bytes)
    (hf : offset + data.length ≤ f.size) (hgz : gz = true → 18 ≤ data.length) :
    compareValue gz f offset data = some (decide (Unchanged gz (f.read offset data.length) data)) ↔ data ≠ [] := by
  constructor
  · rintro h rfl
    rw [compareValue_empty] at h
    cases h
  · intro hne
    have hlen : (f.read offset data.length).length = data.length := by
      rw [ByteFile.length_read]
      omega
    have hgz' : gz = true → 16 ≤ data.length := fun h => by have := hgz h; omega
    rw [compareValue_eq hf hne, decide_eq_decide.2 (unchanged_iff hlen hgz')]

/-- Two runs of gzip on the same value, at different times. -/
theorem compareValue_gzip :
    compareValue true (ByteFile.empty.write 7 ([31, 139, 8, 0, 1, 2, 3, 4] ++ List.replicate 12 9)) 7
        ([31, 139, 8, 0, 5, 6, 7, 8] ++ List.replicate 12 9) =
      some (decide (Unchanged true
        ((ByteFile.empty.write 7 ([31, 139, 8, 0, 1, 2, 3, 4] ++ List.replicate 12 9)).read 7 20)
        ([31, 139, 8, 0, 5, 6, 7, 8] ++ List.replicate 12 9))) :=
  (compareValue_iff true _ 7 _ (by decide) (by decide)).2 (by decide)

/-- **A value of no bytes**, in an extent of eight: the comparison raises. -/
theorem compareValue_raises :
    compareValue false (ByteFile.empty.write 0 (List.replicate 8 0)) 0 [] ≠
      some (decide (Unchanged false ((ByteFile.empty.write 0 (List.replicate 8 0)).read 0 0) [])) := by
  decide

end OmniJsonDb
