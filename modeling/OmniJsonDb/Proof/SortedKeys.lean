import OmniJsonDb.Model.SortedKeys
import OmniJsonDb.Proof.Resize

/-!
# Iterating keys in row order

Both ways to list the keys of a range of rows, from the KEY file and from the key table in
whatever order it has. The file gives the range. The table gives it too, except that the cursor
runs on past the range when the row after it is met with none of the range still to come.

* `keyIter_rows`: the blocks of `KEY_iter` are the rows of the range, in order.
* `sortedKeyTableItems_inRange`: when both ways list exactly the range.
-/

namespace OmniJsonDb.KeyFile

variable {c : RowCodec} {kf : KeyFile} {f : ℕ → Row}

/-! ## Blocks -/

/-- A line of a block is the row it is in the file. -/
theorem line_read {first n i : ℕ} (hi : i < n) (hfile : pos kf.indexSize (first + n) ≤ kf.file.size) :
    ((kf.file.read (pos kf.indexSize first) (n * kf.indexSize)).drop (i * kf.indexSize)).take kf.indexSize =
      kf.file.read (pos kf.indexSize (first + i)) kf.indexSize := by
  have hmul : (i + 1) * kf.indexSize ≤ n * kf.indexSize := Nat.mul_le_mul_right _ hi
  have hend : pos kf.indexSize first + n * kf.indexSize ≤ kf.file.size := by
    unfold pos at hfile ⊢
    rw [Nat.add_mul] at hfile
    omega
  have hfirst : pos kf.indexSize (first + i) = pos kf.indexSize first + i * kf.indexSize := by
    unfold pos
    rw [Nat.add_mul]
    omega
  rw [Nat.succ_mul] at hmul
  unfold ByteFile.read
  rw [← List.map_drop, ← List.map_take]
  refine List.ext_getElem ?_ fun j h1 h2 => ?_
  · simp only [List.length_map, List.length_take, List.length_drop, List.length_range]
    omega
  · simp only [List.getElem_map, List.getElem_take, List.getElem_drop, List.getElem_range]
    rw [hfirst, Nat.add_assoc]

/-- The lines of a block that lies in the file decode to its rows. -/
theorem loadRows_cut (hpos : 0 < kf.indexSize) {first n : ℕ}
    (hfile : pos kf.indexSize (first + n) ≤ kf.file.size)
    (hrow : ∀ r, first ≤ r → r < first + n → kf.stored c r = .ok (f r)) (reverse : Bool) :
    let lines := cutLines kf.indexSize (kf.file.read (pos kf.indexSize first) (n * kf.indexSize))
    let rows := (List.range' first n).map f
    loadRows c (if reverse then lines.reverse else lines) =
      (⟨if reverse then rows.reverse else rows, none⟩, true) := by
  intro lines rows
  have hend : pos kf.indexSize first + n * kf.indexSize ≤ kf.file.size := by
    unfold pos at hfile ⊢
    rw [Nat.add_mul] at hfile
    omega
  have hlines : lines.map c.loads = rows.map .ok := by
    have hlen : (kf.file.read (pos kf.indexSize first) (n * kf.indexSize)).length / kf.indexSize = n := by
      rw [ByteFile.length_read, Nat.min_eq_left (by omega), Nat.mul_div_cancel n hpos]
    simp only [lines, rows, cutLines, hlen, List.map_map, List.range'_eq_map_range]
    refine List.map_congr_left fun i hi => ?_
    have hi := List.mem_range.1 hi
    have hrow' := hrow (first + i) (by omega) (by omega)
    have hnext : pos kf.indexSize (first + i + 1) ≤ kf.file.size :=
      le_trans (pos_mono (by omega)) hfile
    rw [pos_succ] at hnext
    unfold stored at hrow'
    rw [readInto_eq hpos hnext] at hrow'
    simp only [Function.comp_apply]
    rw [line_read hi hfile, hrow']
  have hload : ∀ (ls : List Bytes) (rs : List Row), ls.map c.loads = rs.map .ok →
      loadRows c ls = (⟨rs, none⟩, true) := by
    intro ls
    induction ls with
    | nil =>
      intro rs h
      rw [List.map_eq_nil_iff.1 h.symm]
      rfl
    | cons l ls ih =>
      intro rs h
      cases rs with
      | nil => simp at h
      | cons r rs =>
        rw [List.map_cons, List.map_cons] at h
        injection h with h₁ h₂
        rw [loadRows, h₁, ih rs h₂]
        rfl
  cases reverse with
  | false => exact hload _ _ hlines
  | true =>
    refine hload _ _ ?_
    simp only [if_true]
    rw [List.map_reverse, List.map_reverse, hlines]

/-- A block in the loop: its rows, and then the rest. -/
theorem readBlocks_succ (hpos : 0 < kf.indexSize) {nKeys nRows n first fuel cnt rowId : ℕ} {reverse : Bool}
    (hcnt : cnt < nKeys) (hn : n = min (nKeys - cnt) nRows) (hrows : 0 < nRows)
    (hfirst : first = if reverse then rowId - n else rowId)
    (hfile : pos kf.indexSize (first + n) ≤ kf.file.size)
    (hrow : ∀ r, first ≤ r → r < first + n → kf.stored c r = .ok (f r)) :
    kf.readBlocks c reverse nKeys nRows (fuel + 1) cnt rowId =
      Gen.append ⟨if reverse then ((List.range' first n).map f).reverse else (List.range' first n).map f, none⟩
        (kf.readBlocks c reverse nKeys nRows fuel (cnt + n) (if reverse then first else rowId + n)) := by
  have hload := loadRows_cut hpos hfile hrow reverse
  have hlen : (kf.file.read (pos kf.indexSize first) (n * kf.indexSize)).length = n * kf.indexSize := by
    unfold pos at hfile ⊢
    rw [Nat.add_mul] at hfile
    rw [ByteFile.length_read]
    omega
  have hone : 1 * kf.indexSize ≤ n * kf.indexSize := Nat.mul_le_mul_right _ (by omega)
  simp only at hload
  rw [readBlocks, if_pos hcnt]
  simp only
  rw [← hn, ← hfirst, if_neg, hload, if_pos rfl]
  rw [hlen, Nat.mul_mod_left]
  omega

/-- The blocks of an ascending walk. -/
theorem readBlocks_up (hpos : 0 < kf.indexSize) {start nKeys nRows : ℕ} (hrows : 0 < nRows)
    (hfile : pos kf.indexSize (start + nKeys) ≤ kf.file.size)
    (hrow : ∀ r, start ≤ r → r < start + nKeys → kf.stored c r = .ok (f r)) (fuel : ℕ) :
    ∀ cnt, cnt ≤ nKeys → nKeys ≤ cnt + fuel → kf.readBlocks c false nKeys nRows fuel cnt (start + cnt) =
      ⟨(List.range' (start + cnt) (nKeys - cnt)).map f, none⟩ := by
  induction fuel with
  | zero =>
    intro cnt hle hfuel
    rw [show nKeys - cnt = 0 by omega]
    rfl
  | succ fuel ih =>
    intro cnt hle hfuel
    rcases Nat.eq_or_lt_of_le hle with rfl | hlt
    · rw [readBlocks, if_neg (lt_irrefl _), Nat.sub_self]
      rfl
    · obtain ⟨n, hn⟩ : ∃ n, n = min (nKeys - cnt) nRows := ⟨_, rfl⟩
      have hfirst : start + cnt = if false = true then start + cnt - n else start + cnt := rfl
      rw [readBlocks_succ hpos hlt hn hrows hfirst (le_trans (pos_mono (by omega)) hfile)
        fun r h₁ h₂ => hrow r (by omega) (by omega)]
      simp only [Bool.false_eq_true, if_false]
      rw [Nat.add_assoc, ih (cnt + n) (by omega) (by omega)]
      have hsplit : List.range' (start + cnt) (nKeys - cnt) =
          List.range' (start + cnt) n ++ List.range' (start + (cnt + n)) (nKeys - (cnt + n)) := by
        rw [← Nat.add_assoc, show nKeys - cnt = n + (nKeys - (cnt + n)) by omega, ← List.range'_append_1]
      rw [hsplit, List.map_append]
      rfl

/-- The blocks of a descending walk. -/
theorem readBlocks_down (hpos : 0 < kf.indexSize) {start nKeys nRows : ℕ} (hrows : 0 < nRows)
    (hfile : pos kf.indexSize (start + nKeys) ≤ kf.file.size)
    (hrow : ∀ r, start ≤ r → r < start + nKeys → kf.stored c r = .ok (f r)) (fuel : ℕ) :
    ∀ cnt, cnt ≤ nKeys → nKeys ≤ cnt + fuel → kf.readBlocks c true nKeys nRows fuel cnt (start + nKeys - cnt) =
      ⟨((List.range' start (nKeys - cnt)).map f).reverse, none⟩ := by
  induction fuel with
  | zero =>
    intro cnt hle hfuel
    rw [show nKeys - cnt = 0 by omega]
    rfl
  | succ fuel ih =>
    intro cnt hle hfuel
    rcases Nat.eq_or_lt_of_le hle with rfl | hlt
    · rw [readBlocks, if_neg (lt_irrefl _), Nat.sub_self]
      rfl
    · obtain ⟨n, hn⟩ : ∃ n, n = min (nKeys - cnt) nRows := ⟨_, rfl⟩
      have hfirst : start + nKeys - cnt - n =
          if true = true then start + nKeys - cnt - n else start + nKeys - cnt := rfl
      rw [readBlocks_succ hpos hlt hn hrows hfirst (le_trans (pos_mono (by omega)) hfile)
        fun r h₁ h₂ => hrow r (by omega) (by omega)]
      simp only [if_true]
      rw [show start + nKeys - cnt - n = start + nKeys - (cnt + n) by omega,
        ih (cnt + n) (by omega) (by omega)]
      have hsplit : List.range' start (nKeys - cnt) =
          List.range' start (nKeys - (cnt + n)) ++ List.range' (start + nKeys - (cnt + n)) n := by
        rw [show nKeys - cnt = nKeys - (cnt + n) + n by omega,
          show start + nKeys - (cnt + n) = start + (nKeys - (cnt + n)) by omega, ← List.range'_append_1]
      rw [hsplit, List.map_append, List.reverse_append]
      rfl

/-- **The block reader.** `KEY_iter` of a range of rows that decode yields them in order, or in
reverse, unless a single row is wider than its buffer. -/
theorem keyIter_rows (hpos : 0 < kf.indexSize) {start stop nRows : ℕ} (hlt : start < stop) (hrows : 0 < nRows)
    (hlines : stop ≤ kf.cnt.nLines) (hfile : pos kf.indexSize stop ≤ kf.file.size)
    (hrow : ∀ r, start ≤ r → r < stop → kf.stored c r = .ok (f r)) (reverse : Bool) :
    let rows := (List.range' start (stop - start)).map f
    kf.keyIter c start stop reverse nRows =
      ⟨if kf.indexSize ≤ 2 ^ 22 then if reverse then rows.reverse else rows else [], none⟩ := by
  intro rows
  unfold keyIter
  have hstop : (if (kf.cnt.nLines : ℤ) ≤ stop then (kf.cnt.nLines : ℤ) else stop) = stop := by
    split <;> omega
  have hstart : (if (kf.cnt.nLines : ℤ) ≤ start then (kf.cnt.nLines : ℤ) else start) = start := by
    rw [if_neg (by omega)]
  simp only [hstop, hstart]
  rw [if_neg (by omega), show ((stop : ℤ) - start).toNat = stop - start by omega]
  have hend : start + (stop - start) = stop := by omega
  by_cases hw : kf.indexSize ≤ 2 ^ 22
  · have hdiv : 0 < 2 ^ 22 / kf.indexSize := Nat.div_pos hw hpos
    rw [if_pos hw]
    cases reverse with
    | false =>
      have := readBlocks_up hpos (show 0 < min (min nRows (2 ^ 22 / kf.indexSize)) (stop - start) by omega)
        (hend.symm ▸ hfile) (fun r h₁ h₂ => hrow r h₁ (by omega)) (stop - start) 0 (by omega) (by omega)
      simpa using this
    | true =>
      have := readBlocks_down hpos (show 0 < min (min nRows (2 ^ 22 / kf.indexSize)) (stop - start) by omega)
        (hend.symm ▸ hfile) (fun r h₁ h₂ => hrow r h₁ (by omega)) (stop - start) 0 (by omega) (by omega)
      simpa [hend] using this
  · -- the block has no row: nothing is read
    have hdiv : 2 ^ 22 / kf.indexSize = 0 := Nat.div_eq_of_lt (by omega)
    rw [if_neg hw, hdiv]
    obtain ⟨fuel, hfuel⟩ : ∃ fuel, stop - start = fuel + 1 := ⟨stop - start - 1, by omega⟩
    rw [hfuel, readBlocks, if_pos (by omega)]
    simp only [Nat.min_zero, Nat.zero_min, Nat.zero_mul, Nat.sub_zero]
    rw [if_pos]
    · rfl
    · left
      rw [ByteFile.length_read]
      omega

/-- An empty range. -/
theorem keyIter_zero (reverse : Bool) (nRows : ℕ) : kf.keyIter c 0 0 reverse nRows = Gen.done := by
  unfold keyIter
  simp only [sub_self]
  exact if_pos (.inl le_rfl)

/-! ## Both ways -/

/-- The key table is a bijection between its keys and the rows of the records, and the KEY file
says the same of every row. -/
structure Holds (c : RowCodec) (kf : KeyFile) (table : OrdDict Key (ℕ × ℕ)) : Prop where
  rows : (table.entries.map fun e => e.2.1).Perm (List.range kf.cnt.nRecords)
  lines : kf.cnt.nRecords ≤ kf.cnt.nLines
  wide : 0 < kf.indexSize
  file : pos kf.indexSize kf.cnt.nRecords ≤ kf.file.size
  stored : ∀ e ∈ table.entries, ∃ row, kf.stored c e.2.1 = .ok row ∧ row.key = e.1

/-- Exactly the keys with a row in `[start, stop)`, in ascending or descending order. -/
structure Lists (table : OrdDict Key (ℕ × ℕ)) (start stop : ℤ) (reverse : Bool) (g : Gen (Key × ℤ)) : Prop where
  err : g.err = none
  ordered : g.out.Pairwise fun a b => if reverse then b.2 < a.2 else a.2 < b.2
  mem : ∀ e, e ∈ g.out ↔ e ∈ items table ∧ start ≤ e.2 ∧ e.2 < stop

/-- Whenever the row `past` is met, some row of `[start, stop)` is still to come. -/
def Covered (table : OrdDict Key (ℕ × ℕ)) (start stop past : ℤ) : Prop :=
  ∀ pre e post, items table = pre ++ e :: post → e.2 = past → ∃ e' ∈ post, start ≤ e'.2 ∧ e'.2 < stop

variable {table : OrdDict Key (ℕ × ℕ)} {startRow stopRow start stop : ℤ} {reverse : Bool}

/-- There is only one such list. -/
theorem Lists.unique {g h : Gen (Key × ℤ)} (hg : Lists table start stop reverse g)
    (hh : Lists table start stop reverse h) : g = h := by
  obtain ⟨out, err⟩ := g
  obtain ⟨out', err'⟩ := h
  have herr : err = err' := hg.err.trans hh.err.symm
  have hmem : ∀ e, e ∈ out ↔ e ∈ out' := fun e => (hg.mem e).trans (hh.mem e).symm
  have hirr : ∀ l : List (Key × ℤ), l.Pairwise (fun a b => if reverse then b.2 < a.2 else a.2 < b.2) → l.Nodup := by
    intro l hl
    refine hl.imp ?_
    rintro a b hab rfl
    split at hab <;> exact lt_irrefl _ hab
  have hperm := (List.perm_ext_iff_of_nodup (hirr _ hg.ordered) (hirr _ hh.ordered)).2 hmem
  have hout : out = out' := by
    refine hperm.eq_of_pairwise ?_ hg.ordered hh.ordered
    intro a b _ _ hab hba
    cases reverse <;> simp only [Bool.false_eq_true, if_true, if_false] at hab hba <;> omega
  rw [herr, hout]

theorem number_up (f : ℕ → Row) (n : ℕ) : ∀ start : ℕ,
    number 1 start ((List.range' start n).map f) = (List.range' start n).map fun r => ((f r).key, (r : ℤ)) := by
  induction n with
  | zero => exact fun _ => rfl
  | succ n ih =>
    intro start
    rw [List.range'_succ, List.map_cons, List.map_cons, number]
    exact congrArg _ (by exact_mod_cast ih (start + 1))

theorem number_down (f : ℕ → Row) (start n : ℕ) :
    number (-1) ((start + n : ℕ) - 1) ((List.range' start n).map f).reverse =
      ((List.range' start n).map fun r => ((f r).key, (r : ℤ))).reverse := by
  induction n with
  | zero => rfl
  | succ n ih =>
    rw [← List.range'_append_1 (m := n) (n := 1)]
    simp only [List.map_append, List.reverse_append, List.range'_one, List.map_cons, List.map_nil,
      List.reverse_cons, List.reverse_nil, List.nil_append, List.cons_append, number]
    rw [← ih]
    congr 2 <;> push_cast <;> ring_nf

theorem stopAt_le : kf.stopAt stopRow ≤ kf.cnt.nRecords := by
  unfold stopAt
  split <;> omega

theorem stopAt_nonneg : 0 ≤ kf.stopAt stopRow := by
  unfold stopAt
  split <;> omega

theorem startAt_nonneg : 0 ≤ kf.startAt startRow stopRow := le_max_left _ _

/-- The range is empty only when it ends at row 0. -/
theorem startAt_lt (h : kf.stopAt stopRow ≠ 0) : kf.startAt startRow stopRow < kf.stopAt stopRow := by
  have : 0 ≤ kf.stopAt stopRow := stopAt_nonneg
  unfold startAt
  omega

theorem startAt_eq_zero (h : kf.stopAt stopRow = 0) : kf.startAt startRow stopRow = 0 := by
  unfold startAt
  omega

namespace Holds

variable (h : Holds c kf table)
include h

/-- The rows of the key table are those of the records. -/
theorem mem_rows {r : ℤ} : r ∈ (items table).map Prod.snd ↔ 0 ≤ r ∧ r < kf.cnt.nRecords := by
  have hmap : (items table).map Prod.snd = (table.entries.map fun e => e.2.1).map Nat.cast := by
    simp only [items, List.map_map]
    rfl
  rw [hmap, List.mem_map]
  constructor
  · rintro ⟨n, hn, rfl⟩
    have := List.mem_range.1 (h.rows.mem_iff.1 hn)
    omega
  · rintro ⟨h0, hlt⟩
    exact ⟨r.toNat, h.rows.mem_iff.2 (List.mem_range.2 (by omega)), by omega⟩

theorem nodup_rows : ((items table).map Prod.snd).Nodup := by
  have hmap : (items table).map Prod.snd = (table.entries.map fun e => e.2.1).map Nat.cast := by
    simp only [items, List.map_map]
    rfl
  rw [hmap]
  exact (h.rows.nodup_iff.2 List.nodup_range).map Nat.cast_injective

/-- The rows of the file decode to the keys that the table has for them. -/
theorem decodes (row₀ : Row) : ∃ f : ℕ → Row, ∀ r < kf.cnt.nRecords,
    kf.stored c r = .ok (f r) ∧ ∀ key, (key, (r : ℤ)) ∈ items table ↔ key = (f r).key := by
  have hrow : ∀ r, ∃ row, r < kf.cnt.nRecords → kf.stored c r = .ok row ∧
      ∀ key, (key, (r : ℤ)) ∈ items table ↔ key = row.key := by
    intro r
    by_cases hr : r < kf.cnt.nRecords
    · obtain ⟨e, he, her⟩ := List.mem_map.1 (h.rows.mem_iff.2 (List.mem_range.2 hr))
      obtain ⟨row, hrow, hkey⟩ := h.stored e he
      have hitem : (e.1, (r : ℤ)) ∈ items table := List.mem_map.2 ⟨e, he, by rw [← her]⟩
      refine ⟨row, fun _ => ⟨her ▸ hrow, fun key => ⟨fun hmem => ?_, fun hc => ?_⟩⟩⟩
      · have := List.inj_on_of_nodup_map h.nodup_rows hmem hitem rfl
        rw [hkey]
        exact congrArg Prod.fst this
      · rw [hc, hkey]
        exact hitem
    · exact ⟨row₀, fun hc => absurd hc hr⟩
  choose f hf using hrow
  exact ⟨f, hf⟩

/-- **From the file.** -/
theorem lists_copy : Lists table (kf.startAt startRow stopRow) (kf.stopAt stopRow) reverse
      (kf.sortedKeyTableItems c table startRow stopRow true reverse) ↔
    kf.stopAt stopRow = 0 ∨ kf.indexSize ≤ 2 ^ 22 := by
  by_cases hz : kf.stopAt stopRow = 0
  · refine iff_of_true ?_ (.inl hz)
    have hgen : kf.sortedKeyTableItems c table startRow stopRow true reverse = Gen.done := by
      unfold sortedKeyTableItems
      simp only [if_true, hz, startAt_eq_zero hz, keyIter_zero]
      rfl
    rw [hgen, hz, startAt_eq_zero hz]
    refine ⟨rfl, List.Pairwise.nil, fun e => iff_of_false (List.not_mem_nil) ?_⟩
    rintro ⟨-, h₁, h₂⟩
    omega
  · rw [or_iff_right hz]
    have h0 : 0 ≤ kf.startAt startRow stopRow := startAt_nonneg
    have hlt : kf.startAt startRow stopRow < kf.stopAt stopRow := startAt_lt hz
    have hn : kf.stopAt stopRow ≤ kf.cnt.nRecords := stopAt_le
    obtain ⟨a, ha⟩ := Int.eq_ofNat_of_zero_le h0
    obtain ⟨b, hb⟩ := Int.eq_ofNat_of_zero_le (h0.trans hlt.le)
    rw [ha, hb] at hlt
    rw [hb] at hn
    obtain ⟨e, he, -⟩ := List.mem_map.1 (h.mem_rows.2 ⟨h0, by rw [ha]; omega⟩)
    obtain ⟨e', he', -⟩ := List.mem_map.1 he
    obtain ⟨row₀, -⟩ := h.stored e' he'
    obtain ⟨f, hf⟩ := h.decodes row₀
    have hrows := keyIter_rows h.wide (show a < b by omega) (show 0 < 8192 by omega)
      ((by omega : b ≤ kf.cnt.nRecords).trans h.lines) ((pos_mono (by omega)).trans h.file)
      (fun r _ hr => (hf r (by omega)).1) reverse
    simp only at hrows
    have hup := number_up f (b - a) a
    have hdown := number_down f a (b - a)
    rw [show a + (b - a) = b by omega] at hdown
    have hgen : kf.sortedKeyTableItems c table startRow stopRow true reverse =
        ⟨if kf.indexSize ≤ 2 ^ 22 then
            if reverse then ((List.range' a (b - a)).map fun r => ((f r).key, (r : ℤ))).reverse
            else (List.range' a (b - a)).map fun r => ((f r).key, (r : ℤ))
          else [], none⟩ := by
      unfold sortedKeyTableItems
      simp only [if_true]
      rw [ha, hb, hrows]
      by_cases hw : kf.indexSize ≤ 2 ^ 22
      · simp only [if_pos hw]
        cases reverse with
        | false => exact congrArg (Gen.mk · none) hup
        | true => exact congrArg (Gen.mk · none) hdown
      · simp only [if_neg hw]
        rfl
    have hmem : ∀ e : Key × ℤ, e ∈ (List.range' a (b - a)).map (fun r => ((f r).key, (r : ℤ))) ↔
        e ∈ items table ∧ (a : ℤ) ≤ e.2 ∧ e.2 < b := by
      rintro ⟨key, r⟩
      rw [List.mem_map]
      constructor
      · rintro ⟨n, hn', heq⟩
        obtain ⟨rfl, rfl⟩ := Prod.mk.inj heq
        have := List.mem_range'_1.1 hn'
        exact ⟨((hf n (by omega)).2 _).2 rfl, by omega, by omega⟩
      · rintro ⟨hitem, h₁, h₂⟩
        obtain ⟨n, rfl⟩ := Int.eq_ofNat_of_zero_le ((Int.natCast_nonneg a).trans h₁)
        simp only at h₁ h₂
        refine ⟨n, List.mem_range'_1.2 ⟨by omega, by omega⟩, ?_⟩
        rw [((hf n (by omega)).2 key).1 hitem]
    rw [hgen, ha, hb]
    constructor
    · intro hl
      by_contra hw
      obtain ⟨e, he, her⟩ := List.mem_map.1 (h.mem_rows.2 ⟨h0, by rw [ha]; omega⟩)
      have := (hl.mem e).2 ⟨he, by omega, by omega⟩
      rw [if_neg hw] at this
      cases this
    · intro hw
      simp only [if_pos hw]
      have hlt' : ((List.range' a (b - a)).map fun r => ((f r).key, (r : ℤ))).Pairwise fun x y => x.2 < y.2 := by
        rw [List.pairwise_map]
        have hrange : (List.range' a (b - a)).Pairwise (· < ·) := List.pairwise_lt_range'
        exact hrange.imp fun hij => Int.ofNat_lt.2 hij
      cases reverse with
      | false => exact ⟨rfl, hlt', hmem⟩
      | true => exact ⟨rfl, List.pairwise_reverse.2 hlt', fun e => List.mem_reverse.trans (hmem e)⟩

/-- **From the key table.** -/
theorem lists_table : Lists table (kf.startAt startRow stopRow) (kf.stopAt stopRow) reverse
      (kf.sortedKeyTableItems c table startRow stopRow false reverse) ↔
    Covered table (kf.startAt startRow stopRow) (kf.stopAt stopRow)
      (if reverse then kf.startAt startRow stopRow - 1 else kf.stopAt stopRow) := by
  set start := kf.startAt startRow stopRow with hstart
  set stop := kf.stopAt stopRow with hstop
  have h0 : 0 ≤ start := startAt_nonneg
  have hle : start ≤ stop := by
    by_cases hz : stop = 0
    · rw [hz, hstart, startAt_eq_zero hz]
    · exact (startAt_lt hz).le
  have hn : stop ≤ kf.cnt.nRecords := stopAt_le
  obtain ⟨width, hwidth⟩ : ∃ width : ℕ, (width : ℤ) = stop - start := ⟨(stop - start).toNat, by omega⟩
  set d : ℤ := if reverse then -1 else 1 with hdir
  set first := if reverse then stop - 1 else start with hfirst
  set past := if reverse then start - 1 else stop with hpast
  have hd : d ≠ 0 := by
    rw [hdir]
    split <;> omega
  have hlast : first + d * width = past := by
    rw [hfirst, hdir, hpast, hwidth]
    split <;> ring
  have hk : ∀ r, (decide (start ≤ r) && decide (r < stop)) = true ↔ ∃ i : ℕ, i < width ∧ r = first + d * i := by
    intro r
    rw [Bool.and_eq_true, decide_eq_true_iff, decide_eq_true_iff, hfirst, hdir]
    cases reverse with
    | false =>
      simp only [Bool.false_eq_true, if_false]
      exact ⟨fun ⟨h₁, h₂⟩ => ⟨(r - start).toNat, by omega, by omega⟩, by rintro ⟨i, hi, rfl⟩; omega⟩
    | true =>
      simp only [if_true]
      exact ⟨fun ⟨h₁, h₂⟩ => ⟨(stop - 1 - r).toNat, by omega, by omega⟩, by rintro ⟨i, hi, rfl⟩; omega⟩
  have hall : ∀ i < width, first + d * (i : ℕ) ∈ (items table).map Prod.snd := by
    intro i hi
    have := (hk _).2 ⟨i, hi, rfl⟩
    rw [Bool.and_eq_true, decide_eq_true_iff, decide_eq_true_iff] at this
    exact h.mem_rows.2 ⟨by omega, by omega⟩
  obtain ⟨m, hm, hout, hexact⟩ := Reorder.run_exact hd hk h.nodup_rows hall
  have hgen : kf.sortedKeyTableItems c table startRow stopRow false reverse =
      ⟨((Reorder.start first).run d (fun r => decide (start ≤ r) && decide (r < stop)) (items table)).out, none⟩ := by
    unfold sortedKeyTableItems
    simp only [Bool.false_eq_true, if_false]
    rw [← hstart, ← hstop, ← hfirst, ← hdir, hout.lut_empty hm]
    simp
  have hcov : Covered table start stop past ↔ m = width := by
    rw [hexact, hlast]
    simp only [Covered, Bool.and_eq_true, decide_eq_true_iff]
  rw [hgen, hcov]
  constructor
  · -- past the range the next row would be listed too
    intro hl
    by_contra hne
    have hmem : first + d * (width : ℕ) ∈ ((Reorder.start first).run d
        (fun r => decide (start ≤ r) && decide (r < stop)) (items table)).out.map Prod.snd := by
      rw [hout.nums]
      exact List.mem_map.2 ⟨width, List.mem_range.2 (by omega), rfl⟩
    obtain ⟨e, he, hr⟩ := List.mem_map.1 hmem
    obtain ⟨-, h₁, h₂⟩ := (hl.mem e).1 he
    have hout : past = start - 1 ∨ past = stop := by
      rw [hpast]
      split
      · exact .inl rfl
      · exact .inr rfl
    rw [hr, hlast] at h₁ h₂
    omega
  · rintro rfl
    refine ⟨rfl, ?_, ?_⟩
    · have hnums := hout.nums
      have hpair : ((List.range m).map fun i : ℕ => first + d * i).Pairwise
          (fun a b => if reverse then b < a else a < b) := by
        rw [List.pairwise_map]
        refine List.pairwise_lt_range.imp fun {i j} hij => ?_
        rw [hdir]
        cases reverse <;> simp <;> omega
      rw [← hnums, List.pairwise_map] at hpair
      exact hpair
    · intro e
      rw [hout.exact hk h.nodup_rows, Bool.and_eq_true, decide_eq_true_iff, decide_eq_true_iff]

end Holds

/-- **Keys in row order.** Both ways list exactly the range, and so the same, precisely when a row
fits the buffer of the block reader and the row after the range, whenever the key table comes to
it, comes before some row of the range. -/
theorem sortedKeyTableItems_inRange (h : Holds c kf table) (startRow stopRow : ℤ) (reverse : Bool) :
    ((∀ copy, Lists table (kf.startAt startRow stopRow) (kf.stopAt stopRow) reverse
        (kf.sortedKeyTableItems c table startRow stopRow copy reverse)) ∧
      kf.sortedKeyTableItems c table startRow stopRow false reverse =
        kf.sortedKeyTableItems c table startRow stopRow true reverse) ↔
    (kf.stopAt stopRow = 0 ∨ kf.indexSize ≤ 2 ^ 22) ∧
      Covered table (kf.startAt startRow stopRow) (kf.stopAt stopRow)
        (if reverse then kf.startAt startRow stopRow - 1 else kf.stopAt stopRow) := by
  constructor
  · rintro ⟨hl, -⟩
    exact ⟨h.lists_copy.1 (hl true), h.lists_table.1 (hl false)⟩
  · rintro ⟨hw, hcov⟩
    have hcopy : Lists table (kf.startAt startRow stopRow) (kf.stopAt stopRow) reverse
        (kf.sortedKeyTableItems c table startRow stopRow true reverse) := h.lists_copy.2 hw
    have htable := h.lists_table.2 hcov
    refine ⟨fun copy => ?_, htable.unique hcopy⟩
    cases copy with
    | false => exact htable
    | true => exact hcopy

/-! ## Two records -/

/-- The file of two records, `A` and `B`. -/
def pairFile : KeyFile :=
  ((putKey jsonRows 1 { todayArgs with key := ['B'] }).run
    ((putKey jsonRows 0 todayArgs).run { oneRow with cnt := { nRecords := 2, nLines := 2, syncId := 1 } }).2).2

/-- Its key table. -/
def pairTable : OrdDict Key (ℕ × ℕ) := (OrdDict.empty.set ['A'] (0, 0)).set ['B'] (1, 0)

theorem pair_holds : Holds jsonRows pairFile pairTable where
  rows := by decide +kernel
  lines := by decide +kernel
  wide := by decide +kernel
  file := by decide +kernel
  stored := by
    intro e he
    have hcases : e = (['A'], (0, 0)) ∨ e = (['B'], (1, 0)) := by
      have : pairTable.entries = [(['A'], (0, 0)), (['B'], (1, 0))] := by decide +kernel
      simpa [this] using he
    have hrow : ∀ r key, (pairFile.stored jsonRows r).map (fun row => row.key) = .ok key →
        ∃ row, pairFile.stored jsonRows r = .ok row ∧ row.key = key := by
      intro r key hr
      cases hs : pairFile.stored jsonRows r with
      | error e => rw [hs] at hr; cases hr
      | ok row => rw [hs] at hr; exact ⟨row, rfl, Except.ok.inj hr⟩
    rcases hcases with rfl | rfl
    · exact hrow _ _ (by decide +kernel)
    · exact hrow _ _ (by decide +kernel)

/-- Of all rows nothing comes after. -/
theorem sortedKeyTableItems_all :
    pairFile.sortedKeyTableItems jsonRows pairTable 0 (-1) false false =
      pairFile.sortedKeyTableItems jsonRows pairTable 0 (-1) true false := by
  refine ((sortedKeyTableItems_inRange pair_holds 0 (-1) false).2 ⟨.inr (by decide +kernel), ?_⟩).2
  intro pre e post hes hr
  have hmem : e.2 ∈ (items pairTable).map Prod.snd := by
    rw [hes]
    simp
  rw [hr] at hmem
  exact absurd hmem (by decide +kernel)

/-- **The row after the range.** Of the first row alone, the key table lists the second one too. -/
theorem sortedKeyTableItems_past : Holds jsonRows pairFile pairTable ∧
    pairFile.sortedKeyTableItems jsonRows pairTable 0 1 true false = ⟨[(['A'], 0)], none⟩ ∧
    pairFile.sortedKeyTableItems jsonRows pairTable 0 1 false false = ⟨[(['A'], 0), (['B'], 1)], none⟩ ∧
    ¬ Lists pairTable (pairFile.startAt 0 1) (pairFile.stopAt 1) false
      (pairFile.sortedKeyTableItems jsonRows pairTable 0 1 false false) := by
  have hout : pairFile.sortedKeyTableItems jsonRows pairTable 0 1 false false =
      ⟨[(['A'], 0), (['B'], 1)], none⟩ := by decide +kernel
  refine ⟨pair_holds, by decide +kernel, hout, ?_⟩
  intro hl
  have hmem : ((['B'], 1) : Key × ℤ) ∈ (pairFile.sortedKeyTableItems jsonRows pairTable 0 1 false false).out := by
    rw [hout]
    simp
  exact absurd ((hl.mem _).1 hmem).2.2 (by decide +kernel)

end OmniJsonDb.KeyFile
