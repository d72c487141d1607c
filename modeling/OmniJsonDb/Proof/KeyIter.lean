import OmniJsonDb.Proof.SortedKeys

/-!
# Iterating over the KEY file

`KEY_iter` reads its rows block by block into one buffer, with one counter for the rows done and one
for the row the next block starts at, and hands out rows of the buffer while the caller may move the
file pointer.

* `serveBlocks_eq`: where the caller leaves the pointer does not matter, nor what the buffer held.
* `keyIterAt_reads_iff`: it yields the rows of the range, in order, exactly when a row fits the
  buffer.
* `Backs.keyIter_eq`: the iteration of the engine model is this one.
-/

namespace OmniJsonDb

namespace KeyFile

variable {c : RowCodec} {kf : KeyFile} {f : ℕ → Row}

/-! ## The buffer -/

/-- The rows handed out are the lines of what was read, whatever is behind them in the buffer. -/
theorem serveRows_eq {moves : ℕ → ℕ → ℕ} {data rest : Bytes} {is : List ℕ}
    (his : ∀ i ∈ is, (i + 1) * kf.indexSize ≤ data.length) (cur : KeyCursor) (hbuf : cur.buf = data ++ rest) :
    ∃ cur', kf.serveRows c moves is cur =
        ((loadRows c (is.map fun i => (data.drop (i * kf.indexSize)).take kf.indexSize)).1,
          (loadRows c (is.map fun i => (data.drop (i * kf.indexSize)).take kf.indexSize)).2, cur') := by
  induction is generalizing cur with
  | nil => exact ⟨cur, rfl⟩
  | cons i is ih =>
    have hend : (i + 1) * kf.indexSize ≤ data.length := his i List.mem_cons_self
    rw [Nat.add_mul, Nat.one_mul] at hend
    have hline : (cur.buf.drop (i * kf.indexSize)).take kf.indexSize =
        (data.drop (i * kf.indexSize)).take kf.indexSize := by
      rw [hbuf, List.drop_append_of_le_length (by omega), List.take_append_of_le_length]
      rw [List.length_drop]
      omega
    rw [List.map_cons, serveRows, hline, loadRows]
    cases c.loads ((data.drop (i * kf.indexSize)).take kf.indexSize) with
    | ok row =>
      obtain ⟨cur', h⟩ := ih (fun j hj => his j (List.mem_cons_of_mem _ hj)) (cur.yielded moves) hbuf
      exact ⟨cur', by simp only [h]⟩
    | error e => cases e <;> exact ⟨cur, rfl⟩

/-- **The pointer and the buffer do not matter**: each block seeks for itself and is read over what
the buffer held. -/
theorem serveBlocks_eq (moves : ℕ → ℕ → ℕ) (reverse : Bool) (nKeys nRows fuel : ℕ) :
    ∀ cnt rowId cur, kf.serveBlocks c moves reverse nKeys nRows fuel cnt rowId cur =
      kf.readBlocks c reverse nKeys nRows fuel cnt rowId := by
  induction fuel with
  | zero => exact fun _ _ _ => rfl
  | succ fuel ih =>
    intro cnt rowId cur
    by_cases hcnt : cnt < nKeys
    swap
    · rw [serveBlocks, readBlocks, if_neg hcnt, if_neg hcnt]
    obtain ⟨n, hn⟩ : ∃ n, n = min (nKeys - cnt) nRows := ⟨_, rfl⟩
    obtain ⟨first, hfirst⟩ : ∃ first, first = if reverse then rowId - n else rowId := ⟨_, rfl⟩
    obtain ⟨data, hdata⟩ : ∃ data, data = kf.file.read (pos kf.indexSize first) (n * kf.indexSize) := ⟨_, rfl⟩
    obtain ⟨idxs, hidxs⟩ : ∃ idxs, idxs = if reverse then (List.range (data.length / kf.indexSize)).reverse
        else List.range (data.length / kf.indexSize) := ⟨_, rfl⟩
    obtain ⟨full, hfull⟩ : ∃ full : KeyCursor, full = { cur with
        pos := pos kf.indexSize first + data.length, buf := data ++ cur.buf.drop data.length } := ⟨_, rfl⟩
    have hstep : kf.serveBlocks c moves reverse nKeys nRows (fuel + 1) cnt rowId cur =
        if data.length < kf.indexSize ∨ data.length % kf.indexSize ≠ 0 then Gen.done
        else if (kf.serveRows c moves idxs full).2.1 then
          (kf.serveRows c moves idxs full).1.append (kf.serveBlocks c moves reverse nKeys nRows fuel (cnt + n)
            (if reverse then first else rowId + n) (kf.serveRows c moves idxs full).2.2)
        else (kf.serveRows c moves idxs full).1 := by
      rw [serveBlocks, if_pos hcnt]
      subst hn hfirst hdata hidxs hfull
      rfl
    have hread : kf.readBlocks c reverse nKeys nRows (fuel + 1) cnt rowId =
        if data.length < kf.indexSize ∨ data.length % kf.indexSize ≠ 0 then Gen.done
        else if (loadRows c (if reverse then (cutLines kf.indexSize data).reverse else cutLines kf.indexSize data)).2 then
          (loadRows c (if reverse then (cutLines kf.indexSize data).reverse else cutLines kf.indexSize data)).1.append
            (kf.readBlocks c reverse nKeys nRows fuel (cnt + n) (if reverse then first else rowId + n))
        else (loadRows c (if reverse then (cutLines kf.indexSize data).reverse else cutLines kf.indexSize data)).1 := by
      rw [readBlocks, if_pos hcnt]
      subst hn hfirst hdata
      rfl
    rw [hstep, hread]
    by_cases hshort : data.length < kf.indexSize ∨ data.length % kf.indexSize ≠ 0
    · rw [if_pos hshort, if_pos hshort]
    rw [if_neg hshort, if_neg hshort]
    have hmul : data.length / kf.indexSize * kf.indexSize = data.length := by
      have := Nat.div_add_mod' data.length kf.indexSize
      omega
    have hidx : ∀ i ∈ idxs, (i + 1) * kf.indexSize ≤ data.length := by
      intro i hi
      have hlt : i < data.length / kf.indexSize := by
        rw [hidxs] at hi
        cases reverse <;> simpa using hi
      calc (i + 1) * kf.indexSize ≤ data.length / kf.indexSize * kf.indexSize := Nat.mul_le_mul_right _ hlt
        _ = data.length := hmul
    have hcut : idxs.map (fun i => (data.drop (i * kf.indexSize)).take kf.indexSize) =
        if reverse then (cutLines kf.indexSize data).reverse else cutLines kf.indexSize data := by
      rw [hidxs]
      unfold cutLines
      cases reverse with
      | false => rfl
      | true => simp only [if_true, List.map_reverse]
    obtain ⟨cur', hserve⟩ := @serveRows_eq c kf moves data (cur.buf.drop data.length) _ hidx full (by rw [hfull])
    rw [hserve, hcut, ih]

theorem keyIterAt_eq (at_ : ℕ) (moves : ℕ → ℕ → ℕ) (start stop : ℤ) (reverse : Bool)
    (nRows : ℕ) : kf.keyIterAt c at_ moves start stop reverse nRows = kf.keyIter c start stop reverse nRows := by
  unfold keyIterAt keyIter
  simp only [serveBlocks_eq]

/-! ## The rows of a range -/

/-- The rows `start .. stop - 1` of the file, `stop` clamped to its lines; a range that begins or
ends in front of row 0 has none. -/
def rowsOf (kf : KeyFile) (start stop : ℤ) : List ℕ :=
  if 0 ≤ start ∧ 0 ≤ stop then List.range' start.toNat (min stop.toNat kf.cnt.nLines - start.toNat) else []

/-- The rows of a range of row numbers, in either direction; none when the block has no room for one. -/
theorem keyIter_range (hpos : 0 < kf.indexSize) (hfile : pos kf.indexSize kf.cnt.nLines ≤ kf.file.size)
    (hrow : ∀ r < kf.cnt.nLines, kf.stored c r = .ok (f r)) (a b : ℕ) (reverse : Bool) {nRows : ℕ} (hrows : 0 < nRows) :
    kf.keyIter c a b reverse nRows =
      ⟨if kf.indexSize ≤ 2 ^ 22 then
        if reverse then ((List.range' a (min b kf.cnt.nLines - a)).map f).reverse
        else (List.range' a (min b kf.cnt.nLines - a)).map f else [], none⟩ := by
  by_cases hlt : a < min b kf.cnt.nLines
  swap
  · -- an empty range
    have hlen : min b kf.cnt.nLines - a = 0 := by omega
    have hiter : kf.keyIter c a b reverse nRows = Gen.done := by
      unfold keyIter
      refine if_pos (.inl ?_)
      split <;> split <;> omega
    rw [hiter, hlen]
    simp [Gen.done]
  have hclamp : kf.keyIter c a b reverse nRows = kf.keyIter c a (min b kf.cnt.nLines : ℕ) reverse nRows := by
    have hb : (if (kf.cnt.nLines : ℤ) ≤ b then (kf.cnt.nLines : ℤ) else b) =
        if (kf.cnt.nLines : ℤ) ≤ (min b kf.cnt.nLines : ℕ) then (kf.cnt.nLines : ℤ)
        else (min b kf.cnt.nLines : ℕ) := by
      split <;> split <;> omega
    unfold keyIter
    simp only [hb]
  rw [hclamp]
  exact keyIter_rows hpos hlt hrows (min_le_right _ _) (le_trans (pos_mono (min_le_right _ _)) hfile)
    (fun r _ h => hrow r (by omega)) reverse

/-- **`KEY_iter`.** Of a KEY file whose rows decode it yields the rows of the range, each once and in
order, for every block size, wherever the file pointer is moved meanwhile, unless there is a row to
yield and the buffer of 4 MB is too small for it. -/
theorem keyIterAt_reads_iff (hpos : 0 < kf.indexSize) (hfile : pos kf.indexSize kf.cnt.nLines ≤ kf.file.size)
    (hrow : ∀ r < kf.cnt.nLines, kf.stored c r = .ok (f r)) (at_ : ℕ) (moves : ℕ → ℕ → ℕ) (start stop : ℤ)
    (reverse : Bool) {nRows : ℕ} (hrows : 0 < nRows) :
    kf.keyIterAt c at_ moves start stop reverse nRows =
        ⟨((if reverse then (kf.rowsOf start stop).reverse else kf.rowsOf start stop).map f), none⟩ ↔
      kf.rowsOf start stop = [] ∨ kf.indexSize ≤ 2 ^ 22 := by
  rw [keyIterAt_eq]
  by_cases hneg : 0 ≤ start ∧ 0 ≤ stop
  swap
  · -- the guard returns at once
    have hnone : kf.rowsOf start stop = [] := if_neg hneg
    have hiter : kf.keyIter c start stop reverse nRows = Gen.done := by
      unfold keyIter
      refine if_pos ?_
      split <;> split <;> omega
    rw [hiter, hnone]
    cases reverse <;> simp [Gen.done]
  obtain ⟨a, rfl⟩ := Int.eq_ofNat_of_zero_le hneg.1
  obtain ⟨b, rfl⟩ := Int.eq_ofNat_of_zero_le hneg.2
  have hrange : kf.rowsOf a b = List.range' a (min b kf.cnt.nLines - a) := by
    unfold rowsOf
    rw [if_pos hneg]
    rfl
  rw [hrange]
  have hiter := keyIter_range hpos hfile hrow a b reverse hrows
  rw [hiter]
  by_cases hw : kf.indexSize ≤ 2 ^ 22
  · refine iff_of_true ?_ (.inr hw)
    rw [if_pos hw]
    cases reverse with
    | false => rfl
    | true => rw [if_pos rfl, if_pos rfl, List.map_reverse]
  · rw [if_neg hw]
    have hnone : (if reverse then (List.range' a (min b kf.cnt.nLines - a)).reverse
        else List.range' a (min b kf.cnt.nLines - a)) = [] ↔ List.range' a (min b kf.cnt.nLines - a) = [] := by
      cases reverse with
      | false => rfl
      | true => rw [if_pos rfl, List.reverse_eq_nil_iff]
    constructor
    · intro h
      exact .inl (hnone.1 (List.map_eq_nil_iff.1 (congrArg Gen.out h).symm))
    · intro h
      rw [hnone.2 (h.resolve_right hw), List.map_nil]

/-! ## The engine's iteration -/

/-- The KEY file holds the rows that the engine has stored. -/
structure Backs (c : RowCodec) (kf : KeyFile) (io : JIo) : Prop where
  lines : kf.cnt.nLines = io.cnt.nLines
  width : kf.indexSize = io.indexSize
  wide : 0 < kf.indexSize
  file : pos kf.indexSize kf.cnt.nLines ≤ kf.file.size
  row : ∀ r < kf.cnt.nLines, kf.stored c r = .ok (unpackRow (io.files.rows r))

/-- **The engine's `KEY_iter`** is what the block loop over the bytes of the KEY file yields. -/
theorem Backs.keyIter_eq {io : JIo} (h : Backs c kf io) (start stop : ℕ) (reverse : Bool) {nRows : ℕ}
    (hrows : 0 < nRows) : kf.keyIter c start stop reverse nRows =
      ⟨if reverse then ((io.keyIter start stop).map Prod.snd).reverse else (io.keyIter start stop).map Prod.snd, none⟩ := by
  rw [keyIter_range h.wide h.file h.row start stop reverse hrows, h.lines, h.width]
  unfold JIo.keyIter
  by_cases hw : io.indexSize ≤ 2 ^ 22
  · rw [if_pos hw, if_neg (Nat.not_lt.2 hw), List.map_map]
    rfl
  · have hwide : 2 ^ 22 < io.indexSize := by omega
    simp only [if_neg hw, if_pos hwide]
    cases reverse with
    | false => rfl
    | true => rfl

/-! ## Files of one and of two rows -/

/-- The row a line stands for. -/
def rowAt (kf : KeyFile) (r : ℕ) : Row :=
  match kf.stored jsonRows r with
  | .ok row => row
  | .error _ => normal 0 0 todayArgs

/-- Two rows, one a block, backwards, with the pointer moved on after each. -/
theorem keyIterAt_pair : pairFile.keyIterAt jsonRows 7 (fun _ p => p + 3) 0 5 true 1 =
    ⟨([0, 1].reverse.map (rowAt pairFile)), none⟩ := by
  have hrange : pairFile.rowsOf 0 5 = [0, 1] := by decide +kernel
  have hok : ∀ r, (pairFile.stored jsonRows r).isOk = true → pairFile.stored jsonRows r = .ok (rowAt pairFile r) := by
    intro r hr
    unfold rowAt
    cases hs : pairFile.stored jsonRows r with
    | ok row => rfl
    | error e => rw [hs] at hr; cases hr
  have hrow : ∀ r < pairFile.cnt.nLines, pairFile.stored jsonRows r = .ok (rowAt pairFile r) := by
    intro r hr
    have hlines : pairFile.cnt.nLines = 2 := by decide +kernel
    have hcases : r = 0 ∨ r = 1 := by omega
    rcases hcases with rfl | rfl
    · exact hok 0 (by decide +kernel)
    · exact hok 1 (by decide +kernel)
  have h := (keyIterAt_reads_iff (by decide +kernel) (by decide +kernel) hrow 7 (fun _ p => p + 3) 0 5 true
    (show 0 < 1 by decide)).2 (.inr (by decide +kernel))
  rwa [hrange] at h

/-- A row as JSON. -/
def lineA : Bytes := "[\"A\",3,5,0,0,1,20000,0]".toList.map fun ch => ch.toNat.toUInt8

/-- A file of one row of `size` bytes. -/
def rowFile (size : ℕ) : KeyFile :=
  { oneRow with
    file := ByteFile.empty.write (pos size 0) (padRow lineA size)
    indexSize := size }

theorem rowFile_stored {size : ℕ} (h : 24 ≤ size) : (rowFile size).file.size = pos size 1 ∧
    ∃ row, (rowFile size).stored jsonRows 0 = .ok row ∧ row.key = ['A'] := by
  have hline : lineA.length = 23 := by decide
  have hlen : (padRow lineA size).length = size := by
    unfold padRow
    simp only [List.length_append, List.length_replicate, List.length_singleton, hline]
    omega
  have hsize : (rowFile size).file.size = pos size 1 := by
    have hwrite : (ByteFile.empty.write (pos size 0) (padRow lineA size)).size =
        max 0 (pos size 0 + (padRow lineA size).length) := rfl
    have hpos : pos size 1 = pos size 0 + size := pos_succ size 0
    unfold rowFile
    rw [hwrite, hlen, hpos]
    omega
  refine ⟨hsize, ?_⟩
  -- the blanks behind the bracket are not looked at
  have hloads : ∀ p, ∃ row, jsonLoads (lineA ++ p) = .ok row ∧ row.key = ['A'] := fun p => ⟨_, rfl, rfl⟩
  obtain ⟨row, hrow, hkey⟩ := hloads (List.replicate (size - lineA.length - 1) 32 ++ [10])
  rw [← List.append_assoc] at hrow
  have hread : readInto (rowFile size).file (pos size 0) size = padRow lineA size := by
    rw [readInto_eq (by omega) (by rw [hsize, ← pos_succ])]
    have hself := ByteFile.read_write_self ByteFile.empty (pos size 0) (padRow lineA size)
    rw [hlen] at hself
    exact hself
  refine ⟨row, ?_, hkey⟩
  unfold stored
  have hwidth : (rowFile size).indexSize = size := rfl
  rw [hwidth, hread]
  exact hrow

/-- A row of 5 000 000 bytes decodes and is not yielded: the buffer of 4 MB has no room for it. -/
theorem keyIterAt_wide : (∃ row, (rowFile 5000000).stored jsonRows 0 = .ok row ∧ row.key = ['A']) ∧
    (rowFile 5000000).keyIterAt jsonRows 0 (fun _ p => p) 0 1 false 8192 = ⟨[], none⟩ := by
  obtain ⟨hsize, row, hrow, hkey⟩ := rowFile_stored (show 24 ≤ 5000000 by norm_num)
  refine ⟨⟨row, hrow, hkey⟩, ?_⟩
  have hwidth : (rowFile 5000000).indexSize = 5000000 := rfl
  have hlines : (rowFile 5000000).cnt.nLines = 1 := rfl
  have hpos : 0 < (rowFile 5000000).indexSize := by rw [hwidth]; norm_num
  have hfile : pos (rowFile 5000000).indexSize 1 ≤ (rowFile 5000000).file.size := by rw [hsize, hwidth]
  have hrows : ∀ r, 0 ≤ r → r < 1 → (rowFile 5000000).stored jsonRows r = .ok row := by
    intro r _ hr
    obtain rfl : r = 0 := by omega
    exact hrow
  have hiter := keyIter_rows hpos (f := fun _ => row) (show 0 < 1 by norm_num) (show 0 < 8192 by norm_num) (by rw [hlines])
    hfile hrows false
  have hwide : ¬ (rowFile 5000000).indexSize ≤ 2 ^ 22 := by rw [hwidth]; norm_num
  simp only [hwide, if_false] at hiter
  rw [keyIterAt_eq]
  exact hiter

end KeyFile

end OmniJsonDb
