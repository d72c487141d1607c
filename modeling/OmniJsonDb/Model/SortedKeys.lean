import Mathlib.Data.List.Sort
import OmniJsonDb.Lib.Reorder
import OmniJsonDb.Model.Resize

/-!
# Keys in row order

`sorted_key_table_items` and the block reader `KEY_iter` under it. Rows are integers here: the
cursor of a descending walk ends at `-1`.

* `KeyFile.keyIter`: the decoded rows of a range, read from the file block by block.
* `KeyFile.sortedKeyTableItems`: keys with their rows, from the file or from the key table.
-/

namespace OmniJsonDb

/-- What a generator yields, and what it raises after that. -/
structure Gen (α : Type) where
  out : List α
  err : Option Err
  deriving DecidableEq, Repr

namespace Gen

variable {α : Type}

def done : Gen α := ⟨[], none⟩

/-- `yield`, and then the rest. -/
def cons (x : α) (g : Gen α) : Gen α := ⟨x :: g.out, g.err⟩

/-- One after the other. -/
def append (g h : Gen α) : Gen α :=
  match g.err with
  | none => ⟨g.out ++ h.out, h.err⟩
  | some _ => g

end Gen

namespace KeyFile

variable (c : RowCodec) (kf : KeyFile)

/-! ## `KEY_iter` -/

/-- The rows of the lines of a block, and whether the iteration goes on: it stops silently at a
line that does not decode. -/
def loadRows : List Bytes → Gen Row × Bool
  | [] => (Gen.done, true)
  | line :: lines =>
    match c.loads line with
    | .ok row => ((loadRows lines).1.cons row, (loadRows lines).2)
    | .error .value => (Gen.done, false)
    | .error e => (⟨[], some e⟩, false)

/-- The lines of a block. -/
def cutLines (size : ℕ) (data : Bytes) : List Bytes :=
  (List.range (data.length / size)).map fun i => (data.drop (i * size)).take size

/-- The loop over the blocks; `fuel` bounds their number. -/
def readBlocks (reverse : Bool) (nKeys nRows : ℕ) : ℕ → ℕ → ℕ → Gen Row
  | 0, _, _ => Gen.done
  | fuel + 1, cnt, rowId =>
    if cnt < nKeys then
      let n := min (nKeys - cnt) nRows
      let first := if reverse then rowId - n else rowId
      let data := kf.file.read (pos kf.indexSize first) (n * kf.indexSize)
      if data.length < kf.indexSize ∨ data.length % kf.indexSize ≠ 0 then Gen.done
      else
        let lines := cutLines kf.indexSize data
        let (rows, more) := loadRows c (if reverse then lines.reverse else lines)
        if more then rows.append (readBlocks reverse nKeys nRows fuel (cnt + n) (if reverse then first else rowId + n))
        else rows
    else Gen.done

/-- `KEY_iter(fp, start, stop, reverse, n_rows)`. -/
def keyIter (start stop : ℤ) (reverse : Bool) (nRows : ℕ) : Gen Row :=
  let nLines : ℤ := kf.cnt.nLines
  let stop := if nLines ≤ stop then nLines else stop
  let start := if nLines ≤ start then nLines else start
  let nKeys := stop - start
  if nKeys ≤ 0 ∨ nRows = 0 ∨ stop < 0 ∨ start < 0 ∨ nLines ≤ 0 then Gen.done
  else
    let nRows := min (min nRows (2 ^ 22 / kf.indexSize)) nKeys.toNat
    kf.readBlocks c reverse nKeys.toNat nRows nKeys.toNat 0 (if reverse then stop else start).toNat

/-! ## The reader under the iteration

`keyIter` with what the generator holds between its values: the file pointer, which the caller may
move while a row is out, and the one buffer that every block is read into. -/

structure KeyCursor where
  /-- `fp.tell()`. -/
  pos : ℕ
  /-- `buf`, as long as the largest block. -/
  buf : Bytes
  /-- How many rows have been yielded. -/
  yields : ℕ

/-- A row is out: `moves` is what the caller does to the file pointer. -/
def KeyCursor.yielded (moves : ℕ → ℕ → ℕ) (cur : KeyCursor) : KeyCursor :=
  { cur with pos := moves cur.yields cur.pos, yields := cur.yields + 1 }

/-- `fp.seek(off); fp.readinto(mv_buf[:n])`: how many bytes came, and the reader behind them. -/
def fillBuf (off n : ℕ) (cur : KeyCursor) : ℕ × KeyCursor :=
  let data := kf.file.read off n
  (data.length, { cur with pos := off + data.length, buf := data ++ cur.buf.drop data.length })

/-- The rows at the indices of the buffer, and whether the iteration goes on. -/
def serveRows (moves : ℕ → ℕ → ℕ) : List ℕ → KeyCursor → Gen Row × Bool × KeyCursor
  | [], cur => (Gen.done, true, cur)
  | i :: is, cur =>
    match c.loads ((cur.buf.drop (i * kf.indexSize)).take kf.indexSize) with
    | .ok row =>
      let (rows, more, cur') := serveRows moves is (cur.yielded moves)
      (rows.cons row, more, cur')
    | .error .value => (Gen.done, false, cur)
    | .error e => (⟨[], some e⟩, false, cur)

/-- The loop over the blocks. -/
def serveBlocks (moves : ℕ → ℕ → ℕ) (reverse : Bool) (nKeys nRows : ℕ) : ℕ → ℕ → ℕ → KeyCursor → Gen Row
  | 0, _, _, _ => Gen.done
  | fuel + 1, cnt, rowId, cur =>
    if cnt < nKeys then
      let n := min (nKeys - cnt) nRows
      let first := if reverse then rowId - n else rowId
      let (nBytes, cur) := kf.fillBuf (pos kf.indexSize first) (n * kf.indexSize) cur
      if nBytes < kf.indexSize ∨ nBytes % kf.indexSize ≠ 0 then Gen.done
      else
        let idxs := List.range (nBytes / kf.indexSize)
        let (rows, more, cur) := kf.serveRows c moves (if reverse then idxs.reverse else idxs) cur
        if more then
          rows.append (serveBlocks moves reverse nKeys nRows fuel (cnt + n)
            (if reverse then first else rowId + n) cur)
        else rows
    else Gen.done

/-- `KEY_iter(fp, start, stop, reverse, n_rows)`, begun with the file pointer at `at_`. -/
def keyIterAt (at_ : ℕ) (moves : ℕ → ℕ → ℕ) (start stop : ℤ) (reverse : Bool) (nRows : ℕ) : Gen Row :=
  let nLines : ℤ := kf.cnt.nLines
  let stop := if nLines ≤ stop then nLines else stop
  let start := if nLines ≤ start then nLines else start
  let nKeys := stop - start
  if nKeys ≤ 0 ∨ nRows = 0 ∨ stop < 0 ∨ start < 0 ∨ nLines ≤ 0 then Gen.done
  else
    let nRows := min (min nRows (2 ^ 22 / kf.indexSize)) nKeys.toNat
    kf.serveBlocks c moves reverse nKeys.toNat nRows nKeys.toNat 0 (if reverse then stop else start).toNat
      ⟨at_, List.replicate (kf.indexSize * nRows) 0, 0⟩

/-! ## `sorted_key_table_items` -/

/-- Count the rows up, or down, from the first. -/
def number (d : ℤ) : ℤ → List Row → List (Key × ℤ)
  | _, [] => []
  | r, row :: rows => (row.key, r) :: number d (r + d) rows

/-- `key_table.items()`. -/
def items (table : OrdDict Key (ℕ × ℕ)) : List (Key × ℤ) := table.entries.map fun e => (e.1, (e.2.1 : ℤ))

/-- `n_records if stop_row < 0 else min(n_records, stop_row)`. -/
def stopAt (stopRow : ℤ) : ℤ := if stopRow < 0 then kf.cnt.nRecords else min kf.cnt.nRecords stopRow

/-- `max(0, min(start_row, stop_row - 1))`. -/
def startAt (startRow stopRow : ℤ) : ℤ := max 0 (min startRow (kf.stopAt stopRow - 1))

/-- `sorted_key_table_items(start_row, stop_row, copy, reverse)`. -/
def sortedKeyTableItems (table : OrdDict Key (ℕ × ℕ)) (startRow stopRow : ℤ) (copy reverse : Bool) :
    Gen (Key × ℤ) :=
  let stop := kf.stopAt stopRow
  let start := kf.startAt startRow stopRow
  let d : ℤ := if reverse then -1 else 1
  let first := if reverse then stop - 1 else start
  if copy then
    let rows := kf.keyIter c start stop reverse 8192
    ⟨number d first rows.out, rows.err⟩
  else
    let b := (Reorder.start first).run d (fun r => start ≤ r && r < stop) (items table)
    let rest := b.lut.entries.insertionSort fun a b => if reverse then b.1 ≤ a.1 else a.1 ≤ b.1
    ⟨b.out ++ rest.map fun e => (e.2, e.1), none⟩

end KeyFile

end OmniJsonDb
