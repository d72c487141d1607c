import OmniJsonDb.Lib.PyRange
import OmniJsonDb.Model.Recycle

/-!
# Slices of rows

* `startRow`, `stopRow`, `fSlice`: `f_slice` of integers.
* `fKeySlice`: `f_key_iter` of such a slice, hidden and expired records included.
* `fKeyPages`: page after page of the records.
-/

namespace OmniJsonDb

/-- `f_slice`: the row a slice of integers starts from, over `n` records. -/
def startRow (n : ℤ) : Option ℤ → ℤ
  | none => 0
  | some i =>
    let i := if i < 0 then max 0 (n + i) else i
    let i := if n ≤ i then n - 1 else i
    max 0 i

/-- `f_slice`: the row a slice of integers stops at. -/
def stopRow (n step : ℤ) : Option ℤ → ℤ
  | none => if 0 < step then n else if 0 < n then -1 else 0
  | some i =>
    let i := if i < 0 then max 0 (n + i) else i
    max 0 (min n i)

/-- `f_slice` of a slice of integers: start, stop and step of the rows. Such a slice bounds versions
by `sync_id` alone, and dates not at all. -/
def fSlice (n : ℤ) (key : SliceArgs) : Except Err (ℤ × ℤ × ℤ) :=
  let step := key.step.getD 1
  if step = 0 then .error .value else .ok (startRow n key.start, stopRow n step key.stop, step)

namespace JDb

/-- `f_key_iter` of a slice of integers: the rows, with what is read of them. -/
def fKeySlice (key : SliceArgs) : DbM (List (ℕ × Row)) := do
  let db ← Exec.get
  let (start, stop, step) ← Exec.lift (fSlice db.io.nRecords key)
  yieldRows db.io.cnt.syncId ((pyRange start stop step).map Int.toNat)

/-- The rows of the pages from the page `i` on, `k` of them, each of `p` records. -/
def fKeyPages (p : ℕ) (i : ℕ) : ℕ → DbM (List ℕ)
  | 0 => pure []
  | k + 1 => do
    let page ← fKeySlice ⟨some (i * p : ℕ), some ((i + 1) * p : ℕ), none⟩
    let more ← fKeyPages p (i + 1) k
    pure (page.map Prod.fst ++ more)

end JDb

end OmniJsonDb
