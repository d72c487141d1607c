import OmniJsonDb.Model.Recycle

/-!
# Listing versions

* `fRowValue`: `f_row_value`, the stored value of a row that may not be live.
* `fReadVersion`: `f_read_version`, the rows whose version lies within bounds.
-/

namespace OmniJsonDb

namespace JDb

variable (cfg : Config)

/-- `f_row_value`; `none` is `MISSING`, for a row that does not decode any more. -/
def fRowValue (r : Core) : DbM (Option PyVal) := fun db =>
  match rowValue cfg r db with
  | (.ok v, db') => (.ok (some v), db')
  | (.error _, db') => (.ok none, db')

/-- What `f_read_version` tells of a row: what is stored, whether it is live, and its value when that
is asked for. -/
structure Listed where
  row : Row
  isActive : Bool
  val : Option (Option PyVal)

/-- The value of a listed row; only that of a live one may go through the value cache. -/
def listedValue (env : Env) (withValue isActive : Bool) (row : Row) : DbM (Option (Option PyVal)) :=
  if withValue then
    if isActive then (fun v => some (some v)) <$> decodeValue cfg env row.key row.toCore true true
    else some <$> fRowValue cfg row.toCore
  else pure none

/-- The loop of `f_read_version` over the rows of `KEY_iter`. -/
def listVersions (env : Env) (maxVersion version : ℤ) (withValue : Bool) (nRecords : ℕ) :
    List (ℕ × Row) → DbM (List (ℕ × Listed))
  | [] => pure []
  | (rowId, row) :: rest =>
    if row.ver ≤ maxVersion ∧ version ≤ row.ver then do
      let isActive : Bool := rowId < nRecords
      let val ← listedValue cfg env withValue isActive row
      let more ← listVersions env maxVersion version withValue nRecords rest
      pure ((rowId, ⟨row, isActive, val⟩) :: more)
    else listVersions env maxVersion version withValue nRecords rest

/-- `f_read_version`. -/
def fReadVersion (env : Env) (version : ℤ) (maxVersion : Option ℤ) (withValue : Bool) :
    DbM (List (ℕ × Listed)) := do
  let db ← Exec.get
  let maxVersion := maxVersion.getD db.io.cnt.nLines
  let version := max version 0
  listVersions cfg env maxVersion version withValue db.io.cnt.nRecords (db.io.keyIter 0 db.io.cnt.nLines)

end JDb

end OmniJsonDb
