import OmniJsonDb.Model.KeyCodec

/-!
# Another codec for the KEY file

`change_KEY` on the bytes of the KEY file. A new engine with a file of its own measures how wide
the rows become; then the rows are read by the old engine and written by the new one, in the same
file.

* `KeyFile.measureRows`: the pass that measures.
* `KeyFile.convert`: the file in the other codec.
* `KeyHandle.changeKey`: `change_KEY(KEY_type, api_ver)`.
-/

namespace OmniJsonDb

def MIN_INDEX_SIZE : ℕ := 16 + 8 * 6

/-- `KEY_dumps` in `write_key`, of an engine without keys: where the row is wider than any may be,
characters are dropped from the end of the key, then all but the first. -/
def RowCodec.dumpsCut (c : RowCodec) (size : ℕ) (row : Row) : Except Err Bytes :=
  match c.dumps row with
  | .error e => .error e
  | .ok data =>
    if MAX_INDEX_SIZE < data.length + 1 ∧ size < data.length + 1 then
      let row₁ := { row with key := row.key.take (row.key.length - (data.length + 1 - size)) }
      match c.dumps row₁ with
      | .error e => .error e
      | .ok data₁ =>
        if data₁.length + 1 ≤ MAX_INDEX_SIZE ∨ row₁.key = [] then .ok data₁
        else
          match c.dumps { row with key := row₁.key.take 1 } with
          | .error e => .error e
          | .ok data₂ => if data₂.length + 1 ≤ MAX_INDEX_SIZE then .ok data₂ else .error .hang
    else .ok data

/-- Rows are read with one codec and written with the other, at a width. -/
def RowCodec.into (c c' : RowCodec) (size : ℕ) : RowCodec := ⟨c'.dumpsCut size, c.loads, c'.head⟩

namespace KeyFile

/-- How wide the new engine's rows are once it has written a row. -/
def widen (c' : RowCodec) (now size : ℕ) (row : Row) : Except Err ℕ :=
  match c'.dumpsCut size (normal now 0 row.args) with
  | .error e => .error e
  | .ok data => .ok (if size < data.length + 1 then JIo.align8 (data.length + 1) else size)

variable (c c' : RowCodec)

/-- Every row from `r` on, `m` of them, is read and written to row 0 of the new engine's own file. -/
def measureRows : ℕ → ℕ → ℕ → KeyM ℕ
  | 0, _, size => pure size
  | m + 1, r, size => do
    let row ← readKey c r
    let kf ← Exec.get
    let size ← Exec.lift (widen c' kf.now size row)
    measureRows m (r + 1) size

/-- The rows in the other codec. A row that is read again as another one and is then wider than
measured is not followed further. -/
def convert : KeyM Unit := do
  let kf ← Exec.get
  let size ← measureRows c c' kf.cnt.nLines 0 MIN_INDEX_SIZE
  let both := c.into c' size
  let src := kf.tableSize size
  let table ← fillTable both src 0 OrdDict.empty
  moveRows both size kf.cnt.nLines src 0 table
  Exec.modify fun kf =>
    { kf with file := kf.file.truncate (pos size kf.cnt.nLines), indexSize := size }
  writeHeader both

end KeyFile

/-! ## The handle -/

/-- The built-in serialisations of KEY rows. -/
inductive KeyType where
  | J
  | S
  | M
  | L
  deriving DecidableEq

/-- An open handle: the KEY file, how it is coded, and the key table. -/
structure KeyHandle where
  keyFile : KeyFile
  keyType : KeyType
  apiVer : Layout
  keyTable : OrdDict Key (ℕ × ℕ)

/-- A version of the rows by its number. -/
def Layout.ofApi : ℤ → Option Layout
  | 0 => some .v0
  | 1 => some .v1
  | 2 => some .v2
  | _ => none

/-- `change_KEY`, for the built-in serialisations. -/
def KeyHandle.changeKey (codecs : KeyType → Layout → RowCodec) (keyType : KeyType) (apiVer : Option ℤ) :
    Exec KeyHandle Err Bool := do
  let db ← Exec.get
  match apiVer.elim (some db.apiVer) Layout.ofApi with
  | none => Exec.raise .value
  | some ver =>
    if ver = db.apiVer ∧ keyType = db.keyType then pure false
    else
      Exec.zoom KeyHandle.keyFile (fun kf db => { db with keyFile := kf })
        (KeyFile.convert (codecs db.keyType db.apiVer) (codecs keyType ver))
      Exec.modify fun db => { db with keyType := keyType, apiVer := ver }
      pure true

end OmniJsonDb
