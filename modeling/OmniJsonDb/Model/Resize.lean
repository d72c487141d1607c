import OmniJsonDb.Model.JIo

/-!
# Rewriting the KEY file at another width

`resize_keys` on the bytes of the KEY file: rows are read ahead of where they are
overwritten, and the look-ahead is what a floating-point quotient gives.

* `intDiv`: `int(a / b)`.
* `KeyFile.resizeKeys`: `resize_keys(index_size, min_ver=False)`, byte by byte.
-/

namespace OmniJsonDb

/-! ## `int(a / b)` -/

/-- The nearest integer, ties to even. -/
def roundEven (a b : ℕ) : ℕ :=
  let q := a / b
  let r := a % b
  if 2 * r < b ∨ (2 * r = b ∧ q % 2 = 0) then q else q + 1

/-- `int(a / b)`: the quotient is rounded to 53 significant bits. -/
def intDiv (a b : ℕ) : ℕ :=
  let e := Nat.log2 (a / b)
  if e ≤ 52 then roundEven (a * 2 ^ (52 - e)) b / 2 ^ (52 - e)
  else roundEven a (b * 2 ^ (e - 52)) * 2 ^ (e - 52)

/-! ## The KEY file -/

/-- The codec of rows and header, to bytes: `KEY_dumps`, `KEY_loads`, `HEAD_dumps`. -/
structure RowCodec where
  dumps : Row → Except Err Bytes
  loads : Bytes → Except Err Row
  head : Counters → ℕ → Bytes

/-- The KEY file and what rewriting it looks at. -/
structure KeyFile where
  file : ByteFile
  indexSize : ℕ
  cnt : Counters
  /-- The size noted with the last header. -/
  fileSize : ℕ
  /-- The minute of the last `update_days`. -/
  now : ℕ
  keyRows : OrdDict ℕ Row

abbrev KeyM := Exec KeyFile Err

namespace KeyFile

variable (c : RowCodec)

/-- Where a row starts. -/
def pos (size row : ℕ) : ℕ := HEADER_SIZE + row * size

/-- `fp.readinto(bytearray(n))`: what the file does not have stays zero. -/
def readInto (f : ByteFile) (off n : ℕ) : Bytes :=
  let data := f.read off n
  if data = [] then [] else data ++ List.replicate (n - data.length) 0

/-- The row that the bytes of the file stand for. -/
def stored (kf : KeyFile) (r : ℕ) : Except Err Row :=
  c.loads (readInto kf.file (pos kf.indexSize r) kf.indexSize)

/-- `read_key`. -/
def readKey (r : ℕ) : KeyM Row := do
  let kf ← Exec.get
  match kf.keyRows.get? r with
  | some info =>
    Exec.modify fun kf => { kf with keyRows := kf.keyRows.touch r }
    pure info
  | none =>
    let info ← Exec.lift (kf.stored c r)
    Exec.modify fun kf =>
      if r < kf.cnt.nRecords then { kf with keyRows := (kf.keyRows.set r info).keepLast TOTAL_KEY_ROWS }
      else kf
    pure info

/-- `data + b' ' * pad_size + b'\n'`. -/
def padRow (data : Bytes) (size : ℕ) : Bytes := data ++ List.replicate (size - data.length - 1) 32 ++ [10]

/-- `write_key` of a row that fits the file. -/
def putKey (r : ℕ) (a : KeyArgs) : KeyM Unit := do
  let kf ← Exec.get
  let row := normal kf.now kf.cnt.syncId a
  let data ← Exec.lift (c.dumps row)
  if kf.indexSize < data.length + 1 then Exec.raise .value
  else
    Exec.modify fun kf =>
      { kf with
        file := kf.file.write (pos kf.indexSize r) (padRow data kf.indexSize)
        keyRows :=
          if r < kf.cnt.nRecords then ((kf.keyRows.pop r).set r row).keepLast TOTAL_KEY_ROWS
          else kf.keyRows.pop r }

/-- The bytes `write_key` of the engine for the new file makes of a row. -/
def encodeAt (now size : ℕ) (row : Row) : Except Err Bytes :=
  match c.dumps (normal now 0 row.args) with
  | .error e => .error e
  | .ok data => if size < data.length + 1 then .error .value else .ok (padRow data size)

/-- `dst_write_key`. -/
def writeKey (size r : ℕ) (row : Row) : KeyM Unit := do
  let kf ← Exec.get
  let data ← Exec.lift (encodeAt c kf.now size row)
  Exec.modify fun kf => { kf with file := kf.file.write (pos size r) data }

/-- How many rows are read before the first is written. -/
def tableSize (kf : KeyFile) (size : ℕ) : ℕ :=
  if kf.indexSize < size then
    min kf.cnt.nLines (intDiv (kf.cnt.nLines * (size - kf.indexSize)) kf.indexSize + 8)
  else 0

/-- The rows that were read and not written yet. -/
abbrev Table := OrdDict ℕ Row

/-- Read the rows from `src` on, `m` of them. -/
def fillTable : ℕ → ℕ → Table → KeyM Table
  | 0, _, table => pure table
  | m + 1, src, table => do
    let row ← readKey c src
    fillTable m (src + 1) (table.set src row)

/-- Write the rows from `dst` on, `m` of them, and read one more before each. -/
def moveRows (size : ℕ) : ℕ → ℕ → ℕ → Table → KeyM Unit
  | 0, _, _, _ => pure ()
  | m + 1, src, dst, table => do
    let kf ← Exec.get
    let (src, table) ←
      if src < kf.cnt.nLines then do
        let row ← readKey c src
        pure (src + 1, table.set src row)
      else pure (src, table)
    match table.get? dst with
    | none => pure ()
    | some row =>
      writeKey c size dst row
      moveRows size m src (dst + 1) (table.pop dst)

/-- `write_header`, of a file whose counters have changed. -/
def writeHeader : KeyM Unit := do
  let kf ← Exec.get
  let data := c.head kf.cnt kf.indexSize
  if HEADER_SIZE < data.length + 1 then Exec.raise .value
  else
    Exec.modify fun kf =>
      let file := kf.file.write 0 (padRow data HEADER_SIZE)
      if file.size = kf.fileSize then
        { kf with file := file.write file.size [10], fileSize := file.size + 1 }
      else { kf with file := file, fileSize := file.size }

/-- `resize_keys(index_size, min_ver=False)`. -/
def resizeKeys (size : ℕ) : KeyM Unit := do
  let kf ← Exec.get
  let size := JIo.align8 size
  if size = kf.indexSize then pure ()
  else
    let src := kf.tableSize size
    let table ← fillTable c src 0 OrdDict.empty
    moveRows c size kf.cnt.nLines src 0 table
    Exec.modify fun kf =>
      { kf with file := kf.file.truncate (pos size kf.cnt.nLines), indexSize := size }
    writeHeader c

end KeyFile

end OmniJsonDb
