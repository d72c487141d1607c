import OmniJsonDb.Lib.OrdDict
import OmniJsonDb.Lib.Exec
import OmniJsonDb.Lib.ByteFile
import OmniJsonDb.Lib.Extent
import OmniJsonDb.Model.Value

/-!
# The index engine

`JIo`: the counters, the key table, the file table, the two caches of decoded rows
and the files, with the operations on KEY rows.

* `readKey`, `writeKey`, `copyKey`: one row.
* `resizeKeys`: every row, at another width.
* `getDeadRow`: the remembered dead rows.
-/

namespace OmniJsonDb

def HEADER_SIZE : ℕ := 128
def MAX_INDEX_SIZE : ℕ := 8192
def MAX_KEY_SIZE : ℕ := 8064
def TOTAL_KEY_ROWS : ℕ := 8
def TOTAL_DEAD_ROWS : ℕ := 16
def MAX_FILE_ID : ℕ := 0x8000

/-- Counters wrap at 43 bits. -/
def bump (n : ℕ) : ℕ := (n + 1) &&& 0x7FFFFFFFFFF

/-! ## State -/

/-- What a database is configured with; the codecs are its parameters. -/
structure Config where
  /-- `KEY_dumps`: the fields it stores and how many bytes they take. -/
  keyDumps : Row → Except Err (KeyRec × ℕ)
  keyDumps_pack : ∀ r k n, keyDumps r = .ok (k, n) → packRow r = .ok k
  keyDumps_error : ∀ r, keyDumps r ≠ .error .key
  val : ValCodec
  writeHook : Key → PyVal → Bool
  /-- `files_obj.is_group(files, key)`. -/
  isGroup : Key → Key → Bool
  flags : ℕ
  cacheLimit : ℤ
  minSafe : ℕ
  maxWsize : ℕ
  minValueSize : ℕ
  /-- `int(n * (1 + reserved_rate))`. -/
  reserve : ℕ → ℕ
  le_reserve : ∀ n, n ≤ reserve n
  /-- The least index size with `row_bytes >= 0`. -/
  wideIndex : ℕ
  maxFileSize : ℕ
  keyRowWindow : ℕ
  initIndexSize : ℕ

/-- The five counters by which handles see each other's changes. -/
@[ext] structure Counters where
  syncId : ℕ := 0
  swapId : ℕ := 0
  remvId : ℕ := 0
  nRecords : ℕ := 0
  nLines : ℕ := 0
  deriving DecidableEq, Repr

/-- The KEY file's header. -/
structure Header where
  cnt : Counters := {}
  indexSize : ℕ
  maxVfiles : ℤ
  deriving DecidableEq, Repr

/-- The KEY file and the VAL files. -/
structure Files where
  header : Header
  rows : ℕ → KeyRec
  keySize : ℕ
  vals : ℕ → Option ByteFile

structure JIo where
  cnt : Counters := {}
  /-- The counters of the last header written or loaded. -/
  prev : Counters := {}
  indexSize : ℕ
  fileSize : ℕ := 0
  maxVfiles : ℤ := -1
  /-- The minute of the last `update_days`. -/
  now : ℕ := 0
  keyTable : OrdDict Key (ℕ × ℕ) := OrdDict.empty
  groups : OrdDict Key (Option PyVal) := OrdDict.empty
  fileTable : OrdDict ℕ ℕ := OrdDict.empty
  keyRows : OrdDict ℕ Row := OrdDict.empty
  deadRows : OrdDict ℕ Place := OrdDict.empty
  files : Files

/-- A step of the engine. -/
abbrev IoM := Exec JIo Err

namespace JIo

variable (cfg : Config)

def nRecords (io : JIo) : ℕ := io.cnt.nRecords
def nLines (io : JIo) : ℕ := io.cnt.nLines
def days (io : JIo) : ℕ := io.now / MIN_OF_DAY

/-- `row_bytes >= 0`. -/
def wide (io : JIo) : Bool := cfg.wideIndex ≤ io.indexSize

def windowSize (io : JIo) : ℕ := max 1 (cfg.keyRowWindow / io.indexSize)

/-! ## Key table, file table -/

/-- `key_table.set`. -/
def tableSet (io : JIo) (key : Key) (row flags : ℕ) : JIo :=
  { io with
    keyTable := io.keyTable.set key (row, flags &&& KEY_FLAG_MASK)
    groups :=
      if has flags GROUP ∧ row < io.cnt.nRecords ∧ !io.groups.contains key then
        io.groups.set key none
      else io.groups }

/-- `key_table.pop`. -/
def tablePop (io : JIo) (key : Key) : JIo := { io with keyTable := io.keyTable.pop key }

/-- `file_table[id]`, of a `defaultdict(int)`. -/
def fileEnd (io : JIo) (fileId : ℕ) : ℕ := (io.fileTable.get? fileId).getD 0

/-- `file_table[id] = max(file_table[id], n)`. -/
def fileGrow (io : JIo) (fileId n : ℕ) : JIo :=
  { io with fileTable := io.fileTable.set fileId (max (io.fileEnd fileId) n) }

/-- `VAL_size`. -/
def valSize? (io : JIo) (fileId : ℕ) : Option ℕ := (io.files.vals fileId).map ByteFile.size

/-! ## Row caches -/

/-- Forget what is remembered of a row. -/
def forget (io : JIo) (row : ℕ) : JIo :=
  { io with keyRows := io.keyRows.pop row, deadRows := io.deadRows.pop row }

def rememberKey (io : JIo) (row : ℕ) (info : Row) : JIo :=
  { io with keyRows := (io.keyRows.set row info).keepLast TOTAL_KEY_ROWS }

def rememberDead (io : JIo) (row : ℕ) (p : Place) : JIo :=
  { io with deadRows := (io.deadRows.set row p).keepLast TOTAL_DEAD_ROWS }

def clearRows (io : JIo) : JIo :=
  { io with keyRows := OrdDict.empty, deadRows := OrdDict.empty }

/-- The extent a row names. -/
def place (r : Slot) : Place := (r.fileId, r.offset, r.rowSize)

/-- The row stored at `r`; past the last line nothing decodes. -/
def stored? (io : JIo) (r : ℕ) : Except Err Row :=
  if r < io.cnt.nLines then .ok (unpackRow (io.files.rows r)) else .error .value

/-- `read_key`. -/
def readKey (r : ℕ) : IoM Row := do
  Exec.modify fun io => { io with deadRows := io.deadRows.pop r }
  let io ← Exec.get
  match io.keyRows.get? r with
  | some info =>
    Exec.modify fun io => { io with keyRows := io.keyRows.touch r }
    pure info
  | none =>
    let info ← Exec.lift (io.stored? r)
    Exec.modify fun io =>
      if r < io.cnt.nRecords then io.rememberKey r info else io.rememberDead r (place info.toSlot)
    pure info

/-- `KEY_iter(start, stop)`: the stored rows, not the remembered ones. Where a block of 4 MB has no
room for a row (`(2**22) // index_size` is 0) it stops at once. -/
def keyIter (io : JIo) (start stop : ℕ) : List (ℕ × Row) :=
  if 2 ^ 22 < io.indexSize then []
  else (List.range' start (min stop io.cnt.nLines - start)).map fun r => (r, unpackRow (io.files.rows r))

/-- Put a stored row into the file. -/
def putRec (io : JIo) (row : ℕ) (k : KeyRec) : JIo :=
  { io with files := { io.files with
      rows := Function.update io.files.rows row k
      keySize := max io.files.keySize (HEADER_SIZE + (row + 1) * io.indexSize) } }

/-- `copy_key`. -/
def copyKey (src dst : ℕ) : IoM Row :=
  Exec.modifyGet fun io =>
    (unpackRow (io.files.rows src), (io.forget dst).putRec dst (io.files.rows src))

/-- `write_header(truncate=False)`. -/
def writeHeader : IoM Unit :=
  Exec.modify fun io =>
    let isChg : Bool := io.prev ≠ io.cnt
    let maxVfiles : ℤ := match io.fileTable.keys.max? with
      | some m => (m : ℤ) + 1
      | none => io.maxVfiles
    let size := max HEADER_SIZE io.files.keySize
    -- a change must show in the file's size
    let size' := if isChg ∧ size = io.fileSize then size + 1 else size
    { io with
      prev := io.cnt
      maxVfiles := maxVfiles
      fileSize := size'
      files := { io.files with
        header := ⟨io.cnt, io.indexSize, maxVfiles⟩
        keySize := size' } }

/-! ## Writing rows -/

/-- The row `write_key` ends up with when its key is too long for any row: characters
are dropped from the end, then all but the first, until it fits and is not in use. -/
def stripKey (table : OrdDict Key (ℕ × ℕ)) (row : Row) (excess : ℕ) :
    Except Err (Row × KeyRec × ℕ) :=
  let row₁ := { row with key := row.key.take (row.key.length - excess) }
  match cfg.keyDumps row₁ with
  | .error e => .error e
  | .ok (k₁, n₁) =>
    if (n₁ + 1 ≤ MAX_INDEX_SIZE ∧ !table.contains row₁.key) ∨ row₁.key = [] then .ok (row₁, k₁, n₁)
    else
      let row₂ := { row with key := row₁.key.take 1 }
      match cfg.keyDumps row₂ with
      | .error e => .error e
      | .ok (k₂, n₂) =>
        if (n₂ + 1 ≤ MAX_INDEX_SIZE ∧ !table.contains row₂.key) ∨ row₂.key = [] then
          .ok (row₂, k₂, n₂)
        else .error .hang

/-- The row that is encoded, and its encoding. -/
def encodeKey (io : JIo) (a : KeyArgs) : Except Err (Row × KeyRec × ℕ) :=
  let row := normal io.now io.cnt.syncId a
  match cfg.keyDumps row with
  | .error e => .error e
  | .ok (k, n) =>
    if MAX_INDEX_SIZE < n + 1 ∧ io.indexSize < n + 1 then
      stripKey cfg io.keyTable row (n + 1 - io.indexSize)
    else .ok (row, k, n)

/-- Read the rows from `r` on, `m` of them. -/
def readKeys : ℕ → ℕ → IoM (List Row)
  | _, 0 => pure []
  | r, m + 1 => do
    let row ← readKey r
    let rows ← readKeys (r + 1) m
    pure (row :: rows)

/-- Encode rows as the engine that writes the wider file does. -/
def reencode (now size : ℕ) : List Row → Except Err (List KeyRec)
  | [] => .ok []
  | row :: rows =>
    match cfg.keyDumps (normal now 0 row.args) with
    | .error e => .error e
    | .ok (k, n) =>
      if size < n + 1 then .error .value
      else
        match reencode now size rows with
        | .error e => .error e
        | .ok ks => .ok (k :: ks)

/-- Round up to a multiple of eight. -/
def align8 (n : ℕ) : ℕ := n / 8 * 8 + (if n % 8 = 0 then 0 else 8)

/-- `resize_keys(index_size, min_ver=False)`, row by row: the look-ahead buffer reads
each row before it is overwritten. -/
def resizeKeys (size : ℕ) : IoM Unit := do
  let io ← Exec.get
  let size := align8 size
  if size = io.indexSize then pure ()
  else
    let rows ← readKeys 0 io.cnt.nLines
    let ks ← Exec.lift (reencode cfg io.now size rows)
    Exec.modify fun io =>
      { io with
        indexSize := size
        prev := { io.prev with nLines := 0 }
        files := { io.files with
          rows := fun r => (ks[r]?).getD (io.files.rows r)
          keySize := HEADER_SIZE + io.cnt.nLines * size } }
    writeHeader

/-- The empty row that fills a line not written yet. -/
def emptyRec : KeyRec := ⟨[], 0, 0, 0, 0, 0, 0, 0⟩

/-- `write_key`; the bytes written. -/
def writeKey (r : ℕ) (a : KeyArgs) : IoM ℕ := do
  let io ← Exec.get
  let (row, k, n) ← Exec.lift (io.encodeKey cfg a)
  if io.indexSize < n + 1 then
    if io.cnt.nLines ≤ r + 1 then
      Exec.modify fun io => io.putRec r emptyRec
    resizeKeys cfg (n + 1)
  Exec.modify fun io =>
    let io := (io.forget r).putRec r k
    if r < io.cnt.nRecords then io.rememberKey r row
    else if io.cnt.nRecords + 1 ≤ r then io.rememberDead r (place row.toSlot)
    else io
  let io ← Exec.get
  pure io.indexSize

/-! ## Dead rows -/

/-- The remembered dead rows at or past `minRow` that could hold `req` bytes, up to the
first that fits exactly. -/
def deadMatches (minRow req : ℕ) : List (ℕ × Place) → List (ℕ × Place)
  | [] => []
  | (row, p) :: rest =>
    if minRow ≤ row ∧ (req = 0 ∧ p.2.2 = 0 ∨ 0 < req ∧ req ≤ p.2.2) then
      (row, p) :: (if p.2.2 = req then [] else deadMatches minRow req rest)
    else deadMatches minRow req rest

/-- The rows the same scan finds to be live by now. -/
def deadStale (minRow req nRecords : ℕ) : List (ℕ × Place) → List ℕ
  | [] => []
  | (row, p) :: rest =>
    if minRow ≤ row then
      if (req = 0 ∧ p.2.2 = 0 ∨ 0 < req) ∧ p.2.2 = req then []
      else deadStale minRow req nRecords rest
    else if row < nRecords then row :: deadStale minRow req nRecords rest
    else deadStale minRow req nRecords rest

/-- Order by size, then file, then offset, then row. -/
def deadLe (a b : ℕ × Place) : Bool :=
  a.2.2.2 < b.2.2.2 || (a.2.2.2 = b.2.2.2 &&
    (a.2.1 < b.2.1 || (a.2.1 = b.2.1 &&
      (a.2.2.1 < b.2.2.1 || (a.2.2.1 = b.2.2.1 && a.1 ≤ b.1)))))

/-- The least of a list. -/
def deadMin : List (ℕ × Place) → Option (ℕ × Place)
  | [] => none
  | x :: xs =>
    match deadMin xs with
    | none => some x
    | some y => some (if deadLe x y then x else y)

/-- `get_dead_row`: the best remembered dead row, which is then forgotten. -/
def getDeadRow (minRow req : ℕ) : IoM (Option (ℕ × Place)) :=
  Exec.modifyGet fun io =>
    let dead := (deadStale minRow req io.cnt.nRecords io.deadRows.entries).foldl OrdDict.pop io.deadRows
    match deadMin (deadMatches minRow req io.deadRows.entries) with
    | some (row, p) => (some (row, p), { io with deadRows := dead.pop row })
    | none => (none, { io with deadRows := dead })

end JIo

end OmniJsonDb
