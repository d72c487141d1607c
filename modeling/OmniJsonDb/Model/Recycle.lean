import Mathlib.Data.Char
import Mathlib.Data.List.Lex
import Mathlib.Data.Prod.Lex
import OmniJsonDb.Model.Run

/-!
# A database handle: maintenance

`recycle`, `resize_keys` with `min_ver`, and the iteration of `keys[:]`.

* `updateFileTable`: `update_file_table`.
* `recycle`: expired records go, then the rows behind the live ones are packed.
* `fKeyIter`: `f_key_iter` of a selector that bounds neither versions nor dates.
-/

namespace OmniJsonDb

namespace JIo

variable (cfg : Config)

/-! ## The VAL files there are -/

/-- Files that were passed over count as empty, `m` of them up to `fileId`. -/
def fillMissing (fileId : ℕ) : ℕ → OrdDict ℕ ℕ → OrdDict ℕ ℕ
  | 0, table => table
  | m + 1, table =>
    fillMissing fileId m (table.set (fileId - (m + 1)) ((table.get? (fileId - (m + 1))).getD 0))

/-- Look at `n` files from `fileId` on; eight misses in a row end the scan. -/
def scanFiles (vals : ℕ → Option ByteFile) : ℕ → ℕ → ℕ → OrdDict ℕ ℕ → OrdDict ℕ ℕ
  | 0, _, _, table => table
  | n + 1, fileId, miss, table =>
    match vals fileId with
    | none => if 8 ≤ miss + 1 then table else scanFiles vals n (fileId + 1) (miss + 1) table
    | some f => scanFiles vals n (fileId + 1) 0 ((fillMissing fileId miss table).set fileId f.size)

/-- `update_file_table`. -/
def updateFileTable (io : JIo) : JIo :=
  let bound := if io.maxVfiles < 0 then MAX_FILE_ID else min MAX_FILE_ID (io.maxVfiles.toNat + 8)
  let table := scanFiles io.files.vals bound 0 0 OrdDict.empty
  { io with
    fileTable := table
    maxVfiles := match table.keys.max? with
      | some m => (m : ℤ) + 1
      | none => 0 }

/-- `write_header(truncate=True)`: the KEY file ends behind its last line, and what is kept
of rows behind it means nothing any more. -/
def truncateHeader (now : ℕ) : IoM Unit :=
  Exec.modify fun io =>
    let maxVfiles : ℤ := match io.fileTable.keys.max? with
      | some m => (m : ℤ) + 1
      | none => io.maxVfiles
    let size := HEADER_SIZE + io.cnt.nLines * io.indexSize
    let size' := if size = io.fileSize then size + 1 else size
    { io with
      prev := io.cnt
      maxVfiles := maxVfiles
      fileSize := size'
      now := now
      files := { io.files with
        header := ⟨io.cnt, io.indexSize, maxVfiles⟩
        keySize := size' } }

/-! ## `resize_keys` with `min_ver` -/

/-- What `min_ver` makes of the row `r`: a dead row loses its key, and versions are counted
from the number of lines down, but never below one. -/
def leastVer (cnt : Counters) (r : ℕ) (row : Row) : Row :=
  { row with
    key := if cnt.nRecords ≤ r then [] else row.key
    ver := max 1 (row.ver + cnt.nLines - cnt.syncId) }

/-- `resize_keys(index_size, min_ver=True)`. -/
def resizeKeysMin (size : ℕ) : IoM Unit := do
  let io ← Exec.get
  let size := align8 size
  if size = io.indexSize ∧ io.cnt.syncId ≤ io.cnt.nLines then pure ()
  else
    let rows ← readKeys 0 io.cnt.nLines
    let ks ← Exec.lift (reencode cfg io.now size (rows.mapIdx (leastVer io.cnt)))
    Exec.modify fun io =>
      { io with
        cnt := { io.cnt with
          syncId := max 1 io.cnt.nLines
          swapId := io.cnt.swapId % 2 + 1
          remvId := io.cnt.remvId % 2 + 1 }
        indexSize := size
        prev := { io.prev with nLines := 0 }
        files := { io.files with
          rows := fun r => (ks[r]?).getD (io.files.rows r)
          keySize := HEADER_SIZE + io.cnt.nLines * size } }
    writeHeader

end JIo

namespace JDb

variable (cfg : Config)

/-! ## Expired records -/

/-- The records whose lifetime has run out, in the order of the key table. -/
def collectExpired (env : Env) : List (Key × ℕ × ℕ) → DbM (List (ℕ × Key))
  | [] => pure []
  | (_, row, flags) :: rest =>
    if has flags EXPIRE then do
      let info ← onIo (JIo.readKey row)
      if info.ttl.subDay then let _ ← liveNow env
      let db ← Exec.get
      let more ← collectExpired env rest
      pure (if isExpired db.io.now env.minute info then (row, info.key) :: more else more)
    else collectExpired env rest

/-- Delete records, locked ones too. -/
def dropRows (env : Env) : List (ℕ × Key) → DbM Unit
  | [] => pure ()
  | (row, key) :: rest => do
    let _ ← fDelete cfg env key false (some row) none (.int UNLOCK)
    dropRows env rest

/-! ## The dead region -/

/-- A gap in a VAL file: file, start, end. -/
abbrev Gap := ℕ × ℕ × ℕ

/-- What dead rows are sorted by: their fields, then key and row. -/
def deadKey (e : ℕ × Row) : List ℕ ×ₗ Key ×ₗ ℕ :=
  toLex ([e.2.fileId, e.2.offset, e.2.rowSize, e.2.valSize, e.2.ver, e.2.cdays, e.2.mdays, e.2.ttl.len,
    e.2.flags], toLex (e.2.key, e.1))

/-- Where the file ends that holds an extent; a file that is not known ends with it. -/
def endOf (io : JIo) (fileId e : ℕ) : ℕ := (io.fileTable.get? fileId).getD e

/-- A dead extent that ends with its file. -/
def atEnd (io : JIo) (r : Row) : Bool := endOf io r.fileId (r.offset + r.rowSize) ≤ r.offset + r.rowSize

/-- Cut a VAL file off at `offset`. -/
def cutFile (fileId offset : ℕ) : DbM Unit := do
  let db ← Exec.get
  match db.io.files.vals fileId with
  | none => Exec.raise .value
  | some f => modifyIo fun io => { io with
      fileTable := io.fileTable.set fileId offset
      files := { io.files with vals := Function.update io.files.vals fileId (some (f.truncate offset)) } }

/-- Write the dead rows anew behind the live ones, from the last extent down; those that end
with their file are cut off it. -/
def packDead : List (ℕ × Row) → DbM (List (Gap × ℕ))
  | [] => pure []
  | (_, info) :: rest => do
    let db ← Exec.get
    if atEnd db.io info then
      cutFile info.fileId info.offset
      packDead rest
    else
      modifyIo fun io => { io with cnt := { io.cnt with nLines := io.cnt.nLines + 1 } }
      let _ ← onIo (JIo.writeKey cfg db.io.cnt.nLines info.args)
      modifyIo fun io => { io with
        fileTable := io.fileTable.set info.fileId (endOf io info.fileId (info.offset + info.rowSize)) }
      let gaps ← packDead rest
      pure (((info.fileId, info.offset, info.offset + info.rowSize), db.io.cnt.nLines) :: gaps)

/-- Join gaps that touch. -/
def joinGaps : Gap → List Gap → List Gap
  | g, [] => [g]
  | (f, s, e), (f', s', e') :: rest =>
    if f = f' ∧ e = s' then joinGaps (f, s, e') rest else (f, s, e) :: joinGaps (f', s', e') rest

/-- Gaps by file and start, with their sizes. -/
def gapTable : List Gap → OrdDict (ℕ × ℕ) ℕ → OrdDict (ℕ × ℕ) ℕ
  | [], table => table
  | (f, s, e) :: rest, table => gapTable rest (table.set (f, s) (e - s))

/-- Let every live row take the gap behind its extent, `m` rows from `r` on. -/
def absorb : ℕ → ℕ → OrdDict (ℕ × ℕ) ℕ → DbM (OrdDict (ℕ × ℕ) ℕ)
  | _, 0, gaps => pure gaps
  | r, m + 1, gaps => do
    let info ← onIo (JIo.readKey r)
    if 0 < info.rowSize then
      let size := (gaps.get? (info.fileId, info.offset + info.rowSize)).getD 0
      if 0 < size then
        if info.valSize = 0 then
          let _ ← getValFp cfg (some info.fileId) cfg.minValueSize
          writeVal info.fileId (info.offset + info.rowSize) (List.replicate size cfg.val.padByte)
        let _ ← onIo (JIo.writeKey cfg r { info.args with rowSize := info.rowSize + size })
      absorb (r + 1) m (gaps.pop (info.fileId, info.offset + info.rowSize))
    else absorb (r + 1) m gaps

/-- Record the gaps that are left. -/
def keepGaps : List ((ℕ × ℕ) × ℕ) → DbM Unit
  | [] => pure ()
  | ((fileId, offset), size) :: rest => do
    let db ← Exec.get
    if endOf db.io fileId (offset + size) ≤ offset + size then cutFile fileId offset
    else
      let _ ← onIo (JIo.writeKey cfg db.io.cnt.nLines { key := [], fileId := fileId, offset := offset, rowSize := size })
      modifyIo fun io => { io with cnt := { io.cnt with nLines := io.cnt.nLines + 1 } }
    keepGaps rest

/-- What gaps are sorted by: file, start, end and row. -/
def gapKey (g : Gap × ℕ) : List ℕ := [g.1.1, g.1.2.1, g.1.2.2, g.2]

/-- The gaps in their order, joined where they touch. -/
def sortGaps (gaps : List (Gap × ℕ)) : List Gap :=
  match (gaps.insertionSort fun a b => gapKey a ≤ gapKey b).map Prod.fst with
  | [] => []
  | g :: rest => joinGaps g rest

/-- `recycle(merge=True)` on the gaps that were found. -/
def mergeGaps (gaps : List (Gap × ℕ)) : DbM Unit := do
  let db ← Exec.get
  let left ← absorb cfg 0 db.io.cnt.nRecords (gapTable (sortGaps gaps) OrdDict.empty)
  modifyIo fun io => { io with cnt := { io.cnt with nLines := io.cnt.nRecords } }
  keepGaps cfg left.entries

/-! ## `recycle` -/

/-- No record is left: the VAL files go, and the counters start anew. A file that was open
before stays open. -/
def removeFiles (env : Env) : DbM Unit := do
  Exec.modify fun db =>
    let io := db.io.updateFileTable
    { db with
      cache := OrdDict.empty
      io := { io with
        cnt := { nRecords := io.cnt.nRecords }
        keyTable := OrdDict.empty
        groups := OrdDict.empty
        fileTable := OrdDict.empty
        files := { io.files with
          vals := fun f => if io.fileTable.contains f then none else io.files.vals f } } }
  onIo (JIo.truncateHeader env.minute)

/-- What ends a `recycle` that changed something. -/
def finishRecycle (env : Env) : DbM Unit := do
  modifyIo JIo.updateFileTable
  bumpSync
  onIo (JIo.truncateHeader env.minute)

/-- Pack the rows behind the live ones. -/
def packRows (env : Env) (merge : Bool) : DbM Unit := do
  let db ← Exec.get
  let n := db.io.cnt.nRecords
  let dead := db.io.keyIter n db.io.cnt.nLines
  let used := dead.filter fun e => decide (0 < e.2.rowSize)
  let sortable := dead.any fun e => decide (e.2.rowSize = 0) || atEnd db.io e.2
  if !merge && !sortable then
    -- only what the file has behind its last line may go
    let last := HEADER_SIZE + db.io.cnt.nLines * db.io.indexSize
    if db.io.indexSize ≤ db.io.files.keySize - last then onIo (JIo.truncateHeader env.minute) else pure ()
  else
    let gaps ← if sortable then do
        modifyIo fun io => { io with cnt := { io.cnt with nLines := n } }
        packDead cfg (used.insertionSort fun a b => deadKey b ≤ deadKey a)
      else pure (used.map fun e => ((e.2.fileId, e.2.offset, e.2.offset + e.2.rowSize), e.1))
    if merge && !gaps.isEmpty then mergeGaps cfg gaps
    finishRecycle env

/-- `recycle`, of one database and not interrupted. -/
def recycle (env : Env) (merge : Bool) : DbM Unit := do
  let db ← Exec.get
  let gone ← collectExpired env db.io.keyTable.entries
  dropRows cfg env (gone.insertionSort fun a b => expiredLe a b)
  let db ← Exec.get
  if db.io.cnt.nRecords = 0 then removeFiles env
  else if db.io.cnt.nRecords = db.io.cnt.nLines then finishRecycle env
  else packRows cfg env merge

/-! ## Iterating keys -/

/-- The loop of `sorted_key_table_items`: entries that come early wait in `lut`. -/
def sortItems (stop : ℕ) : List (Key × ℕ × ℕ) → ℕ → OrdDict ℕ Key → List (Key × ℕ)
  | [], _, lut => (lut.entries.insertionSort fun a b => a.1 ≤ b.1).map fun e => (e.2, e.1)
  | (key, r, _) :: rest, row, lut =>
    if r = row then
      let (out, row', lut') := takeNext lut.size (row + 1) lut
      (key, row) :: out ++ sortItems stop rest row' lut'
    else if r < stop then sortItems stop rest row (lut.set r key)
    else sortItems stop rest row lut
where
  takeNext : ℕ → ℕ → OrdDict ℕ Key → List (Key × ℕ) × ℕ × OrdDict ℕ Key
    | 0, row, lut => ([], row, lut)
    | m + 1, row, lut =>
      match lut.get? row with
      | some key =>
        let (out, row', lut') := takeNext m (row + 1) (lut.pop row)
        ((key, row) :: out, row', lut')
      | none => ([], row, lut)

/-- `THE_1ST_DATE + timedelta(days=..)`, of both dates of a row. -/
def rowDates (info : Row) : Except Err Unit := if info.Dated then .ok () else .error .overflow

/-- The rows of a selector that pass the test on their versions. -/
def yieldRows (maxVer : ℕ) : List ℕ → DbM (List (ℕ × Row))
  | [] => pure []
  | r :: rs => do
    let info ← onIo (JIo.readKey r)
    if info.ver < maxVer then
      Exec.lift (rowDates info)
      let more ← yieldRows maxVer rs
      pure ((r, info) :: more)
    else yieldRows maxVer rs

/-- `f_key_iter` of a slice without bounds: all live rows, or those of the keys that match the
rule of a key-rule slice. -/
def fKeyIter (rule : Option (Key → Bool)) : DbM (List (ℕ × Row)) := do
  let db ← Exec.get
  let rows := match rule with
    | none => List.range db.io.cnt.nRecords
    | some p =>
      ((sortItems db.io.cnt.nRecords db.io.keyTable.entries 0 OrdDict.empty).filter fun e => p e.1).map Prod.snd
  yieldRows db.io.cnt.syncId rows

end JDb

/-! ## Runs with maintenance -/

/-- A call of a handle, or the upkeep of its database. -/
inductive Work where
  | call (c : Call)
  | recycle (merge : Bool)
  | resize (size : ℕ) (minVer : Bool)

def Work.exec (cfg : Config) (env : Env) : Work → DbM Unit
  | .call c => (fun _ => ()) <$> c.exec cfg env
  | .recycle merge => JDb.recycle cfg env merge
  | .resize size minVer =>
    JDb.onIo (if minVer then JIo.resizeKeysMin cfg size else JIo.resizeKeys cfg size)

/-- A call or upkeep that returns. -/
def WorkStep (cfg : Config) (db : JDb) (l : Env × Work) (db' : JDb) : Prop :=
  (l.2.exec cfg l.1).run db = (.ok (), db')

/-- Run one after the other, as long as they return. -/
def runWork (cfg : Config) : List (Env × Work) → JDb → Option JDb
  | [], db => some db
  | l :: ls, db =>
    match (l.2.exec cfg l.1).run db with
    | (.ok _, db') => runWork cfg ls db'
    | (.error _, _) => none

end OmniJsonDb
