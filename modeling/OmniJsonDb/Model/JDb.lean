import Mathlib.Data.Finset.Erase
import Mathlib.Data.Finset.Insert
import OmniJsonDb.Model.JIo

/-!
# A database handle: reading

`JDb`: the engine, the value cache and the bookkeeping of a write session. VAL
files are opened here, values are decoded, and links are followed.

* `getValFp`: pick or open a VAL file.
* `decodeValue`: from a row to its value, through the cache.
* `fRead`: `f_read`, which queues the records it finds expired.
-/

namespace OmniJsonDb

/-- What a call is given from outside: the local time in seconds, the random number a
window scan draws, and what another database answers when a path leads into it. -/
structure Env where
  ts : ℕ := 0
  rand : ℕ := 0
  childRead : Except Err PyVal := .ok .none
  childWrite : Except Err Bool := .ok false
  childStep : Except Err Unit := .ok ()

def Env.minute (env : Env) : ℕ := env.ts / 60

structure JDb where
  io : JIo
  cache : OrdDict Key PyVal := OrdDict.empty
  safeLine : ℕ := 0
  chgKeys : Finset Key := ∅
  /-- The VAL files this thread has open, oldest first. -/
  fpDict : List ℕ := []
  /-- The expired records reads have queued. -/
  expired : List (ℕ × Key) := []

/-- A step of the handle. -/
abbrev DbM := Exec JDb Err

namespace JDb

variable (cfg : Config)

/-- An engine step, run by the handle. -/
def onIo {α : Type} (x : IoM α) : DbM α :=
  Exec.zoom JDb.io (fun io db => { db with io := io }) x

/-- Change the engine's state. -/
def modifyIo (f : JIo → JIo) : DbM Unit := Exec.modify fun db => { db with io := f db.io }

/-- `live_now`, which also refreshes the engine's clock. -/
def liveNow (env : Env) : DbM ℕ := do
  modifyIo fun io => { io with now := env.minute }
  pure env.minute

/-! ## The value cache -/

def cachePop (key : Key) : DbM Unit :=
  Exec.modify fun db => { db with cache := db.cache.pop key }

def cacheTouch (key : Key) : DbM Unit :=
  Exec.modify fun db => { db with cache := db.cache.touch key }

/-- `_update_cache` on the cache itself. -/
def cacheAfter (cache : OrdDict Key PyVal) (key : Key) (val : PyVal) (keyFlags : ℕ) :
    OrdDict Key PyVal :=
  if has keyFlags NO_CACHE then cache.pop key
  else if cfg.cacheLimit = 0 then cache
  else
    let cache :=
      if 0 < cfg.cacheLimit ∧ 0 < cache.size ∧ cfg.cacheLimit ≤ cache.size ∧ !cache.contains key then
        cache.popFirst
      else cache
    (cache.set key val).touch key

def updateCache (key : Key) (val : PyVal) (keyFlags : ℕ) : DbM Unit :=
  Exec.modify fun db => { db with cache := cacheAfter cfg db.cache key val keyFlags }

/-! ## VAL files -/

/-- The VAL file a new extent of `req` bytes goes to, and where in it: every `step`-th
file from the last one down, else a new one. -/
def pickFile (io : JIo) (req step : ℕ) : ℕ → ℕ → ℕ × ℕ
  | 0, _ => (io.fileTable.size, 0)
  | fuel + 1, fileId =>
    if io.fileEnd fileId + req ≤ cfg.maxFileSize then (fileId, io.fileEnd fileId)
    else if fileId < step then (io.fileTable.size, 0)
    else pickFile io req step fuel (fileId - step)

/-- Close the oldest open VAL files, `m` of them, noting their sizes. -/
def closeOldest : ℕ → DbM Unit
  | 0 => pure ()
  | m + 1 => do
    let db ← Exec.get
    match db.fpDict with
    | [] => pure ()
    | fileId :: rest =>
      Exec.modify fun db => { db with
        fpDict := rest
        io := { db.io.fileGrow fileId ((db.io.valSize? fileId).getD 0) with
          maxVfiles := max db.io.maxVfiles (fileId + 1) } }
      closeOldest m

/-- Open a VAL file, and create it if it is not there; where its used part ends. -/
def openVal (fileId offset : ℕ) (db : JDb) : ℕ × JDb :=
  let size := db.io.valSize? fileId
  (match size with
    | some size => if offset ≤ size then size else offset
    | none => offset,
  { db with
    fpDict := db.fpDict ++ [fileId]
    io := { db.io with
      fileTable := match size with
        | some size => if offset ≤ size then db.io.fileTable.set fileId size else db.io.fileTable
        | none => db.io.fileTable
      files := { db.io.files with
        vals := Function.update db.io.files.vals fileId
          (some ((db.io.files.vals fileId).getD ByteFile.empty)) } } })

/-- `f_get_val_fp`: `none` asks for a file with room for `req` bytes. The file id, and
how much of the file is in use. -/
def getValFp (fileId : Option ℕ) (req : ℕ) : DbM (ℕ × ℕ) := do
  let db ← Exec.get
  let (fileId, offset) := match fileId with
    | some fileId => (fileId, db.io.fileEnd fileId)
    | none =>
      let num := db.io.fileTable.size
      pickFile cfg db.io req (max 1 (num / 4)) (num + 1) (num - 1)
  if fileId ∈ db.fpDict then pure (fileId, offset)
  else
    closeOldest (db.fpDict.length + 1 - 32)
    let offset ← Exec.modifyGet (openVal fileId offset)
    pure (fileId, offset)

/-- The bytes of an extent, of a file that is open. -/
def valBytes (io : JIo) (fileId offset n : ℕ) : Bytes :=
  ((io.files.vals fileId).getD ByteFile.empty).read offset n

/-- `val_fp.seek(offset); val_fp.write(data)`. -/
def writeVal (fileId offset : ℕ) (data : Bytes) : DbM Unit :=
  modifyIo fun io => { io with files := { io.files with
    vals := Function.update io.files.vals fileId
      (some (((io.files.vals fileId).getD ByteFile.empty).write offset data)) } }

/-! ## Decoding -/

/-- The stored value of a row, whatever it stands for. -/
def rowValue (r : Core) : DbM PyVal :=
  if r.rowSize = 0 then Exec.lift (decodeRow cfg.val r.fileId r.offset r.valSize)
  else do
    let _ ← getValFp cfg (some r.fileId) cfg.minValueSize
    let db ← Exec.get
    Exec.lift (cfg.val.readValue r.valSize (valBytes db.io r.fileId r.offset
      (if 0 < r.valSize then r.valSize else r.rowSize)))

/-- Where this database keeps the records of its own group `key`. -/
def ownGroup (key : Key) : PyVal := .jdb false ("<own>:".toList ++ key)

/-- The group database a GROUP row stands for; it is attached on first touch. -/
def rowGroup (key : Key) (r : Core) : DbM PyVal := do
  let db ← Exec.get
  match db.io.groups.get? key with
  | some (some g) => pure g
  | _ =>
    let g ← if r.rowSize = 0 then pure (ownGroup key)
      else do
        let path ← rowValue cfg r
        match path with
        | .str p => pure (PyVal.jdb false p)
        | _ => Exec.raise .type
    modifyIo fun io => { io with groups := io.groups.set key (some g) }
    pure g

/-- Anything raised inside becomes a `JTypeError`. -/
def asTypeError {α : Type} (x : DbM α) : DbM α := fun db =>
  match x db with
  | (.error _, db') => (.error .type, db')
  | r => r

/-- `f_decode_value` of a row that is not followed as a link. -/
def decodeHere (key : Key) (r : Core) (updateCache : Bool) : DbM PyVal := do
  if has r.flags LINK || has r.flags NO_CACHE then cachePop key
  let noCache := has r.flags LINK || has r.flags NO_CACHE
  let withCache : Bool := !noCache && cfg.cacheLimit != 0
  let update := updateCache && !noCache
  let db ← Exec.get
  match if withCache then db.cache.get? key else none with
  | some v =>
    if update then cacheTouch key
    pure v
  | none => asTypeError do
    if has r.flags GROUP then rowGroup cfg key r
    else
      let v ← rowValue cfg r
      if update && withCache then JDb.updateCache cfg key v r.flags
      pure v

def SEP_SYM : Key := [':', ':', ':']

/-- Cut a path at its first separator. -/
def splitPath (seen : Key) : Key → Option (Key × Key)
  | [] => none
  | c :: cs => if SEP_SYM.isPrefixOf (c :: cs) then some (seen.reverse, cs.drop 2)
    else splitPath (c :: seen) cs

/-- One component of a link's target path. -/
inductive LinkStep where
  | value (name : Key) (row : Row)
  | group (g : PyVal)
  | descend (g : PyVal)

/-- `f_get_group`. -/
def fGetGroup (key : Key) : DbM (Option PyVal) := do
  let db ← Exec.get
  match db.io.groups.get? key with
  | some (some g) => pure (some g)
  | _ =>
    match db.io.keyTable.get? key with
    | some (row, _) =>
      if row < db.io.cnt.nRecords then do
        let info ← onIo (JIo.readKey row)
        if info.key = key ∧ has info.flags GROUP then
          let g ← decodeHere cfg key info.toCore false
          pure (if g.isJDb then some g else none)
        else pure none
      else pure none
    | none => pure none

/-- `f_link_step`. -/
def fLinkStep (target : PyVal) : DbM LinkStep :=
  match target with
  | .str target => do
    let name := match splitPath [] target with
      | some (name, _) => name
      | none => target
    let db ← Exec.get
    match db.io.keyTable.get? name with
    | none => Exec.raise .key
    | some (row, _) =>
      if db.io.cnt.nRecords ≤ row then Exec.raise .key
      else do
        let info ← onIo (JIo.readKey row)
        if has info.flags LINK then Exec.raise .type
        else if has info.flags GROUP then
          match ← fGetGroup cfg name with
          | none => Exec.raise .type
          | some g => pure (if (splitPath [] target).isNone then .group g else .descend g)
        else if (splitPath [] target).isSome then Exec.raise .type
        else pure (.value name info)
  | _ => Exec.raise .type

/-- `f_link_read`: a dangling link reads as `None`. -/
def fLinkRead (env : Env) (target : PyVal) : DbM PyVal := fun db =>
  match fLinkStep cfg target db with
  | (.error .key, db') => (.ok .none, db')
  | (.error e, db') => (.error e, db')
  | (.ok (.group g), db') => (.ok g, db')
  | (.ok (.descend _), db') => (env.childRead, db')
  | (.ok (.value name row), db') => decodeHere cfg name row.toCore true db'

/-- `f_decode_value`. -/
def decodeValue (env : Env) (key : Key) (r : Core) (updateCache followLink : Bool) : DbM PyVal :=
  if has r.flags LINK && followLink then do
    let target ← rowValue cfg r
    fLinkRead cfg env target
  else decodeHere cfg key r updateCache

/-! ## Reading -/

/-- The lifetime of a row has run out. Whole days are told from the day of the last
`update_days`, minutes from the live clock. -/
def isExpired (now live : ℕ) (r : Row) : Bool :=
  r.ttl.pos && (if MIN_OF_DAY ≤ r.ttl.len then
      r.mdays + r.ttl.len < now / MIN_OF_DAY * MIN_OF_DAY
    else r.mdays + r.ttl.len < live)

/-- `f_read`; `none` is the caller's default value. -/
def fRead (env : Env) (key : Key) (row : Option ℕ) (keyFlags : FlagArg) : DbM (Option PyVal) := do
  let noFollow := has (popTransientFlags keyFlags).1 NO_FOLLOW
  let db ← Exec.get
  let entry := db.io.keyTable.get? key
  let kflags := match entry with
    | some (_, f) => f
    | none => 0
  let hit := match db.cache.get? key with
    | some v =>
      if !has kflags EXPIRE && !noFollow && (row.isNone || entry.map Prod.fst == row) then some v
      else none
    | none => none
  match hit with
  | some v =>
    cacheTouch key
    pure (some v)
  | none =>
    match row.orElse fun _ => entry.map Prod.fst with
    | none => pure none
    | some r =>
      if db.io.cnt.nRecords ≤ r then
        modifyIo fun io => io.tablePop key
        pure none
      else
        let info ← onIo (JIo.readKey r)
        if info.ttl.subDay then let _ ← liveNow env
        let db ← Exec.get
        if isExpired db.io.now env.minute info then
          Exec.modify fun db => { db with
            expired := db.expired ++ [(r, info.key)]
            cache := db.cache.pop key }
          pure none
        else
          let follow := !(noFollow && has info.flags LINK)
          let v ← decodeValue cfg env info.key info.toCore follow follow
          pure (some v)

end JDb

end OmniJsonDb
