import Mathlib.Data.Char
import Mathlib.Data.List.Lex
import Mathlib.Data.List.Sort
import OmniJsonDb.Model.Write

/-!
# A database handle: deleting, undoing, renaming

`f_delete`, `f_undelete`, `f_unwrite`, `f_rename`, `set_date`, `set_link`, the
single-key `unmodify` and `revert`, and what opening and closing a write session do.
-/

namespace OmniJsonDb

namespace JDb

variable (cfg : Config)

/-- What `f_delete` returns: the `LOCKED` sentinel, or the value when it was asked for. -/
inductive Deleted where
  | locked
  | gone (val : Option PyVal)

/-- `f_delete`. -/
def fDelete (env : Env) (key : Key) (readValue : Bool) (row : Option ℕ) (flags : Option ℕ)
    (keyFlags : FlagArg) : DbM Deleted := do
  cachePop key
  let db ← Exec.get
  let row ← match row, key with
    | some r, [] => pure r
    | _, _ =>
      match db.io.keyTable.get? key with
      | some (r, _) => pure r
      | none => Exec.raise .key
  let (transient, _) := popTransientFlags keyFlags
  let old ← onIo (JIo.readKey row)
  if has old.flags DELETE_LOCK_MASK && !has transient UNLOCK then pure .locked
  else if key ≠ [] ∧ old.key ≠ key then Exec.raise .key
  else
    let key := old.key
    let db ← Exec.get
    let isGroup := db.io.groups.contains key || has old.flags GROUP
    let val ← if readValue || isGroup then do
        let v ← decodeValue cfg env key old.toCore false false
        pure (some v)
      else pure none
    removeRow key row old (flags.getD cfg.flags)
    pure (.gone val)
where
  /-- Take the row out of the live region: the last live row fills its place, the
  deleted version goes to the head of the safe region, or to its tail when the key has a
  protected version already. -/
  removeRow (key : Key) (row : ℕ) (old : Row) (flags : ℕ) : DbM Unit := do
    let db ← Exec.get
    let n := db.io.cnt.nRecords
    let deadH := min (max db.safeLine n) db.io.cnt.nLines
    let recT := n - 1
    modifyIo fun io => { io with
      groups := io.groups.pop key
      cnt := { io.cnt with nRecords := recT } }
    let moved ← if row < recT then do
        modifyIo fun io => io.tablePop key
        let r ← onIo (JIo.copyKey recT row)
        pure (some r)
      else pure none
    let tail : Bool := decide (deadH - 1 ≠ recT) && has flags REVERT && decide (key ∈ db.chgKeys)
    if tail then let _ ← onIo (JIo.copyKey (deadH - 1) recT)
    let _ ← onIo (JIo.writeKey cfg (if tail then deadH - 1 else recT) (parked key old))
    modifyIo fun io => { io with cnt := { io.cnt with
      swapId := if moved.isSome then bump db.io.cnt.swapId else db.io.cnt.swapId
      syncId := bump io.cnt.syncId
      remvId := bump io.cnt.remvId } }
    match moved with
    | some r => modifyIo fun io => io.tableSet r.key row r.flags
    | none => pure ()
    modifyIo fun io => io.tablePop key

/-- The first row from `start` up to `stop` that holds `key`. -/
def findRow (io : JIo) (key : Key) (start stop : ℕ) : Option (ℕ × Row) :=
  (io.keyIter start stop).find? fun e => e.2.key = key

/-- The parked row an undo is about: the one it was given, or the first one. -/
def undoRow (key : Key) (row : Option ℕ) : DbM (Option (ℕ × Row)) := do
  match row with
  | some r =>
    let info ← onIo (JIo.readKey r)
    pure (if info.key = key then some (r, info) else none)
  | none =>
    let db ← Exec.get
    pure (findRow db.io key db.io.cnt.nRecords db.io.prev.nLines)

/-- The group bookkeeping of an undo; whether the restored row is a group's. -/
def undoGroup (key : Key) (r : Core) : DbM Bool :=
  if r.fileId = 0x10 ∧ r.rowSize = 0 then do
    modifyIo fun io => { io with groups := io.groups.set key (some (ownGroup key)) }
    pure true
  else do
    modifyIo fun io => { io with groups := io.groups.pop key }
    pure false

/-- What an undo returns: the row, the file, the offset and the sizes. -/
abbrev Restored := ℕ × ℕ × ℕ × ℕ × ℕ

/-- `f_undelete`. -/
def fUndelete (key : Key) (row : Option ℕ) (flags : Option ℕ) : DbM (Option Restored) := do
  if key = [] then pure none
  else
    cachePop key
    let db ← Exec.get
    if db.io.keyTable.contains key then pure none
    else
      match ← undoRow key row with
      | none => pure none
      | some (d, info) =>
        let flags := flags.getD cfg.flags
        let db ← Exec.get
        let n := db.io.cnt.nRecords
        let h := if has flags REVERT then min (max db.safeLine n) db.io.cnt.nLines else n
        if h ≤ d then
          Exec.modify fun db => if has flags REVERT then
              { db with chgKeys := insert key db.chgKeys, safeLine := h + 1 }
            else { db with safeLine := n }
          if h < d then let _ ← onIo (JIo.copyKey h d)
          if n < h then let _ ← onIo (JIo.copyKey n h)
        else
          Exec.modify fun db => { db with chgKeys := db.chgKeys.erase key }
          if n < d then let _ ← onIo (JIo.copyKey n d)
        cachePop key
        let isGroup ← undoGroup key info.toCore
        let kf := (info.flags &&& USER_FLAG_MASK) ||| (if isGroup then GROUP else 0)
        let _ ← onIo (JIo.writeKey cfg n { info.args with key := key, ver := none, flags := kf })
        modifyIo fun io => { io with cnt := { io.cnt with
          nRecords := io.cnt.nRecords + 1
          syncId := bump io.cnt.syncId } }
        modifyIo fun io => io.tableSet key n kf
        pure (some (n, info.fileId, info.offset, info.rowSize, info.valSize))

/-- `f_unwrite`. -/
def fUnwrite (key : Key) (row : Option ℕ) : DbM (Option Restored) := do
  if key = [] then pure none
  else
    cachePop key
    let db ← Exec.get
    if !db.io.keyTable.contains key then pure none
    else if row.any fun r => r < db.io.cnt.nRecords then pure none
    else
      match ← undoRow key row with
      | none => pure none
      | some (d, info) =>
        let db ← Exec.get
        match db.io.keyTable.get? key with
        | none => pure none
        | some (r, _) =>
          if db.io.cnt.nRecords ≤ r then pure none
          else
            let old ← onIo (JIo.readKey r)
            if old.key ≠ key ∨ has old.flags WRITE_LOCK_MASK then pure none
            else
              let isGroup ← undoGroup key info.toCore
              let kf := (clear (old.flags &&& USER_FLAG_MASK) PAYLOAD_FLAG_MASK |||
                (info.flags &&& PAYLOAD_FLAG_MASK)) ||| (if isGroup then GROUP else 0)
              let _ ← onIo (JIo.writeKey cfg d (parked key old))
              let _ ← onIo (JIo.writeKey cfg r
                { info.args with key := key, ver := none, flags := kf })
              modifyIo fun io => io.tableSet key r
                (if info.ttl.pos then kf ||| EXPIRE else clear kf EXPIRE)
              bumpSync
              Exec.modify fun db => { db with chgKeys := db.chgKeys.erase key }
              pure (some (r, info.fileId, info.offset, info.rowSize, info.valSize))

/-- `f_rename`. -/
def fRename (key newKey : Key) : DbM Bool := do
  if key = newKey then pure false
  else
    cachePop key
    let db ← Exec.get
    if db.io.keyTable.contains newKey then Exec.raise .key
    else
      match db.io.keyTable.get? key with
      | none => Exec.raise .key
      | some (row, _) =>
        let old ← onIo (JIo.readKey row)
        let size ← onIo (JIo.writeKey cfg row { old.args with key := newKey, ver := none })
        if 0 < size then
          modifyIo fun io => { io with cnt := { io.cnt with
            syncId := bump io.cnt.syncId
            swapId := bump io.cnt.swapId } }
          modifyIo fun io => (io.tablePop key).tableSet newKey row old.flags
          pure true
        else pure false

/-- `set_date`: `none` leaves a date or the lifetime as it is. -/
def setDate (key : Key) (cdate mdate : Option ℕ) (ttl : Option TtlArg) : DbM Bool := do
  if cdate.isNone ∧ mdate.isNone ∧ ttl.isNone then pure false
  else
    let db ← Exec.get
    match db.io.keyTable.get? key with
    | none => pure false
    | some (row, _) =>
      if db.io.cnt.nRecords ≤ row then pure false
      else
        let old ← onIo (JIo.readKey row)
        let cdays := cdate.getD old.cdays
        let mdays := mdate.getD old.mdays
        if mdays < cdays * MIN_OF_DAY then Exec.raise .value
        else
          -- a negative lifetime is stored as none at all, and counts as a change
          let newTtl : Option Ttl := match ttl with
            | none => some old.ttl
            | some t => t.toTtl
          if cdays ≠ old.cdays ∨ mdays ≠ old.mdays ∨ newTtl.map Ttl.len ≠ some old.ttl.len then
            let t := newTtl.getD (.days 0)
            let _ ← onIo (JIo.writeKey cfg row { old.args with
              key := key, ver := none, cdays := some cdays, mdays := some mdays, ttl := t })
            modifyIo fun io => io.tableSet key row
              (if t.pos then old.flags ||| EXPIRE else clear old.flags EXPIRE)
            bumpSync
            pure true
          else pure false

/-- `set_link` of a key and a target of this database. -/
def setLink (env : Env) (key target : Key) : DbM Bool := do
  if key = target then Exec.raise .key
  else
    match ← fLinkStep cfg (.str target) with
    | .descend _ => Exec.lift env.childStep
    | _ => pure ()
    let db ← Exec.get
    let (oldFlags, same) ← match db.io.keyTable.get? key with
      | some (row, _) =>
        if row < db.io.cnt.nRecords then do
          let old ← onIo (JIo.readKey row)
          if has old.flags GROUP then Exec.raise .type
          else if has old.flags WRITE_LOCK_MASK then pure (old.flags, true)
          else if has old.flags LINK then do
            let v ← rowValue cfg old.toCore
            pure (old.flags, v.pyEq (.str target))
          else pure (old.flags, false)
        else pure (0, false)
      | none => pure (0, false)
    if same then pure false
    else
      if has oldFlags LINK then let _ ← fDelete cfg env key false none none .none
      cachePop key
      let ok ← fWrite cfg env key (.str target)
        { overwrite := true, keyFlags := .int (oldFlags &&& WRITABLE_FLAG_MASK) }
      if !ok then pure false
      else
        let db ← Exec.get
        match db.io.keyTable.get? key with
        | none => Exec.raise .value
        | some (row, _) =>
          let old ← onIo (JIo.readKey row)
          let kf := (old.flags &&& WRITABLE_FLAG_MASK) ||| LINK
          let _ ← onIo (JIo.writeKey cfg row { old.args with key := key, flags := kf })
          modifyIo fun io => io.tableSet key row
            (if old.ttl.pos then kf ||| EXPIRE else clear kf EXPIRE)
          bumpSync
          cachePop key
          pure true

/-! ## `unmodify`, `revert` -/

/-- Read the rows from `r` on, `m` of them, until one holds `key` (and has the version
asked for). -/
def seekRow (key : Key) (version : Option ℕ) : ℕ → ℕ → DbM (Option ℕ)
  | _, 0 => pure none
  | r, m + 1 => do
    let info ← onIo (JIo.readKey r)
    if info.key = key ∧ version.all (· = info.ver) then pure (some r)
    else seekRow key version (r + 1) m

/-- `unmodify` of one key. -/
def unmodify (key : Key) (version : Option ℕ) : DbM (Option Restored) := do
  let db ← Exec.get
  let n := db.io.cnt.nRecords
  if n = db.io.cnt.nLines ∨ db.io.keyTable.contains key = false then pure none
  else
    match ← seekRow key version n (db.io.cnt.nLines - n) with
    | some r => fUnwrite cfg key (some r)
    | none => pure none

/-- `revert` of one key: undelete it when it is gone, else unwrite it. -/
def revert (key : Key) (version : Option ℕ) : DbM (Option Restored) := do
  let db ← Exec.get
  let n := db.io.cnt.nRecords
  if n = db.io.cnt.nLines then pure none
  else
    match ← seekRow key version n (db.io.cnt.nLines - n) with
    | some r =>
      if db.io.keyTable.contains key then fUnwrite cfg key (some r)
      else fUndelete cfg key (some r) none
    | none => pure none

/-! ## Sessions -/

/-- Opening a write session. -/
def openSession (env : Env) : DbM Unit :=
  Exec.modify fun db => { db with
    io := { db.io with now := env.minute }
    safeLine := db.io.cnt.nRecords
    chgKeys := ∅
    fpDict := []
    expired := [] }

/-- The order in which queued records are dropped: from the last row down. -/
def expiredLe (a b : ℕ × Key) : Bool := b.1 < a.1 || (b.1 = a.1 && decide (b.2 ≤ a.2))

/-- Delete the queued records that are still there. -/
def dropQueued (env : Env) : List (ℕ × Key) → DbM Unit
  | [] => pure ()
  | (_, key) :: rest => do
    let db ← Exec.get
    match db.io.keyTable.get? key with
    | none => dropQueued env rest
    | some (row, _) => do
      skipMissing (fDelete cfg env key false (some row) none (.int UNLOCK))
      dropQueued env rest
where
  /-- A record that is gone is passed over. -/
  skipMissing (x : DbM Deleted) : DbM Unit := fun db =>
    match x db with
    | (.error .key, db') => (.ok (), db')
    | (.error e, db') => (.error e, db')
    | (.ok _, db') => (.ok (), db')

/-- Closing a write session: expired records go, and the header is written when there is
news. -/
def closeSession (env : Env) : DbM Unit := do
  let db ← Exec.get
  dropQueued cfg env (db.expired.insertionSort (fun a b => expiredLe a b))
  let db ← Exec.get
  if db.io.cnt.syncId ≠ db.io.prev.syncId then
    Exec.modify fun db => { db with
      io := db.io.clearRows
      cache := if db.io.cnt.remvId ≠ db.io.prev.remvId then
          db.cache.restrict fun k => db.io.keyTable.contains k
        else db.cache }
    onIo JIo.writeHeader
  Exec.modify fun db => { db with chgKeys := ∅, fpDict := [], expired := [] }

end JDb

end OmniJsonDb
