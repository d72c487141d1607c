import OmniJsonDb.Model.JDb

/-!
# A database handle: writing

`f_write`, `f_append`, and what they share: taking a dead row or a new one, giving
the new value its space, and parking the version it displaces.

* `getDeadRow`: `_get_dead_row`, the only place a row is taken back.
* `takeSpace`: a row and an extent for an encoded value.
* `park`, `add`: the row copies of an update and of an insertion.
* `fWriteKeyFlags`, `fWrite`, `fAppend`.
-/

namespace OmniJsonDb

namespace JDb

variable (cfg : Config)

def bumpSync : DbM Unit :=
  modifyIo fun io => { io with cnt := { io.cnt with syncId := bump io.cnt.syncId } }

/-! ## Dead rows -/

/-- What a dead row of `have_` bytes keeps when it is split for `req` bytes; `none` when
the rest would be too small. -/
def splitSize (req have_ : ℕ) : Option ℕ :=
  let size := max cfg.minValueSize (cfg.reserve req)
  if size + max 64 cfg.minValueSize ≤ have_ then some size else none

/-- Cut the end off a dead row; it goes to row `ext`, or to a new one. -/
def splitDead (row : ℕ) (p : Place) (req : ℕ) (ext : Option ℕ) : DbM Place :=
  match splitSize cfg req p.2.2 with
  | none => pure p
  | some size => do
    let db ← Exec.get
    let rest : KeyArgs :=
      { key := [], fileId := p.1, offset := p.2.1 + size, rowSize := p.2.2 - size, ver := some 0 }
    match ext with
    | some ext => let _ ← onIo (JIo.writeKey cfg ext rest)
    | none =>
      modifyIo fun io => { io with cnt := { io.cnt with nLines := io.cnt.nLines + 1 } }
      let _ ← onIo (JIo.writeKey cfg db.io.cnt.nLines rest)
    let _ ← onIo (JIo.writeKey cfg row
      { key := [], fileId := p.1, offset := p.2.1, rowSize := size, ver := some 0 })
    pure (p.1, p.2.1, size)

/-- Look through a window of dead rows, last row first; `ext` is an empty one met on the
way. -/
def scanDead (req : ℕ) (ext : Option ℕ) : List (ℕ × Row) → Option (ℕ × Place × Option ℕ)
  | [] => none
  | (row, info) :: rest =>
    if req = 0 then
      if info.rowSize = 0 then some (row, JIo.place info.toSlot, ext) else scanDead req ext rest
    else if req ≤ info.rowSize then some (row, JIo.place info.toSlot, ext)
    else if info.rowSize = 0 then scanDead req (some row) rest
    else scanDead req ext rest

/-- `_get_dead_row`: the head of the dead region, and a row of it to reuse, with its
extent. -/
def getDeadRow (env : Env) (key : Key) (req flags : ℕ) (maxWsize : Option ℕ) :
    DbM (ℕ × Option (ℕ × Place)) := do
  let db ← Exec.get
  let n := db.io.cnt.nRecords
  let lines := db.io.cnt.nLines
  let h := if has flags REVERT then min (max db.safeLine (n + cfg.minSafe)) lines else n
  if has flags REVERT ∧ key ∉ db.chgKeys then
    Exec.modify fun db => { db with chgKeys := insert key db.chgKeys, safeLine := h + 1 }
  if lines ≤ h then pure (h, none)
  else
    match ← onIo (JIo.getDeadRow h req) with
    | some (row, p) =>
      if h ≤ row ∧ row < lines then
        let p ← if 0 < req ∧ has flags SPLIT then splitDead cfg row p req none else pure p
        pure (h, some (row, p))
      else scan h lines
    | none => scan h lines
where
  scan (h lines : ℕ) : DbM (ℕ × Option (ℕ × Place)) := do
    let maxWsize := maxWsize.getD cfg.maxWsize
    if maxWsize = 0 then pure (h, none)
    else
      let db ← Exec.get
      let window := min maxWsize (db.io.windowSize cfg)
      let start := h + env.rand % ((lines - h) / window + 1) * window
      match scanDead req none (db.io.keyIter start (min lines (start + window))).reverse with
      | none => pure (h, none)
      | some (row, p, ext) => do
        let p ← if 0 < req ∧ has flags SPLIT then splitDead cfg row p req ext else pure p
        pure (h, some (row, p))

/-! ## Space for a value -/

/-- Where an encoded value is to be recorded: the head of the dead region, the row to
use up, and the fields of the new row. -/
structure Space where
  head : ℕ
  dead : ℕ
  fileId : ℕ
  offset : ℕ
  rowSize : ℕ
  valSize : ℕ
  deriving DecidableEq, Repr

/-- `pad(data, max_size=0)`. -/
def padSize (n : ℕ) : ℕ := max n (max cfg.minValueSize (cfg.reserve n))

/-- A new line at the end of the index. -/
def newLine : DbM ℕ := do
  let db ← Exec.get
  modifyIo fun io => { io with cnt := { io.cnt with nLines := io.cnt.nLines + 1 } }
  pure db.io.cnt.nLines

/-- A row for an encoded value, and its space in a VAL file when it needs one; the value
is written there. -/
def takeSpace (env : Env) (key : Key) (enc : Enc) (flags : ℕ) (maxWsize : Option ℕ) :
    DbM Space :=
  match enc with
  | .head typeId typeVal typeSize => do
    let (h, dead) ← getDeadRow cfg env key 0 flags maxWsize
    let d ← match dead with
      | some (row, _) => pure row
      | none => newLine
    pure ⟨h, d, typeId, typeVal, 0, typeSize⟩
  | .value data => do
    let (h, dead) ← getDeadRow cfg env key data.length flags maxWsize
    match dead with
    | some (row, fileId, offset, rowSize) =>
      let _ ← getValFp cfg (some fileId) cfg.minValueSize
      writeVal fileId offset data
      pure ⟨h, row, fileId, offset, rowSize, data.length⟩
    | none =>
      let d ← newLine
      let size := padSize cfg data.length
      let (fileId, offset) ← getValFp cfg none size
      writeVal fileId offset (data ++ List.replicate (size - data.length) cfg.val.padByte)
      pure ⟨h, d, fileId, offset, size, data.length⟩

/-- After an extent was recorded its file is in use up to its end. -/
def noteExtent (enc : Enc) (sp : Space) : DbM Unit :=
  match enc with
  | .head _ _ _ => pure ()
  | .value _ => modifyIo fun io => io.fileGrow sp.fileId (sp.offset + sp.rowSize)

/-- The arguments that park the version `old` of a record: its dates and lifetime, the
session counter as its version, the flags but for the group bit. -/
def parked (key : Key) (old : Row) : KeyArgs where
  key := key
  fileId := old.fileId
  offset := old.offset
  rowSize := old.rowSize
  valSize := old.valSize
  cdays := some old.cdays
  mdays := some old.mdays
  ttl := old.ttl
  flags := old.flags &&& USER_FLAG_MASK

/-- What `f_write` records beside the value. -/
structure Meta where
  cdays : Option ℕ
  mdays : Option ℕ
  ttl : Ttl
  flags : ℕ
  deriving DecidableEq, Repr

def Space.args (sp : Space) (key : Key) (m : Meta) : KeyArgs where
  key := key
  fileId := sp.fileId
  offset := sp.offset
  rowSize := sp.rowSize
  valSize := sp.valSize
  cdays := m.cdays
  mdays := m.mdays
  ttl := m.ttl
  flags := m.flags

/-- Record a new value of the live row `row`, and park the old one at the head of the
dead region; what was there moves to the row used up. -/
def park (env : Env) (key : Key) (row : ℕ) (old : Row) (enc : Enc) (m : Meta) (flags : ℕ)
    (maxWsize : Option ℕ) : DbM Unit := do
  let sp ← takeSpace cfg env key enc flags maxWsize
  if sp.head < sp.dead then let _ ← onIo (JIo.copyKey sp.head sp.dead)
  let _ ← onIo (JIo.writeKey cfg sp.head (parked key old))
  let _ ← onIo (JIo.writeKey cfg row (sp.args key m))
  noteExtent enc sp
  bumpSync

/-- Record a new key: the head of the safe region makes room and moves to the head of
the dead region, what was there moves to the row used up. -/
def add (env : Env) (key : Key) (val : PyVal) (enc : Enc) (m : Meta) (flags : ℕ)
    (maxWsize : Option ℕ) : DbM Unit := do
  let sp ← takeSpace cfg env key enc flags maxWsize
  let db ← Exec.get
  let n := db.io.cnt.nRecords
  if sp.head < sp.dead then let _ ← onIo (JIo.copyKey sp.head sp.dead)
  if n < sp.head then let _ ← onIo (JIo.copyKey n sp.head)
  let _ ← onIo (JIo.writeKey cfg n (sp.args key m))
  noteExtent enc sp
  if cfg.cacheLimit ≠ 0 then updateCache cfg key val m.flags
  Exec.modify fun db => { db with
    safeLine := db.safeLine + (if has flags REVERT then 0 else 1)
    io := { db.io with cnt := { db.io.cnt with
      nRecords := db.io.cnt.nRecords + 1
      syncId := bump db.io.cnt.syncId } } }
  modifyIo fun io => io.tableSet key n m.flags

/-! ## Flags -/

/-- A lifetime handed on as an argument. -/
def ttlArg : Ttl → TtlArg
  | .days n => .int n
  | .mins m => .span (m * 60000000)

/-- The lifetime a caller gives, or the one the row has. -/
def givenTtl (ttl : Option TtlArg) (old : Row) : Ttl :=
  match ttl with
  | none => old.ttl
  | some t => t.toTtl.getD (.days 0)

/-- The flags a row ends up with when those a caller gives are recorded: what the value is
and whether it expires is not for the caller to say. -/
def keptFlags (newFlags : FlagArg) (old : Row) (ttl : Ttl) : ℕ :=
  ((newFlags.apply old.flags &&& WRITABLE_FLAG_MASK) ||| (old.flags &&& DERIVED_FLAG_MASK)) |||
    (if ttl.pos then EXPIRE else 0)

/-- `f_write_key_flags`. -/
def fWriteKeyFlags (key : Key) (newFlags : FlagArg) (ttl : Option TtlArg) (mdays : Option ℕ) :
    DbM Bool := do
  let db ← Exec.get
  match db.io.keyTable.get? key with
  | none => pure false
  | some (row, _) =>
    if db.io.cnt.nRecords ≤ row then pure false
    else
      let old ← onIo (JIo.readKey row)
      let newTtl := givenTtl ttl old
      let newMdays := mdays.getD old.mdays
      let kf := keptFlags newFlags old newTtl
      if old.key = key ∧ (old.flags ≠ kf ∨ newTtl.len ≠ old.ttl.len ∨ newMdays ≠ old.mdays) then
        let _ ← onIo (JIo.writeKey cfg row
          { old.args with key := key, mdays := some newMdays, ttl := newTtl, flags := kf })
        bumpSync
        if has kf NO_CACHE then cachePop key
        modifyIo fun io => io.tableSet key row kf
        pure true
      else pure false

/-! ## `f_write` -/

/-- The arguments of `f_write` beside key and value. Dates left out are `none`; `mdays`
counts minutes. -/
structure WriteArgs where
  cdays : Option ℕ := none
  mdays : Option ℕ := none
  ttl : TtlArg := .int (-1)
  flags : Option ℕ := none
  maxWsize : Option ℕ := none
  overwrite : Bool := false
  keyFlags : FlagArg := .none
  deriving DecidableEq, Repr

/-- A creation day given as `from~to` carries the modification day above it. -/
def splitDates (cdays mdays : Option ℕ) : Option ℕ × Option ℕ :=
  match cdays with
  | none => (none, mdays)
  | some c =>
    let delta := (c >>> NEW_DAY_SHIFT) &&& MAX_DAY_DELTA
    if delta = 0 then (some c, mdays)
    else (some (c &&& OLD_DAY_MASK),
      some (mdays.getD (((c &&& OLD_DAY_MASK) + delta) * MIN_OF_DAY)))

/-- Attach a group database; the value that is stored for it. -/
def setGroup (key : Key) (val : PyVal) : DbM Unit :=
  if val.isJDb then modifyIo fun io => { io with groups := io.groups.set key (some val) }
  else pure ()

/-- The gzip header's time differs from one run to the next. -/
def patchGz (stored data : Bytes) : Bytes := stored.take 4 ++ (data.drop 4).take 4 ++ stored.drop 8

/-- The byte comparison of a stored value with a new one of the same size. -/
def sameBytes (stored data : Bytes) : Bool :=
  stored = data || (cfg.val.gz && 16 ≤ data.length && decide (patchGz stored data = data))

/-- The value is stored already: only metadata may have changed. -/
def writeSame (key : Key) (val : PyVal) (old : Row) (m : Meta) (mdays : ℕ) : DbM Bool := do
  if cfg.cacheLimit ≠ 0 then updateCache cfg key val m.flags
  if m.flags ≠ old.flags ∨ m.ttl.len ≠ old.ttl.len ∨ (m.ttl.pos ∧ mdays ≠ old.mdays) then
    fWriteKeyFlags cfg key (.int m.flags) (some (ttlArg m.ttl)) (some mdays)
  else pure false

/-- Write the new value over the old one's row. -/
def writeInPlace (key : Key) (row : ℕ) (sp : Space) (m : Meta) : DbM Unit := do
  let _ ← onIo (JIo.writeKey cfg row (sp.args key m))
  bumpSync

/-- The part of `f_write` that stores a value over an existing one. -/
def writeOver (env : Env) (key : Key) (val : PyVal) (row : ℕ) (old : Row) (enc : Enc) (m : Meta)
    (mdays flags : ℕ) (maxWsize : Option ℕ) (checked : Bool) : DbM Bool := do
  let db ← Exec.get
  let inPlace : Bool := !(has flags REVERT && !has m.flags NO_REVERT) || decide (key ∈ db.chgKeys)
  if old.rowSize = 0 then
    match enc with
    | .head typeId typeVal typeSize =>
      if !checked && decide (typeId = old.fileId ∧ typeVal = old.offset ∧ typeSize = old.valSize) then
        writeSame cfg key val old m mdays
      else
        if inPlace then writeInPlace cfg key row ⟨0, 0, typeId, typeVal, 0, typeSize⟩ m
        else park cfg env key row old enc m flags maxWsize
        stored
    | .value _ =>
      park cfg env key row old enc m flags maxWsize
      stored
  else
    match enc with
    | .head _ _ _ =>
      park cfg env key row old enc m flags maxWsize
      stored
    | .value data =>
      let same ← if data.length ≤ old.rowSize ∧ old.valSize = data.length ∧ checked = false then do
          let _ ← getValFp cfg (some old.fileId) cfg.minValueSize
          let db ← Exec.get
          pure (sameBytes cfg (valBytes db.io old.fileId old.offset data.length) data)
        else pure false
      if same then writeSame cfg key val old m mdays
      else
        if data.length ≤ old.rowSize ∧ inPlace = true then
          let _ ← getValFp cfg (some old.fileId) cfg.minValueSize
          writeVal old.fileId old.offset data
          writeInPlace cfg key row ⟨0, 0, old.fileId, old.offset, old.rowSize, data.length⟩ m
        else park cfg env key row old enc m flags maxWsize
        stored
where
  stored : DbM Bool := do
    if cfg.cacheLimit ≠ 0 then updateCache cfg key val m.flags
    pure true

/-- The modification time `f_write` gives an existing record. -/
def newMdays (env : Env) (mdays : Option ℕ) (transient : ℕ) (old : Row) (ttl : Ttl) : DbM ℕ :=
  match mdays with
  | some d => pure d
  | none =>
    if has transient NO_ATIME then pure old.mdays
    else if ttl.subDay then liveNow env
    else do
      let db ← Exec.get
      pure (db.io.days * MIN_OF_DAY)

/-- The flags `f_write` gives an existing record. -/
def newFlags (keyFlags : FlagArg) (transient : ℕ) (old : Row) (ttl : Ttl) (val : PyVal) : ℕ :=
  ((keyFlags.apply old.flags &&& WRITABLE_FLAG_MASK) ||| (if ttl.pos then EXPIRE else 0) |||
    (if has transient NO_FOLLOW then old.flags &&& PAYLOAD_FLAG_MASK else 0)) |||
    (if val.isJDb then GROUP else 0)

/-- `f_write` of a key that exists, once its row has been read and may be changed. -/
def writeRow (env : Env) (key : Key) (val : PyVal) (a : WriteArgs) (transient : ℕ)
    (keyFlags : FlagArg) (row : ℕ) (old : Row) (flags : ℕ) (checked : Bool) : DbM Bool := do
  let ttl := a.ttl.toTtl.getD old.ttl
  let mdays ← newMdays env a.mdays transient old ttl
  let kf := newFlags keyFlags transient old ttl val
  setGroup key val
  if kf ≠ old.flags then modifyIo fun io => io.tableSet key row kf
  let db ← Exec.get
  let enc ← Exec.lift (encodeRow cfg.val (db.io.wide cfg) cfg.isGroup env.ts key val)
  writeOver cfg env key val row old enc ⟨some (a.cdays.getD old.cdays), some mdays, ttl, kf⟩ mdays
    flags a.maxWsize checked

/-- `f_write` of a key that exists: refusals, the cache, links, growth. `onLink` writes
through a link. -/
def writeExisting (onLink : PyVal → DbM Bool) (env : Env) (key : Key) (val : PyVal) (a : WriteArgs)
    (transient : ℕ) (keyFlags : FlagArg) (row kflags flags : ℕ) : DbM Bool := do
  let locked f := has f READ_ONLY && !has transient UNLOCK
  if has transient EXCL || locked kflags then pure false
  else
    let db ← Exec.get
    match if !a.overwrite && cfg.cacheLimit != 0 then db.cache.get? key else none with
    | some v =>
      if v.pyEq val then
        cacheTouch key
        pure false
      else look true
    | none => look a.overwrite
where
  look (checked : Bool) : DbM Bool := do
    let old ← onIo (JIo.readKey row)
    if has old.flags LINK && !has transient NO_FOLLOW then
      let target ← rowValue cfg old.toCore
      onLink target
    else if has old.flags LINK && !isStr val then Exec.raise .type
    else
      let ok ← if has old.flags APPEND_ONLY && !has transient UNLOCK then do
          let v ← decodeValue cfg env key old.toCore false true
          pure (v.isValueExtension val)
        else pure true
      if ok then writeRow cfg env key val a transient keyFlags row old flags checked
      else pure false
  isStr : PyVal → Bool
    | .str _ => true
    | _ => false

/-- `f_write` of a key that does not exist. -/
def writeNew (env : Env) (key : Key) (val : PyVal) (a : WriteArgs) (transient : ℕ)
    (keyFlags : FlagArg) (flags : ℕ) : DbM Bool := do
  if has transient MUST_EXIST then pure false
  else
    let ttl := a.ttl.toTtl.getD (.days 0)
    let kf := ((keyFlags.apply 0 &&& WRITABLE_FLAG_MASK) ||| (if ttl.pos then EXPIRE else 0)) |||
      (if val.isJDb then GROUP else 0)
    setGroup key val
    let db ← Exec.get
    let enc ← Exec.lift (encodeRow cfg.val (db.io.wide cfg) cfg.isGroup env.ts key val)
    add cfg env key val enc ⟨a.cdays, a.mdays, ttl, kf⟩ flags a.maxWsize
    pure true

/-- `f_write`, up to links. -/
def fWriteWith (onLink : Key → PyVal → WriteArgs → PyVal → DbM Bool) (env : Env) (key : Key)
    (val : PyVal) (a : WriteArgs) : DbM Bool := do
  let val := match val with
    | .bytearray b => .bytes b
    | v => v
  if !val.isJDb && !cfg.writeHook key val then Exec.raise .type
  else if MAX_KEY_SIZE < key.length then Exec.raise .key
  else
    let (cdays, mdays) := splitDates a.cdays a.mdays
    let (transient, keyFlags) := popTransientFlags a.keyFlags
    let flags := a.flags.getD cfg.flags
    let a' := { a with cdays := cdays, mdays := mdays, flags := some flags }
    let db ← Exec.get
    match db.io.keyTable.get? key with
    | some (row, kflags) =>
      writeExisting cfg (onLink key val { a' with keyFlags := keyFlags }) env key val a' transient
        keyFlags row kflags flags
    | none => writeNew cfg env key val a' transient keyFlags flags

/-- `f_link_write`: the leaf of a link's path is never a link itself. -/
def fLinkWrite (env : Env) (_key : Key) (val : PyVal) (a : WriteArgs) (target : PyVal) : DbM Bool :=
  if val.isJDb then pure false
  else do
    match ← fLinkStep cfg target with
    | .group _ => pure false
    | .descend _ => Exec.lift env.childWrite
    | .value name _ => fWriteWith cfg (fun _ _ _ _ => Exec.raise .hang) env name val a

/-- `f_write`. -/
def fWrite (env : Env) (key : Key) (val : PyVal) (a : WriteArgs) : DbM Bool :=
  fWriteWith cfg (fLinkWrite cfg env) env key val a

/-! ## `f_append` -/

/-- `f_append` of a new key: a new line, no search for a dead one. -/
def appendNew (env : Env) (key : Key) (val : PyVal) (ttl : TtlArg) (keyFlags : FlagArg) : DbM Bool := do
  let db ← Exec.get
  let lines := db.io.cnt.nLines
  let n := db.io.cnt.nRecords
  let safe := min (max db.safeLine n) lines
  modifyIo fun io => { io with cnt := { io.cnt with nLines := lines + 1 } }
  if safe < lines then let _ ← onIo (JIo.copyKey safe lines)
  if n < safe then let _ ← onIo (JIo.copyKey n safe)
  let enc ← Exec.lift (encodeRow cfg.val (db.io.wide cfg) cfg.isGroup env.ts key val)
  let ttl := ttl.toTtl.getD (.days 0)
  let kf := ((keyFlags.apply 0 &&& WRITABLE_FLAG_MASK) ||| (if ttl.pos then EXPIRE else 0)) |||
    (if val.isJDb then GROUP else 0)
  setGroup key val
  let sp ← match enc with
    | .head typeId typeVal typeSize => pure (⟨0, 0, typeId, typeVal, 0, typeSize⟩ : Space)
    | .value data => do
      let size := padSize cfg data.length
      let (fileId, offset) ← getValFp cfg none size
      writeVal fileId offset (data ++ List.replicate (size - data.length) cfg.val.padByte)
      pure ⟨0, 0, fileId, offset, size, data.length⟩
  let _ ← onIo (JIo.writeKey cfg n (sp.args key ⟨none, none, ttl, kf⟩))
  noteExtent enc sp
  Exec.modify fun db => { db with
    safeLine := db.safeLine + 1
    io := { db.io with cnt := { db.io.cnt with
      nRecords := db.io.cnt.nRecords + 1
      syncId := bump db.io.cnt.syncId } } }
  modifyIo fun io => io.tableSet key n kf
  pure true

/-- `f_append`. -/
def fAppend (env : Env) (key : Key) (val : PyVal) (ttl : TtlArg) (keyFlags : FlagArg) :
    DbM Bool := do
  if !val.isJDb && !cfg.writeHook key val then Exec.raise .type
  else if MAX_KEY_SIZE < key.length then Exec.raise .key
  else
    let db ← Exec.get
    match db.io.keyTable.get? key with
    | some (_, kflags) => do
      let (transient, keyFlags) := popTransientFlags keyFlags
      if has transient EXCL || (has kflags READ_ONLY && !has transient UNLOCK) then pure false
      else
        fWrite cfg env key val (WriteArgs.mk none none ttl (some 0) (some 0) true keyFlags)
    | none => appendNew cfg env key val ttl keyFlags

end JDb

end OmniJsonDb
