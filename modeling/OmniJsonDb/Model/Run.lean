import OmniJsonDb.Lib.Machine
import OmniJsonDb.Model.Undo

/-!
# Calls, runs, and a concrete configuration

The calls of one handle, the runs they make up, and the JSON row codec as a
configuration that runs on examples.
-/

namespace OmniJsonDb

/-- A call on a handle whose write session is open, or the start or end of one. -/
inductive Call where
  | opened
  | closed
  | write (key : Key) (val : PyVal) (a : JDb.WriteArgs)
  | append (key : Key) (val : PyVal) (ttl : TtlArg) (keyFlags : FlagArg)
  | delete (key : Key) (readValue : Bool) (row flags : Option ℕ) (keyFlags : FlagArg)
  | undelete (key : Key) (row flags : Option ℕ)
  | unwrite (key : Key) (row : Option ℕ)
  | rename (key newKey : Key)
  | writeKeyFlags (key : Key) (newFlags : FlagArg) (ttl : Option TtlArg) (mdays : Option ℕ)
  | setDate (key : Key) (cdate mdate : Option ℕ) (ttl : Option TtlArg)
  | setLink (key target : Key)
  | unmodify (key : Key) (version : Option ℕ)
  | revert (key : Key) (version : Option ℕ)
  | read (key : Key) (row : Option ℕ) (keyFlags : FlagArg)

/-- What a call returns. -/
inductive Ret where
  | unit
  | bool (b : Bool)
  | deleted (d : JDb.Deleted)
  | restored (r : Option JDb.Restored)
  | value (v : Option PyVal)

/-- Run a call. -/
def Call.exec (cfg : Config) (env : Env) : Call → DbM Ret
  | .opened => (fun _ => Ret.unit) <$> JDb.openSession env
  | .closed => (fun _ => Ret.unit) <$> JDb.closeSession cfg env
  | .write key val a => Ret.bool <$> JDb.fWrite cfg env key val a
  | .append key val ttl kf => Ret.bool <$> JDb.fAppend cfg env key val ttl kf
  | .delete key rv row flags kf => Ret.deleted <$> JDb.fDelete cfg env key rv row flags kf
  | .undelete key row flags => Ret.restored <$> JDb.fUndelete cfg key row flags
  | .unwrite key row => Ret.restored <$> JDb.fUnwrite cfg key row
  | .rename key newKey => Ret.bool <$> JDb.fRename cfg key newKey
  | .writeKeyFlags key fl ttl md => Ret.bool <$> JDb.fWriteKeyFlags cfg key fl ttl md
  | .setDate key cd md ttl => Ret.bool <$> JDb.setDate cfg key cd md ttl
  | .setLink key target => Ret.bool <$> JDb.setLink cfg env key target
  | .unmodify key ver => Ret.restored <$> JDb.unmodify cfg key ver
  | .revert key ver => Ret.restored <$> JDb.revert cfg key ver
  | .read key row kf => Ret.value <$> JDb.fRead cfg env key row kf

/-- A call with what it is given from outside. -/
abbrev Label := Env × Call

/-- A call that returns. -/
def Step (cfg : Config) (db : JDb) (l : Label) (db' : JDb) : Prop :=
  ∃ ret, (l.2.exec cfg l.1).run db = (.ok ret, db')

/-- Run calls one after the other, as long as they return. -/
def runCalls (cfg : Config) : List Label → JDb → Option JDb
  | [], db => some db
  | l :: ls, db =>
    match (l.2.exec cfg l.1).run db with
    | (.ok _, db') => runCalls cfg ls db'
    | (.error _, _) => none

theorem runs_of_runCalls {cfg : Config} {db' : JDb} : ∀ {ls : List Label} {db : JDb},
    runCalls cfg ls db = some db' → Runs (Step cfg) db ls db'
  | [], _, h => by cases h; exact .refl
  | l :: ls, db, h => by
    rw [runCalls] at h
    split at h
    · rename_i ret db₁ hrun
      exact .head ⟨ret, hrun⟩ (runs_of_runCalls h)
    · cases h

/-- A run that can be computed, with what can be computed of its end. -/
theorem exists_runs (cfg : Config) (db : JDb) (ls : List Label) {P : JDb → Bool}
    (h : (runCalls cfg ls db).any P = true) : ∃ db', Runs (Step cfg) db ls db' ∧ P db' = true := by
  obtain ⟨db', hrun, hP⟩ := (Option.any_eq_true P _).1 h
  exact ⟨db', runs_of_runCalls hrun, hP⟩

/-- A database nothing was written to. -/
def JDb.init (cfg : Config) : JDb where
  io :=
    { indexSize := cfg.initIndexSize
      fileSize := HEADER_SIZE
      files :=
        { header := ⟨{}, cfg.initIndexSize, -1⟩
          rows := fun _ => JIo.emptyRec
          keySize := HEADER_SIZE
          vals := fun _ => none } }

/-! ## The JSON row codec -/

/-- How many characters a number takes; `fuel + 1` are enough for it. -/
def decWidth : ℕ → ℕ → ℕ
  | 0, _ => 1
  | fuel + 1, n => if n < 10 then 1 else decWidth fuel (n / 10) + 1

/-- How many bytes a character takes in a JSON string. -/
def jsonCharWidth (c : Char) : ℕ :=
  if c = '"' ∨ c = '\\' then 2
  else if c.toNat = 8 ∨ c.toNat = 9 ∨ c.toNat = 10 ∨ c.toNat = 12 ∨ c.toNat = 13 then 2
  else if c.toNat < 32 then 6
  else c.utf8Size

/-- The numbers of a stored row. -/
def KeyRec.nums (k : KeyRec) : List ℕ :=
  [k.fileId, k.offset, k.rowSize, k.valSize, k.ver, k.days, k.flags]

/-- How many bytes a row takes as a JSON array. -/
def KeyRec.jsonWidth (k : KeyRec) : ℕ :=
  4 + (k.key.map jsonCharWidth).sum + (k.nums.map fun n => decWidth 19 n + 1).sum

/-- `KEY_dumps` of the JSON codec: the encoder takes numbers below `2 ^ 64` only. -/
def jsonKeyDumps (r : Row) : Except Err (KeyRec × ℕ) :=
  match packRow r with
  | .error e => .error e
  | .ok k => if k.nums.all (· < 2 ^ 64) then .ok (k, k.jsonWidth) else .error .value

theorem jsonKeyDumps_pack (r : Row) (k : KeyRec) (n : ℕ) (h : jsonKeyDumps r = .ok (k, n)) :
    packRow r = .ok k := by
  unfold jsonKeyDumps at h
  split at h
  · cases h
  · split at h <;> cases h
    assumption

theorem jsonKeyDumps_error (r : Row) : jsonKeyDumps r ≠ .error .key := by
  unfold jsonKeyDumps
  intro h
  split at h
  · rename_i e he
    cases h
    cases packRow_error he
  · split at h <;> cases h

/-- JSON text of a plain string, as bytes. -/
def jsonStr (s : List Char) : Bytes :=
  34 :: (s.map fun c => UInt8.ofNat c.toNat) ++ [34]

/-- A VAL codec for plain strings: their JSON text, uncompressed. -/
def strVal : ValCodec where
  dumps
    | .str s => .ok (jsonStr s)
    | _ => .error .type
  dumps_ne v b h := by
    split at h <;> cases h
    simp [jsonStr]
  loads b := .ok (.str ((b.drop 1).dropLast.map fun x => Char.ofNat x.toNat))
  noZip := true
  gz := false
  zip _ b := b
  zip_ne _ _ h := h
  unzip b := .ok b
  unzipPad b := .ok b
  padByte := 10
  pad0Byte := 10

/-- JSON rows of 128 bytes, plain values, the default limits. -/
def jsonCfg : Config where
  keyDumps := jsonKeyDumps
  keyDumps_pack := jsonKeyDumps_pack
  keyDumps_error := jsonKeyDumps_error
  val := strVal
  writeHook _ _ := true
  isGroup _ _ := false
  flags := 0
  cacheLimit := 0
  minSafe := 0
  maxWsize := 0
  minValueSize := 32
  reserve n := n
  le_reserve _ := le_refl _
  wideIndex := 128
  maxFileSize := 2 ^ 30
  keyRowWindow := 65536
  initIndexSize := 128

end OmniJsonDb
