import OmniJsonDb.Lib.Exec
import OmniJsonDb.Lib.OrdDict
import OmniJsonDb.Model.Framing
import OmniJsonDb.Model.KeyCodec

/-!
# The requests of a connection

`ServerHandler.handle` for every command: a loop that receives a packet, checks it, calls a
backend and sends what came out.

The backends, the file objects and what the threads of the server share are taken as given: the
handler knows them by what its calls were answered so far. Its own tables are modelled.

* `request`: what is replied to a packet, if anything.
* `step`, `run`: a turn of the loop, and the loop over what comes in.
-/

namespace OmniJsonDb

namespace ServerHandler

/-! ## What is called -/

/-- What a call raises, as far as the `except` clauses tell: `other` is an `Exception` of another
kind, `exit` none at all. -/
inductive CallErr where
  | key
  | type
  | value
  | runtime
  | io
  | blockingIo
  | fileNotFound
  | other
  | exit
  deriving DecidableEq, Repr

/-- `JErrCode`. -/
inductive ErrCode where
  | okay
  | invalidFmt
  | invalidId
  | invalidCmd
  | invalidArgs
  | failOpen
  | invalidVal
  | failCall
  | notFound
  | blockIo
  deriving DecidableEq, Repr

def ErrCode.code : ErrCode → ℤ
  | .okay => 0x00
  | .invalidFmt => 0x01
  | .invalidId => 0x02
  | .invalidCmd => 0x04
  | .invalidArgs => 0x08
  | .failOpen => 0x10
  | .invalidVal => 0x100
  | .failCall => 0x200
  | .notFound => 0x1000
  | .blockIo => 0x2000

inductive Method where
  | addGroup | copy
  | LCK_remove | LCK_rlock | LCK_wlock | LCK_unlock | LCK_close
  | KEY_open | KEY_size | KEY_date | fsync
  | getFolder | getName | getKEY | getPath | isGroup | linkGroup | unlinkGroup
  | VAL_open | VAL_remove | VAL_exist | VAL_size
  | closed | close | flush | seek | tell | read | write | truncate
  | readall | readinto | readline | readlines | writelines | fileno
  | JMemFiles | JDiskFiles | JNetFiles
  /-- `server.group_files[..] = ..` and `server.group_files.pop(..)`. -/
  | setGroupFiles | popGroupFiles
  deriving DecidableEq, Repr

/-- A call of a method; of a constructor, on `none`. -/
structure Call where
  on : MsgVal
  method : Method
  args : List MsgVal := []
  kwargs : List (MsgVal × MsgVal) := []

/-- The calls so far, each with what it returned or raised. -/
abbrev Calls := List (Call × Except CallErr MsgVal)

abbrev Text := List CodePoint

def text (s : String) : Text := s.toList.map toPoint

/-- What is not the handler's own; a file object or a backend is an `obj`. -/
structure Backend where
  answer : Calls → Call → Except CallErr MsgVal
  /-- `server.jdb`, and the `files_obj` of a database. -/
  jdb : MsgVal
  filesObj : MsgVal → MsgVal
  isReader : MsgVal → Bool
  isMem : MsgVal → Bool
  isDisk : MsgVal → Bool
  /-- `cur_jdb.io.groups.get(part)`. -/
  ioGroup : Calls → MsgVal → Text → Option MsgVal
  /-- `server.group_files`. -/
  groupFiles : Calls → List (MsgVal × MsgVal)
  str : MsgVal → Text
  /-- `str(type(..))`. -/
  typeStr : MsgVal → Text
  /-- `int(..)` of a text; nothing for `ValueError`. -/
  intText : Text → Option ℤ
  int : MsgVal → Except CallErr ℤ
  /-- `\w`. -/
  isWord : CodePoint → Bool

/-! ## Values -/

def isText (s : Text) : MsgVal → Bool
  | .str t => s = t
  | _ => false

/-- The value is not false as a condition. -/
def truthy : MsgVal → Bool
  | .none => false
  | .bool b => b
  | .int i => i ≠ 0
  | .float bits => bits.toNat % 2 ^ 63 ≠ 0
  | .str s => s ≠ []
  | .bytes b | .bytearray b | .memoryview b => b ≠ []
  | .list xs | .tuple xs | .set xs | .frozenset xs => xs.length ≠ 0
  | .dict kvs => kvs.length ≠ 0
  | .obj _ => true

def isNone : MsgVal → Bool
  | .none => true
  | _ => false

/-- `kwargs.get(..)`. -/
def getArg (kwargs : List (MsgVal × MsgVal)) (name : String) : Option MsgVal :=
  (kwargs.find? fun kv => isText (text name) kv.1).map Prod.snd

/-- `*args, **kwargs` at a call: `TypeError` unless the one is iterable and the other has names. -/
def spread (args : MsgVal) (kwargs : List (MsgVal × MsgVal)) : Except CallErr (List MsgVal) :=
  match args.members with
  | .error _ => .error .type
  | .ok xs => if kwargs.all (fun kv => match kv.1 with | .str _ => true | _ => false) then .ok xs else .error .type

/-- `v[i]`. -/
def item (v : MsgVal) (i : ℕ) : Except CallErr MsgVal :=
  match v with
  | .list _ | .tuple _ | .str _ | .bytes _ | .bytearray _ | .memoryview _ =>
    match v.members with
    | .ok xs => (xs[i]?).elim (.error .other) .ok
    | .error _ => .error .type
  | .dict kvs => ((kvs.find? fun kv => MsgVal.keyEq kv.1 (.int i)).map Prod.snd).elim (.error .key) .ok
  | _ => .error .type

/-- `s.partition('@')` without the separator. -/
def partition (s : Text) : Text × Text :=
  (s.takeWhile (· ≠ toPoint '@'), (s.dropWhile (· ≠ toPoint '@')).drop 1)

/-- `re.match(r'^\w+$', part)`; `$` matches in front of a last newline. -/
def isName (b : Backend) (part : Text) : Bool :=
  let word := if part.getLast? = some (toPoint '\n') then part.dropLast else part
  word ≠ [] && word.all b.isWord

/-! ## The connection -/

/-- The `resp` that is sent. -/
structure Reply where
  ok : Bool
  cmd : Text
  ret : MsgVal
  err : ErrCode

def Reply.toVal (r : Reply) : MsgVal :=
  .dict [(.str (text "ok"), .bool r.ok), (.str (text "cmd"), .str r.cmd), (.str (text "ret"), r.ret),
    (.str (text "err"), .int r.err.code)]

/-- The tables of a connection, the calls it made and the replies it sent. -/
structure Handler where
  groupTable : OrdDict Text MsgVal := OrdDict.empty
  fpTable : OrdDict Text MsgVal := OrdDict.empty
  lockerTable : OrdDict Text ℤ := OrdDict.empty
  calls : Calls := []
  sent : List Reply := []

abbrev HandlerM := Exec Handler CallErr

/-- What a command leaves in `resp`. -/
structure Resp where
  ok : Bool
  ret : MsgVal
  err : ErrCode

def okay (ret : MsgVal) : Resp := ⟨true, ret, .okay⟩

def fail (err : ErrCode) : Resp := ⟨false, .none, err⟩

namespace Handler

def log (s : Handler) (c : Call) (r : Except CallErr MsgVal) : Handler := { s with calls := s.calls ++ [(c, r)] }

def setFp (s : Handler) (file : Text) (fp : MsgVal) : Handler := { s with fpTable := s.fpTable.set file fp }

def popFp (s : Handler) (file : Text) : Handler := { s with fpTable := s.fpTable.pop file }

def setGroup (s : Handler) (path : Text) (files : MsgVal) : Handler :=
  { s with groupTable := s.groupTable.set path files }

def setLocker (s : Handler) (path : Text) (n : ℤ) : Handler := { s with lockerTable := s.lockerTable.set path n }

def locker (s : Handler) (path : Text) : ℤ := (s.lockerTable.get? path).getD 0

/-- `fp_table.get(file, None)`. -/
def fp (s : Handler) (file : Text) : MsgVal := (s.fpTable.get? file).getD .none

end Handler

variable (b : Backend)

def call (c : Call) : HandlerM MsgVal := fun s =>
  (b.answer s.calls c, s.log c (b.answer s.calls c))

/-- `f(*args, **kwargs)`, behind the arguments `pre`. -/
def callWith (on : MsgVal) (method : Method) (args : MsgVal) (kwargs : List (MsgVal × MsgVal))
    (pre : List MsgVal := []) : HandlerM MsgVal := do
  let xs ← Exec.lift (spread args kwargs)
  call b ⟨on, method, pre ++ xs, kwargs⟩

/-- `try` with an `except` that gives up with a code, for what `catches` names. -/
def attempt {α β : Type} (catches : CallErr → Option β) (x : HandlerM α) (k : α → HandlerM β) : HandlerM β := fun s =>
  match x s with
  | (.ok a, s') => k a s'
  | (.error e, s') =>
    match catches e with
    | some r => (.ok r, s')
    | none => (.error e, s')

def kwarg (kwargs : List (MsgVal × MsgVal)) (name : String) : HandlerM MsgVal :=
  Exec.lift ((getArg kwargs name).elim (.error .key) .ok)

/-! ## The `except` clauses -/

/-- `except (KeyError, TypeError, ValueError, RuntimeError, IOError)`. -/
def groupErr {α : Type} (r : α) : CallErr → Option α
  | .key | .type | .value | .runtime | .io | .blockingIo | .fileNotFound => some r
  | _ => none

/-- `except (RuntimeError, IOError, FileNotFoundError)`. -/
def removeErr : CallErr → Option Resp
  | .runtime | .io | .blockingIo | .fileNotFound => some (fail .notFound)
  | _ => none

/-- `except BlockingIOError`, then `except (RuntimeError, IOError, FileNotFoundError)`. -/
def lockErr : CallErr → Option Resp
  | .blockingIo => some (fail .blockIo)
  | .runtime | .io | .fileNotFound => some (fail .notFound)
  | _ => none

/-- `except FileNotFoundError`. -/
def openErr : CallErr → Option Resp
  | .fileNotFound => some (fail .notFound)
  | _ => none

/-- `except Exception`. -/
def streamErr : CallErr → Option Resp
  | .exit => none
  | _ => some (fail .failCall)

/-! ## Groups -/

/-- `server.group_files[path] = files`; `TypeError` for a path that cannot be hashed. -/
def setGroupFiles (path files : MsgVal) : HandlerM Unit := do
  if path.hashable then Exec.modify fun s => s.log ⟨.none, .setGroupFiles, [path, files], []⟩ (.ok .none)
  else Exec.raise .type

def popGroupFiles (path : MsgVal) : HandlerM Unit :=
  Exec.modify fun s => s.log ⟨.none, .popGroupFiles, [path], []⟩ (.ok .none)

/-- `server.group_files.get(path, None)`. -/
def groupFile (path : MsgVal) : HandlerM MsgVal := fun s =>
  (.ok ((((b.groupFiles s.calls).find? fun kv => MsgVal.keyEq kv.1 path).map Prod.snd).getD .none), s)

/-- The loop of `get_group_files`: the path so far, the database while there is one, the backend. -/
def groupParts (path : Text) (curJdb : Option MsgVal) (filesObj : MsgVal) : List Text → HandlerM MsgVal
  | [] => pure filesObj
  | part :: parts => do
    if isName b part then
      let path := if path = [] then part else path ++ toPoint '/' :: part
      let s ← Exec.get
      match (curJdb.filter b.isReader).bind fun jdb => b.ioGroup s.calls jdb part with
      | some subJdb =>
        setGroupFiles (.str path) (b.filesObj subJdb)
        groupParts path (some subJdb) (b.filesObj subJdb) parts
      | none =>
        let obj ← groupFile b (.str path)
        let obj ← if isNone obj then call b ⟨filesObj, .addGroup, [.str part], []⟩ else pure obj
        setGroupFiles (.str path) obj
        groupParts path none obj parts
    else Exec.raise .key

/-- `get_group_files`. -/
def getGroupFiles (groupPath : Text) : HandlerM MsgVal :=
  if groupPath = [] then pure (b.filesObj b.jdb)
  else groupParts b [] (some b.jdb) (b.filesObj b.jdb) (groupPath.splitOn (toPoint '/'))

/-- `f'{group_path}/{name}' if group_path else name`. -/
def fullPath (groupPath : Text) (name : MsgVal) : MsgVal :=
  if groupPath = [] then name else .str (groupPath ++ toPoint '/' :: b.str name)

def addGroup (files : MsgVal) (groupPath : Text) (kwargs : List (MsgVal × MsgVal)) : HandlerM Resp := do
  let name ← kwarg kwargs "name"
  let kind := (getArg kwargs "kind").getD .none
  let target ← call b ⟨files, .addGroup, [name], []⟩
  let target ←
    if isText (text "mem") kind && !b.isMem target then do
      let mem ← call b ⟨.none, .JMemFiles, [], [(.str (text "name"), name)]⟩
      call b ⟨files, .linkGroup, [name, mem], []⟩
    else if isText (text "disk") kind && !b.isDisk target then do
      let KEY ← kwarg kwargs "KEY"
      let disk ← call b ⟨.none, .JDiskFiles, [KEY], []⟩
      call b ⟨files, .linkGroup, [name, disk], []⟩
    else pure target
  setGroupFiles (fullPath b groupPath name) target
  okay <$> call b ⟨target, .getKEY, [], []⟩

/-- What `link_group` links: a server's backend, or one at a path. -/
def linkTarget (name : MsgVal) (kwargs : List (MsgVal × MsgVal)) : HandlerM MsgVal := do
  let addr := (getArg kwargs "addr").getD .none
  if isNone addr then
    match ← kwarg kwargs "KEY" with
    | .str KEY =>
      if (text "<MEM").isPrefixOf KEY then call b ⟨.none, .JMemFiles, [], [(.str (text "name"), name)]⟩
      else call b ⟨.none, .JDiskFiles, [.str KEY], []⟩
    | .bytes _ | .bytearray _ => Exec.raise .type
    | _ => Exec.raise .other
  else
    let host ← Exec.lift (item addr 0)
    let port ← Exec.lift (item addr 1 >>= b.int)
    let path ← Exec.lift (spread ((getArg kwargs "group_path").getD (.tuple [])) [])
    call b ⟨.none, .JNetFiles, [.tuple [.str (b.str host), .int port]], [(.str (text "group_path"), .tuple path)]⟩

def linkGroup (files : MsgVal) (groupPath : Text) (kwargs : List (MsgVal × MsgVal)) : HandlerM Resp := do
  let name ← kwarg kwargs "name"
  let target ← linkTarget b name kwargs
  let target ← call b ⟨files, .linkGroup, [name, target], []⟩
  setGroupFiles (fullPath b groupPath name) target
  okay <$> call b ⟨target, .getKEY, [], []⟩

/-- The paths of `server.group_files` that start so; `AttributeError` or `TypeError` unless all
of them are texts. -/
def startingWith (start : Text) : List MsgVal → Except CallErr (List MsgVal)
  | [] => .ok []
  | .str path :: paths => do
    let found ← startingWith start paths
    return if start.isPrefixOf path then .str path :: found else found
  | .bytes _ :: _ | .bytearray _ :: _ => .error .type
  | _ :: _ => .error .other

def popAll : List MsgVal → HandlerM Unit
  | [] => pure ()
  | path :: paths => do
    popGroupFiles path
    popAll paths

def unlinkGroup (files : MsgVal) (groupPath : Text) (kwargs : List (MsgVal × MsgVal)) : HandlerM Resp := do
  let name := (getArg kwargs "name").getD .none
  let removed ← call b ⟨files, .unlinkGroup, [name], []⟩
  if isNone name then
    let start := if groupPath = [] then [] else groupPath ++ [toPoint '/']
    let s ← Exec.get
    let paths ← Exec.lift (startingWith start ((b.groupFiles s.calls).map Prod.fst))
    popAll paths
    pure (okay (if paths.isEmpty then removed else .bool true))
  else
    let path := fullPath b groupPath name
    if path.hashable then
      let files ← groupFile b path
      popGroupFiles path
      pure (okay (if isNone files then removed else .bool true))
    else Exec.raise .type

/-! ## Commands -/

inductive Cmd where
  | remove | rlock | wlock | unlock | close
  | «open» | getFolder | getName | getKEY | getPath | isGroup | addGroup | linkGroup | unlinkGroup
  | size | date | fsync | exist
  | closed | flush | seek | tell | read | write | truncate
  | readall | readinto | readline | readlines | writelines | fileno
  /-- A text that is none of them. -/
  | unknown
  deriving DecidableEq, Repr

def Cmd.words : List (String × Cmd) :=
  [("remove", .remove), ("rlock", .rlock), ("wlock", .wlock), ("unlock", .unlock), ("close", .close),
    ("open", .open), ("get_folder", .getFolder), ("get_name", .getName), ("get_KEY", .getKEY),
    ("get_path", .getPath), ("is_group", .isGroup), ("add_group", .addGroup), ("link_group", .linkGroup),
    ("unlink_group", .unlinkGroup), ("size", .size), ("date", .date), ("fsync", .fsync), ("exist", .exist),
    ("closed", .closed), ("flush", .flush), ("seek", .seek), ("tell", .tell), ("read", .read),
    ("write", .write), ("truncate", .truncate), ("readall", .readall), ("readinto", .readinto),
    ("readline", .readline), ("readlines", .readlines), ("writelines", .writelines), ("fileno", .fileno)]

def Cmd.ofText (cmd : Text) : Cmd :=
  ((Cmd.words.find? fun w => text w.1 = cmd).map Prod.snd).getD .unknown

/-- What a file name stands for; a name that only starts with `KEY` or `LCK` is taken for a
value file, the one with number 0. -/
inductive FileKind where
  | lck
  | key
  | val (fileId : ℤ)
  deriving DecidableEq, Repr

/-- The checks of the name in front of the `@`, apart from the number. -/
def knownFile (baseFile : Text) : Bool :=
  (text "VAL.").isPrefixOf baseFile || (text "KEY").isPrefixOf baseFile || (text "LCK").isPrefixOf baseFile

/-- The kind; nothing for a `VAL.` that no number follows. -/
def fileKind (baseFile : Text) : Option FileKind :=
  if baseFile = text "LCK" then some .lck
  else if baseFile = text "KEY" then some .key
  else if (text "VAL.").isPrefixOf baseFile then
    match baseFile.splitOn (toPoint '.') with
    | [_, fileId] => (b.intText fileId).map .val
    | _ => none
  else some (.val 0)

section Commands

variable (files : MsgVal) (file groupPath : Text) (args : MsgVal) (kwargs : List (MsgVal × MsgVal))

/-- `rlock` and `wlock`. -/
def lock (method : Method) : HandlerM Resp :=
  attempt lockErr (callWith b files method args kwargs) fun ret => do
    Exec.modify fun s => s.setLocker groupPath (s.locker groupPath + 1)
    pure (okay ret)

/-- The commands to `LCK`. -/
def lckCommand : Cmd → HandlerM Resp
  | .remove =>
    attempt removeErr (call b ⟨files, .LCK_remove, [], []⟩) fun ret => do
      Exec.modify fun s => s.setLocker groupPath 0
      pure (okay ret)
  | .rlock => lock b files groupPath args kwargs .LCK_rlock
  | .wlock => lock b files groupPath args kwargs .LCK_wlock
  | .unlock =>
    attempt lockErr (call b ⟨files, .LCK_unlock, [], []⟩) fun ret => do
      Exec.modify fun s => s.setLocker groupPath (s.locker groupPath - 1)
      pure (okay ret)
  | .close => attempt lockErr (call b ⟨files, .LCK_close, [], []⟩) fun ret => pure (okay ret)
  | _ => pure (fail .invalidCmd)

/-- `open` of a file; one that is open is rewound instead. -/
def openFile (fp : MsgVal) (method : Method) (pre : List MsgVal) : HandlerM Resp :=
  if isNone fp then
    attempt openErr (callWith b files method args kwargs pre) fun fp => do
      Exec.modify fun s => s.setFp file fp
      pure (if isNone fp then fail .failOpen else okay fp)
  else do
    let _ ← call b ⟨fp, .flush, [], []⟩
    let _ ← call b ⟨fp, .seek, [.int 0], []⟩
    pure (okay .none)

/-- The commands to `KEY`; nothing where `is_done` becomes false. -/
def keyCommand (fp : MsgVal) : Cmd → HandlerM (Option Resp)
  | .open => some <$> openFile b files file args kwargs fp .KEY_open []
  | .getFolder => (some ∘ okay) <$> call b ⟨files, .getFolder, [], []⟩
  | .getName => (some ∘ okay) <$> call b ⟨files, .getName, [], []⟩
  | .getKEY => (some ∘ okay) <$> call b ⟨files, .getKEY, [], []⟩
  | .getPath => (some ∘ okay) <$> callWith b files .getPath args kwargs
  | .isGroup => (some ∘ okay) <$> callWith b files .isGroup args kwargs
  | .addGroup => some <$> addGroup b files groupPath kwargs
  | .linkGroup => some <$> linkGroup b files groupPath kwargs
  | .unlinkGroup => some <$> unlinkGroup b files groupPath kwargs
  | .size => (some ∘ okay) <$> call b ⟨files, .KEY_size, [], []⟩
  | .date => (some ∘ okay) <$> call b ⟨files, .KEY_date, [], []⟩
  | .fsync => (some ∘ okay) <$> callWith b files .fsync args kwargs
  | _ => pure none

/-- The commands to a value file. -/
def valCommand (fp : MsgVal) (fileId : ℤ) : Cmd → HandlerM (Option Resp)
  | .open => some <$> openFile b files file args kwargs fp .VAL_open [.int fileId]
  | .remove => (some ∘ okay) <$> call b ⟨files, .VAL_remove, [.int fileId], []⟩
  | .exist => (some ∘ okay) <$> call b ⟨files, .VAL_exist, [.int fileId], []⟩
  | .size => (some ∘ okay) <$> call b ⟨files, .VAL_size, [.int fileId], []⟩
  | _ => pure none

/-- The commands to an open file. -/
def streamCall (fp : MsgVal) : Cmd → HandlerM Resp
  | .close => do
    let _ ← call b ⟨fp, .close, [], []⟩
    Exec.modify fun s => s.popFp file
    pure (okay .none)
  | .flush => do
    let _ ← call b ⟨fp, .flush, [], []⟩
    pure (okay .none)
  | .seek => okay <$> callWith b fp .seek args kwargs
  | .tell => okay <$> callWith b fp .tell args kwargs
  | .read => okay <$> callWith b fp .read args kwargs
  | .write => okay <$> callWith b fp .write args kwargs
  | .truncate => okay <$> callWith b fp .truncate args kwargs
  | .readall => okay <$> callWith b fp .readall args kwargs
  | .readinto => okay <$> callWith b fp .readinto args kwargs
  | .readline => okay <$> callWith b fp .readline args kwargs
  | .readlines => okay <$> callWith b fp .readlines args kwargs
  | .writelines => okay <$> callWith b fp .writelines args kwargs
  | .fileno => okay <$> call b ⟨fp, .fileno, [], []⟩
  | _ => pure (fail .invalidCmd)

/-- Without an open file, only `close` and `flush` go well. -/
def noFile (cmd : Cmd) : Resp := if cmd = .close ∨ cmd = .flush then okay .none else fail .invalidVal

/-- What is left when `is_done` is false. -/
def streamCommand (fp : MsgVal) (cmd : Cmd) : HandlerM Resp :=
  if cmd = .closed then
    if isNone fp then pure (okay (.bool true))
    else do
      let isClosed ← call b ⟨fp, .closed, [], []⟩
      if truthy isClosed then
        Exec.modify fun s => s.popFp file
        pure (okay (.bool true))
      else pure (okay (.bool false))
  else if isNone fp then pure (noFile cmd)
  else do
    let isClosed ← call b ⟨fp, .closed, [], []⟩
    if truthy isClosed then pure (noFile cmd)
    else attempt streamErr (streamCall b file args kwargs fp cmd) pure

/-- A command, by the kind of its file. -/
def dispatch (kind : FileKind) (fp : MsgVal) (cmd : Cmd) : HandlerM Resp :=
  match kind with
  | .lck => lckCommand b files groupPath args kwargs cmd
  | .key => do
    match ← keyCommand b files file groupPath args kwargs fp cmd with
    | some resp => pure resp
    | none => streamCommand b file args kwargs fp cmd
  | .val fileId => do
    match ← valCommand b files file args kwargs fp fileId cmd with
    | some resp => pure resp
    | none => streamCommand b file args kwargs fp cmd

end Commands

/-! ## Requests -/

/-- What goes out for what a call returned: its type, unless it is a plain value. -/
def retOf (ret : MsgVal) : MsgVal :=
  match ret with
  | .memoryview _ | .frozenset _ | .obj _ => .str (b.typeStr ret)
  | _ => ret

def refuse (cmd : Text) (err : ErrCode) : Reply := ⟨false, cmd, .none, err⟩

/-- `f'{file}:{cmd}'`. -/
def cmdText (file : Text) (cmd : MsgVal) : Text :=
  file ++ toPoint ':' :: (match cmd with | .str s => s | _ => b.str cmd)

/-- The connection's copy of the backend of a group. -/
def groupBackend (groupPath : Text) : HandlerM MsgVal := do
  let s ← Exec.get
  let files := (s.groupTable.get? groupPath).getD .none
  if isNone files then do
    let shared ← getGroupFiles b groupPath
    let files ← call b ⟨shared, .copy, [], []⟩
    Exec.modify fun s => s.setGroup groupPath files
    pure files
  else pure files

/-- A packet whose file is a text. -/
def serve (file : Text) (cmd args kwargs : MsgVal) : HandlerM Reply :=
  let (baseFile, groupPath) := partition file
  if !knownFile baseFile then pure (refuse file .invalidId)
  else
    attempt (groupErr (refuse (cmdText b file cmd) .invalidId)) (groupBackend b groupPath) fun files =>
      match fileKind b baseFile with
      | none => pure (refuse file .invalidId)
      | some kind =>
        match cmd with
        | .str (c :: cs) =>
          match kwargs with
          | .dict kwargs => do
            let s ← Exec.get
            let resp ← dispatch b files file groupPath args kwargs kind (s.fp file) (Cmd.ofText (c :: cs))
            pure ⟨resp.ok, cmdText b file cmd, if resp.ok then retOf b resp.ret else resp.ret, resp.err⟩
          | _ => pure (refuse (cmdText b file cmd) .invalidArgs)
        | _ => pure (refuse (cmdText b file cmd) .invalidCmd)

/-- A packet: nothing is replied to an empty one. -/
def request (packet : MsgVal) : HandlerM (Option Reply) :=
  if !truthy packet then pure none
  else
    match packet.members with
    | .error _ => Exec.raise .type
    | .ok [file, cmd, args, kwargs] =>
      match file with
      | .str file => some <$> serve b file cmd args kwargs
      -- `partition` of bytes wants bytes; other values have none
      | .bytes _ | .bytearray _ => Exec.raise .type
      | _ => Exec.raise .other
    | .ok _ => pure (some (refuse [] .invalidFmt))

/-- `dump_and_send`. -/
def send (r : Reply) : HandlerM Unit :=
  match Sock.dumpAndSend msgDumps r.toVal with
  | .ok _ => Exec.modify fun s => { s with sent := s.sent ++ [r] }
  | .error _ => Exec.raise .other

/-- A packet and its reply. -/
def exchange (packet : MsgVal) : HandlerM Unit := do
  match ← request b packet with
  | some r => send r
  | none => pure ()

/-! ## The loop -/

/-- What receiving gives: a packet, `ValueError`, `EOFError` or `ConnectionResetError`, another
exception. -/
inductive Incoming where
  | packet (v : MsgVal)
  | invalid
  | eof
  | broken

inductive Status where
  | serving
  /-- The client has closed. -/
  | closed
  | raised (e : CallErr)
  deriving DecidableEq

/-- The `finally` for one group: an unlock for each lock that is left. -/
def unlockAll (files : MsgVal) : ℕ → HandlerM Unit
  | 0 => pure ()
  | n + 1 =>
    attempt (fun e => (removeErr e).map fun _ => ()) (call b ⟨files, .LCK_unlock, [], []⟩) fun _ => unlockAll files n

def unlockGroups : List (Text × ℤ) → HandlerM Unit
  | [] => pure ()
  | (path, n) :: rest => do
    let s ← Exec.get
    let files := (s.groupTable.get? path).getD .none
    if isNone files then unlockGroups rest
    else do
      unlockAll b files n.toNat
      unlockGroups rest

/-- The end of the loop, for the reason `e` when it is an exception. -/
def leave (e : Option CallErr) (s : Handler) : Status × Handler :=
  match unlockGroups b s.lockerTable.entries s with
  | (.ok _, s') => (e.elim .closed .raised, s')
  | (.error e', s') => (.raised e', s')

/-- One turn of the loop. -/
def step (st : Status × Handler) (i : Incoming) : Status × Handler :=
  match st with
  | (.serving, s) =>
    match i with
    | .packet v =>
      match exchange b v s with
      | (.ok _, s') => (.serving, s')
      | (.error e, s') => leave b (some e) s'
    | .invalid => (.serving, s)
    | .eof => leave b none s
    | .broken => leave b (some .other) s
  | ended => ended

def run (st : Status × Handler) (is : List Incoming) : Status × Handler := is.foldl (step b) st

/-- A connection at its start, with its copy of the root backend. -/
def start (files : MsgVal) : Status × Handler :=
  (.serving, { groupTable := OrdDict.empty.set [] files })

end ServerHandler

end OmniJsonDb
