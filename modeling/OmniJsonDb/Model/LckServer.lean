import Mathlib.Data.Int.Notation
import OmniJsonDb.Lib.OrdDict
import OmniJsonDb.Model.LckFile

/-!
# The locks of a server

`ServerHandler.handle` for the commands of the file `LCK`: a thread for each connection, with
its own copies of the backends it was asked for and how often it locked each.

* `Server.request`: one request.
* `Server.step`: what one thread does next, the turns of its `finally` one by one.
-/

namespace OmniJsonDb

/-- Slash-separated group names; `''` is the root. -/
abbrev GroupPath := List Char

/-- A connection's own copy of a backend, known to its lock bytes by its object id. -/
structure Copy where
  backend : ℕ
  id : ℕ
  deriving DecidableEq, Repr

inductive LckCmd where
  | rlock (block : Bool)
  | wlock (block : Bool)
  | unlock
  deriving DecidableEq, Repr

/-- `JErrCode`, as far as these commands go. -/
inductive JErrCode where
  | okay
  | blockIo
  | notFound
  | invalidId
  deriving DecidableEq, Repr

/-- Where the thread of a connection stands. -/
inductive Phase where
  | absent
  | serving
  /-- In `cond.wait()` of a call with `block`. -/
  | waiting (path : GroupPath) (write : Bool)
  /-- An exception leaves the loop. -/
  | raised
  /-- In the `finally`, with what is left of `locker_table`. -/
  | closing (rest : List (GroupPath × ℤ))
  | ended
  deriving DecidableEq

structure Conn where
  phase : Phase := .absent
  groupTable : GroupPath → Option Copy := fun _ => none
  lockerTable : OrdDict GroupPath ℤ := OrdDict.empty

/-- The lock bytes of every backend, and the connections. -/
structure Server where
  store : ℕ → LckFile := fun _ => {}
  conn : ℕ → Conn := fun _ => {}

/-- What happens at a step. A copy comes with a request that names a group for the first time,
unless `get_group_files` fails. -/
inductive ServerEv where
  | connect (c : ℕ) (root : Copy)
  | request (c : ℕ) (path : GroupPath) (cmd : LckCmd) (copy : Option Copy)
  | wake (c : ℕ)
  | hangup (c : ℕ)
  | teardown (c : ℕ)
  deriving DecidableEq

namespace Conn

/-- `locker_table.get(group_path, 0)`. -/
def locker (k : Conn) (path : GroupPath) : ℤ := (k.lockerTable.get? path).getD 0

/-- `locker_table[group_path] = locker_table.get(group_path, 0) + d`. -/
def count (k : Conn) (path : GroupPath) (d : ℤ) : Conn :=
  { k with lockerTable := k.lockerTable.set path (k.locker path + d) }

def goto (k : Conn) (phase : Phase) : Conn := { k with phase := phase }

@[simp] theorem goto_phase (k : Conn) (phase : Phase) : (k.goto phase).phase = phase := rfl

@[simp] theorem goto_groupTable (k : Conn) (phase : Phase) : (k.goto phase).groupTable = k.groupTable := rfl

end Conn

namespace Server

def setConn (s : Server) (c : ℕ) (k : Conn) : Server := { s with conn := Function.update s.conn c k }

def setStore (s : Server) (b : ℕ) (f : LckFile) : Server := { s with store := Function.update s.store b f }

@[simp] theorem setConn_self (s : Server) (c : ℕ) (k : Conn) : (s.setConn c k).conn c = k := by
  simp [setConn]

@[simp] theorem setConn_setConn (s : Server) (c : ℕ) (k k' : Conn) :
    (s.setConn c k).setConn c k' = s.setConn c k' := by
  simp [setConn]

/-- One pass of `LCK_rlock` or `LCK_wlock` of a copy. -/
def tryLock (s : Server) (cp : Copy) (write : Bool) : Except LckErr LckFile :=
  if write then (s.store cp.backend).wlock cp.id else (s.store cp.backend).rlock cp.id

/-- The commands `rlock` and `wlock`, up to where the thread waits. -/
def lock (c : ℕ) (path : GroupPath) (cp : Copy) (write block : Bool) (s : Server) :
    Option JErrCode × Server :=
  match s.tryLock cp write with
  | .ok f =>
    (some .okay, (s.setStore cp.backend f).setConn c (((s.conn c).count path 1).goto .serving))
  | .error .blocking =>
    if block then (none, s.setConn c ((s.conn c).goto (.waiting path write)))
    else (some .blockIo, s.setConn c ((s.conn c).goto .serving))
  | .error .closed => (some .notFound, s.setConn c ((s.conn c).goto .serving))
  -- `OverflowError` is not caught
  | .error .overflow => (none, s.setConn c ((s.conn c).goto .raised))

/-- `LCK_unlock` of a copy. -/
def unlock (s : Server) (cp : Copy) : Server :=
  s.setStore cp.backend ((s.store cp.backend).unlock cp.id)

theorem unlock_setConn (s : Server) (c : ℕ) (k : Conn) (cp : Copy) :
    (s.setConn c k).unlock cp = (s.unlock cp).setConn c k := rfl

/-- The copy a request is about. -/
def copyOf (s : Server) (c : ℕ) (path : GroupPath) (copy : Option Copy) : Option Copy :=
  match (s.conn c).groupTable path with
  | some cp => some cp
  | none => copy

/-- One request to the file `LCK`. -/
def request (c : ℕ) (path : GroupPath) (cmd : LckCmd) (copy : Option Copy) (s : Server) :
    Option JErrCode × Server :=
  match s.copyOf c path copy with
  | none => (some .invalidId, s)
  | some cp =>
    let s := s.setConn c
      { s.conn c with groupTable := Function.update (s.conn c).groupTable path (some cp) }
    match cmd with
    | .rlock block => lock c path cp false block s
    | .wlock block => lock c path cp true block s
    | .unlock => (some .okay, (s.unlock cp).setConn c ((s.conn c).count path (-1)))

/-- One turn of the loops over `locker_table` in the `finally`. -/
def teardown (c : ℕ) (rest : List (GroupPath × ℤ)) (s : Server) : Server :=
  match rest with
  | [] => s.setConn c ((s.conn c).goto .ended)
  | (path, n) :: rest =>
    match (s.conn c).groupTable path with
    | none => s.setConn c ((s.conn c).goto (.closing rest))
    | some cp =>
      if 0 < n then (s.unlock cp).setConn c ((s.conn c).goto (.closing ((path, n - 1) :: rest)))
      else s.setConn c ((s.conn c).goto (.closing rest))

/-- **One step of the thread of a connection**, and its response. -/
def step (s : Server) : ServerEv → Option (Option JErrCode × Server)
  | .connect c root =>
    if (s.conn c).phase = .absent then
      some (none, s.setConn c
        { phase := .serving, groupTable := fun path => if path = [] then some root else none })
    else none
  | .request c path cmd copy =>
    if (s.conn c).phase = .serving then some (request c path cmd copy s) else none
  | .wake c =>
    match (s.conn c).phase with
    | .waiting path write => ((s.conn c).groupTable path).map fun cp => lock c path cp write true s
    | _ => none
  | .hangup c =>
    if (s.conn c).phase = .serving ∨ (s.conn c).phase = .raised then
      some (none, s.setConn c ((s.conn c).goto (.closing (s.conn c).lockerTable.entries)))
    else none
  | .teardown c =>
    match (s.conn c).phase with
    | .closing rest => some (none, teardown c rest s)
    | _ => none

end Server

end OmniJsonDb
