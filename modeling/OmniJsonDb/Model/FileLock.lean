import OmniJsonDb.Lib.Machine
import OmniJsonDb.Lib.OrdDict
import OmniJsonDb.Model.LckFile

/-!
# File locks

`FileLock`: the mode, the counts of the threads and the mutex `_lock`, with what each
thread is about to do. A step of a thread goes from one call of the store, or from where
it takes the mutex, to the next.

* `FileLock.threadLevel`, `FileLock.tryStore`: the two halves of a pass of `acquire`.
* `FileLock.run`: one step of a thread.
* `LockSys`: file locks over one store, each step whole.
* `LockMoment`: the same, where the others run between a call of the store and the write of
  `_mode` that follows it.
-/

namespace OmniJsonDb

/-- `_mode`: `''`, `'r'`, `'w'`, `'p'` and `'x'`. -/
inductive LockMode where
  | free
  | r
  | w
  | p
  | x
  deriving DecidableEq, Repr

/-- The callables a `FileLock` is built over, on states `σ` of the store. A call that blocks
waits for as long as the one that does not raises `BlockingIOError`. -/
structure OsLock (σ : Type) where
  rlock : σ → Except LckErr σ
  wlock : σ → Except LckErr σ
  unlock : σ → σ

/-- The callables of one copy of an in-memory store. -/
def memLock (me : ℕ) : OsLock LckFile where
  rlock := LckFile.rlock me
  wlock := LckFile.wlock me
  unlock := LckFile.unlock me

/-- The arguments of `acquire`. -/
structure Acquire where
  block : Bool := true
  readOnly : Bool := false
  switch : Bool := false
  deriving DecidableEq, Repr

inductive LockCall where
  | acquire (a : Acquire)
  | release
  | canLock
  deriving DecidableEq, Repr

/-- Where a thread stands; `probe` is an `acquire` made by `can_lock`. -/
inductive Pc where
  | idle
  /-- At the head of the loop of `acquire`, without the mutex. -/
  | enter (a : Acquire) (probe : Bool)
  /-- In `_cond.wait()`. -/
  | waits (a : Acquire) (probe : Bool)
  /-- Before the store call that does not block, with the mutex. -/
  | tries (a : Acquire) (probe : Bool)
  /-- The mode is `'p'` and the mutex is given back. -/
  | pends (a : Acquire) (probe : Bool)
  /-- In the store call that blocks. -/
  | blocks (a : Acquire) (probe : Bool)
  /-- Back from it, without the mutex; `ok` when it returned. -/
  | back (a : Acquire) (probe : Bool) (ok : Bool)
  /-- Round the loop again without the mutex. -/
  | stray (a : Acquire) (probe : Bool)
  | release
  /-- In the `finally` of `can_lock`, which will return this or raise. -/
  | closing (res : Option Bool)
  deriving DecidableEq, Repr

/-- How a call ends. -/
inductive LockRet where
  | acquired
  /-- `FileLockException`. -/
  | refused
  /-- Any other exception. -/
  | raised
  /-- `release`; `eff` when there was something to release. -/
  | released (eff : Bool)
  | probed (ok : Bool)
  deriving DecidableEq, Repr

structure FileLock where
  mode : LockMode := .free
  idents : OrdDict ℕ ℕ := OrdDict.empty
  /-- The thread that holds `_lock` between two steps. -/
  lock : Option ℕ := none
  pc : ℕ → Pc := fun _ => .idle

namespace FileLock

variable {σ : Type} (os : OsLock σ)

/-- `get_count`. -/
def cnt (l : FileLock) (t : ℕ) : ℕ := (l.idents.get? t).getD 0

/-- `_idents[ident] += 1`. -/
def bump (l : FileLock) (t : ℕ) : FileLock := { l with idents := l.idents.set t (l.cnt t + 1) }

/-- `_cond.notify_all()`. -/
def notifyAll (l : FileLock) : FileLock :=
  { l with pc := fun u => match l.pc u with
      | .waits a probe => .enter a probe
      | pc => pc }

def goto (l : FileLock) (t : ℕ) (pc : Pc) : FileLock := { l with pc := Function.update l.pc t pc }

/-- A thread that reads and wants to write: what becomes of its count, and of the lock when
nobody else reads. -/
def stepDown (t : ℕ) (switch : Bool) (l : FileLock) (s : σ) : FileLock × σ :=
  let cnt := l.cnt t
  if cnt ≤ 1 then
    let rest := l.idents.pop t
    if rest.size = 0 then
      (if switch then { l with idents := rest, mode := .free }
        -- `continue`: the next pass finds the mode `''` and goes on to the store
        else { l.notifyAll with idents := rest.set t cnt, mode := .free },
      os.unlock s)
    else (if !switch ∧ 0 < cnt then { l with idents := rest.set t cnt } else { l with idents := rest }, s)
  else if switch then
    let rest := l.idents.set t (cnt - 1)
    if 1 < cnt ∧ rest.size = 1 then ({ l with idents := rest, mode := .free }, os.unlock s)
    else ({ l with idents := rest }, s)
  else (l, s)

/-- How the first half of a pass ends: with the lock, with `FileLockException`, in
`_cond.wait()`, or before the store. -/
inductive Level where
  | got
  | refuse
  | wait
  | store
  deriving DecidableEq, Repr

/-- The first half of a pass of `acquire`. -/
def threadLevel (t : ℕ) (a : Acquire) (l : FileLock) (s : σ) : Level × FileLock × σ :=
  if l.mode = .x then (.refuse, l, s)
  else if l.mode = .r ∧ a.readOnly ∧ l.idents.size ≠ 0 then (.got, l.bump t, s)
  else if l.mode = .w ∧ l.idents.contains t then (.got, l.bump t, s)
  else
    let next := if l.mode = .r ∧ l.idents.contains t then stepDown os t a.switch l s else (l, s)
    if next.1.mode ≠ .free then (if a.block then .wait else .refuse, next) else (.store, next)

/-- An `acquire` ends; `can_lock` goes on to its `finally`. -/
def finish (t : ℕ) (probe : Bool) (ret : LockRet) (l : FileLock) : Option LockRet × FileLock :=
  if probe then
    (none, l.goto t (.closing (match ret with
      | .acquired => some true
      | .refused => some false
      | _ => none)))
  else (some ret, l.goto t .idle)

/-- Take the mutex and run the first half of a pass. -/
def enter (t : ℕ) (a : Acquire) (probe : Bool) (l : FileLock) (s : σ) : Option LockRet × FileLock × σ :=
  match threadLevel os t a l s with
  | (.got, l, s) => ((finish t probe .acquired l).1, (finish t probe .acquired l).2, s)
  | (.refuse, l, s) => ((finish t probe .refused l).1, (finish t probe .refused l).2, s)
  | (.wait, l, s) => (none, l.goto t (.waits a probe), s)
  | (.store, l, s) => (none, { l with lock := some t }.goto t (.tries a probe), s)

/-- `_rlock` or `_wlock`. -/
def attempt (a : Acquire) (s : σ) : Except LckErr σ := if a.readOnly then os.rlock s else os.wlock s

/-- The mode an `acquire` asks for. -/
def wanted (a : Acquire) : LockMode := if a.readOnly then .r else .w

/-- The second half of a pass: the store, without blocking. -/
def tryStore (t : ℕ) (a : Acquire) (probe : Bool) (l : FileLock) (s : σ) :
    Option LockRet × FileLock × σ :=
  let l := { l with lock := none }
  match attempt os a s with
  | .ok s =>
    let l := { l with mode := wanted a }.bump t
    let l := if a.readOnly then l.notifyAll else l
    ((finish t probe .acquired l).1, (finish t probe .acquired l).2, s)
  | .error .blocking =>
    if !a.block then
      -- `'r'` again, although the store was unlocked
      let l := if l.idents.contains t then { l with mode := .r } else l
      ((finish t probe .refused l).1, (finish t probe .refused l).2, s)
    else (none, { l with mode := .p }.goto t (.pends a probe), s)
  | .error _ => ((finish t probe .raised l).1, (finish t probe .raised l).2, s)

/-- Take the mutex after the store call that blocks, and record what it brought. -/
def publish (t : ℕ) (a : Acquire) (probe ok : Bool) (l : FileLock) (s : σ) :
    Option LockRet × FileLock × σ :=
  let l := (if l.mode = .p then { l with mode := .free } else l).notifyAll
  if l.mode = .x then
    ((finish t probe .refused l).1, (finish t probe .refused l).2, if ok then os.unlock s else s)
  else if !ok then ((finish t probe .refused l).1, (finish t probe .refused l).2, s)
  else
    let l := ({ l with mode := wanted a }.bump t).notifyAll
    ((finish t probe .acquired l).1, (finish t probe .acquired l).2, s)

/-- `release`, whole. -/
def releaseOne (t : ℕ) (l : FileLock) (s : σ) : FileLock × σ :=
  if l.idents.contains t then
    let rest := if l.cnt t ≤ 1 then l.idents.pop t else l.idents.set t (l.cnt t - 1)
    if rest.size = 0 then ({ l with idents := rest, mode := .free }.notifyAll, os.unlock s)
    else ({ l with idents := rest }, s)
  else (l, s)

/-- A call begins. -/
def begin (t : ℕ) (c : LockCall) (l : FileLock) : Option FileLock :=
  if l.pc t = .idle then
    some (l.goto t (match c with
      | .acquire a => .enter a false
      | .release => .release
      | .canLock => .enter { block := false } true))
  else none

/-- **One step of a thread**, when it can make one. -/
def run (t : ℕ) (l : FileLock) (s : σ) : Option (Option LockRet × FileLock × σ) :=
  match l.pc t with
  | .enter a probe => if l.lock = none then some (enter os t a probe l s) else none
  | .tries a probe => some (tryStore os t a probe l s)
  | .pends a probe =>
    some (none, l.goto t (if l.mode = .p then .blocks a probe else .stray a probe), s)
  | .blocks a probe =>
    match attempt os a s with
    | .ok s => some (none, l.goto t (.back a probe true), s)
    | .error .blocking => none
    | .error _ => some (none, l.goto t (.back a probe false), s)
  | .back a probe ok => if l.lock = none then some (publish os t a probe ok l s) else none
  | .release =>
    if l.lock = none then
      some (some (.released (l.idents.contains t)), (releaseOne os t l s).1.goto t .idle,
        (releaseOne os t l s).2)
    else none
  | .closing res =>
    if l.lock = none then
      some (some (match res with
        | some ok => .probed ok
        | none => .raised), (releaseOne os t l s).1.goto t .idle, (releaseOne os t l s).2)
    else none
  | _ => none

end FileLock

/-! ## Many file locks over one store -/

/-- The object ids of the copies of a store. -/
structure CopyIds (n : ℕ) where
  id : Fin n → ℕ
  inj : Function.Injective id
  pos : ∀ i, id i ≠ 0

/-- `n` file locks, each over its own copy of one in-memory store. -/
structure LockSys (n : ℕ) where
  store : LckFile := {}
  locks : Fin n → FileLock := fun _ => {}

/-- What happens at a step: a thread of a file lock begins a call, or goes on. -/
inductive LockLabel (n : ℕ) where
  | call (i : Fin n) (t : ℕ) (c : LockCall)
  | run (i : Fin n) (t : ℕ)
  deriving DecidableEq, Repr

namespace LockSys

variable {n : ℕ}

def next (ids : CopyIds n) (s : LockSys n) : LockLabel n → Option (LockSys n)
  | .call i t c => ((s.locks i).begin t c).map fun l => { s with locks := Function.update s.locks i l }
  | .run i t =>
    ((s.locks i).run (memLock (ids.id i)) t s.store).map fun r =>
      { store := r.2.2, locks := Function.update s.locks i r.2.1 }

def Step (ids : CopyIds n) (s : LockSys n) (e : LockLabel n) (s' : LockSys n) : Prop :=
  s.next ids e = some s'

end LockSys

/-! ## The moments of a step -/

/-- File locks between two moments. Every source line that changes `_mode` comes after the
call of the store it records (`_unlock()` in `release` and in an upgrade, `_rlock` and `_wlock` in
`acquire`), in the same hold of the mutex; the other file locks have mutexes of their own. -/
structure LockMoment (n : ℕ) where
  /-- The store, and the file locks as their pending writes will leave them. -/
  sys : LockSys n := {}
  /-- The thread that is about to write `_mode`, and what `_mode` is until then. -/
  late : Fin n → Option (ℕ × LockMode) := fun _ => none

inductive MomentLabel (n : ℕ) where
  /-- A step, up to the write of `_mode`. -/
  | step (e : LockLabel n)
  /-- The write. -/
  | write (i : Fin n)
  deriving DecidableEq, Repr

namespace LockMoment

variable {n : ℕ}

/-- `_mode` as anybody reads it at this moment. -/
def mode (s : LockMoment n) (i : Fin n) : LockMode := ((s.late i).map Prod.snd).getD (s.sys.locks i).mode

def next (ids : CopyIds n) (s : LockMoment n) : MomentLabel n → Option (LockMoment n)
  | .step (.call i t c) =>
    -- the thread that is about to write is not back from its call
    if (s.late i).map Prod.fst = some t then none
    else (s.sys.next ids (.call i t c)).map fun sys => { s with sys := sys }
  | .step (.run i t) =>
    -- the mutex is held
    if s.late i ≠ none then none
    else (s.sys.next ids (.run i t)).map fun sys =>
      { sys := sys
        late := if (sys.locks i).mode = (s.sys.locks i).mode then s.late
          else Function.update s.late i (some (t, (s.sys.locks i).mode)) }
  | .write i => if s.late i = none then none else some { s with late := Function.update s.late i none }

def Step (ids : CopyIds n) (s : LockMoment n) (e : MomentLabel n) (s' : LockMoment n) : Prop :=
  s.next ids e = some s'

end LockMoment

end OmniJsonDb
