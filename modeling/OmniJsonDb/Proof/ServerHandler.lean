import OmniJsonDb.Model.ServerHandler
import OmniJsonDb.Proof.Framing

/-!
# One reply for each request

`Answerable` says what a request and the answers to its calls have to be like: the packet is not
empty and can be unpacked, and no call raises what its branch does not catch.

* `wp_dispatch`: a command leaves a `resp` behind, and a good one only if nothing went wrong.
* `exchange_spec`: an answerable request is answered.
* `run_replies`: along a run of answerable requests, the n-th reply is the n-th request's.
-/

namespace OmniJsonDb

open Exec

namespace ServerHandler

variable {b : Backend} {s s' : Handler}

/-! ## Calls -/

/-- Nothing was sent, and every call returned. -/
structure Quiet (s s' : Handler) : Prop where
  sent : s'.sent = s.sent
  calls : ∃ new, s'.calls = s.calls ++ new ∧ ∀ c ∈ new, ∃ v, c.2 = .ok v

namespace Quiet

theorem refl (s : Handler) : Quiet s s := ⟨rfl, [], (List.append_nil _).symm, by simp⟩

theorem trans {s₁ s₂ s₃ : Handler} (h : Quiet s₁ s₂) (h' : Quiet s₂ s₃) : Quiet s₁ s₃ := by
  obtain ⟨new, hnew, hok⟩ := h.calls
  obtain ⟨new', hnew', hok'⟩ := h'.calls
  refine ⟨h'.sent.trans h.sent, new ++ new', by rw [hnew', hnew, List.append_assoc], ?_⟩
  intro c hc
  rcases List.mem_append.1 hc with hc | hc
  · exact hok c hc
  · exact hok' c hc

theorem log (s : Handler) (c : Call) (v : MsgVal) : Quiet s (s.log c (.ok v)) :=
  ⟨rfl, [(c, .ok v)], rfl, by simp⟩

end Quiet

/-- The call returns something with `k`, or raises what `catches` names. -/
def Answers (b : Backend) (s : Handler) (c : Call) (catches : CallErr → Bool) (k : MsgVal → Handler → Prop) :
    Prop :=
  match b.answer s.calls c with
  | .ok v => k v (s.log c (.ok v))
  | .error e => catches e

/-- The same for `f(*args, **kwargs)`, which can be called at all. -/
def AnswersWith (b : Backend) (s : Handler) (on : MsgVal) (method : Method) (args : MsgVal)
    (kwargs : List (MsgVal × MsgVal)) (pre : List MsgVal) (catches : CallErr → Bool)
    (k : MsgVal → Handler → Prop) : Prop :=
  ∃ xs, spread args kwargs = .ok xs ∧ Answers b s ⟨on, method, pre ++ xs, kwargs⟩ catches k

/-- Outside of any `try`. -/
def never (_ : CallErr) : Bool := false

variable {Q : MsgVal → Handler → Prop} {E : CallErr → Handler → Prop} {catches : CallErr → Bool}
  {k : MsgVal → Handler → Prop} {c : Call}

theorem wp_call (h : Answers b s c catches k) (hQ : ∀ v s', k v s' → Quiet s s' → Q v s')
    (hE : ∀ e s', catches e → s'.sent = s.sent → E e s') : Wp (call b c) s Q E := by
  have hrun : (call b c).run s = (b.answer s.calls c, s.log c (b.answer s.calls c)) := rfl
  unfold Answers at h
  unfold Wp
  rw [hrun]
  cases hb : b.answer s.calls c with
  | ok v =>
    rw [hb] at h
    exact hQ v _ h (Quiet.log s c v)
  | error e =>
    rw [hb] at h
    exact hE e _ h rfl

/-- A call only adds to the log. -/
theorem Answers.logged (h : Answers b s c catches k) :
    Answers b s c catches fun v s' => k v s' ∧ s' = s.log c (.ok v) := by
  unfold Answers at h ⊢
  cases hb : b.answer s.calls c with
  | ok v =>
    rw [hb] at h
    exact ⟨h, rfl⟩
  | error e =>
    rw [hb] at h
    exact h

theorem wp_callWith {on : MsgVal} {method : Method} {args : MsgVal} {kwargs : List (MsgVal × MsgVal)}
    {pre : List MsgVal} (h : AnswersWith b s on method args kwargs pre catches k)
    (hQ : ∀ v s', k v s' → Quiet s s' → Q v s') (hE : ∀ e s', catches e → s'.sent = s.sent → E e s') :
    Wp (callWith b on method args kwargs pre) s Q E := by
  obtain ⟨xs, hxs, h⟩ := h
  unfold callWith
  rw [hxs, wp_bind, wp_lift]
  refine ⟨?_, by simp⟩
  intro ys hys
  cases hys
  exact wp_call h hQ hE

theorem wp_attempt {α β : Type} {catches : CallErr → Option β} {x : HandlerM α} {k : α → HandlerM β}
    {Q : β → Handler → Prop} :
    Wp (attempt catches x k) s Q E ↔
      Wp x s (fun a s' => Wp (k a) s' Q E)
        fun e s' => (∀ r, catches e = some r → Q r s') ∧ (catches e = none → E e s') := by
  unfold Wp Exec.run attempt
  rcases x s with ⟨e | a, s'⟩
  · rcases hc : catches e with _ | r <;> simp [hc]
  · rfl

/-! ## Commands -/

/-- A value that a reply can carry, in a frame with room for the rest of it. -/
structure Packs (b : Backend) (v : MsgVal) : Prop where
  fits : (retOf b v).Fits
  depth : (retOf b v).depth ≤ 1023
  length : ∀ bs, (retOf b v).enc = .ok bs → bs.length < 2 ^ 47

/-- What a command leaves behind: nothing is sent yet, and `resp` is good only if every call
returned and `W` holds. -/
structure Done (b : Backend) (s : Handler) (W : Handler → Prop) (resp : Resp) (s' : Handler) : Prop where
  sent : s'.sent = s.sent
  good : resp.ok = true → Packs b resp.ret ∧ Quiet s s' ∧ W s'
  bad : resp.ok = false → resp.ret = .none

variable {W : Handler → Prop}

theorem done_okay {v : MsgVal} (hv : Packs b v) (h : Quiet s s') (hw : W s') : Done b s W (okay v) s' :=
  ⟨h.sent, fun _ => ⟨hv, h, hw⟩, by simp [okay]⟩

theorem done_fail {err : ErrCode} (h : s'.sent = s.sent) : Done b s W (fail err) s' :=
  ⟨h, by simp [fail], fun _ => rfl⟩

theorem packs_none : Packs b .none where
  fits := trivial
  depth := Nat.zero_le _
  length := by
    intro bs hbs
    cases hbs
    simp

theorem packs_bool (x : Bool) : Packs b (.bool x) where
  fits := trivial
  depth := Nat.zero_le _
  length := by
    intro bs hbs
    cases hbs
    simp

/-- What is called for a reply: the value can go out. -/
abbrev packs (b : Backend) (v : MsgVal) (_ : Handler) : Prop := Packs b v

/-- The commands that go to an open file with their arguments. -/
def streamMethod : Cmd → Option Method
  | .seek => some .seek
  | .tell => some .tell
  | .read => some .read
  | .write => some .write
  | .truncate => some .truncate
  | .readall => some .readall
  | .readinto => some .readinto
  | .readline => some .readline
  | .readlines => some .readlines
  | .writelines => some .writelines
  | _ => none

section Conditions

variable (b : Backend) (s : Handler) (files : MsgVal) (file groupPath : Text) (args : MsgVal)
  (kwargs : List (MsgVal × MsgVal))

def LckFine : Cmd → Prop
  | .remove => Answers b s ⟨files, .LCK_remove, [], []⟩ (fun e => (removeErr e).isSome) (packs b)
  | .rlock => AnswersWith b s files .LCK_rlock args kwargs [] (fun e => (lockErr e).isSome) (packs b)
  | .wlock => AnswersWith b s files .LCK_wlock args kwargs [] (fun e => (lockErr e).isSome) (packs b)
  | .unlock => Answers b s ⟨files, .LCK_unlock, [], []⟩ (fun e => (lockErr e).isSome) (packs b)
  | .close => Answers b s ⟨files, .LCK_close, [], []⟩ (fun e => (lockErr e).isSome) (packs b)
  | _ => True

def OpenFine (fp : MsgVal) (method : Method) (pre : List MsgVal) : Prop :=
  if isNone fp then AnswersWith b s files method args kwargs pre (fun e => (openErr e).isSome) (packs b)
  else Answers b s ⟨fp, .flush, [], []⟩ never fun _ s => Answers b s ⟨fp, .seek, [.int 0], []⟩ never fun _ _ => True

/-- The last calls of `add_group` and `link_group`, with the name they file the backend under. -/
def FiledFine (name target : MsgVal) : Prop :=
  let path := fullPath b groupPath name
  path.hashable = true ∧
    Answers b (s.log ⟨.none, .setGroupFiles, [path, target], []⟩ (.ok .none)) ⟨target, .getKEY, [], []⟩ never (packs b)

def AddGroupFine : Prop :=
  ∃ name, getArg kwargs "name" = some name ∧
    Answers b s ⟨files, .addGroup, [name], []⟩ never fun target s =>
      if isText (text "mem") ((getArg kwargs "kind").getD .none) && !b.isMem target then
        Answers b s ⟨.none, .JMemFiles, [], [(.str (text "name"), name)]⟩ never fun mem s =>
          Answers b s ⟨files, .linkGroup, [name, mem], []⟩ never fun target s => FiledFine b s groupPath name target
      else if isText (text "disk") ((getArg kwargs "kind").getD .none) && !b.isDisk target then
        ∃ KEY, getArg kwargs "KEY" = some KEY ∧
          Answers b s ⟨.none, .JDiskFiles, [KEY], []⟩ never fun disk s =>
            Answers b s ⟨files, .linkGroup, [name, disk], []⟩ never fun target s => FiledFine b s groupPath name target
      else FiledFine b s groupPath name target

/-- The backend to link can be made out, and is made. -/
def TargetFine (name : MsgVal) (k : MsgVal → Handler → Prop) : Prop :=
  let addr := (getArg kwargs "addr").getD .none
  if isNone addr then
    ∃ KEY, getArg kwargs "KEY" = some (.str KEY) ∧
      if (text "<MEM").isPrefixOf KEY then
        Answers b s ⟨.none, .JMemFiles, [], [(.str (text "name"), name)]⟩ never k
      else Answers b s ⟨.none, .JDiskFiles, [.str KEY], []⟩ never k
  else
    ∃ host port path, item addr 0 = .ok host ∧ (item addr 1 >>= b.int) = .ok port ∧
      spread ((getArg kwargs "group_path").getD (.tuple [])) [] = .ok path ∧
      Answers b s ⟨.none, .JNetFiles, [.tuple [.str (b.str host), .int port]],
        [(.str (text "group_path"), .tuple path)]⟩ never k

def LinkGroupFine : Prop :=
  ∃ name, getArg kwargs "name" = some name ∧
    TargetFine b s kwargs name fun target s =>
      Answers b s ⟨files, .linkGroup, [name, target], []⟩ never fun target s => FiledFine b s groupPath name target

def UnlinkGroupFine : Prop :=
  let name := (getArg kwargs "name").getD .none
  Answers b s ⟨files, .unlinkGroup, [name], []⟩ never fun removed s =>
    Packs b removed ∧
      if isNone name then
        ∃ paths, startingWith (if groupPath = [] then [] else groupPath ++ [toPoint '/'])
          ((b.groupFiles s.calls).map Prod.fst) = .ok paths
      else (fullPath b groupPath name).hashable = true

/-- A command to an open file: everything but `exit` is caught. -/
def StreamCallFine (fp : MsgVal) : Cmd → Prop
  | .close => Answers b s ⟨fp, .close, [], []⟩ (fun e => (streamErr e).isSome) fun _ _ => True
  | .flush => Answers b s ⟨fp, .flush, [], []⟩ (fun e => (streamErr e).isSome) fun _ _ => True
  | .fileno => Answers b s ⟨fp, .fileno, [], []⟩ (fun e => (streamErr e).isSome) (packs b)
  | cmd => ∀ method xs, streamMethod cmd = some method → spread args kwargs = .ok xs →
      Answers b s ⟨fp, method, xs, kwargs⟩ (fun e => (streamErr e).isSome) (packs b)

def StreamFine (fp : MsgVal) (cmd : Cmd) : Prop :=
  isNone fp = true ∨ Answers b s ⟨fp, .closed, [], []⟩ never fun isClosed s =>
    cmd = .closed ∨ truthy isClosed = true ∨ StreamCallFine b s args kwargs fp cmd

def KeyFine (fp : MsgVal) : Cmd → Prop
  | .open => OpenFine b s files args kwargs fp .KEY_open []
  | .getFolder => Answers b s ⟨files, .getFolder, [], []⟩ never (packs b)
  | .getName => Answers b s ⟨files, .getName, [], []⟩ never (packs b)
  | .getKEY => Answers b s ⟨files, .getKEY, [], []⟩ never (packs b)
  | .getPath => AnswersWith b s files .getPath args kwargs [] never (packs b)
  | .isGroup => AnswersWith b s files .isGroup args kwargs [] never (packs b)
  | .addGroup => AddGroupFine b s files groupPath kwargs
  | .linkGroup => LinkGroupFine b s files groupPath kwargs
  | .unlinkGroup => UnlinkGroupFine b s files groupPath kwargs
  | .size => Answers b s ⟨files, .KEY_size, [], []⟩ never (packs b)
  | .date => Answers b s ⟨files, .KEY_date, [], []⟩ never (packs b)
  | .fsync => AnswersWith b s files .fsync args kwargs [] never (packs b)
  | cmd => StreamFine b s args kwargs fp cmd

def ValFine (fp : MsgVal) (fileId : ℤ) : Cmd → Prop
  | .open => OpenFine b s files args kwargs fp .VAL_open [.int fileId]
  | .remove => Answers b s ⟨files, .VAL_remove, [.int fileId], []⟩ never (packs b)
  | .exist => Answers b s ⟨files, .VAL_exist, [.int fileId], []⟩ never (packs b)
  | .size => Answers b s ⟨files, .VAL_size, [.int fileId], []⟩ never (packs b)
  | cmd => StreamFine b s args kwargs fp cmd

/-- **No call of the command raises what its branch does not catch**, and what it is given has
the parts that the branch takes from it. -/
def CommandFine (kind : FileKind) (fp : MsgVal) (cmd : Cmd) : Prop :=
  match kind with
  | .lck => LckFine b s files args kwargs cmd
  | .key => KeyFine b s files groupPath args kwargs fp cmd
  | .val fileId => ValFine b s files args kwargs fp fileId cmd

end Conditions

/-! ## What a good reply means -/

/-- The call was made on the way, and returned `v`. -/
def Asked (s s' : Handler) (c : Call) (v : MsgVal) : Prop :=
  ∃ new, s'.calls = s.calls ++ new ∧ (c, .ok v) ∈ new

theorem Asked.after {s₁ s₂ s₃ : Handler} {v : MsgVal} (h : Asked s₁ s₂ c v) (h' : Quiet s₂ s₃) : Asked s₁ s₃ c v := by
  obtain ⟨new, hnew, hmem⟩ := h
  obtain ⟨new', hnew', -⟩ := h'.calls
  exact ⟨new ++ new', by rw [hnew', hnew, List.append_assoc], List.mem_append_left _ hmem⟩

theorem Asked.before {s₁ s₂ s₃ : Handler} {v : MsgVal} (h : Quiet s₁ s₂) (h' : Asked s₂ s₃ c v) : Asked s₁ s₃ c v := by
  obtain ⟨new, hnew, -⟩ := h.calls
  obtain ⟨new', hnew', hmem⟩ := h'
  exact ⟨new ++ new', by rw [hnew', hnew, List.append_assoc], List.mem_append_right _ hmem⟩

/-- A command to a file: one that needs it found it open. -/
def OnFile (s : Handler) (fp : MsgVal) (cmd : Cmd) (s' : Handler) : Prop :=
  cmd = .closed ∨ cmd = .close ∨ cmd = .flush ∨
    (((streamMethod cmd).isSome = true ∨ cmd = .fileno) ∧ isNone fp = false ∧
      ∃ v, Asked s s' ⟨fp, .closed, [], []⟩ v ∧ truthy v = false)

/-- The command is one its file has, and it did its part. -/
def Went (s : Handler) (file : Text) (kind : FileKind) (fp : MsgVal) (cmd : Cmd) (s' : Handler) : Prop :=
  match kind with
  | .lck => cmd ∈ [Cmd.remove, .rlock, .wlock, .unlock, .close]
  | .key =>
    if cmd = .open then isNone (s'.fp file) = false
    else cmd ∈ [Cmd.getFolder, .getName, .getKEY, .getPath, .isGroup, .addGroup, .linkGroup, .unlinkGroup, .size,
      .date, .fsync] ∨ OnFile s fp cmd s'
  | .val _ =>
    if cmd = .open then isNone (s'.fp file) = false
    else cmd ∈ [Cmd.remove, .exist, .size] ∨ OnFile s fp cmd s'

/-! ## The commands one by one -/

variable {files fp args : MsgVal} {file groupPath : Text} {kwargs : List (MsgVal × MsgVal)}

/-- Nothing is raised. -/
abbrev safe (_ : CallErr) (_ : Handler) : Prop := False

theorem wp_ask (h : Answers b s c never (packs b)) (hw : ∀ s', W s') :
    Wp (call b c) s (fun v s' => Done b s W (okay v) s') safe :=
  wp_call h (fun _ s' hv hq => done_okay hv hq (hw s')) fun e s' hc => by simp [never] at hc

theorem wp_askWith {method : Method} {pre : List MsgVal} (h : AnswersWith b s files method args kwargs pre never (packs b))
    (hw : ∀ s', W s') :
    Wp (callWith b files method args kwargs pre) s (fun v s' => Done b s W (okay v) s') safe :=
  wp_callWith h (fun _ s' hv hq => done_okay hv hq (hw s')) fun e s' hc => by simp [never] at hc

/-- The `except` clauses of a command all give up. -/
def GivesUp (catches : CallErr → Option Resp) : Prop := ∀ e r, catches e = some r → ∃ err, r = fail err

theorem givesUp_removeErr : GivesUp removeErr := by
  intro e r h
  cases e <;> simp [removeErr] at h <;> exact ⟨_, h.symm⟩

theorem givesUp_lockErr : GivesUp lockErr := by
  intro e r h
  cases e <;> simp [lockErr] at h <;> exact ⟨_, h.symm⟩

theorem givesUp_openErr : GivesUp openErr := by
  intro e r h
  cases e <;> simp [openErr] at h
  exact ⟨_, h.symm⟩

theorem givesUp_streamErr : GivesUp streamErr := by
  intro e r h
  cases e <;> simp [streamErr] at h <;> exact ⟨_, h.symm⟩

/-- What a `try` makes of an exception. -/
theorem GivesUp.caught {catches : CallErr → Option Resp} (hg : GivesUp catches) {e : CallErr}
    (hc : (catches e).isSome = true) (hs : s'.sent = s.sent) :
    (∀ r, catches e = some r → Done b s W r s') ∧ (catches e = none → safe e s') := by
  constructor
  · intro r hr
    obtain ⟨err, rfl⟩ := hg e r hr
    exact done_fail hs
  · intro hn
    simp [hn] at hc

theorem wp_lock {method : Method}
    (h : AnswersWith b s files method args kwargs [] (fun e => (lockErr e).isSome) (packs b)) (hw : ∀ s', W s') :
    Wp (lock b files groupPath args kwargs method) s (Done b s W) safe := by
  rw [lock, wp_attempt]
  refine wp_callWith h ?_ fun e s' hc hs => givesUp_lockErr.caught hc hs
  intro v s' hv hq
  rw [wp_bind, wp_modify, wp_ret]
  exact done_okay hv ⟨hq.sent, hq.calls⟩ (hw _)

theorem wp_lckCommand {cmd : Cmd} (h : LckFine b s files args kwargs cmd) :
    Wp (lckCommand b files groupPath args kwargs cmd) s (Done b s (Went s file .lck fp cmd)) safe := by
  cases cmd
  case remove =>
    rw [lckCommand, wp_attempt]
    refine wp_call h ?_ fun e s' hc hs => givesUp_removeErr.caught hc hs
    intro v s' hv hq
    rw [wp_bind, wp_modify, wp_ret]
    exact done_okay hv ⟨hq.sent, hq.calls⟩ (by simp [Went])
  case rlock => exact wp_lock h (by simp [Went])
  case wlock => exact wp_lock h (by simp [Went])
  case unlock =>
    rw [lckCommand, wp_attempt]
    refine wp_call h ?_ fun e s' hc hs => givesUp_lockErr.caught hc hs
    intro v s' hv hq
    rw [wp_bind, wp_modify, wp_ret]
    exact done_okay hv ⟨hq.sent, hq.calls⟩ (by simp [Went])
  case close =>
    rw [lckCommand, wp_attempt]
    refine wp_call h ?_ fun e s' hc hs => givesUp_lockErr.caught hc hs
    intro v s' hv hq
    exact done_okay hv hq (by simp [Went])
  all_goals exact done_fail rfl

theorem fp_setFp (s : Handler) (file : Text) (fp : MsgVal) : (s.setFp file fp).fp file = fp := by
  simp [Handler.setFp, Handler.fp, OrdDict.get?_set]

theorem wp_openFile {method : Method} {pre : List MsgVal} (h : OpenFine b s files args kwargs fp method pre)
    (hfp : fp = s.fp file) :
    Wp (openFile b files file args kwargs fp method pre) s
      (Done b s fun s' => isNone (s'.fp file) = false) safe := by
  unfold openFile
  unfold OpenFine at h
  rcases hn : isNone fp with _ | _
  · rw [hn, if_neg (by simp)] at h
    rw [if_neg (by simp), wp_bind]
    refine wp_call h.logged ?_ fun e s' hc => by simp [never] at hc
    rintro v s' ⟨h, rfl⟩ hq
    rw [wp_bind]
    refine wp_call h.logged ?_ fun e s' hc => by simp [never] at hc
    rintro v s'' ⟨-, rfl⟩ hq'
    refine done_okay packs_none (hq.trans hq') ?_
    -- the table is as it was
    rw [hfp] at hn
    exact hn
  · rw [hn, if_pos rfl] at h
    rw [if_pos rfl, wp_attempt]
    refine wp_callWith h ?_ fun e s' hc hs => givesUp_openErr.caught hc hs
    intro v s' hv hq
    rw [wp_bind, wp_modify, wp_ret]
    rcases hv' : isNone v with _ | _
    · rw [if_neg (by simp)]
      exact done_okay hv ⟨hq.sent, hq.calls⟩ (by rw [fp_setFp]; exact hv')
    · rw [if_pos rfl]
      exact done_fail hq.sent

/-! ## The commands of groups -/

theorem never_safe (e : CallErr) (s₁ : Handler) (hc : never e = true) (_ : s₁.sent = s.sent) : safe e s₁ := by
  simp [never] at hc

theorem wp_setGroupFiles {path target : MsgVal} (h : path.hashable = true) {Q : Unit → Handler → Prop}
    (hQ : Q () (s.log ⟨.none, .setGroupFiles, [path, target], []⟩ (.ok .none))) :
    Wp (setGroupFiles path target) s Q safe := by
  rw [setGroupFiles, if_pos h]
  exact hQ

theorem wp_kwarg {name : String} {v : MsgVal} (h : getArg kwargs name = some v) (hQ : Q v s) :
    Wp (kwarg kwargs name) s Q safe := by
  rw [kwarg, h, wp_lift]
  refine ⟨?_, by simp⟩
  rintro a ha
  cases ha
  exact hQ

/-- The last calls: the backend is filed, its `KEY` is the answer. -/
theorem wp_filed {name target : MsgVal} (h : FiledFine b s groupPath name target) {s₀ : Handler} (h₀ : Quiet s₀ s)
    (hw : ∀ s', W s') :
    Wp (setGroupFiles (fullPath b groupPath name) target >>= fun _ => okay <$> call b ⟨target, .getKEY, [], []⟩) s
      (Done b s₀ W) safe := by
  obtain ⟨hpath, h⟩ := h
  rw [wp_bind]
  refine wp_setGroupFiles hpath ?_
  rw [wp_map]
  refine wp_call h ?_ never_safe
  intro v s' hv hq
  have hlog := Quiet.log s ⟨.none, .setGroupFiles, [fullPath b groupPath name, target], []⟩ .none
  exact done_okay hv ((h₀.trans hlog).trans hq) (hw s')

theorem wp_addGroup (h : AddGroupFine b s files groupPath kwargs) (hw : ∀ s', W s') :
    Wp (addGroup b files groupPath kwargs) s (Done b s W) safe := by
  obtain ⟨name, hname, h⟩ := h
  rw [addGroup, wp_bind]
  refine wp_kwarg hname ?_
  rw [wp_bind]
  refine wp_call h ?_ never_safe
  intro target s₁ h hq₁
  dsimp only
  split at h
  · rename_i hmem
    rw [if_pos hmem, wp_bind]
    refine wp_call h ?_ never_safe
    intro mem s₂ h hq₂
    rw [wp_bind]
    refine wp_call h ?_ never_safe
    intro target s₃ h hq₃
    exact wp_filed h ((hq₁.trans hq₂).trans hq₃) hw
  · rename_i hmem
    rw [if_neg hmem]
    split at h
    · rename_i hdisk
      obtain ⟨KEY, hKEY, h⟩ := h
      rw [if_pos hdisk, wp_bind]
      refine wp_kwarg hKEY ?_
      rw [wp_bind]
      refine wp_call h ?_ never_safe
      intro disk s₂ h hq₂
      rw [wp_bind]
      refine wp_call h ?_ never_safe
      intro target s₃ h hq₃
      exact wp_filed h ((hq₁.trans hq₂).trans hq₃) hw
    · rename_i hdisk
      rw [if_neg hdisk, wp_bind, wp_ret]
      exact wp_filed h hq₁ hw

theorem wp_linkTarget {name : MsgVal} (h : TargetFine b s kwargs name k)
    (hQ : ∀ v s', k v s' → Quiet s s' → Q v s') : Wp (linkTarget b name kwargs) s Q safe := by
  unfold TargetFine at h
  unfold linkTarget
  simp only at h ⊢
  split at h
  · rename_i hnone
    obtain ⟨KEY, hKEY, h⟩ := h
    rw [if_pos hnone, wp_bind]
    refine wp_kwarg hKEY ?_
    simp only
    split at h
    · rename_i hmem
      rw [if_pos hmem]
      exact wp_call h hQ never_safe
    · rename_i hmem
      rw [if_neg hmem]
      exact wp_call h hQ never_safe
  · rename_i hnone
    obtain ⟨host, port, path, hhost, hport, hpath, h⟩ := h
    rw [if_neg hnone, hhost, hport, hpath]
    exact wp_call h hQ never_safe

theorem wp_linkGroup (h : LinkGroupFine b s files groupPath kwargs) (hw : ∀ s', W s') :
    Wp (linkGroup b files groupPath kwargs) s (Done b s W) safe := by
  obtain ⟨name, hname, h⟩ := h
  rw [linkGroup, wp_bind]
  refine wp_kwarg hname ?_
  rw [wp_bind]
  refine wp_linkTarget h ?_
  intro target s₁ h hq₁
  rw [wp_bind]
  refine wp_call h ?_ never_safe
  intro target s₂ h hq₂
  exact wp_filed h (hq₁.trans hq₂) hw

theorem wp_popAll : ∀ (paths : List MsgVal) (s : Handler), Wp (popAll paths) s (fun _ s' => Quiet s s') safe
  | [], s => Quiet.refl s
  | path :: paths, s => by
    have hlog := Quiet.log s ⟨.none, .popGroupFiles, [path], []⟩ .none
    rw [popAll, wp_bind, popGroupFiles, wp_modify]
    exact wp_mono (wp_popAll paths _) (fun _ _ hq => hlog.trans hq) fun _ _ h => h

theorem wp_unlinkGroup (h : UnlinkGroupFine b s files groupPath kwargs) (hw : ∀ s', W s') :
    Wp (unlinkGroup b files groupPath kwargs) s (Done b s W) safe := by
  unfold UnlinkGroupFine at h
  unfold unlinkGroup
  simp only at h ⊢
  rw [wp_bind]
  refine wp_call h ?_ never_safe
  rintro removed s₁ ⟨hremoved, h⟩ hq₁
  split at h
  · rename_i hnone
    obtain ⟨paths, hpaths⟩ := h
    rw [if_pos hnone, wp_bind, wp_get, wp_bind, hpaths, wp_lift]
    refine ⟨?_, by simp⟩
    rintro a ha
    cases ha
    rw [wp_bind]
    refine wp_mono (wp_popAll paths s₁) ?_ fun _ _ h => h
    intro _ s₂ hq₂
    rw [wp_ret]
    split
    · exact done_okay hremoved (hq₁.trans hq₂) (hw s₂)
    · exact done_okay (packs_bool true) (hq₁.trans hq₂) (hw s₂)
  · rename_i hnone
    rw [if_neg hnone, if_pos h, wp_bind]
    have hpop := Quiet.log s₁ ⟨.none, .popGroupFiles, [fullPath b groupPath ((getArg kwargs "name").getD .none)], []⟩ .none
    change Done b s W (okay (if isNone _ then removed else .bool true)) _
    split
    · exact done_okay hremoved (hq₁.trans hpop) (hw _)
    · exact done_okay (packs_bool true) (hq₁.trans hpop) (hw _)

/-! ## The commands to an open file -/

theorem streamCall_of_method {cmd : Cmd} {method : Method} (h : streamMethod cmd = some method) :
    streamCall b file args kwargs fp cmd = okay <$> callWith b fp method args kwargs := by
  cases cmd <;> simp [streamMethod] at h <;> subst h <;> rfl

/-- A `resp` of a command to an open file, or an exception that is caught. -/
def Caught (s : Handler) (e : CallErr) (s' : Handler) : Prop := (streamErr e).isSome = true ∧ s'.sent = s.sent

theorem wp_streamCall {cmd : Cmd} (h : StreamCallFine b s args kwargs fp cmd)
    (hw : cmd = .close ∨ cmd = .flush ∨ cmd = .fileno ∨ (streamMethod cmd).isSome = true → ∀ s', W s') :
    Wp (streamCall b file args kwargs fp cmd) s (Done b s W) (Caught s) := by
  have hcaught : ∀ e s', (streamErr e).isSome = true → s'.sent = s.sent → Caught s e s' := fun e s' hc hs => ⟨hc, hs⟩
  rcases hm : streamMethod cmd with _ | method
  · cases cmd
    case close =>
      rw [StreamCallFine] at h
      rw [streamCall, wp_bind]
      refine wp_call h ?_ hcaught
      intro v s' _ hq
      rw [wp_bind, wp_modify, wp_ret]
      exact done_okay packs_none ⟨hq.sent, hq.calls⟩ (hw (by simp) _)
    case flush =>
      rw [StreamCallFine] at h
      rw [streamCall, wp_bind]
      refine wp_call h ?_ hcaught
      intro v s' _ hq
      exact done_okay packs_none hq (hw (by simp) _)
    case fileno =>
      rw [streamCall, wp_map]
      refine wp_call h ?_ hcaught
      intro v s' hv hq
      exact done_okay hv hq (hw (by simp) _)
    case seek | tell | read | write | truncate | readall | readinto | readline | readlines | writelines =>
      simp [streamMethod] at hm
    all_goals exact done_fail rfl
  · have h : ∀ method xs, streamMethod cmd = some method → spread args kwargs = .ok xs →
        Answers b s ⟨fp, method, xs, kwargs⟩ (fun e => (streamErr e).isSome) (packs b) := by
      cases cmd <;> first | exact h | simp [streamMethod] at hm
    rw [streamCall_of_method hm, wp_map, callWith, wp_bind, wp_lift]
    constructor
    · intro xs hxs
      refine wp_call (h method xs hm hxs) ?_ hcaught
      intro v s' hv hq
      exact done_okay hv hq (hw (by simp [hm]) _)
    · intro e he
      -- what cannot be spread is a `TypeError`, and that is caught too
      have he' : e = .type := by
        unfold spread at he
        split at he
        · exact (Except.error.inj he).symm
        · split at he
          · cases he
          · exact (Except.error.inj he).symm
      subst he'
      exact hcaught _ _ rfl rfl

theorem done_noFile {cmd : Cmd} (h : Quiet s s') (hw : cmd = .close ∨ cmd = .flush → W s') :
    Done b s W (noFile cmd) s' := by
  unfold noFile
  split
  · rename_i hc
    exact done_okay packs_none h (hw hc)
  · exact done_fail h.sent

theorem wp_streamCommand {cmd : Cmd} (h : StreamFine b s args kwargs fp cmd) :
    Wp (streamCommand b file args kwargs fp cmd) s (Done b s (OnFile s fp cmd)) safe := by
  unfold streamCommand
  by_cases hcmd : cmd = .closed
  · rw [if_pos hcmd]
    rcases h with hn | h
    · rw [if_pos hn]
      exact done_okay (packs_bool true) (Quiet.refl s) (.inl hcmd)
    · rcases hn : isNone fp with _ | _
      · rw [if_neg (by simp), wp_bind]
        refine wp_call h ?_ never_safe
        intro v s' _ hq
        split
        · exact done_okay (packs_bool true) ⟨hq.sent, hq.calls⟩ (.inl hcmd)
        · exact done_okay (packs_bool false) hq (.inl hcmd)
      · rw [if_pos rfl]
        exact done_okay (packs_bool true) (Quiet.refl s) (.inl hcmd)
  · rw [if_neg hcmd]
    rcases hn : isNone fp with _ | _
    · rw [if_neg (by simp), wp_bind]
      have h := h.resolve_left (by simp [hn])
      refine wp_call h.logged ?_ never_safe
      rintro v s' ⟨h, rfl⟩ hq
      split
      · exact done_noFile hq fun hc => hc.elim (fun h => .inr (.inl h)) fun h => .inr (.inr (.inl h))
      · rename_i hv
        have hv : truthy v = false := by simpa using hv
        have h := (h.resolve_left hcmd).resolve_left (by simp [hv])
        -- the answer to `closed` is the first call of the command
        have hask : Asked s (s.log ⟨fp, .closed, [], []⟩ (.ok v)) ⟨fp, .closed, [], []⟩ v := ⟨_, rfl, by simp⟩
        have hw : ∀ s₂, Quiet (s.log ⟨fp, .closed, [], []⟩ (.ok v)) s₂ →
            (cmd = .close ∨ cmd = .flush ∨ cmd = .fileno ∨ (streamMethod cmd).isSome = true) → OnFile s fp cmd s₂ := by
          rintro s₂ hq₂ (hc | hc | hc | hc)
          · exact .inr (.inl hc)
          · exact .inr (.inr (.inl hc))
          · exact .inr (.inr (.inr ⟨.inr hc, hn, v, hask.after hq₂, hv⟩))
          · exact .inr (.inr (.inr ⟨.inl hc, hn, v, hask.after hq₂, hv⟩))
        rw [wp_attempt]
        refine wp_mono (wp_streamCall h fun hc _ => hc) ?_ ?_
        · rintro r s₂ ⟨hsent, hgood, hbad⟩
          refine ⟨hsent.trans hq.sent, ?_, hbad⟩
          intro hok
          obtain ⟨hp, hq₂, hc⟩ := hgood hok
          exact ⟨hp, hq.trans hq₂, hw s₂ hq₂ hc⟩
        · rintro e s₂ ⟨hc, hs⟩
          exact givesUp_streamErr.caught hc (hs.trans hq.sent)
    · rw [if_pos rfl]
      exact done_noFile (Quiet.refl s) fun hc => hc.elim (fun h => .inr (.inl h)) fun h => .inr (.inr (.inl h))

/-! ## Any command -/

theorem Done.imp {V : Handler → Prop} {resp : Resp} (h : Done b s W resp s') (hVW : W s' → V s') : Done b s V resp s' :=
  ⟨h.sent, fun hok => (h.good hok).imp_right fun hq => hq.imp_right hVW, h.bad⟩

/-- The commands that a kind of file has besides those to an open file. -/
theorem wp_dispatch {kind : FileKind} {cmd : Cmd} (hfp : fp = s.fp file)
    (h : CommandFine b s files groupPath args kwargs kind fp cmd) :
    Wp (dispatch b files file groupPath args kwargs kind fp cmd) s (Done b s (Went s file kind fp cmd)) safe := by
  -- a command that is not the file's own goes to the open file
  have hstream : StreamFine b s args kwargs fp cmd → (∀ s', OnFile s fp cmd s' → Went s file kind fp cmd s') →
      Wp (streamCommand b file args kwargs fp cmd) s (Done b s (Went s file kind fp cmd)) safe := by
    intro h hw
    exact wp_mono (wp_streamCommand h) (fun r s' hr => hr.imp (hw s')) fun _ _ h => h
  have hsome : ∀ {x : HandlerM Resp} {k : Option Resp → HandlerM Resp},
      (∀ r, k (some r) = pure r) → Wp x s (Done b s (Went s file kind fp cmd)) safe →
      Wp ((some <$> x) >>= k) s (Done b s (Went s file kind fp cmd)) safe := by
    intro x k hk hx
    rw [wp_bind, wp_map]
    refine wp_mono hx ?_ fun _ _ h => h
    intro r s' hr
    rw [hk, wp_ret]
    exact hr
  have hask : ∀ {x : HandlerM MsgVal} {k : Option Resp → HandlerM Resp},
      (∀ r, k (some r) = pure r) → Wp x s (fun v s' => Done b s (Went s file kind fp cmd) (okay v) s') safe →
      Wp (((some ∘ okay) <$> x) >>= k) s (Done b s (Went s file kind fp cmd)) safe := by
    intro x k hk hx
    rw [wp_bind, wp_map]
    refine wp_mono hx ?_ fun _ _ h => h
    intro v s' hv
    rw [Function.comp_apply, hk, wp_ret]
    exact hv
  cases kind with
  | lck => exact wp_lckCommand h
  | key =>
    cases cmd
    case «open» =>
      refine hsome (fun _ => rfl) (wp_mono (wp_openFile h hfp) (fun r s' hr => hr.imp ?_) fun _ _ h => h)
      intro hw
      simpa [Went] using hw
    case getFolder | getName | getKEY | size | date => exact hask (fun _ => rfl) (wp_ask h (by simp [Went]))
    case getPath | isGroup | fsync => exact hask (fun _ => rfl) (wp_askWith h (by simp [Went]))
    case addGroup => exact hsome (fun _ => rfl) (wp_addGroup h (by simp [Went]))
    case linkGroup => exact hsome (fun _ => rfl) (wp_linkGroup h (by simp [Went]))
    case unlinkGroup => exact hsome (fun _ => rfl) (wp_unlinkGroup h (by simp [Went]))
    all_goals exact hstream h fun s' hw => by simpa [Went] using hw
  | val fileId =>
    cases cmd
    case «open» =>
      refine hsome (fun _ => rfl) (wp_mono (wp_openFile h hfp) (fun r s' hr => hr.imp ?_) fun _ _ h => h)
      intro hw
      simpa [Went] using hw
    case remove | exist | size => exact hask (fun _ => rfl) (wp_ask h (by simp [Went]))
    all_goals exact hstream h fun s' hw => by simpa [Went] using hw

/-! ## Sending -/

theorem strHeader_length {n : ℕ} {hd : Bytes} (h : strHeader n = .ok hd) : hd.length ≤ 5 := by
  unfold strHeader at h
  split at h
  · cases h
    simp
  · split at h
    · obtain ⟨-, rfl⟩ := packNat_eq_ok.1 h
      simp [length_beBytes]
    · split at h
      · obtain ⟨-, rfl⟩ := packNat_eq_ok.1 h
        simp [length_beBytes]
      · obtain ⟨-, rfl⟩ := packNat_eq_ok.1 h
        simp [length_beBytes]

theorem enc_str_length {t : Text} {bs : Bytes} (h : (MsgVal.str t).enc = .ok bs) : bs.length < 2 ^ 32 + 5 := by
  rw [MsgVal.enc] at h
  cases ht : encodeUtf8 t with
  | error e => simp [ht, Bind.bind, Except.bind] at h
  | ok b =>
    have h : encRaw strHeader b = .ok bs := by rw [ht] at h; exact h
    have hlen : b.length < 2 ^ 32 := by
      unfold encRaw at h
      split at h
      · cases h
      · omega
    obtain ⟨hd, hhd, rfl⟩ := encRaw_eq_ok h
    have := strHeader_length hhd
    rw [List.length_append]
    omega

theorem encItems_cons_eq_ok {key v : MsgVal} {kvs : List (MsgVal × MsgVal)} {bs : Bytes}
    (h : MsgVal.encItems ((key, v) :: kvs) = .ok bs) : ∃ x y z, key.enc = .ok x ∧ v.enc = .ok y ∧
      MsgVal.encItems kvs = .ok z ∧ bs.length = x.length + y.length + z.length := by
  rw [MsgVal.encItems] at h
  cases hx : key.enc with
  | error e => simp [hx, Bind.bind, Except.bind] at h
  | ok x =>
    cases hy : v.enc with
    | error e => simp [hx, hy, Bind.bind, Except.bind] at h
    | ok y =>
      cases hz : MsgVal.encItems kvs with
      | error e => simp [hx, hy, hz, Bind.bind, Except.bind, Except.map] at h
      | ok z =>
        simp only [hx, hy, hz, Bind.bind, Except.bind, Except.map, Except.ok.injEq] at h
        subst h
        exact ⟨x, y, z, rfl, rfl, rfl, by simp [Nat.add_assoc]⟩

/-- **A reply goes out** when its text and its value can be packed. -/
theorem dumpAndSend_reply {r : Reply} (hcmd : (MsgVal.str r.cmd).Fits) (hfits : r.ret.Fits) (hdepth : r.ret.depth ≤ 1023)
    (hlen : ∀ bs, r.ret.enc = .ok bs → bs.length < 2 ^ 47) : ∃ buf, Sock.dumpAndSend msgDumps r.toVal = .ok buf := by
  have herr : ∃ bs, packIntObj r.err.code = .ok bs ∧ bs.length ≤ 9 := by
    cases r.err <;> exact ⟨_, rfl, by decide⟩
  obtain ⟨e, he, hlene⟩ := herr
  have hok : (MsgVal.str (text "ok")).Fits := ⟨by decide, by unfold FitsLength; decide⟩
  have hcmd' : (MsgVal.str (text "cmd")).Fits := ⟨by decide, by unfold FitsLength; decide⟩
  have hret : (MsgVal.str (text "ret")).Fits := ⟨by decide, by unfold FitsLength; decide⟩
  have herr' : (MsgVal.str (text "err")).Fits := ⟨by decide, by unfold FitsLength; decide⟩
  have hint : (MsgVal.int r.err.code).Fits := packIntObj_isOk_iff.1 ⟨e, he⟩
  have hfit : r.toVal.Fits := by
    refine ⟨?_, hok, trivial, hcmd', hcmd, hret, hfits, herr', hint, trivial⟩
    unfold FitsLength
    simp
  have hdep : r.toVal.depth ≤ 1024 := by
    simp only [Reply.toVal, MsgVal.depth, MsgVal.depthItems]
    omega
  obtain ⟨data, hdata⟩ := (enc_isOk_iff r.toVal).2 hfit
  -- the parts of the encoding, and their lengths
  have hlendata : data.length < 2 ^ 48 := by
    obtain ⟨hd, bs, hhd, hitems, rfl⟩ := encSeq_eq_ok hdata
    obtain rfl : hd = [0x84] := (Except.ok.inj hhd).symm
    obtain ⟨k₁, v₁, z₁, hk₁, hv₁, hitems, hl₁⟩ := encItems_cons_eq_ok hitems
    obtain ⟨k₂, v₂, z₂, hk₂, hv₂, hitems, hl₂⟩ := encItems_cons_eq_ok hitems
    obtain ⟨k₃, v₃, z₃, hk₃, hv₃, hitems, hl₃⟩ := encItems_cons_eq_ok hitems
    obtain ⟨k₄, v₄, z₄, hk₄, hv₄, hitems, hl₄⟩ := encItems_cons_eq_ok hitems
    have hz₄ : z₄.length = 0 := by rw [← Except.ok.inj hitems]; rfl
    have hv₁ : v₁.length = 1 := by rw [← Except.ok.inj hv₁]; rfl
    have hv₄ : v₄.length ≤ 9 := by rw [← Except.ok.inj (he.symm.trans hv₄)]; exact hlene
    have := enc_str_length hk₁
    have := enc_str_length hk₂
    have := enc_str_length hk₃
    have := enc_str_length hk₄
    have := enc_str_length hv₂
    have := hlen v₃ hv₃
    rw [List.length_append, List.length_singleton]
    omega
  have hsend : Sock.dumpAndSend msgDumps r.toVal = Sock.frame data := by
    rw [Sock.dumpAndSend, msgDumps_eq hdep, hdata]
    rfl
  exact ⟨_, hsend.trans (Sock.frame_eq hlendata)⟩

/-! ## The backend of a group -/

/-- Nothing of the connection is changed but what was called. -/
structure Kept (s s' : Handler) : Prop extends Quiet s s' where
  fps : s'.fpTable = s.fpTable

namespace Kept

theorem refl (s : Handler) : Kept s s := ⟨Quiet.refl s, rfl⟩

theorem trans {s₁ s₂ s₃ : Handler} (h : Kept s₁ s₂) (h' : Kept s₂ s₃) : Kept s₁ s₃ :=
  ⟨h.toQuiet.trans h'.toQuiet, h'.fps.trans h.fps⟩

theorem log (s : Handler) (c : Call) (v : MsgVal) : Kept s (s.log c (.ok v)) := ⟨Quiet.log s c v, rfl⟩

end Kept

/-- What an exception leaves unsent. -/
abbrev Unsent (s : Handler) (_ : CallErr) (s' : Handler) : Prop := s'.sent = s.sent

theorem wp_call_kept (b : Backend) (c : Call) (s : Handler) :
    Wp (call b c) s (fun _ s' => Kept s s') (Unsent s) := by
  have hrun : (call b c).run s = (b.answer s.calls c, s.log c (b.answer s.calls c)) := rfl
  unfold Wp
  rw [hrun]
  cases b.answer s.calls c with
  | ok v => exact Kept.log s c v
  | error e => rfl

theorem wp_setGroupFiles_kept (path target : MsgVal) (s : Handler) :
    Wp (setGroupFiles path target) s (fun _ s' => Kept s s') (Unsent s) := by
  unfold setGroupFiles
  split
  · exact Kept.log s _ .none
  · rfl

theorem Kept.unsent {s₁ s₂ s₃ : Handler} {e : CallErr} (h : Kept s₁ s₂) (h' : Unsent s₂ e s₃) : Unsent s₁ e s₃ :=
  h'.trans h.sent

theorem wp_groupParts (b : Backend) : ∀ (parts : List Text) (path : Text) (cur : Option MsgVal) (files : MsgVal)
    (s : Handler), Wp (groupParts b path cur files parts) s (fun _ s' => Kept s s') (Unsent s)
  | [], _, _, _, s => Kept.refl s
  | part :: parts, path, cur, files, s => by
    have ih := wp_groupParts b parts
    unfold groupParts
    split
    · dsimp only
      generalize (if path = [] then part else path ++ toPoint '/' :: part) = path
      rw [wp_bind, wp_get]
      split
      · rw [wp_bind]
        refine wp_mono (wp_setGroupFiles_kept _ _ s) ?_ fun _ _ h => h
        intro _ s₁ h₁
        exact wp_mono (ih _ _ _ s₁) (fun _ _ h => h₁.trans h) fun _ _ h => h₁.unsent h
      · have hrest : ∀ obj s₁, Kept s s₁ → Wp (setGroupFiles (.str path) obj >>=
            fun _ => groupParts b path none obj parts) s₁ (fun _ s' => Kept s s') (Unsent s) := by
          intro obj s₁ h₁
          rw [wp_bind]
          refine wp_mono (wp_setGroupFiles_kept _ _ s₁) ?_ fun _ _ h => h₁.unsent h
          intro _ s₂ h₂
          exact wp_mono (ih _ _ _ s₂) (fun _ _ h => (h₁.trans h₂).trans h) fun _ _ h => (h₁.trans h₂).unsent h
        -- reading `group_files` changes nothing
        obtain ⟨obj, hobj⟩ : ∃ obj, (groupFile b (.str path)).run s = (.ok obj, s) := ⟨_, rfl⟩
        rw [wp_bind_of_run hobj]
        split
        · rw [wp_bind]
          exact wp_mono (wp_call_kept b _ s) (fun obj s₁ h₁ => hrest obj s₁ h₁) fun _ _ h => h
        · exact hrest _ s (Kept.refl s)
    · rfl

/-- Finding the backend of a group calls others, and nothing more. -/
theorem wp_groupBackend (b : Backend) (path : Text) (s : Handler) :
    Wp (groupBackend b path) s (fun _ s' => Kept s s') (Unsent s) := by
  unfold groupBackend
  rw [wp_bind, wp_get]
  dsimp only
  split
  · have hget : Wp (getGroupFiles b path) s (fun _ s' => Kept s s') (Unsent s) := by
      unfold getGroupFiles
      split
      · exact Kept.refl s
      · exact wp_groupParts b _ _ _ _ s
    rw [wp_bind]
    refine wp_mono hget ?_ fun _ _ h => h
    intro shared s₁ h₁
    rw [wp_bind]
    refine wp_mono (wp_call_kept b _ s₁) ?_ fun _ _ h => h₁.unsent h
    intro files s₂ h₂
    exact ⟨⟨(h₁.trans h₂).sent, (h₁.trans h₂).calls⟩, (h₁.trans h₂).fps⟩
  · exact Kept.refl s

/-! ## One request -/

/-- What a packet with a text for its file has to be like: its texts can be sent, the backend of
its group is found or the failure is one that is caught, and the command is fine. -/
structure Served (b : Backend) (s : Handler) (file : Text) (cmd args kwargs : MsgVal) : Prop where
  fileFits : (MsgVal.str file).Fits
  cmdFits : (MsgVal.str (cmdText b file cmd)).Fits
  command : knownFile (partition file).1 = true →
    Wp (groupBackend b (partition file).2) s
      (fun files s' => ∀ kind c cs kvs, fileKind b (partition file).1 = some kind → cmd = .str (c :: cs) →
        kwargs = .dict kvs →
        CommandFine b s' files (partition file).2 args kvs kind (s'.fp file) (Cmd.ofText (c :: cs)))
      fun e _ => (groupErr () e).isSome = true

/-- **What a request has to be like for an answer**: it is not empty, it can be unpacked, and when
it has four parts, the first is a text and the command is fine. -/
structure Answerable (b : Backend) (s : Handler) (packet : MsgVal) : Prop where
  nonempty : truthy packet = true
  parts : ∃ xs, packet.members = .ok xs
  served : ∀ file cmd args kwargs, packet.members = .ok [file, cmd, args, kwargs] →
    ∃ name, file = .str name ∧ Served b s name cmd args kwargs

/-- **The request went well**: it was well formed, its command known, every call returned, and
what was opened or used is there. -/
structure Success (b : Backend) (s : Handler) (packet : MsgVal) (s' : Handler) : Prop where
  calls : ∃ new, s'.calls = s.calls ++ new ∧ ∀ c ∈ new, ∃ v, c.2 = .ok v
  command : ∃ file cmd args kwargs kind, packet.members = .ok [.str file, .str cmd, args, .dict kwargs] ∧
    cmd ≠ [] ∧ knownFile (partition file).1 = true ∧ fileKind b (partition file).1 = some kind ∧
    Went s file kind (s.fp file) (Cmd.ofText cmd) s'

/-- A reply that can go out, and says `ok` only when the request went well. -/
structure Answered (b : Backend) (s : Handler) (packet : MsgVal) (r : Reply) (s' : Handler) : Prop where
  sent : s'.sent = s.sent
  sends : ∃ buf, Sock.dumpAndSend msgDumps r.toVal = .ok buf
  good : r.ok = true → Success b s packet s'

theorem answered_refuse {packet : MsgVal} {cmd : Text} {err : ErrCode} (hcmd : (MsgVal.str cmd).Fits)
    (hs : s'.sent = s.sent) : Answered b s packet (refuse cmd err) s' where
  sent := hs
  sends := dumpAndSend_reply hcmd (packs_none (b := b)).fits (Nat.zero_le _) (packs_none (b := b)).length
  good := by simp [refuse]

theorem Went.before {s₁ : Handler} {file : Text} {kind : FileKind} {fp : MsgVal} {cmd : Cmd} (h : Quiet s s₁)
    (hw : Went s₁ file kind fp cmd s') : Went s file kind fp cmd s' := by
  have hon : OnFile s₁ fp cmd s' → OnFile s fp cmd s' := by
    rintro (h' | h' | h' | ⟨h', hn, v, hask, hv⟩)
    · exact .inl h'
    · exact .inr (.inl h')
    · exact .inr (.inr (.inl h'))
    · exact .inr (.inr (.inr ⟨h', hn, v, hask.before h, hv⟩))
  unfold Went at hw ⊢
  cases kind with
  | lck => exact hw
  | key =>
    simp only at hw ⊢
    split
    · rename_i hc
      rwa [if_pos hc] at hw
    · rename_i hc
      rw [if_neg hc] at hw
      exact hw.imp_right hon
  | val fileId =>
    simp only at hw ⊢
    split
    · rename_i hc
      rwa [if_pos hc] at hw
    · rename_i hc
      rw [if_neg hc] at hw
      exact hw.imp_right hon

theorem groupErr_some {α : Type} {r : α} {e : CallErr} (h : (groupErr () e).isSome = true) : groupErr r e = some r := by
  cases e <;> simp [groupErr] at h ⊢

theorem wp_serve {name : Text} {cmd args kwargs packet : MsgVal} (hp : packet.members = .ok [.str name, cmd, args, kwargs])
    (h : Served b s name cmd args kwargs) :
    Wp (serve b name cmd args kwargs) s (Answered b s packet) safe := by
  unfold serve
  simp only
  split
  · exact answered_refuse h.fileFits rfl
  · rename_i hknown
    have hknown : knownFile (partition name).1 = true := by simpa using hknown
    rw [wp_attempt]
    refine wp_mono (wp_and (h.command hknown) (wp_groupBackend b (partition name).2 s)) ?_ ?_
    · rintro files s₁ ⟨hfine, hkept⟩
      split
      · exact answered_refuse h.fileFits hkept.sent
      · rename_i kind hkind
        split
        · rename_i c cs
          split
          · rename_i kvs
            have hfine := hfine kind c cs kvs hkind rfl rfl
            rw [wp_bind, wp_get, wp_bind]
            refine wp_mono (wp_dispatch rfl hfine) ?_ fun _ _ h => h
            intro resp s₂ hdone
            rw [wp_ret]
            refine ⟨hdone.sent.trans hkept.sent, ?_, ?_⟩
            · rcases hok : resp.ok with _ | _
              · have hret := hdone.bad hok
                simp only [Bool.false_eq_true, if_false, hret]
                exact dumpAndSend_reply h.cmdFits (packs_none (b := b)).fits (Nat.zero_le _) (packs_none (b := b)).length
              · obtain ⟨hpack, -, -⟩ := hdone.good hok
                simp only [if_true]
                exact dumpAndSend_reply h.cmdFits hpack.fits hpack.depth hpack.length
            · intro hok
              obtain ⟨-, hq, hw⟩ := hdone.good hok
              have hfp : s₁.fp name = s.fp name := by rw [Handler.fp, hkept.fps, Handler.fp]
              rw [hfp] at hw
              exact ⟨(hkept.toQuiet.trans hq).calls, name, c :: cs, args, kvs, kind, hp, by simp, hknown, hkind,
                hw.before hkept.toQuiet⟩
          · exact answered_refuse h.cmdFits hkept.sent
        · exact answered_refuse h.cmdFits hkept.sent
    · rintro e s₁ ⟨hcaught, hsent⟩
      constructor
      · intro r hr
        rw [groupErr_some hcaught] at hr
        cases hr
        exact answered_refuse h.cmdFits hsent
      · intro hn
        rw [groupErr_some hcaught] at hn
        cases hn

/-- **An answerable request has a reply.** -/
theorem wp_request {packet : MsgVal} (h : Answerable b s packet) :
    Wp (request b packet) s (fun r s' => ∃ reply, r = some reply ∧ Answered b s packet reply s') safe := by
  obtain ⟨xs, hxs⟩ := h.parts
  unfold request
  rw [h.nonempty, if_neg (by simp), hxs]
  split
  · rename_i heq
    cases heq
  · rename_i file cmd args kwargs heq
    have hparts : packet.members = .ok [file, cmd, args, kwargs] := by rw [hxs]; exact heq
    obtain ⟨name, rfl, hserved⟩ := h.served file cmd args kwargs hparts
    simp only
    rw [wp_map]
    exact wp_mono (wp_serve hparts hserved) (fun r s' hr => ⟨r, rfl, hr⟩) fun _ _ h => h
  · refine ⟨_, rfl, answered_refuse ?_ rfl⟩
    exact ⟨rfl, by unfold FitsLength; simp⟩

/-- What went well is not changed by sending the reply. -/
theorem Went.withSent {file : Text} {kind : FileKind} {fp : MsgVal} {cmd : Cmd} {sent : List Reply}
    (h : Went s file kind fp cmd s') : Went s file kind fp cmd { s' with sent := sent } := by
  cases kind with
  | lck => exact h
  | key =>
    unfold Went at h ⊢
    exact h
  | val fileId =>
    unfold Went at h ⊢
    exact h

theorem wp_send {r : Reply} (h : ∃ buf, Sock.dumpAndSend msgDumps r.toVal = .ok buf) {Q : Unit → Handler → Prop} :
    Wp (send r) s Q safe ↔ Q () { s with sent := s.sent ++ [r] } := by
  cases h with
  | intro buf hbuf =>
    unfold send
    rw [hbuf]
    exact wp_modify

/-- One turn: exactly one reply goes out. -/
theorem exchange_spec {packet : MsgVal} (h : Answerable b s packet) :
    ∃ s' r, exchange b packet s = (.ok (), s') ∧ s'.sent = s.sent ++ [r] ∧
      (r.ok = true → Success b s packet s') := by
  have hwp : Wp (exchange b packet) s
      (fun _ s' => ∃ r, s'.sent = s.sent ++ [r] ∧ (r.ok = true → Success b s packet s')) safe := by
    unfold exchange
    rw [wp_bind]
    refine wp_mono (wp_request h) ?_ fun _ _ h => h
    rintro _ s₁ ⟨reply, rfl, hans⟩
    dsimp only
    rw [wp_send hans.sends]
    refine ⟨reply, by rw [hans.sent], ?_⟩
    intro hok
    obtain ⟨hcalls, file, cmd, args, kwargs, kind, hp, hne, hknown, hkind, hw⟩ := hans.good hok
    exact ⟨hcalls, file, cmd, args, kwargs, kind, hp, hne, hknown, hkind, hw.withSent⟩
  obtain ⟨_, s', hrun, r, hsent, hgood⟩ := hwp.returns
  exact ⟨s', r, hrun, hsent, hgood⟩

/-! ## The loop -/

/-- Each request is answerable when its turn comes. -/
def Along (b : Backend) : Status × Handler → List MsgVal → Prop
  | _, [] => True
  | st, packet :: packets => Answerable b st.2 packet ∧ Along b (step b st (.packet packet)) packets

/-- The connection after its first `n` requests. -/
def after (b : Backend) (st : Status × Handler) (packets : List MsgVal) (n : ℕ) : Status × Handler :=
  run b st ((packets.take n).map .packet)

theorem step_packet {packet : MsgVal} (h : Answerable b s packet) :
    ∃ s' r, step b (.serving, s) (.packet packet) = (.serving, s') ∧ s'.sent = s.sent ++ [r] ∧
      (r.ok = true → Success b s packet s') := by
  obtain ⟨s', r, hex, hsent, hgood⟩ := exchange_spec h
  refine ⟨s', r, ?_, hsent, hgood⟩
  simp only [step, hex]

theorem after_spec (b : Backend) : ∀ (packets : List MsgVal) (s : Handler), Along b (.serving, s) packets →
    ∀ n ≤ packets.length, (after b (.serving, s) packets n).1 = .serving ∧
      (after b (.serving, s) packets n).2.sent.length = s.sent.length + n ∧
      ∀ packet, packets[n]? = some packet → ∃ r,
        (after b (.serving, s) packets (n + 1)).2.sent = (after b (.serving, s) packets n).2.sent ++ [r] ∧
        (¬ Success b (after b (.serving, s) packets n).2 packet (after b (.serving, s) packets (n + 1)).2 → r.ok = false)
  | [], s, _, n, hn => by
    obtain rfl : n = 0 := Nat.le_zero.1 hn
    exact ⟨rfl, rfl, by simp⟩
  | packet :: packets, s, h, n, hn => by
    obtain ⟨hans, hrest⟩ := h
    have hans : Answerable b s packet := hans
    obtain ⟨s₁, r, hstep, hsent, hgood⟩ := step_packet hans
    rw [hstep] at hrest
    have ih := after_spec b packets s₁ hrest
    have hafter : ∀ m, after b (.serving, s) (packet :: packets) (m + 1) = after b (.serving, s₁) packets m := by
      intro m
      change run b (step b (.serving, s) (.packet packet)) _ = _
      rw [hstep]
      rfl
    cases n with
    | zero =>
      refine ⟨rfl, rfl, ?_⟩
      intro q hq
      cases hq
      rw [hafter 0]
      refine ⟨r, hsent, ?_⟩
      intro hn
      by_contra hok
      exact hn (hgood (by simpa using hok))
    | succ n =>
      obtain ⟨hserving, hlen, hnext⟩ := ih n (by simpa using hn)
      rw [hafter n, hafter (n + 1)]
      refine ⟨hserving, ?_, hnext⟩
      have hsum : s₁.sent.length + n = s.sent.length + (n + 1) := by
        rw [hsent, List.length_append, List.length_singleton]
        omega
      exact hlen.trans hsum

/-- **One reply for each request.** While the requests of a connection are answerable, the loop goes
on, after `n` of them `n` replies are out, and the reply to a request that went wrong says so. -/
theorem run_replies (b : Backend) (files : MsgVal) (packets : List MsgVal) (h : Along b (start files) packets) (n : ℕ)
    (hn : n ≤ packets.length) :
    (after b (start files) packets n).1 = .serving ∧
      (after b (start files) packets n).2.sent.length = n ∧
      ∀ packet, packets[n]? = some packet → ∃ r,
        (after b (start files) packets (n + 1)).2.sent = (after b (start files) packets n).2.sent ++ [r] ∧
        (¬ Success b (after b (start files) packets n).2 packet (after b (start files) packets (n + 1)).2 →
          r.ok = false) := by
  have hspec := after_spec b packets { groupTable := OrdDict.empty.set [] files } h n hn
  rw [List.length_nil, Nat.zero_add] at hspec
  exact hspec

/-- A server whose calls return zero. -/
def zeros : Backend where
  answer := fun _ _ => .ok (.int 0)
  jdb := .obj 0
  filesObj := fun _ => .obj 1
  isReader := fun _ => true
  isMem := fun _ => false
  isDisk := fun _ => false
  ioGroup := fun _ _ _ => none
  groupFiles := fun _ => []
  str := fun _ => []
  typeStr := fun _ => []
  intText := fun _ => none
  int := fun _ => .error .type
  isWord := fun _ => false

/-- `['KEY', 'size', [], {}]`. -/
def sizeRequest : MsgVal := .list [.str (text "KEY"), .str (text "size"), .list [], .dict []]

theorem along_sizeRequest : Along zeros (start (.obj 2)) [sizeRequest, .list [.int 1]] := by
  have hpacks : Packs zeros (.int 0) := by
    refine ⟨⟨by decide, by decide⟩, by decide, ?_⟩
    intro bs hbs
    obtain rfl : bs = [0] := (Except.ok.inj hbs).symm
    simp
  refine ⟨⟨rfl, ⟨_, rfl⟩, ?_⟩, ⟨rfl, ⟨_, rfl⟩, ?_⟩, trivial⟩
  · intro file cmd args kwargs hp
    cases hp
    refine ⟨_, rfl, ⟨by decide, by unfold FitsLength; decide⟩, ⟨by decide, by unfold FitsLength; decide⟩, ?_⟩
    intro _
    change ∀ kind c cs kvs, _
    intro kind c cs kvs hkind hcmd hkwargs
    cases hkwargs
    cases hcmd
    obtain rfl : kind = .key := by
      have : fileKind zeros (partition (text "KEY")).1 = some .key := by decide
      exact Option.some.inj (hkind.symm.trans this)
    exact hpacks
  · intro file cmd args kwargs hp
    cases hp

/-- A request that is answered and one that is refused. -/
theorem run_replies_sizeRequest :
    Along zeros (start (.obj 2)) [sizeRequest, .list [.int 1]] ∧
    (after zeros (start (.obj 2)) [sizeRequest, .list [.int 1]] 2).2.sent.length = 2 :=
  ⟨along_sizeRequest, (run_replies zeros (.obj 2) _ along_sizeRequest 2 (by decide)).2.1⟩

/-- A packet that is a number ends the handler. -/
theorem run_replies_fails :
    ¬ ∀ (b : Backend) (files : MsgVal) (packets : List MsgVal),
      (after b (start files) packets packets.length).1 = .serving ∧
      (after b (start files) packets packets.length).2.sent.length = packets.length := by
  intro h
  have hnumber : (after zeros (start (.obj 2)) [.int 5] 1).1 = .raised .type := rfl
  have := (h zeros (.obj 2) [.int 5]).1
  rw [List.length_singleton, hnumber] at this
  cases this

end ServerHandler

end OmniJsonDb
