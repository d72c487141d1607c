import Mathlib.Data.Int.Notation
import OmniJsonDb.Proof.FileLock

/-!
# Re-entrance

A book is kept beside a `FileLock`: for every thread its acquires less its releases, whether
its call found it reading, and the mode and the counts when it last took the mutex at the head
of the loop of `acquire`.

* `Trans.counts_of_other`: what the others' steps leave of a thread.
* `Due`, `due_step`: the count of a thread wherever it stands in a call.
* `book_balanced`: the book and the counts agree.
-/

namespace OmniJsonDb

namespace FileLock

variable {σ : Type} {os : OsLock σ} {l l' : FileLock} {s s' : σ} {t u : ℕ} {ret : Option LockRet}

/-! ## The others' steps -/

/-- The mode and the counts. -/
def snap (l : FileLock) : LockMode × (ℕ → ℕ) := (l.mode, l.cnt)

theorem Change.snap_eq {k : Option ℕ} {q : Pc} (hc : Change l l' t l.mode (l.cnt t) k q) :
    l'.snap = l.snap := by
  unfold snap
  rw [hc.mode]
  congr 1
  funext u
  rw [hc.cnt]
  split
  · rename_i hu
    rw [hu]
  · rfl

/-- The lock is read by `t`: no step of the others changes the mode. -/
theorem Trans.mode_of_other (h : Trans os u l s ret l' s') (ho : l.Ok) (hu : u ≠ t)
    (ht : 0 < l.cnt t) : l'.mode = l.mode := by
  have hal : ¬ l.Alone u := fun ha => by
    have := ha t (Ne.symm hu)
    omega
  rcases ho.place with hr | ⟨v, hv⟩
  · have hbusy : ∀ q, l.pc u = q → q.Busy → False := fun q hq h => hr.busy u (hq ▸ h)
    cases h with
    | granted hpc | denied hpc | pend hpc | failed hpc | queue hpc | woken hpc | lost hpc
      | published hpc | gaveUp hpc => exact (hbusy _ hpc trivial).elim
    | again _ _ _ hc | held _ _ _ _ _ hc => exact hc.mode
    | first _ _ hm hc => rw [hc.mode, hm]
    | upgrade _ _ _ _ _ ha => exact absurd ha hal
    | release _ _ hs =>
      rcases hs with ⟨-, ha, -⟩ | ⟨-, -, hc⟩
      · exact absurd ha hal
      · exact hc.mode
  · have hvt : v = t := by
      by_contra hvt
      have := hv.others.2 t (Ne.symm hvt)
      omega
    obtain ⟨q, -, hc, -⟩ := h.of_other hv (hvt ▸ Ne.symm hu)
    exact hc.mode

/-- A writer is alone. -/
def Writer (l : FileLock) : Prop := l.mode = .w → ∃ t, 0 < l.cnt t ∧ l.Alone t

/-- One more count for the only one that has any. -/
theorem Change.writer {m : LockMode} {n : ℕ} {k : Option ℕ} {q : Pc} (hc : Change l l' t m n k q)
    (hn : 0 < n) (ha : l.Alone t) : l'.Writer := fun _ =>
  ⟨t, by rw [hc.cnt, if_pos rfl]; exact hn, fun u hu => by rw [hc.cnt, if_neg hu]; exact ha u hu⟩

theorem writer_of_snap (h : l'.snap = l.snap) (hw : l.Writer) : l'.Writer := by
  obtain ⟨hm, hc⟩ := Prod.mk.inj h
  intro hm'
  obtain ⟨t, ht, ha⟩ := hw (hm.symm.trans hm')
  have hcnt : ∀ u, l'.cnt u = l.cnt u := congrFun hc
  exact ⟨t, by rw [hcnt]; exact ht, fun u hu => by rw [hcnt]; exact ha u hu⟩

theorem Trans.writer (h : Trans os t l s ret l' s') (ho : l.Ok) (hw : l.Writer) : l'.Writer := by
  have hvis : ∀ q, l.pc t = q → q.Busy → l.Visitor t := fun q hq hb => ho.visitor (hq ▸ hb)
  have hnw : l.Visitor t → l.mode ≠ .w := fun hv => by
    rcases hv.mode with ⟨hm, -⟩ | ⟨hm, -⟩ <;> simp [hm]
  cases h with
  | again hpc hk hm hc =>
    rcases hm with ⟨hm, -⟩ | ⟨hm, ht⟩
    · intro hw'
      simp [hc.mode, hm] at hw'
    · obtain ⟨u, hu, ha⟩ := hw hm
      have htu : t = u := by
        by_contra htu
        have := ha t htu
        omega
      exact hc.writer (by omega) (htu ▸ ha)
  | held hpc hk hm hn hr hc =>
    rcases hn with rfl | ⟨hm, -⟩
    · exact writer_of_snap hc.snap_eq hw
    · intro hw'
      simp [hc.mode, hm] at hw'
  | first _ _ _ hc | upgrade _ _ _ _ _ _ _ _ hc | pend _ _ _ hc =>
    intro hw'
    simp [hc.mode] at hw'
  | granted hpc _ hc => exact hc.writer (by omega) (hvis _ hpc trivial).others.2
  | published hpc _ _ hc => exact hc.writer (by omega) (hvis _ hpc trivial).others.2
  | denied hpc _ _ hc =>
    intro hw'
    rw [hc.mode] at hw'
    split at hw'
    · simp at hw'
    · exact absurd hw' (hnw (hvis _ hpc trivial))
  | failed hpc _ _ hc | queue hpc hc | woken hpc _ hc | lost hpc _ _ hc =>
    exact writer_of_snap hc.snap_eq hw
  | gaveUp hpc _ _ hc =>
    intro hw'
    rw [hc.mode] at hw'
    split at hw'
    · simp at hw'
    · exact absurd hw' (hnw (hvis _ hpc trivial))
  | release hk hpc hs =>
    rcases hs with ⟨-, -, -, hc⟩ | ⟨hn, -, hc⟩
    · intro hw'
      simp [hc.mode] at hw'
    · intro hw'
      rw [hc.mode] at hw'
      obtain ⟨u, hu, ha⟩ := hw hw'
      by_cases htu : t = u
      · subst htu
        have : l.cnt t ≠ 1 := fun h1 => hn ⟨h1, ha⟩
        exact hc.writer (by omega) ha (hc.mode.trans hw')
      · have h0 := ha t htu
        have hc' : Change l l' t l.mode (l.cnt t) none .idle := by
          rw [h0] at hc ⊢
          exact hc
        exact writer_of_snap hc'.snap_eq hw (hc.mode.trans hw')

/-- While `t` writes, no step of the others changes anything. -/
theorem Trans.snap_of_writer (h : Trans os u l s ret l' s') (ho : l.Ok) (hw : l.Writer) (hu : u ≠ t)
    (hm : l.mode = .w) (ht : 0 < l.cnt t) : l'.snap = l.snap := by
  obtain ⟨w, -, ha⟩ := hw hm
  have hwt : w = t := by
    by_contra hwt
    have := ha t (Ne.symm hwt)
    omega
  have h0 : l.cnt u = 0 := ha u (hwt ▸ hu)
  have hvis : ∀ q, l.pc u = q → q.Busy → False := fun q hq hb => by
    rcases (ho.visitor (hq ▸ hb)).mode with ⟨hm', -⟩ | ⟨hm', -⟩ <;> simp [hm] at hm'
  cases h with
  | granted hpc | denied hpc | pend hpc | failed hpc | queue hpc | woken hpc | lost hpc
    | published hpc | gaveUp hpc => exact (hvis _ hpc trivial).elim
  | again hpc hk hm' hc =>
    rcases hm' with ⟨hm', -⟩ | ⟨-, hm'⟩
    · simp [hm] at hm'
    · omega
  | held hpc hk hm' hn hr hc =>
    rcases hn with rfl | ⟨hm', -⟩
    · exact hc.snap_eq
    · simp [hm] at hm'
  | first _ _ hm' => simp [hm] at hm'
  | upgrade _ _ hm' => simp [hm] at hm'
  | release hk hpc hs =>
    rcases hs with ⟨h1, -⟩ | ⟨-, -, hc⟩
    · omega
    · have hc' : Change l l' u l.mode (l.cnt u) none .idle := by
        rw [h0] at hc ⊢
        exact hc
      exact hc'.snap_eq

/-! ## The book -/

end FileLock

/-- Callables that behave as a shared and exclusive lock: all they ever raise is `BlockingIOError`. -/
structure SharedExclusive {σ : Type} (os : OsLock σ) : Prop where
  rlock : ∀ s e, os.rlock s = .error e → e = .blocking
  wlock : ∀ s e, os.wlock s = .error e → e = .blocking

/-- A `FileLock`, its store, and the book kept of its threads. -/
structure Book (σ : Type) where
  lock : FileLock := {}
  store : σ
  /-- Acquires less releases. -/
  net : ℕ → ℤ := fun _ => 0
  /-- The call under way was made by a thread that held the lock to read. -/
  held : ℕ → Bool := fun _ => false
  /-- The mode and the counts when the thread last began a pass of `acquire`. -/
  mark : ℕ → LockMode × (ℕ → ℕ) := fun _ => (.free, fun _ => 0)

/-- What happens at a step; other processes use the store too. -/
inductive BookEv (σ : Type) where
  | call (t : ℕ) (c : LockCall)
  | run (t : ℕ) (ret : Option LockRet)
  | other (s : σ)

namespace Book

open FileLock

variable {σ : Type} {os : OsLock σ} {b b' : Book σ} {t u : ℕ} {ret : Option LockRet} {c : LockCall}

/-- `acquire(switch=True)` to write, by a thread that reads: a level is exchanged. -/
def swaps (b : Book σ) (t : ℕ) (a : Acquire) : Bool := a.switch && !a.readOnly && b.held t

/-- What the end of a call adds to the book. -/
def gain (b : Book σ) (t : ℕ) : Option LockRet → ℤ
  | some .acquired =>
    match b.lock.pc t with
    | .enter a _ | .tries a _ | .back a _ _ => if b.swaps t a then 0 else 1
    | _ => 1
  | some (.released true) => -1
  | _ => 0

/-- The steps, and what is written into the book. -/
inductive Step (os : OsLock σ) (b : Book σ) : BookEv σ → Book σ → Prop
  | call {t c l} (h : b.lock.begin t c = some l) :
      Step os b (.call t c)
        { b with
          lock := l
          held := Function.update b.held t (decide (b.lock.mode = .r ∧ 0 < b.lock.cnt t)) }
  | run {t ret l s} (h : b.lock.run os t b.store = some (ret, l, s)) :
      Step os b (.run t ret)
        { b with
          lock := l
          store := s
          net := Function.update b.net t (b.net t + b.gain t ret)
          mark := match b.lock.pc t with
            | .enter _ _ => Function.update b.mark t b.lock.snap
            | _ => b.mark }
  | other (s : σ) : Step os b (.other s) { b with store := s }

/-- The calls a thread that reads does not make: `can_lock`, and a `switch` that is not to wait. -/
def Rash (b : Book σ) : BookEv σ → Prop
  | .call t c => b.lock.mode = .r ∧ 0 < b.lock.cnt t ∧ match c with
      | .canLock => True
      | .acquire a => a.switch = true ∧ a.readOnly = false ∧ a.block = false
      | .release => False
  | _ => False

/-- Steps without such calls. -/
def Fair (os : OsLock σ) (b : Book σ) (e : BookEv σ) (b' : Book σ) : Prop := b.Step os e b' ∧ ¬ b.Rash e

/-! ## What is due to a thread -/

/-- What the call under way may be: `can_lock` was not made by a reader, nor a `switch` that is
not to wait. -/
structure Fits (b : Book σ) (t : ℕ) (a : Acquire) (probe : Bool) : Prop where
  probe : probe = true → a = { block := false } ∧ b.held t = false
  nowait : a.block = false → b.swaps t a = false

/-- The count of a thread that asks for the lock: as in the book, or a level less. -/
def Owes (b : Book σ) (t : ℕ) (a : Acquire) : Prop :=
  (b.lock.cnt t : ℤ) = b.net t - if b.swaps t a then 1 else 0

/-- The call found the thread as it is. -/
def Fresh (b : Book σ) (t : ℕ) : Prop :=
  (b.lock.cnt t : ℤ) = b.net t ∧ (b.held t = true ↔ b.lock.mode = .r ∧ 0 < b.lock.cnt t)

/-- **What is due to a thread**, wherever it stands. -/
def Due (b : Book σ) (t : ℕ) : Prop :=
  match b.lock.pc t with
  | .idle | .release => (b.lock.cnt t : ℤ) = b.net t
  | .enter a probe => b.Fits t a probe ∧ (b.Fresh t ∨ b.swaps t a = true ∧ b.Owes t a ∧ b.lock.cnt t = 0)
  | .waits a probe => b.Fits t a probe ∧ (b.Fresh t ∨ b.swaps t a = true ∧ b.Owes t a)
  | .tries a probe => b.Fits t a probe ∧ b.Owes t a ∧ (0 < b.lock.cnt t → b.held t = true) ∧
      (a.block = false → b.mark t = (if 0 < b.lock.cnt t then .r else .free, b.lock.cnt))
  | .pends a probe | .blocks a probe => b.Fits t a probe ∧ b.Owes t a ∧ a.block = true
  | .back a probe ok => b.Fits t a probe ∧ b.Owes t a ∧ a.block = true ∧ ok = true
  | .closing (some true) => (b.lock.cnt t : ℤ) = b.net t + 1 ∧ b.lock.mode = .w ∧ 0 < b.lock.cnt t ∧
      b.mark t = (if b.lock.cnt t = 1 then .free else .w, Function.update b.lock.cnt t (b.lock.cnt t - 1))
  | .closing (some false) => (b.lock.cnt t : ℤ) = b.net t ∧ b.lock.cnt t = 0
  | .closing none | .stray _ _ => False

/-- What a step of another thread leaves of a thread. -/
structure Frame (b b' : Book σ) (t : ℕ) : Prop where
  cnt : b'.lock.cnt t = b.lock.cnt t
  net : b'.net t = b.net t
  held : b'.held t = b.held t
  mark : b'.mark t = b.mark t
  mode : 0 < b.lock.cnt t → b'.lock.mode = b.lock.mode
  snap : ((∃ a probe, b.lock.pc t = .tries a probe) ∨ b.lock.pc t = .closing (some true) ∧
    b.lock.mode = .w ∧ 0 < b.lock.cnt t) → b'.lock.snap = b.lock.snap
  pc : b'.lock.pc t = b.lock.pc t ∨
    ∃ a probe, b.lock.pc t = .waits a probe ∧ b'.lock.pc t = .enter a probe ∧ b.lock.cnt t = 0

theorem Frame.fresh (h : Frame b b' t) (hf : b.Fresh t) : b'.Fresh t := by
  obtain ⟨hn, hh⟩ := hf
  refine ⟨by rw [h.cnt, h.net, hn], ?_⟩
  rw [h.held, hh, h.cnt]
  constructor
  · rintro ⟨hm, ht⟩
    exact ⟨(h.mode ht).trans hm, ht⟩
  · rintro ⟨hm, ht⟩
    exact ⟨(h.mode ht).symm.trans hm, ht⟩

theorem Frame.swaps (h : Frame b b' t) (a : Acquire) : b'.swaps t a = b.swaps t a := by
  unfold Book.swaps
  rw [h.held]

theorem Frame.owes (h : Frame b b' t) {a : Acquire} (ho : b.Owes t a) : b'.Owes t a := by
  unfold Owes at ho ⊢
  rw [h.cnt, h.net, h.swaps, ho]

theorem Frame.fits (h : Frame b b' t) {a : Acquire} {probe : Bool} (hf : b.Fits t a probe) :
    b'.Fits t a probe := by
  refine ⟨fun hp => ?_, fun hb => ?_⟩
  · rw [h.held]
    exact hf.probe hp
  · rw [h.swaps]
    exact hf.nowait hb

/-- What is due to a thread stays due while the others step. -/
theorem Due.frame (h : Frame b b' t) (hd : b.Due t) : b'.Due t := by
  have hcnt : b'.lock.snap = b.lock.snap → b'.lock.cnt = b.lock.cnt ∧ b'.lock.mode = b.lock.mode :=
    fun hs => ⟨(Prod.mk.inj hs).2, (Prod.mk.inj hs).1⟩
  rcases h.pc with hpc | ⟨a, probe, hpc, hpc', h0⟩
  · unfold Due at hd ⊢
    rw [hpc]
    split at hd
    · rw [h.cnt, h.net, hd]
    · rw [h.cnt, h.net, hd]
    · exact ⟨h.fits hd.1, hd.2.imp h.fresh fun hs => ⟨by rw [h.swaps, hs.1], h.owes hs.2.1, by rw [h.cnt, hs.2.2]⟩⟩
    · exact ⟨h.fits hd.1, hd.2.imp h.fresh fun hs => ⟨by rw [h.swaps, hs.1], h.owes hs.2⟩⟩
    · rename_i a probe hpc
      have hc := (hcnt (h.snap (.inl ⟨a, probe, hpc⟩))).1
      exact ⟨h.fits hd.1, h.owes hd.2.1, by rw [h.held, hc]; exact hd.2.2.1, by rw [h.mark, hc]; exact hd.2.2.2⟩
    · exact ⟨h.fits hd.1, h.owes hd.2.1, hd.2.2⟩
    · exact ⟨h.fits hd.1, h.owes hd.2.1, hd.2.2⟩
    · exact ⟨h.fits hd.1, h.owes hd.2.1, hd.2.2⟩
    · rename_i hpc
      obtain ⟨hn, hm, h0, hmark⟩ := hd
      obtain ⟨hc, hm'⟩ := hcnt (h.snap (.inr ⟨hpc, hm, h0⟩))
      exact ⟨by rw [hc, h.net, hn], hm'.trans hm, by rw [hc]; exact h0, by rw [h.mark, hc]; exact hmark⟩
    · rw [h.cnt, h.net]
      exact hd
    · exact hd
    · exact hd
  · unfold Due at hd ⊢
    simp only [hpc, hpc'] at hd ⊢
    exact ⟨h.fits hd.1, hd.2.imp h.fresh fun hs => ⟨by rw [h.swaps, hs.1], h.owes hs.2, by rw [h.cnt, h0]⟩⟩

/-- **The invariant of the book.** -/
structure Inv (b : Book σ) : Prop where
  ok : b.lock.Ok
  writer : b.lock.Writer
  due : ∀ t, b.Due t

theorem inv_init (s : σ) : Inv { store := s } where
  ok := ok_init
  writer hm := by simp at hm
  due t := by simp [Due, cnt]

/-- The steps of the others. -/
theorem frame_of_trans {s' : σ} {l' : FileLock} (hi : b.Inv) (hu : u ≠ t)
    (h : Trans os u b.lock b.store ret l' s') (hb : b'.lock = l') (hnet : b'.net t = b.net t)
    (hheld : b'.held t = b.held t) (hmark : b'.mark t = b.mark t) : Frame b b' t := by
  obtain ⟨m, n, k, q, -, hc⟩ := h.change hi.ok.opened
  subst hb
  refine ⟨by rw [hc.cnt, if_neg (Ne.symm hu)], hnet, hheld, hmark, h.mode_of_other hi.ok hu, ?_, ?_⟩
  · rintro (⟨a, probe, hpc⟩ | ⟨-, hm, h0⟩)
    · have hv := hi.ok.visitor (t := t) (by rw [hpc]; trivial)
      obtain ⟨q, -, hc, -⟩ := h.of_other hv (Ne.symm hu)
      rw [← hv.others.2 u hu] at hc
      exact hc.snap_eq
    · exact h.snap_of_writer hi.ok hi.writer hu hm h0
  · rcases hc.goes.others t (Ne.symm hu) with he | ⟨a, probe, he, he'⟩
    · exact .inl he
    · rcases hc.wakes t (Ne.symm hu) with hw | ha
      · rw [he, he'] at hw
        cases hw
      · exact .inr ⟨a, probe, he, he', ha t (Ne.symm hu)⟩

/-- A call begins. -/
theorem Inv.call {l : FileLock} (hi : b.Inv) (h : b.lock.begin t c = some l)
    (hr : ¬ b.Rash (.call t c)) : Inv { b with
      lock := l
      held := Function.update b.held t (decide (b.lock.mode = .r ∧ 0 < b.lock.cnt t)) } := by
  obtain ⟨hidle, q, hq, hc⟩ := begin_change h
  refine ⟨begin_ok hi.ok h, writer_of_snap hc.snap_eq hi.writer, fun u => ?_⟩
  obtain ⟨hm, hcnt⟩ := Prod.mk.inj hc.snap_eq
  by_cases hu : u = t
  · subst hu
    have hd := hi.due u
    unfold FileLock.begin at h
    rw [if_pos hidle] at h
    simp only [Due, hidle] at hd
    cases h
    have hfresh : ∀ {b' : Book σ}, b'.lock.cnt u = b.lock.cnt u → b'.net u = b.net u →
        b'.held u = decide (b.lock.mode = .r ∧ 0 < b.lock.cnt u) → b'.lock.mode = b.lock.mode → b'.Fresh u := by
      intro b' hc hn hh hm
      refine ⟨by rw [hc, hn, hd], ?_⟩
      rw [hh, hc, hm, decide_eq_true_iff]
    cases c with
    | release =>
      simp only [Due, goto, Function.update_self]
      exact hd
    | acquire a =>
      simp only [Due, goto, Function.update_self]
      refine ⟨⟨by simp, fun hb => ?_⟩, .inl (hfresh rfl rfl (by simp) rfl)⟩
      by_contra hs
      simp only [swaps, Function.update_self, Bool.not_eq_false, Bool.and_eq_true, Bool.not_eq_true',
        decide_eq_true_eq] at hs
      exact hr ⟨hs.2.1, hs.2.2, hs.1.1, hs.1.2, hb⟩
    | canLock =>
      simp only [Due, goto, Function.update_self]
      refine ⟨⟨fun _ => ⟨rfl, ?_⟩, fun _ => by simp [swaps]⟩, .inl (hfresh rfl rfl (by simp) rfl)⟩
      simp only [Function.update_self, decide_eq_false_iff_not]
      rintro ⟨hm, h0⟩
      exact hr ⟨hm, h0, trivial⟩
  · refine Due.frame ⟨congrFun hcnt u, rfl, by simp [hu], rfl, fun _ => hm, fun _ => hc.snap_eq, ?_⟩ (hi.due u)
    rcases hc.goes.others u hu with he | ⟨a, probe, he, he'⟩
    · exact .inl he
    · rcases hc.wakes u hu with hw | ha
      · exact .inl hw
      · exact .inr ⟨a, probe, he, he', ha u hu⟩

/-- The book after a step of `t`. -/
def ran (b : Book σ) (t : ℕ) (ret : Option LockRet) (l : FileLock) (s : σ) : Book σ :=
  { b with
    lock := l
    store := s
    net := Function.update b.net t (b.net t + b.gain t ret)
    mark := match b.lock.pc t with
      | .enter _ _ => Function.update b.mark t b.lock.snap
      | _ => b.mark }

@[simp] theorem ran_lock (b : Book σ) (t : ℕ) (ret : Option LockRet) (l : FileLock) (s : σ) :
    (b.ran t ret l s).lock = l := rfl

@[simp] theorem ran_held (b : Book σ) (t : ℕ) (ret : Option LockRet) (l : FileLock) (s : σ) :
    (b.ran t ret l s).held = b.held := rfl

/-- While a call goes on, nothing is entered. -/
@[simp] theorem ran_net (b : Book σ) (t : ℕ) (l : FileLock) (s : σ) :
    (b.ran t none l s).net t = b.net t := by
  simp [ran, gain]

@[simp] theorem ran_swaps (b : Book σ) (t : ℕ) (ret : Option LockRet) (l : FileLock) (s : σ) (a : Acquire) :
    (b.ran t ret l s).swaps t a = b.swaps t a := rfl

theorem ran_owes {l : FileLock} {s : σ} {a : Acquire} :
    (b.ran t none l s).Owes t a ↔ (l.cnt t : ℤ) = b.net t - if b.swaps t a then 1 else 0 := by
  unfold Owes
  rw [ran_net]
  rfl

theorem Fits.ran {a : Acquire} {probe : Bool} (h : b.Fits t a probe) (ret : Option LockRet)
    (l : FileLock) (s : σ) : (b.ran t ret l s).Fits t a probe :=
  ⟨h.probe, h.nowait⟩

/-- The mark is made at the head of the loop. -/
theorem ran_mark_enter {a : Acquire} {probe : Bool} (h : b.lock.pc t = .enter a probe)
    (ret : Option LockRet) (l : FileLock) (s : σ) : (b.ran t ret l s).mark t = b.lock.snap := by
  simp [Book.ran, h]

theorem ran_mark {q : Pc} (h : b.lock.pc t = q) (hq : ∀ a probe, q ≠ .enter a probe)
    (ret : Option LockRet) (l : FileLock) (s : σ) : (b.ran t ret l s).mark = b.mark := by
  unfold Book.ran
  dsimp only
  rw [h]
  split
  · exact absurd rfl (hq _ _)
  · rfl

theorem ran_mark_of_ne (hu : u ≠ t) (b : Book σ) (ret : Option LockRet) (l : FileLock) (s : σ) :
    (b.ran t ret l s).mark u = b.mark u := by
  cases hpc : b.lock.pc t with
  | enter a probe => simp [Book.ran, hpc, Function.update_of_ne hu]
  | _ => rw [ran_mark hpc (by simp)]

/-- An `acquire` that is refused, with its count as in the book. -/
theorem due_refused {l : FileLock} {s : σ} {probe : Bool} (hpc : l.pc t = (after probe .refused).2)
    (hn : (l.cnt t : ℤ) = b.net t) (h0 : probe = true → l.cnt t = 0) :
    (b.ran t (after probe .refused).1 l s).Due t := by
  cases probe with
  | false =>
    have hpc : l.pc t = .idle := hpc
    simp [Due, ran, hpc, after, gain, hn]
  | true =>
    have hpc : l.pc t = .closing (some false) := hpc
    simp only [Due, ran, hpc, after, if_true, gain, Function.update_self, Int.add_zero]
    exact ⟨hn, h0 rfl⟩

/-- An `acquire` that is done: the call returns, or `can_lock` goes on to release. -/
theorem due_acquired {l : FileLock} {s : σ} {probe : Bool} (hpc : l.pc t = (after probe .acquired).2)
    (hn : probe = false → (l.cnt t : ℤ) = b.net t + b.gain t (some .acquired))
    (hp : probe = true → (l.cnt t : ℤ) = b.net t + 1 ∧ l.mode = .w ∧ 0 < l.cnt t ∧
      (b.ran t none l s).mark t = (if l.cnt t = 1 then .free else .w, Function.update l.cnt t (l.cnt t - 1))) :
    (b.ran t (after probe .acquired).1 l s).Due t := by
  cases probe with
  | false =>
    have hpc : l.pc t = .idle := hpc
    simp [Due, ran, hpc, after, hn rfl]
  | true =>
    have hpc : l.pc t = .closing (some true) := hpc
    obtain ⟨hn, hm, h0, hmark⟩ := hp rfl
    simp only [Due, ran, hpc, after, if_true, gain, Function.update_self, Int.add_zero]
    exact ⟨hn, hm, h0, hmark⟩

/-- A thread with a count that is not at the store reads or writes. -/
theorem mode_of_cnt {l : FileLock} (ho : l.Ok) (hb : ¬ (l.pc t).Busy) (h0 : 0 < l.cnt t) :
    l.mode = .r ∨ l.mode = .w := by
  rcases ho.place with hr | ⟨v, hv⟩
  · have hf : l.mode ≠ .free := fun hf => by
      have := hr.free.1 hf t
      omega
    have hp := hr.mode
    have hx := ho.opened
    cases hm : l.mode <;> simp_all
  · have hvt : t ≠ v := by
      rintro rfl
      exact hb hv.isBusy
    have := hv.others.2 t hvt
    omega

theorem cnt_of_free {l : FileLock} (ho : l.Ok) (hk : l.lock = none) (hf : l.mode = .free) (u : ℕ) :
    l.cnt u = 0 := by
  rcases ho.place with hr | ⟨v, hv⟩
  · exact hr.free.1 hf u
  · rcases hv.mode with ⟨-, hl⟩ | ⟨hm, -⟩
    · simp [hk] at hl
    · simp [hf] at hm

/-- The counts but that of `t`. -/
theorem update_cnt {l l' : FileLock} {m : LockMode} {n : ℕ} {k : Option ℕ} {q : Pc}
    (hc : Change l l' t m n k q) : Function.update l'.cnt t (l.cnt t) = l.cnt := by
  funext u
  by_cases hu : u = t
  · rw [hu, Function.update_self]
  · rw [Function.update_of_ne hu, hc.cnt, if_neg hu]

theorem Fits.not_swaps {a : Acquire} {probe : Bool} (hf : b.Fits t a probe) (hp : probe = true) :
    b.swaps t a = false := by
  simp [swaps, (hf.probe hp).2]

section Self

variable {l' : FileLock} {s' : σ} {a : Acquire} {probe : Bool} {n : ℕ} {m : LockMode} {k : Option ℕ} {q : Pc}

theorem swaps_iff : b.swaps t a = true ↔ a.switch = true ∧ a.readOnly = false ∧ b.held t = true := by
  simp [swaps, and_assoc]

/-- One more reader, or the writer again. -/
theorem due_again (hd : b.Due t) (hpc : b.lock.pc t = .enter a probe)
    (hm : b.lock.mode = .r ∧ a.readOnly = true ∧ (∃ u, 0 < b.lock.cnt u) ∨ b.lock.mode = .w ∧ 0 < b.lock.cnt t)
    (hc : Change b.lock l' t b.lock.mode (b.lock.cnt t + 1) none (after probe .acquired).2) :
    (b.ran t (after probe .acquired).1 l' s').Due t := by
  simp only [Due, hpc] at hd
  obtain ⟨hf, hd⟩ := hd
  have hcnt : l'.cnt t = b.lock.cnt t + 1 := by rw [hc.cnt, if_pos rfl]
  -- a thread that has given a level back has none left, and does not read only
  have hd : b.Fresh t := hd.resolve_right fun hd => by
    have hro := (swaps_iff.1 hd.1).2.1
    rcases hm with ⟨-, hm, -⟩ | ⟨-, hm⟩
    · simp [hro] at hm
    · omega
  have hs : b.swaps t a = false := by
    by_contra hs
    obtain ⟨-, hro, hh⟩ := swaps_iff.1 (by simpa using hs)
    have := hd.2.1 hh
    rcases hm with ⟨-, hm, -⟩ | ⟨hm, -⟩
    · simp [hro] at hm
    · simp [hm] at this
  refine due_acquired hc.goes.at_ (fun _ => ?_) fun hp => ?_
  · simp [gain, hpc, hs, hcnt, hd.1]
  · obtain ⟨hm, h0⟩ := hm.resolve_left fun hm => by simp [(hf.probe hp).1] at hm
    refine ⟨by simp [hcnt, hd.1], hc.mode.trans hm, by omega, ?_⟩
    have hne : l'.cnt t ≠ 1 := by omega
    have hu := update_cnt hc
    rw [ran_mark_enter hpc, if_neg hne, hcnt, Nat.add_sub_cancel, hu, snap, hm]

/-- The mode is taken. -/
theorem due_held (ho : b.lock.Ok) (hd : b.Due t) (hpc : b.lock.pc t = .enter a probe)
    (hn : n = b.lock.cnt t ∨ b.lock.mode = .r ∧ a.readOnly = false ∧ a.switch = true ∧
      n + 1 = b.lock.cnt t ∧ (0 < n ∨ ¬ b.lock.Alone t))
    (hr : 0 < b.lock.cnt t → b.lock.mode ≠ .w)
    (hc : Change b.lock l' t b.lock.mode n none (if a.block then .waits a probe else (after probe .refused).2)) :
    (b.ran t (if a.block then none else (after probe .refused).1) l' s').Due t := by
  simp only [Due, hpc] at hd
  obtain ⟨hf, hd⟩ := hd
  have hcnt : l'.cnt t = n := by rw [hc.cnt, if_pos rfl]
  -- a level is given back only by a thread the call found reading
  have hswaps : b.Fresh t → n + 1 = b.lock.cnt t → b.lock.mode = .r → a.readOnly = false →
      a.switch = true → b.swaps t a = true := fun hd hn hm hro hsw =>
    swaps_iff.2 ⟨hsw, hro, hd.2.2 ⟨hm, by omega⟩⟩
  cases hb : a.block with
  | true =>
    have hpc' : l'.pc t = .waits a probe := by simpa [hb] using hc.goes.at_
    simp only [Due, ran_lock, hpc', if_true, ran_owes, Fresh, ran_net, ran_held, ran_swaps, hcnt, hc.mode]
    refine ⟨hf.ran _ _ _, ?_⟩
    rcases hd with hd | ⟨hs, ho, h0⟩
    · rcases hn with rfl | ⟨hm, hro, hsw, hn, -⟩
      · exact .inl hd
      · have hs := hswaps hd hn hm hro hsw
        refine .inr ⟨hs, ?_⟩
        rw [hs, if_pos rfl, ← hd.1]
        omega
    · obtain rfl : n = b.lock.cnt t := by omega
      exact .inr ⟨hs, ho⟩
  | false =>
    have hs := hf.nowait hb
    have hd : b.Fresh t := hd.resolve_right fun hd => by simp [hs] at hd
    have hn : n = b.lock.cnt t := hn.resolve_right fun hn => by
      have := hswaps hd hn.2.2.2.1 hn.1 hn.2.1 hn.2.2.1
      simp [hs] at this
    have hpc' : l'.pc t = (after probe .refused).2 := by simpa [hb] using hc.goes.at_
    refine due_refused hpc' ?_ fun hp => ?_
    · rw [hcnt, hn, hd.1]
    · by_contra h0
      have h0 : 0 < b.lock.cnt t := by omega
      rcases mode_of_cnt ho (by rw [hpc]; exact id) h0 with hm | hm
      · simpa [(hf.probe hp).2] using hd.2.2 ⟨hm, h0⟩
      · exact hr h0 hm

/-- On to the store: nobody held the lock, or `t` alone did, to read. -/
theorem due_tries (hd : b.Due t) (hpc : b.lock.pc t = .enter a probe)
    (hcase : b.lock.mode = .free ∧ b.lock.cnt t = 0 ∧ n = 0 ∨
      b.lock.mode = .r ∧ a.readOnly = false ∧ 0 < b.lock.cnt t ∧ n + (if a.switch then 1 else 0) = b.lock.cnt t)
    (hc : Change b.lock l' t .free n (some t) (.tries a probe)) : (b.ran t none l' s').Due t := by
  simp only [Due, hpc] at hd
  obtain ⟨hf, hd⟩ := hd
  have hcnt : l'.cnt t = n := by rw [hc.cnt, if_pos rfl]
  have hsame : n = b.lock.cnt t → l'.cnt = b.lock.cnt := fun hn => by
    have := update_cnt hc
    rwa [← hn, ← hcnt, Function.update_eq_self] at this
  simp only [Due, ran_lock, hc.goes.at_, ran_owes, ran_held, hcnt, ran_mark_enter hpc]
  refine ⟨hf.ran _ _ _, ?_⟩
  rcases hcase with ⟨hm, h0, rfl⟩ | ⟨hm, hro, h0, hn⟩
  · refine ⟨?_, by omega, fun _ => ?_⟩
    · rcases hd with hd | ⟨hs, ho, -⟩
      · have hs : b.swaps t a = false := by
          by_contra hs
          have := hd.2.1 (swaps_iff.1 (by simpa using hs)).2.2
          simp [hm] at this
        rw [hs, ← hd.1, h0]
        simp
      · rw [Owes, h0] at ho
        exact ho
    · rw [snap, hm, hsame h0.symm, if_neg (by omega)]
  · have hd : b.Fresh t := hd.resolve_right fun hd => by omega
    have hh : b.held t = true := hd.2.2 ⟨hm, h0⟩
    have hs : b.swaps t a = a.switch := by simp [swaps, hro, hh]
    refine ⟨?_, fun _ => hh, fun hb => ?_⟩
    · rw [hs, ← hd.1]
      split at hn <;> simp_all
      omega
    · have hsw : a.switch = false := by rw [← hs]; exact hf.nowait hb
      obtain rfl : n = b.lock.cnt t := by simpa [hsw] using hn
      rw [snap, hm, hsame rfl, if_pos h0]

/-- The store gives the lock at once. -/
theorem due_granted (hd : b.Due t) (hpc : b.lock.pc t = .tries a probe)
    (hc : Change b.lock l' t (wanted a) (b.lock.cnt t + 1) none (after probe .acquired).2) :
    (b.ran t (after probe .acquired).1 l' s').Due t := by
  simp only [Due, hpc] at hd
  obtain ⟨hf, ho, hh, hmark⟩ := hd
  have hcnt : l'.cnt t = b.lock.cnt t + 1 := by rw [hc.cnt, if_pos rfl]
  unfold Owes at ho
  refine due_acquired hc.goes.at_ (fun _ => ?_) fun hp => ?_
  · simp only [gain, hpc, hcnt]
    split at ho <;> simp_all
  · obtain ⟨ha, hheld⟩ := hf.probe hp
    have h0 : b.lock.cnt t = 0 := by
      by_contra h0
      simpa [hheld] using hh (by omega)
    have hu := update_cnt hc
    have hmark := hmark (by rw [ha])
    rw [hf.not_swaps hp, h0] at ho
    rw [h0] at hcnt hu
    refine ⟨by rw [hcnt]; simp at ho ⊢; omega, by simp [hc.mode, wanted, ha], by omega, ?_⟩
    rw [ran_mark hpc (by simp), hmark, hcnt, h0, if_pos rfl]
    simp [hu]

/-- The store refuses, and the call was not to wait. -/
theorem due_denied (hd : b.Due t) (hpc : b.lock.pc t = .tries a probe) (hb : a.block = false)
    (hc : Change b.lock l' t m (b.lock.cnt t) none (after probe .refused).2) :
    (b.ran t (after probe .refused).1 l' s').Due t := by
  simp only [Due, hpc] at hd
  obtain ⟨hf, ho, hh, -⟩ := hd
  have hcnt : l'.cnt t = b.lock.cnt t := by rw [hc.cnt, if_pos rfl]
  rw [Owes, hf.nowait hb] at ho
  refine due_refused hc.goes.at_ (by rw [hcnt, ho]; simp) fun hp => ?_
  by_contra h0
  simpa [(hf.probe hp).2] using hh (by omega)

/-- In the store call that blocks. -/
theorem due_waiting (hd : b.Fits t a probe ∧ b.Owes t a ∧ a.block = true)
    (hq : q = .pends a probe ∨ q = .blocks a probe ∨ q = .back a probe true)
    (hc : Change b.lock l' t m (b.lock.cnt t) k q) : (b.ran t none l' s').Due t := by
  have hcnt : l'.cnt t = b.lock.cnt t := by rw [hc.cnt, if_pos rfl]
  have ho := hd.2.1
  unfold Owes at ho
  have hpc := hc.goes.at_
  rcases hq with rfl | rfl | rfl
  · simp only [Due, ran_lock, hpc, ran_owes, hcnt]
    exact ⟨hd.1.ran _ _ _, ho, hd.2.2⟩
  · simp only [Due, ran_lock, hpc, ran_owes, hcnt]
    exact ⟨hd.1.ran _ _ _, ho, hd.2.2⟩
  · simp only [Due, ran_lock, hpc, ran_owes, hcnt]
    exact ⟨hd.1.ran _ _ _, ho, hd.2.2, trivial⟩

/-- The lock the store gave in the end. -/
theorem due_published (hd : b.Due t) (hpc : b.lock.pc t = .back a probe true)
    (hc : Change b.lock l' t (wanted a) (b.lock.cnt t + 1) none (after probe .acquired).2) :
    (b.ran t (after probe .acquired).1 l' s').Due t := by
  simp only [Due, hpc] at hd
  obtain ⟨hf, ho, hb, -⟩ := hd
  have hcnt : l'.cnt t = b.lock.cnt t + 1 := by rw [hc.cnt, if_pos rfl]
  unfold Owes at ho
  refine due_acquired hc.goes.at_ (fun _ => ?_) fun hp => ?_
  · simp only [gain, hpc, hcnt]
    split at ho <;> simp_all
  · simp [(hf.probe hp).1] at hb

/-- A release. -/
theorem due_released {r : LockRet} (hd : b.Due t)
    (hpc : b.lock.pc t = .release ∧ r = .released (decide (0 < b.lock.cnt t)) ∨
      ∃ res, b.lock.pc t = .closing res ∧ r = match res with
        | some ok => .probed ok
        | none => .raised)
    (hc : Change b.lock l' t m (b.lock.cnt t - 1) none .idle) : (b.ran t (some r) l' s').Due t := by
  have hcnt : l'.cnt t = b.lock.cnt t - 1 := by rw [hc.cnt, if_pos rfl]
  simp only [Due, hc.goes.at_, hcnt, ran, Function.update_self]
  rcases hpc with ⟨hpc, rfl⟩ | ⟨res, hpc, rfl⟩
  · simp only [Due, hpc] at hd
    by_cases h0 : 0 < b.lock.cnt t
    · simp [gain, h0]
      omega
    · simp [gain, h0]
      omega
  · rcases res with _ | _ | _
    · simp [Due, hpc] at hd
    · simp only [Due, hpc] at hd
      simp only [gain]
      omega
    · simp only [Due, hpc] at hd
      simp only [gain]
      omega

end Self

/-- **What is due to the thread that steps.** -/
theorem due_self {s' : σ} {l' : FileLock} (hos : SharedExclusive os) (hi : b.Inv)
    (h : Trans os t b.lock b.store ret l' s') : (b.ran t ret l' s').Due t := by
  have hd := hi.due t
  have hvis : ∀ q, b.lock.pc t = q → q.Busy → b.lock.Visitor t := fun q hq hb => hi.ok.visitor (hq ▸ hb)
  have hall : ∀ {a e}, attempt os a b.store = .error e → e = .blocking := by
    intro a e he
    unfold attempt at he
    split at he
    · exact hos.rlock _ _ he
    · exact hos.wlock _ _ he
  cases h with
  | again hpc hk hm hc => exact due_again hd hpc hm hc
  | held hpc hk hm hn hr hc => exact due_held hi.ok hd hpc hn hr hc
  | first hpc hk hm hc =>
    have h0 := cnt_of_free hi.ok hk hm t
    rw [h0] at hc
    exact due_tries hd hpc (.inl ⟨hm, h0, rfl⟩) hc
  | upgrade hpc hk hm hro ht ha hn h1 hc => exact due_tries hd hpc (.inr ⟨hm, hro, ht, hn⟩) hc
  | granted hpc hs hc => exact due_granted hd hpc hc
  | denied hpc hs hb hc => exact due_denied hd hpc hb hc
  | pend hpc hs hb hc =>
    simp only [Due, hpc] at hd
    exact due_waiting ⟨hd.1, hd.2.1, hb⟩ (.inl rfl) hc
  | failed hpc hs he => exact absurd (hall hs) he
  | queue hpc hc =>
    have hv := hvis _ hpc trivial
    simp only [Visitor, hpc] at hv
    simp only [Due, hpc] at hd
    rw [if_pos hv.mode] at hc
    exact due_waiting hd (.inr (.inl rfl)) hc
  | woken hpc hs hc =>
    simp only [Due, hpc] at hd
    exact due_waiting hd (.inr (.inr rfl)) hc
  | lost hpc hs he => exact absurd (hall hs) he
  | published hpc hk hx hc => exact due_published hd hpc hc
  | gaveUp hpc hk hx hc =>
    simp only [Due, hpc] at hd
    rcases hx with ⟨hok, -⟩ | hx
    · simp [hd.2.2.2] at hok
    · exact absurd hx hi.ok.opened
  | release hk hpc hs =>
    rcases hs with ⟨h1, -, -, hc⟩ | ⟨-, -, hc⟩
    · exact due_released hd hpc (by rw [h1]; exact hc)
    · exact due_released hd hpc hc

/-- A thread steps. -/
theorem Inv.run {s' : σ} {l' : FileLock} (hos : SharedExclusive os) (hi : b.Inv)
    (h : Trans os t b.lock b.store ret l' s') : Inv (b.ran t ret l' s') where
  ok := h.ok (hos.wlock _) hi.ok
  writer := h.writer hi.ok hi.writer
  due u := by
    by_cases hu : u = t
    · rw [hu]
      exact due_self hos hi h
    · refine Due.frame (frame_of_trans hi (Ne.symm hu) h rfl ?_ rfl (ran_mark_of_ne hu ..)) (hi.due u)
      simp [ran, Function.update_of_ne hu]

/-- **Every step keeps the book.** -/
theorem Inv.step {e : BookEv σ} (hos : SharedExclusive os) (hi : b.Inv) (h : b.Fair os e b') : b'.Inv := by
  obtain ⟨hs, hr⟩ := h
  cases hs with
  | call h => exact hi.call h hr
  | run h => exact hi.run hos (hi.ok.trans h)
  | other s =>
    refine ⟨hi.ok, hi.writer, fun t => Due.frame ?_ (hi.due t)⟩
    exact ⟨rfl, rfl, rfl, rfl, fun _ => rfl, fun _ => rfl, .inl rfl⟩

/-! ## What a call that brings nothing leaves -/

theorem after_refused_iff {probe : Bool} {r : LockRet} :
    (after probe r).1 = some .refused ∨ (after probe r).2 = .closing (some false) ↔ r = .refused := by
  cases probe <;> cases r <;> simp [after]

/-- A refused `acquire` leaves the mode and the counts as its last pass found them. -/
theorem refused_snap {s' : σ} {l' : FileLock} (hi : b.Inv) (h : Trans os t b.lock b.store ret l' s')
    (hr : ret = some .refused ∨ l'.pc t = .closing (some false)) :
    l'.snap = (b.ran t ret l' s').mark t := by
  have hd := hi.due t
  cases h with
  | again _ _ _ hc | granted _ _ hc | failed _ _ _ hc | published _ _ _ hc =>
    rw [hc.goes.at_] at hr
    simpa using after_refused_iff.1 hr
  | first _ _ _ hc | upgrade _ _ _ _ _ _ _ _ hc | pend _ _ _ hc | woken _ _ hc | lost _ _ _ hc =>
    simp [hc.goes.at_] at hr
  | queue _ hc =>
    rw [hc.goes.at_] at hr
    split at hr <;> simp at hr
  | release hk hpc hs =>
    have hidle : l'.pc t = .idle := by
      rcases hs with ⟨-, -, -, hc⟩ | ⟨-, -, hc⟩
      · exact hc.goes.at_
      · exact hc.goes.at_
    rcases hpc with ⟨-, rfl⟩ | ⟨res, -, rfl⟩
    · simp [hidle] at hr
    · rcases res with _ | _ <;> simp [hidle] at hr
  | @held l' a probe n hpc hk hm hn hr' hc =>
    simp only [Due, hpc] at hd
    obtain ⟨hf, hd⟩ := hd
    cases hb : a.block with
    | true =>
      rw [hc.goes.at_] at hr
      simp [hb] at hr
    | false =>
      have hs := hf.nowait hb
      have hd : b.Fresh t := hd.resolve_right fun hd => by simp [hs] at hd
      have hn : n = b.lock.cnt t := hn.resolve_right fun ⟨hm, hro, hsw, hn, _⟩ => by
        have := swaps_iff.2 ⟨hsw, hro, hd.2.2 ⟨hm, by omega⟩⟩
        simp [hs] at this
      rw [hn] at hc
      rw [ran_mark_enter hpc]
      exact hc.snap_eq
  | @denied l' a probe hpc hs hb hc =>
    simp only [Due, hpc] at hd
    have hv := hi.ok.visitor (t := t) (by rw [hpc]; trivial)
    simp only [Visitor, hpc] at hv
    have hu := update_cnt hc
    have hcnt : l'.cnt t = b.lock.cnt t := by rw [hc.cnt, if_pos rfl]
    rw [← hcnt, Function.update_eq_self] at hu
    rw [ran_mark hpc (by simp), hd.2.2.2 hb, snap, hu, hc.mode, hv.mode]
  | gaveUp hpc hk hx hc =>
    simp only [Due, hpc] at hd
    rcases hx with ⟨hok, -⟩ | hx
    · simp [hd.2.2.2] at hok
    · exact absurd hx hi.ok.opened

theorem after_ne_probed (probe : Bool) {r : LockRet} (ok : Bool) (hr : r ≠ .probed ok) :
    (after probe r).1 ≠ some (.probed ok) := by
  cases probe with
  | true => simp [after]
  | false => simpa [after] using hr

/-- `can_lock` leaves the mode and the counts as it found them: all of it when it could lock,
and its own release when it could not. -/
theorem probed_snap {s' : σ} {l' : FileLock} {ok : Bool} (hi : b.Inv)
    (h : Trans os t b.lock b.store ret l' s') (hr : ret = some (.probed ok)) :
    l'.snap = if ok then (b.ran t ret l' s').mark t else b.lock.snap := by
  have hd := hi.due t
  cases h with
  | again _ _ _ hc | granted _ _ hc | failed _ _ _ hc | published _ _ _ hc | denied _ _ _ hc
    | gaveUp _ _ _ hc => exact absurd hr (after_ne_probed _ _ (by simp))
  | first | upgrade | pend | woken | lost | queue => simp at hr
  | held _ _ _ _ _ hc =>
    split at hr
    · simp at hr
    · exact absurd hr (after_ne_probed _ _ (by simp))
  | release hk hpc hs =>
    obtain ⟨res, hpc, hres⟩ := hpc.resolve_left fun hpc => by simp [hpc.2] at hr
    rcases res with _ | ok'
    · simp [hres] at hr
    obtain rfl : ok' = ok := by simpa [hres] using hr
    simp only [Due, hpc] at hd
    rw [ran_mark hpc (by simp)]
    cases ok' with
    | false =>
      rcases hs with ⟨h1, -⟩ | ⟨-, -, hc⟩
      · omega
      · have hc' : Change b.lock l' t b.lock.mode (b.lock.cnt t) none .idle := by
          rw [hd.2] at hc ⊢
          exact hc
        exact hc'.snap_eq
    | true =>
      obtain ⟨-, hm, h0, hmark⟩ := hd
      have hcnt : ∀ {m}, Change b.lock l' t m (b.lock.cnt t - 1) none .idle →
          l'.snap = (m, Function.update b.lock.cnt t (b.lock.cnt t - 1)) := by
        intro m hc
        unfold snap
        rw [hc.mode]
        congr 1
        funext u
        rw [hc.cnt, Function.update_apply]
      rw [if_pos rfl, hmark]
      rcases hs with ⟨h1, -, -, hc⟩ | ⟨hn, -, hc⟩
      · rw [if_pos h1]
        exact hcnt (by rw [h1]; exact hc)
      · obtain ⟨u, hu, ha⟩ := hi.writer hm
        have hut : t = u := by
          by_contra hut
          have := ha t hut
          omega
        rw [if_neg fun h1 => hn ⟨h1, hut ▸ ha⟩, ← hm]
        exact hcnt hc

/-- Whoever has a count and is not at the store reads or writes, and the other way round. -/
theorem mode_iff_cnt {l : FileLock} (ho : l.Ok) :
    l.mode = .r ∨ l.mode = .w ↔ ∃ t, 0 < l.cnt t ∧ ¬ (l.pc t).Busy := by
  constructor
  · intro hm
    rcases ho.place with hr | ⟨v, hv⟩
    · have hf : l.mode ≠ .free := by rcases hm with hm | hm <;> simp [hm]
      by_contra hn
      refine hf (hr.free.2 fun t => ?_)
      by_contra h0
      exact hn ⟨t, by omega, hr.busy t⟩
    · rcases hv.mode with ⟨hf, -⟩ | ⟨hf, -⟩ <;> simp [hf] at hm
  · rintro ⟨t, h0, hb⟩
    exact mode_of_cnt ho hb h0

/-- **Re-entrance.** Through every run of calls, with callables that behave as a shared and
exclusive lock, the count of an idle thread is its acquires less its releases, a `switch` of a
reader counting for nothing; the mode is `'r'` or `'w'` as long as a thread that is not at the
store has a count; and a refused `acquire` and `can_lock` leave the mode and the counts. -/
theorem book_balanced (hos : SharedExclusive os) {s₀ : σ} {tr : List (BookEv σ)}
    (hr : Runs (Book.Fair os) { store := s₀ } tr b) :
    (∀ t, b.lock.pc t = .idle → (b.lock.cnt t : ℤ) = b.net t) ∧
    (b.lock.mode = .r ∨ b.lock.mode = .w ↔ ∃ t, 0 < b.lock.cnt t ∧ ¬ (b.lock.pc t).Busy) ∧
    ∀ t ret b', b.Step os (.run t ret) b' →
      (ret = some .refused ∨ b'.lock.pc t = .closing (some false) → b'.lock.snap = b'.mark t) ∧
      (ret = some (.probed true) → b'.lock.snap = b'.mark t) ∧
      (ret = some (.probed false) → b'.lock.snap = b.lock.snap) := by
  have hi : b.Inv := hr.invariant (inv_init s₀) fun _ _ _ hi hs => hi.step hos hs
  refine ⟨fun t ht => ?_, mode_iff_cnt hi.ok, fun t ret b' hs => ?_⟩
  · have hd := hi.due t
    simpa only [Due, ht] using hd
  · cases hs with
    | run h =>
      have ht := hi.ok.trans h
      exact ⟨refused_snap hi ht, probed_snap hi ht, probed_snap hi ht⟩

/-! ## Runs of a plain lock -/

/-- How many read, and whether somebody writes. -/
def plainLock : OsLock (ℕ × Bool) where
  rlock s := if s.2 then .error .blocking else .ok (s.1 + 1, false)
  wlock s := if s.1 = 0 ∧ s.2 = false then .ok (0, true) else .error .blocking
  unlock s := if s.2 then (s.1, false) else (s.1 - 1, false)

theorem plainLock_shared : SharedExclusive plainLock where
  rlock s e h := by
    simp only [plainLock] at h
    split at h
    · exact (Except.error.inj h).symm
    · cases h
  wlock s e h := by
    simp only [plainLock] at h
    split at h
    · cases h
    · exact (Except.error.inj h).symm

instance (b : Book σ) : DecidablePred b.Rash := fun e => by
  cases e with
  | run => exact inferInstanceAs (Decidable False)
  | other => exact inferInstanceAs (Decidable False)
  | call t c =>
    unfold Rash
    dsimp only
    cases c <;> infer_instance

/-- The steps that are fair, computed. -/
def next (os : OsLock σ) (b : Book σ) : BookEv σ → Option (Book σ)
  | .call t c =>
    if b.Rash (.call t c) then none
    else (b.lock.begin t c).map fun l =>
      { b with
        lock := l
        held := Function.update b.held t (decide (b.lock.mode = .r ∧ 0 < b.lock.cnt t)) }
  | .run t ret =>
    (b.lock.run os t b.store).bind fun r => if r.1 = ret then some (b.ran t ret r.2.1 r.2.2) else none
  | .other s => some { b with store := s }

theorem fair_of_next {e : BookEv σ} (h : b.next os e = some b') : b.Fair os e b' := by
  cases e with
  | call t c =>
    simp only [next] at h
    split at h
    · cases h
    · rename_i hr
      obtain ⟨l, hl, rfl⟩ := Option.map_eq_some_iff.1 h
      exact ⟨.call hl, hr⟩
  | run t ret =>
    obtain ⟨⟨ret', l, s⟩, hl, h⟩ := Option.bind_eq_some_iff.1 h
    split at h
    · rename_i hret
      cases h
      cases hret
      exact ⟨.run hl, id⟩
    · cases h
  | other s =>
    cases h
    exact ⟨.other s, id⟩

/-- A thread reads, and switches to write. -/
def switchRun : List (BookEv (ℕ × Bool)) :=
  [.call 1 (.acquire { readOnly := true }), .run 1 none, .run 1 (some .acquired),
    .call 1 (.acquire { switch := true }), .run 1 none, .run 1 (some .acquired)]

def isAcquired : BookEv (ℕ × Bool) → Bool
  | .run _ (some .acquired) => true
  | _ => false

theorem book_balanced_switch : ∃ b, Runs (Book.Fair plainLock) { store := (0, false) } switchRun b ∧
    b.net 1 = 1 ∧ (b.lock.cnt 1 : ℤ) = b.net 1 := by
  obtain ⟨b, hr, hb⟩ := exists_runAll (next plainLock) { store := (0, false) } switchRun
    (P := fun b => b.net 1 = 1 ∧ b.lock.pc 1 = .idle) (by decide)
  obtain ⟨hn, hi⟩ : b.net 1 = 1 ∧ b.lock.pc 1 = .idle := by simpa using hb
  have hr := hr.mono fun _ _ _ h => fair_of_next h
  exact ⟨b, hr, hn, (book_balanced plainLock_shared hr).1 1 hi⟩

/-- Two acquires and no release leave the thread that switched with one level. -/
theorem switch_keeps_one_level : switchRun.countP isAcquired = 2 ∧
    ∃ b, Runs (Book.Step plainLock) { store := (0, false) } switchRun b ∧
      b.lock.pc 1 = .idle ∧ b.lock.cnt 1 = 1 := by
  obtain ⟨b, hr, hb⟩ := exists_runAll (next plainLock) { store := (0, false) } switchRun
    (P := fun b => b.lock.pc 1 = .idle ∧ b.lock.cnt 1 = 1) (by decide)
  exact ⟨by decide, b, hr.mono fun _ _ _ h => (fair_of_next h).1, by simpa using hb⟩

end Book

end OmniJsonDb
