import OmniJsonDb.Proof.Exclusion

/-!
# File locks between a call of the store and the write of `_mode`

The store knows at once who reads and who writes; `_mode` follows at the end of the step.

* `Trans.leaves`, `Trans.clear`: what a step that changes `_mode` does.
* `LockMoment.calm_sys`: a run of moments is one of whole steps, with the writes left out.
* `LockMoment.calm_apart`: exclusion at every moment of a run.
-/

namespace OmniJsonDb

namespace FileLock

variable {σ : Type} {os : OsLock σ} {l l' : FileLock} {s s' : σ} {t : ℕ} {ret : Option LockRet}

/-- A file lock that reads or writes does so until it writes `''`. -/
theorem Trans.leaves (h : Trans os t l s ret l' s') (ho : l.Ok) (hm : l.mode = .r ∨ l.mode = .w) :
    l'.mode = l.mode ∨ l'.mode = .free := by
  have hr : l.Resting := by
    rcases ho.place with hr | ⟨v, hv⟩
    · exact hr
    · rcases hv.mode with ⟨hf, -⟩ | ⟨hf, -⟩ <;> simp [hf] at hm
  have hbusy : ∀ q, l.pc t = q → q.Busy → False := fun q hq h => hr.busy t (hq ▸ h)
  cases h with
  | granted hpc | denied hpc | pend hpc | failed hpc | queue hpc | woken hpc | lost hpc
    | published hpc | gaveUp hpc => exact (hbusy _ hpc trivial).elim
  | again hpc hk ht hc => exact .inl hc.mode
  | held hpc hk hf hn hw hc => exact .inl hc.mode
  | first hpc hk hf hc => exact .inr hc.mode
  | upgrade hpc hk hrd hro ht ha hn h1 hc => exact .inr hc.mode
  | release hk hpc hs =>
    rcases hs with ⟨-, -, -, hc⟩ | ⟨-, -, hc⟩
    · exact .inr hc.mode
    · exact .inl hc.mode

/-- A thread whose step changes the mode leaves nobody else at the store. -/
theorem Trans.clear (h : Trans os t l s ret l' s') (ho : l.Ok) (hm : l'.mode ≠ l.mode) (u : ℕ)
    (hu : u ≠ t) : ¬ (l'.pc u).Busy := by
  obtain ⟨m, n, k, q, -, hc⟩ := h.change ho.opened
  have hb : ¬ (l.pc u).Busy := by
    rcases ho.place with hr | ⟨v, hv⟩
    · exact hr.busy u
    · by_cases ht : v = t
      · exact hv.others.1 u (ht ▸ hu)
      · obtain ⟨q', -, hc', -⟩ := h.of_other hv ht
        exact absurd hc'.mode hm
  exact (hc.goes.busy hu).1.2 hb

/-- Thread `t` is about to write the mode, which is `m` until then. -/
structure Late (l : FileLock) (t : ℕ) (m : LockMode) : Prop where
  free : m = .r ∨ m = .w → l.mode = .free
  clear : ∀ u, u ≠ t → ¬ (l.pc u).Busy

theorem Trans.late (h : Trans os t l s ret l' s') (ho : l.Ok) (hm : l'.mode ≠ l.mode) :
    l'.Late t l.mode where
  free hl := (h.leaves ho hl).resolve_left hm
  clear := h.clear ho hm

/-- Calls of other threads wait. -/
theorem Late.begin {c : LockCall} {u : ℕ} {m : LockMode} (h : l.Late t m) (hb : l.begin u c = some l') :
    l'.Late t m := by
  obtain ⟨-, q, hq, hc⟩ := begin_change hb
  refine ⟨fun hm => hc.mode.trans (h.free hm), fun v hv => ?_⟩
  by_cases hvu : v = u
  · rw [hvu, hc.goes.at_]
    exact hq
  · exact (hc.goes.busy hvu).1.2 (h.clear v hv)

theorem Late.waits {u : ℕ} {m : LockMode} (h : l.Late t m) (hu : u ≠ t) {r : Option LockRet × FileLock × σ}
    (hr : run os u l s = some r) :
    (∃ a probe, l.pc u = .enter a probe) ∨ l.pc u = .release ∨ ∃ res, l.pc u = .closing res := by
  have hb := h.clear u hu
  unfold run at hr
  cases hpc : l.pc u <;> simp_all [Pc.Busy]

end FileLock

/-- The step a moment belongs to, but for the write. -/
def MomentLabel.whole {n : ℕ} : MomentLabel n → Option (LockLabel n)
  | .step e => some e
  | .write _ => none

namespace LockMoment

open FileLock

variable {n : ℕ} {ids : CopyIds n} {s s' : LockMoment n} {e : MomentLabel n} {tr : List (MomentLabel n)}

/-! ## What a moment does -/

/-- **What can happen next.** -/
theorem step_cases (h : s.Step ids e s') :
    (∃ i t c sys, e = .step (.call i t c) ∧ s.sys.Step ids (.call i t c) sys ∧ s' = { s with sys := sys }) ∨
    (∃ i t sys, e = .step (.run i t) ∧ s.late i = none ∧ s.sys.Step ids (.run i t) sys ∧
      s' = { sys := sys
             late := if (sys.locks i).mode = (s.sys.locks i).mode then s.late
               else Function.update s.late i (some (t, (s.sys.locks i).mode)) }) ∨
    ∃ i, e = .write i ∧ s' = { s with late := Function.update s.late i none } := by
  unfold Step at h
  cases e with
  | step e =>
    cases e with
    | call i t c =>
      simp only [next, Option.ite_none_left_eq_some, Option.map_eq_some_iff] at h
      obtain ⟨-, sys, hs, rfl⟩ := h
      exact .inl ⟨i, t, c, sys, rfl, hs, rfl⟩
    | run i t =>
      simp only [next, Option.ite_none_left_eq_some, Option.map_eq_some_iff, not_not] at h
      obtain ⟨hl, sys, hs, rfl⟩ := h
      exact .inr (.inl ⟨i, t, sys, rfl, hl, hs, rfl⟩)
  | write i =>
    simp only [next, Option.ite_none_left_eq_some, Option.some.injEq] at h
    exact .inr (.inr ⟨i, rfl, h.2.symm⟩)

/-- Steps that strand no reader. -/
def Calm (ids : CopyIds n) (s : LockMoment n) (e : MomentLabel n) (s' : LockMoment n) : Prop :=
  s.Step ids e s' ∧ ∀ e', e = .step e' → ¬ s.sys.Strands e'

/-- **The moments refine the steps.** A run of moments is one of whole steps. -/
theorem calm_sys (hr : Runs (Calm ids) {} tr s) :
    Runs (LockSys.Calm ids) {} (tr.filterMap MomentLabel.whole) s.sys := by
  induction hr with
  | refl => exact .refl
  | tail _ hs ih =>
    rw [List.filterMap_append]
    rcases step_cases hs.1 with ⟨i, t, c, sys, rfl, hst, rfl⟩ | ⟨i, t, sys, rfl, -, hst, rfl⟩ | ⟨i, rfl, rfl⟩
    · exact ih.tail ⟨hst, hs.2 _ rfl⟩
    · exact ih.tail ⟨hst, hs.2 _ rfl⟩
    · have hw : [MomentLabel.write i].filterMap MomentLabel.whole = [] := rfl
      rw [hw, List.append_nil]
      exact ih

/-! ## The invariant -/

/-- The invariant of the store, and of the file locks in the middle of a step. -/
structure Inv (ids : CopyIds n) (s : LockMoment n) : Prop where
  sys : LockSys.Inv ids s.sys
  late : ∀ i t m, s.late i = some (t, m) → (s.sys.locks i).Late t m

theorem inv_init (ids : CopyIds n) : Inv ids {} where
  sys := LockSys.inv_init ids
  late i t m h := by cases h

theorem Inv.step (h : Inv ids s) (hs : Calm ids s e s') : Inv ids s' := by
  rcases step_cases hs.1 with ⟨i, t, c, sys, rfl, hst, rfl⟩ | ⟨i, t, sys, rfl, hl, hst, rfl⟩ | ⟨i, rfl, rfl⟩
  · refine ⟨h.sys.step hst (hs.2 _ rfl), fun j u m hj => ?_⟩
    obtain ⟨l, hb, rfl⟩ := Option.map_eq_some_iff.1 hst
    by_cases hji : j = i
    · subst hji
      simpa using (h.late j u m hj).begin hb
    · simpa [Function.update_of_ne hji] using h.late j u m hj
  · refine ⟨h.sys.step hst (hs.2 _ rfl), fun j u m hj => ?_⟩
    obtain ⟨ret, l, f, hr, rfl⟩ := LockSys.run_step hst
    have ht : Trans (memLock (ids.id i)) t (s.sys.locks i) s.sys.store ret l f := (h.sys.trans hr).1
    by_cases hji : j = i
    · subst hji
      simp only [LockSys.put, Function.update_self] at hj ⊢
      split at hj
      · rw [hl] at hj
        cases hj
      · rename_i hm
        rw [Function.update_self] at hj
        cases hj
        exact ht.late (h.sys.ok j) hm
    · have hj' : s.late j = some (u, m) := by
        dsimp only at hj
        split at hj
        · exact hj
        · rwa [Function.update_of_ne hji] at hj
      simpa [LockSys.put, Function.update_of_ne hji] using h.late j u m hj'
  · refine ⟨h.sys, fun j u m hj => ?_⟩
    dsimp only at hj
    by_cases hji : j = i
    · rw [hji, Function.update_self] at hj
      cases hj
    · rw [Function.update_of_ne hji] at hj
      exact h.late j u m hj

/-- The moments refuse a thread that could go on only while it waits for the mutex. -/
theorem Inv.waits (h : Inv ids s) {i : Fin n} {t u : ℕ} {m : LockMode} {sys : LockSys n}
    (hl : s.late i = some (t, m)) (hu : u ≠ t) (hs : s.sys.Step ids (.run i u) sys) :
    (∃ a probe, (s.sys.locks i).pc u = .enter a probe) ∨ (s.sys.locks i).pc u = .release ∨
      ∃ res, (s.sys.locks i).pc u = .closing res := by
  obtain ⟨ret, l, f, hr, -⟩ := LockSys.run_step hs
  exact (h.late i t m hl).waits hu hr

/-! ## Exclusion -/

theorem mode_of_none {i : Fin n} (h : s.late i = none) : s.mode i = (s.sys.locks i).mode := by
  simp [mode, h]

/-- The file lock has given the store back, and `''` is the next it writes. -/
def Leaves (s : LockMoment n) (i : Fin n) : Prop := s.late i ≠ none ∧ (s.sys.locks i).mode = .free

/-- A file lock that shows a mode it reads or writes in holds it, or leaves. -/
theorem Inv.shown (h : Inv ids s) {i : Fin n} (hm : s.mode i = .r ∨ s.mode i = .w) :
    (s.sys.locks i).mode = s.mode i ∨ s.Leaves i := by
  cases hl : s.late i with
  | none => exact .inl (mode_of_none hl).symm
  | some p =>
    have hp : s.mode i = p.2 := by simp [mode, hl]
    have hfree := (h.late i p.1 p.2 hl).free (hp ▸ hm)
    exact .inr ⟨by simp [hl], hfree⟩

open Classical in
/-- **Mutual exclusion at a moment.** -/
structure Apart (s : LockMoment n) : Prop where
  /-- Who shows the mode `'w'` is alone, but for one of the two that leaves. -/
  shown : ∀ i j, i ≠ j → s.mode i = .w → s.mode j = .r ∨ s.mode j = .w → s.Leaves i ∨ s.Leaves j
  /-- The modes that are, or are about to be, written. -/
  coming : s.sys.Excl
  /-- The readers, while no file lock is between the store and its mode. -/
  settled : (∀ i, s.late i = none ∧ ¬ (s.sys.locks i).Granted .r) →
    s.sys.store.readCnt = (Finset.univ.filter fun i => s.mode i = .r).card

/-- **Mutual exclusion.** At every moment of a run that strands no reader, a file lock that
writes is alone and the store counts the readers, up to the write of `_mode`. -/
theorem calm_apart (ids : CopyIds n) (hr : Runs (Calm ids) {} tr s) : s.Apart := by
  have h : Inv ids s := hr.invariant (inv_init ids) fun _ _ _ h hs => h.step hs
  have he : s.sys.Excl := (LockSys.calm_excl ids (calm_sys hr)).1
  refine ⟨fun i j hij hi hj => ?_, he, fun hn => ?_⟩
  · rcases h.shown (.inr hi) with hw | hl
    · rcases h.shown hj with hm | hl
      · have := he.alone i j hij (hw.trans hi)
        rw [hm] at this
        rcases hj with hj | hj
        · exact absurd hj this.1
        · exact absurd hj this.2
      · exact .inr hl
    · exact .inl hl
  · have hm : ∀ i, s.mode i = (s.sys.locks i).mode := fun i => mode_of_none (hn i).1
    have hg : ∀ i, ¬ (s.sys.locks i).Granted .r := fun i => (hn i).2
    rw [he.readers]
    simp [hm, hg]

/-! ## Runs of two -/

/-- Two file locks. -/
def twoIds : CopyIds 2 where
  id := fun i => i + 1
  inj := by decide
  pos := by decide

/-- Both read. -/
def bothRead : List (MomentLabel 2) :=
  [.step (.call 0 1 (.acquire { readOnly := true })), .step (.run 0 1), .step (.run 0 1), .write 0,
    .step (.call 1 1 (.acquire { readOnly := true })), .step (.run 1 1), .step (.run 1 1), .write 1]

/-- The first writes and lets go, and the second is granted the store before the first has
written `''`. -/
def handOver : List (MomentLabel 2) :=
  [.step (.call 0 1 (.acquire {})), .step (.run 0 1), .step (.run 0 1), .write 0,
    .step (.call 0 1 .release), .step (.run 0 1),
    .step (.call 1 1 (.acquire {})), .step (.run 1 1), .step (.run 1 1), .write 1]

/-- The first is granted the store and has not written `'r'`. -/
def oneReads : List (MomentLabel 2) :=
  [.step (.call 0 1 (.acquire { readOnly := true })), .step (.run 0 1), .step (.run 0 1)]

/-- Both read; the first asks to write and is refused, then the second does and is not. -/
def upgrades : List (MomentLabel 2) :=
  bothRead ++ [.step (.call 0 1 (.acquire { block := false })), .step (.run 0 1), .write 0, .step (.run 0 1),
    .write 0, .step (.call 1 1 (.acquire {})), .step (.run 1 1), .write 1, .step (.run 1 1), .write 1]

instance (s : LockMoment n) : DecidablePred fun e => ∀ e', e = MomentLabel.step e' → ¬ s.sys.Strands e' :=
  fun e => by
    cases e with
    | step e => exact decidable_of_iff (¬ s.sys.Strands e) (by simp)
    | write i => exact .isTrue (by simp)

/-- The steps of calm runs, computed. -/
def calmNext (ids : CopyIds n) (s : LockMoment n) (e : MomentLabel n) : Option (LockMoment n) :=
  if ∀ e', e = MomentLabel.step e' → ¬ s.sys.Strands e' then s.next ids e else none

/-- What the two show, and what the store counts. -/
def shows (s : LockMoment 2) : LockMode × LockMode × ℕ := (s.mode 0, s.mode 1, s.sys.store.readCnt)

theorem calm_apart_reads : ∃ s, Runs (Calm twoIds) {} bothRead s ∧ s.Apart ∧ s.shows = (.r, .r, 2) := by
  obtain ⟨s, hr, hm⟩ := exists_runAll (calmNext twoIds) {} bothRead (P := fun s => s.shows = (.r, .r, 2))
    (by decide)
  have hr : Runs (Calm twoIds) {} bothRead s := hr.mono fun s e s' hs => by
    unfold calmNext at hs
    split at hs
    · exact ⟨hs, ‹_›⟩
    · cases hs
  exact ⟨s, hr, calm_apart twoIds hr, by simpa using hm⟩

theorem exists_shows {tr : List (MomentLabel 2)} {p : LockMode × LockMode × ℕ}
    (h : (runAll (LockMoment.next twoIds) tr {}).any (fun s => s.shows = p) = true) :
    ∃ s, Runs (LockMoment.Step twoIds) {} tr s ∧ s.shows = p := by
  obtain ⟨s, hr, hm⟩ := exists_runAll (LockMoment.next twoIds) {} tr h
  exact ⟨s, hr, by simpa using hm⟩

/-- A moment at which two show that they write; one at which the store counts a reader that
does not show; and a run after which one writes beside one that shows that it reads, and
the store counts no reader. -/
theorem write_together :
    (∃ s, Runs (LockMoment.Step twoIds) {} handOver s ∧ s.shows = (.w, .w, 0)) ∧
    (∃ s, Runs (LockMoment.Step twoIds) {} oneReads s ∧ s.shows = (.free, .free, 1)) ∧
    ∃ s, Runs (LockMoment.Step twoIds) {} upgrades s ∧ s.shows = (.r, .w, 0) :=
  ⟨exists_shows (by decide), exists_shows (by decide), exists_shows (by decide)⟩

end LockMoment

end OmniJsonDb
