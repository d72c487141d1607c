import OmniJsonDb.Model.FileLock

/-!
# What a step of a thread can do

* `Trans`, `run_trans`: the steps of `acquire`, `release` and `can_lock`, with all they change.
* `FileLock.Ok`, `Trans.ok`: at most one thread is at the store, and what it means for the
  mode and the counts.
-/

namespace OmniJsonDb

/-- At the store, or on the way to it and back. -/
def Pc.Busy : Pc → Prop
  | .tries _ _ | .pends _ _ | .blocks _ _ | .back _ _ _ | .stray _ _ => True
  | _ => False

namespace FileLock

variable {σ : Type} {os : OsLock σ} {l l' : FileLock} {s s' : σ} {t : ℕ}

/-! ## Counts -/

/-- Whoever is in `_idents` has a count. -/
def Pos (l : FileLock) : Prop := ∀ t, l.idents.get? t ≠ some 0

theorem Pos.contains_iff (h : l.Pos) (t : ℕ) : l.idents.contains t = true ↔ 0 < l.cnt t := by
  unfold cnt
  rw [OrdDict.contains_iff]
  constructor
  · rintro ⟨c, hc⟩
    have := h t
    simp only [hc, ne_eq, Option.some.injEq, Option.getD_some] at this ⊢
    omega
  · intro hc
    cases hg : l.idents.get? t with
    | none => simp [hg] at hc
    | some c => exact ⟨c, rfl⟩

theorem Pos.size_iff (h : l.Pos) : l.idents.size = 0 ↔ ∀ t, l.cnt t = 0 := by
  rw [OrdDict.size_eq_zero_iff]
  constructor
  · intro hn t
    simp [cnt, hn t]
  · intro hc t
    have := (h.contains_iff t).not
    rw [hc t] at this
    simpa [OrdDict.contains] using this

/-- The counts after `_idents` is written at `t`: a count of zero leaves `_idents`. -/
structure Writes (l : FileLock) (t n : ℕ) (d : OrdDict ℕ ℕ) : Prop where
  cnt : ∀ u, (d.get? u).getD 0 = if u = t then n else l.cnt u
  pos : l.Pos → ∀ u, d.get? u ≠ some 0

theorem writes_set (l : FileLock) (t : ℕ) {n : ℕ} (hn : 0 < n) : l.Writes t n (l.idents.set t n) where
  cnt u := by
    rw [OrdDict.get?_set]
    split <;> simp [FileLock.cnt]
  pos h u := by
    rw [OrdDict.get?_set]
    split
    · simp only [ne_eq, Option.some.injEq]
      omega
    · exact h u

theorem writes_pop (l : FileLock) (t : ℕ) : l.Writes t 0 (l.idents.pop t) where
  cnt u := by
    rw [OrdDict.get?_pop]
    split <;> simp [FileLock.cnt]
  pos h u := by
    rw [OrdDict.get?_pop]
    split
    · simp
    · exact h u

theorem writes_pop_set (l : FileLock) (t : ℕ) {n : ℕ} (hn : 0 < n) :
    l.Writes t n ((l.idents.pop t).set t n) where
  cnt u := by
    rw [OrdDict.get?_set, OrdDict.get?_pop]
    split <;> simp [FileLock.cnt]
  pos h u := by
    rw [OrdDict.get?_set, OrdDict.get?_pop]
    split
    · simp only [ne_eq, Option.some.injEq]
      omega
    · exact h u

theorem writes_self (l : FileLock) (t : ℕ) : l.Writes t (l.cnt t) l.idents where
  cnt u := by
    split
    · rename_i h
      rw [h, FileLock.cnt]
    · rfl
  pos h := h

theorem Writes.size_iff {n : ℕ} {d : OrdDict ℕ ℕ} (h : l.Writes t n d) (hp : l.Pos) :
    d.size = 0 ↔ n = 0 ∧ ∀ u, u ≠ t → l.cnt u = 0 := by
  have hd : Pos { l with idents := d } := h.pos hp
  rw [show d.size = 0 ↔ ∀ u, (d.get? u).getD 0 = 0 from hd.size_iff]
  simp only [h.cnt]
  constructor
  · intro hu
    refine ⟨by simpa using hu t, fun u hut => ?_⟩
    simpa [hut] using hu u
  · rintro ⟨rfl, hu⟩ u
    split
    · rfl
    · rename_i hut
      exact hu u hut

theorem Writes.of_size_one {n : ℕ} {d : OrdDict ℕ ℕ} (h : l.Writes t n d) (hn : 0 < n)
    (h1 : d.size = 1) : ∀ u, u ≠ t → l.cnt u = 0 := by
  intro u hu
  have ht := h.cnt t
  have hc := h.cnt u
  rw [if_pos rfl] at ht
  rw [if_neg hu] at hc
  cases hd : d.get? t with
  | none => rw [hd] at ht; simp at ht; omega
  | some c =>
    rw [OrdDict.get?_of_size_one h1 hd hu] at hc
    simpa using hc.symm

/-! ## Steps -/

/-- `pc'` is `pc` but at `t`, where it is `q`; waiting threads may be woken. -/
structure Goes (pc pc' : ℕ → Pc) (t : ℕ) (q : Pc) : Prop where
  at_ : pc' t = q
  others : ∀ u, u ≠ t → pc' u = pc u ∨ ∃ a probe, pc u = .waits a probe ∧ pc' u = .enter a probe

theorem goes_goto {l₁ : FileLock} (l : FileLock) (t : ℕ) (q : Pc) (h : l₁.pc = l.pc) :
    Goes l.pc (l₁.goto t q).pc t q where
  at_ := by simp [goto]
  others u hu := by simp [goto, Function.update, hu, h]

theorem goes_notify {l₁ : FileLock} (l : FileLock) (t : ℕ) (q : Pc) (h : l₁.pc = l.notifyAll.pc) :
    Goes l.pc (l₁.goto t q).pc t q where
  at_ := by simp [goto]
  others u hu := by
    simp only [goto, h, notifyAll, Function.update, hu, dite_false]
    cases h : l.pc u <;> simp

/-- Nobody but `t` has a count. -/
def Alone (l : FileLock) (t : ℕ) : Prop := ∀ u, u ≠ t → l.cnt u = 0

/-- All that a step changes: the mode, the count of `t`, the mutex and the threads. -/
structure Change (l l' : FileLock) (t : ℕ) (m : LockMode) (n : ℕ) (k : Option ℕ) (q : Pc) : Prop where
  mode : l'.mode = m
  cnt : ∀ u, l'.cnt u = if u = t then n else l.cnt u
  pos : l.Pos → l'.Pos
  lock : l'.lock = k
  goes : Goes l.pc l'.pc t q
  wakes : ∀ u, u ≠ t → l'.pc u = l.pc u ∨ l.Alone t

/-- Where a thread is after an `acquire` that ends with `ret`, and what its call returns. -/
def after (probe : Bool) (ret : LockRet) : Option LockRet × Pc :=
  if probe then (none, .closing (match ret with
    | .acquired => some true
    | .refused => some false
    | _ => none))
  else (some ret, .idle)

/-- **What one step of a thread can do.** -/
inductive Trans (os : OsLock σ) (t : ℕ) (l : FileLock) (s : σ) : Option LockRet → FileLock → σ → Prop
  /-- One more reader, or the writer again. -/
  | again {l' a probe} (hpc : l.pc t = .enter a probe) (hk : l.lock = none)
      (hm : l.mode = .r ∧ a.readOnly = true ∧ (∃ u, 0 < l.cnt u) ∨ l.mode = .w ∧ 0 < l.cnt t)
      (hc : Change l l' t l.mode (l.cnt t + 1) none (after probe .acquired).2) :
      Trans os t l s (after probe .acquired).1 l' s
  /-- The mode is taken, and so is a level of a reader that would switch. -/
  | held {l' a probe n} (hpc : l.pc t = .enter a probe) (hk : l.lock = none) (hm : l.mode ≠ .free)
      (hn : n = l.cnt t ∨ l.mode = .r ∧ a.readOnly = false ∧ a.switch = true ∧ n + 1 = l.cnt t ∧
        (0 < n ∨ ¬ l.Alone t))
      (hr : 0 < l.cnt t → l.mode ≠ .w)
      (hc : Change l l' t l.mode n none (if a.block then .waits a probe else (after probe .refused).2)) :
      Trans os t l s (if a.block then none else (after probe .refused).1) l' s
  /-- Nobody holds the lock: on to the store. -/
  | first {l' a probe} (hpc : l.pc t = .enter a probe) (hk : l.lock = none) (hm : l.mode = .free)
      (hc : Change l l' t .free (l.cnt t) (some t) (.tries a probe)) : Trans os t l s none l' s
  /-- The only reader gives the store back, and its level when it switches. -/
  | upgrade {l' a probe n} (hpc : l.pc t = .enter a probe) (hk : l.lock = none) (hm : l.mode = .r)
      (hr : a.readOnly = false) (ht : 0 < l.cnt t) (ha : l.Alone t)
      (hn : n + (if a.switch then 1 else 0) = l.cnt t) (h1 : a.switch = false → l.cnt t = 1)
      (hc : Change l l' t .free n (some t) (.tries a probe)) : Trans os t l s none l' (os.unlock s)
  | granted {l' s' a probe} (hpc : l.pc t = .tries a probe) (hs : attempt os a s = .ok s')
      (hc : Change l l' t (wanted a) (l.cnt t + 1) none (after probe .acquired).2) :
      Trans os t l s (after probe .acquired).1 l' s'
  | denied {l' a probe} (hpc : l.pc t = .tries a probe) (hs : attempt os a s = .error .blocking)
      (hb : a.block = false)
      (hc : Change l l' t (if 0 < l.cnt t then .r else l.mode) (l.cnt t) none (after probe .refused).2) :
      Trans os t l s (after probe .refused).1 l' s
  | pend {l' a probe} (hpc : l.pc t = .tries a probe) (hs : attempt os a s = .error .blocking)
      (hb : a.block = true) (hc : Change l l' t .p (l.cnt t) none (.pends a probe)) : Trans os t l s none l' s
  | failed {l' a probe e} (hpc : l.pc t = .tries a probe) (hs : attempt os a s = .error e)
      (he : e ≠ .blocking) (hc : Change l l' t l.mode (l.cnt t) none (after probe .raised).2) :
      Trans os t l s (after probe .raised).1 l' s
  | queue {l' a probe} (hpc : l.pc t = .pends a probe)
      (hc : Change l l' t l.mode (l.cnt t) l.lock (if l.mode = .p then .blocks a probe else .stray a probe)) :
      Trans os t l s none l' s
  | woken {l' s' a probe} (hpc : l.pc t = .blocks a probe) (hs : attempt os a s = .ok s')
      (hc : Change l l' t l.mode (l.cnt t) l.lock (.back a probe true)) : Trans os t l s none l' s'
  | lost {l' a probe e} (hpc : l.pc t = .blocks a probe) (hs : attempt os a s = .error e)
      (he : e ≠ .blocking) (hc : Change l l' t l.mode (l.cnt t) l.lock (.back a probe false)) :
      Trans os t l s none l' s
  | published {l' a probe} (hpc : l.pc t = .back a probe true) (hk : l.lock = none) (hx : l.mode ≠ .x)
      (hc : Change l l' t (wanted a) (l.cnt t + 1) none (after probe .acquired).2) :
      Trans os t l s (after probe .acquired).1 l' s
  | gaveUp {l' s' a probe ok} (hpc : l.pc t = .back a probe ok) (hk : l.lock = none)
      (hx : ok = false ∧ s' = s ∨ l.mode = .x)
      (hc : Change l l' t (if l.mode = .p then .free else l.mode) (l.cnt t) none (after probe .refused).2) :
      Trans os t l s (after probe .refused).1 l' s'
  /-- `release`, by itself or of `can_lock`: the last count gives the store back. -/
  | release {l' s' ret} (hk : l.lock = none)
      (hpc : l.pc t = .release ∧ ret = .released (decide (0 < l.cnt t)) ∨
        ∃ res, l.pc t = .closing res ∧ ret = match res with
          | some ok => .probed ok
          | none => .raised)
      (hs : (l.cnt t = 1 ∧ l.Alone t ∧ s' = os.unlock s ∧ Change l l' t .free 0 none .idle) ∨
        (¬ (l.cnt t = 1 ∧ l.Alone t) ∧ s' = s ∧ Change l l' t l.mode (l.cnt t - 1) none .idle)) :
      Trans os t l s (some ret) l' s'

/-! ## The code's steps -/

theorem finish_eq (t : ℕ) (probe : Bool) (ret : LockRet) (l : FileLock) :
    finish t probe ret l = ((after probe ret).1, l.goto t (after probe ret).2) := by
  cases probe <;> rfl

/-- What is written at `t`, and where `t` goes. -/
theorem Writes.change {l₁ : FileLock} {n : ℕ} {m : LockMode} {k : Option ℕ}
    (h : l.Writes t n l₁.idents) (q : Pc) (hpc : l₁.pc = l.pc ∨ l.Alone t ∧ l₁.pc = l.notifyAll.pc)
    (hm : l₁.mode = m) (hk : l₁.lock = k) : Change l (l₁.goto t q) t m n k q where
  mode := hm
  cnt := h.cnt
  pos := h.pos
  lock := hk
  goes := by
    rcases hpc with hpc | ⟨-, hpc⟩
    · exact goes_goto l t q hpc
    · exact goes_notify l t q hpc
  wakes u hu := by
    rcases hpc with hpc | ⟨ha, -⟩
    · exact .inl (by simp [goto, Function.update, hu, hpc])
    · exact .inr ha

@[simp] theorem notifyAll_notifyAll (l : FileLock) : l.notifyAll.notifyAll = l.notifyAll := by
  simp only [notifyAll, mk.injEq, true_and]
  funext u
  cases l.pc u <;> rfl

theorem writes_bump (l : FileLock) (t : ℕ) : l.Writes t (l.cnt t + 1) (l.bump t).idents :=
  writes_set l t (Nat.succ_pos _)

/-- A reader that would write: alone it gives the store back, else at most a level is lost. -/
theorem stepDown_cases (os : OsLock σ) (s : σ) (hp : l.Pos) (ht : 0 < l.cnt t) (sw : Bool) :
    (∃ n d pc, l.Writes t n d ∧ l.Alone t ∧ n + (if sw then 1 else 0) = l.cnt t ∧
      (sw = false → l.cnt t = 1) ∧ (pc = l.pc ∨ pc = l.notifyAll.pc) ∧
      stepDown os t sw l s = ({ l with idents := d, mode := .free, pc := pc }, os.unlock s)) ∨
    ∃ n d, l.Writes t n d ∧ (n = l.cnt t ∨ sw = true ∧ n + 1 = l.cnt t ∧ (0 < n ∨ ¬ l.Alone t)) ∧
      stepDown os t sw l s = ({ l with idents := d }, s) := by
  have hpop := writes_pop l t
  have hset := writes_pop_set l t ht
  unfold stepDown
  by_cases h1 : l.cnt t ≤ 1
  · simp only [h1, if_true]
    by_cases h0 : (l.idents.pop t).size = 0
    · have ha : l.Alone t := ((hpop.size_iff hp).1 h0).2
      cases sw with
      | false => exact .inl ⟨_, _, _, hset, ha, by simp, fun _ => by omega, .inr rfl, by simp [h0, notifyAll]⟩
      | true => exact .inl ⟨_, _, _, hpop, ha, by rw [if_pos rfl]; omega, by simp, .inl rfl, by simp [h0]⟩
    · cases sw with
      | false => exact .inr ⟨_, _, hset, .inl rfl, by simp [h0, ht]⟩
      | true =>
        have ha : ¬ l.Alone t := fun ha => h0 ((hpop.size_iff hp).2 ⟨rfl, ha⟩)
        exact .inr ⟨_, _, hpop, .inr ⟨rfl, by omega, .inr ha⟩, by simp [h0]⟩
  · simp only [h1, if_false]
    cases sw with
    | false => exact .inr ⟨_, _, writes_self l t, .inl rfl, by simp⟩
    | true =>
      have hw : l.Writes t (l.cnt t - 1) _ := writes_set l t (by omega)
      by_cases hs : (l.idents.set t (l.cnt t - 1)).size = 1
      · have ha : l.Alone t := hw.of_size_one (by omega) hs
        exact .inl ⟨_, _, _, hw, ha, by rw [if_pos rfl]; omega, by simp, .inl rfl, by simp [hs]; omega⟩
      · exact .inr ⟨_, _, hw, .inr ⟨rfl, by omega, .inl (by omega)⟩, by simp [hs]⟩

variable {ret : Option LockRet} {a : Acquire} {probe : Bool}

/-- The four ends of the first half of a pass. -/
theorem threadLevel_cases (os : OsLock σ) (t : ℕ) (s : σ) (a : Acquire) (hp : l.Pos) (hx : l.mode ≠ .x) :
    ((l.mode = .r ∧ a.readOnly = true ∧ (∃ u, 0 < l.cnt u) ∨ l.mode = .w ∧ 0 < l.cnt t) ∧
      threadLevel os t a l s = (.got, l.bump t, s)) ∨
    (l.mode = .free ∧ threadLevel os t a l s = (.store, l, s)) ∨
    (∃ n d pc, l.Writes t n d ∧ l.mode = .r ∧ a.readOnly = false ∧ 0 < l.cnt t ∧ l.Alone t ∧
      n + (if a.switch then 1 else 0) = l.cnt t ∧ (a.switch = false → l.cnt t = 1) ∧
      (pc = l.pc ∨ pc = l.notifyAll.pc) ∧
      threadLevel os t a l s = (.store, { l with idents := d, mode := .free, pc := pc }, os.unlock s)) ∨
    ∃ n d, l.Writes t n d ∧ l.mode ≠ .free ∧ (0 < l.cnt t → l.mode ≠ .w) ∧
      (n = l.cnt t ∨ l.mode = .r ∧ a.readOnly = false ∧ a.switch = true ∧ n + 1 = l.cnt t ∧
        (0 < n ∨ ¬ l.Alone t)) ∧
      threadLevel os t a l s = (if a.block then .wait else .refuse, { l with idents := d }, s) := by
  have hsize : l.idents.size ≠ 0 ↔ ∃ u, 0 < l.cnt u := by
    rw [ne_eq, hp.size_iff]
    simp [Nat.pos_iff_ne_zero]
  unfold threadLevel
  simp only [hx, if_false, hp.contains_iff]
  by_cases h1 : l.mode = .r ∧ a.readOnly = true ∧ l.idents.size ≠ 0
  · exact .inl ⟨.inl ⟨h1.1, h1.2.1, hsize.1 h1.2.2⟩, if_pos h1⟩
  rw [if_neg h1]
  by_cases h2 : l.mode = .w ∧ 0 < l.cnt t
  · exact .inl ⟨.inr h2, if_pos h2⟩
  rw [if_neg h2]
  refine .inr ?_
  by_cases h3 : l.mode = .r ∧ 0 < l.cnt t
  · have hro : a.readOnly = false := by
      by_contra hro
      exact h1 ⟨h3.1, by simpa using hro, hsize.2 ⟨t, h3.2⟩⟩
    simp only [h3.1, h3.2, and_self, if_true]
    rcases stepDown_cases os s hp h3.2 a.switch with
      ⟨n, d, pc, hw, ha, hn, h1, hpc, he⟩ | ⟨n, d, hw, hn, he⟩
    · exact .inr (.inl ⟨n, d, pc, hw, trivial, hro, trivial, ha, hn, h1, hpc, by simp [he]⟩)
    · refine .inr (.inr ⟨n, d, hw, by simp, by simp, ?_, by simp [he, h3.1]⟩)
      rcases hn with rfl | hn
      · exact .inl rfl
      · exact .inr ⟨trivial, hro, hn⟩
  · simp only [h3, if_false]
    by_cases hf : l.mode = .free
    · exact .inl ⟨hf, by simp [hf]⟩
    · exact .inr (.inr ⟨_, _, writes_self l t, hf, fun h hm => h2 ⟨hm, h⟩, .inl rfl, by simp [hf]⟩)

/-- A pass of `acquire` up to the store. -/
theorem enter_trans (hp : l.Pos) (hx : l.mode ≠ .x) (hpc : l.pc t = .enter a probe)
    (hk : l.lock = none) (h : enter os t a probe l s = (ret, l', s')) : Trans os t l s ret l' s' := by
  unfold enter at h
  rcases threadLevel_cases os t s a hp hx with
    ⟨hm, he⟩ | ⟨hm, he⟩ | ⟨n, d, pc, hw, hm, hro, ht, ha, hn, h1, hpc', he⟩ | ⟨n, d, hw, hm, hr, hn, he⟩
  · simp only [he, finish_eq] at h
    cases h
    exact .again hpc hk hm ((writes_bump l t).change _ (.inl rfl) rfl hk)
  · simp only [he] at h
    cases h
    exact .first hpc hk hm (Writes.change (by exact writes_self l t) _ (.inl rfl) hm rfl)
  · simp only [he] at h
    cases h
    exact .upgrade hpc hk hm hro ht ha hn h1 (Writes.change (by exact hw) _ (hpc'.imp_right (⟨ha, ·⟩)) rfl rfl)
  · have hc : ∀ q, Change l ({ l with idents := d }.goto t q) t l.mode n none q := fun q =>
      Writes.change (by exact hw) q (.inl rfl) rfl hk
    cases hb : a.block with
    | true =>
      simp only [he, hb, if_true] at h
      cases h
      have : Trans os t l s _ _ _ := .held hpc hk hm hn hr (hc _)
      simpa only [hb, if_true, hk] using this
    | false =>
      simp only [he, hb, Bool.false_eq_true, if_false, finish_eq] at h
      cases h
      have : Trans os t l s _ _ _ := .held hpc hk hm hn hr (hc _)
      simpa only [hb, Bool.false_eq_true, if_false, hk] using this

/-- The store call that does not block. -/
theorem tryStore_trans (hp : l.Pos) (hpc : l.pc t = .tries a probe) (hal : l.Alone t)
    (h : tryStore os t a probe l s = (ret, l', s')) : Trans os t l s ret l' s' := by
  unfold tryStore at h
  cases hs : attempt os a s with
  | ok s₁ =>
    simp only [hs, finish_eq] at h
    cases h
    refine .granted hpc hs ?_
    split
    · exact Writes.change (by exact writes_bump l t) _ (.inr ⟨hal, rfl⟩) rfl rfl
    · exact Writes.change (by exact writes_bump l t) _ (.inl rfl) rfl rfl
  | error e =>
    have hself : ∀ m q, Change l ({ l with mode := m, lock := none }.goto t q) t m (l.cnt t) none q :=
      fun m q => Writes.change (by exact writes_self l t) q (.inl rfl) rfl rfl
    cases e with
    | blocking =>
      cases hb : a.block with
      | false =>
        simp only [hs, hb, Bool.not_false, if_true, finish_eq] at h
        cases h
        refine .denied hpc hs hb ?_
        have hc : OrdDict.contains { l with lock := none }.idents t = true ↔ 0 < l.cnt t := hp.contains_iff t
        simp only [hc]
        split
        · exact hself .r _
        · exact hself l.mode _
      | true =>
        simp only [hs, hb, Bool.not_true, Bool.false_eq_true, if_false] at h
        cases h
        exact .pend hpc hs hb (hself .p _)
    | closed =>
      simp only [hs, finish_eq] at h
      cases h
      exact .failed hpc hs (by simp) (hself l.mode _)
    | overflow =>
      simp only [hs, finish_eq] at h
      cases h
      exact .failed hpc hs (by simp) (hself l.mode _)

/-- What the store call that blocks brought. -/
theorem publish_trans {ok : Bool} (hpc : l.pc t = .back a probe ok) (hal : l.Alone t) (hk : l.lock = none) (hx : l.mode ≠ .x)
    (h : publish os t a probe ok l s = (ret, l', s')) : Trans os t l s ret l' s' := by
  unfold publish at h
  have hx' : (if l.mode = .p then { l with mode := .free } else l).notifyAll.mode ≠ .x := by
    split
    · simp [notifyAll]
    · exact hx
  simp only [hx', if_false] at h
  cases ok with
  | true =>
    simp only [Bool.not_true, Bool.false_eq_true, if_false, finish_eq] at h
    cases h
    refine .published hpc hk hx (Writes.change ?_ _ (.inr ⟨hal, ?_⟩) rfl ?_)
    · split <;> exact writes_bump l t
    · have hn := congrArg pc (notifyAll_notifyAll l)
      split <;> exact hn
    · split <;> exact hk
  | false =>
    simp only [Bool.not_false, if_true, finish_eq] at h
    cases h
    refine .gaveUp hpc hk (.inl ⟨rfl, rfl⟩) (Writes.change ?_ _ (.inr ⟨hal, ?_⟩) ?_ ?_)
    · split <;> exact writes_self l t
    · split <;> rfl
    · split <;> rfl
    · split <;> exact hk

/-- `release`, but for what it returns. -/
theorem releaseOne_change (os : OsLock σ) (t : ℕ) (s : σ) (hp : l.Pos) (hk : l.lock = none) :
    (l.cnt t = 1 ∧ l.Alone t ∧ (releaseOne os t l s).2 = os.unlock s ∧
        Change l ((releaseOne os t l s).1.goto t .idle) t .free 0 none .idle) ∨
      (¬ (l.cnt t = 1 ∧ l.Alone t) ∧ (releaseOne os t l s).2 = s ∧
        Change l ((releaseOne os t l s).1.goto t .idle) t l.mode (l.cnt t - 1) none .idle) := by
  unfold releaseOne
  by_cases ht : 0 < l.cnt t
  · rw [if_pos ((hp.contains_iff t).2 ht)]
    obtain ⟨rest, hrest, hw⟩ : ∃ rest, rest = (if l.cnt t ≤ 1 then l.idents.pop t
        else l.idents.set t (l.cnt t - 1)) ∧ l.Writes t (l.cnt t - 1) rest := by
      refine ⟨_, rfl, ?_⟩
      split
      · rw [show l.cnt t - 1 = 0 by omega]
        exact writes_pop l t
      · exact writes_set l t (by omega)
    simp only [← hrest]
    have hsize := hw.size_iff hp
    by_cases h0 : rest.size = 0
    · obtain ⟨h1, ha⟩ := hsize.1 h0
      rw [h1] at hw
      simp only [h0, if_true]
      exact .inl ⟨by omega, ha, trivial, Writes.change (by exact hw) _ (.inr ⟨ha, rfl⟩) rfl hk⟩
    · simp only [h0, if_false]
      refine .inr ⟨fun h => h0 (hsize.2 ⟨by omega, h.2⟩), trivial, ?_⟩
      exact Writes.change (by exact hw) _ (.inl rfl) rfl hk
  · rw [if_neg fun hc => ht ((hp.contains_iff t).1 hc)]
    have hw := writes_self l t
    rw [show l.cnt t = l.cnt t - 1 by omega] at hw
    exact .inr ⟨by omega, rfl, hw.change _ (.inl rfl) rfl hk⟩

/-- **The steps of the code** are among those. -/
theorem run_trans (hp : l.Pos) (hx : l.mode ≠ .x) (ha : (l.pc t).Busy → l.Alone t)
    (h : run os t l s = some (ret, l', s')) : Trans os t l s ret l' s' := by
  have hself : ∀ q, Change l (l.goto t q) t l.mode (l.cnt t) l.lock q := fun q =>
    (writes_self l t).change q (.inl rfl) rfl rfl
  unfold run at h
  cases hpc : l.pc t with
  | idle => simp [hpc] at h
  | waits a probe => simp [hpc] at h
  | stray a probe => simp [hpc] at h
  | enter a probe =>
    simp only [hpc, Option.ite_none_right_eq_some, Option.some.injEq] at h
    exact enter_trans hp hx hpc h.1 h.2
  | tries a probe =>
    simp only [hpc, Option.some.injEq] at h
    exact tryStore_trans hp hpc (ha (by rw [hpc]; trivial)) h
  | pends a probe =>
    simp only [hpc, Option.some.injEq] at h
    cases h
    exact .queue hpc (hself _)
  | blocks a probe =>
    cases hs : attempt os a s with
    | ok s₁ =>
      simp only [hpc, hs, Option.some.injEq] at h
      cases h
      exact .woken hpc hs (hself _)
    | error e =>
      cases e with
      | blocking => simp [hpc, hs] at h
      | closed =>
        simp only [hpc, hs, Option.some.injEq] at h
        cases h
        exact .lost hpc hs (by simp) (hself _)
      | overflow =>
        simp only [hpc, hs, Option.some.injEq] at h
        cases h
        exact .lost hpc hs (by simp) (hself _)
  | back a probe ok =>
    simp only [hpc, Option.ite_none_right_eq_some, Option.some.injEq] at h
    exact publish_trans hpc (ha (by rw [hpc]; trivial)) h.1 hx h.2
  | release =>
    simp only [hpc, Option.ite_none_right_eq_some, Option.some.injEq] at h
    obtain ⟨hk, h⟩ := h
    cases h
    have hd : l.idents.contains t = decide (0 < l.cnt t) := by
      rw [Bool.eq_iff_iff, decide_eq_true_iff]
      exact hp.contains_iff t
    exact .release hk (.inl ⟨hpc, by rw [hd]⟩) (releaseOne_change os t s hp hk)
  | closing res =>
    simp only [hpc, Option.ite_none_right_eq_some, Option.some.injEq] at h
    obtain ⟨hk, h⟩ := h
    cases h
    exact .release hk (.inr ⟨res, hpc, rfl⟩) (releaseOne_change os t s hp hk)

/-! ## One thread at the store -/

/-- Nobody is at the store. -/
structure Resting (l : FileLock) : Prop where
  busy : ∀ t, ¬ (l.pc t).Busy
  lock : l.lock = none
  mode : l.mode ≠ .p
  free : l.mode = .free ↔ ∀ t, l.cnt t = 0

/-- What holds while `t` is at the store with an `acquire`. -/
structure Visit (l : FileLock) (t : ℕ) (a : Acquire) (m : LockMode) (k : Option ℕ) : Prop where
  busy : ∀ u, u ≠ t → ¬ (l.pc u).Busy
  alone : l.Alone t
  reads : 0 < l.cnt t → a.readOnly = false
  mode : l.mode = m
  lock : l.lock = k

/-- `t` is at the store: with the mutex at first, and with the mode `'p'` after. -/
def Visitor (l : FileLock) (t : ℕ) : Prop :=
  match l.pc t with
  | .tries a _ => l.Visit t a .free (some t)
  | .pends a _ | .blocks a _ => l.Visit t a .p none
  | .back a _ ok => l.Visit t a .p none ∧ (ok = false → a.readOnly = true)
  | _ => False

/-- At most one thread is at the store. -/
def Place (l : FileLock) : Prop := l.Resting ∨ ∃ t, l.Visitor t

/-- **The invariant of a `FileLock`.** -/
structure Ok (l : FileLock) : Prop where
  pos : l.Pos
  opened : l.mode ≠ .x
  place : l.Place

theorem ok_init : Ok {} where
  pos t := by simp
  opened := by decide
  place := .inl ⟨fun _ h => h, rfl, by decide, by simp [cnt]⟩

theorem Goes.busy {pc pc' : ℕ → Pc} {q : Pc} (h : Goes pc pc' t q) {u : ℕ} (hu : u ≠ t) :
    (¬ (pc' u).Busy ↔ ¬ (pc u).Busy) ∧ ((pc u).Busy → pc' u = pc u) := by
  rcases h.others u hu with he | ⟨a, probe, he, he'⟩
  · simp [he]
  · simp [he, he', Pc.Busy]

theorem after_not_busy (probe : Bool) (ret : LockRet) : ¬ (after probe ret).2.Busy := by
  cases probe <;> exact id

/-- Nobody is at the store once a step has brought the only visitor back. -/
theorem Change.resting {m : LockMode} {n : ℕ} {q : Pc} (hc : Change l l' t m n none q)
    (hb : ∀ u, u ≠ t → ¬ (l.pc u).Busy) (hq : ¬ q.Busy) (hm : m ≠ .p)
    (hf : m = .free ↔ n = 0 ∧ l.Alone t) : l'.Resting where
  busy u := by
    by_cases hu : u = t
    · rw [hu, hc.goes.at_]
      exact hq
    · exact (hc.goes.busy hu).1.2 (hb u hu)
  lock := hc.lock
  mode := by rw [hc.mode]; exact hm
  free := by
    rw [hc.mode, hf]
    constructor
    · rintro ⟨hn, ha⟩ u
      rw [hc.cnt]
      split
      · exact hn
      · rename_i hu
        exact ha u hu
    · intro h
      constructor
      · simpa [hc.cnt] using h t
      · intro u hu
        simpa [hc.cnt, hu] using h u

/-- A step that leaves its thread at the store. -/
theorem Change.visit {a : Acquire} {m : LockMode} {n : ℕ} {k : Option ℕ} {q : Pc}
    (hc : Change l l' t m n k q) (hb : ∀ u, u ≠ t → ¬ (l.pc u).Busy) (ha : l.Alone t)
    (hr : 0 < n → a.readOnly = false) : l'.Visit t a m k where
  busy u hu := (hc.goes.busy hu).1.2 (hb u hu)
  alone u hu := by
    rw [hc.cnt, if_neg hu]
    exact ha u hu
  reads := by
    rw [hc.cnt, if_pos rfl]
    exact hr
  mode := hc.mode
  lock := hc.lock

/-- Steps of the others do not touch a visit. -/
theorem Visit.other {a : Acquire} {m : LockMode} {k : Option ℕ} {q : Pc} {v : ℕ}
    (h : l.Visit v a m k) (hv : v ≠ t) (hq : ¬ q.Busy) (hc : Change l l' t l.mode 0 l.lock q) :
    l'.Visit v a m k where
  busy u hu := by
    by_cases hut : u = t
    · rw [hut, hc.goes.at_]
      exact hq
    · exact (hc.goes.busy hut).1.2 (h.busy u hu)
  alone u hu := by
    rw [hc.cnt]
    split
    · rfl
    · exact h.alone u hu
  reads := by
    rw [hc.cnt, if_neg hv]
    exact h.reads
  mode := hc.mode.trans h.mode
  lock := hc.lock.trans h.lock

/-- Every step changes only its own thread's count, and never closes the lock. -/
theorem Trans.change (h : Trans os t l s ret l' s') (hx : l.mode ≠ .x) :
    ∃ m n k q, m ≠ .x ∧ Change l l' t m n k q := by
  have hwant : ∀ a, wanted a ≠ .x := fun a => by unfold wanted; split <;> simp
  cases h with
  | again _ _ _ hc | held _ _ _ _ _ hc | failed _ _ _ hc | queue _ hc | woken _ _ hc | lost _ _ _ hc =>
    exact ⟨_, _, _, _, hx, hc⟩
  | first _ _ _ hc | upgrade _ _ _ _ _ _ _ _ hc | pend _ _ _ hc => exact ⟨_, _, _, _, by simp, hc⟩
  | granted _ _ hc | published _ _ _ hc => exact ⟨_, _, _, _, hwant _, hc⟩
  | denied _ _ _ hc => exact ⟨_, _, _, _, by split <;> simp [hx], hc⟩
  | gaveUp _ _ _ hc => exact ⟨_, _, _, _, by split <;> simp [hx], hc⟩
  | release _ _ hs =>
    rcases hs with ⟨-, -, -, hc⟩ | ⟨-, -, hc⟩
    · exact ⟨_, _, _, _, by simp, hc⟩
    · exact ⟨_, _, _, _, hx, hc⟩

/-- Whoever steps while nobody is at the store holds the mutex throughout, or goes there. -/
theorem Trans.place_of_resting (h : Trans os t l s ret l' s') (hr : l.Resting) : l'.Place := by
  have hb : ∀ u, u ≠ t → ¬ (l.pc u).Busy := fun u _ => hr.busy u
  have hbusy : ∀ q, l.pc t = q → q.Busy → False := fun q hq h => hr.busy t (hq ▸ h)
  cases h with
  | granted hpc | denied hpc | pend hpc | failed hpc | queue hpc | woken hpc | lost hpc
    | published hpc | gaveUp hpc => exact (hbusy _ hpc trivial).elim
  | again hpc hk hm hc =>
    refine .inl (hc.resting hb (after_not_busy _ _) hr.mode ?_)
    rw [hr.free]
    constructor
    · intro h0
      rcases hm with ⟨-, -, u, hu⟩ | ⟨-, ht⟩
      · have := h0 u
        omega
      · have := h0 t
        omega
    · rintro ⟨h0, -⟩
      omega
  | held hpc hk hm hn hw hc =>
    refine .inl (hc.resting hb ?_ hr.mode ?_)
    · split
      · exact id
      · exact after_not_busy _ _
    rcases hn with rfl | ⟨-, -, -, hn, hpos⟩
    · rw [hr.free]
      constructor
      · exact fun h0 => ⟨h0 t, fun u _ => h0 u⟩
      · rintro ⟨h0, ha⟩ u
        by_cases hu : u = t
        · exact hu ▸ h0
        · exact ha u hu
    · constructor
      · exact fun h0 => absurd h0 hm
      · rintro ⟨rfl, ha⟩
        rcases hpos with hpos | hpos
        · omega
        · exact absurd ha hpos
  | first hpc hk hm hc =>
    have h0 := hr.free.1 hm
    refine .inr ⟨t, ?_⟩
    unfold Visitor
    rw [hc.goes.at_]
    exact hc.visit hb (fun u _ => h0 u) fun h => by have := h0 t; omega
  | upgrade hpc hk hm hro ht ha hn h1 hc =>
    refine .inr ⟨t, ?_⟩
    unfold Visitor
    rw [hc.goes.at_]
    exact hc.visit hb ha fun _ => hro
  | release hk hpc hs =>
    rcases hs with ⟨-, ha, -, hc⟩ | ⟨hn, -, hc⟩
    · exact .inl (hc.resting hb id (by simp) (by simp [ha]))
    · refine .inl (hc.resting hb id hr.mode ?_)
      rw [hr.free]
      constructor
      · exact fun h0 => ⟨by rw [h0 t], fun u _ => h0 u⟩
      · rintro ⟨h0, ha⟩ u
        have : l.cnt t ≠ 1 := fun h1 => hn ⟨h1, ha⟩
        by_cases hu : u = t
        · rw [hu]
          omega
        · exact ha u hu

/-- The visitor itself: the store call, and the way back. -/
theorem Trans.place_of_visitor (h : Trans os t l s ret l' s')
    (hw : ∀ e, os.wlock s = .error e → e = .blocking) (hv : l.Visitor t) : l'.Place := by
  unfold Visitor at hv
  have hwant : ∀ a, wanted a ≠ .p ∧ wanted a ≠ .free := fun a => by unfold wanted; split <;> simp
  -- a call that fails for good was one of a reader
  have hro : ∀ {a e}, attempt os a s = .error e → e ≠ .blocking → a.readOnly = true := by
    intro a e hs he
    unfold attempt at hs
    split at hs
    · assumption
    · exact absurd (hw e hs) he
  cases h with
  | again hpc | held hpc | first hpc | upgrade hpc => simp [hpc] at hv
  | release hk hpc => rcases hpc with ⟨hpc, -⟩ | ⟨res, hpc, -⟩ <;> simp [hpc] at hv
  | granted hpc hs hc =>
    simp only [hpc] at hv
    exact .inl (hc.resting hv.busy (after_not_busy _ _) (hwant _).1 (by simp [hwant]))
  | denied hpc hs hb hc =>
    simp only [hpc] at hv
    refine .inl (hc.resting hv.busy (after_not_busy _ _) ?_ ?_)
    · split <;> simp [hv.mode]
    · split
      · simp
        omega
      · simp only [hv.mode, hv.alone, and_true, true_iff]
        omega
  | pend hpc hs hb hc =>
    simp only [hpc] at hv
    refine .inr ⟨t, ?_⟩
    unfold Visitor
    rw [hc.goes.at_]
    exact hc.visit hv.busy hv.alone hv.reads
  | failed hpc hs he hc =>
    simp only [hpc] at hv
    have h0 : l.cnt t = 0 := by
      by_contra h0
      simpa [hro hs he] using hv.reads (by omega)
    exact .inl (hc.resting hv.busy (after_not_busy _ _) (by simp [hv.mode]) (by simp [hv.mode, h0, hv.alone]))
  | queue hpc hc =>
    simp only [hpc] at hv
    refine .inr ⟨t, ?_⟩
    unfold Visitor
    simp only [hv.mode, hv.lock, if_true] at hc
    rw [hc.goes.at_]
    exact hc.visit hv.busy hv.alone hv.reads
  | woken hpc hs hc =>
    simp only [hpc] at hv
    refine .inr ⟨t, ?_⟩
    unfold Visitor
    rw [hv.mode, hv.lock] at hc
    rw [hc.goes.at_]
    exact ⟨hc.visit hv.busy hv.alone hv.reads, by simp⟩
  | lost hpc hs he hc =>
    simp only [hpc] at hv
    refine .inr ⟨t, ?_⟩
    unfold Visitor
    rw [hv.mode, hv.lock] at hc
    rw [hc.goes.at_]
    exact ⟨hc.visit hv.busy hv.alone hv.reads, fun _ => hro hs he⟩
  | published hpc hk hx hc =>
    simp only [hpc] at hv
    exact .inl (hc.resting hv.1.busy (after_not_busy _ _) (hwant _).1 (by simp [hwant]))
  | gaveUp hpc hk hx hc =>
    simp only [hpc] at hv
    have hro : _ ∧ _ := hx.resolve_right (by simp [hv.1.mode])
    have h0 : l.cnt t = 0 := by
      by_contra h0
      simpa [hv.2 hro.1] using hv.1.reads (by omega)
    simp only [hv.1.mode, if_true] at hc
    exact .inl (hc.resting hv.1.busy (after_not_busy _ _) (by simp) (by simp [h0, hv.1.alone]))

theorem Visitor.mode (h : l.Visitor t) : l.mode = .free ∧ l.lock = some t ∨ l.mode = .p ∧ l.lock = none := by
  unfold Visitor at h
  split at h
  · exact .inl ⟨h.mode, h.lock⟩
  · exact .inr ⟨h.mode, h.lock⟩
  · exact .inr ⟨h.mode, h.lock⟩
  · exact .inr ⟨h.1.mode, h.1.lock⟩
  · exact h.elim

theorem Visitor.others (h : l.Visitor t) : (∀ u, u ≠ t → ¬ (l.pc u).Busy) ∧ l.Alone t := by
  unfold Visitor at h
  split at h
  · exact ⟨h.busy, h.alone⟩
  · exact ⟨h.busy, h.alone⟩
  · exact ⟨h.busy, h.alone⟩
  · exact ⟨h.1.busy, h.1.alone⟩
  · exact h.elim

theorem Visitor.isBusy (h : l.Visitor t) : (l.pc t).Busy := by
  unfold Visitor at h
  split at h <;> simp_all [Pc.Busy]

/-- A step of another thread that changes neither the mode nor a count. -/
theorem Visitor.other {q : Pc} {v : ℕ} (h : l.Visitor v) (hv : v ≠ t) (hq : ¬ q.Busy)
    (hc : Change l l' t l.mode 0 l.lock q) : l'.Visitor v := by
  have hpc : l'.pc v = l.pc v := (hc.goes.busy hv).2 h.isBusy
  unfold Visitor at h ⊢
  rw [hpc]
  split at h
  · exact h.other hv hq hc
  · exact h.other hv hq hc
  · exact h.other hv hq hc
  · exact ⟨h.1.other hv hq hc, h.2⟩
  · exact h

/-- While somebody is at the store, the others wait for the mutex or see the mode `'p'`. -/
theorem Trans.of_other {v : ℕ} (h : Trans os t l s ret l' s') (hv : l.Visitor v) (ht : v ≠ t) :
    ∃ q, ¬ q.Busy ∧ Change l l' t l.mode 0 l.lock q ∧ s' = s := by
  have hnot := hv.others.1 t (Ne.symm ht)
  have h0 : l.cnt t = 0 := hv.others.2 t (Ne.symm ht)
  have hbusy : ∀ q, l.pc t = q → q.Busy → False := fun q hq h => hnot (hq ▸ h)
  have hp : l.lock = none → l.mode = .p := fun hk => by
    rcases hv.mode with ⟨-, hl⟩ | ⟨hm, -⟩
    · simp [hk] at hl
    · exact hm
  cases h with
  | granted hpc | denied hpc | pend hpc | failed hpc | queue hpc | woken hpc | lost hpc
    | published hpc | gaveUp hpc => exact (hbusy _ hpc trivial).elim
  | again hpc hk hm hc => simp [hp hk] at hm
  | first hpc hk hm hc => simp [hp hk] at hm
  | upgrade hpc hk hm hro ht' ha hn h1 hc => omega
  | @held l' a probe n hpc hk hm hn hw hc =>
    have hn0 : n = 0 := by
      rcases hn with rfl | ⟨-, -, -, hn, -⟩
      · exact h0
      · omega
    rw [hn0, ← hk] at hc
    refine ⟨_, ?_, hc, rfl⟩
    split
    · exact id
    · exact after_not_busy _ _
  | release hk hpc hs =>
    rcases hs with ⟨h1, -⟩ | ⟨-, rfl, hc⟩
    · omega
    · rw [h0, ← hk] at hc
      exact ⟨_, id, hc, rfl⟩

/-- **Every step keeps the invariant**, at a store that never refuses a writer for good. -/
theorem Trans.ok (h : Trans os t l s ret l' s') (hw : ∀ e, os.wlock s = .error e → e = .blocking)
    (ho : l.Ok) : l'.Ok := by
  obtain ⟨m, n, k, q, hm, hc⟩ := h.change ho.opened
  refine ⟨hc.pos ho.pos, by rw [hc.mode]; exact hm, ?_⟩
  rcases ho.place with hr | ⟨v, hv⟩
  · exact h.place_of_resting hr
  · by_cases ht : v = t
    · exact h.place_of_visitor hw (ht ▸ hv)
    · obtain ⟨q, hq, hc, -⟩ := h.of_other hv ht
      exact .inr ⟨v, hv.other ht hq hc⟩

/-- Whoever is at the store is its only visitor. -/
theorem Ok.visitor (ho : l.Ok) (hb : (l.pc t).Busy) : l.Visitor t := by
  rcases ho.place with hr | ⟨v, hv⟩
  · exact absurd hb (hr.busy t)
  · have ht : t = v := by
      by_contra ht
      exact hv.others.1 t ht hb
    exact ht ▸ hv

/-- The steps of the code from a state the invariant holds of. -/
theorem Ok.trans (ho : l.Ok) (h : run os t l s = some (ret, l', s')) : Trans os t l s ret l' s' :=
  run_trans ho.pos ho.opened (fun hb => (ho.visitor hb).others.2) h

/-! ## Calls begin -/

/-- A call of an idle thread puts it before the mutex. -/
theorem begin_change {c : LockCall} (h : l.begin t c = some l') :
    l.pc t = .idle ∧ ∃ q, ¬ q.Busy ∧ Change l l' t l.mode (l.cnt t) l.lock q := by
  unfold begin at h
  split at h
  · rename_i hi
    cases h
    refine ⟨hi, _, ?_, (writes_self l t).change _ (.inl rfl) rfl rfl⟩
    cases c <;> exact id
  · cases h

theorem begin_ok {c : LockCall} (ho : l.Ok) (h : l.begin t c = some l') : l'.Ok := by
  obtain ⟨hi, q, hq, hc⟩ := begin_change h
  refine ⟨hc.pos ho.pos, by rw [hc.mode]; exact ho.opened, ?_⟩
  rcases ho.place with hr | ⟨v, hv⟩
  · rw [hr.lock] at hc
    refine .inl (hc.resting (fun u _ => hr.busy u) hq hr.mode ?_)
    rw [hr.free]
    constructor
    · exact fun h0 => ⟨h0 t, fun u _ => h0 u⟩
    · rintro ⟨h0, ha⟩ u
      by_cases hu : u = t
      · rw [hu, h0]
      · exact ha u hu
  · have ht : v ≠ t := by
      rintro rfl
      have := hv.isBusy
      rw [hi] at this
      exact this
    rw [hv.others.2 t (Ne.symm ht)] at hc
    exact .inr ⟨v, hv.other ht hq hc⟩

end FileLock

end OmniJsonDb
