import Mathlib.Data.Fintype.Basic
import Mathlib.Data.Finset.Card
import OmniJsonDb.Proof.FileLock

/-!
# File locks that share a store

* `Ledger`, `Trans.ledger`: what a step does to the store it also does to what the file
  lock holds, unless a reader that gave the store back is refused and reads on.
* `LockSys.Inv`: the lock bytes are what the file locks hold.
-/

namespace OmniJsonDb

namespace FileLock

variable {σ : Type} {os : OsLock σ} {l l' : FileLock} {s s' : σ} {t : ℕ} {ret : Option LockRet}

/-! ## What a file lock holds -/

/-- A thread has been granted the store and has not recorded it yet. -/
def Granted (l : FileLock) (m : LockMode) : Prop := ∃ t a probe, l.pc t = .back a probe true ∧ wanted a = m

/-- What a file lock holds of the store: its mode, or what it has just been granted. -/
def Holds (l : FileLock) (m : LockMode) : Prop :=
  (m = .r ∨ m = .w) ∧ (l.mode = m ∨ l.Granted m)

/-- A reader gave the store back to write, was not to wait, and is refused. -/
def Strands (os : OsLock σ) (l : FileLock) (t : ℕ) (s : σ) : Prop :=
  ∃ a probe, l.pc t = .tries a probe ∧ a.block = false ∧ 0 < l.cnt t ∧ os.wlock s = .error .blocking

theorem wanted_eq (a : Acquire) : wanted a = .r ∨ wanted a = .w := by
  unfold wanted
  split <;> simp

/-- Nobody is granted anything while nobody is at the store. -/
theorem Resting.granted (h : l.Resting) (m : LockMode) : ¬ l.Granted m := by
  rintro ⟨t, a, probe, hpc, -⟩
  exact h.busy t (by rw [hpc]; trivial)

/-- The visitor is the one that may have been granted something. -/
theorem Visitor.granted (h : l.Visitor t) (m : LockMode) :
    l.Granted m ↔ ∃ a probe, l.pc t = .back a probe true ∧ wanted a = m := by
  constructor
  · rintro ⟨u, a, probe, hpc, hm⟩
    by_cases hu : u = t
    · exact ⟨a, probe, hu ▸ hpc, hm⟩
    · exact absurd (by rw [hpc]; trivial) (h.others.1 u hu)
  · rintro ⟨a, probe, hpc, hm⟩
    exact ⟨t, a, probe, hpc, hm⟩

theorem Resting.holds (h : l.Resting) (m : LockMode) : l.Holds m ↔ (m = .r ∨ m = .w) ∧ l.mode = m := by
  unfold Holds
  simp [h.granted m]

theorem Visitor.holds (h : l.Visitor t) (m : LockMode) :
    l.Holds m ↔ ∃ a probe, l.pc t = .back a probe true ∧ wanted a = m := by
  unfold Holds
  rw [h.granted]
  constructor
  · rintro ⟨hm, hl | hg⟩
    · rcases h.mode with ⟨hf, -⟩ | ⟨hf, -⟩ <;> rcases hm with rfl | rfl <;> simp [hf] at hl
    · exact hg
  · rintro ⟨a, probe, hpc, rfl⟩
    exact ⟨wanted_eq a, .inr ⟨a, probe, hpc, rfl⟩⟩

/-- **What a step does to the store**, and to what the file lock holds of it. -/
inductive Ledger (os : OsLock σ) (l : FileLock) (s : σ) (l' : FileLock) (s' : σ) : Prop
  | same (hs : s' = s) (h : ∀ m, l'.Holds m ↔ l.Holds m)
  | take (m : LockMode) (hs : m = .r ∧ os.rlock s = .ok s' ∨ m = .w ∧ os.wlock s = .ok s')
      (h : ∀ m', ¬ l.Holds m') (h' : ∀ m', l'.Holds m' ↔ m' = m)
  | give (m : LockMode) (hs : s' = os.unlock s) (h : ∀ m', l.Holds m' ↔ m' = m) (h' : ∀ m', ¬ l'.Holds m')

theorem attempt_ok {a : Acquire} (h : attempt os a s = .ok s') :
    wanted a = .r ∧ os.rlock s = .ok s' ∨ wanted a = .w ∧ os.wlock s = .ok s' := by
  unfold attempt at h
  unfold wanted
  split at h
  · exact .inl ⟨by simp [*], h⟩
  · exact .inr ⟨by simp [*], h⟩

/-- What a file lock holds once its thread has stepped, and nobody else is at the store. -/
theorem Change.holds {m : LockMode} {n : ℕ} {k : Option ℕ} {q : Pc} (hc : Change l l' t m n k q)
    (hb : ∀ u, u ≠ t → ¬ (l.pc u).Busy) (m' : LockMode) : l'.Holds m' ↔
      (m' = .r ∨ m' = .w) ∧ (m = m' ∨ ∃ a probe, q = .back a probe true ∧ wanted a = m') := by
  have hg : l'.Granted m' ↔ ∃ a probe, q = .back a probe true ∧ wanted a = m' := by
    constructor
    · rintro ⟨u, a, probe, hpc, hm⟩
      by_cases hu : u = t
      · rw [hu, hc.goes.at_] at hpc
        exact ⟨a, probe, hpc, hm⟩
      · have : ¬ (l'.pc u).Busy := (hc.goes.busy hu).1.2 (hb u hu)
        exact absurd (by rw [hpc]; trivial) this
    · rintro ⟨a, probe, rfl, hm⟩
      exact ⟨t, a, probe, hc.goes.at_, hm⟩
  unfold Holds
  rw [hg, hc.mode]

/-- The same, where the thread has not been granted anything. -/
theorem Change.holds_mode {m : LockMode} {n : ℕ} {k : Option ℕ} {q : Pc} (hc : Change l l' t m n k q)
    (hb : ∀ u, u ≠ t → ¬ (l.pc u).Busy) (hq : ∀ a probe, q ≠ .back a probe true) (m' : LockMode) :
    l'.Holds m' ↔ (m' = .r ∨ m' = .w) ∧ m = m' := by
  rw [hc.holds hb]
  simp [hq]

/-- Free or pending, and nothing granted: nothing is held. -/
theorem Change.holds_none {m : LockMode} {n : ℕ} {k : Option ℕ} {q : Pc} (hc : Change l l' t m n k q)
    (hb : ∀ u, u ≠ t → ¬ (l.pc u).Busy) (hq : ∀ a probe, q ≠ .back a probe true)
    (hm : m = .free ∨ m = .p) (m' : LockMode) : ¬ l'.Holds m' := by
  rw [hc.holds_mode hb hq]
  rintro ⟨rfl | rfl, rfl⟩ <;> simp at hm

theorem Ledger.idle (h : ∀ m, ¬ l.Holds m) (h' : ∀ m, ¬ l'.Holds m) : Ledger os l s l' s :=
  .same rfl fun m => by simp [h, h']

/-- An `acquire` that is over has not been granted anything. -/
theorem after_ne_back (probe : Bool) (ret : LockRet) (a : Acquire) (p : Bool) :
    (after probe ret).2 ≠ .back a p true := fun h =>
  after_not_busy probe ret (by rw [h]; trivial)

/-- A step while nobody is at the store. -/
theorem Trans.ledger_of_resting (h : Trans os t l s ret l' s') (hx : l.mode ≠ .x) (hr : l.Resting) :
    Ledger os l s l' s' := by
  have hb : ∀ u, u ≠ t → ¬ (l.pc u).Busy := fun u _ => hr.busy u
  have hbusy : ∀ q, l.pc t = q → q.Busy → False := fun q hq h => hr.busy t (hq ▸ h)
  cases h with
  | granted hpc | denied hpc | pend hpc | failed hpc | queue hpc | woken hpc | lost hpc
    | published hpc | gaveUp hpc => exact (hbusy _ hpc trivial).elim
  | again hpc hk hm hc =>
    refine .same rfl fun m => ?_
    rw [hc.holds_mode hb (after_ne_back _ _), hr.holds]
  | held hpc hk hm hn hw hc =>
    refine .same rfl fun m => ?_
    rw [hc.holds_mode hb ?_, hr.holds]
    intro a probe
    split
    · simp
    · exact after_ne_back _ _ a probe
  | first hpc hk hm hc =>
    refine .same rfl fun m => ?_
    rw [hc.holds_mode hb (by simp), hr.holds, hm]
  | upgrade hpc hk hm hro ht ha hn h1 hc =>
    refine .give .r rfl (fun m => ?_) fun m => ?_
    · rw [hr.holds, hm]
      constructor
      · rintro ⟨-, rfl⟩
        rfl
      · rintro rfl
        simp
    · exact hc.holds_none hb (by simp) (.inl rfl) m
  | release hk hpc hs =>
    rcases hs with ⟨h1, ha, rfl, hc⟩ | ⟨hn, rfl, hc⟩
    · have hf : l.mode ≠ .free := fun hf => by
        have := hr.free.1 hf t
        omega
      have hm : l.mode = .r ∨ l.mode = .w := by
        have hp := hr.mode
        cases hl : l.mode <;> simp_all
      refine .give l.mode rfl (fun m => ?_) fun m => ?_
      · rw [hr.holds]
        constructor
        · exact fun h => h.2.symm
        · rintro rfl
          exact ⟨hm, rfl⟩
      · exact hc.holds_none hb (by simp) (.inl rfl) m
    · refine .same rfl fun m => ?_
      rw [hc.holds_mode hb (by simp), hr.holds]

/-- The visitor's own step. -/
theorem Trans.ledger_of_visitor (h : Trans os t l s ret l' s') (hv : l.Visitor t)
    (hs : ¬ Strands os l t s) : Ledger os l s l' s' := by
  have hb := hv.others.1
  have hH := hv.holds
  unfold Visitor at hv
  cases h with
  | again hpc | held hpc | first hpc | upgrade hpc => simp [hpc] at hv
  | release hk hpc => rcases hpc with ⟨hpc, -⟩ | ⟨res, hpc, -⟩ <;> simp [hpc] at hv
  | granted hpc ha hc =>
    refine .take (wanted _) (attempt_ok ha) (fun m => ?_) fun m => ?_
    · simp [hH, hpc]
    · rw [hc.holds_mode hb (after_ne_back _ _)]
      constructor
      · exact fun h => h.2.symm
      · rintro rfl
        exact ⟨wanted_eq _, rfl⟩
  | @denied l' a probe hpc ha hbl hc =>
    simp only [hpc] at hv
    have h0 : ¬ 0 < l.cnt t := fun h0 => hs ⟨a, probe, hpc, hbl, h0, by
      simpa [attempt, hv.reads h0] using ha⟩
    rw [if_neg h0] at hc
    exact .idle (fun m => by simp [hH, hpc]) (hc.holds_none hb (after_ne_back _ _) (.inl hv.mode))
  | pend hpc ha hbl hc =>
    exact .idle (fun m => by simp [hH, hpc]) (hc.holds_none hb (by simp) (.inr rfl))
  | failed hpc ha he hc =>
    simp only [hpc] at hv
    exact .idle (fun m => by simp [hH, hpc]) (hc.holds_none hb (after_ne_back _ _) (.inl hv.mode))
  | queue hpc hc =>
    simp only [hpc] at hv
    simp only [hv.mode, if_true] at hc
    exact .idle (fun m => by simp [hH, hpc]) (hc.holds_none hb (by simp) (.inr rfl))
  | @woken l' s' a probe hpc ha hc =>
    simp only [hpc] at hv
    refine .take (wanted a) (attempt_ok ha) (fun m => ?_) fun m => ?_
    · simp [hH, hpc]
    · rw [hc.holds hb, hv.mode]
      constructor
      · rintro ⟨hm | hm, rfl | ⟨a', probe', he, rfl⟩⟩ <;> simp_all
      · rintro rfl
        exact ⟨wanted_eq a, .inr ⟨a, probe, rfl, rfl⟩⟩
  | lost hpc ha he hc =>
    simp only [hpc] at hv
    exact .idle (fun m => by simp [hH, hpc]) (hc.holds_none hb (by simp) (.inr hv.mode))
  | @published l' a probe hpc hk hx hc =>
    refine .same rfl fun m => ?_
    rw [hc.holds_mode hb (after_ne_back _ _), hH]
    constructor
    · rintro ⟨-, rfl⟩
      exact ⟨a, probe, hpc, rfl⟩
    · rintro ⟨a', probe', hpc', rfl⟩
      rw [hpc] at hpc'
      cases hpc'
      exact ⟨wanted_eq a, rfl⟩
  | gaveUp hpc hk hx hc =>
    simp only [hpc] at hv
    obtain ⟨rfl, rfl⟩ := hx.resolve_right (by simp [hv.1.mode])
    rw [if_pos hv.1.mode] at hc
    exact .idle (fun m => by simp [hH, hpc]) (hc.holds_none hb (after_ne_back _ _) (.inl rfl))

/-- A step of another thread leaves the visitor, and so what is held. -/
theorem Trans.ledger_of_other {v : ℕ} (h : Trans os t l s ret l' s') (hv : l.Visitor v) (ht : v ≠ t) :
    Ledger os l s l' s' := by
  obtain ⟨q, hq, hc, rfl⟩ := h.of_other hv ht
  have hpc : l'.pc v = l.pc v := (hc.goes.busy ht).2 hv.isBusy
  refine .same rfl fun m => ?_
  rw [(hv.other ht hq hc).holds, hv.holds, hpc]

/-- **The ledger of a step**, but for a reader that is stranded. -/
theorem Trans.ledger (h : Trans os t l s ret l' s') (ho : l.Ok) (hs : ¬ Strands os l t s) :
    Ledger os l s l' s' := by
  rcases ho.place with hr | ⟨v, hv⟩
  · exact h.ledger_of_resting ho.opened hr
  · by_cases ht : v = t
    · exact h.ledger_of_visitor (ht ▸ hv) hs
    · exact h.ledger_of_other hv ht

/-- A stranded reader reads on although it holds nothing. -/
theorem Trans.of_strands (h : Trans os t l s ret l' s') (ho : l.Ok) (hs : Strands os l t s) :
    s' = s ∧ (∀ m, ¬ l.Holds m) ∧ ∀ m, l'.Holds m ↔ m = .r := by
  obtain ⟨a, probe, hpc, hb, h0, he⟩ := hs
  have hv : l.Visitor t := ho.visitor (by rw [hpc]; trivial)
  have hro : a.readOnly = false := by
    unfold Visitor at hv
    simp only [hpc] at hv
    exact hv.reads h0
  have ha : attempt os a s = .error .blocking := by simpa [attempt, hro] using he
  cases h with
  | again hpc' | held hpc' | first hpc' | upgrade hpc' | queue hpc' | woken hpc' | lost hpc' | published hpc'
    | gaveUp hpc' => simp [hpc] at hpc'
  | release hk hpc' => rcases hpc' with ⟨hpc', -⟩ | ⟨res, hpc', -⟩ <;> simp [hpc] at hpc'
  | granted hpc' ha' | failed hpc' ha' =>
    rw [hpc] at hpc'
    cases hpc'
    simp_all
  | pend hpc' ha' hb' =>
    rw [hpc] at hpc'
    cases hpc'
    simp_all
  | denied hpc' ha' hb' hc =>
    rw [if_pos h0] at hc
    refine ⟨rfl, fun m => by simp [hv.holds, hpc], fun m => ?_⟩
    rw [hc.holds_mode hv.others.1 (after_ne_back _ _)]
    constructor
    · rintro ⟨-, rfl⟩
      rfl
    · rintro rfl
      simp

/-- A call that begins holds nothing yet. -/
theorem begin_holds {c : LockCall} (h : l.begin t c = some l') (m : LockMode) :
    l'.Holds m ↔ l.Holds m := by
  obtain ⟨hi, q, hq, hc⟩ := begin_change h
  have hpc : ∀ u a probe, l'.pc u = .back a probe true ↔ l.pc u = .back a probe true := by
    intro u a probe
    by_cases hu : u = t
    · rw [hu, hc.goes.at_, hi]
      constructor
      · rintro rfl
        exact absurd trivial hq
      · simp
    · rcases hc.goes.others u hu with he | ⟨a', p, he, he'⟩
      · rw [he]
      · simp [he, he']
  unfold Holds Granted
  simp only [hc.mode, hpc]

end FileLock

namespace LockSys

open FileLock

variable {n : ℕ} {ids : CopyIds n} {s s' : LockSys n} {e : LockLabel n} {i : Fin n} {t : ℕ} {m : LockMode}

/-! ## The lock bytes -/

open Classical in
/-- Who holds the store. -/
noncomputable def holders (s : LockSys n) (m : LockMode) : Finset (Fin n) :=
  Finset.univ.filter fun i => (s.locks i).Holds m

/-- **The invariant of the store.** -/
structure Inv (ids : CopyIds n) (s : LockSys n) : Prop where
  ok : ∀ i, (s.locks i).Ok
  here : s.store.removed = false
  readers : s.store.readCnt = (s.holders .r).card
  writer : ∀ i, (s.locks i).Holds .w ↔ s.store.writeId = ids.id i
  owned : s.store.writeId ≠ 0 → s.store.writeCnt = 1 ∧ s.store.readCnt = 0

theorem mem_holders : i ∈ s.holders m ↔ (s.locks i).Holds m := by
  classical
  simp [holders]

theorem inv_init (ids : CopyIds n) : Inv ids {} := by
  have hno : ∀ m, ¬ Holds {} m := fun m => by
    rw [Resting.holds (ok_init.place.resolve_right ?_)]
    · rintro ⟨rfl | rfl, h⟩ <;> simp at h
    · rintro ⟨t, h⟩
      exact h
  refine ⟨fun i => ok_init, rfl, ?_, fun i => ?_, fun h => absurd rfl h⟩
  · symm
    rw [Finset.card_eq_zero, Finset.eq_empty_iff_forall_notMem]
    intro i hi
    exact hno _ (mem_holders.1 hi)
  · exact ⟨fun h => absurd h (hno _), fun h => absurd h.symm (ids.pos i)⟩

/-- A writer is refused only while the store is in use. -/
theorem Inv.wlock_error (h : Inv ids s) {err : LckErr}
    (he : (memLock (ids.id i)).wlock s.store = .error err) : err = .blocking := by
  by_cases hw : s.store.writeId = ids.id i
  · have hc := (h.owned (by rw [hw]; exact ids.pos i)).1
    simp [memLock, LckFile.wlock, h.here, hw, hc, LckFile.MAX_CNT] at he
  · exact LckFile.wlock_error h.here hw he

/-- `s` with the file lock `i` and the store replaced. -/
def put (s : LockSys n) (i : Fin n) (l : FileLock) (f : LckFile) : LockSys n where
  store := f
  locks := Function.update s.locks i l

theorem holds_put (s : LockSys n) (i j : Fin n) (l : FileLock) (f : LckFile) (m : LockMode) :
    ((s.put i l f).locks j).Holds m ↔ if j = i then l.Holds m else (s.locks j).Holds m := by
  by_cases hj : j = i
  · simp [put, hj]
  · simp [put, hj]

theorem ok_put (h : Inv ids s) {l : FileLock} {f : LckFile} (hl : l.Ok) (j : Fin n) :
    ((s.put i l f).locks j).Ok := by
  by_cases hj : j = i
  · simpa [put, hj] using hl
  · simpa [put, Function.update_of_ne hj] using h.ok j

/-- A file lock that holds what it held. -/
theorem card_put_same {l : FileLock} {f : LckFile} (hs : l.Holds m ↔ (s.locks i).Holds m) :
    ((s.put i l f).holders m).card = (s.holders m).card := by
  congr 1
  ext j
  rw [mem_holders, mem_holders, holds_put]
  split
  · rename_i hj
    rw [hs, hj]
  · exact Iff.rfl

/-- One more. -/
theorem card_put_take {l : FileLock} {f : LckFile} (h : ¬ (s.locks i).Holds m) (h' : l.Holds m) :
    ((s.put i l f).holders m).card = (s.holders m).card + 1 := by
  classical
  have hi : i ∉ s.holders m := fun hi => h (mem_holders.1 hi)
  rw [← Finset.card_insert_of_notMem hi]
  congr 1
  ext j
  rw [mem_holders, Finset.mem_insert, mem_holders, holds_put]
  split
  · rename_i hj
    simp [hj, h']
  · rename_i hj
    simp [hj]

/-- One less. -/
theorem card_put_give {l : FileLock} {f : LckFile} (h : (s.locks i).Holds m) (h' : ¬ l.Holds m) :
    ((s.put i l f).holders m).card + 1 = (s.holders m).card := by
  classical
  have hi : i ∈ s.holders m := mem_holders.2 h
  rw [← Finset.card_erase_add_one hi]
  congr 2
  ext j
  rw [mem_holders, Finset.mem_erase, mem_holders, holds_put]
  split
  · rename_i hj
    simp [hj, h']
  · rename_i hj
    simp [hj]

/-- **A step of a file lock** keeps the invariant when its ledger is kept. -/
theorem Inv.put (h : Inv ids s) {l : FileLock} {f : LckFile} (hl : l.Ok)
    (hg : Ledger (memLock (ids.id i)) (s.locks i) s.store l f) : Inv ids (s.put i l f) := by
  have hid : ∀ {j}, ids.id j = ids.id i ↔ j = i := fun {j} => ids.inj.eq_iff
  cases hg with
  | same hs hH =>
    subst hs
    refine ⟨ok_put h hl, h.here, ?_, fun j => ?_, h.owned⟩
    · rw [card_put_same (hH _)]
      exact h.readers
    · rw [holds_put]
      split
      · rename_i hj
        rw [hH, hj]
        exact h.writer i
      · exact h.writer j
  | take m hs hH hH' =>
    have hw : s.store.writeId ≠ ids.id i := fun hw => hH .w ((h.writer i).2 hw)
    rcases hs with ⟨rfl, hs⟩ | ⟨rfl, hs⟩
    · obtain ⟨h0, rfl⟩ := LckFile.rlock_ok hs
      have h0 := h0.resolve_right hw
      refine ⟨ok_put h hl, h.here, ?_, fun j => ?_, fun hn => absurd h0 hn⟩
      · rw [card_put_take (hH _) ((hH' _).2 rfl), ← h.readers]
        rfl
      · rw [holds_put]
        split
        · rename_i hj
          rw [hH', hj]
          simpa [LockSys.put] using hw
        · exact h.writer j
    · rcases LckFile.wlock_ok hs with ⟨hme, -⟩ | ⟨-, h0, h00, rfl⟩
      · exact absurd hme hw
      refine ⟨ok_put h hl, h.here, ?_, fun j => ?_, fun _ => ⟨rfl, h0⟩⟩
      · rw [card_put_same (by simp [hH, hH'])]
        exact h.readers
      · rw [holds_put]
        split
        · rename_i hj
          simp [hH', hj, LockSys.put]
        · rename_i hj
          rw [h.writer j, h00]
          constructor
          · exact fun h0 => absurd h0.symm (ids.pos j)
          · exact fun h0 => absurd (ids.inj h0).symm hj
  | give m hs hH hH' =>
    subst hs
    have hm : (s.locks i).Holds m := (hH m).2 rfl
    rcases hm.1 with rfl | rfl
    · have hpos : 0 < (s.holders .r).card := Finset.card_pos.2 ⟨i, mem_holders.2 hm⟩
      have h0 : s.store.writeId = 0 := by
        by_contra h0
        have := (h.owned h0).2
        rw [h.readers] at this
        omega
      have hu : (memLock (ids.id i)).unlock s.store = { s.store with readCnt := s.store.readCnt - 1 } := by
        simp [memLock, LckFile.unlock, h0, Ne.symm (ids.pos i)]
      rw [hu]
      refine ⟨ok_put h hl, h.here, ?_, fun j => ?_, fun hn => absurd h0 hn⟩
      · have hc := card_put_give (f := { s.store with readCnt := s.store.readCnt - 1 }) hm (hH' .r)
        rw [← h.readers] at hc
        simp only [LockSys.put] at hc ⊢
        omega
      · rw [holds_put]
        split
        · rename_i hj
          rw [hj]
          simpa [hH', LockSys.put, h0] using Ne.symm (ids.pos i)
        · exact h.writer j
    · have hw : s.store.writeId = ids.id i := (h.writer i).1 hm
      obtain ⟨hc, h0⟩ := h.owned (by rw [hw]; exact ids.pos i)
      have hu : (memLock (ids.id i)).unlock s.store = { s.store with writeCnt := 0, writeId := 0 } := by
        simp [memLock, LckFile.unlock, hw, hc]
      rw [hu]
      refine ⟨ok_put h hl, h.here, ?_, fun j => ?_, fun hn => absurd rfl hn⟩
      · rw [card_put_same (by simp [hH, hH'])]
        exact h.readers
      · have hz : (0 = ids.id j) ↔ False := by simpa using Ne.symm (ids.pos j)
        rw [holds_put]
        split
        · simp [hH', LockSys.put, hz]
        · rename_i hj
          rw [h.writer j, hw]
          simp only [LockSys.put, hz, iff_false]
          exact fun hij => hj (ids.inj hij).symm

/-! ## Runs -/

/-- A thread that held the only read count of its file lock, and was not to wait, comes to the
store to write while another file lock uses it. -/
def Strands (s : LockSys n) : LockLabel n → Prop
  | .call _ _ _ => False
  | .run i t =>
    match (s.locks i).pc t with
    | .tries a _ => a.block = false ∧ 0 < (s.locks i).cnt t ∧ (s.store.readCnt ≠ 0 ∨ s.store.writeId ≠ 0)
    | _ => False

instance (s : LockSys n) : DecidablePred s.Strands := fun e => by
  cases e with
  | call => exact inferInstanceAs (Decidable False)
  | run i t =>
    unfold Strands
    dsimp only
    split <;> infer_instance

open Classical in
/-- Who writes is alone, and the readers of the store are those in the mode `'r'`, with those
whose blocked call the store has granted and who have not recorded it yet. -/
structure Excl (s : LockSys n) : Prop where
  alone : ∀ i j, i ≠ j → (s.locks i).mode = .w → (s.locks j).mode ≠ .r ∧ (s.locks j).mode ≠ .w
  readers : s.store.readCnt = (Finset.univ.filter fun i => (s.locks i).mode = .r).card +
    (Finset.univ.filter fun i => (s.locks i).Granted .r).card

/-- Where every file lock keeps its own invariant, those that hold are those that read and
those just granted. -/
theorem card_holders (h : ∀ i, (s.locks i).Ok) :
    (s.holders .r).card = (Finset.univ.filter fun i => (s.locks i).mode = .r).card +
      (by classical exact (Finset.univ.filter fun i => (s.locks i).Granted .r).card) := by
  classical
  rw [← Finset.card_union_of_disjoint]
  · congr 1
    ext i
    rw [mem_holders]
    simp [Holds]
  · rw [Finset.disjoint_filter]
    intro i _ hm hg
    rcases (h i).place with hr | ⟨v, hv⟩
    · exact hr.granted _ hg
    · rcases hv.mode with ⟨hf, -⟩ | ⟨hf, -⟩ <;> simp [hf] at hm

theorem Inv.excl (h : Inv ids s) : s.Excl where
  alone i j hij hi := by
    have hw : s.store.writeId = ids.id i := (h.writer i).1 ⟨.inr rfl, .inl hi⟩
    constructor
    · intro hj
      have hpos : 0 < (s.holders .r).card := Finset.card_pos.2 ⟨j, mem_holders.2 ⟨.inl rfl, .inl hj⟩⟩
      have := (h.owned (by rw [hw]; exact ids.pos i)).2
      rw [h.readers] at this
      omega
    · intro hj
      have := (h.writer j).1 ⟨.inr rfl, .inl hj⟩
      exact hij (ids.inj (hw.symm.trans this))
  readers := by
    rw [h.readers, card_holders h.ok]

/-- To be stranded is to be refused by the store. -/
theorem Inv.strands_iff (h : Inv ids s) :
    s.Strands (.run i t) ↔ FileLock.Strands (memLock (ids.id i)) (s.locks i) t s.store := by
  have hfree : ∀ a probe, (s.locks i).pc t = .tries a probe → s.store.writeId ≠ ids.id i := by
    intro a probe hpc hw
    have hH := (h.writer i).2 hw
    have hv : (s.locks i).Visitor t := (h.ok i).visitor (by rw [hpc]; trivial)
    obtain ⟨a', probe', hpc', -⟩ := (hv.holds _).1 hH
    rw [hpc] at hpc'
    cases hpc'
  unfold LockSys.Strands FileLock.Strands
  constructor
  · intro hs
    dsimp only at hs
    split at hs
    · rename_i a probe hpc
      obtain ⟨hb, h0, hu⟩ := hs
      refine ⟨a, probe, hpc, hb, h0, ?_⟩
      have hn : ¬ (s.store.readCnt = 0 ∧ s.store.writeId = 0) := by tauto
      simp [memLock, LckFile.wlock, h.here, hfree a probe hpc, hn]
    · exact hs.elim
  · rintro ⟨a, probe, hpc, hb, h0, he⟩
    simp only [hpc]
    refine ⟨hb, h0, ?_⟩
    by_contra hu
    have hn : s.store.readCnt = 0 ∧ s.store.writeId = 0 := by tauto
    simp [memLock, LckFile.wlock, h.here, hn, Ne.symm (ids.pos i)] at he

/-- A thread's step is one of its file lock. -/
theorem run_step (hs : s.Step ids (.run i t) s') : ∃ ret l f,
    (s.locks i).run (memLock (ids.id i)) t s.store = some (ret, l, f) ∧ s' = s.put i l f := by
  obtain ⟨⟨ret, l, f⟩, hr, rfl⟩ := Option.map_eq_some_iff.1 hs
  exact ⟨ret, l, f, hr, rfl⟩

theorem Inv.trans (h : Inv ids s) {ret : Option LockRet} {l : FileLock} {f : LckFile}
    (hr : (s.locks i).run (memLock (ids.id i)) t s.store = some (ret, l, f)) :
    Trans (memLock (ids.id i)) t (s.locks i) s.store ret l f ∧ l.Ok := by
  have ht := (h.ok i).trans hr
  exact ⟨ht, ht.ok (fun _ he => h.wlock_error he) (h.ok i)⟩

/-- **A step keeps the invariant** unless it strands a reader. -/
theorem Inv.step (h : Inv ids s) (hs : s.Step ids e s') (hn : ¬ s.Strands e) : Inv ids s' := by
  cases e with
  | call i t c =>
    obtain ⟨l, hb, rfl⟩ := Option.map_eq_some_iff.1 hs
    exact h.put (f := s.store) (begin_ok (h.ok i) hb) (.same rfl (begin_holds hb))
  | run i t =>
    obtain ⟨ret, l, f, hr, rfl⟩ := run_step hs
    obtain ⟨ht, hl⟩ := h.trans hr
    exact h.put hl (ht.ledger (h.ok i) fun hst => hn (h.strands_iff.2 hst))

/-- A stranded reader is one more in the mode `'r'`, and the store counts nobody for it. -/
theorem Inv.not_excl (h : Inv ids s) (hs : s.Step ids e s') (hn : s.Strands e) : ¬ s'.Excl := by
  intro he
  cases e with
  | call => exact hn
  | run i t =>
    obtain ⟨ret, l, f, hr, rfl⟩ := run_step hs
    obtain ⟨ht, hl⟩ := h.trans hr
    obtain ⟨rfl, hH, hH'⟩ := ht.of_strands (h.ok i) (h.strands_iff.1 hn)
    have hc := card_put_take (f := s.store) (hH .r) ((hH' .r).2 rfl)
    have hr' := he.readers
    rw [← card_holders (ok_put h hl), hc, ← h.readers] at hr'
    simp [LockSys.put] at hr'

/-- Runs in which no reader is stranded. -/
def Calm (ids : CopyIds n) (s : LockSys n) (e : LockLabel n) (s' : LockSys n) : Prop :=
  s.Step ids e s' ∧ ¬ s.Strands e

/-- **Mutual exclusion.** Through every run that strands no reader, a file lock that writes is
alone and the store counts the readers; the first step that strands one ends that. -/
theorem calm_excl (ids : CopyIds n) {tr : List (LockLabel n)} (hr : Runs (Calm ids) {} tr s) :
    s.Excl ∧ ∀ e s', s.Step ids e s' → (s'.Excl ↔ ¬ s.Strands e) := by
  have h : Inv ids s := hr.invariant (inv_init ids) fun _ _ _ h hs => h.step hs.1 hs.2
  refine ⟨h.excl, fun e s' hs => ⟨fun he hn => h.not_excl hs hn he, fun hn => (h.step hs hn).excl⟩⟩

end LockSys

end OmniJsonDb
