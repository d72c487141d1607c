import OmniJsonDb.Proof.Effect

/-!
# The key index is kept

* `Takes.frame`: using a dead row up leaves the live and the safe rows alone.
* `Effect.keyed`: every effect keeps the key index.
-/

namespace OmniJsonDb

namespace DbView

variable {γ : Type} {V : RowView γ} {cfg : Config} {v v' v₁ : DbView γ} {key : Key} {flags : ℕ}

open JIo (Fits)
open JDb (Space Meta parked)

/-! ## Slots -/

@[simp] theorem slot_new (v : DbView γ) (a : KeyArgs) :
    V.slot (v.new V a) = ⟨a.key, a.fileId, a.offset, a.rowSize, a.valSize,
      a.ver.getD v.cnt.syncId⟩ := V.slot_proj _

theorem slot_eq {r : ℕ} {row : Row} (h : V.proj row = v.rows r) : v.slot V r = row.toSlot := by
  unfold slot; rw [← h, V.slot_proj]

theorem rowOf_set (t : OrdDict Key (ℕ × ℕ)) (k : Key) (row f : ℕ) (x : Key) :
    ((t.set k (row, f)).get? x).map Prod.fst = if x = k then some row else (t.get? x).map Prod.fst := by
  rw [OrdDict.get?_set]; split <;> rfl

theorem rowOf_pop (t : OrdDict Key (ℕ × ℕ)) (k x : Key) :
    ((t.pop k).get? x).map Prod.fst = if x = k then none else (t.get? x).map Prod.fst := by
  rw [OrdDict.get?_pop]; split <;> rfl

/-! ## Regions -/

variable (cfg flags) in
theorem le_deadHead (h : v.cnt.nRecords ≤ v.cnt.nLines) :
    v.cnt.nRecords ≤ v.deadHead cfg flags ∧ v.deadHead cfg flags ≤ v.cnt.nLines := by
  unfold deadHead; split <;> omega

theorem le_safeEnd (h : v.cnt.nRecords ≤ v.cnt.nLines) :
    v.cnt.nRecords ≤ v.safeEnd ∧ v.safeEnd ≤ v.cnt.nLines := by
  unfold safeEnd; omega

variable (flags) in
theorem le_undoHead (h : v.cnt.nRecords ≤ v.cnt.nLines) :
    v.cnt.nRecords ≤ v.undoHead flags ∧ v.undoHead flags ≤ v.cnt.nLines := by
  unfold undoHead
  split
  exacts [le_safeEnd h, ⟨le_rfl, h⟩]

/-- Two states of the index that agree on everything that taking a row leaves alone. -/
structure SameRecords (v v₁ : DbView γ) (h : ℕ) : Prop where
  keyTable : v₁.keyTable = v.keyTable
  now : v₁.now = v.now
  nRecords : v₁.cnt.nRecords = v.cnt.nRecords
  syncId : v₁.cnt.syncId = v.cnt.syncId
  swapId : v₁.cnt.swapId = v.cnt.swapId
  remvId : v₁.cnt.remvId = v.cnt.remvId
  nLines : v.cnt.nLines ≤ v₁.cnt.nLines
  rows : ∀ r, r < h → v₁.rows r = v.rows r

theorem Reuse.frame {h req d : ℕ} {p : Place} (hh : h ≤ v.cnt.nLines) (hr : Reuse V h req v d p v₁) :
    SameRecords v v₁ h ∧ h ≤ d ∧ d < v₁.cnt.nLines := by
  cases hr with
  | whole hd hd' => exact ⟨⟨rfl, rfl, rfl, rfl, rfl, rfl, le_rfl, fun _ _ => rfl⟩, hd, hd'⟩
  | splitNew hd hd' =>
    refine ⟨⟨rfl, rfl, rfl, rfl, rfl, rfl, Nat.le_succ _, fun r hr => ?_⟩, hd, Nat.lt_succ_of_lt hd'⟩
    simp [put, line, show r ≠ d by omega, show r ≠ v.cnt.nLines by omega]
  | splitOver hd hd' _ _ _ he =>
    refine ⟨⟨rfl, rfl, rfl, rfl, rfl, rfl, le_rfl, fun r hr => ?_⟩, hd, hd'⟩
    simp [put, show r ≠ d by omega, show r ≠ _ from Nat.ne_of_lt (lt_of_lt_of_le hr he)]

/-- **Using a row up** leaves everything before the head of the dead region alone. -/
theorem Takes.frame {enc : Enc} {sp : Space} (hle : v.cnt.nRecords ≤ v.cnt.nLines)
    (ht : Takes V cfg key flags v enc sp v₁) :
    SameRecords v v₁ sp.head ∧ v.cnt.nRecords ≤ sp.head ∧ sp.head ≤ sp.dead ∧
      sp.dead < v₁.cnt.nLines := by
  obtain ⟨h₁, h₂⟩ := le_deadHead cfg flags hle
  cases ht with
  | headNew =>
    exact ⟨⟨rfl, rfl, rfl, rfl, rfl, rfl, Nat.le_succ _, fun _ _ => rfl⟩, h₁, h₂, Nat.lt_succ_self _⟩
  | headDead hr =>
    obtain ⟨hs, hd, hd'⟩ := Reuse.frame (v := v.reserve key flags _) h₂ hr
    exact ⟨⟨hs.1, hs.2, hs.3, hs.4, hs.5, hs.6, hs.7, hs.8⟩, h₁, hd, hd'⟩
  | valueNew =>
    exact ⟨⟨rfl, rfl, rfl, rfl, rfl, rfl, Nat.le_succ _, fun _ _ => rfl⟩, h₁, h₂, Nat.lt_succ_self _⟩
  | valueDead _ hr =>
    obtain ⟨hs, hd, hd'⟩ := Reuse.frame (v := v.reserve key flags _) h₂ hr
    exact ⟨⟨hs.1, hs.2, hs.3, hs.4, hs.5, hs.6, hs.7, hs.8⟩, h₁, hd, hd'⟩

/-! ## Keys -/

theorem Keyed.at_ (h : v.Keyed V) {row : ℕ} (hr : v.rowOf key = some row) : v.At key row :=
  ⟨hr, ((h.table key row).1 hr).1⟩

/-- The row of a key holds it. -/
theorem Keyed.key_at (h : v.Keyed V) {row : ℕ} (hr : v.At key row) : (v.slot V row).key = key :=
  ((h.table key row).1 hr.1).2

/-- No two live rows hold one key. -/
theorem Keyed.inj (h : v.Keyed V) {r s : ℕ} (hr : r < v.cnt.nRecords) (hs : s < v.cnt.nRecords)
    (he : (v.slot V r).key = (v.slot V s).key) : r = s := by
  have h₁ := (h.table _ r).2 ⟨hr, rfl⟩
  have h₂ := (h.table _ s).2 ⟨hs, he.symm⟩
  exact Option.some.inj (h₁.symm.trans h₂)

/-- A key the table does not have is in no live row. -/
theorem Keyed.not_live (h : v.Keyed V) (hk : v.rowOf key = none) {r : ℕ} (hr : r < v.cnt.nRecords) :
    (v.slot V r).key ≠ key := by
  intro he
  have := (h.table key r).2 ⟨hr, he⟩
  rw [hk] at this
  cases this

/-- The key index only depends on the keys of the live rows. -/
theorem Keyed.of_keys (h : v.Keyed V) (hle : v'.cnt.nRecords ≤ v'.cnt.nLines)
    (hn : v'.cnt.nRecords = v.cnt.nRecords) (ht : ∀ k, v'.rowOf k = v.rowOf k)
    (hk : ∀ r, r < v.cnt.nRecords → (v'.slot V r).key = (v.slot V r).key) : v'.Keyed V := by
  refine ⟨hle, fun k r => ?_⟩
  rw [ht, h.table, hn]
  constructor
  · rintro ⟨hr, he⟩; exact ⟨hr, (hk r hr).trans he⟩
  · rintro ⟨hr, he⟩; exact ⟨hr, (hk r hr).symm.trans he⟩

/-- A record is added behind the live rows. -/
theorem Keyed.of_add (h : v.Keyed V) (hnew : v.rowOf key = none)
    (hle : v.cnt.nRecords + 1 ≤ v'.cnt.nLines) (hn : v'.cnt.nRecords = v.cnt.nRecords + 1)
    (ht : ∀ k, v'.rowOf k = if k = key then some v.cnt.nRecords else v.rowOf k)
    (hkey : (v'.slot V v.cnt.nRecords).key = key)
    (hk : ∀ r, r < v.cnt.nRecords → (v'.slot V r).key = (v.slot V r).key) : v'.Keyed V := by
  refine ⟨hn ▸ hle, fun k r => ?_⟩
  rw [ht, hn]
  by_cases hkk : k = key
  · subst hkk
    rw [if_pos rfl]
    constructor
    · rintro ⟨⟩; exact ⟨Nat.lt_succ_self _, hkey⟩
    · rintro ⟨hr, he⟩
      by_cases hr' : r < v.cnt.nRecords
      · exact absurd ((hk r hr').symm.trans he) (h.not_live hnew hr')
      · rw [show r = v.cnt.nRecords by omega]
  · rw [if_neg hkk, h.table]
    constructor
    · rintro ⟨hr, he⟩; exact ⟨by omega, (hk r hr).trans he⟩
    · rintro ⟨hr, he⟩
      by_cases hr' : r < v.cnt.nRecords
      · exact ⟨hr', (hk r hr').symm.trans he⟩
      · rw [show r = v.cnt.nRecords by omega, hkey] at he
        exact absurd he.symm hkk

theorem rows_copyUp_of_lt {s d r : ℕ} (hr : r < d) : (v.copyUp s d).rows r = v.rows r := by
  unfold copyUp
  simp only
  split
  · exact Function.update_of_ne (by omega) _ _
  · rfl

theorem parkAt_keyed (h : v.Keyed V) {row : ℕ} (hrow : v.At key row) {old : Row} {enc : Enc} {m : Meta}
    {sp : Space} (ht : Takes V cfg key flags v enc sp v₁) :
    (v₁.parkAt V key row old enc m sp).Keyed V := by
  obtain ⟨hs, hn, hd, hl⟩ := ht.frame h.le
  refine h.of_keys (by have := h.le; have := hs.nLines; have := hs.nRecords; simp only [parkAt, sync, note, put, copyUp]; omega)
    hs.nRecords (fun k => ?_) fun r hr => ?_
  · exact congrArg (fun t => (t.get? k).map Prod.fst) hs.keyTable
  · by_cases hrr : r = row
    · subst hrr
      have : (v₁.parkAt V key r old enc m sp).slot V r = V.slot (v₁.new V (sp.args key m)) := by
        simp [slot, parkAt, sync, note, put, new, copyUp]
      rw [this, slot_new]
      exact (h.key_at hrow).symm
    · have : (v₁.parkAt V key row old enc m sp).rows r = v₁.rows r := by
        simp only [parkAt, sync, note, put]
        rw [Function.update_of_ne hrr, Function.update_of_ne (by omega)]
        exact rows_copyUp_of_lt (by omega)
      unfold slot
      rw [this, hs.rows r (by omega)]

theorem addAt_keyed (h : v.Keyed V) (hnew : v.rowOf key = none) {enc : Enc} {m : Meta}
    {sp : Space} (ht : Takes V cfg key flags v enc sp v₁) :
    (v₁.addAt V key enc m flags sp).Keyed V := by
  obtain ⟨hs, hn, hd, hl⟩ := ht.frame h.le
  refine h.of_add hnew ?_ (congrArg (· + 1) hs.nRecords) (fun k => ?_) ?_ fun r hr => ?_
  · simp only [addAt, sync, note, put, copyUp]; omega
  · simp only [rowOf, addAt, rowOf_set, hs.nRecords, hs.keyTable]
  · simp [slot, addAt, sync, note, put, new, copyUp, hs.nRecords, V.slot_proj, normal, Space.args]
  · have : (v₁.addAt V key enc m flags sp).rows r = v₁.rows r := by
      simp only [addAt, sync, note, put, hs.nRecords]
      rw [Function.update_of_ne (by omega), rows_copyUp_of_lt (by omega), rows_copyUp_of_lt (by omega)]
    unfold slot
    rw [this, hs.rows r (by omega)]

theorem rows_appendRoom (hle : v.cnt.nRecords ≤ v.cnt.nLines) {r : ℕ} (hr : r < v.cnt.nRecords) :
    v.appendRoom.rows r = v.rows r := by
  have := le_safeEnd hle
  unfold appendRoom
  rw [rows_copyUp_of_lt (by omega), rows_copyUp_of_lt (by omega)]
  rfl

theorem appendAt_keyed (h : v.Keyed V) (hnew : v.rowOf key = none) {enc : Enc} {m : Meta}
    {sp : Space} (hv : v₁.cnt = v.appendRoom.cnt ∧ v₁.rows = v.appendRoom.rows ∧
      v₁.keyTable = v.keyTable) : (v₁.appendAt V key enc m sp).Keyed V := by
  obtain ⟨hc, hr₁, ht₁⟩ := hv
  have hc : v₁.cnt = { v.cnt with nLines := v.cnt.nLines + 1 } := hc
  refine h.of_add hnew ?_ (by simp [appendAt, sync, note, put, hc]) (fun k => ?_) ?_ fun r hr => ?_
  · have := h.le
    simp only [appendAt, sync, note, put, hc]; omega
  · simp only [rowOf, appendAt, rowOf_set, hc, ht₁]
  · simp [slot, appendAt, sync, note, put, new, hc, V.slot_proj, normal, Space.args]
  · have : (v₁.appendAt V key enc m sp).rows r = v.rows r := by
      simp only [appendAt, sync, note, put, hc]
      rw [Function.update_of_ne (by omega), hr₁, rows_appendRoom h.le hr]
    unfold slot
    rw [this]

variable (key flags) in
theorem undeleteRoom_frame (hle : v.cnt.nRecords ≤ v.cnt.nLines) {d : ℕ} (hd : v.cnt.nRecords ≤ d) :
    (v.undeleteRoom key flags d).cnt = v.cnt ∧ (v.undeleteRoom key flags d).keyTable = v.keyTable ∧
      (v.undeleteRoom key flags d).now = v.now ∧
      ∀ r, r < v.cnt.nRecords → (v.undeleteRoom key flags d).rows r = v.rows r := by
  have := le_undoHead flags hle
  unfold undeleteRoom
  split
  · simp only
    split <;> exact ⟨rfl, rfl, rfl, fun r hr =>
      (rows_copyUp_of_lt (by omega)).trans (rows_copyUp_of_lt (by omega))⟩
  · exact ⟨rfl, rfl, rfl, fun r hr => rows_copyUp_of_lt (by omega)⟩

theorem undeleteAt_keyed (h : v.Keyed V) (hnew : v.rowOf key = none) {d kf : ℕ} {info : Row}
    (hd : v.cnt.nRecords ≤ d) (hd' : d < v.cnt.nLines) :
    ((v.undeleteRoom key flags d).undeleteAt V key info kf).Keyed V := by
  obtain ⟨hc, ht, hnow, hr₁⟩ := undeleteRoom_frame key flags h.le hd
  refine h.of_add hnew ?_ (by simp [undeleteAt, sync, put, hc]) (fun k => ?_) ?_ fun r hr => ?_
  · simp only [undeleteAt, sync, put, hc]; omega
  · simp only [rowOf, undeleteAt, rowOf_set, hc, ht]
  · simp [slot, undeleteAt, sync, put, new, hc, V.slot_proj, normal]
  · have : ((v.undeleteRoom key flags d).undeleteAt V key info kf).rows r = v.rows r := by
      simp only [undeleteAt, sync, put, hc]
      rw [Function.update_of_ne (by omega), hr₁ r hr]
    unfold slot
    rw [this]

theorem unwriteAt_keyed (h : v.Keyed V) {row d kf : ℕ} {old info : Row} (hrow : v.At key row)
    (hd : v.cnt.nRecords ≤ d) : (v.unwriteAt V key row d old info kf).Keyed V := by
  refine h.of_keys h.le rfl (fun _ => rfl) fun r hr => ?_
  by_cases hrr : r = row
  · subst hrr
    have : (v.unwriteAt V key r d old info kf).slot V r =
        V.slot (v.new V { info.args with key := key, ver := none, flags := kf }) := by
      simp [slot, unwriteAt, sync, put, new]
    rw [this, slot_new]
    exact (h.key_at hrow).symm
  · have : (v.unwriteAt V key row d old info kf).rows r = v.rows r := by
      simp only [unwriteAt, sync, put]
      rw [Function.update_of_ne hrr, Function.update_of_ne (by omega)]
    unfold slot
    rw [this]

theorem renameAt_keyed (h : v.Keyed V) {newKey : Key} {row : ℕ} {old : Row} (hrow : v.At key row)
    (hnew : v.rowOf newKey = none) : (v.renameAt V key newKey row old).Keyed V := by
  have hslot : ∀ r, ((v.renameAt V key newKey row old).slot V r).key =
      if r = row then newKey else (v.slot V r).key := by
    intro r
    by_cases hrr : r = row
    · subst hrr
      simp [slot, renameAt, new, V.slot_proj, normal]
    · simp [slot, renameAt, hrr]
  have hk := h.key_at hrow
  refine ⟨h.le, fun k r => ?_⟩
  rw [hslot]
  simp only [rowOf, renameAt, rowOf_set, rowOf_pop]
  have htab := h.table k r
  have hne : newKey ≠ key := by rintro rfl; rw [hrow.1] at hnew; cases hnew
  unfold rowOf at htab
  by_cases hkn : k = newKey
  · subst hkn
    rw [if_pos rfl]
    constructor
    · rintro ⟨⟩; exact ⟨hrow.2, if_pos rfl⟩
    · rintro ⟨hr, he⟩
      split at he
      · rename_i hrr; rw [hrr]
      · exact absurd he (h.not_live hnew hr)
  · rw [if_neg hkn]
    by_cases hkk : k = key
    · subst hkk
      simp only [if_true]
      constructor
      · intro hf; cases hf
      · rintro ⟨hr, he⟩
        split at he
        · exact absurd he hne
        · exact absurd (h.inj hr hrow.2 (he.trans hk.symm)) ‹_›
    · rw [if_neg hkk, htab]
      constructor
      · rintro ⟨hr, he⟩
        refine ⟨hr, ?_⟩
        rw [if_neg]
        · exact he
        · rintro rfl; exact hkk (he.symm.trans hk)
      · rintro ⟨hr, he⟩
        split at he
        · exact absurd he.symm hkn
        · exact ⟨hr, he⟩

/-- The keys of the rows that are live once a record was deleted. -/
theorem key_deleteAt (h : v.Keyed V) {row kf : ℕ} {old : Row} (hrow : v.At key row) {r : ℕ}
    (hr : r < v.cnt.nRecords - 1) :
    (v.deleteAt V key row old flags kf).rows r =
      if r = row then v.rows (v.cnt.nRecords - 1) else v.rows r := by
  have hs := le_safeEnd (v := v) h.le
  have hlt := hrow.2
  unfold deleteAt
  simp only
  have hne : r ≠ if v.toTail key flags then v.safeEnd - 1 else v.cnt.nRecords - 1 := by
    split <;> omega
  rw [Function.update_of_ne hne]
  have hupd : (if row < v.cnt.nRecords - 1 then Function.update v.rows row (v.rows (v.cnt.nRecords - 1))
      else v.rows) r = if r = row then v.rows (v.cnt.nRecords - 1) else v.rows r := by
    by_cases hrr : r = row
    · subst hrr; simp [hr]
    · split <;> simp [hrr]
  split
  · rw [Function.update_of_ne (by omega), hupd]
  · exact hupd

/-- The key table once a record was deleted: the last one has taken its row. -/
theorem rowOf_deleteAt (v : DbView γ) {row kf : ℕ} {old : Row} (k : Key) :
    (v.deleteAt V key row old flags kf).rowOf k =
      if k = key then none
      else if row < v.cnt.nRecords - 1 ∧ k = (v.slot V (v.cnt.nRecords - 1)).key then some row
      else v.rowOf k := by
  unfold rowOf deleteAt
  simp only
  by_cases hr : row < v.cnt.nRecords - 1
  · simp only [hr, if_true, rowOf_pop, rowOf_set, true_and]
    split
    · rfl
    · split <;> rfl
  · simp only [hr, if_false, rowOf_pop, false_and]

theorem deleteAt_keyed (h : v.Keyed V) {row kf : ℕ} {old : Row} (hrow : v.At key row) :
    (v.deleteAt V key row old flags kf).Keyed V := by
  have hk := h.key_at hrow
  have hlt := hrow.2
  have hslot : ∀ r, r < v.cnt.nRecords - 1 → ((v.deleteAt V key row old flags kf).slot V r).key =
      if r = row then (v.slot V (v.cnt.nRecords - 1)).key else (v.slot V r).key := by
    intro r hr
    unfold slot
    rw [key_deleteAt h hrow hr]
    split <;> rfl
  -- the last row holds a key of its own
  have hlast : row < v.cnt.nRecords - 1 → (v.slot V (v.cnt.nRecords - 1)).key ≠ key := by
    intro hr he
    have := h.inj (by omega) hlt (he.trans hk.symm)
    omega
  refine ⟨by have := h.le; change v.cnt.nRecords - 1 ≤ v.cnt.nLines; omega, fun k r => ?_⟩
  rw [rowOf_deleteAt]
  change _ ↔ r < v.cnt.nRecords - 1 ∧ _
  constructor
  · intro hr
    split at hr
    · cases hr
    · rename_i hkk
      split at hr
      · rename_i hl
        cases hr
        exact ⟨hl.1, by rw [hslot _ hl.1, if_pos rfl]; exact hl.2.symm⟩
      · rename_i hl
        obtain ⟨hr₁, he⟩ := (h.table k r).1 hr
        have hne : r ≠ row := by rintro rfl; exact hkk (he.symm.trans hk)
        have hr₂ : r < v.cnt.nRecords - 1 := by
          by_contra hcon
          have : r = v.cnt.nRecords - 1 := by omega
          subst this
          exact hl ⟨by omega, he.symm⟩
        exact ⟨hr₂, by rw [hslot r hr₂, if_neg hne]; exact he⟩
  · rintro ⟨hr, he⟩
    rw [hslot r hr] at he
    by_cases hrr : r = row
    · subst hrr
      rw [if_pos rfl] at he
      subst he
      rw [if_neg (hlast hr), if_pos ⟨hr, rfl⟩]
    · rw [if_neg hrr] at he
      subst he
      rw [if_neg, if_neg]
      · exact (h.table _ r).2 ⟨by omega, rfl⟩
      · rintro ⟨-, he⟩
        have := h.inj (by omega : r < v.cnt.nRecords) (by omega) he
        omega
      · intro he
        exact hrr (h.inj (by omega) hlt (he.trans hk.symm))

/-- **Every effect keeps the key index.** -/
theorem Effect.keyed (h : v.Keyed V) (he : Effect V cfg key flags v v') : v'.Keyed V := by
  cases he with
  | mark hrow =>
    refine h.of_keys h.le rfl (fun k => ?_) fun _ _ => rfl
    simp only [rowOf, setTable, rowOf_set]
    split
    · rename_i hk; subst hk; exact hrow.1.symm
    · rfl
  | bytes => exact ⟨h.le, h.table⟩
  | @rewrite row a hrow ha =>
    refine h.of_keys h.le rfl (fun _ => rfl) fun r _ => ?_
    by_cases hrr : r = row
    · subst hrr
      simp only [slot, sync, put, Function.update_self, slot_new]
      exact ha.trans (h.key_at hrow).symm
    · simp [slot, sync, put, hrr]
  | park hrow _ ht => exact parkAt_keyed h hrow ht
  | add hnew ht => exact addAt_keyed h hnew ht
  | @append enc _ _ _ hnew _ hv =>
    refine appendAt_keyed h hnew ?_
    cases enc with
    | head => obtain ⟨-, rfl⟩ := hv; exact ⟨rfl, rfl, rfl⟩
    | value => obtain ⟨_, -, -, -, -, -, rfl⟩ := hv; exact ⟨rfl, rfl, rfl⟩
  | delete hrow _ => exact deleteAt_keyed h hrow
  | undelete hnew hd hd' => exact undeleteAt_keyed h hnew hd hd'
  | unwrite hrow _ hd => exact unwriteAt_keyed h hrow hd

theorem Effects.keyed (h : v.Keyed V) (he : Effects V cfg key flags v v') : v'.Keyed V := by
  induction he with
  | refl => exact h
  | tail _ hs ih => exact hs.keyed ih

end DbView

end OmniJsonDb
