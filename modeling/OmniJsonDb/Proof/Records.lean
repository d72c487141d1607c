import OmniJsonDb.Proof.Extents

/-!
# The records a call is not about

A record as a row view shows it, wherever its row lies. An update of the index leaves
every record alone but that of its own key.

* `Effect.record`: the record.
* `Effect.content`, `Effects.content`: the record and the bytes of its value.
-/

namespace OmniJsonDb

namespace DbView

variable {γ : Type} {V : RowView γ} {cfg : Config} {v v' v₁ : DbView γ} {key k : Key} {flags : ℕ}

open JDb (Space Meta parked)

/-- The live record of a key. -/
def record (v : DbView γ) (k : Key) : Option γ := (v.rowOf k).map v.rows

theorem record_at {r : ℕ} (h : v.rowOf k = some r) : v.record k = some (v.rows r) := by
  unfold record; rw [h]; rfl

theorem record_none : v.record k = none ↔ v.rowOf k = none := by
  unfold record; rw [Option.map_eq_none_iff]

/-- A record stays when its row does. -/
theorem record_congr (ht : v'.rowOf k = v.rowOf k) (hr : ∀ r, v.rowOf k = some r → v'.rows r = v.rows r) :
    v'.record k = v.record k := by
  unfold record
  rw [ht]
  cases h : v.rowOf k with
  | none => rfl
  | some r => exact congrArg some (hr r h)

/-- Two keys are in different rows. -/
theorem Keyed.ne_row (h : v.Keyed V) (hne : k ≠ key) {r row : ℕ} (hr : v.rowOf k = some r)
    (hrow : v.At key row) : r ≠ row := by
  rintro rfl
  exact hne (((h.table k r).1 hr).2.symm.trans (h.key_at hrow))

theorem Keyed.lt (h : v.Keyed V) {r : ℕ} (hr : v.rowOf k = some r) : r < v.cnt.nRecords :=
  ((h.table k r).1 hr).1

theorem parkAt_record (h : v.Keyed V) {row : ℕ} (hrow : v.At key row) {old : Row} {enc : Enc} {m : Meta}
    {sp : Space} (ht : Takes V cfg key flags v enc sp v₁) (hne : k ≠ key) :
    (v₁.parkAt V key row old enc m sp).record k = v.record k := by
  obtain ⟨hs, hn, hd, -⟩ := ht.frame h.le
  refine record_congr (congrArg (fun t => (t.get? k).map Prod.fst) hs.keyTable) fun r hr => ?_
  have := h.lt hr
  rw [rows_parkAt, if_neg (h.ne_row hne hr hrow), if_neg (by omega), if_neg (by omega), hs.rows r (by omega)]

theorem addAt_record (h : v.Keyed V) {enc : Enc} {m : Meta} {sp : Space}
    (ht : Takes V cfg key flags v enc sp v₁) (hne : k ≠ key) :
    (v₁.addAt V key enc m flags sp).record k = v.record k := by
  obtain ⟨hs, hn, hd, -⟩ := ht.frame h.le
  have hn₁ := hs.nRecords
  refine record_congr ?_ fun r hr => ?_
  · simp only [rowOf, addAt, rowOf_set, if_neg hne, hs.keyTable]
  · have := h.lt hr
    rw [rows_addAt _ _ _ v₁ _ _ (by omega) hd, if_neg (by omega), if_neg (by omega), if_neg (by omega),
      hs.rows r (by omega)]

theorem appendAt_record (h : v.Keyed V) {enc : Enc} {m : Meta} {sp : Space}
    (hv : v₁.cnt = v.appendRoom.cnt ∧ v₁.rows = v.appendRoom.rows ∧ v₁.keyTable = v.keyTable)
    (hne : k ≠ key) : (v₁.appendAt V key enc m sp).record k = v.record k := by
  obtain ⟨hc, hrows, ht⟩ := hv
  have hn : v₁.cnt.nRecords = v.appendRoom.cnt.nRecords := congrArg Counters.nRecords hc
  have hn : v₁.cnt.nRecords = v.cnt.nRecords := hn
  refine record_congr ?_ fun r hr => ?_
  · simp only [rowOf, appendAt, rowOf_set, if_neg hne, ht]
  · have := h.lt hr
    rw [rows_appendAt, if_neg (by omega), hrows, rows_appendRoom h.le this]

theorem deleteAt_record (h : v.Keyed V) {row kf : ℕ} {old : Row} (hrow : v.At key row) (hne : k ≠ key) :
    (v.deleteAt V key row old flags kf).record k = v.record k := by
  have hlt := hrow.2
  by_cases hlast : row < v.cnt.nRecords - 1 ∧ k = (v.slot V (v.cnt.nRecords - 1)).key
  · -- the last record has moved
    have hk : v.rowOf k = some (v.cnt.nRecords - 1) := (h.table k _).2 ⟨by omega, hlast.2.symm⟩
    have hk' : (v.deleteAt V key row old flags kf).rowOf k = some row := by
      rw [rowOf_deleteAt, if_neg hne, if_pos hlast]
    rw [record_at hk, record_at hk', key_deleteAt h hrow hlast.1, if_pos rfl]
  · refine record_congr (by rw [rowOf_deleteAt, if_neg hne, if_neg hlast]) fun r hr => ?_
    have hrn := h.lt hr
    have hne' := h.ne_row hne hr hrow
    have : r < v.cnt.nRecords - 1 := by
      by_contra hcon
      have hr' : r = v.cnt.nRecords - 1 := by omega
      exact hlast ⟨by omega, by rw [← hr']; exact ((h.table k r).1 hr).2.symm⟩
    rw [key_deleteAt h hrow this, if_neg hne']

theorem undeleteAt_record (h : v.Keyed V) {d kf : ℕ} {info : Row} (hd : v.cnt.nRecords ≤ d) (hne : k ≠ key) :
    ((v.undeleteRoom key flags d).undeleteAt V key info kf).record k = v.record k := by
  obtain ⟨hc, ht, -, hrows⟩ := undeleteRoom_frame key flags h.le hd
  refine record_congr ?_ fun r hr => ?_
  · simp only [rowOf, undeleteAt, rowOf_set, if_neg hne, ht]
  · have := h.lt hr
    rw [rows_undeleteAt, if_neg (by rw [hc]; omega), hrows r this]

theorem unwriteAt_record (h : v.Keyed V) {row d kf : ℕ} {old info : Row} (hrow : v.At key row)
    (hd : v.cnt.nRecords ≤ d) (hne : k ≠ key) :
    (v.unwriteAt V key row d old info kf).record k = v.record k := by
  refine record_congr rfl fun r hr => ?_
  have := h.lt hr
  rw [rows_unwriteAt, if_neg (h.ne_row hne hr hrow), if_neg (by omega)]

theorem renameAt_record (h : v.Keyed V) {newKey : Key} {row : ℕ} {old : Row} (hrow : v.At key row)
    (hne : k ≠ key) (hnew : k ≠ newKey) : (v.renameAt V key newKey row old).record k = v.record k := by
  refine record_congr ?_ fun r hr => ?_
  · simp only [rowOf, renameAt, rowOf_set, rowOf_pop, if_neg hne, if_neg hnew]
  · exact Function.update_of_ne (h.ne_row hne hr hrow) _ _

/-- **An update leaves every other record alone.** -/
theorem Effect.record (h : v.Keyed V) (he : Effect V cfg key flags v v') (hne : k ≠ key) :
    v'.record k = v.record k := by
  cases he with
  | mark =>
    refine record_congr ?_ fun _ _ => rfl
    simp only [rowOf, setTable, rowOf_set, if_neg hne]
  | bytes => rfl
  | rewrite hrow =>
    refine record_congr rfl fun r hr => ?_
    exact Function.update_of_ne (h.ne_row hne hr hrow) _ _
  | park hrow _ ht => exact parkAt_record h hrow ht hne
  | add _ ht => exact addAt_record h ht hne
  | @append enc _ _ _ _ _ hv =>
    refine appendAt_record h ?_ hne
    cases enc with
    | head => obtain ⟨-, rfl⟩ := hv; exact ⟨rfl, rfl, rfl⟩
    | value => obtain ⟨_, -, -, -, -, -, rfl⟩ := hv; exact ⟨rfl, rfl, rfl⟩
  | delete hrow => exact deleteAt_record h hrow hne
  | undelete _ hd => exact undeleteAt_record h hd hne
  | unwrite hrow _ hd => exact unwriteAt_record h hrow hd hne

/-! ## With their values -/

/-- The live record of a key, with the bytes of its extent. -/
def content (V : RowView γ) (v : DbView γ) (k : Key) : Option (γ × Bytes) :=
  (v.rowOf k).map fun r => (v.rows r, v.bytesAt (v.place V r))

theorem content_at {r : ℕ} (h : v.rowOf k = some r) :
    v.content V k = some (v.rows r, v.bytesAt (v.place V r)) := by
  unfold content; rw [h]; rfl

theorem content_none : v.content V k = none ↔ v.rowOf k = none := by
  unfold content; rw [Option.map_eq_none_iff]

theorem record_eq_content (V : RowView γ) (v : DbView γ) (k : Key) :
    v.record k = (v.content V k).map Prod.fst := by
  unfold record content
  rw [Option.map_map]
  rfl

/-- The value of a record stays when the record does, and the bytes its row names. -/
theorem content_of_record (hr : v'.record k = v.record k)
    (hb : ∀ r, v'.rowOf k = some r → v'.bytesAt (v'.place V r) = v.bytesAt (v'.place V r)) :
    v'.content V k = v.content V k := by
  cases h' : v'.rowOf k with
  | none =>
    have h : v.rowOf k = none := by rw [← record_none, ← hr, record_none]; exact h'
    rw [content_none.2 h', content_none.2 h]
  | some r' =>
    rw [record_at h'] at hr
    cases h : v.rowOf k with
    | none => rw [record_none.2 h] at hr; cases hr
    | some r =>
      rw [record_at h, Option.some.injEq] at hr
      rw [content_at h', content_at h, hb r' h', hr, place_of_rows hr]

/-- A change that leaves the VAL files alone keeps what it keeps of the records. -/
theorem content_of_vals (hv : v'.vals = v.vals) (hr : v'.record k = v.record k) :
    v'.content V k = v.content V k := content_of_record hr fun _ _ => bytesAt_congr hv _

/-- **An update leaves every other record alone, and its value.** -/
theorem Effect.content (h : v.Good V) (he : Effect V cfg key flags v v') (hne : k ≠ key) :
    v'.content V k = v.content V k := by
  have hg := he.good h
  refine content_of_record (he.record h.keyed hne) fun r hr => ?_
  refine he.bytes_eq h.keyed h.extents h.volumes ?_ fun hkey => hne ?_
  · exact lt_of_lt_of_le (hg.keyed.lt hr) hg.keyed.le
  · exact ((hg.keyed.table k r).1 hr).2.symm.trans ((hg.keyed.table key r).1 hkey).2

theorem Effects.content (h : v.Good V) (he : Effects V cfg key flags v v') (hne : k ≠ key) :
    v'.content V k = v.content V k := by
  induction he with
  | refl => rfl
  | tail hs he ih => exact (he.content (Effects.good h hs) hne).trans ih

end DbView

end OmniJsonDb
