import OmniJsonDb.Proof.Runs

/-!
# Where the rows come from

Every row of the index after an update was one before it, or was just written: then its version
is the session counter, nought, or that of a row there was, and its value lies in its extent.

* `Effect.origin`, `Moves.origin`: the rows after an update.
* `Sized`: the value of a row lies in its extent, after any updates.
-/

namespace OmniJsonDb

/-- Two slots name one value. -/
def Slot.SameValue (s t : Slot) : Prop :=
  s.fileId = t.fileId ∧ s.offset = t.offset ∧ s.rowSize = t.rowSize ∧ s.valSize = t.valSize

theorem Slot.SameValue.symm {s t : Slot} (h : s.SameValue t) : t.SameValue s :=
  ⟨h.1.symm, h.2.1.symm, h.2.2.1.symm, h.2.2.2.symm⟩

theorem Slot.SameValue.trans {s t u : Slot} (h : s.SameValue t) (h' : t.SameValue u) : s.SameValue u :=
  ⟨h.1.trans h'.1, h.2.1.trans h'.2.1, h.2.2.1.trans h'.2.2.1, h.2.2.2.trans h'.2.2.2⟩

variable {γ : Type} {V : RowView γ} {cfg : Config} {v v' v₁ : DbView γ} {key : Key} {flags : ℕ}

namespace DbView

open JDb (Space Meta parked)

/-- What is known of a row that was just written. -/
structure Fresh (V : RowView γ) (v : DbView γ) (s : Slot) : Prop where
  ver : s.ver = v.cnt.syncId ∨ s.ver = 0 ∨ ∃ x, x < v.cnt.nLines ∧ s.ver = (v.slot V x).ver
  fits : s.rowSize = 0 ∨ s.valSize ≤ s.rowSize ∨
    ∃ x, x < v.cnt.nLines ∧ s.rowSize = (v.slot V x).rowSize ∧ s.valSize = (v.slot V x).valSize

/-- Row `r` was there, or was just written. -/
def Old (V : RowView γ) (v v' : DbView γ) (r : ℕ) : Prop :=
  (∃ x, x < v.cnt.nLines ∧ v'.slot V r = v.slot V x) ∨ Fresh V v (v'.slot V r)

theorem old_of_rows {r x : ℕ} (h : v'.rows r = v.rows x) (hx : x < v.cnt.nLines) : Old V v v' r :=
  .inl ⟨x, hx, congrArg V.slot h⟩

theorem old_of_new {r : ℕ} {a : KeyArgs} {w : DbView γ} (h : v'.rows r = w.new V a)
    (hv : a.ver.getD w.cnt.syncId = v.cnt.syncId ∨ a.ver.getD w.cnt.syncId = 0 ∨
      ∃ x, x < v.cnt.nLines ∧ a.ver.getD w.cnt.syncId = (v.slot V x).ver)
    (hf : a.rowSize = 0 ∨ a.valSize ≤ a.rowSize ∨
      ∃ x, x < v.cnt.nLines ∧ a.rowSize = (v.slot V x).rowSize ∧ a.valSize = (v.slot V x).valSize) :
    Old V v v' r := by
  have hs : v'.slot V r = ⟨a.key, a.fileId, a.offset, a.rowSize, a.valSize, a.ver.getD w.cnt.syncId⟩ := by
    unfold slot
    rw [h, slot_new]
  right
  rw [hs]
  exact ⟨hv, hf⟩

/-- A row that names the value of an old one, with the session counter as its version. -/
theorem old_of_same {r x : ℕ} {a : KeyArgs} {w : DbView γ} {old : Row} (h : v'.rows r = w.new V a)
    (hold : V.proj old = v.rows x) (hx : x < v.cnt.nLines) (hw : w.cnt.syncId = v.cnt.syncId)
    (hv : a.ver = none) (hs : a.rowSize = old.rowSize ∧ a.valSize = old.valSize) : Old V v v' r := by
  have hslot := slot_eq hold
  refine old_of_new h ?_ ?_
  · left
    rw [hv]
    exact hw
  · right; right
    refine ⟨x, hx, ?_, ?_⟩
    · rw [hslot]; exact hs.1
    · rw [hslot]; exact hs.2

/-- Only the rows and their number count. -/
theorem Old.of_eq {w : DbView γ} {r : ℕ} (hc : w.cnt = v.cnt) (hr : w.rows = v.rows) (h : Old V w v' r) :
    Old V v v' r := by
  have hs : ∀ x, w.slot V x = v.slot V x := by
    intro x
    unfold slot
    rw [hr]
  unfold Old at h ⊢
  simp only [hs, hc] at h
  rcases h with h | ⟨hv, hf⟩
  · exact .inl h
  · right
    simp only [hs, hc] at hv hf
    exact ⟨hv, hf⟩

/-- An old row of a view that shows the rows of another. -/
theorem Old.copy {w : DbView γ} {r x : ℕ} (h : Old V v w x) (hr : v'.rows r = w.rows x) : Old V v v' r := by
  have hs : v'.slot V r = w.slot V x := congrArg V.slot hr
  unfold Old
  rw [hs]
  exact h

/-! ## Taking a row -/

/-- The rows after one was used up: a row that was split is two. -/
theorem Reuse.origin {h req d : ℕ} {p : Place} (hr : Reuse V h req v d p v₁) :
    ∀ r, r < v₁.cnt.nLines → Old V v v₁ r := by
  have hsplit : ∀ {r : ℕ} {a : KeyArgs} {w : DbView γ}, w.rows r = v.new V a → a.ver = some 0 →
      a.valSize = 0 → Old V v w r := by
    intro r a w hw hver hval
    refine old_of_new hw ?_ ?_
    · right; left
      rw [hver]
      rfl
    · right; left
      rw [hval]
      exact Nat.zero_le _
  cases hr with
  | whole =>
    intro r hr
    exact old_of_rows rfl hr
  | splitNew hd hd' =>
    intro r hr
    have hr : r < v.cnt.nLines + 1 := hr
    by_cases h₁ : r = d
    · subst h₁
      exact hsplit (Function.update_self ..) rfl rfl
    · by_cases h₂ : r = v.cnt.nLines
      · subst h₂
        refine hsplit ((Function.update_of_ne h₁ ..).trans (Function.update_self ..)) rfl rfl
      · refine old_of_rows ((Function.update_of_ne h₁ ..).trans (Function.update_of_ne h₂ ..)) ?_
        omega
  | @splitOver size e hd hd' hpos hreq hsize he he' =>
    intro r hr
    by_cases h₁ : r = d
    · subst h₁
      exact hsplit (Function.update_self ..) rfl rfl
    · by_cases h₂ : r = e
      · subst h₂
        refine hsplit ((Function.update_of_ne h₁ ..).trans (Function.update_self ..)) rfl rfl
      · exact old_of_rows ((Function.update_of_ne h₁ ..).trans (Function.update_of_ne h₂ ..)) hr

/-- The rows after space was taken: all but the row used up were there, or come from a split. -/
theorem Takes.origin {enc : Enc} {sp : Space} (ht : Takes V cfg key flags v enc sp v₁) {r : ℕ}
    (hr : r < v₁.cnt.nLines) (hne : r ≠ sp.dead) : Old V v v₁ r := by
  cases ht with
  | headNew =>
    have hr : r < v.cnt.nLines + 1 := hr
    have hne : r ≠ v.cnt.nLines := hne
    exact old_of_rows rfl (by omega)
  | headDead hd => exact Old.of_eq (w := v.reserve key flags (v.deadHead cfg flags)) rfl rfl (hd.origin r hr)
  | valueNew =>
    have hr : r < v.cnt.nLines + 1 := hr
    have hne : r ≠ v.cnt.nLines := hne
    exact old_of_rows rfl (by omega)
  | valueDead _ hd =>
    have ho := Old.of_eq (v := v) (w := v.reserve key flags (v.deadHead cfg flags)) rfl rfl (hd.origin r hr)
    exact ho.copy rfl

/-- The head of the dead region was there before space was taken, unless it is the row used up. -/
theorem Takes.head_old {enc : Enc} {sp : Space} (hle : v.cnt.nRecords ≤ v.cnt.nLines)
    (ht : Takes V cfg key flags v enc sp v₁) (hne : sp.head ≠ sp.dead) : Old V v v₁ sp.head := by
  obtain ⟨-, -, hd, hl⟩ := ht.frame hle
  exact ht.origin (by omega) hne

theorem Takes.head_le {enc : Enc} {sp : Space} (hle : v.cnt.nRecords ≤ v.cnt.nLines)
    (ht : Takes V cfg key flags v enc sp v₁) : sp.head ≤ v.cnt.nLines := by
  have := (le_deadHead cfg flags hle).2
  cases ht <;> exact this

theorem Reuse.le {h req d : ℕ} {p : Place} (hr : Reuse V h req v d p v₁) : req ≤ p.2.2 := by
  cases hr with
  | whole _ _ hf => exact hf.1
  | splitNew _ _ _ hreq => exact hreq
  | splitOver _ _ _ hreq => exact hreq

/-- The value that was given space fits into it. -/
theorem Takes.fits {enc : Enc} {sp : Space} (ht : Takes V cfg key flags v enc sp v₁) :
    sp.rowSize = 0 ∨ sp.valSize ≤ sp.rowSize := by
  cases ht with
  | headNew => exact .inl rfl
  | headDead => exact .inl rfl
  | valueNew => exact .inr (Nat.le_add_right _ _)
  | valueDead _ hr => exact .inr hr.le

theorem Takes.syncId {enc : Enc} {sp : Space} (hle : v.cnt.nRecords ≤ v.cnt.nLines)
    (ht : Takes V cfg key flags v enc sp v₁) : v₁.cnt.syncId = v.cnt.syncId := (ht.frame hle).1.syncId

/-- A record that was given space is a row that was just written. -/
theorem Takes.old {enc : Enc} {sp : Space} (hle : v.cnt.nRecords ≤ v.cnt.nLines)
    (ht : Takes V cfg key flags v enc sp v₁) {r : ℕ} {m : Meta} (hr : v'.rows r = v₁.new V (sp.args key m)) :
    Old V v v' r := by
  refine old_of_new hr ?_ ?_
  · left
    exact ht.syncId hle
  · exact ht.fits.imp id .inl

/-! ## The updates -/

theorem parkAt_origin (h : v.Keyed V) {row : ℕ} (hrow : v.At key row) {old : Row}
    (hold : V.proj old = v.rows row) {enc : Enc} {m : Meta} {sp : Space}
    (ht : Takes V cfg key flags v enc sp v₁) {r : ℕ} (hr : r < v₁.cnt.nLines) :
    Old V v (v₁.parkAt V key row old enc m sp) r := by
  have hrows : (v₁.parkAt V key row old enc m sp).rows r = _ := rows_parkAt v₁ r
  have hlt := hrow.2
  have hle := h.le
  split at hrows
  · exact ht.old hle hrows
  · split at hrows
    · exact old_of_same hrows hold (by omega) (ht.syncId hle) rfl ⟨rfl, rfl⟩
    · rename_i hhead
      split at hrows
      · rename_i hdead
        exact (ht.head_old hle (Nat.ne_of_lt hdead.1)).copy hrows
      · rename_i hdead
        obtain ⟨-, -, hd, -⟩ := ht.frame hle
        refine (ht.origin hr ?_).copy hrows
        rintro rfl
        exact hdead ⟨by omega, rfl⟩

theorem addAt_origin (h : v.Keyed V) {enc : Enc} {m : Meta} {sp : Space}
    (ht : Takes V cfg key flags v enc sp v₁) {r : ℕ} (hr : r < v₁.cnt.nLines) :
    Old V v (v₁.addAt V key enc m flags sp) r := by
  have hle := h.le
  obtain ⟨hs, hn, hd, hl⟩ := ht.frame hle
  have hn₁ := hs.nRecords
  have hrows : (v₁.addAt V key enc m flags sp).rows r = _ := rows_addAt V key flags v₁ enc m (by omega) hd r
  split at hrows
  · exact ht.old hle hrows
  · rename_i hne
    split at hrows
    · rename_i hhead
      have hlive : v.cnt.nRecords < sp.head := by omega
      rw [hn₁, hs.rows _ hlive] at hrows
      have := ht.head_le hle
      exact old_of_rows hrows (by omega)
    · rename_i hhead
      split at hrows
      · rename_i hdead
        refine (ht.head_old hle ?_).copy hrows
        intro he
        exact hhead (by omega)
      · rename_i hdead
        exact (ht.origin hr hdead).copy hrows

/-- The rows once they made room for a record that is appended. -/
theorem appendRoom_origin (hle : v.cnt.nRecords ≤ v.cnt.nLines) {r : ℕ} (hne : r ≠ v.cnt.nRecords)
    (hr : r < v.cnt.nLines + 1) : ∃ x, x < v.cnt.nLines ∧ v.appendRoom.rows r = v.rows x := by
  have hs := le_safeEnd hle
  rw [rows_appendRoom' hle hne]
  split
  · exact ⟨_, by omega, rfl⟩
  · split
    · exact ⟨_, by omega, rfl⟩
    · exact ⟨r, by omega, rfl⟩

theorem appendAt_origin (h : v.Keyed V) {enc : Enc} {m : Meta} {sp : Space}
    (hv : v₁.cnt = v.appendRoom.cnt ∧ v₁.rows = v.appendRoom.rows)
    (hf : sp.rowSize = 0 ∨ sp.valSize ≤ sp.rowSize) {r : ℕ} (hr : r < v₁.cnt.nLines) :
    Old V v (v₁.appendAt V key enc m sp) r := by
  obtain ⟨hc, hrows₁⟩ := hv
  have hc : v₁.cnt = { v.cnt with nLines := v.cnt.nLines + 1 } := hc
  have hn : v₁.cnt.nRecords = v.cnt.nRecords := by rw [hc]
  have hl : v₁.cnt.nLines = v.cnt.nLines + 1 := by rw [hc]
  have hsync : v₁.cnt.syncId = v.cnt.syncId := by rw [hc]
  have hrows : (v₁.appendAt V key enc m sp).rows r = _ := rows_appendAt v₁ r
  split at hrows
  · exact old_of_new hrows (.inl hsync) (hf.imp id .inl)
  · rename_i hne
    rw [hn] at hne
    obtain ⟨x, hx, hxr⟩ := appendRoom_origin h.le hne (by omega)
    rw [hrows₁, hxr] at hrows
    exact old_of_rows hrows hx

theorem deleteAt_origin (h : v.Keyed V) {row kf : ℕ} (hrow : v.At key row) {old : Row}
    (hold : V.proj old = v.rows row) {r : ℕ} (hr : r < v.cnt.nLines) :
    Old V v (v.deleteAt V key row old flags kf) r := by
  have hle := h.le
  have hs := le_safeEnd hle
  have hlt := hrow.2
  have hparked : ∀ x, (v.deleteAt V key row old flags kf).rows x = v.new V (parked key old) →
      Old V v (v.deleteAt V key row old flags kf) x := fun x hx =>
    old_of_same hx hold (by omega) rfl rfl ⟨rfl, rfl⟩
  have hcopy : ∀ x y, y < v.cnt.nLines → (v.deleteAt V key row old flags kf).rows x = v.rows y →
      Old V v (v.deleteAt V key row old flags kf) x := fun x y hy hx => old_of_rows hx hy
  have hrows := rows_deleteAt V key flags v row old kf r
  split at hrows
  · split at hrows
    · exact hparked r hrows
    · split at hrows
      · split at hrows
        · exact hcopy r _ (by omega) hrows
        · exact hcopy r _ (by omega) hrows
      · split at hrows
        · exact hcopy r _ (by omega) hrows
        · exact hcopy r _ hr hrows
  · split at hrows
    · exact hparked r hrows
    · split at hrows
      · exact hcopy r _ (by omega) hrows
      · exact hcopy r _ hr hrows

theorem undeleteAt_origin (h : v.Keyed V) {d kf : ℕ} {info : Row} (hd : v.cnt.nRecords ≤ d)
    (hd' : d < v.cnt.nLines) (hinfo : V.proj info = v.rows d) {r : ℕ} (hr : r < v.cnt.nLines) :
    Old V v ((v.undeleteRoom key flags d).undeleteAt V key info kf) r := by
  have hle := h.le
  have hu := le_undoHead flags hle
  obtain ⟨hc, -, -, -⟩ := undeleteRoom_frame key flags hle hd
  have hrows := rows_undeleteAt V key (v.undeleteRoom key flags d) info kf r
  split at hrows
  · exact old_of_same hrows hinfo hd' (congrArg Counters.syncId hc) rfl ⟨rfl, rfl⟩
  · rename_i hne
    rw [hc] at hne
    rw [rows_undeleteRoom key flags hle hd hne] at hrows
    split at hrows
    · exact old_of_rows hrows (by omega)
    · split at hrows
      · exact old_of_rows hrows (by omega)
      · split at hrows
        · exact old_of_rows hrows (by omega)
        · exact old_of_rows hrows hr

/-- **The rows after an update** were there, or were just written. -/
theorem Effect.origin (h : v.Keyed V) (he : Effect V cfg key flags v v') {r : ℕ} (hr : r < v'.cnt.nLines) :
    Old V v v' r := by
  have hle := h.le
  cases he with
  | mark => exact old_of_rows rfl hr
  | bytes => exact old_of_rows rfl hr
  | @rewrite row a hrow hkey hres =>
    have hlt := hrow.2
    by_cases hrr : r = row
    · subst hrr
      refine old_of_new (w := v) (a := a) (Function.update_self ..) ?_ ?_
      · cases hver : a.ver with
        | none => exact .inl rfl
        | some n => exact .inr (.inr ⟨r, hr, hres.ver n hver⟩)
      · rcases hres.fits with hf | hf | hf
        · exact .inl hf
        · exact .inr (.inl hf)
        · exact .inr (.inr ⟨r, hr, hres.extent.1, hf⟩)
    · exact old_of_rows (Function.update_of_ne hrr ..) hr
  | park hrow hold ht => exact parkAt_origin h hrow hold ht hr
  | add _ ht => exact addAt_origin h ht hr
  | @append enc m sp v₁ _ _ hv =>
    cases enc with
    | head =>
      obtain ⟨hsize, rfl⟩ := hv
      exact appendAt_origin h ⟨rfl, rfl⟩ (.inl hsize) hr
    | value data =>
      obtain ⟨pad, -, -, -, hsize, hval, rfl⟩ := hv
      refine appendAt_origin h ?_ (.inr (by omega)) hr
      exact ⟨rfl, rfl⟩
  | delete hrow hold => exact deleteAt_origin h hrow hold hr
  | @undelete d kf info hnew hd hd' hinfo =>
    refine undeleteAt_origin h hd hd' hinfo ?_
    have hl : ∀ w : DbView γ, (w.undeleteAt V key info kf).cnt.nLines = w.cnt.nLines := fun _ => rfl
    rw [hl, (undeleteRoom_frame key flags hle hd).1] at hr
    exact hr
  | @unwrite row d kf old info hrow hold hd hd' hinfo =>
    have hlt := hrow.2
    have hrows : (v.unwriteAt V key row d old info kf).rows r = _ := rows_unwriteAt v r
    split at hrows
    · exact old_of_same hrows hinfo hd' rfl rfl ⟨rfl, rfl⟩
    · split at hrows
      · exact old_of_same hrows hold (by omega) rfl rfl ⟨rfl, rfl⟩
      · exact old_of_rows hrows hr

end DbView

namespace JDb

open DbView (Old)

/-- **The rows after an update** of any kind were there, or were just written. -/
theorem Moves.origin (h : v.Keyed V) (hm : Moves V cfg v v') {r : ℕ} (hr : r < v'.cnt.nLines) : Old V v v' r := by
  cases hm with
  | effect he => exact he.origin h hr
  | session => exact DbView.old_of_rows rfl hr
  | @rename key newKey row old _ hrow _ hold =>
    by_cases hrr : r = row
    · subst hrr
      exact DbView.old_of_same (Function.update_self ..) hold hr rfl rfl ⟨rfl, rfl⟩
    · exact DbView.old_of_rows (Function.update_of_ne hrr ..) hr

/-- The value of every row lies in its extent. -/
def Sized (V : RowView γ) (v : DbView γ) : Prop :=
  ∀ r, r < v.cnt.nLines → (v.slot V r).rowSize = 0 ∨ (v.slot V r).valSize ≤ (v.slot V r).rowSize

theorem Moves.sized (h : v.Keyed V) (hs : Sized V v) (hm : Moves V cfg v v') : Sized V v' := by
  intro r hr
  rcases hm.origin h hr with ⟨x, hx, he⟩ | hf
  · rw [he]
    exact hs x hx
  · rcases hf.fits with h₀ | hle | ⟨x, hx, h₁, h₂⟩
    · exact .inl h₀
    · exact .inr hle
    · rw [h₁, h₂]
      exact hs x hx

/-- **Values stay inside their extents**, whatever is done. -/
theorem Moved.sized (h : v.Good V) (hs : Sized V v) (hm : Moved V cfg v v') : Sized V v' := by
  induction hm with
  | refl => exact hs
  | tail hp hm ih => exact hm.sized (Moved.good h hp).keyed ih

end JDb

end OmniJsonDb
