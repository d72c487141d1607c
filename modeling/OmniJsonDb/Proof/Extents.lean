import OmniJsonDb.Proof.Keyed

/-!
# The space of the values is kept

* `Takes.extents`: the space that is taken for a value is nobody else's.
* `Effect.extents`: every effect keeps extents apart.
* `Effect.volumes`: every effect keeps the file table in step with the files.
* `Effect.bytes`: no effect writes on an extent but the one of the key it is about.
-/

namespace OmniJsonDb

namespace DbView

variable {γ : Type} {V : RowView γ} {cfg : Config} {v v' v₁ : DbView γ} {key : Key} {flags : ℕ}

open JIo (Fits)
open JDb (Space Meta parked)

/-- The extent that was taken. -/
def spaceOf (sp : Space) : Place := (sp.fileId, sp.offset, sp.rowSize)

/-- The bytes of an extent. -/
def bytesAt (v : DbView γ) (p : Place) : Bytes := (v.val p.1).read p.2.1 p.2.2

/-! ## Places -/

theorem place_new (v : DbView γ) (a : KeyArgs) :
    JIo.place (V.slot (v.new V a)) = (a.fileId, a.offset, a.rowSize) := by rw [slot_new]; rfl

theorem place_eq {r : ℕ} {row : Row} (h : V.proj row = v.rows r) :
    v.place V r = (row.fileId, row.offset, row.rowSize) := by
  unfold place; rw [slot_eq h]; rfl

theorem place_of_rows {r s : ℕ} (h : v'.rows r = v.rows s) : v'.place V r = v.place V s := by
  unfold place slot; rw [h]

theorem fileEnd_note (data : Bytes) (sp : Space) (f : ℕ) :
    (v.note (.value data) sp).fileEnd f =
      if f = sp.fileId then max (v.fileEnd sp.fileId) (sp.offset + sp.rowSize) else v.fileEnd f := by
  unfold note
  simp only [fileEnd, OrdDict.get?_set]
  split <;> rfl

theorem le_fileEnd_note (enc : Enc) (sp : Space) (f : ℕ) : v.fileEnd f ≤ (v.note enc sp).fileEnd f := by
  cases enc with
  | head => exact le_rfl
  | value data =>
    rw [fileEnd_note]
    split
    · rename_i h; subst h; exact le_max_left _ _
    · exact le_rfl

theorem end_le_note (data : Bytes) (sp : Space) :
    sp.offset + sp.rowSize ≤ (v.note (.value data) sp).fileEnd sp.fileId := by
  rw [fileEnd_note, if_pos rfl]
  exact le_max_right _ _

/-! ## Taking space -/

/-- A dead row that is taken brings the extent it is said to, also when it was split. -/
theorem Reuse.extents {h req d : ℕ} {p : Place} (hx : v.Extents V) (hr : Reuse V h req v d p v₁) :
    v₁.Extents V ∧ v₁.place V d = p ∧ Fits req p ∧ v₁.fileTable = v.fileTable ∧ v₁.vals = v.vals ∧
      d < v₁.cnt.nLines := by
  have hplace : ∀ {r : ℕ} {a : KeyArgs} {w : DbView γ}, w.rows r = v.new V a →
      w.place V r = (a.fileId, a.offset, a.rowSize) := by
    intro r a w hw
    unfold place slot; rw [hw]; exact place_new v a
  cases hr with
  | whole hd hd' hf => exact ⟨hx, rfl, hf, rfl, rfl, hd'⟩
  | @splitNew size hd hd' hreq hle hsize =>
    have hne : v.cnt.nLines ≠ d := by omega
    have hQd : _ = (_, _, _) := hplace (r := d) (a := headArgs (v.place V d) size)
      (w := (v.line.put v.cnt.nLines (v.new V (restArgs (v.place V d) size))).put d
        (v.new V (headArgs (v.place V d) size))) (by simp [put])
    have hQe : _ = (_, _, _) := hplace (r := v.cnt.nLines) (a := restArgs (v.place V d) size)
      (w := (v.line.put v.cnt.nLines (v.new V (restArgs (v.place V d) size))).put d
        (v.new V (headArgs (v.place V d) size))) (by simp [put, hne])
    refine ⟨?_, hQd, ⟨hle, by omega⟩, rfl, rfl, Nat.lt_succ_of_lt hd'⟩
    refine Apart.split hx hd' hne (fun r hr hre => ?_) hsize hQd hQe fun r hrd hre => ?_
    · change r < v.cnt.nLines + 1 at hr; omega
    · exact place_of_rows (by simp [put, line, hrd, hre])
  | @splitOver size e hd hd' hreq hle hsize he he' hne h0 =>
    have hQd : _ = (_, _, _) := hplace (r := d) (a := headArgs (v.place V d) size)
      (w := (v.put e (v.new V (restArgs (v.place V d) size))).put d
        (v.new V (headArgs (v.place V d) size))) (by simp [put])
    have hQe : _ = (_, _, _) := hplace (r := e) (a := restArgs (v.place V d) size)
      (w := (v.put e (v.new V (restArgs (v.place V d) size))).put d
        (v.new V (headArgs (v.place V d) size))) (by simp [put, hne])
    refine ⟨?_, hQd, ⟨hle, by omega⟩, rfl, rfl, hd'⟩
    refine Apart.split hx hd' hne (fun r hr _ => hr) hsize hQd hQe fun r hrd hre => ?_
    exact place_of_rows (by simp [put, hrd, hre])

/-- The family of the extents once space was taken: the row used up stands for the space. -/
def taken (v : DbView γ) (V : RowView γ) (sp : Space) (r : ℕ) : Place :=
  if r = sp.dead then spaceOf sp else v.place V r

theorem reserve_extents (hx : v.Extents V) (h : ℕ) : (v.reserve key flags h).Extents V := hx

/-- **The space taken for a value is nobody else's.** -/
theorem Takes.extents {enc : Enc} {sp : Space} (hx : v.Extents V)
    (ht : Takes V cfg key flags v enc sp v₁) :
    Apart (v₁.taken V sp) v₁.cnt.nLines (v₁.note enc sp).fileEnd := by
  cases ht with
  | headNew => exact Apart.fresh hx (fun h => absurd h (lt_irrefl 0)) (fun _ => le_rfl) fun h => absurd h (lt_irrefl 0)
  | headDead hr =>
    obtain ⟨h₁, hp, -⟩ := hr.extents (reserve_extents hx _)
    refine Apart.congr h₁ (fun r _ => ?_) fun _ => le_rfl
    unfold taken
    split
    · exact .inl rfl
    · exact .refl _
  | @valueNew data fileId pad hdata hf =>
    refine Apart.fresh hx (fun _ => le_rfl)
      (fun f => le_fileEnd_note (v := (v.reserve key flags _).line.write fileId _ _) _ _ f) fun _ => ?_
    exact end_le_note data ⟨v.deadHead cfg flags, v.cnt.nLines, fileId, v.fileEnd fileId,
      data.length + pad, data.length⟩
  | @valueDead data d fileId offset rowSize w hdata hr =>
    obtain ⟨h₁, hp, -⟩ := hr.extents (reserve_extents hx _)
    refine Apart.congr h₁ (fun r _ => ?_) fun f =>
      le_fileEnd_note (v := w.write fileId offset data) _ _ f
    unfold taken
    split
    · rename_i h; subst h; rw [hp]; exact .refl _
    · exact .refl _

/-! ## The rows after an effect -/

theorem rows_parkAt (v₁ : DbView γ) {row : ℕ} {old : Row} {enc : Enc} {m : Meta} {sp : Space} (r : ℕ) :
    (v₁.parkAt V key row old enc m sp).rows r =
      if r = row then v₁.new V (sp.args key m) else if r = sp.head then v₁.new V (parked key old)
      else if sp.head < sp.dead ∧ r = sp.dead then v₁.rows sp.head else v₁.rows r := by
  have hrow : (v₁.parkAt V key row old enc m sp).rows r =
      if r = row then v₁.new V (sp.args key m) else if r = sp.head then v₁.new V (parked key old)
      else (v₁.copyUp sp.head sp.dead).rows r := by
    simp only [parkAt, sync, note, put, Function.update_apply]
  rw [hrow]
  congr 2
  unfold copyUp
  by_cases h : sp.head < sp.dead <;> simp [h, Function.update_apply]

/-- Two copies in a row: `h` goes to `d`, then `n` to `h`. -/
theorem rows_copyUp_copyUp (v : DbView γ) {n h d : ℕ} (hnh : n ≤ h) (hhd : h ≤ d) {r : ℕ} (hr : r ≠ n) :
    ((v.copyUp h d).copyUp n h).rows r =
      if r = h then v.rows n else if r = d then v.rows h else v.rows r := by
  have hup : ∀ (w : DbView γ) s t x, (w.copyUp s t).rows x =
      if s < t ∧ x = t then w.rows s else w.rows x := by
    intro w s t x
    unfold copyUp
    by_cases hst : s < t <;> simp [hst, Function.update_apply]
  rw [hup, hup, hup]
  by_cases h₁ : r = h
  · subst h₁
    rw [if_pos ⟨by omega, rfl⟩, if_neg (by omega), if_pos rfl]
  · rw [if_neg (by simp [h₁]), if_neg h₁]
    by_cases h₂ : r = d
    · subst h₂
      rw [if_pos ⟨by omega, rfl⟩, if_pos rfl]
    · rw [if_neg (by simp [h₂]), if_neg h₂]

variable (V key flags) in
theorem rows_addAt (v₁ : DbView γ) (enc : Enc) (m : Meta) {sp : Space}
    (h₁ : v₁.cnt.nRecords ≤ sp.head) (h₂ : sp.head ≤ sp.dead) (r : ℕ) :
    (v₁.addAt V key enc m flags sp).rows r =
      if r = v₁.cnt.nRecords then v₁.new V (sp.args key m)
      else if r = sp.head then v₁.rows v₁.cnt.nRecords
      else if r = sp.dead then v₁.rows sp.head else v₁.rows r := by
  by_cases hr : r = v₁.cnt.nRecords
  · subst hr; simp [addAt, sync, note, put, copyUp, new]
  · rw [if_neg hr, ← rows_copyUp_copyUp v₁ h₁ h₂ hr]
    simp [addAt, sync, note, put, hr]

theorem rows_appendAt (v₁ : DbView γ) {enc : Enc} {m : Meta} {sp : Space} (r : ℕ) :
    (v₁.appendAt V key enc m sp).rows r =
      if r = v₁.cnt.nRecords then v₁.new V (sp.args key m) else v₁.rows r := by
  simp [appendAt, sync, note, put, Function.update_apply]

theorem rows_appendRoom' (hle : v.cnt.nRecords ≤ v.cnt.nLines) {r : ℕ} (hr : r ≠ v.cnt.nRecords) :
    v.appendRoom.rows r = if r = v.safeEnd then v.rows v.cnt.nRecords
      else if r = v.cnt.nLines then v.rows v.safeEnd else v.rows r := by
  have := le_safeEnd hle
  exact rows_copyUp_copyUp v.line this.1 this.2 hr

variable (key flags) in
/-- Room is made from the head of the dead region, or within the safe one. -/
theorem rows_undeleteRoom (hle : v.cnt.nRecords ≤ v.cnt.nLines) {d : ℕ} (hd : v.cnt.nRecords ≤ d)
    {r : ℕ} (hr : r ≠ v.cnt.nRecords) :
    (v.undeleteRoom key flags d).rows r =
      if v.undoHead flags ≤ d ∧ r = v.undoHead flags then v.rows v.cnt.nRecords
      else if v.undoHead flags ≤ d ∧ r = d then v.rows (v.undoHead flags)
      else if r = d then v.rows v.cnt.nRecords else v.rows r := by
  have hu := le_undoHead flags hle
  unfold undeleteRoom
  by_cases h : v.undoHead flags ≤ d
  · simp only [h, if_true, true_and]
    have key := rows_copyUp_copyUp v hu.1 h hr
    have : ∀ w : DbView γ, w.rows r = (if r = v.undoHead flags then v.rows v.cnt.nRecords
        else if r = d then v.rows (v.undoHead flags) else v.rows r) →
        w.rows r = if r = v.undoHead flags then v.rows v.cnt.nRecords
          else if r = d then v.rows (v.undoHead flags)
          else if r = d then v.rows v.cnt.nRecords else v.rows r := by
      intro w hw
      rw [hw]
      split_ifs <;> rfl
    split <;> exact this _ key
  · simp only [h, if_false, false_and]
    unfold copyUp
    by_cases hnd : v.cnt.nRecords < d
    · simp [hnd, Function.update_apply]
    · simp [show d = v.cnt.nRecords by omega, hr]

variable (V key) in
theorem rows_undeleteAt (v : DbView γ) (info : Row) (kf r : ℕ) :
    (v.undeleteAt V key info kf).rows r = if r = v.cnt.nRecords then
      v.new V { info.args with key := key, ver := none, flags := kf } else v.rows r := by
  simp [undeleteAt, sync, put, Function.update_apply]

theorem rows_unwriteAt (v : DbView γ) {row d kf : ℕ} {old info : Row} (r : ℕ) :
    (v.unwriteAt V key row d old info kf).rows r =
      if r = row then v.new V { info.args with key := key, ver := none, flags := kf }
      else if r = d then v.new V (parked key old) else v.rows r := by
  simp [unwriteAt, sync, put, Function.update_apply, new]

variable (V key flags) in
theorem rows_deleteAt (v : DbView γ) (row : ℕ) (old : Row) (kf r : ℕ) :
    (v.deleteAt V key row old flags kf).rows r =
      if v.toTail key flags then
        if r = v.safeEnd - 1 then v.new V (parked key old)
        else if r = v.cnt.nRecords - 1 then
          if v.safeEnd - 1 = row ∧ row < v.cnt.nRecords - 1 then v.rows (v.cnt.nRecords - 1)
          else v.rows (v.safeEnd - 1)
        else if r = row ∧ row < v.cnt.nRecords - 1 then v.rows (v.cnt.nRecords - 1)
        else v.rows r
      else if r = v.cnt.nRecords - 1 then v.new V (parked key old)
      else if r = row ∧ row < v.cnt.nRecords - 1 then v.rows (v.cnt.nRecords - 1)
      else v.rows r := by
  unfold deleteAt
  by_cases ht : v.toTail key flags <;> by_cases hr : row < v.cnt.nRecords - 1 <;>
    simp [ht, hr, Function.update_apply]

/-! ## Extents -/

theorem taken_dead (sp : Space) : v.taken V sp sp.dead = spaceOf sp := if_pos rfl

theorem taken_of_ne {sp : Space} {r : ℕ} (h : r ≠ sp.dead) : v.taken V sp r = v.place V r := if_neg h

/-- Row `r` got what row `s` had. -/
theorem sub_of_rows {P : ℕ → Place} {r s : ℕ} (h : v'.rows r = v.rows s) (hP : P s = v.place V s) :
    (v'.place V r).Sub (P s) := by
  rw [place_of_rows h, hP]; exact .refl _

theorem sub_of_new {w : DbView γ} {p : Place} {r : ℕ} {a : KeyArgs} (h : v'.rows r = w.new V a)
    (hp : p = (a.fileId, a.offset, a.rowSize)) : (v'.place V r).Sub p := by
  have : v'.place V r = (a.fileId, a.offset, a.rowSize) := by
    unfold place slot; rw [h]; exact place_new w a
  rw [this, hp]; exact .refl _

theorem parkAt_extents (hle : v.cnt.nRecords ≤ v.cnt.nLines) (hx : v.Extents V) {row : ℕ}
    (hrow : row < v.cnt.nRecords) {old : Row} (hold : V.proj old = v.rows row) {enc : Enc} {m : Meta}
    {sp : Space} (ht : Takes V cfg key flags v enc sp v₁) :
    (v₁.parkAt V key row old enc m sp).Extents V := by
  obtain ⟨hs, hn, hd, hl⟩ := ht.frame hle
  change Apart _ v₁.cnt.nLines _
  refine Apart.rotate (ht.extents hx) (a := row) (b := sp.head) (c := sp.dead) (by omega) (by omega) hl
    (by omega) (sub_of_new ((rows_parkAt v₁ row).trans (if_pos rfl)) (taken_dead sp)) (fun hb => ?_)
    (fun hca hcb => ?_) (fun r ha hb hc => ?_) fun _ => le_rfl
  · refine sub_of_new ((rows_parkAt v₁ _).trans ((if_neg hb).trans (if_pos rfl))) ?_
    rw [taken_of_ne (by omega), place_of_rows (hs.rows row (by omega)), place_eq hold]
    rfl
  · refine sub_of_rows ((rows_parkAt v₁ _).trans ?_) (taken_of_ne (Ne.symm hcb))
    rw [if_neg hca, if_neg hcb, if_pos ⟨by omega, rfl⟩]
  · refine sub_of_rows ((rows_parkAt v₁ _).trans ?_) (taken_of_ne hc)
    rw [if_neg ha, if_neg hb, if_neg (by simp [hc])]

theorem addAt_extents (hle : v.cnt.nRecords ≤ v.cnt.nLines) (hx : v.Extents V) {enc : Enc} {m : Meta}
    {sp : Space} (ht : Takes V cfg key flags v enc sp v₁) :
    (v₁.addAt V key enc m flags sp).Extents V := by
  obtain ⟨hs, hn, hd, hl⟩ := ht.frame hle
  change Apart _ v₁.cnt.nLines _
  have hrows := rows_addAt V key flags v₁ enc m (hs.nRecords ▸ hn) hd
  rw [hs.nRecords] at hrows
  refine Apart.rotate (ht.extents hx) (a := v.cnt.nRecords) (b := sp.head) (c := sp.dead) (by omega)
    (by omega) hl (by omega) (sub_of_new ((hrows _).trans (if_pos rfl)) (taken_dead sp))
    (fun hb => ?_) (fun hca hcb => ?_) (fun r ha hb hc => ?_) fun _ => le_rfl
  · exact sub_of_rows ((hrows _).trans ((if_neg hb).trans (if_pos rfl))) (taken_of_ne (by omega))
  · refine sub_of_rows ((hrows _).trans ?_) (taken_of_ne (Ne.symm hcb))
    rw [if_neg hca, if_neg hcb, if_pos rfl]
  · refine sub_of_rows ((hrows _).trans ?_) (taken_of_ne hc)
    rw [if_neg ha, if_neg hb, if_neg hc]

/-- The rows that made room for a record, with the new line standing for its space. -/
theorem appendAt_extents (hle : v.cnt.nRecords ≤ v.cnt.nLines) {enc : Enc} {m : Meta} {sp : Space}
    (hc : v₁.cnt = v.appendRoom.cnt) (hr : v₁.rows = v.appendRoom.rows)
    {F : ℕ → Place} (hF : F = fun r => if r = v.cnt.nLines then spaceOf sp else v.place V r)
    (hx : Apart F (v.cnt.nLines + 1) (v₁.note enc sp).fileEnd) : (v₁.appendAt V key enc m sp).Extents V := by
  have hs := le_safeEnd hle
  have hold : ∀ r, r ≠ v.cnt.nLines → F r = v.place V r := fun r hr => by rw [hF]; exact if_neg hr
  have hc : v₁.cnt = { v.cnt with nLines := v.cnt.nLines + 1 } := hc
  have hrows : ∀ r, (v₁.appendAt V key enc m sp).rows r = if r = v.cnt.nRecords then
      v₁.new V (sp.args key m) else v.appendRoom.rows r := by
    intro r; rw [rows_appendAt, hr, hc]
  have hlines : (v₁.appendAt V key enc m sp).cnt.nLines = v.cnt.nLines + 1 := by
    simp [appendAt, sync, note, put, hc]
  unfold Extents
  rw [hlines]
  refine Apart.rotate hx (a := v.cnt.nRecords) (b := v.safeEnd) (c := v.cnt.nLines) (by omega)
    (by omega) (by omega) (by omega) (sub_of_new ((hrows _).trans (if_pos rfl)) (by rw [hF]; exact if_pos rfl))
    (fun hb => ?_) (fun hca hcb => ?_) (fun r ha hb hc => ?_) fun _ => le_rfl
  · refine sub_of_rows (P := F) ((hrows _).trans ?_) (hold _ (by omega))
    rw [if_neg hb, rows_appendRoom' hle hb, if_pos rfl]
  · refine sub_of_rows (P := F) ((hrows _).trans ?_) (hold _ (Ne.symm hcb))
    rw [if_neg hca, rows_appendRoom' hle hca, if_neg hcb, if_pos rfl]
  · refine sub_of_rows (P := F) ((hrows _).trans ?_) (hold _ hc)
    rw [if_neg ha, rows_appendRoom' hle ha, if_neg hb, if_neg hc]

theorem undeleteAt_extents (hle : v.cnt.nRecords ≤ v.cnt.nLines) (hx : v.Extents V) {d kf : ℕ}
    {info : Row} (hd : v.cnt.nRecords ≤ d) (hd' : d < v.cnt.nLines) (hinfo : V.proj info = v.rows d) :
    ((v.undeleteRoom key flags d).undeleteAt V key info kf).Extents V := by
  obtain ⟨hc, -, -, -⟩ := undeleteRoom_frame key flags hle hd
  have hu := le_undoHead flags hle
  have hf : ((v.undeleteRoom key flags d).undeleteAt V key info kf).fileEnd = v.fileEnd := by
    unfold undeleteAt undeleteRoom
    split
    · simp only; split <;> rfl
    · rfl
  have hlines : ((v.undeleteRoom key flags d).undeleteAt V key info kf).cnt.nLines = v.cnt.nLines := by
    simp [undeleteAt, sync, put, hc]
  have hrows := rows_undeleteAt V key (v.undeleteRoom key flags d) info kf
  simp only [hc] at hrows
  have hroom := fun (r : ℕ) (hr : r ≠ v.cnt.nRecords) => rows_undeleteRoom key flags hle hd hr
  have hnew : ∀ r, r = v.cnt.nRecords →
      (((v.undeleteRoom key flags d).undeleteAt V key info kf).place V r).Sub (v.place V d) := by
    intro r hr
    refine sub_of_new ((hrows _).trans (if_pos hr)) ?_
    rw [place_eq hinfo]; rfl
  unfold Extents
  rw [hlines, hf]
  by_cases hh : v.undoHead flags ≤ d
  · refine Apart.rotate hx (a := v.cnt.nRecords) (b := v.undoHead flags) (c := d) (by omega) (by omega)
      hd' (by omega) (hnew _ rfl) (fun hb => ?_) (fun hca hcb => ?_) (fun r ha hb hc => ?_) fun _ => le_rfl
    · refine sub_of_rows ((hrows _).trans ?_) rfl
      rw [if_neg hb, hroom _ hb, if_pos ⟨hh, rfl⟩]
    · refine sub_of_rows ((hrows _).trans ?_) rfl
      rw [if_neg hca, hroom _ hca, if_neg (by simp [hcb]), if_pos ⟨hh, rfl⟩]
    · refine sub_of_rows ((hrows _).trans ?_) rfl
      rw [if_neg ha, hroom _ ha, if_neg (by simp [hb]), if_neg (by simp [hc]), if_neg hc]
  · refine Apart.rotate hx (a := v.cnt.nRecords) (b := d) (c := d) (by omega) hd' hd' (by omega)
      (hnew _ rfl) (fun hb => ?_) (fun _ hcb => absurd rfl hcb) (fun r ha hb hc => ?_) fun _ => le_rfl
    · refine sub_of_rows ((hrows _).trans ?_) rfl
      rw [if_neg hb, hroom _ hb, if_neg (by simp [hh]), if_neg (by simp [hh]), if_pos rfl]
    · refine sub_of_rows ((hrows _).trans ?_) rfl
      rw [if_neg ha, hroom _ ha, if_neg (by simp [hh]), if_neg (by simp [hh]), if_neg hb]

theorem unwriteAt_extents (hle : v.cnt.nRecords ≤ v.cnt.nLines) (hx : v.Extents V) {row d kf : ℕ}
    {old info : Row} (hrow : row < v.cnt.nRecords) (hold : V.proj old = v.rows row)
    (hd : v.cnt.nRecords ≤ d) (hd' : d < v.cnt.nLines) (hinfo : V.proj info = v.rows d) :
    (v.unwriteAt V key row d old info kf).Extents V := by
  change Apart _ v.cnt.nLines _
  refine Apart.rotate hx (a := row) (b := d) (c := d) (by omega) hd' hd' (by omega) ?_ (fun hb => ?_)
    (fun _ hcb => absurd rfl hcb) (fun r ha hb _ => ?_) fun _ => le_rfl
  · refine sub_of_new ((rows_unwriteAt v _).trans (if_pos rfl)) ?_
    rw [place_eq hinfo]; rfl
  · refine sub_of_new ((rows_unwriteAt v _).trans ((if_neg hb).trans (if_pos rfl))) ?_
    rw [place_eq hold]; rfl
  · refine sub_of_rows ((rows_unwriteAt v _).trans ?_) rfl
    rw [if_neg ha, if_neg hb]

theorem deleteAt_extents (hle : v.cnt.nRecords ≤ v.cnt.nLines) (hx : v.Extents V) {row kf : ℕ}
    {old : Row} (hrow : row < v.cnt.nRecords) (hold : V.proj old = v.rows row) :
    (v.deleteAt V key row old flags kf).Extents V := by
  have hs := le_safeEnd (v := v) hle
  have hrows := rows_deleteAt V key flags v row old kf
  have hplace : v.place V row = (old.fileId, old.offset, old.rowSize) := place_eq hold
  change Apart _ v.cnt.nLines _
  by_cases ht : v.toTail key flags
  · simp only [ht, if_true] at hrows
    have hne := ht.1
    by_cases hlast : row = v.cnt.nRecords - 1
    · -- the last record goes to the tail, whose version takes its row
      refine Apart.rotate hx (a := row) (b := v.safeEnd - 1) (c := v.safeEnd - 1) (by omega) (by omega)
        (by omega) (by omega) ?_ (fun hb => ?_) (fun _ hcb => absurd rfl hcb) (fun r ha hb _ => ?_)
        fun _ => le_rfl
      · refine sub_of_rows ((hrows _).trans ?_) rfl
        rw [if_neg (by omega), if_pos hlast, if_neg (by omega)]
      · exact sub_of_new ((hrows _).trans (if_pos rfl)) hplace
      · refine sub_of_rows ((hrows _).trans ?_) rfl
        rw [if_neg hb, if_neg (by omega), if_neg (by omega)]
    · refine Apart.rotate hx (a := row) (b := v.safeEnd - 1) (c := v.cnt.nRecords - 1) (by omega)
        (by omega) (by omega) (by omega) ?_ (fun hb => ?_) (fun hca hcb => ?_) (fun r ha hb hc => ?_)
        fun _ => le_rfl
      · refine sub_of_rows ((hrows _).trans ?_) rfl
        rw [if_neg (by omega), if_neg hlast, if_pos ⟨rfl, by omega⟩]
      · exact sub_of_new ((hrows _).trans (if_pos rfl)) hplace
      · refine sub_of_rows ((hrows _).trans ?_) rfl
        rw [if_neg hcb, if_pos rfl, if_neg (by omega)]
      · refine sub_of_rows ((hrows _).trans ?_) rfl
        rw [if_neg hb, if_neg hc, if_neg (by simp [ha])]
  · simp only [ht, if_false] at hrows
    refine Apart.rotate hx (a := row) (b := v.cnt.nRecords - 1) (c := v.cnt.nRecords - 1) (by omega)
      (by omega) (by omega) (by omega) ?_ (fun hb => ?_) (fun _ hcb => absurd rfl hcb)
      (fun r ha hb _ => ?_) fun _ => le_rfl
    · by_cases hlast : row = v.cnt.nRecords - 1
      · rw [← hlast]
        exact sub_of_new ((hrows _).trans (if_pos hlast)) hplace
      · refine sub_of_rows ((hrows _).trans ?_) rfl
        rw [if_neg hlast, if_pos ⟨rfl, by omega⟩]
    · exact sub_of_new ((hrows _).trans (if_pos rfl)) hplace
    · refine sub_of_rows ((hrows _).trans ?_) rfl
      rw [if_neg hb, if_neg (by simp [ha])]

/-- **Every effect keeps extents apart.** -/
theorem Effect.extents (hk : v.Keyed V) (hx : v.Extents V) (he : Effect V cfg key flags v v') :
    v'.Extents V := by
  cases he with
  | mark => exact hx
  | bytes => exact hx
  | @rewrite row a hrow ha hsame =>
    refine Apart.congr hx (fun r _ => ?_) fun _ => le_rfl
    by_cases hr : r = row
    · subst hr
      have : ((v.put r (v.new V a)).sync).place V r = (a.fileId, a.offset, a.rowSize) := by
        unfold place slot sync put
        simp only [Function.update_self]
        exact place_new v a
      rw [this]
      obtain ⟨h₁, h₂⟩ := hsame.extent
      by_cases hpos : 0 < a.rowSize
      · obtain ⟨h₂, h₃⟩ := h₂ hpos
        rw [h₁, h₂, h₃]; exact .refl _
      · exact .inl (by dsimp only; omega)
    · refine sub_of_rows ?_ rfl
      simp [sync, put, hr]
  | park hrow hold ht => exact parkAt_extents hk.le hx hrow.2 hold ht
  | add hnew ht => exact addAt_extents hk.le hx ht
  | @append enc m sp _ hnew _ hv =>
    cases enc with
    | head =>
      obtain ⟨h0, rfl⟩ := hv
      refine appendAt_extents hk.le rfl rfl rfl (Apart.fresh hx (fun h => ?_) (fun _ => le_rfl) fun h => ?_)
      · exact absurd h (by change ¬ 0 < sp.rowSize; omega)
      · exact absurd h (by change ¬ 0 < sp.rowSize; omega)
    | value data =>
      obtain ⟨pad, hdata, hf, hoff, hsize, -, rfl⟩ := hv
      refine appendAt_extents hk.le rfl rfl rfl (Apart.fresh hx (fun _ => ?_) (fun f => ?_) fun _ => ?_)
      · exact le_of_eq hoff.symm
      · exact le_fileEnd_note (v := v.appendRoom.write sp.fileId sp.offset _) _ _ f
      · exact end_le_note _ _
  | delete hrow hold => exact deleteAt_extents hk.le hx hrow.2 hold
  | undelete hnew hd hd' hinfo => exact undeleteAt_extents hk.le hx hd hd' hinfo
  | unwrite hrow hold hd hd' hinfo => exact unwriteAt_extents hk.le hx hrow.2 hold hd hd' hinfo

/-! ## Files -/

theorem Volumes.size_val (h : v.Volumes) (f : ℕ) : (v.val f).size = v.fileEnd f := by
  unfold val fileEnd
  rw [← h.sizes f]
  cases v.vals f <;> rfl

theorem Volumes.lt_size (h : v.Volumes) {f : ℕ} (hf : 0 < v.fileEnd f) : f < v.fileTable.size := by
  by_contra hn
  have := (h.dense f).2 (by omega)
  unfold fileEnd at hf
  rw [this] at hf
  exact lt_irrefl 0 hf

theorem Volumes.get?_eq (h : v.Volumes) {f : ℕ} (hf : f < v.fileTable.size) :
    v.fileTable.get? f = some (v.fileEnd f) := by
  cases hg : v.fileTable.get? f with
  | none => exact absurd ((h.dense f).1 hg) (by omega)
  | some n => simp [fileEnd, hg]

/-- Data is put at the end of a file, of a new one perhaps, which is noted. -/
theorem Volumes.extend (h : v.Volumes) {f : ℕ} (hf : f ≤ v.fileTable.size) (data : Bytes)
    (hv : v'.vals = Function.update v.vals f (some ((v.val f).write (v.fileEnd f) data)))
    (ht : v'.fileTable = v.fileTable.set f (max (v.fileEnd f) (v.fileEnd f + data.length))) :
    v'.Volumes where
  sizes x := by
    rw [hv, ht, OrdDict.get?_set]
    by_cases hx : x = f
    · subst hx
      have := h.size_val x
      simp [ByteFile.write, this]
    · simpa [hx] using h.sizes x
  dense x := by
    rw [ht, OrdDict.get?_set, OrdDict.size_set]
    have hd := h.dense x
    have hdf := h.dense f
    by_cases hx : x = f
    · subst hx
      simp only [if_true, reduceCtorEq, false_iff]
      split
      · rename_i hg; have := hd.1 hg; omega
      · rename_i hg; have := mt hd.2 hg; omega
    · rw [if_neg hx, hd]
      split
      · rename_i hg; have := hdf.1 hg; omega
      · rfl

/-- Data is put into the used part of a file. -/
theorem Volumes.within (h : v.Volumes) {f off : ℕ} (data : Bytes) {e : ℕ} (hpos : 0 < v.fileEnd f)
    (hdata : off + data.length ≤ v.fileEnd f) (he : e ≤ v.fileEnd f)
    (hv : v'.vals = Function.update v.vals f (some ((v.val f).write off data)))
    (ht : v'.fileTable = v.fileTable.set f (max (v.fileEnd f) e)) : v'.Volumes where
  sizes x := by
    rw [hv, ht, OrdDict.get?_set]
    by_cases hx : x = f
    · subst hx
      have := h.size_val x
      simp only [Function.update_self, Option.map_some, ByteFile.write, if_true, this]
      congr 1
      omega
    · simpa [hx] using h.sizes x
  dense x := by
    have hget := h.get?_eq (h.lt_size hpos)
    rw [ht, max_eq_left he, OrdDict.set_of_get? hget]
    exact h.dense x

theorem Volumes.congr (h : v.Volumes) (hv : v'.vals = v.vals) (ht : v'.fileTable = v.fileTable) :
    v'.Volumes := ⟨by rw [hv, ht]; exact h.sizes, by rw [ht]; exact h.dense⟩

/-- Once space that was taken is noted, the file table is in step with the files. -/
theorem Takes.volumes {enc : Enc} {sp : Space} (hx : v.Extents V) (h : v.Volumes)
    (ht : Takes V cfg key flags v enc sp v₁) : (v₁.note enc sp).Volumes := by
  cases ht with
  | headNew => exact h.congr rfl rfl
  | headDead hr =>
    obtain ⟨-, -, -, hf, hv, -⟩ := hr.extents (reserve_extents hx _)
    exact h.congr hv hf
  | @valueNew data fileId pad hdata hf =>
    refine h.extend hf (data ++ List.replicate pad cfg.val.padByte) rfl ?_
    simp [note, fileEnd, write, line, reserve]
  | @valueDead data d fileId offset rowSize w hdata hr =>
    obtain ⟨hx₁, hp, hfits, hf, hv, hd⟩ := hr.extents (reserve_extents hx _)
    have hpos : 0 < data.length := List.length_pos_of_ne_nil hdata
    have hle : data.length ≤ rowSize := hfits.1
    have hin := hx₁.inside d hd (by rw [hp]; dsimp only; omega)
    rw [hp] at hin
    have hin : offset + rowSize ≤ w.fileEnd fileId := hin
    have hw : w.Volumes := h.congr hv hf
    exact hw.within data (e := offset + rowSize) (by omega) (by omega) hin rfl rfl

theorem Effect.volumes (hx : v.Extents V) (hk : v.Keyed V) (h : v.Volumes)
    (he : Effect V cfg key flags v v') : v'.Volumes := by
  cases he with
  | mark => exact h.congr rfl rfl
  | @bytes row kf data hrow hover hpos hlen =>
    have hle := hk.le
    have hin := hx.inside row (by have := hrow.2; omega) hpos
    have hend : 0 < v.fileEnd (v.slot V row).fileId := 
      lt_of_lt_of_le (Nat.add_pos_right _ hpos) hin
    refine h.within data (e := 0) hend ?_ (Nat.zero_le _) rfl ?_
    · exact le_trans (Nat.add_le_add_left hlen _) hin
    · rw [max_eq_left (Nat.zero_le _), OrdDict.set_of_get? (h.get?_eq (h.lt_size hend))]
      rfl
  | rewrite => exact h.congr rfl rfl
  | park _ _ ht => exact (ht.volumes hx h).congr rfl rfl
  | add _ ht => exact (ht.volumes hx h).congr rfl rfl
  | @append enc m sp _ hnew _ hv =>
    cases enc with
    | head => obtain ⟨-, rfl⟩ := hv; exact h.congr rfl rfl
    | value data =>
      obtain ⟨pad, hdata, hf, hoff, hsize, -, rfl⟩ := hv
      refine h.extend hf (data ++ List.replicate pad cfg.val.padByte) ?_ ?_
      · rw [← hoff]; rfl
      · change v.fileTable.set sp.fileId (max (v.fileEnd sp.fileId) (sp.offset + sp.rowSize)) = _
        rw [List.length_append, List.length_replicate, ← hsize, hoff]
  | delete => exact h.congr rfl rfl
  | @undelete d kf info =>
    have : ∀ w : DbView γ, w = v.undeleteRoom key flags d → w.vals = v.vals ∧ w.fileTable = v.fileTable := by
      rintro w rfl
      unfold undeleteRoom
      split
      · simp only; split <;> exact ⟨rfl, rfl⟩
      · exact ⟨rfl, rfl⟩
    exact h.congr (this _ rfl).1 (this _ rfl).2
  | unwrite => exact h.congr rfl rfl

/-! ## Bytes -/

theorem bytesAt_congr (hv : v'.vals = v.vals) (p : Place) : v'.bytesAt p = v.bytesAt p := by
  unfold bytesAt val; rw [hv]

/-- Writing on the extent of one row leaves the bytes of every other one alone. -/
theorem bytesAt_of_write (h : v.Volumes) (hx : v'.Extents V) (w : ℕ) (hw : w < v'.cnt.nLines)
    (data : Bytes) (hpos : 0 < (v'.place V w).2.2) (hlen : data.length ≤ (v'.place V w).2.2)
    (hv : v'.vals = (v.write (v'.place V w).1 (v'.place V w).2.1 data).vals)
    (hend : ∀ f, v'.fileEnd f = v.fileEnd f ∨ f = (v'.place V w).1 ∧
      v.fileEnd f = (v'.place V w).2.1 ∧ v'.fileEnd f = (v'.place V w).2.1 + (v'.place V w).2.2)
    {r : ℕ} (hr : r < v'.cnt.nLines) (hne : r ≠ w) :
    v'.bytesAt (v'.place V r) = v.bytesAt (v'.place V r) := by
  have hval : v'.val (v'.place V r).1 = if (v'.place V r).1 = (v'.place V w).1 then
      (v.val (v'.place V r).1).write (v'.place V w).2.1 data else v.val (v'.place V r).1 := by
    unfold val
    rw [hv]
    simp only [write, Function.update_apply]
    split
    · rename_i h; rw [h]; rfl
    · rfl
  unfold bytesAt
  rw [hval]
  split
  · rename_i hf
    have ha := hx.apart r w hr hw hne
    have hin := hx.inside r hr
    have he := hend (v'.place V r).1
    have hs := h.size_val (v'.place V r).1
    by_cases h0 : 0 < (v'.place V r).2.2
    · have hin := hin h0
      unfold Place.Apart at ha
      refine ByteFile.read_write_of_disjoint _ ?_ ?_
      · rw [hs]; omega
      · omega
    · have h0 : (v'.place V r).2.2 = 0 := by omega
      simp [ByteFile.read, h0]
  · rfl

/-- What `Takes` does to the VAL files. -/
theorem Takes.bytes {enc : Enc} {sp : Space} (hx : v.Extents V)
    (ht : Takes V cfg key flags v enc sp v₁) :
    (v₁.vals = v.vals ∧ ∀ f, (v₁.note enc sp).fileEnd f = v.fileEnd f) ∨
      ∃ data, 0 < sp.rowSize ∧ data.length ≤ sp.rowSize ∧
        v₁.vals = (v.write sp.fileId sp.offset data).vals ∧
        ∀ f, (v₁.note enc sp).fileEnd f = v.fileEnd f ∨ f = sp.fileId ∧
          v.fileEnd f = sp.offset ∧ (v₁.note enc sp).fileEnd f = sp.offset + sp.rowSize := by
  cases ht with
  | headNew => exact .inl ⟨rfl, fun _ => rfl⟩
  | headDead hr =>
    obtain ⟨-, -, -, hf, hv, -⟩ := hr.extents (reserve_extents hx _)
    exact .inl ⟨hv, fun f => congrArg (fun t => (t.get? f).getD 0) hf⟩
  | @valueNew data fileId pad hdata hf =>
    have hpos : 0 < data.length := List.length_pos_of_ne_nil hdata
    refine .inr ⟨_, Nat.add_pos_left hpos _, ?_, rfl, fun f => ?_⟩
    · simp
    · by_cases hff : f = fileId
      · subst hff
        exact .inr ⟨rfl, rfl, (fileEnd_note _ _ _).trans ((if_pos rfl).trans (max_eq_right (Nat.le_add_right _ _)))⟩
      · exact .inl ((fileEnd_note _ _ _).trans (if_neg hff))
  | @valueDead data d fileId offset rowSize w hdata hr =>
    obtain ⟨hx₁, hp, hfits, hf, hv, hd⟩ := hr.extents (reserve_extents hx _)
    have hpos : 0 < data.length := List.length_pos_of_ne_nil hdata
    have hle : data.length ≤ rowSize := hfits.1
    have hin := hx₁.inside d hd (by rw [hp]; dsimp only; omega)
    rw [hp] at hin
    have hin : offset + rowSize ≤ w.fileEnd fileId := hin
    have hend : ∀ f, w.fileEnd f = v.fileEnd f := fun f => congrArg (fun t => (t.get? f).getD 0) hf
    refine .inr ⟨data, by dsimp only; omega, hle, ?_, fun f => .inl ?_⟩
    · simp only [write, val, hv]; rfl
    · rw [fileEnd_note]
      split
      · rename_i hff
        subst hff
        rw [← hend]
        exact max_eq_left hin
      · exact hend f

/-- **No effect writes on an extent but that of the key it is about**: whatever row lists
an extent afterwards, its bytes are what they were. -/
theorem Effect.bytes_eq (hk : v.Keyed V) (hx : v.Extents V) (h : v.Volumes)
    (he : Effect V cfg key flags v v') {r : ℕ} (hr : r < v'.cnt.nLines) (hne : v'.rowOf key ≠ some r) :
    v'.bytesAt (v'.place V r) = v.bytesAt (v'.place V r) := by
  have hx' := he.extents hk hx
  cases he with
  | mark => rfl
  | @bytes row kf data hrow hover hpos hlen =>
    have hlt := hrow.2
    have hle := hk.le
    refine bytesAt_of_write h hx' row (show row < v.cnt.nLines by omega) data hpos hlen rfl
      (fun f => .inl rfl) hr ?_
    rintro rfl
    exact hne hrow.1
  | rewrite => rfl
  | @park v₁ row old enc m sp hrow hold ht =>
    obtain ⟨hs, hn, hd, hl⟩ := ht.frame hk.le
    have hlt := hrow.2
    have hrow' : (v₁.parkAt V key row old enc m sp).place V row = spaceOf sp := by
      unfold place slot
      rw [rows_parkAt, if_pos rfl]
      exact place_new v₁ _
    have hne : r ≠ row := by
      rintro rfl
      exact hne ((congrArg (fun t => (t.get? key).map Prod.fst) hs.keyTable).trans hrow.1)
    rcases ht.bytes hx with ⟨hv, -⟩ | ⟨data, hpos, hlen, hv, hend⟩
    · exact bytesAt_congr hv _
    · refine bytesAt_of_write h hx' row ?_ data ?_ ?_ ?_ (fun f => ?_) hr hne
      · change row < v₁.cnt.nLines; omega
      all_goals rw [hrow']
      exacts [hpos, hlen, hv, hend f]
  | @add v₁ enc m sp hnew ht =>
    obtain ⟨hs, hn, hd, hl⟩ := ht.frame hk.le
    have hrow' : (v₁.addAt V key enc m flags sp).place V v.cnt.nRecords = spaceOf sp := by
      unfold place slot
      rw [rows_addAt _ _ _ v₁ _ _ (hs.nRecords ▸ hn) hd, if_pos hs.nRecords.symm]
      exact place_new v₁ _
    have hne : r ≠ v.cnt.nRecords := by
      rintro rfl
      refine hne ?_
      simp [rowOf, addAt, OrdDict.get?_set, hs.nRecords]
    rcases ht.bytes hx with ⟨hv, -⟩ | ⟨data, hpos, hlen, hv, hend⟩
    · exact bytesAt_congr hv _
    · refine bytesAt_of_write h hx' v.cnt.nRecords ?_ data ?_ ?_ ?_ (fun f => ?_) hr hne
      · change v.cnt.nRecords < v₁.cnt.nLines; omega
      all_goals rw [hrow']
      exacts [hpos, hlen, hv, hend f]
  | @append enc m sp v₁ hnew _ hv =>
    cases enc with
    | head => obtain ⟨-, rfl⟩ := hv; rfl
    | value data =>
      obtain ⟨pad, hdata, hf, hoff, hsize, -, rfl⟩ := hv
      have hpos : 0 < data.length := List.length_pos_of_ne_nil hdata
      have hrow' : ((v.appendRoom.write sp.fileId sp.offset (data ++ List.replicate pad cfg.val.padByte)).appendAt
          V key (.value data) m sp).place V v.cnt.nRecords = spaceOf sp := by
        unfold place slot
        rw [rows_appendAt]
        exact (congrArg (fun g => JIo.place (V.slot g)) (if_pos rfl)).trans (place_new _ _)
      have hne : r ≠ v.cnt.nRecords := by
        rintro rfl
        refine hne ?_
        simp [rowOf, appendAt, OrdDict.get?_set, appendRoom, write, copyUp, line]
      refine bytesAt_of_write h hx' v.cnt.nRecords ?_
        (data ++ List.replicate pad cfg.val.padByte) ?_ ?_ ?_ (fun f => ?_) hr hne
      · have := hk.le
        change v.cnt.nRecords < v.cnt.nLines + 1; omega
      all_goals rw [hrow']
      · change 0 < sp.rowSize; omega
      · change _ ≤ sp.rowSize; simp [hsize]
      · rfl
      · have hnote := fileEnd_note (v := v.appendRoom.write sp.fileId sp.offset
          (data ++ List.replicate pad cfg.val.padByte)) data sp f
        by_cases hff : f = sp.fileId
        · refine .inr ⟨hff, by rw [hff]; exact hoff.symm, hnote.trans ((if_pos hff).trans (max_eq_right ?_))⟩
          change v.fileEnd sp.fileId ≤ _
          rw [← hoff]
          exact Nat.le_add_right _ _
        · exact .inl (hnote.trans (if_neg hff))
  | delete => rfl
  | @undelete d kf info =>
    refine bytesAt_congr ?_ _
    unfold undeleteAt undeleteRoom
    split
    · simp only; split <;> rfl
    · rfl
  | unwrite => rfl

/-- What is left when a dead row was taken is still a good index. -/
theorem Reuse.good {h req d : ℕ} {p : Place} (hg : v.Good V)
    (hh : v.cnt.nRecords ≤ h) (hh' : h ≤ v.cnt.nLines) (hr : Reuse V h req v d p v₁) : v₁.Good V := by
  obtain ⟨hs, -, -⟩ := hr.frame hh'
  obtain ⟨hx, -, -, hf, hv, -⟩ := hr.extents hg.extents
  refine ⟨?_, hx, hg.volumes.congr hv hf⟩
  refine hg.keyed.of_keys ?_ hs.nRecords (fun k => ?_) fun r hr => ?_
  · rw [hs.nRecords]; exact hg.keyed.le.trans hs.nLines
  · unfold rowOf; rw [hs.keyTable]
  · unfold slot; rw [hs.rows r (by omega)]

/-- **Every effect keeps the index good.** -/
theorem Effect.good (h : v.Good V) (he : Effect V cfg key flags v v') : v'.Good V :=
  ⟨he.keyed h.keyed, he.extents h.keyed h.extents, he.volumes h.extents h.keyed h.volumes⟩

theorem Effects.good (h : v.Good V) (he : Effects V cfg key flags v v') : v'.Good V := by
  induction he with
  | refl => exact h
  | tail _ hs ih => exact hs.good ih

/-- **Renaming keeps the index good.** -/
theorem renameAt_good (h : v.Good V) {newKey : Key} {row : ℕ} {old : Row} (hrow : v.At key row)
    (hnew : v.rowOf newKey = none) (hold : V.proj old = v.rows row) :
    (v.renameAt V key newKey row old).Good V := by
  refine ⟨renameAt_keyed h.keyed hrow hnew, ?_, h.volumes.congr rfl rfl⟩
  refine Apart.congr h.extents (fun r _ => ?_) fun _ => le_rfl
  by_cases hr : r = row
  · subst hr
    refine sub_of_new (w := v) (a := { old.args with key := newKey, ver := none }) ?_ (place_eq hold)
    simp [renameAt]
  · refine sub_of_rows ?_ rfl
    simp [renameAt, hr]

/-- The clock has no part in it. -/
theorem Good.clock (h : v.Good V) (now : ℕ) : ({ v with now := now } : DbView γ).Good V :=
  ⟨⟨h.keyed.le, h.keyed.table⟩, h.extents, ⟨h.volumes.sizes, h.volumes.dense⟩⟩

end DbView

end OmniJsonDb
