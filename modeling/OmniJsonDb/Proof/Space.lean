import OmniJsonDb.Proof.Reads

/-!
# Taking a row and space for a value

The middle of a call, where the index is what a view says but a row may be waiting to be
written.

* `Shows`: what a handle shows then.
* `wp_writeKey`, `wp_copyKey`: one row.
* `wp_getDeadRow`: the row `_get_dead_row` offers is one of the dead region.
* `wp_takeSpace`: `Takes`.
-/

namespace OmniJsonDb

namespace JDb

variable {γ : Type} {V : RowView γ} {cfg : Config} {db db' : JDb} {v v' : DbView γ} {size : ℕ}

open DbView (Reuse Takes)
open JIo (Fits)

/-- In the middle of a call the handle shows `v`; the VAL files it has open are among the
first `size`. -/
structure Shows (V : RowView γ) (cfg : Config) (size : ℕ) (v : DbView γ) (db : JDb) : Prop where
  ok : JIo.Ok V cfg db.io
  view : db.view V = v
  opened : ∀ f ∈ db.fpDict, f < size

theorem Good.shows (h : db.Good V cfg) : Shows V cfg (db.view V).fileTable.size (db.view V) db :=
  ⟨h.ok, rfl, h.opened⟩

theorem Shows.good (h : Shows V cfg size v db) (hg : v.Good V) (hs : size = v.fileTable.size) :
    db.Good V cfg := by
  refine ⟨h.ok, h.view ▸ hg, fun f hf => ?_⟩
  have := h.opened f hf
  rw [hs, ← h.view] at this
  exact this

/-- A change of the handle that is the change `v'` of the view and touches no row. -/
theorem Shows.update (h : Shows V cfg size v db) (size' : ℕ) (v' : DbView γ) (db' : JDb) (hv : db'.view V = v')
    (hr : v'.rows = v.rows)
    (hk : db'.io.keyRows = db.io.keyRows ∧ db'.io.deadRows = db.io.deadRows ∧
      db'.io.indexSize = db.io.indexSize)
    (ho : ∀ x ∈ db'.fpDict, x < size')
    (hm : max v.cnt.nRecords v.cnt.nLines ≤ max v'.cnt.nRecords v'.cnt.nLines) :
    Shows V cfg size' v' db' := by
  have hrows : ∀ r, (db'.io.view V).rows r = (db.io.view V).rows r := by
    intro r
    have h₁ := congrArg (fun v : DbView γ => v.rows) hv
    have h₂ := congrArg (fun v : DbView γ => v.rows) h.view
    exact congrFun (h₁.trans (hr.trans h₂.symm)) r
  refine ⟨⟨fun r row hr => ?_, fun r p hr hS => ?_, fun r => ?_, hk.2.2 ▸ h.ok.wide, fun r row hr => ?_⟩, hv, ho⟩
  · rw [hrows]; exact h.ok.keyRows r row (hk.1 ▸ hr)
  · rw [hrows]; exact h.ok.deadRows r p (hk.2.1 ▸ hr) hS
  · rw [hrows]; exact h.ok.fixed r
  · have hlt := h.ok.known r row (hk.1 ▸ hr)
    subst hv
    have hview := h.view
    subst hview
    exact lt_of_lt_of_le hlt hm

/-- The same, of a view and a handle that the goal tells. -/
theorem Shows.modify {size' : ℕ} (h : Shows V cfg size v db) (hv : db'.view V = v')
    (hr : v'.rows = v.rows)
    (hk : db'.io.keyRows = db.io.keyRows ∧ db'.io.deadRows = db.io.deadRows ∧
      db'.io.indexSize = db.io.indexSize)
    (ho : ∀ x ∈ db'.fpDict, x < size')
    (hm : max v.cnt.nRecords v.cnt.nLines ≤ max v'.cnt.nRecords v'.cnt.nLines) :
    Shows V cfg size' v' db' := h.update size' v' db' hv hr hk ho hm

/-! ## One row -/

theorem wp_writeKey (hc : cfg.Keeps V) (h : Shows V cfg size v db) (r : ℕ) (a : KeyArgs) :
    Exec.Wp (onIo (JIo.writeKey cfg r a)) db
      (fun n db' => Shows V cfg size (v.put r (v.new V a)) db' ∧ 0 < n) (fun e _ => e ≠ .key) := by
  unfold onIo
  rw [Exec.wp_zoom]
  have h₁ := JIo.wp_writeKey hc h.ok r a
  have h₂ := @JIo.wp_writeKey_raises cfg db.io r a
  refine Exec.wp_mono (Exec.wp_and h₁ h₂) ?_ fun _ _ h' => h'.2
  rintro n io' ⟨⟨hv, hok, hn⟩, -⟩
  refine ⟨⟨hok, ?_, h.opened⟩, hn⟩
  have hview := h.view
  subst hview
  unfold view
  rw [hv]
  rfl

theorem wp_copyKey (h : Shows V cfg size v db) (src dst : ℕ) {E : Err → JDb → Prop} :
    Exec.Wp (onIo (JIo.copyKey src dst)) db
      (fun row db' => V.proj row = v.rows src ∧ Shows V cfg size (v.put dst (v.rows src)) db') E := by
  unfold onIo
  rw [Exec.wp_zoom]
  refine Exec.wp_mono (JIo.wp_copyKey (E := fun _ _ => False) h.ok src dst) ?_ fun _ _ h' => h'.elim
  rintro row io' ⟨hrow, hv, hok⟩
  have hview := h.view
  subst hview
  refine ⟨hrow, hok, ?_, h.opened⟩
  unfold view
  rw [hv]
  rfl

/-- A row is copied to a place behind it. -/
theorem wp_copyUp {α : Type} (h : Shows V cfg size v db) (s d : ℕ) {k : Unit → DbM α}
    {Q : α → JDb → Prop} {E : Err → JDb → Prop}
    (hk : ∀ db', Shows V cfg size (v.copyUp s d) db' → Exec.Wp (k ()) db' Q E) :
    Exec.Wp (if s < d then (do let _ ← onIo (JIo.copyKey s d); k ()) else k ()) db Q E := by
  split
  · rename_i hsd
    rw [Exec.wp_bind]
    refine Exec.wp_mono (wp_copyKey h s d (E := E)) (fun row db' h' => hk db' ?_) fun _ _ h' => h'
    have : v.copyUp s d = v.put d (v.rows s) := by unfold DbView.copyUp; rw [if_pos hsd]; rfl
    exact this ▸ h'.2
  · rename_i hsd
    have : v.copyUp s d = v := by unfold DbView.copyUp; rw [if_neg hsd]
    exact hk db (this.symm ▸ h)

/-! ## Dead rows -/

theorem splitSize_some {req have_ size : ℕ} (h : splitSize cfg req have_ = some size) :
    req ≤ size ∧ size ≤ have_ := by
  unfold splitSize at h
  simp only at h
  split at h
  · cases h
    have := cfg.le_reserve req
    omega
  · cases h

/-- A row met on the way to the one found: an empty one, when the value needs space. -/
def ExtOk (V : RowView γ) (v : DbView γ) (h d : ℕ) : Option ℕ → Prop
  | none => True
  | some e => h ≤ e ∧ e < v.cnt.nLines ∧ e ≠ d ∧ (v.slot V e).rowSize = 0

/-- **Splitting a dead row**, or leaving it whole. -/
theorem wp_splitDead (hc : cfg.Keeps V) (h : Shows V cfg size v db) {hd d req : ℕ} {p : Place}
    {ext : Option ℕ} (hreq : 0 < req) (h₁ : hd ≤ d) (h₂ : d < v.cnt.nLines) (hp : p = v.place V d)
    (hf : Fits req p) (he : ExtOk V v hd d ext) :
    Exec.Wp (splitDead cfg d p req ext) db
      (fun p' db' => ∃ v₁, Reuse V hd req v d p' v₁ ∧ Shows V cfg size v₁ db') (fun e _ => e ≠ .key) := by
  subst hp
  unfold splitDead
  split
  · exact ⟨v, .whole h₁ h₂ hf, h⟩
  · rename_i sz hsz
    obtain ⟨hle, hsz⟩ := splitSize_some hsz
    rw [Exec.wp_bind, Exec.wp_get]
    have hlines : db.io.cnt.nLines = v.cnt.nLines := by rw [← h.view]; rfl
    -- the last two steps write the front and return
    have front : ∀ {w : DbView γ} {db' : JDb}, w.now = v.now → w.cnt.syncId = v.cnt.syncId →
        Reuse V hd req v d ((v.slot V d).fileId, (v.slot V d).offset, sz)
          (w.put d (v.new V (DbView.headArgs (v.place V d) sz))) → Shows V cfg size w db' →
        Exec.Wp (do
          let _ ← onIo (JIo.writeKey cfg d
            { key := [], fileId := (v.place V d).1, offset := (v.place V d).2.1, rowSize := sz,
              ver := some 0 })
          pure ((v.place V d).1, (v.place V d).2.1, sz) : DbM Place) db'
          (fun p' db' => ∃ v₁, Reuse V hd req v d p' v₁ ∧ Shows V cfg size v₁ db')
          (fun e _ => e ≠ .key) := by
      intro w db' hnow hsync hr hw
      rw [Exec.wp_bind]
      refine Exec.wp_mono (wp_writeKey hc hw d (DbView.headArgs (v.place V d) sz)) ?_ fun _ _ h' => h'
      rintro n db'' ⟨hs, -⟩
      refine ⟨_, hr, ?_⟩
      have hnew : w.new V (DbView.headArgs (v.place V d) sz) =
          v.new V (DbView.headArgs (v.place V d) sz) := by unfold DbView.new; rw [hnow, hsync]
      exact hnew ▸ hs
    cases ext with
    | some e =>
      dsimp only
      rw [Exec.wp_bind]
      refine Exec.wp_mono (wp_writeKey hc h e (DbView.restArgs (v.place V d) sz)) ?_ fun _ _ h' => h'
      rintro n db' ⟨hs, -⟩
      exact front (w := v.put e _) rfl rfl (.splitOver h₁ h₂ hreq hle hsz he.1 he.2.1 he.2.2.1 he.2.2.2) hs
    | none =>
      dsimp only
      unfold modifyIo
      rw [Exec.wp_bind, Exec.wp_modify, Exec.wp_bind, hlines]
      have hl : Shows V cfg size v.line { db with io := { db.io with
          cnt := { db.io.cnt with nLines := db.io.cnt.nLines + 1 } } } :=
        h.modify (by rw [← h.view]; rfl) rfl ⟨rfl, rfl, rfl⟩ h.opened (max_le_max le_rfl (Nat.le_succ _))
      refine Exec.wp_mono (wp_writeKey hc hl v.cnt.nLines (DbView.restArgs (v.place V d) sz)) ?_
        fun _ _ h' => h'
      rintro n db' ⟨hs, -⟩
      exact front (w := v.line.put v.cnt.nLines _) rfl rfl (.splitNew h₁ h₂ hreq hle hsz) hs

/-- What a window scan finds: a row that fits, and perhaps an empty one met before it. -/
theorem scanDead_some {req : ℕ} {d : ℕ} {p : Place} {ext' : Option ℕ} : ∀ {l : List (ℕ × Row)}
    {ext : Option ℕ}, scanDead req ext l = some (d, p, ext') →
    (∃ info, (d, info) ∈ l ∧ p = JIo.place info.toSlot) ∧ Fits req p ∧
      (ext' = ext ∨ ∃ e info, ext' = some e ∧ (e, info) ∈ l ∧ info.rowSize = 0 ∧ 0 < req)
  | [], _, h => by cases h
  | (row, info) :: rest, ext, h => by
    have later : ∀ {ext₁ : Option ℕ}, scanDead req ext₁ rest = some (d, p, ext') →
        (ext₁ = ext ∨ ext₁ = some row ∧ info.rowSize = 0 ∧ 0 < req) →
        (∃ info', (d, info') ∈ (row, info) :: rest ∧ p = JIo.place info'.toSlot) ∧ Fits req p ∧
          (ext' = ext ∨ ∃ e info', ext' = some e ∧ (e, info') ∈ (row, info) :: rest ∧
            info'.rowSize = 0 ∧ 0 < req) := by
      intro ext₁ h hext
      obtain ⟨⟨info', hm, hp⟩, hf, he⟩ := scanDead_some h
      refine ⟨⟨info', List.mem_cons_of_mem _ hm, hp⟩, hf, ?_⟩
      rcases he with rfl | ⟨e, info₂, rfl, hm₂, h0⟩
      · rcases hext with rfl | ⟨rfl, h0⟩
        · exact .inl rfl
        · exact .inr ⟨row, info, rfl, List.mem_cons_self .., h0⟩
      · exact .inr ⟨e, info₂, rfl, List.mem_cons_of_mem _ hm₂, h0⟩
    rw [scanDead] at h
    split at h
    · rename_i h0
      split at h
      · rename_i hs
        cases h
        exact ⟨⟨info, List.mem_cons_self .., rfl⟩, ⟨by rw [h0]; exact Nat.zero_le _, fun _ => hs⟩, .inl rfl⟩
      · exact later h (.inl rfl)
    · rename_i h0
      split at h
      · rename_i hs
        cases h
        exact ⟨⟨info, List.mem_cons_self .., rfl⟩, ⟨hs, fun h => absurd h h0⟩, .inl rfl⟩
      · split at h
        · rename_i hs
          exact later h (.inr ⟨rfl, hs, by omega⟩)
        · exact later h (.inl rfl)

/-- The rows a window has. -/
theorem mem_keyIter {io : JIo} {start stop r : ℕ} {row : Row} (h : (r, row) ∈ io.keyIter start stop) :
    start ≤ r ∧ r < io.cnt.nLines ∧ row = unpackRow (io.files.rows r) := by
  unfold JIo.keyIter at h
  split at h
  · cases h
  · obtain ⟨x, hx, he⟩ := List.mem_map.1 h
    cases he
    have := List.mem_range'_1.1 hx
    exact ⟨this.1, by omega, rfl⟩

/-- What `_get_dead_row` offers. -/
def Offer (V : RowView γ) (cfg : Config) (size h req : ℕ) (v : DbView γ) (db : JDb) :
    Option (ℕ × Place) → Prop
  | none => Shows V cfg size v db
  | some (d, p) => ∃ v₁, Reuse V h req v d p v₁ ∧ Shows V cfg size v₁ db

/-- A row that fits is offered, after it was split if that is asked for. -/
theorem wp_offer (hc : cfg.Keeps V) (h : Shows V cfg size v db) {hd d req flags : ℕ} {p : Place}
    {ext : Option ℕ} (h₁ : hd ≤ d) (h₂ : d < v.cnt.nLines) (hp : p = v.place V d)
    (hf : Fits req p) (he : ExtOk V v hd d ext) :
    Exec.Wp (do
        let p ← if 0 < req ∧ has flags SPLIT then splitDead cfg d p req ext else pure p
        pure (hd, some (d, p)) : DbM (ℕ × Option (ℕ × Place))) db
      (fun res db' => res.1 = hd ∧ Offer V cfg size hd req v db' res.2) (fun e _ => e ≠ .key) := by
  extract_lets
  split
  · rename_i hs
    rw [Exec.wp_bind]
    refine Exec.wp_mono (wp_splitDead hc h hs.1 h₁ h₂ hp hf he) ?_ fun _ _ h' => h'
    exact fun p' db' h' => ⟨rfl, h'⟩
  · subst hp
    exact ⟨rfl, v, .whole h₁ h₂ hf, h⟩

/-- A stored row is what the view shows. -/
theorem Shows.stored (h : Shows V cfg size v db) (r : ℕ) :
    V.proj (unpackRow (db.io.files.rows r)) = v.rows r := by rw [← h.view]; rfl

theorem wp_scan (hc : cfg.Keeps V) (h : Shows V cfg size v db) (env : Env) (req flags : ℕ)
    (maxWsize : Option ℕ) {hd lines : ℕ} :
    Exec.Wp (getDeadRow.scan cfg env req flags maxWsize hd lines) db
      (fun res db' => res.1 = hd ∧ Offer V cfg size hd req v db' res.2) (fun e _ => e ≠ .key) := by
  have hlines : db.io.cnt.nLines = v.cnt.nLines := by rw [← h.view]; rfl
  have hslot : ∀ {r : ℕ} {row : Row}, row = unpackRow (db.io.files.rows r) →
      v.slot V r = row.toSlot := by
    rintro r _ rfl; exact DbView.slot_eq (h.stored r)
  unfold getDeadRow.scan
  extract_lets m
  split
  · exact ⟨rfl, h⟩
  · rw [Exec.wp_bind, Exec.wp_get]
    extract_lets window start
    have hstart : hd ≤ start := Nat.le_add_right _ _
    split
    · exact ⟨rfl, h⟩
    · rename_i d p ext hscan
      obtain ⟨⟨info, hm, rfl⟩, hf, he⟩ := scanDead_some hscan
      obtain ⟨h₁, h₂, hi⟩ := mem_keyIter (List.mem_reverse.1 hm)
      refine wp_offer hc h (by omega) (hlines ▸ h₂) ?_ hf ?_
      · unfold DbView.place; rw [hslot hi]
      · rcases he with rfl | ⟨e, info₂, rfl, hm₂, h0, hreq⟩
        · trivial
        · obtain ⟨h₃, h₄, hi₂⟩ := mem_keyIter (List.mem_reverse.1 hm₂)
          refine ⟨by omega, hlines ▸ h₄, ?_, (congrArg Slot.rowSize (hslot hi₂)).trans h0⟩
          rintro rfl
          have : req ≤ info.rowSize := hf.1
          rw [hi, ← hi₂] at this
          omega

/-- **The row `_get_dead_row` offers** is one of the dead region, and fits. -/
theorem wp_getDeadRow (hc : cfg.Keeps V) (h : Shows V cfg size v db) (env : Env) (key : Key)
    (req flags : ℕ) (maxWsize : Option ℕ) :
    Exec.Wp (getDeadRow cfg env key req flags maxWsize) db
      (fun res db' => res.1 = v.deadHead cfg flags ∧
        Offer V cfg size (v.deadHead cfg flags) req (v.reserve key flags (v.deadHead cfg flags)) db' res.2)
      (fun e _ => e ≠ .key) := by
  have hview := h.view
  subst hview
  unfold getDeadRow
  rw [Exec.wp_bind, Exec.wp_get]
  extract_lets n lines hd jp
  have search : ∀ w db₁, Shows V cfg size w db₁ → lines = w.cnt.nLines → Exec.Wp (jp ()) db₁
      (fun res db' => res.1 = hd ∧ Offer V cfg size hd req w db' res.2) (fun e _ => e ≠ .key) := by
    intro w db₁ h₁ hl
    simp only [jp]
    split
    · exact ⟨rfl, h₁⟩
    · rw [Exec.wp_bind]
      unfold onIo
      rw [Exec.wp_zoom]
      refine Exec.wp_mono (JIo.wp_getDeadRow (E := fun _ _ => False) h₁.ok hd req) ?_ fun _ _ h' => h'.elim
      rintro res io' ⟨hv, hok, hres⟩
      have h₂ : Shows V cfg size w { db₁ with io := io' } :=
        ⟨hok, by rw [← h₁.view]; unfold view; rw [hv], h₁.opened⟩
      cases res with
      | none => exact wp_scan hc h₂ env req flags maxWsize
      | some x =>
        obtain ⟨row, p⟩ := x
        dsimp only
        split
        · rename_i hrow
          obtain ⟨-, hp, hf⟩ := hres row p rfl
          refine wp_offer hc h₂ hrow.1 (hl ▸ hrow.2) ?_ hf trivial
          rw [hp, ← h₁.view]
          rfl
        · exact wp_scan hc h₂ env req flags maxWsize
  change Exec.Wp _ _ (fun (res : ℕ × Option (ℕ × Place)) db' => res.1 = hd ∧
    Offer V cfg size hd req ((db.view V).reserve key flags hd) db' res.2) _
  split
  · rename_i hr
    rw [Exec.wp_bind, Exec.wp_modify]
    refine search _ _ (h.modify ?_ rfl ⟨rfl, rfl, rfl⟩ h.opened le_rfl) rfl
    unfold DbView.reserve
    have hr' : has flags REVERT = true ∧ key ∉ (db.view V).chgKeys := hr
    rw [if_pos hr', if_pos hr']
    rfl
  · rename_i hr
    refine search _ _ ?_ rfl
    have : (db.view V).reserve key flags hd = db.view V := by
      unfold DbView.reserve
      have hr' : ¬ (has flags REVERT = true ∧ key ∉ (db.view V).chgKeys) := hr
      rw [if_neg hr', if_neg hr']
    rw [this]
    exact h

/-! ## Space -/

/-- The file for a new extent, and its end: one there is, or the next one. -/
theorem pickFile_spec {io : JIo} (hd : ∀ f, io.fileTable.get? f = none ↔ io.fileTable.size ≤ f)
    (req step : ℕ) : ∀ (fuel fileId : ℕ), fileId ≤ io.fileTable.size →
    (pickFile cfg io req step fuel fileId).1 ≤ io.fileTable.size ∧
      (pickFile cfg io req step fuel fileId).2 = io.fileEnd (pickFile cfg io req step fuel fileId).1 := by
  have hnew : io.fileEnd io.fileTable.size = 0 := by
    unfold JIo.fileEnd
    rw [(hd _).2 le_rfl]
    rfl
  intro fuel
  induction fuel with
  | zero => intro fileId _; exact ⟨le_rfl, hnew.symm⟩
  | succ fuel ih =>
    intro fileId hf
    rw [pickFile]
    split
    · exact ⟨hf, rfl⟩
    · split
      · exact ⟨le_rfl, hnew.symm⟩
      · exact ih _ (by omega)

/-- **Opening a VAL file with room**: one that exists, or a new and empty one. -/
theorem wp_getValFp_new (h : Shows V cfg size v db) (hv : v.Volumes) (hs : size = v.fileTable.size)
    (req : ℕ) {E : Err → JDb → Prop} :
    Exec.Wp (getValFp cfg none req) db (fun res db' => res.1 ≤ size ∧ res.2 = v.fileEnd res.1 ∧
      Shows V cfg (max size (res.1 + 1))
        { v with vals := Function.update v.vals res.1 (some (v.val res.1)) } db') E := by
  have hview := h.view
  subst hview
  subst hs
  have hpick := @pickFile_spec cfg db.io hv.dense req (max 1 (db.io.fileTable.size / 4))
    (db.io.fileTable.size + 1) (db.io.fileTable.size - 1) (Nat.sub_le _ _)
  unfold getValFp
  rw [Exec.wp_bind, Exec.wp_get]
  dsimp only
  set f := (pickFile cfg db.io req (max 1 (db.io.fileTable.size / 4)) (db.io.fileTable.size + 1)
    (db.io.fileTable.size - 1)).1 with hf
  set off := (pickFile cfg db.io req (max 1 (db.io.fileTable.size / 4)) (db.io.fileTable.size + 1)
    (db.io.fileTable.size - 1)).2
  split
  · rename_i hmem
    rw [Exec.wp_ret]
    refine ⟨hpick.1, hpick.2, h.modify ?_ rfl ⟨rfl, rfl, rfl⟩ (fun x hx => ?_) le_rfl⟩
    · exact congrArg (fun w => { db.view V with vals := w }) (update_val hv (h.opened f hmem)).symm
    · exact lt_of_lt_of_le (h.opened x hx) (le_max_left _ _)
  · rw [Exec.wp_bind]
    refine Exec.wp_mono (wp_closeOldest (E := fun _ _ => False) V _ db hv h.opened) ?_ fun _ _ h' => h'.elim
    rintro _ db₁ hc
    rw [Exec.wp_bind, Exec.wp_modifyGet, Exec.wp_ret,
      openVal_eq (by rw [hc.rest]; exact hv.sizes f) (by rw [hc.rest]; exact hpick.2)]
    refine ⟨hpick.1, hpick.2, h.modify ?_ rfl ⟨?_, ?_, ?_⟩ (fun x hx => ?_) le_rfl⟩
    · rw [hc.rest]; rfl
    · rw [hc.rest]
    · rw [hc.rest]
    · rw [hc.rest]
    · rcases List.mem_append.1 hx with hx | hx
      · exact lt_of_lt_of_le (h.opened x (hc.opened x hx)) (le_max_left _ _)
      · rw [List.mem_singleton.1 hx]; exact lt_of_lt_of_le (Nat.lt_succ_self f) (le_max_right _ _)

theorem wp_writeVal (h : Shows V cfg size v db) (f off : ℕ) (data : Bytes) {Q : Unit → JDb → Prop}
    {E : Err → JDb → Prop} (hQ : ∀ db', Shows V cfg size (v.write f off data) db' → Q () db') :
    Exec.Wp (writeVal f off data) db Q E := by
  unfold writeVal modifyIo
  rw [Exec.wp_modify]
  exact hQ _ (h.modify (by rw [← h.view]; rfl) rfl ⟨rfl, rfl, rfl⟩ h.opened le_rfl)

theorem wp_newLine (h : Shows V cfg size v db) {E : Err → JDb → Prop} :
    Exec.Wp newLine db (fun d db' => d = v.cnt.nLines ∧ Shows V cfg size v.line db') E := by
  unfold newLine modifyIo
  rw [Exec.wp_bind, Exec.wp_get, Exec.wp_bind, Exec.wp_modify, Exec.wp_ret]
  have hview := h.view
  subst hview
  exact ⟨rfl, h.modify rfl rfl ⟨rfl, rfl, rfl⟩ h.opened (max_le_max le_rfl (Nat.le_succ _))⟩

/-- **Taking a row and space for an encoded value.** -/
theorem wp_takeSpace (hc : cfg.Keeps V) (h : Shows V cfg size v db) (hg : v.Good V)
    (hs : size = v.fileTable.size) (env : Env) (key : Key) {enc : Enc}
    (henc : ∀ data, enc = .value data → data ≠ []) (flags : ℕ) (maxWsize : Option ℕ) :
    Exec.Wp (takeSpace cfg env key enc flags maxWsize) db
      (fun sp db' => ∃ v₁, Takes V cfg key flags v enc sp v₁ ∧
        Shows V cfg (v₁.note enc sp).fileTable.size v₁ db') (fun e _ => e ≠ .key) := by
  obtain ⟨hn, hl⟩ := DbView.le_deadHead cfg flags hg.keyed.le
  have hgr : (v.reserve key flags (v.deadHead cfg flags)).Good V :=
    ⟨⟨hg.keyed.le, hg.keyed.table⟩, hg.extents, hg.volumes.congr rfl rfl⟩
  cases enc with
  | head t x s =>
    unfold takeSpace
    rw [Exec.wp_bind]
    refine Exec.wp_mono (wp_getDeadRow hc h env key 0 flags maxWsize) ?_ fun _ _ h' => h'
    rintro ⟨hd, dead⟩ db₁ ⟨rfl, hoff⟩
    cases dead with
    | none =>
      dsimp only
      rw [Exec.wp_bind]
      refine Exec.wp_mono (wp_newLine (E := fun _ _ => False) hoff) ?_ fun _ _ h' => h'.elim
      rintro d db₂ ⟨rfl, h₂⟩
      exact ⟨_, .headNew t x s, hs ▸ h₂⟩
    | some dp =>
      obtain ⟨d, p⟩ := dp
      obtain ⟨v₁, hr, h₁⟩ := hoff
      obtain ⟨-, -, -, hf, -⟩ := hr.extents hgr.extents
      refine ⟨v₁, .headDead hr, ?_⟩
      have : ((v₁.note (.head t x s) ⟨v.deadHead cfg flags, d, t, x, 0, s⟩).fileTable).size = size := by
        rw [hs]; exact congrArg OrdDict.size hf
      rw [this]
      exact h₁
  | value data =>
    have hdata := henc data rfl
    have hpos : 0 < data.length := List.length_pos_of_ne_nil hdata
    unfold takeSpace
    rw [Exec.wp_bind]
    refine Exec.wp_mono (wp_getDeadRow hc h env key data.length flags maxWsize) ?_ fun _ _ h' => h'
    rintro ⟨hd, dead⟩ db₁ ⟨rfl, hoff⟩
    cases dead with
    | none =>
      dsimp only
      rw [Exec.wp_bind]
      refine Exec.wp_mono (wp_newLine (E := fun _ _ => False) hoff) ?_ fun _ _ h' => h'.elim
      rintro d db₂ ⟨rfl, h₂⟩
      rw [Exec.wp_bind]
      refine Exec.wp_mono (wp_getValFp_new (E := fun _ _ => False) h₂ (hgr.volumes.congr rfl rfl) hs _) ?_
        fun _ _ h' => h'.elim
      rintro ⟨f, off⟩ db₃ ⟨hf, hoff, h₃⟩
      rw [Exec.wp_bind]
      refine wp_writeVal h₃ f off _ fun db₄ h₄ => ?_
      rw [Exec.wp_ret]
      have hpad : data.length + (padSize cfg data.length - data.length) = padSize cfg data.length :=
        Nat.add_sub_cancel' (le_max_left _ _)
      have hoff : off = v.fileEnd f := hoff
      subst hoff
      have ht := @Takes.valueNew _ V cfg key flags v _ _ (padSize cfg data.length - data.length) hdata (hs ▸ hf)
      rw [hpad] at ht
      refine ⟨_, ht, h₄.modify ?_ rfl ⟨rfl, rfl, rfl⟩ (fun x hx => ?_) le_rfl⟩
      · rw [h₄.view]
        simp [DbView.write, DbView.val, DbView.line, DbView.reserve]
      · have hx := h₄.opened x hx
        have hsize : ∀ e, f < (v.fileTable.set f e).size ∧ v.fileTable.size ≤ (v.fileTable.set f e).size := by
          intro e
          have hdf := hg.volumes.dense f
          rw [OrdDict.size_set]
          split
          · rename_i hg'; have := hdf.1 hg'; dsimp only at hf; omega
          · rename_i hg'; have := mt hdf.2 hg'; omega
        have := hsize (max (v.fileEnd f) (v.fileEnd f + padSize cfg data.length))
        refine lt_of_lt_of_le hx ?_
        change max size (f + 1) ≤ (v.fileTable.set f _).size
        rw [hs]
        exact max_le this.2 this.1
    | some dp =>
      obtain ⟨d, f, off, rowSize⟩ := dp
      obtain ⟨v₁, hr, h₁⟩ := hoff
      have hg₁ := hr.good hgr hn hl
      obtain ⟨hx₁, hp, hfits, hft, -, hd⟩ := hr.extents hgr.extents
      have hle : data.length ≤ rowSize := hfits.1
      have hin := hx₁.inside d hd (by rw [hp]; dsimp only; omega)
      rw [hp] at hin
      have hin : off + rowSize ≤ v₁.fileEnd f := hin
      have hend : f < v₁.fileTable.size := hg₁.volumes.lt_size (by omega)
      have hsize : size = v₁.fileTable.size := by rw [hs]; exact (congrArg OrdDict.size hft).symm
      have hgood := h₁.good hg₁ hsize
      dsimp only
      rw [Exec.wp_bind]
      refine Exec.wp_mono (wp_getValFp_keeps hgood (h₁.view ▸ hend) cfg.minValueSize) ?_ fun _ _ h' => h'.elim
      intro _ db₂ hq
      have h₂ : Shows V cfg size v₁ db₂ := by
        have := hq.good.shows
        rwa [hq.view, h₁.view, ← hsize] at this
      rw [Exec.wp_bind]
      refine wp_writeVal h₂ f off _ fun db₄ h₄ => ?_
      rw [Exec.wp_ret]
      refine ⟨_, .valueDead hdata hr, ?_⟩
      have : ((v₁.write f off data).note (.value data)
          ⟨v.deadHead cfg flags, d, f, off, rowSize, data.length⟩).fileTable = v₁.fileTable := by
        change v₁.fileTable.set f (max (v₁.fileEnd f) (off + rowSize)) = _
        rw [max_eq_left hin, OrdDict.set_of_get? (hg₁.volumes.get?_eq hend)]
      rw [this, ← hsize]
      exact h₄

end JDb

end OmniJsonDb
