import OmniJsonDb.Proof.Extents

/-!
# What reading leaves alone

Reading a row, opening a VAL file that exists, decoding a value, following a link: none of
them changes the index a row view shows, whether it returns or raises.

* `wp_readKey`: the row is the one the index has.
* `wp_rowValue`: the value is the one the row names.
* `reads_decodeValue`, `wp_fLinkStep`.
-/

namespace OmniJsonDb

namespace JDb

variable {γ : Type} {V : RowView γ} {cfg : Config} {db db' db₁ : JDb} {α β : Type}

/-- The index is the same, and the handle is still good. -/
structure Quiet (V : RowView γ) (cfg : Config) (db db' : JDb) : Prop where
  view : db'.view V = db.view V
  good : db'.Good V cfg

theorem Quiet.refl (h : db.Good V cfg) : Quiet V cfg db db := ⟨rfl, h⟩

theorem Quiet.trans (h : Quiet V cfg db db₁) (h' : Quiet V cfg db₁ db') : Quiet V cfg db db' :=
  ⟨h'.view.trans h.view, h'.good⟩

/-- A program that leaves the index alone, also when it raises. -/
def Reads (V : RowView γ) (cfg : Config) (x : DbM α) (db : JDb) : Prop :=
  Exec.Wp x db (fun _ db' => Quiet V cfg db db') (fun _ db' => Quiet V cfg db db')

theorem Reads.bind {x : DbM α} {f : α → DbM β} (hx : Reads V cfg x db)
    (hf : ∀ a db', Quiet V cfg db db' → Reads V cfg (f a) db') : Reads V cfg (x >>= f) db := by
  unfold Reads at *
  rw [Exec.wp_bind]
  refine Exec.wp_mono hx (fun a db' h => ?_) fun _ _ h => h
  exact Exec.wp_mono (hf a db' h) (fun _ _ h' => h.trans h') fun _ _ h' => h.trans h'

theorem Reads.pure (h : db.Good V cfg) (a : α) : Reads V cfg (Pure.pure a : DbM α) db := .refl h

theorem Reads.raise (h : db.Good V cfg) (e : Err) : Reads V cfg (Exec.raise e : DbM α) db := .refl h

theorem Reads.get (h : db.Good V cfg) : Reads V cfg (Exec.get : DbM JDb) db := .refl h

/-- A change that no row view shows. -/
theorem Good.frame (h : db.Good V cfg) (hv : db'.view V = db.view V)
    (hk : db'.io.keyRows = db.io.keyRows ∧ db'.io.deadRows = db.io.deadRows ∧
      db'.io.indexSize = db.io.indexSize)
    (ho : ∀ x ∈ db'.fpDict, x < db.io.fileTable.size) : db'.Good V cfg where
  ok := h.ok.mono (congrArg DbView.toIoView hv) hk.2.2 (fun _ _ h' => .inl (hk.1 ▸ h')) fun _ _ h' =>
    .inl (hk.2.1 ▸ h')
  index := hv ▸ h.index
  opened x hx := by
    have := congrArg (fun v : DbView γ => v.fileTable.size) hv
    change x < db'.io.fileTable.size
    have this : db'.io.fileTable.size = db.io.fileTable.size := this
    rw [this]; exact ho x hx

theorem Reads.modify (h : db.Good V cfg) {f : JDb → JDb} (hv : (f db).view V = db.view V)
    (hk : (f db).io.keyRows = db.io.keyRows ∧ (f db).io.deadRows = db.io.deadRows ∧
      (f db).io.indexSize = db.io.indexSize)
    (ho : (f db).fpDict = db.fpDict) : Reads V cfg (Exec.modify f) db :=
  ⟨hv, h.frame hv hk (by rw [ho]; exact h.opened)⟩

theorem reads_cachePop (h : db.Good V cfg) (key : Key) : Reads V cfg (cachePop key) db :=
  .modify h rfl ⟨rfl, rfl, rfl⟩ rfl

theorem reads_cacheTouch (h : db.Good V cfg) (key : Key) : Reads V cfg (cacheTouch key) db :=
  .modify h rfl ⟨rfl, rfl, rfl⟩ rfl

theorem reads_updateCache (h : db.Good V cfg) (key : Key) (val : PyVal) (kf : ℕ) :
    Reads V cfg (updateCache cfg key val kf) db :=
  .modify h rfl ⟨rfl, rfl, rfl⟩ rfl

theorem reads_setGroup (h : db.Good V cfg) (key : Key) (val : PyVal) : Reads V cfg (setGroup key val) db := by
  unfold setGroup
  split
  exacts [.modify h rfl ⟨rfl, rfl, rfl⟩ rfl, .pure h ()]

/-! ## Rows -/

/-- **Reading a row** on behalf of the handle. -/
theorem wp_readKey (h : db.Good V cfg) (r : ℕ) :
    Exec.Wp (onIo (JIo.readKey r)) db
      (fun row db' => (V.proj row = (db.view V).rows r ∧ r < (db.view V).cnt.nLines) ∧ Quiet V cfg db db')
      (fun e db' => e = .value ∧ (db.view V).cnt.nLines ≤ r ∧ Quiet V cfg db db') := by
  unfold onIo
  rw [Exec.wp_zoom]
  have hq : ∀ io', JIo.SameFile db.io io' → JIo.Ok V cfg io' →
      Quiet V cfg db { db with io := io' } := by
    intro io' hs hok
    have hv : ({ db with io := io' } : JDb).view V = db.view V := by
      unfold view; rw [show ({ db with io := io' } : JDb).io.view V = db.io.view V from hs.view]
    refine ⟨hv, hok, hv ▸ h.index, fun x hx => ?_⟩
    have := h.opened x hx
    rw [hs.rest]; exact this
  refine Exec.wp_mono (JIo.wp_readKey h.ok r) ?_ ?_
  · rintro row io' ⟨hr, hlt, hs, hok⟩
    have hle : db.io.cnt.nRecords ≤ db.io.cnt.nLines := h.index.keyed.le
    rw [max_eq_right hle] at hlt
    exact ⟨⟨hr, hlt⟩, hq io' hs hok⟩
  · rintro e io' ⟨he, hl, hs, hok⟩; exact ⟨he, hl, hq io' hs hok⟩

/-! ## VAL files -/

/-- The row names no extent, or one of a file there is. -/
def Known (V : RowView γ) (db : JDb) (r : Slot) : Prop :=
  0 < r.rowSize → r.fileId < (db.view V).fileTable.size

theorem Known.quiet {r : Slot} (h : Known V db r) (hq : Quiet V cfg db db') : Known V db' r := by
  unfold Known; rw [hq.view]; exact h

/-- The rows of the index name files there are. -/
theorem Good.known (h : db.Good V cfg) {r : ℕ} (hr : r < (db.view V).cnt.nLines) {row : Row}
    (hrow : V.proj row = (db.view V).rows r) : Known V db row.toSlot := by
  intro hpos
  have hs := DbView.slot_eq hrow
  have hin := h.index.extents.inside r hr (by
    change 0 < ((db.view V).slot V r).rowSize; rw [hs]; exact hpos)
  refine h.index.volumes.lt_size (f := row.fileId) (lt_of_lt_of_le ?_ (le_of_le_of_eq hin ?_))
  · change 0 < ((db.view V).slot V r).offset + ((db.view V).slot V r).rowSize
    rw [hs]; exact Nat.add_pos_right _ hpos
  · change (db.view V).fileEnd ((db.view V).slot V r).fileId = _
    rw [hs]

/-- Noting the size of a VAL file changes nothing. -/
theorem fileGrow_eq (h : (db.view V).Volumes) {f : ℕ} (hf : f < db.io.fileTable.size) :
    db.io.fileGrow f ((db.io.valSize? f).getD 0) = db.io := by
  have hget : db.io.fileTable.get? f = some (db.io.fileEnd f) := h.get?_eq hf
  have hsize : db.io.valSize? f = some (db.io.fileEnd f) := (h.sizes f).trans hget
  unfold JIo.fileGrow
  rw [hsize, Option.getD_some, max_self, OrdDict.set_of_get? hget]

/-- Some VAL files are closed. -/
structure Closed (db db' : JDb) : Prop where
  rest : db' = { db with fpDict := db'.fpDict, io := { db.io with maxVfiles := db'.io.maxVfiles } }
  opened : ∀ x ∈ db'.fpDict, x ∈ db.fpDict

theorem wp_closeOldest (V : RowView γ) (m : ℕ) {E : Err → JDb → Prop} : ∀ db : JDb, (db.view V).Volumes →
    (∀ f ∈ db.fpDict, f < db.io.fileTable.size) →
    Exec.Wp (closeOldest m) db (fun _ db' => Closed db db') E := by
  induction m with
  | zero => intro db _ _; exact ⟨rfl, fun _ h => h⟩
  | succ m ih =>
    intro db h ho
    unfold closeOldest
    rw [Exec.wp_bind, Exec.wp_get]
    split
    · exact ⟨rfl, fun _ h => h⟩
    · rename_i fileId rest hfp
      rw [Exec.wp_bind, Exec.wp_modify, fileGrow_eq h (ho fileId (by simp [hfp]))]
      refine Exec.wp_mono (ih { db with
          fpDict := rest
          io := { db.io with maxVfiles := max db.io.maxVfiles (fileId + 1) } } ⟨h.sizes, h.dense⟩
        fun x hx => ho x (by simp [hfp, hx])) (fun _ db' hc => ?_) fun _ _ h' => h'
      exact ⟨hc.rest, fun x hx => by rw [hfp]; exact List.mem_cons_of_mem _ (hc.opened x hx)⟩

theorem Closed.quiet (h : db.Good V cfg) (hc : Closed db db') : Quiet V cfg db db' := by
  have hv : db'.view V = db.view V := by rw [hc.rest]; rfl
  refine ⟨hv, ⟨?_, hv ▸ h.index, fun x hx => ?_⟩⟩
  · rw [hc.rest]
    exact h.ok.mono rfl rfl (fun _ _ h' => .inl h') fun _ _ h' => .inl h'
  · have := h.opened x (hc.opened x hx)
    rw [hc.rest]; exact this

/-- Opening a VAL file whose size is the one the file table has, or a new one. -/
theorem openVal_eq {f off : ℕ} (hsize : db.io.valSize? f = db.io.fileTable.get? f)
    (hoff : off = db.io.fileEnd f) : openVal f off db = (off, { db with
      fpDict := db.fpDict ++ [f]
      io := { db.io with files := { db.io.files with
        vals := Function.update db.io.files.vals f
          (some ((db.io.files.vals f).getD ByteFile.empty)) } } }) := by
  unfold openVal
  cases hget : db.io.fileTable.get? f with
  | none => simp only [hsize, hget]
  | some e =>
    have he : off = e := by rw [hoff]; unfold JIo.fileEnd; rw [hget]; rfl
    subst he
    simp only [hsize, hget, le_refl, if_true, OrdDict.set_of_get? hget]

/-- A VAL file that exists is there already. -/
theorem update_val (h : (db.view V).Volumes) {f : ℕ} (hf : f < db.io.fileTable.size) :
    Function.update db.io.files.vals f (some ((db.io.files.vals f).getD ByteFile.empty)) =
      db.io.files.vals := by
  have hsize := (h.sizes f).trans (h.get?_eq hf)
  change (db.io.files.vals f).map _ = _ at hsize
  cases hval : db.io.files.vals f with
  | none => rw [hval] at hsize; cases hsize
  | some b => exact Function.update_eq_self_iff.2 (by simp [hval])

/-- **Opening a VAL file there is** never fails. -/
theorem wp_getValFp_keeps (h : db.Good V cfg) {f : ℕ} (hf : f < (db.view V).fileTable.size) (req : ℕ) :
    Exec.Wp (getValFp cfg (some f) req) db (fun _ db' => Quiet V cfg db db') (fun _ _ => False) := by
  unfold getValFp
  rw [Exec.wp_bind, Exec.wp_get]
  dsimp only
  split
  · exact .refl h
  · rw [Exec.wp_bind]
    refine Exec.wp_mono (wp_closeOldest V _ db h.index.volumes h.opened) ?_ fun _ _ h' => h'
    rintro _ db₁ hclosed
    have hq := hclosed.quiet h
    rw [Exec.wp_bind, Exec.wp_modifyGet, Exec.wp_ret]
    have ht : db₁.io.fileTable = db.io.fileTable := congrArg (fun v : DbView γ => v.fileTable) hq.view
    have hf₁ : f < db₁.io.fileTable.size := by rw [ht]; exact hf
    rw [openVal_eq (hq.good.index.volumes.sizes f) (by unfold JIo.fileEnd; rw [ht]),
      update_val hq.good.index.volumes hf₁]
    refine hq.trans ⟨rfl, hq.good.frame rfl
      ⟨rfl, rfl, rfl⟩ fun x hx => ?_⟩
    rcases List.mem_append.1 hx with hx | hx
    · exact hq.good.opened x hx
    · rw [List.mem_singleton.1 hx]; exact hf₁

/-! ## Values -/

/-- The value a slot names. -/
def storedValue (c : ValCodec) (v : DbView γ) (s : Slot) : Except Err PyVal :=
  if s.rowSize = 0 then decodeRow c s.fileId s.offset s.valSize
  else c.readValue s.valSize ((v.val s.fileId).read s.offset (if 0 < s.valSize then s.valSize else s.rowSize))

/-- **Reading the value of a row** gives the one it names. -/
theorem wp_rowValue (h : db.Good V cfg) {r : Core} (hr : Known V db r.toSlot) :
    Exec.Wp (rowValue cfg r) db
      (fun x db' => Quiet V cfg db db' ∧ storedValue cfg.val (db.view V) r.toSlot = .ok x)
      (fun e db' => Quiet V cfg db db' ∧ storedValue cfg.val (db.view V) r.toSlot = .error e) := by
  unfold rowValue storedValue
  split
  · rw [Exec.wp_lift]
    exact ⟨fun _ hx => ⟨.refl h, hx⟩, fun _ hx => ⟨.refl h, hx⟩⟩
  · rename_i h0
    rw [Exec.wp_bind]
    refine Exec.wp_mono (wp_getValFp_keeps h (hr (by omega)) _) ?_ fun _ _ h' => h'.elim
    intro _ db₁ hq
    rw [Exec.wp_bind, Exec.wp_get, Exec.wp_lift]
    have hval : ∀ y, cfg.val.readValue r.valSize (valBytes db₁.io r.fileId r.offset
        (if 0 < r.valSize then r.valSize else r.rowSize)) = y →
        cfg.val.readValue r.valSize (((db.view V).val r.fileId).read r.offset
          (if 0 < r.valSize then r.valSize else r.rowSize)) = y := by
      intro y hy
      rw [← hq.view]
      exact hy
    exact ⟨fun x hx => ⟨hq, hval _ hx⟩, fun e he => ⟨hq, hval _ he⟩⟩

theorem reads_rowValue (h : db.Good V cfg) {r : Core} (hr : Known V db r.toSlot) :
    Reads V cfg (rowValue cfg r) db :=
  Exec.wp_mono (wp_rowValue h hr) (fun _ _ h' => h'.1) fun _ _ h' => h'.1

theorem reads_asTypeError {x : DbM α} (hx : Reads V cfg x db) : Reads V cfg (asTypeError x) db := by
  unfold Reads Exec.Wp Exec.run asTypeError at *
  rcases hy : x db with ⟨_ | _, db'⟩ <;> rw [hy] at hx <;> exact hx

theorem reads_rowGroup (h : db.Good V cfg) (key : Key) {r : Core} (hr : Known V db r.toSlot) :
    Reads V cfg (rowGroup cfg key r) db := by
  unfold rowGroup
  refine (Reads.get h).bind fun db₀ db₁ hq => ?_
  have hset : ∀ (g : PyVal) db₂, Quiet V cfg db₁ db₂ → Reads V cfg (do
      modifyIo fun io => { io with groups := io.groups.set key (some g) }
      pure g : DbM PyVal) db₂ := by
    intro g db₂ hq₂
    exact Reads.bind (.modify hq₂.good rfl ⟨rfl, rfl, rfl⟩ rfl) fun _ _ hq₃ => .pure hq₃.good g
  split
  · exact .pure hq.good _
  · split
    · exact Reads.bind (.pure hq.good _) fun g db₂ hq₂ => hset g db₂ hq₂
    · refine Reads.bind (reads_rowValue hq.good (hr.quiet hq)) fun path db₂ hq₂ => ?_
      split
      · exact hset _ db₂ hq₂
      · exact .raise hq₂.good _

/-- A step that is only taken sometimes. -/
theorem Reads.guard {p : Prop} [Decidable p] {x : DbM Unit} {f : Unit → DbM β} (h : db.Good V cfg)
    (hx : Reads V cfg x db) (hf : ∀ db', Quiet V cfg db db' → Reads V cfg (f ()) db') :
    Reads V cfg (if p then x >>= f else f ()) db := by
  split
  · exact hx.bind fun _ db' hq => hf db' hq
  · exact hf db (.refl h)

theorem reads_decodeHere (h : db.Good V cfg) (key : Key) {r : Core} (hr : Known V db r.toSlot) (u : Bool) :
    Reads V cfg (decodeHere cfg key r u) db := by
  unfold decodeHere
  refine Reads.guard h (reads_cachePop h key) fun db₁ hq₁ => ?_
  refine (Reads.get hq₁.good).bind fun db₀ db₂ hq₂ => ?_
  split
  · exact Reads.guard hq₂.good (reads_cacheTouch hq₂.good key) fun db₃ hq₃ => .pure hq₃.good _
  · refine reads_asTypeError ?_
    have hr₂ := (hr.quiet hq₁).quiet hq₂
    split
    · exact reads_rowGroup hq₂.good key hr₂
    · refine (reads_rowValue hq₂.good hr₂).bind fun v db₃ hq₃ => ?_
      exact Reads.guard hq₃.good (reads_updateCache hq₃.good key v _) fun db₄ hq₄ => .pure hq₄.good _

/-! ## Links -/

/-- The table has rows of the index only. -/
theorem Good.lt_lines (h : db.Good V cfg) {r : ℕ} (hr : r < (db.view V).cnt.nRecords) :
    r < (db.view V).cnt.nLines := lt_of_lt_of_le hr h.index.keyed.le

theorem reads_fGetGroup (h : db.Good V cfg) (key : Key) : Reads V cfg (fGetGroup cfg key) db := by
  unfold fGetGroup
  unfold Reads
  rw [Exec.wp_bind, Exec.wp_get]
  split
  · exact .refl h
  · split
    · rename_i row _ _
      split
      · rename_i hrow
        rw [Exec.wp_bind]
        refine Exec.wp_mono (wp_readKey h row) ?_ fun _ _ h' => h'.2.2
        rintro info db₁ ⟨⟨hinfo, -⟩, hq⟩
        have hknown := (h.known (h.lt_lines hrow) hinfo).quiet hq
        refine Exec.wp_mono (Q := fun _ db' => Quiet V cfg db₁ db') (E := fun _ db' => Quiet V cfg db₁ db')
          ?_ (fun _ _ h' => hq.trans h') fun _ _ h' => hq.trans h'
        split
        · exact (reads_decodeHere hq.good key hknown false).bind fun g db₂ hq₂ => .pure hq₂.good _
        · exact .refl hq.good
      · exact .refl h
    · exact .refl h

/-- The first component of a path. -/
def pathHead (path : Key) : Key :=
  match splitPath [] path with
  | some (name, _) => name
  | none => path

/-- The path is a string, and its first component a record that is no link. -/
def Leads (V : RowView γ) (path : PyVal) (v : DbView γ) : Prop :=
  ∃ t r info, path = .str t ∧ v.At (pathHead t) r ∧ V.proj info = v.rows r ∧ has info.flags LINK = false

/-- A path that ends at a record of this database is its key, and the row is known. -/
def LeafOk (V : RowView γ) (path : PyVal) (db' : JDb) : LinkStep → Prop
  | .value name row => path = .str name ∧ pathHead name = name ∧ Known V db' row.toSlot
  | _ => True

/-- **A link's path** is looked up without a change. -/
theorem wp_fLinkStep (h : db.Good V cfg) (target : PyVal) :
    Exec.Wp (fLinkStep cfg target) db
      (fun s db' => Leads V target (db.view V) ∧ LeafOk V target db' s ∧ Quiet V cfg db db')
      (fun _ db' => Quiet V cfg db db') := by
  unfold fLinkStep
  split
  · rename_i target
    rw [Exec.wp_bind, Exec.wp_get]
    split
    · exact .refl h
    · rename_i row f hget
      have hrow : (db.view V).At (pathHead target) row := by
        refine h.index.keyed.at_ ?_
        change Option.map Prod.fst (db.io.keyTable.get? (pathHead target)) = some row
        unfold pathHead
        cases hs : splitPath [] target <;> rw [hs] at hget <;> exact congrArg (Option.map Prod.fst) hget
      have hlive : row < db.io.cnt.nRecords := hrow.2
      rw [if_neg (Nat.not_le_of_lt hlive), Exec.wp_bind]
      refine Exec.wp_mono (wp_readKey h row) ?_ fun _ _ h' => h'.2.2
      rintro info db₁ ⟨⟨hinfo, -⟩, hq⟩
      have hknown := (h.known (h.lt_lines hlive) hinfo).quiet hq
      split
      · exact hq
      · rename_i hlink
        have hleads : Leads V (.str target) (db.view V) :=
          ⟨target, row, info, rfl, hrow, hinfo, Bool.eq_false_iff.2 hlink⟩
        split
        · rw [Exec.wp_bind]
          refine Exec.wp_mono (reads_fGetGroup hq.good _) ?_ fun _ _ h' => hq.trans h'
          intro g db₂ hq₂
          split
          · exact hq.trans hq₂
          · rw [Exec.wp_ret]
            refine ⟨hleads, ?_, hq.trans hq₂⟩
            split <;> trivial
        · split
          · exact hq
          · rename_i hend
            have hend : splitPath [] target = none := by simpa using hend
            rw [Exec.wp_ret]
            refine ⟨hleads, ?_, hq⟩
            unfold LeafOk pathHead
            simp only [hend, true_and]
            exact hknown
  · exact .refl h

theorem reads_fLinkRead (h : db.Good V cfg) (env : Env) (target : PyVal) :
    Reads V cfg (fLinkRead cfg env target) db := by
  have hs := wp_fLinkStep h target
  unfold Exec.Wp Exec.run at hs
  unfold Reads Exec.Wp Exec.run fLinkRead
  rcases hy : fLinkStep cfg target db with ⟨e | s, db'⟩ <;> rw [hy] at hs
  · cases e <;> exact hs
  · cases s with
    | value name row =>
      have := reads_decodeHere hs.2.2.good name hs.2.1.2.2 true
      unfold Reads Exec.Wp Exec.run at this
      simp only
      rcases hd : decodeHere cfg name row.toCore true db' with ⟨_ | _, db''⟩ <;> rw [hd] at this
      exacts [hs.2.2.trans this, hs.2.2.trans this]
    | group g => exact hs.2.2
    | descend g =>
      simp only
      rcases env.childRead with _ | _ <;> exact hs.2.2

/-- **Decoding a value** changes nothing of the index. -/
theorem reads_decodeValue (h : db.Good V cfg) (env : Env) (key : Key) {r : Core}
    (hr : Known V db r.toSlot) (u f : Bool) : Reads V cfg (decodeValue cfg env key r u f) db := by
  unfold decodeValue
  split
  · exact (reads_rowValue h hr).bind fun t db₁ hq => reads_fLinkRead hq.good env t
  · exact reads_decodeHere h key hr u

end JDb

end OmniJsonDb
