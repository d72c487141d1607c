import OmniJsonDb.Proof.Space

/-!
# What the writing calls do

Each writing call of a handle as one of the updates of a view.

* `wp_park`, `wp_add`: the two ways a value is stored outside the row it had.
* `wp_fWriteKeyFlags`, `wp_writeOver`, `wp_fWrite`, `wp_fAppend`.
-/

namespace OmniJsonDb

namespace JDb

variable {γ : Type} {V : RowView γ} {cfg : Config} {db db' : JDb} {v v' : DbView γ} {size : ℕ}

open DbView (Takes)

theorem wp_bumpSync (h : Shows V cfg size v db) {E : Err → JDb → Prop} :
    Exec.Wp bumpSync db (fun _ db' => Shows V cfg size v.sync db') E := by
  unfold bumpSync modifyIo
  rw [Exec.wp_modify]
  exact h.modify (by rw [← h.view]; rfl) rfl ⟨rfl, rfl, rfl⟩ h.opened le_rfl

theorem wp_noteExtent (h : Shows V cfg size v db) (enc : Enc) (sp : Space) {E : Err → JDb → Prop} :
    Exec.Wp (noteExtent enc sp) db (fun _ db' => Shows V cfg size (v.note enc sp) db') E := by
  cases enc with
  | head => exact h
  | value data =>
    unfold noteExtent modifyIo
    rw [Exec.wp_modify]
    exact h.modify (by rw [← h.view]; rfl) rfl ⟨rfl, rfl, rfl⟩ h.opened le_rfl

theorem wp_tableSet (h : Shows V cfg size v db) (key : Key) (row f : ℕ) {E : Err → JDb → Prop} :
    Exec.Wp (modifyIo fun io => io.tableSet key row f) db
      (fun _ db' => Shows V cfg size (v.setTable key row f) db') E := by
  unfold modifyIo
  rw [Exec.wp_modify]
  exact h.modify (by rw [← h.view]; rfl) rfl ⟨rfl, rfl, rfl⟩ h.opened le_rfl

/-! ## Storing a value in another row -/

/-- **Parking**: the old version goes to the head of the dead region. -/
theorem wp_park (hc : cfg.Keeps V) (h : db.Good V cfg) (env : Env) {key : Key} {row : ℕ} {old : Row}
    (hrow : (db.view V).At key row) (hold : V.proj old = (db.view V).rows row) {enc : Enc}
    (henc : ∀ data, enc = .value data → data ≠ []) (m : Meta) (flags : ℕ) (maxWsize : Option ℕ) :
    Exec.Wp (park cfg env key row old enc m flags maxWsize) db
      (fun _ db' => db'.Good V cfg ∧ ∃ v₁ sp, Takes V cfg key flags (db.view V) enc sp v₁ ∧
        db'.view V = v₁.parkAt V key row old enc m sp) (fun e _ => e ≠ .key) := by
  unfold park
  rw [Exec.wp_bind]
  refine Exec.wp_mono (wp_takeSpace hc h.shows h.index rfl env key henc flags maxWsize) ?_ fun _ _ h' => h'
  rintro sp db₁ ⟨v₁, ht, h₁⟩
  extract_lets jp
  refine wp_copyUp h₁ sp.head sp.dead fun db₂ h₂ => ?_
  simp only [jp]
  rw [Exec.wp_bind]
  refine Exec.wp_mono (wp_writeKey hc h₂ _ _) ?_ fun _ _ h' => h'
  rintro _ db₃ ⟨h₃, -⟩
  rw [Exec.wp_bind]
  refine Exec.wp_mono (wp_writeKey hc h₃ _ _) ?_ fun _ _ h' => h'
  rintro _ db₄ ⟨h₄, -⟩
  rw [Exec.wp_bind]
  refine Exec.wp_mono (wp_noteExtent (E := fun _ _ => False) h₄ enc sp) ?_ fun _ _ h' => h'.elim
  rintro _ db₅ h₅
  refine Exec.wp_mono (wp_bumpSync (E := fun _ _ => False) h₅) ?_ fun _ _ h' => h'.elim
  rintro _ db₆ h₆
  have hv : db₆.view V = v₁.parkAt V key row old enc m sp := h₆.view
  refine ⟨h₆.good ?_ rfl, v₁, sp, ht, hv⟩
  exact (DbView.Effect.park hrow hold ht).good h.index

/-- **Adding**: a new record behind the live ones. -/
theorem wp_add (hc : cfg.Keeps V) (h : db.Good V cfg) (env : Env) {key : Key} (val : PyVal)
    (hnew : (db.view V).rowOf key = none) {enc : Enc}
    (henc : ∀ data, enc = .value data → data ≠ []) (m : Meta) (flags : ℕ) (maxWsize : Option ℕ) :
    Exec.Wp (add cfg env key val enc m flags maxWsize) db
      (fun _ db' => db'.Good V cfg ∧ ∃ v₁ sp, Takes V cfg key flags (db.view V) enc sp v₁ ∧
        db'.view V = v₁.addAt V key enc m flags sp) (fun e _ => e ≠ .key) := by
  unfold add
  rw [Exec.wp_bind]
  refine Exec.wp_mono (wp_takeSpace hc h.shows h.index rfl env key henc flags maxWsize) ?_ fun _ _ h' => h'
  rintro sp db₁ ⟨v₁, ht, h₁⟩
  rw [Exec.wp_bind, Exec.wp_get]
  extract_lets n last write room
  have hn : n = v₁.cnt.nRecords := by simp only [n]; rw [← h₁.view]; rfl
  refine wp_copyUp h₁ sp.head sp.dead fun db₂ h₂ => ?_
  simp only [room]
  refine wp_copyUp h₂ n sp.head fun db₃ h₃ => ?_
  simp only [write]
  rw [Exec.wp_bind]
  refine Exec.wp_mono (wp_writeKey hc h₃ _ _) ?_ fun _ _ h' => h'
  rintro _ db₄ ⟨h₄, -⟩
  rw [Exec.wp_bind]
  refine Exec.wp_mono (wp_noteExtent (E := fun _ _ => False) h₄ enc sp) ?_ fun _ _ h' => h'.elim
  rintro _ db₅ h₅
  have done : ∀ db', Shows V cfg (v₁.note enc sp).fileTable.size (((((v₁.copyUp sp.head sp.dead).copyUp
      n sp.head).put n (v₁.new V (sp.args key m))).note enc sp)) db' →
      Exec.Wp (last ()) db' (fun _ db' => db'.Good V cfg ∧ ∃ v₁ sp,
        Takes V cfg key flags (db.view V) enc sp v₁ ∧ db'.view V = v₁.addAt V key enc m flags sp)
        (fun e _ => e ≠ .key) := by
    intro db' h'
    simp only [last]
    unfold modifyIo
    rw [Exec.wp_bind, Exec.wp_modify, Exec.wp_modify]
    have h₆ := h'.update _ (v₁.addAt V key enc m flags sp)
        { db' with
        safeLine := db'.safeLine + (if has flags REVERT then 0 else 1)
        io := { db'.io with cnt := { db'.io.cnt with
          nRecords := db'.io.cnt.nRecords + 1
          syncId := bump db'.io.cnt.syncId } }.tableSet key n m.flags } ?_ ?_ ⟨rfl, rfl, rfl⟩ h'.opened
      (max_le_max (Nat.le_succ _) le_rfl)
    · exact ⟨h₆.good ((DbView.Effect.add hnew ht).good h.index) rfl, v₁, sp, ht, h₆.view⟩
    · have hview : ∀ w : DbView γ, db'.view V = w → ({ db' with
          safeLine := db'.safeLine + (if has flags REVERT then 0 else 1)
          io := { db'.io with cnt := { db'.io.cnt with
            nRecords := db'.io.cnt.nRecords + 1
            syncId := bump db'.io.cnt.syncId } }.tableSet key n m.flags } : JDb).view V =
          { w with
            cnt := { w.cnt with nRecords := w.cnt.nRecords + 1, syncId := bump w.cnt.syncId }
            safeLine := w.safeLine + (if has flags REVERT then 0 else 1)
            keyTable := w.keyTable.set key (n, m.flags &&& KEY_FLAG_MASK) } := by rintro w rfl; rfl
      rw [hview _ h'.view, hn]
      rfl
    · unfold DbView.addAt
      rw [← hn]
      rfl
  split
  · rw [Exec.wp_bind]
    unfold updateCache
    rw [Exec.wp_modify]
    exact done _ (h₅.modify h₅.view rfl ⟨rfl, rfl, rfl⟩ h₅.opened le_rfl)
  · exact done _ h₅

/-- A key the table has is at a live row. -/
theorem Good.at_ (h : db.Good V cfg) {key : Key} {row f : ℕ}
    (hget : db.io.keyTable.get? key = some (row, f)) :
    (db.view V).At key row ∧ ¬ db.io.cnt.nRecords ≤ row := by
  have hrow := @DbView.Keyed.at_ _ _ _ key h.index.keyed row
    (by change Option.map _ (db.io.keyTable.get? key) = _; rw [hget]; rfl)
  exact ⟨hrow, Nat.not_le_of_lt hrow.2⟩

theorem rowOf_none {key : Key} (hget : db.io.keyTable.get? key = none) : (db.view V).rowOf key = none := by
  change Option.map _ (db.io.keyTable.get? key) = _
  rw [hget]; rfl

theorem Shows.of_quiet {db₁ : JDb} (hq : Quiet V cfg db db₁) :
    Shows V cfg (db.view V).fileTable.size (db.view V) db₁ := hq.view ▸ hq.good.shows

/-! ## Flags -/

/-- The row `f_write_key_flags` writes. -/
def flagArgs (key : Key) (newFlags : FlagArg) (ttl : Option TtlArg) (mdays : Option ℕ) (old : Row) :
    KeyArgs :=
  { old.args with
    key := key
    mdays := some (mdays.getD old.mdays)
    ttl := givenTtl ttl old
    flags := keptFlags newFlags old (givenTtl ttl old) }

/-- What `f_write_key_flags` does to the index: nothing when there is nothing to do. -/
inductive Reflags (V : RowView γ) (key : Key) (newFlags : FlagArg) (ttl : Option TtlArg)
    (mdays : Option ℕ) (v : DbView γ) : Bool → DbView γ → Prop
  | missing : v.rowOf key = none → Reflags V key newFlags ttl mdays v false v
  | same {row : ℕ} {old : Row} : v.At key row → V.proj old = v.rows row →
      old.flags = keptFlags newFlags old (givenTtl ttl old) → (givenTtl ttl old).len = old.ttl.len →
      mdays.getD old.mdays = old.mdays → Reflags V key newFlags ttl mdays v false v
  | written {row : ℕ} {old : Row} : v.At key row → V.proj old = v.rows row →
      Reflags V key newFlags ttl mdays v true
        ((v.put row (v.new V (flagArgs key newFlags ttl mdays old))).sync.setTable key row
          (keptFlags newFlags old (givenTtl ttl old)))

variable (cfg) in
/-- Flags and lifetimes are written through a rewriting of the row. -/
theorem Reflags.effects {key : Key} {newFlags : FlagArg} {ttl : Option TtlArg} {mdays : Option ℕ} {b : Bool}
    (hr : Reflags V key newFlags ttl mdays v b v') (flags : ℕ) : DbView.Effects V cfg key flags v v' := by
  cases hr with
  | missing => exact .refl
  | same => exact .refl
  | @written row old hrow hold =>
    have hsame : DbView.SameValue (v.slot V row) (flagArgs key newFlags ttl mdays old) := by
      rw [DbView.slot_eq hold]; exact ⟨rfl, rfl, rfl, rfl⟩
    refine (Relation.ReflTransGen.single (.rewrite hrow rfl (hsame.restates ?_) (.inl hsame))).tail (.mark hrow)
    rw [DbView.slot_eq hold]
    rintro _ ⟨⟩
    rfl

/-- **`f_write_key_flags`** rewrites one row and the table's flags of its key. -/
theorem wp_fWriteKeyFlags (hc : cfg.Keeps V) (h : db.Good V cfg) (key : Key) (newFlags : FlagArg)
    (ttl : Option TtlArg) (mdays : Option ℕ) :
    Exec.Wp (fWriteKeyFlags cfg key newFlags ttl mdays) db
      (fun b db' => db'.Good V cfg ∧ Reflags V key newFlags ttl mdays (db.view V) b (db'.view V))
      (fun _ _ => True) := by
  unfold fWriteKeyFlags
  rw [Exec.wp_bind, Exec.wp_get]
  split
  · rename_i hget
    exact ⟨h, .missing (rowOf_none hget)⟩
  · rename_i row f hget
    obtain ⟨hrow, hlt⟩ := h.at_ hget
    rw [if_neg hlt, Exec.wp_bind]
    refine Exec.wp_mono (wp_readKey h row) ?_ fun _ _ _ => trivial
    rintro old db₁ ⟨⟨hold, -⟩, hq⟩
    have hkey : old.key = key := by
      rw [← h.index.keyed.key_at hrow, DbView.slot_eq hold]
    extract_lets newTtl newMdays kf src jp
    split
    · rw [Exec.wp_bind]
      refine Exec.wp_mono (wp_writeKey hc (.of_quiet hq) row _) ?_ fun _ _ _ => trivial
      rintro _ db₂ ⟨h₂, -⟩
      rw [Exec.wp_bind]
      refine Exec.wp_mono (wp_bumpSync (E := fun _ _ => False) h₂) ?_ fun _ _ h' => h'.elim
      rintro _ db₃ h₃
      have hg : ∀ v', Reflags V key newFlags ttl mdays (db.view V) true v' → v'.Good V := by
        intro v' hr
        cases hr with
        | @written row' old' hrow' hold' =>
          exact ((Reflags.written hrow' hold').effects cfg 0).good h.index
      have done : ∀ db', Shows V cfg (db.view V).fileTable.size
          ((db.view V).put row ((db.view V).new V (flagArgs key newFlags ttl mdays old))).sync db' →
          Exec.Wp (do
            modifyIo fun io => io.tableSet key row kf
            pure true : DbM Bool) db'
            (fun b db' => db'.Good V cfg ∧ Reflags V key newFlags ttl mdays (db.view V) b (db'.view V))
            (fun _ _ => True) := by
        intro db' h'
        rw [Exec.wp_bind]
        refine Exec.wp_mono (wp_tableSet (E := fun _ _ => False) h' key row kf) ?_ fun _ _ h' => h'.elim
        rintro _ db₅ h₅
        rw [Exec.wp_ret]
        have hr : Reflags V key newFlags ttl mdays (db.view V) true (db₅.view V) :=
          h₅.view ▸ .written hrow hold
        exact ⟨h₅.good (h₅.view ▸ hg _ hr) rfl, hr⟩
      split
      · rw [Exec.wp_bind]
        unfold cachePop
        rw [Exec.wp_modify]
        exact done _ (h₃.modify h₃.view rfl ⟨rfl, rfl, rfl⟩ h₃.opened le_rfl)
      · exact done _ h₃
    · rename_i hsame
      rw [Exec.wp_ret]
      rw [hq.view]
      refine ⟨hq.good, .same hrow hold ?_ ?_ ?_⟩
      all_goals
        by_contra hne
        refine hsame ⟨hkey, ?_⟩
      exacts [.inl hne, .inr (.inl hne), .inr (.inr hne)]

end JDb

end OmniJsonDb
