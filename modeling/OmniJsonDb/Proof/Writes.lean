import OmniJsonDb.Proof.Calls
import OmniJsonDb.Proof.Passive

/-!
# What `f_write` and `f_append` do

The two calls that store values, as updates of a view: which row is rewritten, parked or
added, with which flags and dates.

* `Overwrites`, `wp_writeOver`: a value over an existing one.
* `Rewrites`, `wp_rewrite`: a record that may be written, with its new dates and flags.
* `Writes`, `wp_fWrite`: the whole of `f_write`, also through a link.
* `Appends`, `wp_fAppend`.
* `Writes.effects`, `Appends.effects`: as steps of `Effect`.
-/

namespace OmniJsonDb

namespace JDb

variable {γ : Type} {V : RowView γ} {cfg : Config} {db db' : JDb} {v v' : DbView γ} {size : ℕ}

open DbView (Takes Effect Effects)

/-! ## Over a value -/

/-- The row holds the encoded value already, as far as `f_write` compares them. -/
def holds (cfg : Config) (v : DbView γ) (old : Row) : Enc → Bool
  | .head t x s => decide (old.rowSize = 0 ∧ t = old.fileId ∧ x = old.offset ∧ s = old.valSize)
  | .value data => decide (0 < old.rowSize ∧ data.length ≤ old.rowSize ∧ old.valSize = data.length) &&
      sameBytes cfg ((v.val old.fileId).read old.offset data.length) data

/-- What `f_write` does when the value is there already: the flags, the lifetime or the date
may be new. -/
def Renews (V : RowView γ) (key : Key) (old : Row) (m : Meta) (mdays : ℕ) (v : DbView γ) (b : Bool)
    (v' : DbView γ) : Prop :=
  if m.flags ≠ old.flags ∨ m.ttl.len ≠ old.ttl.len ∨ (m.ttl.pos ∧ mdays ≠ old.mdays) then
    Reflags V key (.int m.flags) (some (ttlArg m.ttl)) (some mdays) v b v'
  else b = false ∧ v' = v

/-- A value is stored in place of the one of row `row`: over it, or the old one is parked. -/
inductive Stores (V : RowView γ) (cfg : Config) (key : Key) (row : ℕ) (old : Row) (m : Meta)
    (flags : ℕ) (v : DbView γ) : Enc → DbView γ → Prop
  | head (t x s : ℕ) : old.rowSize = 0 → v.MayOverwrite key flags m.flags →
      Stores V cfg key row old m flags v (.head t x s)
        (v.put row (v.new V (Space.args ⟨0, 0, t, x, 0, s⟩ key m))).sync
  | value {data : Bytes} : 0 < old.rowSize → data.length ≤ old.rowSize →
      v.MayOverwrite key flags m.flags →
      Stores V cfg key row old m flags v (.value data)
        ((v.write old.fileId old.offset data).put row (v.new V
          (Space.args ⟨0, 0, old.fileId, old.offset, old.rowSize, data.length⟩ key m))).sync
  | park {enc : Enc} {sp : Space} {v₁ : DbView γ} : Takes V cfg key flags v enc sp v₁ →
      Stores V cfg key row old m flags v enc (v₁.parkAt V key row old enc m sp)

/-- What `f_write` does to an existing record, once the value is encoded. `checked` tells that
the values need not be compared any more. -/
inductive Overwrites (V : RowView γ) (cfg : Config) (key : Key) (row : ℕ) (old : Row) (enc : Enc)
    (m : Meta) (mdays flags : ℕ) (checked : Bool) (v : DbView γ) : Bool → DbView γ → Prop
  | same {b : Bool} {v' : DbView γ} : checked = false → holds cfg v old enc = true →
      Renews V key old m mdays v b v' → Overwrites V cfg key row old enc m mdays flags checked v b v'
  | stored {v' : DbView γ} : checked = true ∨ holds cfg v old enc = false →
      Stores V cfg key row old m flags v enc v' →
      Overwrites V cfg key row old enc m mdays flags checked v true v'

theorem Stores.effects {key : Key} {row : ℕ} {old : Row} {m : Meta} {flags : ℕ} {enc : Enc}
    (hrow : v.At key row) (hold : V.proj old = v.rows row) (h : Stores V cfg key row old m flags v enc v') :
    Effects V cfg key flags v v' := by
  have hslot := DbView.slot_eq hold
  cases h with
  | head t x s h0 hmay =>
    refine .single (.rewrite hrow rfl ⟨⟨?_, fun hpos => absurd hpos (lt_irrefl 0)⟩, .inl rfl, nofun⟩ (.inr hmay))
    rw [hslot]; exact h0.symm
  | @value data hpos hle hmay =>
    have hb : Effect V cfg key flags v (v.write old.fileId old.offset data) := by
      have : Effect V cfg key flags v (v.write (v.slot V row).fileId (v.slot V row).offset data) :=
        .bytes hrow hmay (by rw [hslot]; exact hpos) (by rw [hslot]; exact hle)
      rwa [hslot] at this
    refine (Relation.ReflTransGen.single hb).tail
      (.rewrite hrow rfl ⟨⟨?_, fun _ => ⟨?_, ?_⟩⟩, .inr (.inl hle), nofun⟩ (.inr hmay))
    exacts [(congrArg Slot.rowSize hslot).symm, (congrArg Slot.fileId hslot).symm,
      (congrArg Slot.offset hslot).symm]
  | park ht => exact .single (.park hrow hold ht)

theorem Renews.effects {key : Key} {old : Row} {m : Meta} {mdays : ℕ} {b : Bool}
    (h : Renews V key old m mdays v b v') (flags : ℕ) : Effects V cfg key flags v v' := by
  unfold Renews at h
  split at h
  · exact h.effects cfg flags
  · exact h.2 ▸ .refl

theorem Overwrites.effects {key : Key} {row : ℕ} {old : Row} {enc : Enc} {m : Meta} {mdays flags : ℕ}
    {checked b : Bool} (hrow : v.At key row) (hold : V.proj old = v.rows row)
    (h : Overwrites V cfg key row old enc m mdays flags checked v b v') : Effects V cfg key flags v v' := by
  cases h with
  | same _ _ hr => exact hr.effects flags
  | stored _ hs => exact hs.effects hrow hold

theorem wp_writeSame (hc : cfg.Keeps V) (h : db.Good V cfg) (key : Key) (val : PyVal) (old : Row)
    (m : Meta) (mdays : ℕ) :
    Exec.Wp (writeSame cfg key val old m mdays) db
      (fun b db' => db'.Good V cfg ∧ Renews V key old m mdays (db.view V) b (db'.view V))
      (fun _ _ => True) := by
  unfold writeSame Renews
  extract_lets jp
  have done : ∀ db', Quiet V cfg db db' → Exec.Wp (jp ()) db' (fun b db' => db'.Good V cfg ∧
      if m.flags ≠ old.flags ∨ m.ttl.len ≠ old.ttl.len ∨ (m.ttl.pos ∧ mdays ≠ old.mdays) then
        Reflags V key (.int m.flags) (some (ttlArg m.ttl)) (some mdays) (db.view V) b (db'.view V)
      else b = false ∧ db'.view V = db.view V) (fun _ _ => True) := by
    intro db' hq
    simp only [jp]
    split
    · rw [← hq.view]
      exact wp_fWriteKeyFlags hc hq.good key _ _ _
    · exact ⟨hq.good, rfl, hq.view⟩
  split
  · rw [Exec.wp_bind]
    exact Exec.wp_mono (reads_updateCache h key val m.flags) (fun _ db' hq => done db' hq) fun _ _ _ => trivial
  · exact done db (.refl h)

theorem wp_stored (h : db.Good V cfg) (key : Key) (val : PyVal) (m : Meta) :
    Exec.Wp (writeOver.stored cfg key val m) db (fun b db' => b = true ∧ Quiet V cfg db db')
      (fun _ _ => False) := by
  unfold writeOver.stored
  extract_lets jp
  split
  · rw [Exec.wp_bind]
    unfold updateCache
    rw [Exec.wp_modify]
    exact ⟨rfl, rfl, h.frame rfl ⟨rfl, rfl, rfl⟩ h.opened⟩
  · exact ⟨rfl, .refl h⟩

/-- A value is stored, and the cache is told. -/
theorem wp_store (hc : cfg.Keeps V) (h : db.Good V cfg) (env : Env) {key : Key} (val : PyVal) {row : ℕ}
    {old : Row} (hrow : (db.view V).At key row) (hold : V.proj old = (db.view V).rows row) {enc : Enc}
    (henc : ∀ data, enc = .value data → data ≠ []) (m : Meta) {mdays flags : ℕ} (maxWsize : Option ℕ)
    {checked : Bool} (hch : checked = true ∨ holds cfg (db.view V) old enc = false) :
    Exec.Wp (do
      park cfg env key row old enc m flags maxWsize
      writeOver.stored cfg key val m) db
      (fun b db' => db'.Good V cfg ∧
        Overwrites V cfg key row old enc m mdays flags checked (db.view V) b (db'.view V))
      (fun _ _ => True) := by
  rw [Exec.wp_bind]
  refine Exec.wp_mono (wp_park hc h env hrow hold henc m flags maxWsize) ?_ fun _ _ _ => trivial
  rintro _ db₁ ⟨hg, v₁, sp, ht, hv⟩
  refine Exec.wp_mono (wp_stored hg key val m) ?_ fun _ _ _ => trivial
  rintro b db₂ ⟨rfl, hq⟩
  refine ⟨hq.good, .stored hch ?_⟩
  rw [hq.view, hv]
  exact .park ht

/-- The new row is written over the old one. -/
theorem wp_writeInPlace (hc : cfg.Keeps V) (h : Shows V cfg size v db) (key : Key) (row : ℕ) (sp : Space)
    (m : Meta) :
    Exec.Wp (writeInPlace cfg key row sp m) db
      (fun _ db' => Shows V cfg size (v.put row (v.new V (sp.args key m))).sync db') (fun _ _ => True) := by
  unfold writeInPlace
  rw [Exec.wp_bind]
  refine Exec.wp_mono (wp_writeKey hc h row _) ?_ fun _ _ _ => trivial
  rintro _ db₁ ⟨h₁, -⟩
  exact wp_bumpSync h₁

/-- **Over an existing value**: in place, or beside it. -/
theorem wp_writeOver (hc : cfg.Keeps V) (h : db.Good V cfg) (env : Env) {key : Key} (val : PyVal) {row : ℕ}
    {old : Row} (hrow : (db.view V).At key row) (hold : V.proj old = (db.view V).rows row) {enc : Enc}
    (henc : ∀ data, enc = .value data → data ≠ []) (m : Meta) (mdays flags : ℕ) (maxWsize : Option ℕ)
    (checked : Bool) :
    Exec.Wp (writeOver cfg env key val row old enc m mdays flags maxWsize checked) db
      (fun b db' => db'.Good V cfg ∧
        Overwrites V cfg key row old enc m mdays flags checked (db.view V) b (db'.view V))
      (fun _ _ => True) := by
  have hslot := DbView.slot_eq hold
  have hknown := h.known (h.lt_lines hrow.2) hold
  unfold writeOver
  rw [Exec.wp_bind, Exec.wp_get]
  extract_lets inPlace jpHead jpValue
  have hmay : inPlace = true → (db.view V).MayOverwrite key flags m.flags := by
    intro hin hrev
    simp only [inPlace, hrev, Bool.true_and, Bool.or_eq_true, Bool.not_eq_true', Bool.not_eq_false',
      decide_eq_true_eq] at hin
    exact hin
  -- what is left to do once the row was written in place
  have done : ∀ {w : DbView γ} {db₁ : JDb}, (checked = true ∨ holds cfg (db.view V) old enc = false) →
      Stores V cfg key row old m flags (db.view V) enc w → w.fileTable = (db.view V).fileTable →
      Shows V cfg (db.view V).fileTable.size w db₁ →
      Exec.Wp (writeOver.stored cfg key val m) db₁ (fun b db' => db'.Good V cfg ∧
        Overwrites V cfg key row old enc m mdays flags checked (db.view V) b (db'.view V))
        (fun _ _ => True) := by
    intro w db₁ hch hs hft h₁
    have hg : w.Good V := (hs.effects hrow hold).good h.index
    refine Exec.wp_mono (wp_stored (h₁.good hg (by rw [hft])) key val m) ?_ fun _ _ _ => trivial
    rintro b db₂ ⟨rfl, hq⟩
    rw [hq.view, h₁.view]
    exact ⟨hq.good, .stored hch hs⟩
  split
  · rename_i h0
    cases enc with
    | head t x s =>
      dsimp only
      split
      · rename_i hsame
        simp only [Bool.and_eq_true, Bool.not_eq_true', decide_eq_true_eq] at hsame
        refine Exec.wp_mono (wp_writeSame hc h key val old m mdays) ?_ fun _ _ _ => trivial
        rintro b db₁ ⟨hg, hr⟩
        exact ⟨hg, .same hsame.1 (by simp [holds, h0, hsame.2]) hr⟩
      · rename_i hne
        have hch : checked = true ∨ holds cfg (db.view V) old (.head t x s) = false := by
          cases checked with
          | true => exact .inl rfl
          | false => exact .inr (by simpa [holds, h0] using hne)
        split
        · rename_i hin
          rw [Exec.wp_bind]
          refine Exec.wp_mono (wp_writeInPlace hc h.shows key row _ m) ?_ fun _ _ _ => trivial
          intro _ db₁ h₁
          exact done hch (.head t x s h0 (hmay hin)) rfl h₁
        · exact wp_store hc h env val hrow hold henc m maxWsize hch
    | value data => exact wp_store hc h env val hrow hold henc m maxWsize (.inr (by simp [holds, h0]))
  · rename_i h0
    cases enc with
    | head t x s => exact wp_store hc h env val hrow hold henc m maxWsize (.inr (by simp [holds, h0]))
    | value data =>
      dsimp only
      have hpos : 0 < old.rowSize := Nat.pos_of_ne_zero h0
      have hfile := hknown hpos
      -- the bytes are compared, unless that is settled
      have compare : ∀ (same : Bool) (db₁ : JDb), Quiet V cfg db db₁ →
          same = (!checked && holds cfg (db.view V) old (.value data)) →
          Exec.Wp (if same = true then writeSame cfg key val old m mdays
            else if data.length ≤ old.rowSize ∧ inPlace = true then do
              let _ ← getValFp cfg (some old.fileId) cfg.minValueSize
              writeVal old.fileId old.offset data
              writeInPlace cfg key row ⟨0, 0, old.fileId, old.offset, old.rowSize, data.length⟩ m
              writeOver.stored cfg key val m
            else do
              park cfg env key row old (.value data) m flags maxWsize
              writeOver.stored cfg key val m) db₁
            (fun b db' => db'.Good V cfg ∧
              Overwrites V cfg key row old (.value data) m mdays flags checked (db.view V) b (db'.view V))
            (fun _ _ => True) := by
        intro same db₁ hq hsame
        have hfile₁ : old.fileId < (db₁.view V).fileTable.size := by rw [hq.view]; exact hfile
        split
        · rename_i htrue
          rw [htrue, eq_comm, Bool.and_eq_true, Bool.not_eq_true'] at hsame
          refine Exec.wp_mono (wp_writeSame hc hq.good key val old m mdays) ?_ fun _ _ _ => trivial
          rintro b db₂ ⟨hg, hr⟩
          rw [hq.view] at hr
          exact ⟨hg, .same hsame.1 hsame.2 hr⟩
        · rename_i hfalse
          have hch : checked = true ∨ holds cfg (db.view V) old (.value data) = false := by
            cases checked with
            | true => exact .inl rfl
            | false => exact .inr (by simpa [hsame] using hfalse)
          split
          · rename_i hin
            rw [Exec.wp_bind]
            refine Exec.wp_mono (wp_getValFp_keeps hq.good hfile₁ _) ?_ fun _ _ h' => h'.elim
            intro _ db₂ hq₂
            have h₂ := (hq.trans hq₂).good.shows
            rw [(hq.trans hq₂).view] at h₂
            rw [Exec.wp_bind]
            refine wp_writeVal h₂ _ _ _ fun db₃ h₃ => ?_
            rw [Exec.wp_bind]
            refine Exec.wp_mono (wp_writeInPlace hc h₃ key row _ m) ?_ fun _ _ _ => trivial
            intro _ db₄ h₄
            exact done hch (.value hpos hin.1 (hmay hin.2)) rfl h₄
          · rw [← hq.view] at hrow hold hch ⊢
            exact wp_store hc hq.good env val hrow hold henc m maxWsize hch
      split
      · rename_i hcmp
        obtain ⟨hle, hval, hch⟩ := hcmp
        rw [Exec.wp_bind]
        refine Exec.wp_mono (wp_getValFp_keeps h hfile _) ?_ fun _ _ h' => h'.elim
        intro _ db₁ hq
        rw [Exec.wp_bind, Exec.wp_get]
        refine compare _ db₁ hq ?_
        have hread : valBytes db₁.io old.fileId old.offset data.length =
            ((db.view V).val old.fileId).read old.offset data.length := by rw [← hq.view]; rfl
        simp [holds, hch, hpos, hle, hval, hread]
      · rename_i hcmp
        rw [Exec.wp_bind, Exec.wp_ret]
        refine compare false db (.refl h) ?_
        cases checked with
        | true => rfl
        | false =>
          have : ¬ (data.length ≤ old.rowSize ∧ old.valSize = data.length) := fun h' => hcmp ⟨h'.1, h'.2, rfl⟩
          simp only [holds, Bool.not_false, Bool.true_and]
          rw [decide_eq_false fun h' => this h'.2]
          rfl

/-! ## `f_write` -/

/-- The time `f_write` gives an existing record, and the index with the clock it read. -/
def timeOf (env : Env) (mdays : Option ℕ) (transient : ℕ) (old : Row) (ttl : Ttl) (v : DbView γ) :
    ℕ × DbView γ :=
  match mdays with
  | some d => (d, v)
  | none =>
    if has transient NO_ATIME then (old.mdays, v)
    else if ttl.subDay then (env.minute, { v with now := env.minute })
    else (v.now / MIN_OF_DAY * MIN_OF_DAY, v)

/-- The lifetime, dates and flags `f_write` gives an existing record. -/
def rowMeta (val : PyVal) (a : WriteArgs) (transient : ℕ) (keyFlags : FlagArg) (old : Row) (mdays : ℕ) :
    Meta :=
  ⟨some (a.cdays.getD old.cdays), some mdays, a.ttl.toTtl.getD old.ttl,
    newFlags keyFlags transient old (a.ttl.toTtl.getD old.ttl) val⟩

/-- Those it gives a new one. -/
def newMeta (val : PyVal) (cdays mdays : Option ℕ) (ttl : TtlArg) (keyFlags : FlagArg) : Meta :=
  ⟨cdays, mdays, ttl.toTtl.getD (.days 0),
    ((keyFlags.apply 0 &&& WRITABLE_FLAG_MASK) ||| (if (ttl.toTtl.getD (.days 0)).pos then EXPIRE else 0)) |||
      (if val.isJDb then GROUP else 0)⟩

/-- The table is told the flags of a record before its row is written. -/
def markAs (key : Key) (row kf oldFlags : ℕ) (v : DbView γ) : DbView γ :=
  if kf ≠ oldFlags then v.setTable key row kf else v

/-- What `f_write` does to a record that it may write: the encoded value goes over the old one,
with the new dates, lifetime and flags. -/
def Rewrites (V : RowView γ) (cfg : Config) (env : Env) (key : Key) (val : PyVal) (a : WriteArgs)
    (transient : ℕ) (keyFlags : FlagArg) (flags : ℕ) (wide checked : Bool) (row : ℕ) (old : Row)
    (v : DbView γ) (b : Bool) (v' : DbView γ) : Prop :=
  ∃ mdays v₁ enc, timeOf env a.mdays transient old (a.ttl.toTtl.getD old.ttl) v = (mdays, v₁) ∧
    encodeRow cfg.val wide cfg.isGroup env.ts key val = .ok enc ∧
    Overwrites V cfg key row old enc (rowMeta val a transient keyFlags old mdays) mdays flags checked
      (markAs key row (rowMeta val a transient keyFlags old mdays).flags old.flags v₁) b v'

/-- **What `f_write` does** to the index, for one key. -/
inductive Writes (V : RowView γ) (cfg : Config) (env : Env) (key : Key) (val : PyVal) (a : WriteArgs)
    (transient : ℕ) (keyFlags : FlagArg) (flags : ℕ) (v : DbView γ) : Bool → DbView γ → Prop
  | refused : Writes V cfg env key val a transient keyFlags flags v false v
  | existing {row mdays : ℕ} {old : Row} {enc : Enc} {wide checked b : Bool} {v₁ v' : DbView γ} :
      v.At key row → V.proj old = v.rows row →
      (has old.flags LINK = true → has transient NO_FOLLOW = true ∧ ∃ s, val = .str s) →
      (a.overwrite = true → checked = true) →
      timeOf env a.mdays transient old (a.ttl.toTtl.getD old.ttl) v = (mdays, v₁) →
      encodeRow cfg.val wide cfg.isGroup env.ts key val = .ok enc →
      Overwrites V cfg key row old enc (rowMeta val a transient keyFlags old mdays) mdays flags checked
        (markAs key row (rowMeta val a transient keyFlags old mdays).flags old.flags v₁) b v' →
      Writes V cfg env key val a transient keyFlags flags v b v'
  | new {enc : Enc} {wide : Bool} {sp : Space} {v₁ : DbView γ} : v.rowOf key = none →
      encodeRow cfg.val wide cfg.isGroup env.ts key val = .ok enc →
      Takes V cfg key flags v enc sp v₁ →
      Writes V cfg env key val a transient keyFlags flags v true
        (v₁.addAt V key enc (newMeta val a.cdays a.mdays a.ttl keyFlags) flags sp)

section Row

variable {key : Key} {val : PyVal} {a : WriteArgs} {transient : ℕ} {keyFlags : FlagArg} {flags : ℕ}

variable (v) in
theorem timeOf_clock (transient : ℕ) (env : Env) (mdays : Option ℕ) (old : Row) (ttl : Ttl) :
    ∃ now, (now = v.now ∨ now = env.minute) ∧
      (timeOf env mdays transient old ttl v).2 = { v with now := now } := by
  unfold timeOf
  split
  · exact ⟨v.now, .inl rfl, rfl⟩
  · split
    · exact ⟨v.now, .inl rfl, rfl⟩
    · split
      exacts [⟨env.minute, .inr rfl, rfl⟩, ⟨v.now, .inl rfl, rfl⟩]

theorem markAs_effects {row kf oldFlags : ℕ} (hrow : v.At key row) :
    Effects V cfg key flags v (markAs key row kf oldFlags v) := by
  unfold markAs
  split
  exacts [.single (.mark hrow), .refl]

theorem markAs_at {row kf oldFlags : ℕ} (hrow : v.At key row) : (markAs key row kf oldFlags v).At key row := by
  unfold markAs
  split
  · refine ⟨?_, hrow.2⟩
    rw [DbView.rowOf, DbView.setTable, DbView.rowOf_set, if_pos rfl]
  · exact hrow

theorem rows_markAs {row kf oldFlags : ℕ} : (markAs key row kf oldFlags v).rows = v.rows := by
  unfold markAs
  split <;> rfl

theorem Writes.effects {env : Env} {b : Bool} (h : Writes V cfg env key val a transient keyFlags flags v b v') :
    ∃ now, (now = v.now ∨ now = env.minute) ∧ Effects V cfg key flags { v with now := now } v' := by
  cases h with
  | refused => exact ⟨v.now, .inl rfl, .refl⟩
  | @existing row mdays old enc wide checked _ v₁ _ hrow hold hlink _ ht henc ho =>
    obtain ⟨now, hor, hnow⟩ := timeOf_clock v transient env a.mdays old
      (a.ttl.toTtl.getD old.ttl)
    rw [ht] at hnow
    dsimp only at hnow
    subst hnow
    refine ⟨now, hor, Relation.ReflTransGen.trans (markAs_effects hrow) (ho.effects ?_ ?_)⟩
    · exact markAs_at hrow
    · rw [rows_markAs]; exact hold
  | new hnew henc ht => exact ⟨v.now, .inl rfl, .single (.add hnew ht)⟩

theorem wp_newMdays (h : db.Good V cfg) (env : Env) (mdays : Option ℕ) (transient : ℕ) (old : Row) (ttl : Ttl) :
    Exec.Wp (newMdays env mdays transient old ttl) db
      (fun m db' => db'.Good V cfg ∧ timeOf env mdays transient old ttl (db.view V) = (m, db'.view V))
      (fun _ _ => False) := by
  unfold newMdays timeOf
  split
  · exact ⟨h, rfl⟩
  · split
    · exact ⟨h, rfl⟩
    · split
      · unfold liveNow modifyIo
        rw [Exec.wp_bind, Exec.wp_modify, Exec.wp_ret]
        have hs := h.shows.update _ { db.view V with now := env.minute }
            { db with io := { db.io with now := env.minute } } rfl rfl ⟨rfl, rfl, rfl⟩ h.opened le_rfl
        exact ⟨hs.good (h.index.clock env.minute) rfl, rfl⟩
      · rw [Exec.wp_bind, Exec.wp_get, Exec.wp_ret]
        exact ⟨h, rfl⟩

/-- **A record is written**, once its row has been read: the value is encoded for the lines the
index has. -/
theorem wp_rewrite (hc : cfg.Keeps V) (h : db.Good V cfg) (env : Env) {row : ℕ} {old : Row}
    (hrow : (db.view V).At key row) (hold : V.proj old = (db.view V).rows row) (checked : Bool) :
    Exec.Wp (writeRow cfg env key val a transient keyFlags row old flags checked) db
      (fun b db' => db'.Good V cfg ∧ Rewrites V cfg env key val a transient keyFlags flags
        (db.io.wide cfg) checked row old (db.view V) b (db'.view V))
      (fun _ _ => True) := by
  unfold writeRow
  extract_lets ttl kf
  rw [Exec.wp_bind]
  refine Exec.wp_mono (Exec.wp_and (wp_newMdays h env a.mdays transient old ttl)
    ((passive_newMdays (I := LineSize db.io.indexSize) env a.mdays transient old ttl).wp rfl)) ?_ fun _ _ h' => h'.1.elim
  rintro mdays db₁ ⟨⟨h₁, ht⟩, hs₁⟩
  have hclock : ∃ now, db₁.view V = { db.view V with now := now } := by
    obtain ⟨now, -, hnow⟩ := timeOf_clock (db.view V) transient env a.mdays old ttl
    rw [ht] at hnow
    exact ⟨now, hnow⟩
  have hrow₁ : (db₁.view V).At key row := by
    obtain ⟨now, hnow⟩ := hclock
    rw [hnow]; exact hrow
  have hold₁ : V.proj old = (db₁.view V).rows row := by
    obtain ⟨now, hnow⟩ := hclock
    rw [hnow]; exact hold
  extract_lets rest
  rw [Exec.wp_bind]
  refine Exec.wp_mono (Exec.wp_and (reads_setGroup h₁ key val)
    ((passive_setGroup (I := LineSize db.io.indexSize) key val).wp hs₁)) ?_ fun _ _ _ => trivial
  rintro _ db₂ ⟨hq₂, hs₂⟩
  have hmarked : ∀ db₃, db₃.Good V cfg → LineSize db.io.indexSize db₃ →
      db₃.view V = markAs key row kf old.flags (db₁.view V) →
      Exec.Wp (rest ()) db₃ (fun b db' => db'.Good V cfg ∧ Rewrites V cfg env key val a transient keyFlags flags
        (db.io.wide cfg) checked row old (db.view V) b (db'.view V)) (fun _ _ => True) := by
    intro db₃ h₃ hs₃ hv₃
    simp only [rest]
    rw [Exec.wp_bind, Exec.wp_get, Exec.wp_bind, Exec.wp_lift, hs₃.wide]
    refine ⟨fun enc henc => ?_, fun _ _ => trivial⟩
    have hne : ∀ data, enc = .value data → data ≠ [] := by
      rintro data rfl
      exact encodeRow_value_ne henc
    have hrow₃ : (db₃.view V).At key row := by rw [hv₃]; exact markAs_at hrow₁
    have hold₃ : V.proj old = (db₃.view V).rows row := by rw [hv₃, rows_markAs]; exact hold₁
    refine Exec.wp_mono (wp_writeOver hc h₃ env val hrow₃ hold₃ hne _ mdays flags _ checked) ?_ fun _ _ _ => trivial
    · rintro b db₄ ⟨h₄, ho⟩
      rw [hv₃] at ho
      exact ⟨h₄, mdays, _, enc, ht, henc, ho⟩
  split
  · rename_i hne
    rw [Exec.wp_bind]
    have h₂ := hq₂.good.shows
    rw [hq₂.view] at h₂
    refine Exec.wp_mono (Exec.wp_and (wp_tableSet (E := fun _ _ => False) h₂ key row kf)
      ((passive_tableSet (I := LineSize db.io.indexSize) key row kf).wp hs₂)) ?_ fun _ _ h' => h'.1.elim
    rintro _ db₃ ⟨h₃, hs₃⟩
    refine hmarked db₃ (h₃.good ((@Effect.mark _ V cfg _ 0 _ _ _ hrow₁).good h₁.index) rfl) hs₃ ?_
    rw [h₃.view, markAs, if_pos hne]
  · rename_i hne
    exact hmarked db₂ hq₂.good hs₂ (by rw [hq₂.view, markAs, if_neg hne])

/-- The record of a key is a link. -/
def IsLink (V : RowView γ) (key : Key) (v : DbView γ) : Prop :=
  ∃ row old, v.At key row ∧ V.proj old = v.rows row ∧ has old.flags LINK = true

/-- The record of a key is a link, and this its path. -/
def LinksTo (V : RowView γ) (cfg : Config) (key : Key) (path : PyVal) (v : DbView γ) : Prop :=
  ∃ row old, v.At key row ∧ V.proj old = v.rows row ∧ has old.flags LINK = true ∧
    storedValue cfg.val v old.toSlot = .ok path

theorem LinksTo.isLink {path : PyVal} (h : LinksTo V cfg key path v) : IsLink V key v := by
  obtain ⟨row, old, hrow, hold, hlink, -⟩ := h
  exact ⟨row, old, hrow, hold, hlink⟩

/-- The rest of `f_write` for an existing record, once the cache was asked. -/
theorem wp_look (hc : cfg.Keeps V) (h : db.Good V cfg) {onLink : PyVal → DbM Bool} {R : Bool → JDb → Prop}
    (honLink : ∀ t db₁, LinksTo V cfg key t (db.view V) → Quiet V cfg db db₁ →
      Exec.Wp (onLink t) db₁ R (fun _ _ => True)) (env : Env) {row : ℕ}
    (hrow : (db.view V).At key row) {checked : Bool} (hch : a.overwrite = true → checked = true) :
    Exec.Wp (writeExisting.look cfg onLink env key val a transient keyFlags row flags checked) db
      (fun b db' => (db'.Good V cfg ∧
        Writes V cfg env key val a transient keyFlags flags (db.view V) b (db'.view V)) ∨ R b db')
      (fun _ _ => True) := by
  unfold writeExisting.look
  rw [Exec.wp_bind]
  refine Exec.wp_mono (wp_readKey h row) ?_ fun _ _ _ => trivial
  rintro old db₁ ⟨⟨hold, -⟩, hq⟩
  have hknown := (h.known (h.lt_lines hrow.2) hold).quiet hq
  split
  · rename_i hlink
    rw [Exec.wp_bind]
    refine Exec.wp_mono (wp_rowValue hq.good hknown) ?_ fun _ _ _ => trivial
    rintro t db₂ ⟨hq₂, ht⟩
    rw [hq.view] at ht
    rw [Bool.and_eq_true] at hlink
    exact Exec.wp_mono (honLink t db₂ ⟨row, old, hrow, hold, hlink.1, ht⟩ (hq.trans hq₂)) (fun _ _ h' => .inr h') fun _ _ h' => h'
  · rename_i hlink
    split
    · trivial
    · rename_i hstr
      have hlink : has old.flags LINK = true → has transient NO_FOLLOW = true ∧ ∃ s, val = .str s := by
        intro h'
        refine ⟨by simpa [h'] using hlink, ?_⟩
        rw [h', Bool.true_and, Bool.not_eq_true', Bool.not_eq_false] at hstr
        unfold writeExisting.isStr at hstr
        split at hstr
        · exact ⟨_, rfl⟩
        · cases hstr
      have finish : ∀ (ok : Bool) (db₂ : JDb), Quiet V cfg db db₂ → Exec.Wp (if ok = true then
          writeRow cfg env key val a transient keyFlags row old flags checked else pure false) db₂
          (fun b db' => (db'.Good V cfg ∧
            Writes V cfg env key val a transient keyFlags flags (db.view V) b (db'.view V)) ∨ R b db')
          (fun _ _ => True) := by
        intro ok db₂ hq₂
        split
        · rw [← hq₂.view] at hrow hold ⊢
          refine Exec.wp_mono (wp_rewrite hc hq₂.good env hrow hold checked) ?_ fun _ _ h' => h'
          rintro b db₃ ⟨h₃, mdays, v₁, enc, ht, henc, ho⟩
          exact .inl ⟨h₃, .existing hrow hold hlink hch ht henc ho⟩
        · exact .inl ⟨hq₂.good, hq₂.view ▸ .refused⟩
      split
      · rw [Exec.wp_bind]
        refine Exec.wp_mono (reads_decodeValue hq.good env key hknown false true) ?_ fun _ _ _ => trivial
        intro v db₂ hq₂
        rw [Exec.wp_bind, Exec.wp_ret]
        exact finish _ db₂ (hq.trans hq₂)
      · rw [Exec.wp_bind, Exec.wp_ret]
        exact finish true db₁ hq

theorem wp_writeExisting (hc : cfg.Keeps V) (h : db.Good V cfg) {onLink : PyVal → DbM Bool}
    {R : Bool → JDb → Prop}
    (honLink : ∀ t db₁, LinksTo V cfg key t (db.view V) → Quiet V cfg db db₁ →
      Exec.Wp (onLink t) db₁ R (fun _ _ => True)) (env : Env) {row : ℕ}
    (hrow : (db.view V).At key row) (kflags : ℕ) :
    Exec.Wp (writeExisting cfg onLink env key val a transient keyFlags row kflags flags) db
      (fun b db' => (db'.Good V cfg ∧
        Writes V cfg env key val a transient keyFlags flags (db.view V) b (db'.view V)) ∨ R b db')
      (fun _ _ => True) := by
  unfold writeExisting
  extract_lets locked
  split
  · exact .inl ⟨h, .refused⟩
  · rw [Exec.wp_bind, Exec.wp_get]
    split
    · split
      · rw [Exec.wp_bind]
        refine Exec.wp_mono (reads_cacheTouch h key) ?_ fun _ _ _ => trivial
        intro _ db₁ hq
        exact .inl ⟨hq.good, hq.view ▸ .refused⟩
      · exact wp_look hc h honLink env hrow fun _ => rfl
    · exact wp_look hc h honLink env hrow id

theorem wp_writeNew (hc : cfg.Keeps V) (h : db.Good V cfg) (env : Env) (hnew : (db.view V).rowOf key = none) :
    Exec.Wp (writeNew cfg env key val a transient keyFlags flags) db
      (fun b db' => db'.Good V cfg ∧
        Writes V cfg env key val a transient keyFlags flags (db.view V) b (db'.view V))
      (fun _ _ => True) := by
  unfold writeNew
  split
  · exact ⟨h, .refused⟩
  · extract_lets ttl kf
    rw [Exec.wp_bind]
    refine Exec.wp_mono (reads_setGroup h key val) ?_ fun _ _ _ => trivial
    intro _ db₁ hq
    rw [Exec.wp_bind, Exec.wp_get, Exec.wp_bind, Exec.wp_lift]
    refine ⟨fun enc henc => ?_, fun _ _ => trivial⟩
    rw [Exec.wp_bind]
    rw [← hq.view] at hnew
    have hne : ∀ data, enc = .value data → data ≠ [] := by
      rintro data rfl
      exact encodeRow_value_ne henc
    refine Exec.wp_mono (wp_add hc hq.good env val hnew hne _ flags _) ?_ fun _ _ _ => trivial
    · rintro _ db₂ ⟨h₂, v₁, sp, ht, hv⟩
      rw [hq.view] at ht hnew
      refine ⟨h₂, ?_⟩
      rw [hv]
      exact .new hnew henc ht

end Row

/-- A value as `f_write` stores it. -/
def asStored : PyVal → PyVal
  | .bytearray b => .bytes b
  | v => v

/-- The arguments of `f_write` with the dates taken apart. -/
def WriteArgs.split (cfg : Config) (a : WriteArgs) : WriteArgs :=
  { a with
    cdays := (splitDates a.cdays a.mdays).1
    mdays := (splitDates a.cdays a.mdays).2
    flags := some (a.flags.getD cfg.flags) }

/-- The arguments with which `f_write` goes on behind a link: the bits for this call alone are
gone. -/
def WriteArgs.onward (cfg : Config) (a : WriteArgs) : WriteArgs :=
  { a.split cfg with keyFlags := (popTransientFlags a.keyFlags).2 }

/-- What `f_write` does to the record of its own key. -/
def Wrote (V : RowView γ) (cfg : Config) (env : Env) (key : Key) (val : PyVal) (a : WriteArgs) (v : DbView γ)
    (b : Bool) (v' : DbView γ) : Prop :=
  Writes V cfg env key (asStored val) (a.split cfg) (popTransientFlags a.keyFlags).1
    (popTransientFlags a.keyFlags).2 (a.flags.getD cfg.flags) v b v'

theorem wp_fWriteWith (hc : cfg.Keeps V) (h : db.Good V cfg)
    {onLink : Key → PyVal → WriteArgs → PyVal → DbM Bool} {R : Bool → JDb → Prop} (env : Env) (key : Key)
    (val : PyVal) (a : WriteArgs)
    (honLink : ∀ t db₁, LinksTo V cfg key t (db.view V) →
      Quiet V cfg db db₁ → Exec.Wp (onLink key (asStored val) (a.onward cfg) t) db₁ R (fun _ _ => True)) :
    Exec.Wp (fWriteWith cfg onLink env key val a) db
      (fun b db' => (db'.Good V cfg ∧ Wrote V cfg env key val a (db.view V) b (db'.view V)) ∨ R b db')
      (fun _ _ => True) := by
  unfold fWriteWith
  extract_lets val' flags
  have hval : val' = asStored val := by unfold asStored; rfl
  split
  · trivial
  · split
    · trivial
    · split
      rename_i cdays mdays hdates
      split
      rename_i transient keyFlags hpop
      extract_lets a'
      have ha' : a' = a.split cfg := by unfold WriteArgs.split; rw [hdates]
      rw [Exec.wp_bind, Exec.wp_get]
      unfold Wrote
      rw [← hval, ← ha', hpop]
      split
      · rename_i row kflags hget
        obtain ⟨hrow, -⟩ := h.at_ hget
        have honward : { a' with keyFlags := keyFlags } = a.onward cfg := by
          unfold WriteArgs.onward
          rw [ha', hpop]
        rw [honward, hval]
        exact wp_writeExisting hc h (fun t db₁ hl hq => honLink t db₁ hl hq) env hrow kflags
      · rename_i hget
        exact Exec.wp_mono (wp_writeNew hc h env (rowOf_none hget)) (fun _ _ h' => .inl h') fun _ _ h' => h'

/-- What `f_write` does when the record is a link with the path `path`: it writes the record the
link leads to, or one of another database. -/
def WroteLink (V : RowView γ) (cfg : Config) (env : Env) (val : PyVal) (a : WriteArgs) (path : PyVal)
    (v : DbView γ) (b : Bool) (v' : DbView γ) : Prop :=
  v' = v ∨ ∃ name, path = .str name ∧ pathHead name = name ∧ Leads V path v ∧ Wrote V cfg env name val a v b v'

theorem wp_fLinkWrite (hc : cfg.Keeps V) (h : db.Good V cfg) (env : Env) (key : Key) (val : PyVal)
    (a : WriteArgs) (target : PyVal) :
    Exec.Wp (fLinkWrite cfg env key val a target) db
      (fun b db' => db'.Good V cfg ∧ WroteLink V cfg env val a target (db.view V) b (db'.view V))
      (fun _ _ => True) := by
  unfold fLinkWrite
  split
  · exact ⟨h, .inl rfl⟩
  · rw [Exec.wp_bind]
    refine Exec.wp_mono (wp_fLinkStep h target) ?_ fun _ _ _ => trivial
    rintro s db₁ ⟨hleads, hs, hq⟩
    split
    · exact ⟨hq.good, .inl hq.view⟩
    · rw [Exec.wp_lift]
      exact ⟨fun _ _ => ⟨hq.good, .inl hq.view⟩, fun _ _ => trivial⟩
    · rename_i name row
      refine Exec.wp_mono (wp_fWriteWith (R := fun _ _ => False) hc hq.good env name val a ?_) ?_ fun _ _ h' => h'
      · intros; trivial
      · rintro b db₂ (⟨h₂, hw⟩ | h')
        · exact ⟨h₂, .inr ⟨name, hs.1, hs.2.1, hleads, hq.view ▸ hw⟩⟩
        · exact h'.elim

/-- What `f_write` does, through a link or not. -/
def WroteAny (V : RowView γ) (cfg : Config) (env : Env) (key : Key) (val : PyVal) (a : WriteArgs)
    (v : DbView γ) (b : Bool) (v' : DbView γ) : Prop :=
  Wrote V cfg env key val a v b v' ∨
    ∃ path, LinksTo V cfg key path v ∧ WroteLink V cfg env (asStored val) (a.onward cfg) path v b v'

/-- **`f_write`**, for any key, value and arguments. -/
theorem wp_fWrite (hc : cfg.Keeps V) (h : db.Good V cfg) (env : Env) (key : Key) (val : PyVal) (a : WriteArgs) :
    Exec.Wp (fWrite cfg env key val a) db
      (fun b db' => db'.Good V cfg ∧ WroteAny V cfg env key val a (db.view V) b (db'.view V))
      (fun _ _ => True) := by
  unfold fWrite
  refine Exec.wp_mono (wp_fWriteWith (R := fun b db' => db'.Good V cfg ∧
    ∃ path, LinksTo V cfg key path (db.view V) ∧
      WroteLink V cfg env (asStored val) (a.onward cfg) path (db.view V) b (db'.view V))
    hc h env key val a ?_) ?_ fun _ _ h' => h'
  · intro t db₁ hl hq
    refine Exec.wp_mono (wp_fLinkWrite hc hq.good env key _ _ t) ?_ fun _ _ h' => h'
    rintro b db₂ ⟨h₂, hw⟩
    exact ⟨h₂, t, hl, hq.view ▸ hw⟩
  · rintro b db' (⟨hg, hw⟩ | ⟨hg, hl⟩)
    exacts [⟨hg, .inl hw⟩, ⟨hg, .inr hl⟩]

/-! ## `f_append` -/

/-- **What `f_append` does** with a new key. -/
inductive Appends (V : RowView γ) (cfg : Config) (env : Env) (key : Key) (val : PyVal) (ttl : TtlArg)
    (keyFlags : FlagArg) (v : DbView γ) : DbView γ → Prop
  | head {wide : Bool} {t x s : ℕ} : v.rowOf key = none →
      encodeRow cfg.val wide cfg.isGroup env.ts key val = .ok (.head t x s) →
      Appends V cfg env key val ttl keyFlags v (v.appendRoom.appendAt V key (.head t x s)
        (newMeta val none none ttl keyFlags) ⟨0, 0, t, x, 0, s⟩)
  | value {wide : Bool} {data : Bytes} {f pad : ℕ} : v.rowOf key = none →
      encodeRow cfg.val wide cfg.isGroup env.ts key val = .ok (.value data) → f ≤ v.fileTable.size →
      Appends V cfg env key val ttl keyFlags v
        ((v.appendRoom.write f (v.fileEnd f) (data ++ List.replicate pad cfg.val.padByte)).appendAt V key
          (.value data) (newMeta val none none ttl keyFlags)
          ⟨0, 0, f, v.fileEnd f, data.length + pad, data.length⟩)

section Append

variable {key : Key} {val : PyVal} {ttl : TtlArg} {keyFlags : FlagArg} {env : Env}

theorem Appends.effects (h : Appends V cfg env key val ttl keyFlags v v') : Effects V cfg key 0 v v' := by
  cases h with
  | head hnew henc => exact .single (.append hnew rfl ⟨rfl, rfl⟩)
  | value hnew henc hf =>
    exact .single (.append hnew rfl ⟨_, encodeRow_value_ne henc, hf, rfl, rfl, rfl, rfl⟩)

/-- A write past the end of a VAL file that was just opened. -/
theorem write_open (f off : ℕ) (data : Bytes) :
    ({ v with vals := Function.update v.vals f (some (v.val f)) } : DbView γ).write f off data =
      v.write f off data := by
  simp [DbView.write, DbView.val]

/-- A file of the table, or the next one, is among the first `size` once its size was noted. -/
theorem lt_size_set (hv : v.Volumes) {f x : ℕ} (hf : f ≤ v.fileTable.size) (e : ℕ)
    (hx : x < max v.fileTable.size (f + 1)) : x < (v.fileTable.set f e).size := by
  have hdf := hv.dense f
  rw [OrdDict.size_set]
  split
  · rename_i hg; have := hdf.1 hg; omega
  · rename_i hg; have := mt hdf.2 hg; omega

/-- **`f_append` of a new key.** -/
theorem wp_appendNew (hc : cfg.Keeps V) (h : db.Good V cfg) (hnew : (db.view V).rowOf key = none) :
    Exec.Wp (appendNew cfg env key val ttl keyFlags) db
      (fun b db' => db'.Good V cfg ∧ b = true ∧
        Appends V cfg env key val ttl keyFlags (db.view V) (db'.view V)) (fun _ _ => True) := by
  unfold appendNew
  rw [Exec.wp_bind, Exec.wp_get]
  extract_lets lines n safe ttl' kf encode room
  unfold modifyIo
  rw [Exec.wp_bind, Exec.wp_modify]
  have h₁ : Shows V cfg (db.view V).fileTable.size (db.view V).line
      { db with io := { db.io with cnt := { db.io.cnt with nLines := lines + 1 } } } :=
    h.shows.modify rfl rfl ⟨rfl, rfl, rfl⟩ h.opened (max_le_max le_rfl (Nat.le_succ _))
  refine wp_copyUp h₁ safe lines fun db₂ h₂ => ?_
  simp only [room]
  refine wp_copyUp h₂ n safe fun db₃ h₃ => ?_
  have h₃ : Shows V cfg (db.view V).fileTable.size (db.view V).appendRoom db₃ := h₃
  unfold encode
  rw [Exec.wp_bind, Exec.wp_lift]
  refine ⟨fun enc henc => ?_, fun _ _ => trivial⟩
  rw [Exec.wp_bind]
  have hgroup : Exec.Wp (setGroup key val) db₃ (fun _ db' =>
      Shows V cfg (db.view V).fileTable.size (db.view V).appendRoom db') (fun _ _ => False) := by
    unfold setGroup modifyIo
    split
    · exact h₃.modify h₃.view rfl ⟨rfl, rfl, rfl⟩ h₃.opened le_rfl
    · exact h₃
  refine Exec.wp_mono hgroup ?_ fun _ _ h' => h'.elim
  intro _ db₄ h₄
  extract_lets record
  -- the row is written once the value has its space
  have done : ∀ {sz : ℕ} {w : DbView γ} {db₅ : JDb} (sp : Space), Shows V cfg sz w db₅ →
      (∀ x, x < sz → x < (w.note enc sp).fileTable.size) → w.cnt.nRecords = n →
      Appends V cfg env key val ttl keyFlags (db.view V)
        (w.appendAt V key enc (newMeta val none none ttl keyFlags) sp) →
      Exec.Wp (record sp) db₅ (fun b db' => db'.Good V cfg ∧ b = true ∧
        Appends V cfg env key val ttl keyFlags (db.view V) (db'.view V)) (fun _ _ => True) := by
    intro sz w db₅ sp h₅ hsz hn happ
    simp only [record]
    rw [Exec.wp_bind]
    refine Exec.wp_mono (wp_writeKey hc h₅ n _) ?_ fun _ _ _ => trivial
    rintro _ db₆ ⟨h₆, -⟩
    rw [Exec.wp_bind]
    refine Exec.wp_mono (wp_noteExtent (E := fun _ _ => False) h₆ enc sp) ?_ fun _ _ h' => h'.elim
    intro _ db₇ h₇
    unfold modifyIo
    rw [Exec.wp_bind, Exec.wp_modify, Exec.wp_bind, Exec.wp_modify, Exec.wp_ret]
    have h₈ := h₇.update _ (w.appendAt V key enc (newMeta val none none ttl keyFlags) sp)
        { db₇ with
        safeLine := db₇.safeLine + 1
        io := { db₇.io with cnt := { db₇.io.cnt with
          nRecords := db₇.io.cnt.nRecords + 1
          syncId := bump db₇.io.cnt.syncId } }.tableSet key n kf } ?_ ?_ ⟨rfl, rfl, rfl⟩
      (fun x hx => hsz x (h₇.opened x hx)) (max_le_max (hn ▸ Nat.le_succ _) le_rfl)
    · refine ⟨h₈.good (happ.effects.good h.index) rfl, rfl, ?_⟩
      have hv := h₈.view
      exact hv ▸ happ
    · have hview : ∀ u : DbView γ, db₇.view V = u → ({ db₇ with
          safeLine := db₇.safeLine + 1
          io := { db₇.io with cnt := { db₇.io.cnt with
            nRecords := db₇.io.cnt.nRecords + 1
            syncId := bump db₇.io.cnt.syncId } }.tableSet key n kf } : JDb).view V =
          { u with
            cnt := { u.cnt with nRecords := u.cnt.nRecords + 1, syncId := bump u.cnt.syncId }
            safeLine := u.safeLine + 1
            keyTable := u.keyTable.set key (n, kf &&& KEY_FLAG_MASK) } := by rintro u rfl; rfl
      rw [hview _ h₇.view, ← hn]
      rfl
    · unfold DbView.appendAt
      rw [← hn]
      rfl
  cases enc with
  | head t x s =>
    dsimp only
    rw [Exec.wp_bind, Exec.wp_ret]
    exact done _ h₄ (fun x hx => hx) rfl (.head hnew henc)
  | value data =>
    dsimp only
    rw [Exec.wp_bind]
    refine Exec.wp_mono (wp_getValFp_new (E := fun _ _ => False) h₄ (h.index.volumes.congr rfl rfl) rfl _) ?_
      fun _ _ h' => h'.elim
    rintro ⟨f, off⟩ db₅ ⟨hf, hoff, h₅⟩
    dsimp only at hf hoff h₅
    subst hoff
    rw [Exec.wp_bind]
    refine wp_writeVal h₅ f _ _ fun db₆ h₆ => ?_
    rw [write_open] at h₆
    rw [Exec.wp_bind, Exec.wp_ret]
    have hpad : data.length + (padSize cfg data.length - data.length) = padSize cfg data.length :=
      Nat.add_sub_cancel' (le_max_left _ _)
    obtain ⟨pad, hp⟩ : ∃ pad, pad = padSize cfg data.length - data.length := ⟨_, rfl⟩
    rw [← hp] at hpad h₆
    have happ := @Appends.value _ V cfg env key val ttl keyFlags _ _ _ _ pad hnew henc hf
    rw [hpad] at happ
    exact done _ h₆ (fun x hx => lt_size_set h.index.volumes hf _ hx) rfl happ

/-- The arguments with which `f_append` hands an existing key over to `f_write`. -/
def appendArgs (ttl : TtlArg) (keyFlags : FlagArg) : WriteArgs :=
  ⟨none, none, ttl, some 0, some 0, true, (popTransientFlags keyFlags).2⟩

/-- **`f_append`**, for any key, value and arguments. -/
theorem wp_fAppend (hc : cfg.Keeps V) (h : db.Good V cfg) :
    Exec.Wp (fAppend cfg env key val ttl keyFlags) db
      (fun b db' => db'.Good V cfg ∧ (b = false ∧ db'.view V = db.view V ∨
        b = true ∧ Appends V cfg env key val ttl keyFlags (db.view V) (db'.view V) ∨
        WroteAny V cfg env key val (appendArgs ttl keyFlags) (db.view V) b (db'.view V)))
      (fun _ _ => True) := by
  unfold fAppend
  split
  · trivial
  · split
    · trivial
    · rw [Exec.wp_bind, Exec.wp_get]
      split
      · split
        rename_i transient kf hpop
        split
        · exact ⟨h, .inl ⟨rfl, rfl⟩⟩
        · have := wp_fWrite hc h env key val (appendArgs ttl keyFlags)
          unfold appendArgs at this
          rw [hpop] at this
          refine Exec.wp_mono this ?_ fun _ _ h' => h'
          rintro b db' ⟨hg, hw⟩
          unfold appendArgs
          rw [hpop]
          exact ⟨hg, .inr (.inr hw)⟩
      · rename_i hget
        refine Exec.wp_mono (wp_appendNew hc h (rowOf_none hget)) ?_ fun _ _ h' => h'
        rintro b db' ⟨hg, hb, ha⟩
        exact ⟨hg, .inr (.inl ⟨hb, ha⟩)⟩

end Append

end JDb

end OmniJsonDb
