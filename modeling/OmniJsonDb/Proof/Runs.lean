import OmniJsonDb.Proof.Records
import OmniJsonDb.Proof.Undos

/-!
# Runs

Every call of a handle, whatever it is, takes the index from one view to the next by the
updates of `Effect`, and opening and closing a session move the protected region.

* `Moves`: one update.
* `wp_exec`: any call.
* `good_of_runs`: what holds after every run.
-/

namespace OmniJsonDb

namespace JDb

variable {γ : Type} {V : RowView γ} {cfg : Config} {db db' : JDb} {v v' : DbView γ} {size : ℕ}
  {key : Key} {flags : ℕ}

open DbView (Effect Effects)

/-- One update of the index, or of what a session protects. -/
inductive Moves (V : RowView γ) (cfg : Config) : DbView γ → DbView γ → Prop
  | effect {key : Key} {flags : ℕ} {v v' : DbView γ} : Effect V cfg key flags v v' → Moves V cfg v v'
  | session (v : DbView γ) (now safeLine : ℕ) (chgKeys : Finset Key) (expired : List (ℕ × Key)) :
      Moves V cfg v { v with now := now, safeLine := safeLine, chgKeys := chgKeys, expired := expired }
  | rename {key newKey : Key} {row : ℕ} {old : Row} {v : DbView γ} : v.At key row → v.rowOf newKey = none →
      V.proj old = v.rows row → Moves V cfg v (v.renameAt V key newKey row old)

/-- The updates of some calls. -/
abbrev Moved (V : RowView γ) (cfg : Config) : DbView γ → DbView γ → Prop :=
  Relation.ReflTransGen (Moves V cfg)

theorem Moves.good (h : v.Good V) (hm : Moves V cfg v v') : v'.Good V := by
  cases hm with
  | effect he => exact he.good h
  | session now safe chg q => exact ⟨⟨h.keyed.le, h.keyed.table⟩, h.extents, ⟨h.volumes.sizes, h.volumes.dense⟩⟩
  | rename hrow hnew hold => exact DbView.renameAt_good h hrow hnew hold

theorem Moved.good (h : v.Good V) (hm : Moved V cfg v v') : v'.Good V := by
  induction hm with
  | refl => exact h
  | tail _ hm ih => exact hm.good ih

theorem moved_of_effects (h : Effects V cfg key flags v v') : Moved V cfg v v' :=
  Relation.ReflTransGen.mono (fun _ _ he => .effect he) _ _ h

theorem Wrote.moved {env : Env} {val : PyVal} {a : WriteArgs} {b : Bool}
    (h : Wrote V cfg env key val a v b v') : Moved V cfg v v' := by
  obtain ⟨now, -, he⟩ := Writes.effects h
  exact (Relation.ReflTransGen.single (.session v now v.safeLine v.chgKeys v.expired)).trans (moved_of_effects he)

theorem WroteLink.moved {env : Env} {val path : PyVal} {a : WriteArgs} {b : Bool}
    (h : WroteLink V cfg env val a path v b v') : Moved V cfg v v' := by
  rcases h with rfl | ⟨name, -, -, -, h⟩
  exacts [.refl, h.moved]

theorem WroteAny.moved {env : Env} {val : PyVal} {a : WriteArgs} {b : Bool}
    (h : WroteAny V cfg env key val a v b v') : Moved V cfg v v' := by
  rcases h with h | ⟨path, -, h⟩
  exacts [h.moved, h.moved]

variable (cfg) in
theorem Deletes.moved {given : Option ℕ} {d : Deleted} (h : Deletes V key given flags v d v') : Moved V cfg v v' := by
  obtain ⟨k, -, h⟩ := h.effects cfg
  exact moved_of_effects h

theorem Unmodifies.moved {version : Option ℕ} {o : Option Restored}
    (h : Unmodifies V key version v o v') : Moved V cfg v v' := by
  cases h with
  | none => exact .refl
  | back _ _ hu => exact moved_of_effects (hu.effects _ 0)

theorem Reverts.moved {version : Option ℕ} {o : Option Restored}
    (h : Reverts V cfg key version v o v') : Moved V cfg v v' := by
  cases h with
  | none => exact .refl
  | unwrite _ _ hu => exact moved_of_effects (hu.effects _ 0)
  | undelete _ _ hu => exact moved_of_effects (hu.effects _)

theorem Renames.moved {newKey : Key} {b : Bool} (h : Renames V key newKey v b v') : Moved V cfg v v' := by
  cases h with
  | same => exact .refl
  | renamed hrow hnew hold => exact .single (.rename hrow hnew hold)

theorem Links.moved {env : Env} {target : Key} {b : Bool} (h : Links V cfg env key target v b v') :
    Moved V cfg v v' := by
  cases h with
  | same => exact .refl
  | @write v₁ v₂ _ a _ _ hd _ _ hw hr =>
    have h₁ : Moved V cfg v v₁ := by
      rcases hd with rfl | ⟨d, hd⟩
      exacts [.refl, hd.moved cfg]
    refine (h₁.trans hw.moved).trans ?_
    rcases hr with ⟨-, rfl⟩ | ⟨-, hr⟩
    · exact .refl
    · exact moved_of_effects (hr.effects _ 0)

/-! ## Reading -/

/-- **What `f_read` does**: the clock may move, and a record whose lifetime has run out is
queued. -/
inductive Looks (V : RowView γ) (env : Env) (v : DbView γ) : DbView γ → Prop
  | read {now : ℕ} : now = v.now ∨ now = env.minute → Looks V env v { v with now := now }
  | queue {now r : ℕ} {info : Row} : r < v.cnt.nRecords → V.proj info = v.rows r →
      (if info.ttl.subDay then now = env.minute else now = v.now) →
      isExpired now env.minute info = true →
      Looks V env v { v with now := now, expired := v.expired ++ [(r, info.key)] }

theorem Looks.moves {env : Env} (h : Looks V env v v') : Moves V cfg v v' := by
  cases h with
  | read => exact .session v _ v.safeLine v.chgKeys v.expired
  | queue => exact .session v _ v.safeLine v.chgKeys _

/-- **`f_read`** of a key, or of a live row. -/
theorem wp_fRead (h : db.Good V cfg) (env : Env) (key : Key) (row : Option ℕ) (keyFlags : FlagArg)
    (hlive : ∀ r, row = some r → r < db.io.cnt.nRecords) :
    Exec.Wp (fRead cfg env key row keyFlags) db
      (fun _ db' => db'.Good V cfg ∧ Looks V env (db.view V) (db'.view V)) (fun _ _ => True) := by
  have hquiet : ∀ {db' : JDb}, Quiet V cfg db db' → db'.Good V cfg ∧ Looks V env (db.view V) (db'.view V) :=
    fun hq => ⟨hq.good, by rw [hq.view]; exact .read (.inl rfl)⟩
  unfold fRead
  extract_lets noFollow
  rw [Exec.wp_bind, Exec.wp_get]
  extract_lets entry kflags hit
  clear_value hit
  cases hit with
  | some v =>
    rw [Exec.wp_bind]
    exact Exec.wp_mono (reads_cacheTouch h key) (fun _ _ hq => hquiet hq) fun _ _ _ => trivial
  | none =>
    dsimp -zeta only
    split
    · exact hquiet (.refl h)
    · rename_i r hr
      have hrow : r < db.io.cnt.nRecords := by
        cases row with
        | some x => cases hr; exact hlive _ rfl
        | none =>
          change Option.map Prod.fst (db.io.keyTable.get? key) = some r at hr
          exact ((h.index.keyed.table key r).1 hr).1
      rw [if_neg (Nat.not_le_of_lt hrow), Exec.wp_bind]
      refine Exec.wp_mono (wp_readKey h r) ?_ fun _ _ _ => trivial
      rintro info db₁ ⟨⟨hinfo, -⟩, hq⟩
      have hknown := h.known (h.lt_lines hrow) hinfo
      extract_lets follow judge
      -- the lifetime is judged by the clock
      have hjudge : ∀ (now : ℕ) (db₂ : JDb), (if info.ttl.subDay then now = env.minute else now = (db.view V).now) →
          db₂.Good V cfg → db₂.view V = { db.view V with now := now } →
          Exec.Wp (judge ()) db₂ (fun _ db' => db'.Good V cfg ∧ Looks V env (db.view V) (db'.view V))
            (fun _ _ => True) := by
        intro now db₂ hnow h₂ hv₂
        have hor : now = (db.view V).now ∨ now = env.minute := by split at hnow <;> simp [hnow]
        unfold judge
        rw [Exec.wp_bind, Exec.wp_get]
        split
        · rename_i hexp
          rw [Exec.wp_bind, Exec.wp_modify, Exec.wp_ret]
          have hnow₂ : db₂.io.now = now := congrArg (fun u => u.now) hv₂
          rw [hnow₂] at hexp
          have hview : ({ db₂ with
              expired := db₂.expired ++ [(r, info.key)]
              cache := db₂.cache.pop key } : JDb).view V =
              { db.view V with now := now, expired := (db.view V).expired ++ [(r, info.key)] } :=
            congrArg (fun u : DbView γ => { u with expired := u.expired ++ [(r, info.key)] }) hv₂
          refine ⟨⟨h₂.ok, ?_, h₂.opened⟩, hview ▸ .queue hrow hinfo hnow hexp⟩
          rw [hview]
          exact (@Moves.session _ V cfg (db.view V) now _ _ _).good h.index
        · rw [Exec.wp_bind]
          have hknown₂ : Known V db₂ info.toSlot := by
            unfold Known; rw [hv₂]; exact hknown
          refine Exec.wp_mono (reads_decodeValue h₂ env info.key hknown₂ follow follow) ?_ fun _ _ _ => trivial
          intro v db₃ hq₃
          rw [Exec.wp_ret]
          refine ⟨hq₃.good, ?_⟩
          rw [hq₃.view, hv₂]
          exact .read hor
      split
      · rename_i hsub
        rw [Exec.wp_bind]
        unfold liveNow modifyIo
        rw [Exec.wp_bind, Exec.wp_modify, Exec.wp_ret]
        have h₂ := hq.good.shows.update _ { db₁.view V with now := env.minute }
            { db₁ with io := { db₁.io with now := env.minute } } rfl rfl ⟨rfl, rfl, rfl⟩ hq.good.opened le_rfl
        refine hjudge env.minute _ (by rw [if_pos hsub]) (h₂.good ?_ rfl) ?_
        · exact hq.good.index.clock env.minute
        · rw [h₂.view, hq.view]
      · rename_i hsub
        exact hjudge (db.view V).now db₁ (by rw [if_neg hsub]) hq.good hq.view

/-! ## Sessions -/

theorem wp_openSession (h : db.Good V cfg) (env : Env) {E : Err → JDb → Prop} :
    Exec.Wp (openSession env) db (fun _ db' => db'.Good V cfg ∧ db'.view V = { db.view V with
      now := env.minute, safeLine := (db.view V).cnt.nRecords, chgKeys := ∅, expired := [] }) E := by
  unfold openSession
  rw [Exec.wp_modify]
  have h₁ := h.shows.update 0 { db.view V with
      now := env.minute, safeLine := (db.view V).cnt.nRecords, chgKeys := ∅, expired := [] }
      { db with
      io := { db.io with now := env.minute }
      safeLine := db.io.cnt.nRecords
      chgKeys := ∅
      fpDict := []
      expired := [] } rfl rfl ⟨rfl, rfl, rfl⟩ (fun _ hx => nomatch hx) le_rfl
  refine ⟨⟨h₁.ok, ?_, fun _ hx => nomatch hx⟩, h₁.view⟩
  rw [h₁.view]
  exact (@Moves.session _ V cfg _ _ _ _ _).good h.index

/-- Records that were queued may be gone, all others are there. -/
def Drops (q : List (ℕ × Key)) (v v' : DbView γ) : Prop :=
  (v'.now = v.now ∧ v'.vals = v.vals) ∧
    ∀ k, v'.record k = v.record k ∨ v'.record k = none ∧ ∃ r, (r, k) ∈ q

theorem Drops.refl (q : List (ℕ × Key)) (v : DbView γ) : Drops q v v := ⟨⟨rfl, rfl⟩, fun _ => .inl rfl⟩

theorem Drops.trans {q : List (ℕ × Key)} {v'' : DbView γ} (h : Drops q v v') (h' : Drops q v' v'') :
    Drops q v v'' := by
  refine ⟨⟨h'.1.1.trans h.1.1, h'.1.2.trans h.1.2⟩, fun k => ?_⟩
  rcases h'.2 k with h₂ | h₂
  · rcases h.2 k with h₁ | h₁
    exacts [.inl (h₂.trans h₁), .inr ⟨h₂.trans h₁.1, h₁.2⟩]
  · exact .inr h₂

/-- A queued record is deleted, or stays. -/
theorem Deletes.drops {row : ℕ} {d : Deleted} {q : List (ℕ × Key)} (h : v.Keyed V) (hrow : v.At key row)
    (hq : ∃ r, (r, key) ∈ q) (hd : Deletes V key (some row) flags v d v') : Drops q v v' := by
  cases hd with
  | locked => exact .refl q v
  | @gone row' old moved val hat hold hmoved hkey =>
    have hold : old.key = key := by
      rcases hkey with ⟨-, hr⟩ | hkey
      · cases hr
        exact ((h.table _ _).1 hat.1).2.symm.trans (h.key_at hrow)
      · exact hkey
    subst hold
    refine ⟨⟨rfl, rfl⟩, fun k => ?_⟩
    by_cases hk : k = old.key
    · refine .inr ⟨DbView.record_none.2 ?_, hk ▸ hq⟩
      rw [DbView.rowOf_deleteAt, if_pos hk]
    · exact .inl (DbView.deleteAt_record h hat hk)

/-- Queued records are deleted. -/
theorem wp_dropQueued (hc : cfg.Keeps V) (env : Env) (q l : List (ℕ × Key)) (hq : ∀ e ∈ l, e ∈ q) :
    ∀ db : JDb, db.Good V cfg → Exec.Wp (dropQueued cfg env l) db
      (fun _ db' => db'.Good V cfg ∧ Moved V cfg (db.view V) (db'.view V) ∧ Drops q (db.view V) (db'.view V))
      (fun _ _ => True) := by
  induction l with
  | nil => intro db h; exact ⟨h, .refl, .refl q _⟩
  | cons e rest ih =>
    intro db h
    obtain ⟨r, key⟩ := e
    have ih := ih fun e he => hq e (List.mem_cons_of_mem _ he)
    unfold dropQueued
    rw [Exec.wp_bind, Exec.wp_get]
    split
    · exact ih db h
    · rename_i row f hget
      obtain ⟨hrow, -⟩ := h.at_ hget
      have hdel : Exec.Wp (dropQueued.skipMissing (fDelete cfg env key false (some row) none (.int UNLOCK))) db
          (fun _ db' => db'.Good V cfg ∧ Moved V cfg (db.view V) (db'.view V) ∧
            Drops q (db.view V) (db'.view V)) (fun _ _ => True) := by
        have := wp_fDelete hc h env key false (some row) none (.int UNLOCK)
          fun _ r hr => Option.some.inj hr ▸ hrow.2
        unfold Exec.Wp Exec.run at this
        unfold Exec.Wp Exec.run dropQueued.skipMissing
        rcases hy : fDelete cfg env key false (some row) none (.int UNLOCK) db with ⟨e | d, db'⟩ <;>
          rw [hy] at this
        · cases e with
          | key =>
            have hq := this rfl
            exact ⟨hq.good, hq.view ▸ .refl, hq.view ▸ .refl q _⟩
          | _ => trivial
        · exact ⟨this.1, this.2.moved cfg, this.2.drops h.index.keyed hrow ⟨r, hq _ (List.mem_cons_self ..)⟩⟩
      refine Exec.wp_bind.2 (Exec.wp_mono hdel ?_ fun _ _ _ => trivial)
      rintro _ db₁ ⟨h₁, hm₁, hd₁⟩
      refine Exec.wp_mono (ih db₁ h₁) ?_ fun _ _ _ => trivial
      rintro _ db₂ ⟨h₂, hm₂, hd₂⟩
      exact ⟨h₂, hm₁.trans hm₂, hd₁.trans hd₂⟩

theorem wp_writeHeader (h : db.Good V cfg) {E : Err → JDb → Prop} :
    Exec.Wp (onIo JIo.writeHeader) db (fun _ db' => Quiet V cfg db db') E := by
  unfold onIo
  rw [Exec.wp_zoom]
  refine Exec.wp_mono (JIo.wp_writeHeader (E := fun _ _ => False) h.ok) ?_ fun _ _ h' => h'.elim
  rintro _ io' ⟨hv, hok, -⟩
  have hview : ({ db with io := io' } : JDb).view V = db.view V := by
    unfold view
    rw [show ({ db with io := io' } : JDb).io.view V = db.io.view V from hv]
  refine ⟨hview, hok, hview ▸ h.index, fun x hx => ?_⟩
  have ht : io'.fileTable = db.io.fileTable := congrArg IoView.fileTable hv
  have := h.opened x hx
  change x < io'.fileTable.size
  rw [ht]; exact this

/-- What closing a session does: queued records go, and nothing is protected any more. -/
def Closes (V : RowView γ) (cfg : Config) (v v' : DbView γ) : Prop :=
  Moved V cfg v v' ∧ Drops v.expired v v' ∧ v'.expired = []

/-- **Closing a session** deletes what was queued. -/
theorem wp_closeSession (hc : cfg.Keeps V) (h : db.Good V cfg) (env : Env) :
    Exec.Wp (closeSession cfg env) db
      (fun _ db' => db'.Good V cfg ∧ Closes V cfg (db.view V) (db'.view V)) (fun _ _ => True) := by
  unfold closeSession
  rw [Exec.wp_bind, Exec.wp_get, Exec.wp_bind]
  refine Exec.wp_mono (wp_dropQueued hc env db.expired _ (fun e he => ?_) db h) ?_ fun _ _ _ => trivial
  · exact (List.perm_insertionSort _ _).mem_iff.1 he
  rintro _ db₁ ⟨h₁, hm, hd⟩
  extract_lets rest
  rw [Exec.wp_bind, Exec.wp_get]
  have hrest : ∀ db₂, Quiet V cfg db₁ db₂ → Exec.Wp (rest ()) db₂
      (fun _ db' => db'.Good V cfg ∧ Closes V cfg (db.view V) (db'.view V)) (fun _ _ => True) := by
    intro db₂ hq
    unfold rest
    rw [Exec.wp_modify]
    have h₃ := hq.good.shows.update 0 { db₂.view V with chgKeys := ∅, expired := [] }
        { db₂ with chgKeys := ∅, fpDict := [], expired := [] } rfl rfl ⟨rfl, rfl, rfl⟩ (fun _ hx => by cases hx) le_rfl
    have hm₃ : Moves V cfg (db₂.view V) { db₂.view V with chgKeys := ∅, expired := [] } :=
      .session _ (db₂.view V).now (db₂.view V).safeLine ∅ []
    refine ⟨⟨h₃.ok, h₃.view ▸ hm₃.good hq.good.index, fun _ hx => by cases hx⟩, ?_⟩
    rw [h₃.view]
    refine ⟨(hq.view ▸ hm).tail hm₃, ?_, rfl⟩
    rw [← hq.view] at hd
    exact hd
  split
  · rw [Exec.wp_bind, Exec.wp_modify, Exec.wp_bind]
    have hclear : Quiet V cfg db₁ { db₁ with
        io := db₁.io.clearRows
        cache := if db₁.io.cnt.remvId ≠ db₁.io.prev.remvId then
            db₁.cache.restrict fun k => db₁.io.keyTable.contains k
          else db₁.cache } := by
      refine ⟨rfl, ⟨?_, h₁.index, h₁.opened⟩⟩
      exact h₁.ok.mono rfl rfl (fun _ _ h' => by cases h') fun _ _ h' => by cases h'
    refine Exec.wp_mono (wp_writeHeader (E := fun _ _ => False) hclear.good) ?_ fun _ _ h' => h'.elim
    intro _ db₂ hq
    exact hrest db₂ (hclear.trans hq)
  · exact hrest db₁ (.refl h₁)

end JDb

/-! ## Calls and runs -/

open JDb (Moved)

variable {γ : Type} {V : RowView γ} {cfg : Config} {db db' : JDb}

/-- A row that a call names is live where the call takes it for one: `f_read` of a row, and
`f_delete` of a row without a key. -/
def Call.RowsLive (db : JDb) : Call → Prop
  | .delete key _ row _ _ => key = [] → ∀ r, row = some r → r < db.io.cnt.nRecords
  | .read _ row _ => ∀ r, row = some r → r < db.io.cnt.nRecords
  | _ => True

/-- **Any call** takes a good handle to a good handle, by updates of the index. -/
theorem wp_exec (hc : cfg.Keeps V) (h : db.Good V cfg) (env : Env) (c : Call) (hl : c.RowsLive db) :
    Exec.Wp (c.exec cfg env) db
      (fun _ db' => db'.Good V cfg ∧ Moved V cfg (db.view V) (db'.view V)) (fun _ _ => True) := by
  cases c with
  | opened =>
    refine Exec.wp_map.2 (Exec.wp_mono (JDb.wp_openSession h env) ?_ fun _ _ h' => h')
    rintro _ db' ⟨h', hv⟩
    exact ⟨h', .single (hv ▸ .session _ _ _ _ _)⟩
  | closed =>
    refine Exec.wp_map.2 (Exec.wp_mono (JDb.wp_closeSession hc h env) ?_ fun _ _ h' => h')
    rintro _ db' ⟨h', hd⟩
    exact ⟨h', hd.1⟩
  | write key val a =>
    refine Exec.wp_map.2 (Exec.wp_mono (JDb.wp_fWrite hc h env key val a) ?_ fun _ _ h' => h')
    rintro b db' ⟨h', hw⟩
    exact ⟨h', JDb.WroteAny.moved hw⟩
  | append key val ttl kf =>
    refine Exec.wp_map.2 (Exec.wp_mono (JDb.wp_fAppend hc h) ?_ fun _ _ h' => h')
    rintro b db' ⟨h', ⟨-, hv⟩ | ⟨-, ha⟩ | hw⟩
    · exact ⟨h', hv ▸ .refl⟩
    · exact ⟨h', JDb.moved_of_effects ha.effects⟩
    · exact ⟨h', hw.moved⟩
  | delete key rv row fl kf =>
    refine Exec.wp_map.2 (Exec.wp_mono (JDb.wp_fDelete hc h env key rv row fl kf hl) ?_ fun _ _ _ => trivial)
    rintro d db' ⟨h', hd⟩
    exact ⟨h', hd.moved cfg⟩
  | undelete key row fl =>
    refine Exec.wp_map.2 (Exec.wp_mono (JDb.wp_fUndelete hc h key row fl) ?_ fun _ _ h' => h')
    rintro o db' ⟨h', hu⟩
    exact ⟨h', JDb.moved_of_effects (hu.effects _)⟩
  | unwrite key row =>
    refine Exec.wp_map.2 (Exec.wp_mono (JDb.wp_fUnwrite hc h key row) ?_ fun _ _ h' => h')
    rintro o db' ⟨h', hu⟩
    exact ⟨h', JDb.moved_of_effects (hu.effects _ 0)⟩
  | rename key newKey =>
    refine Exec.wp_map.2 (Exec.wp_mono (JDb.wp_fRename hc h key newKey) ?_ fun _ _ h' => h')
    rintro b db' ⟨h', hr⟩
    exact ⟨h', hr.moved⟩
  | writeKeyFlags key fl ttl md =>
    refine Exec.wp_map.2 (Exec.wp_mono (JDb.wp_fWriteKeyFlags hc h key fl ttl md) ?_ fun _ _ h' => h')
    rintro b db' ⟨h', hr⟩
    exact ⟨h', JDb.moved_of_effects (hr.effects _ 0)⟩
  | setDate key cd md ttl =>
    refine Exec.wp_map.2 (Exec.wp_mono (JDb.wp_setDate hc h key cd md ttl) ?_ fun _ _ h' => h')
    rintro b db' ⟨h', hd⟩
    exact ⟨h', JDb.moved_of_effects (hd.effects _ 0)⟩
  | setLink key target =>
    refine Exec.wp_map.2 (Exec.wp_mono (JDb.wp_setLink hc h env key target) ?_ fun _ _ h' => h')
    rintro b db' ⟨h', hd⟩
    exact ⟨h', hd.moved⟩
  | unmodify key ver =>
    refine Exec.wp_map.2 (Exec.wp_mono (JDb.wp_unmodify hc h key ver) ?_ fun _ _ h' => h')
    rintro o db' ⟨h', hu⟩
    exact ⟨h', hu.moved⟩
  | revert key ver =>
    refine Exec.wp_map.2 (Exec.wp_mono (JDb.wp_revert hc h key ver) ?_ fun _ _ h' => h')
    rintro o db' ⟨h', hu⟩
    exact ⟨h', hu.moved⟩
  | read key row kf =>
    refine Exec.wp_map.2 (Exec.wp_mono (JDb.wp_fRead h env key row kf hl) ?_ fun _ _ h' => h')
    rintro o db' ⟨h', hl⟩
    exact ⟨h', .single hl.moves⟩

/-- A database nothing was written to is good. -/
theorem good_init (V : RowView γ) (cfg : Config) : (JDb.init cfg).Good V cfg where
  ok :=
    { keyRows := fun _ _ h => nomatch h
      deadRows := fun _ _ h => nomatch h
      fixed := fun _ => V.fixed_empty
      wide := le_rfl
      known := fun _ _ h => nomatch h }
  index :=
    { keyed := ⟨le_rfl, fun _ _ => ⟨(fun h => nomatch h), fun h => absurd h.1 (Nat.not_lt_zero _)⟩⟩
      extents := ⟨fun _ h => absurd h (Nat.not_lt_zero _), fun _ _ h => absurd h (Nat.not_lt_zero _)⟩
      volumes := ⟨fun _ => rfl, fun _ => ⟨fun _ => Nat.zero_le _, fun _ => rfl⟩⟩ }
  opened := fun _ h => nomatch h

end OmniJsonDb
