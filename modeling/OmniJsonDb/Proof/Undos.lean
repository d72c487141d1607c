import OmniJsonDb.Proof.Writes
import OmniJsonDb.Model.Undo

/-!
# What deleting, undoing and renaming do

The calls that move records in and out of the live rows, as updates of a view.

* `Deletes`, `wp_fDelete`.
* `Undeletes`, `wp_fUndelete`; `Unwrites`, `wp_fUnwrite`.
* `Renames`, `wp_fRename`; `wp_setDate`, `wp_setLink`.
* `wp_unmodify`, `wp_revert`: which row they hand to an undo.
-/

namespace OmniJsonDb

namespace JDb

variable {γ : Type} {V : RowView γ} {cfg : Config} {db db' : JDb} {v v' : DbView γ} {size : ℕ}
  {key : Key} {flags : ℕ}

open DbView (Effect Effects)

/-! ## Deleting -/

/-- **What `f_delete` does.** An empty key stands for that of the row given. -/
inductive Deletes (V : RowView γ) (key : Key) (given : Option ℕ) (flags : ℕ) (v : DbView γ) :
    Deleted → DbView γ → Prop
  | locked : Deletes V key given flags v .locked v
  | gone {row : ℕ} {old moved : Row} (val : Option PyVal) : v.At old.key row → V.proj old = v.rows row →
      V.proj moved = v.rows (v.cnt.nRecords - 1) → key = [] ∧ given = some row ∨ old.key = key →
      Deletes V key given flags v (.gone val) (v.deleteAt V old.key row old flags moved.flags)

theorem wp_tablePop (h : Shows V cfg size v db) (key : Key) {E : Err → JDb → Prop} :
    Exec.Wp (modifyIo fun io => io.tablePop key) db
      (fun _ db' => Shows V cfg size { v with keyTable := v.keyTable.pop key } db') E := by
  unfold modifyIo
  rw [Exec.wp_modify]
  exact h.modify (by rw [← h.view]; rfl) rfl ⟨rfl, rfl, rfl⟩ h.opened le_rfl

/-- The index with one record less, before its counters say so. -/
def taking (v : DbView γ) (rows : ℕ → γ) (table : OrdDict Key (ℕ × ℕ)) : DbView γ :=
  { v with
    rows := rows
    cnt := { v.cnt with nRecords := v.cnt.nRecords - 1 }
    keyTable := table }

/-- The index with one record less; `swap` tells that another record filled its place. -/
def taken (v : DbView γ) (rows : ℕ → γ) (table : OrdDict Key (ℕ × ℕ)) (swap : Bool) : DbView γ :=
  { v with
    rows := rows
    cnt := { v.cnt with
      nRecords := v.cnt.nRecords - 1
      swapId := if swap = true then bump v.cnt.swapId else v.cnt.swapId
      syncId := bump v.cnt.syncId
      remvId := bump v.cnt.remvId }
    keyTable := table }

/-- The row the deleted version goes to. -/
def tailRow (v : DbView γ) (key : Key) (flags : ℕ) : ℕ :=
  if v.toTail key flags then v.safeEnd - 1 else v.cnt.nRecords - 1

/-- The tail of the safe region makes room. -/
def tailRoom (v : DbView γ) (key : Key) (flags : ℕ) (rows : ℕ → γ) : ℕ → γ :=
  if v.toTail key flags then Function.update rows (v.cnt.nRecords - 1) (rows (v.safeEnd - 1)) else rows

theorem deleteAt_moved {row : ℕ} {old : Row} {kf : ℕ} (h : row < v.cnt.nRecords - 1) :
    v.deleteAt V key row old flags kf = taken v
      (Function.update (tailRoom v key flags (Function.update v.rows row (v.rows (v.cnt.nRecords - 1))))
        (tailRow v key flags) (v.new V (parked key old)))
      (((v.keyTable.pop key).set (v.slot V (v.cnt.nRecords - 1)).key (row, kf &&& KEY_FLAG_MASK)).pop key)
      true := by
  unfold DbView.deleteAt
  simp only [if_pos h]
  rfl

theorem deleteAt_last {row : ℕ} {old : Row} {kf : ℕ} (h : ¬ row < v.cnt.nRecords - 1) :
    v.deleteAt V key row old flags kf = taken v
      (Function.update (tailRoom v key flags v.rows) (tailRow v key flags) (v.new V (parked key old)))
      (v.keyTable.pop key) false := by
  unfold DbView.deleteAt
  simp only [if_neg h]
  rfl

/-- **The row copies of a deletion.** -/
theorem wp_removeRow (hc : cfg.Keeps V) (h : db.Good V cfg) {row : ℕ} {old : Row}
    (hrow : (db.view V).At old.key row) (hold : V.proj old = (db.view V).rows row) (flags : ℕ) :
    Exec.Wp (fDelete.removeRow cfg old.key row old flags) db
      (fun _ db' => db'.Good V cfg ∧ ∃ moved, V.proj moved = (db.view V).rows ((db.view V).cnt.nRecords - 1) ∧
        db'.view V = (db.view V).deleteAt V old.key row old flags moved.flags) (fun e _ => e ≠ .key) := by
  have hle : db.io.cnt.nRecords ≤ db.io.cnt.nLines := h.index.keyed.le
  have hlt : row < db.io.cnt.nRecords := hrow.2
  unfold fDelete.removeRow
  rw [Exec.wp_bind, Exec.wp_get]
  extract_lets n deadH recT tail popKey rest
  unfold modifyIo
  rw [Exec.wp_bind, Exec.wp_modify]
  have h₁ : Shows V cfg (db.view V).fileTable.size
      (taking (db.view V) (db.view V).rows (db.view V).keyTable)
      { db with io := { db.io with
        groups := db.io.groups.pop old.key
        cnt := { db.io.cnt with nRecords := recT } } } :=
    h.shows.modify rfl rfl ⟨rfl, rfl, rfl⟩ h.opened (max_le (le_max_of_le_right hle) (le_max_right _ _))
  have htail : tail = true ↔ (db.view V).toTail old.key flags := by
    have hsafe : (db.view V).cnt.nRecords ≤ (db.view V).safeEnd := (DbView.le_safeEnd h.index.keyed.le).1
    have hne : deadH - 1 ≠ recT ↔ (db.view V).safeEnd ≠ (db.view V).cnt.nRecords := by
      change (db.view V).safeEnd - 1 ≠ (db.view V).cnt.nRecords - 1 ↔ _
      have : row < (db.view V).cnt.nRecords := hlt
      omega
    simp only [tail, Bool.and_eq_true, decide_eq_true_eq, hne, DbView.toTail, and_assoc]
    rfl
  -- what is left once the row that fills the place was moved
  have finish : ∀ (moved : Option Row) (rows₁ : ℕ → γ) (table₁ : OrdDict Key (ℕ × ℕ)) (db₁ : JDb),
      Shows V cfg (db.view V).fileTable.size (taking (db.view V) rows₁ table₁) db₁ →
      Exec.Wp (rest moved) db₁ (fun _ db' => Shows V cfg (db.view V).fileTable.size (taken (db.view V)
        (Function.update (tailRoom (db.view V) old.key flags rows₁) (tailRow (db.view V) old.key flags)
          ((db.view V).new V (parked old.key old)))
        ((moved.elim table₁ fun r => table₁.set r.key (row, r.flags &&& KEY_FLAG_MASK)).pop old.key) moved.isSome) db') (fun e _ => e ≠ .key) := by
    intro moved rows₁ table₁ db₁ h₁
    unfold rest
    extract_lets park
    have parks : ∀ db₂ : JDb, Shows V cfg (db.view V).fileTable.size
        (taking (db.view V) (tailRoom (db.view V) old.key flags rows₁) table₁) db₂ →
        Exec.Wp (park ()) db₂ (fun _ db' => Shows V cfg (db.view V).fileTable.size (taken (db.view V)
          (Function.update (tailRoom (db.view V) old.key flags rows₁) (tailRow (db.view V) old.key flags)
            ((db.view V).new V (parked old.key old)))
          ((moved.elim table₁ fun r => table₁.set r.key (row, r.flags &&& KEY_FLAG_MASK)).pop old.key) moved.isSome) db') (fun e _ => e ≠ .key) := by
      intro db₂ h₂
      unfold park
      rw [Exec.wp_bind, if_congr htail rfl rfl]
      refine Exec.wp_mono (wp_writeKey hc h₂ _ _) ?_ fun _ _ h' => h'
      rintro _ db₃ ⟨h₃, -⟩
      unfold modifyIo
      rw [Exec.wp_bind, Exec.wp_modify]
      have h₄ := h₃.update _ (taken (db.view V)
          (Function.update (tailRoom (db.view V) old.key flags rows₁) (tailRow (db.view V) old.key flags)
            ((db.view V).new V (parked old.key old))) table₁ moved.isSome)
          { db₃ with io := { db₃.io with cnt := { db₃.io.cnt with
            swapId := if moved.isSome = true then bump db.io.cnt.swapId else db.io.cnt.swapId
            syncId := bump db₃.io.cnt.syncId
            remvId := bump db₃.io.cnt.remvId } } } ?_ rfl ⟨rfl, rfl, rfl⟩ h₃.opened le_rfl
      · cases moved with
        | none => exact wp_tablePop h₄ _
        | some r =>
          dsimp only
          rw [Exec.wp_bind]
          refine Exec.wp_mono (wp_tableSet (E := fun _ _ => False) h₄ r.key row r.flags) ?_ fun _ _ h' => h'.elim
          intro _ db₅ h₅
          exact wp_tablePop h₅ _
      · have hview : ∀ u : DbView γ, db₃.view V = u → ({ db₃ with io := { db₃.io with cnt := { db₃.io.cnt with
            swapId := if moved.isSome = true then bump db.io.cnt.swapId else db.io.cnt.swapId
            syncId := bump db₃.io.cnt.syncId
            remvId := bump db₃.io.cnt.remvId } } } : JDb).view V = { u with cnt := { u.cnt with
              swapId := if moved.isSome = true then bump db.io.cnt.swapId else db.io.cnt.swapId
              syncId := bump u.cnt.syncId
              remvId := bump u.cnt.remvId } } := by rintro u rfl; rfl
        rw [hview _ h₃.view]
        rfl
    split
    · rename_i ht
      rw [Exec.wp_bind]
      refine Exec.wp_mono (wp_copyKey (E := fun _ _ => False) h₁ (deadH - 1) recT) ?_ fun _ _ h' => h'.elim
      rintro _ db₂ ⟨-, h₂⟩
      refine parks db₂ ?_
      unfold tailRoom
      rw [if_pos (htail.1 ht)]
      exact h₂
    · rename_i ht
      refine parks db₁ ?_
      unfold tailRoom
      rw [if_neg (mt htail.2 ht)]
      exact h₁
  have done : ∀ (db' : JDb) {w : DbView γ} (moved : Row),
      V.proj moved = (db.view V).rows ((db.view V).cnt.nRecords - 1) →
      Shows V cfg (db.view V).fileTable.size w db' →
      w = (db.view V).deleteAt V old.key row old flags moved.flags →
      db'.Good V cfg ∧ ∃ moved, V.proj moved = (db.view V).rows ((db.view V).cnt.nRecords - 1) ∧
        db'.view V = (db.view V).deleteAt V old.key row old flags moved.flags := by
    rintro db' w moved hmoved h' rfl
    exact ⟨h'.good ((@Effect.delete _ V cfg _ _ _ _ _ _ hrow hold).good h.index) rfl, moved, hmoved, h'.view⟩
  split
  · rename_i hmove
    rw [Exec.wp_bind]
    refine Exec.wp_mono (wp_tablePop (E := fun _ _ => False) h₁ old.key) ?_ fun _ _ h' => h'.elim
    intro _ db₂ h₂
    rw [Exec.wp_bind]
    refine Exec.wp_mono (wp_copyKey (E := fun _ _ => False) h₂ recT row) ?_ fun _ _ h' => h'.elim
    rintro r db₃ ⟨hr, h₃⟩
    rw [Exec.wp_bind, Exec.wp_ret]
    refine Exec.wp_mono (finish (some r) _ _ db₃ h₃) ?_ fun _ _ h' => h'
    intro _ db₄ h₄
    have hslot : r.key = ((db.view V).slot V ((db.view V).cnt.nRecords - 1)).key :=
      (congrArg Slot.key (@DbView.slot_eq _ V (db.view V) _ r hr)).symm
    refine done db₄ r hr h₄ ?_
    rw [deleteAt_moved hmove, ← hslot]
    rfl
  · rename_i hmove
    rw [Exec.wp_bind, Exec.wp_ret]
    refine Exec.wp_mono (finish none _ _ _ h₁) ?_ fun _ _ h' => h'
    intro _ db₄ h₄
    have hlast : row = (db.view V).cnt.nRecords - 1 := by
      change row = recT
      change ¬ row < db.io.cnt.nRecords - 1 at hmove
      change row = db.io.cnt.nRecords - 1
      omega
    refine done db₄ old (hlast ▸ hold) h₄ ?_
    rw [deleteAt_last hmove]
    rfl

/-- **`f_delete`**, of a key or of a live row. -/
theorem wp_fDelete (hc : cfg.Keeps V) (h : db.Good V cfg) (env : Env) (key : Key) (readValue : Bool)
    (row flags : Option ℕ) (keyFlags : FlagArg)
    (hlive : key = [] → ∀ r, row = some r → r < db.io.cnt.nRecords) :
    Exec.Wp (fDelete cfg env key readValue row flags keyFlags) db
      (fun d db' => db'.Good V cfg ∧
        Deletes V key row (flags.getD cfg.flags) (db.view V) d (db'.view V))
      (fun e db' => e = .key → Quiet V cfg db db') := by
  unfold fDelete
  rw [Exec.wp_bind]
  refine Exec.wp_mono (reads_cachePop h key) ?_ fun _ _ h' _ => h'
  intro _ db₁ hq₁
  rw [Exec.wp_bind, Exec.wp_get]
  extract_lets rest
  -- from the row on
  have found : ∀ r, r < (db.view V).cnt.nRecords →
      (key = [] ∧ row = some r ∨ ((db.view V).slot V r).key = key) →
      Exec.Wp (rest r) db₁ (fun d db' => db'.Good V cfg ∧
        Deletes V key row (flags.getD cfg.flags) (db.view V) d (db'.view V))
        (fun e db' => e = .key → Quiet V cfg db db') := by
    intro r hr hkey
    unfold rest
    split
    rename_i transient kf hpop
    rw [Exec.wp_bind]
    refine Exec.wp_mono (wp_readKey hq₁.good r) ?_ fun _ _ h' _ => hq₁.trans h'.2.2
    rintro old db₂ ⟨⟨hold, -⟩, hq₂⟩
    rw [hq₁.view] at hold
    have hq := hq₁.trans hq₂
    have hslot := DbView.slot_eq hold
    have hold_at : (db.view V).At old.key r := by
      refine ⟨(h.index.keyed.table _ _).2 ⟨hr, ?_⟩, hr⟩
      rw [hslot]
    split
    · exact ⟨hq.good, hq.view ▸ .locked⟩
    · split
      · exact fun _ => hq
      · rename_i hsame
        extract_lets key' remove
        rw [Exec.wp_bind, Exec.wp_get]
        extract_lets isGroup

        have hknown := (h.known (h.lt_lines hr) hold).quiet hq
        have finish : ∀ (val : Option PyVal) (db₃ : JDb), Quiet V cfg db db₃ → Exec.Wp (remove val) db₃
            (fun d db' => db'.Good V cfg ∧
              Deletes V key row (flags.getD cfg.flags) (db.view V) d (db'.view V))
            (fun e db' => e = .key → Quiet V cfg db db') := by
          intro val db₃ hq₃
          unfold remove
          rw [Exec.wp_bind]
          have hrem := @wp_removeRow _ _ _ _ hc hq₃.good r old (by rw [hq₃.view]; exact hold_at)
            (by rw [hq₃.view]; exact hold) (flags.getD cfg.flags)
          rw [hq₃.view] at hrem
          refine Exec.wp_mono hrem ?_ fun _ _ h' e => absurd e h'
          rintro _ db₄ ⟨hg, moved, hmoved, hv⟩
          rw [Exec.wp_ret]
          rw [hslot] at hkey
          exact ⟨hg, hv ▸ .gone val hold_at hold hmoved hkey⟩
        split
        · rw [Exec.wp_bind]
          refine Exec.wp_mono (reads_decodeValue hq.good env old.key hknown false false) ?_
            fun _ _ h' _ => hq.trans h'
          intro val db₃ hq₃
          rw [Exec.wp_bind, Exec.wp_ret]
          exact finish _ db₃ (hq.trans hq₃)
        · rw [Exec.wp_bind, Exec.wp_ret]
          exact finish none db₂ hq
  split
  · rename_i r
    rw [Exec.wp_bind, Exec.wp_ret]
    exact found r (hlive rfl r rfl) (.inl ⟨rfl, rfl⟩)
  · split
    · rename_i r f hget
      rw [Exec.wp_bind, Exec.wp_ret]
      obtain ⟨hrow, -⟩ := hq₁.good.at_ hget
      rw [hq₁.view] at hrow
      exact found r hrow.2 (.inr (h.index.keyed.key_at hrow))
    · exact fun _ => hq₁

variable (cfg) in
theorem Deletes.effects {given : Option ℕ} {d : Deleted} (hd : Deletes V key given flags v d v') :
    ∃ k, (k = key ∨ key = []) ∧ Effects V cfg k flags v v' := by
  cases hd with
  | locked => exact ⟨key, .inl rfl, .refl⟩
  | gone val hrow hold hmoved hkey => exact ⟨_, hkey.symm.imp id And.left, .single (.delete hrow hold)⟩

/-! ## Undoing -/

/-- Nothing is undone: there is no key, or the row that was given is not a parked one of it. -/
def NoUndo (V : RowView γ) (key : Key) (row : Option ℕ) (v : DbView γ) : Prop :=
  key = [] ∨ row = none ∨ ∃ x, row = some x ∧ (x < v.cnt.nRecords ∨ (v.slot V x).key ≠ key)

/-- The search for a row stops at the first one that holds the key. -/
theorem findRow_first {io : JIo} {start stop d : ℕ} {info : Row}
    (h : findRow io key start stop = some (d, info)) {e : ℕ} (he : start ≤ e) (hed : e < d) :
    (unpackRow (io.files.rows e)).key ≠ key := by
  unfold findRow JIo.keyIter at h
  split at h
  · cases h
  rw [List.find?_map, Option.map_eq_some_iff] at h
  obtain ⟨x, hx, hd⟩ := h
  obtain rfl : x = d := congrArg Prod.fst hd
  rw [List.find?_range'_eq_some] at hx
  have := hx.2.2 e he hed
  simpa using this

/-- Row `d` is the one an undo of `key` is about: the row that was given, or the first parked one. -/
def UndoOf (V : RowView γ) (key : Key) (row : Option ℕ) (v : DbView γ) (d : ℕ) : Prop :=
  match row with
  | some r => d = r
  | none => v.cnt.nRecords ≤ d ∧ ∀ e, v.cnt.nRecords ≤ e → e < d → (v.slot V e).key ≠ key

/-- The row an undo is about holds the key; it is the one that was given, or a parked one. -/
theorem wp_undoRow (h : db.Good V cfg) (key : Key) (row : Option ℕ) :
    Exec.Wp (undoRow key row) db
      (fun o db' => Quiet V cfg db db' ∧ (o = none → NoUndo V key row (db.view V)) ∧
        ∀ d info, o = some (d, info) →
          V.proj info = (db.view V).rows d ∧ d < (db.view V).cnt.nLines ∧ info.key = key ∧
            UndoOf V key row (db.view V) d)
      (fun _ db' => Quiet V cfg db db') := by
  unfold undoRow
  split
  · rename_i r
    rw [Exec.wp_bind]
    refine Exec.wp_mono (wp_readKey h r) ?_ fun _ _ h' => h'.2.2
    rintro info db₁ ⟨⟨hinfo, hlt⟩, hq⟩
    rw [Exec.wp_ret]
    refine ⟨hq, fun hn => ?_, fun d info' he => ?_⟩
    · split at hn
      · cases hn
      · refine .inr (.inr ⟨r, rfl, .inr ?_⟩)
        rw [DbView.slot_eq hinfo]
        assumption
    · split at he
      · cases he
        exact ⟨hinfo, hlt, ‹_›, rfl⟩
      · cases he
  · rw [Exec.wp_bind, Exec.wp_get, Exec.wp_ret]
    refine ⟨.refl h, fun _ => .inr (.inl rfl), fun d info he => ?_⟩
    have hfirst := fun e => @findRow_first _ _ _ _ _ _ he e
    unfold findRow at he
    have hkey := List.find?_some he
    obtain ⟨h₁, h₂, h₃⟩ := mem_keyIter (List.mem_of_find?_eq_some he)
    refine ⟨?_, h₂, of_decide_eq_true hkey, h₁, fun e he hed => ?_⟩
    · rw [h₃]
      rfl
    · have := hfirst e he hed
      change (V.slot (V.proj _)).key ≠ key
      rwa [V.slot_proj]

/-- The flags an undone row gets. -/
def undoFlags (info : Row) (user : ℕ) : ℕ :=
  user ||| (if info.fileId = 0x10 ∧ info.rowSize = 0 then GROUP else 0)

theorem wp_undoGroup (h : Shows V cfg size v db) (key : Key) (info : Row) {E : Err → JDb → Prop} :
    Exec.Wp (undoGroup key info.toCore) db (fun b db' => Shows V cfg size v db' ∧
      ∀ user, user ||| (if b = true then GROUP else 0) = undoFlags info user) E := by
  unfold undoGroup modifyIo undoFlags
  split
  · rw [Exec.wp_bind, Exec.wp_modify, Exec.wp_ret]
    exact ⟨h.modify h.view rfl ⟨rfl, rfl, rfl⟩ h.opened le_rfl, fun _ => rfl⟩
  · rw [Exec.wp_bind, Exec.wp_modify, Exec.wp_ret]
    exact ⟨h.modify h.view rfl ⟨rfl, rfl, rfl⟩ h.opened le_rfl, fun _ => rfl⟩

/-- What an undo returns for the row `info` that is live at `r` again. -/
def restored (r : ℕ) (info : Row) : Restored := (r, info.fileId, info.offset, info.rowSize, info.valSize)

/-- **What `f_undelete` does.** -/
inductive Undeletes (V : RowView γ) (key : Key) (row : Option ℕ) (flags : ℕ) (v : DbView γ) :
    Option Restored → DbView γ → Prop
  | none : NoUndo V key row v ∨ v.rowOf key ≠ Option.none → Undeletes V key row flags v none v
  | back {d : ℕ} {info : Row} : key ≠ [] → v.rowOf key = none → v.cnt.nRecords ≤ d → d < v.cnt.nLines →
      V.proj info = v.rows d → info.key = key → UndoOf V key row v d →
      Undeletes V key row flags v (some (restored v.cnt.nRecords info))
        ((v.undeleteRoom key flags d).undeleteAt V key info (undoFlags info (info.flags &&& USER_FLAG_MASK)))

variable (cfg) in
theorem Undeletes.effects {row : Option ℕ} {o : Option Restored} (h : Undeletes V key row flags v o v') :
    Effects V cfg key flags v v' := by
  cases h with
  | none => exact .refl
  | back _ hnew hd hlt hinfo hkey _ => exact .single (.undelete hnew hd hlt hinfo hkey)

theorem contains_iff_rowOf : db.io.keyTable.contains key = true ↔ (db.view V).rowOf key ≠ none := by
  change (db.io.keyTable.get? key).isSome = true ↔ Option.map Prod.fst (db.io.keyTable.get? key) ≠ none
  cases db.io.keyTable.get? key <;> simp

/-- A record is put at the end of the live rows, once they made room. -/
theorem wp_undeleteAt (hc : cfg.Keeps V) (h : Shows V cfg size v db) (key : Key) (info : Row) (kf : ℕ)
    {n : ℕ} (hn : n = v.cnt.nRecords) :
    Exec.Wp (do
      let _ ← onIo (JIo.writeKey cfg n { info.args with key := key, ver := none, flags := kf })
      modifyIo fun io => { io with cnt := { io.cnt with
        nRecords := io.cnt.nRecords + 1
        syncId := bump io.cnt.syncId } }
      modifyIo fun io => io.tableSet key n kf
      pure (some (n, info.fileId, info.offset, info.rowSize, info.valSize)) : DbM (Option Restored)) db
      (fun o db' => o = some (restored n info) ∧ Shows V cfg size (v.undeleteAt V key info kf) db')
      (fun _ _ => True) := by
  subst hn
  rw [Exec.wp_bind]
  refine Exec.wp_mono (wp_writeKey hc h _ _) ?_ fun _ _ _ => trivial
  rintro _ db₁ ⟨h₁, -⟩
  unfold modifyIo
  rw [Exec.wp_bind, Exec.wp_modify, Exec.wp_bind, Exec.wp_modify, Exec.wp_ret]
  refine ⟨rfl, h₁.modify ?_ rfl ⟨rfl, rfl, rfl⟩ h₁.opened (max_le_max (Nat.le_succ _) le_rfl)⟩
  have hview : ∀ u : DbView γ, db₁.view V = u → ({ db₁ with
      io := { db₁.io with cnt := { db₁.io.cnt with
        nRecords := db₁.io.cnt.nRecords + 1
        syncId := bump db₁.io.cnt.syncId } }.tableSet key v.cnt.nRecords kf } : JDb).view V =
      { u with
        cnt := { u.cnt with nRecords := u.cnt.nRecords + 1, syncId := bump u.cnt.syncId }
        keyTable := u.keyTable.set key (v.cnt.nRecords, kf &&& KEY_FLAG_MASK) } := by rintro u rfl; rfl
  exact (hview _ h₁.view).trans rfl

/-- **`f_undelete`**, for any key and row. -/
theorem wp_fUndelete (hc : cfg.Keeps V) (h : db.Good V cfg) (key : Key) (row flags : Option ℕ) :
    Exec.Wp (fUndelete cfg key row flags) db
      (fun o db' => db'.Good V cfg ∧ Undeletes V key row (flags.getD cfg.flags) (db.view V) o (db'.view V))
      (fun _ _ => True) := by
  unfold fUndelete
  split
  · exact ⟨h, .none (.inl (.inl ‹_›))⟩
  · rename_i hname
    rw [Exec.wp_bind]
    refine Exec.wp_mono (reads_cachePop h key) ?_ fun _ _ _ => trivial
    intro _ db₁ hq₁
    rw [Exec.wp_bind, Exec.wp_get]
    split
    · rename_i hlive
      rw [contains_iff_rowOf (V := V), hq₁.view] at hlive
      exact ⟨hq₁.good, by rw [hq₁.view]; exact .none (.inr hlive)⟩
    · rename_i hnew
      rw [contains_iff_rowOf (V := V), not_not, hq₁.view] at hnew
      rw [Exec.wp_bind]
      refine Exec.wp_mono (wp_undoRow hq₁.good key row) ?_ fun _ _ _ => trivial
      rintro o db₂ ⟨hq₂, hno, ho⟩
      have hq := hq₁.trans hq₂
      rw [hq₁.view] at hno
      split
      · exact ⟨hq.good, by rw [hq.view]; exact .none (.inl (hno rfl))⟩
      · rename_i d info
        obtain ⟨hinfo, hlt, hkey, hgiven⟩ := ho d info rfl
        rw [hq₁.view] at hinfo hlt hgiven
        have hd : (db.view V).cnt.nRecords ≤ d := by
          by_contra hlive
          refine h.index.keyed.not_live hnew (Nat.lt_of_not_le hlive) ?_
          rw [DbView.slot_eq hinfo]; exact hkey
        extract_lets flags'
        rw [Exec.wp_bind, Exec.wp_get]
        extract_lets n hd' finish room
        have hn : n = (db.view V).cnt.nRecords := by rw [← hq.view]; rfl
        have hh : hd' = (db.view V).undoHead flags' := by
          unfold DbView.undoHead DbView.safeEnd
          rw [← hq.view]; rfl
        have h₂ := hq.good.shows
        rw [hq.view] at h₂
        -- the rows made room
        have hfinish : ∀ db₃, Shows V cfg (db.view V).fileTable.size
            ((db.view V).undeleteRoom key flags' d) db₃ → Exec.Wp (finish ()) db₃
            (fun o db' => db'.Good V cfg ∧ Undeletes V key row flags' (db.view V) o (db'.view V))
            (fun _ _ => True) := by
          intro db₃ h₃
          unfold finish
          rw [Exec.wp_bind]
          unfold cachePop
          rw [Exec.wp_modify, Exec.wp_bind]
          have h₄ := h₃.update (db.view V).fileTable.size _
              { db₃ with cache := db₃.cache.pop key } h₃.view rfl ⟨rfl, rfl, rfl⟩ h₃.opened le_rfl
          refine Exec.wp_mono (wp_undoGroup (E := fun _ _ => False) h₄ key info) ?_ fun _ _ h' => h'.elim
          rintro b db₅ ⟨h₅, hb⟩
          extract_lets kf
          have hkf : kf = undoFlags info (info.flags &&& USER_FLAG_MASK) := hb _
          have hframe := DbView.undeleteRoom_frame key flags' h.index.keyed.le hd
          refine Exec.wp_mono (wp_undeleteAt hc h₅ key info kf (n := n) (hn.trans (congrArg Counters.nRecords hframe.1).symm)) ?_ fun _ _ _ => trivial
          rintro o db₆ ⟨rfl, h₆⟩
          have hu : Undeletes V key row flags' (db.view V) (some (restored (db.view V).cnt.nRecords info))
              (((db.view V).undeleteRoom key flags' d).undeleteAt V key info kf) :=
            hkf ▸ .back hname hnew hd hlt hinfo hkey hgiven
          rw [hn]
          have hft : ((db.view V).undeleteRoom key flags' d).fileTable = (db.view V).fileTable := by
            unfold DbView.undeleteRoom
            split
            · simp only; split <;> rfl
            · rfl
          exact ⟨h₆.good ((hu.effects cfg).good h.index) (congrArg OrdDict.size hft).symm, h₆.view ▸ hu⟩
        split
        · rename_i hle
          rw [Exec.wp_bind, Exec.wp_modify]
          rw [hh] at hle
          by_cases hrev : has flags' REVERT = true
          · rw [if_pos hrev]
            have h₃ := h₂.update _ { db.view V with
                chgKeys := insert key (db.view V).chgKeys, safeLine := hd' + 1 }
                { db₂ with chgKeys := insert key db₂.chgKeys, safeLine := hd' + 1 }
              (by rw [← hq.view]; rfl) rfl ⟨rfl, rfl, rfl⟩ h₂.opened le_rfl
            refine wp_copyUp h₃ hd' d fun db₄ h₄ => ?_
            simp only [room]
            refine wp_copyUp h₄ n hd' fun db₅ h₅ => hfinish db₅ ?_
            unfold DbView.undeleteRoom
            rw [if_pos hle]
            simp only [if_pos hrev]
            rw [← hh, ← hn]
            exact h₅
          · rw [if_neg hrev]
            have h₃ := h₂.update _ { db.view V with safeLine := n }
                { db₂ with safeLine := n }
              (by rw [← hq.view]; rfl) rfl ⟨rfl, rfl, rfl⟩ h₂.opened le_rfl
            refine wp_copyUp h₃ hd' d fun db₄ h₄ => ?_
            simp only [room]
            refine wp_copyUp h₄ n hd' fun db₅ h₅ => hfinish db₅ ?_
            unfold DbView.undeleteRoom
            rw [if_pos hle]
            simp only [if_neg hrev]
            rw [← hh, ← hn]
            exact h₅
        · rename_i hle
          rw [Exec.wp_bind, Exec.wp_modify]
          rw [hh] at hle
          have h₃ := h₂.update _ { db.view V with chgKeys := (db.view V).chgKeys.erase key }
              { db₂ with chgKeys := db₂.chgKeys.erase key }
            (by rw [← hq.view]; rfl) rfl ⟨rfl, rfl, rfl⟩ h₂.opened le_rfl
          refine wp_copyUp h₃ n d fun db₄ h₄ => hfinish db₄ ?_
          unfold DbView.undeleteRoom
          rw [if_neg hle, ← hn]
          exact h₄

/-- **What `f_unwrite` does.** The record of `key` and a parked version of it change places; a
record that is locked keeps its own. -/
inductive Unwrites (V : RowView γ) (key : Key) (row : Option ℕ) (v : DbView γ) :
    Option Restored → DbView γ → Prop
  | none : NoUndo V key row v ∨ v.rowOf key = Option.none ∨
      (∃ r old, v.At key r ∧ V.proj old = v.rows r ∧ has old.flags WRITE_LOCK_MASK = true) →
      Unwrites V key row v none v
  | back {r d : ℕ} {old info : Row} : key ≠ [] → v.At key r → V.proj old = v.rows r →
      has old.flags WRITE_LOCK_MASK = false → v.cnt.nRecords ≤ d → d < v.cnt.nLines →
      V.proj info = v.rows d → info.key = key → UndoOf V key row v d →
      Unwrites V key row v (some (restored r info))
        (let kf := undoFlags info (clear (old.flags &&& USER_FLAG_MASK) PAYLOAD_FLAG_MASK |||
          (info.flags &&& PAYLOAD_FLAG_MASK))
        (v.unwriteAt V key r d old info kf).setTable key r
          (if info.ttl.pos then kf ||| EXPIRE else clear kf EXPIRE))

variable (cfg flags) in
theorem Unwrites.effects {row : Option ℕ} {o : Option Restored} (h : Unwrites V key row v o v') :
    Effects V cfg key flags v v' := by
  cases h with
  | none => exact .refl
  | back _ hrow hold _ hd hlt hinfo hkey _ =>
    refine (Relation.ReflTransGen.single (.unwrite hrow hold hd hlt hinfo hkey)).tail (.mark ?_)
    exact hrow

/-- **`f_unwrite`**, for any key and row. -/
theorem wp_fUnwrite (hc : cfg.Keeps V) (h : db.Good V cfg) (key : Key) (row : Option ℕ) :
    Exec.Wp (fUnwrite cfg key row) db
      (fun o db' => db'.Good V cfg ∧ Unwrites V key row (db.view V) o (db'.view V)) (fun _ _ => True) := by
  unfold fUnwrite
  split
  · exact ⟨h, .none (.inl (.inl ‹_›))⟩
  · rename_i hname
    rw [Exec.wp_bind]
    refine Exec.wp_mono (reads_cachePop h key) ?_ fun _ _ _ => trivial
    intro _ db₁ hq₁
    rw [Exec.wp_bind, Exec.wp_get]
    split
    · rename_i hgone
      rw [Bool.not_eq_true', ← Bool.not_eq_true, contains_iff_rowOf (V := V), not_not, hq₁.view] at hgone
      exact ⟨hq₁.good, by rw [hq₁.view]; exact .none (.inr (.inl hgone))⟩
    · split
      · rename_i hlive
        obtain ⟨x, hx, hxn⟩ := (Option.any_eq_true _ _).1 hlive
        have hcnt : db₁.io.cnt = (db.view V).cnt := by rw [← hq₁.view]; rfl
        rw [hcnt, decide_eq_true_eq] at hxn
        exact ⟨hq₁.good, by rw [hq₁.view]; exact .none (.inl (.inr (.inr ⟨x, hx, .inl hxn⟩)))⟩
      · rename_i hparked
        rw [Exec.wp_bind]
        refine Exec.wp_mono (wp_undoRow hq₁.good key row) ?_ fun _ _ _ => trivial
        rintro o db₂ ⟨hq₂, hno, ho⟩
        have hq := hq₁.trans hq₂
        rw [hq₁.view] at hno
        split
        · exact ⟨hq.good, by rw [hq.view]; exact .none (.inl (hno rfl))⟩
        · rename_i d info
          obtain ⟨hinfo, hlt, hkey, hgiven⟩ := ho d info rfl
          rw [hq₁.view] at hinfo hlt hgiven
          have hd : (db.view V).cnt.nRecords ≤ d := by
            cases row with
            | none => exact hgiven.1
            | some x =>
              obtain rfl : d = x := hgiven
              have hcnt : db₁.io.cnt = (db.view V).cnt := by rw [← hq₁.view]; rfl
              rw [← hcnt]
              simpa using hparked
          rw [Exec.wp_bind, Exec.wp_get]
          split
          · rename_i hget
            have hgone := rowOf_none (V := V) hget
            rw [hq.view] at hgone
            exact ⟨hq.good, by rw [hq.view]; exact .none (.inr (.inl hgone))⟩
          · rename_i r f hget
            obtain ⟨hrow, hlive⟩ := hq.good.at_ hget
            rw [hq.view] at hrow
            rw [if_neg hlive, Exec.wp_bind]
            refine Exec.wp_mono (wp_readKey hq.good r) ?_ fun _ _ _ => trivial
            rintro old db₃ ⟨⟨hold, -⟩, hq₃⟩
            rw [hq.view] at hold
            have hq := hq.trans hq₃
            split
            · rename_i hlock
              have hkey : old.key = key := by
                rw [← h.index.keyed.key_at hrow, DbView.slot_eq hold]
              refine ⟨hq.good, ?_⟩
              rw [hq.view]
              exact .none (.inr (.inr ⟨r, old, hrow, hold, hlock.resolve_left (not_not_intro hkey)⟩))
            · rename_i hlock
              rw [not_or, Bool.not_eq_true] at hlock
              have h₃ := hq.good.shows
              rw [hq.view] at h₃
              rw [Exec.wp_bind]
              refine Exec.wp_mono (wp_undoGroup (E := fun _ _ => False) h₃ key info) ?_ fun _ _ h' => h'.elim
              rintro b db₄ ⟨h₄, hb⟩
              extract_lets kf
              have hkf : kf = undoFlags info (clear (old.flags &&& USER_FLAG_MASK) PAYLOAD_FLAG_MASK |||
                (info.flags &&& PAYLOAD_FLAG_MASK)) := hb _
              rw [Exec.wp_bind]
              refine Exec.wp_mono (wp_writeKey hc h₄ d _) ?_ fun _ _ _ => trivial
              rintro _ db₅ ⟨h₅, -⟩
              rw [Exec.wp_bind]
              refine Exec.wp_mono (wp_writeKey hc h₅ r _) ?_ fun _ _ _ => trivial
              rintro _ db₆ ⟨h₆, -⟩
              rw [Exec.wp_bind]
              refine Exec.wp_mono (wp_tableSet (E := fun _ _ => False) h₆ key r _) ?_ fun _ _ h' => h'.elim
              intro _ db₇ h₇
              rw [Exec.wp_bind]
              refine Exec.wp_mono (wp_bumpSync (E := fun _ _ => False) h₇) ?_ fun _ _ h' => h'.elim
              intro _ db₈ h₈
              rw [Exec.wp_bind, Exec.wp_modify, Exec.wp_ret]
              have hu : Unwrites V key row (db.view V) (some (restored r info)) _ :=
                .back hname hrow hold hlock.2 hd hlt hinfo hkey hgiven
              rw [← hkf] at hu
              have h₉ := h₈.update _ (((db.view V).unwriteAt V key r d old info kf).setTable key r
                  (if info.ttl.pos then kf ||| EXPIRE else clear kf EXPIRE))
                  { db₈ with chgKeys := db₈.chgKeys.erase key }
                ((congrArg (fun u : DbView γ => { u with chgKeys := u.chgKeys.erase key }) h₈.view).trans rfl)
                rfl ⟨rfl, rfl, rfl⟩ h₈.opened le_rfl
              exact ⟨h₉.good ((hu.effects cfg 0).good h.index) rfl, h₉.view ▸ hu⟩

/-! ## Renaming, dates, links -/

/-- **What `f_rename` does.** -/
inductive Renames (V : RowView γ) (key newKey : Key) (v : DbView γ) : Bool → DbView γ → Prop
  | same : key = newKey → Renames V key newKey v false v
  | renamed {row : ℕ} {old : Row} : v.At key row → v.rowOf newKey = none → V.proj old = v.rows row →
      Renames V key newKey v true (v.renameAt V key newKey row old)

theorem Renames.good {newKey : Key} {b : Bool} (hg : v.Good V) (h : Renames V key newKey v b v') :
    v'.Good V := by
  cases h with
  | same => exact hg
  | renamed hrow hnew hold => exact DbView.renameAt_good hg hrow hnew hold

/-- **`f_rename`**, for any two keys. -/
theorem wp_fRename (hc : cfg.Keeps V) (h : db.Good V cfg) (key newKey : Key) :
    Exec.Wp (fRename cfg key newKey) db
      (fun b db' => db'.Good V cfg ∧ Renames V key newKey (db.view V) b (db'.view V)) (fun _ _ => True) := by
  unfold fRename
  split
  · rename_i hsame
    exact ⟨h, .same hsame⟩
  · rw [Exec.wp_bind]
    refine Exec.wp_mono (reads_cachePop h key) ?_ fun _ _ _ => trivial
    intro _ db₁ hq₁
    rw [Exec.wp_bind, Exec.wp_get]
    split
    · trivial
    · rename_i hnew
      rw [contains_iff_rowOf (V := V), not_not, hq₁.view] at hnew
      split
      · trivial
      · rename_i row f hget
        obtain ⟨hrow, -⟩ := hq₁.good.at_ hget
        rw [hq₁.view] at hrow
        rw [Exec.wp_bind]
        refine Exec.wp_mono (wp_readKey hq₁.good row) ?_ fun _ _ _ => trivial
        rintro old db₂ ⟨⟨hold, -⟩, hq₂⟩
        rw [hq₁.view] at hold
        have hq := hq₁.trans hq₂
        have h₂ := hq.good.shows
        rw [hq.view] at h₂
        rw [Exec.wp_bind]
        refine Exec.wp_mono (wp_writeKey hc h₂ row _) ?_ fun _ _ _ => trivial
        rintro n db₃ ⟨h₃, hn⟩
        rw [if_pos hn]
        unfold modifyIo
        rw [Exec.wp_bind, Exec.wp_modify, Exec.wp_bind, Exec.wp_modify, Exec.wp_ret]
        have hr : Renames V key newKey (db.view V) true _ := .renamed hrow hnew hold
        have h₄ := h₃.update _ ((db.view V).renameAt V key newKey row old)
            { db₃ with io := (JIo.tablePop { db₃.io with cnt := { db₃.io.cnt with
            syncId := bump db₃.io.cnt.syncId
            swapId := bump db₃.io.cnt.swapId } } key).tableSet newKey row old.flags }
          ?_ rfl ⟨rfl, rfl, rfl⟩ h₃.opened le_rfl
        · exact ⟨h₄.good (hr.good h.index) rfl, h₄.view ▸ hr⟩
        · have hview : ∀ u : DbView γ, db₃.view V = u → ({ db₃ with
              io := (JIo.tablePop { db₃.io with cnt := { db₃.io.cnt with
                syncId := bump db₃.io.cnt.syncId
                swapId := bump db₃.io.cnt.swapId } } key).tableSet newKey row old.flags } : JDb).view V =
              { u with
                cnt := { u.cnt with syncId := bump u.cnt.syncId, swapId := bump u.cnt.swapId }
                keyTable := (u.keyTable.pop key).set newKey (row, old.flags &&& KEY_FLAG_MASK) } := by
            rintro u rfl; rfl
          exact (hview _ h₃.view).trans rfl

/-- The row `set_date` writes; a lifetime that is negative is none. -/
def dateArgs (key : Key) (cdate mdate : Option ℕ) (ttl : Option TtlArg) (old : Row) : KeyArgs :=
  { old.args with
    key := key
    ver := none
    cdays := some (cdate.getD old.cdays)
    mdays := some (mdate.getD old.mdays)
    ttl := (match ttl with
      | none => some old.ttl
      | some t => t.toTtl).getD (.days 0) }

/-- **What `set_date` does.** -/
inductive Dates (V : RowView γ) (key : Key) (cdate mdate : Option ℕ) (ttl : Option TtlArg) (v : DbView γ) :
    Bool → DbView γ → Prop
  | same : Dates V key cdate mdate ttl v false v
  | dated {row : ℕ} {old : Row} : v.At key row → V.proj old = v.rows row →
      Dates V key cdate mdate ttl v true
        ((v.put row (v.new V (dateArgs key cdate mdate ttl old))).sync.setTable key row
          (if (dateArgs key cdate mdate ttl old).ttl.pos then old.flags ||| EXPIRE
            else clear old.flags EXPIRE))

variable (cfg flags) in
theorem Dates.effects {cdate mdate : Option ℕ} {ttl : Option TtlArg} {b : Bool}
    (h : Dates V key cdate mdate ttl v b v') : Effects V cfg key flags v v' := by
  cases h with
  | same => exact .refl
  | @dated row old hrow hold =>
    have hsame : DbView.SameValue (v.slot V row) (dateArgs key cdate mdate ttl old) := by
      rw [DbView.slot_eq hold]; exact ⟨rfl, rfl, rfl, rfl⟩
    exact (Relation.ReflTransGen.single (.rewrite hrow rfl (hsame.restates nofun) (.inl hsame))).tail (.mark hrow)

/-- **`set_date`**, for any key, dates and lifetime. -/
theorem wp_setDate (hc : cfg.Keeps V) (h : db.Good V cfg) (key : Key) (cdate mdate : Option ℕ)
    (ttl : Option TtlArg) :
    Exec.Wp (setDate cfg key cdate mdate ttl) db
      (fun b db' => db'.Good V cfg ∧ Dates V key cdate mdate ttl (db.view V) b (db'.view V))
      (fun _ _ => True) := by
  unfold setDate
  split
  · exact ⟨h, .same⟩
  · rw [Exec.wp_bind, Exec.wp_get]
    split
    · exact ⟨h, .same⟩
    · rename_i row f hget
      obtain ⟨hrow, hlive⟩ := h.at_ hget
      rw [if_neg hlive, Exec.wp_bind]
      refine Exec.wp_mono (wp_readKey h row) ?_ fun _ _ _ => trivial
      rintro old db₁ ⟨⟨hold, -⟩, hq⟩
      extract_lets cdays mdays newTtl t
      split
      · trivial
      · split
        · rw [Exec.wp_bind]
          refine Exec.wp_mono (wp_writeKey hc (.of_quiet hq) row _) ?_ fun _ _ _ => trivial
          rintro _ db₂ ⟨h₂, -⟩
          rw [Exec.wp_bind]
          refine Exec.wp_mono (wp_tableSet (E := fun _ _ => False) h₂ key row _) ?_ fun _ _ h' => h'.elim
          intro _ db₃ h₃
          rw [Exec.wp_bind]
          refine Exec.wp_mono (wp_bumpSync (E := fun _ _ => False) h₃) ?_ fun _ _ h' => h'.elim
          intro _ db₄ h₄
          rw [Exec.wp_ret]
          have hd : Dates V key cdate mdate ttl (db.view V) true _ := .dated hrow hold
          exact ⟨h₄.good ((hd.effects cfg 0).good h.index) rfl, h₄.view ▸ hd⟩
        · exact ⟨hq.good, hq.view ▸ .same⟩

/-- The row of a new link. -/
def linkArgs (key : Key) (old : Row) : KeyArgs :=
  { old.args with key := key, flags := (old.flags &&& WRITABLE_FLAG_MASK) ||| LINK }

/-- A record that was written is made a link. -/
inductive Relinks (V : RowView γ) (key : Key) (v : DbView γ) : DbView γ → Prop
  | link {row : ℕ} {old : Row} : v.At key row → V.proj old = v.rows row →
      Relinks V key v (((v.put row (v.new V (linkArgs key old))).setTable key row
        (if old.ttl.pos then (linkArgs key old).flags ||| EXPIRE
          else clear (linkArgs key old).flags EXPIRE)).sync)

/-- **What `set_link` does**: a link that is there goes, the path is written, and the record
becomes a link. -/
inductive Links (V : RowView γ) (cfg : Config) (env : Env) (key target : Key) (v : DbView γ) :
    Bool → DbView γ → Prop
  | same : Links V cfg env key target v false v
  | write {v₁ v₂ v' : DbView γ} {a : WriteArgs} {b : Bool} : Leads V (.str target) v →
      v₁ = v ∨ (∃ d, Deletes V key none cfg.flags v d v₁) → a.flags = none → a.overwrite = true →
      WroteAny V cfg env key (.str target) a v₁ b v₂ →
      (b = false ∧ v' = v₂ ∨ b = true ∧ Relinks V key v₂ v') →
      Links V cfg env key target v b v'

variable (cfg flags) in
theorem Relinks.effects (h : Relinks V key v v') : Effects V cfg key flags v v' := by
  cases h with
  | @link row old hrow hold =>
    obtain ⟨f, hf⟩ : ∃ f, f = (if old.ttl.pos then (linkArgs key old).flags ||| EXPIRE
      else clear (linkArgs key old).flags EXPIRE) := ⟨_, rfl⟩
    rw [← hf]
    have hrow' : (v.setTable key row f).At key row := by
      refine ⟨?_, hrow.2⟩
      rw [DbView.rowOf, DbView.setTable, DbView.rowOf_set, if_pos rfl]
    have hslot : (v.setTable key row f).slot V row = old.toSlot := DbView.slot_eq hold
    have hsame : DbView.SameValue ((v.setTable key row f).slot V row) (linkArgs key old) := by
      rw [hslot]; exact ⟨rfl, rfl, rfl, rfl⟩
    have hver : ∀ n, (linkArgs key old).ver = some n → n = ((v.setTable key row f).slot V row).ver := by
      rw [hslot]
      rintro _ ⟨⟩
      rfl
    have he : Effect V cfg key flags (v.setTable key row f)
        ((v.setTable key row f).put row ((v.setTable key row f).new V (linkArgs key old))).sync :=
      .rewrite hrow' rfl (hsame.restates hver) (.inl hsame)
    exact (Relation.ReflTransGen.single (.mark hrow)).tail he

/-- What `set_link` does once the record that was there is out of the way. -/
def linkRest (cfg : Config) (env : Env) (key target : Key) (oldFlags : ℕ) : DbM Bool := do
  cachePop key
  let ok ← fWrite cfg env key (.str target)
    { overwrite := true, keyFlags := .int (oldFlags &&& WRITABLE_FLAG_MASK) }
  if !ok then pure false
  else
    let db ← Exec.get
    match db.io.keyTable.get? key with
    | none => Exec.raise .value
    | some (row, _) =>
      let old ← onIo (JIo.readKey row)
      let _ ← onIo (JIo.writeKey cfg row (linkArgs key old))
      modifyIo fun io => io.tableSet key row (if old.ttl.pos then (linkArgs key old).flags ||| EXPIRE
        else clear (linkArgs key old).flags EXPIRE)
      bumpSync
      cachePop key
      pure true

/-- **`set_link`**, for any key and target. -/
theorem wp_setLink (hc : cfg.Keeps V) (h : db.Good V cfg) (env : Env) (key target : Key) :
    Exec.Wp (setLink cfg env key target) db
      (fun b db' => db'.Good V cfg ∧ Links V cfg env key target (db.view V) b (db'.view V))
      (fun _ _ => True) := by
  unfold setLink
  split
  · trivial
  · rw [Exec.wp_bind]
    refine Exec.wp_mono (wp_fLinkStep h _) ?_ fun _ _ _ => trivial
    rintro s db₁ ⟨hleads, -, hq₁⟩
    extract_lets write look
    -- the record becomes a link once the path is written
    have hrest : ∀ (v₁ : DbView γ) (oldFlags : ℕ) (db₂ : JDb), db₂.Good V cfg → db₂.view V = v₁ →
        (v₁ = db.view V ∨ ∃ d, Deletes V key none cfg.flags (db.view V) d v₁) →
        Exec.Wp (linkRest cfg env key target oldFlags) db₂
        (fun b db' => db'.Good V cfg ∧ Links V cfg env key target (db.view V) b (db'.view V))
        (fun _ _ => True) := by
      intro v₁ oldFlags db₂ h₂ hv₁ hstart
      unfold linkRest
      rw [Exec.wp_bind]
      refine Exec.wp_mono (reads_cachePop h₂ key) ?_ fun _ _ _ => trivial
      intro _ db₃ hq₃
      rw [Exec.wp_bind]
      refine Exec.wp_mono (wp_fWrite hc hq₃.good env key _ _) ?_ fun _ _ _ => trivial
      rintro ok db₄ ⟨h₄, hw⟩
      rw [hq₃.view, hv₁] at hw
      cases ok with
      | false => exact ⟨h₄, .write hleads hstart rfl rfl hw (.inl ⟨rfl, rfl⟩)⟩
      | true =>
        rw [if_neg (by decide), Exec.wp_bind, Exec.wp_get]
        split
        · trivial
        · rename_i row f hget
          obtain ⟨hrow, -⟩ := h₄.at_ hget
          rw [Exec.wp_bind]
          refine Exec.wp_mono (wp_readKey h₄ row) ?_ fun _ _ _ => trivial
          rintro old db₅ ⟨⟨hold, -⟩, hq₅⟩
          rw [Exec.wp_bind]
          refine Exec.wp_mono (wp_writeKey hc (.of_quiet hq₅) row _) ?_ fun _ _ _ => trivial
          rintro _ db₆ ⟨h₆, -⟩
          rw [Exec.wp_bind]
          refine Exec.wp_mono (wp_tableSet (E := fun _ _ => False) h₆ key row _) ?_ fun _ _ h' => h'.elim
          intro _ db₇ h₇
          rw [Exec.wp_bind]
          refine Exec.wp_mono (wp_bumpSync (E := fun _ _ => False) h₇) ?_ fun _ _ h' => h'.elim
          intro _ db₈ h₈
          have hr : Relinks V key (db₄.view V) (db₈.view V) := h₈.view ▸ .link hrow hold
          have h₈' : db₈.Good V cfg :=
            h₈.good (h₈.view ▸ (hr.effects cfg 0).good h₄.index) rfl
          rw [Exec.wp_bind]
          refine Exec.wp_mono (reads_cachePop h₈' key) ?_ fun _ _ _ => trivial
          intro _ db₉ hq₉
          exact ⟨hq₉.good, .write hleads hstart rfl rfl hw (.inr ⟨rfl, hq₉.view ▸ hr⟩)⟩
    have hwrite : ∀ (oldFlags : ℕ) (same : Bool) (db₃ : JDb), Quiet V cfg db db₃ →
        Exec.Wp (write (oldFlags, same)) db₃
          (fun b db' => db'.Good V cfg ∧ Links V cfg env key target (db.view V) b (db'.view V))
          (fun _ _ => True) := by
      intro oldFlags same db₃ hq₃
      unfold write
      dsimp only
      split
      · exact ⟨hq₃.good, hq₃.view ▸ .same⟩
      · split
        · rw [Exec.wp_bind]
          refine Exec.wp_mono (wp_fDelete hc hq₃.good env key false none none .none fun _ r hr => by cases hr) ?_
            fun _ _ _ => trivial
          rintro d db₄ ⟨h₄, hd⟩
          rw [hq₃.view] at hd
          exact hrest _ oldFlags db₄ h₄ rfl (.inr ⟨d, hd⟩)
        · exact hrest _ oldFlags db₃ hq₃.good hq₃.view (.inl rfl)
    -- the record is looked at once the target was found
    have hlook : ∀ db₂, Quiet V cfg db db₂ → Exec.Wp (look ()) db₂
        (fun b db' => db'.Good V cfg ∧ Links V cfg env key target (db.view V) b (db'.view V))
        (fun _ _ => True) := by
      intro db₂ hq₂
      unfold look
      rw [Exec.wp_bind, Exec.wp_get]
      split
      · rename_i row f hget
        obtain ⟨hrow, -⟩ := hq₂.good.at_ hget
        split
        · rw [Exec.wp_bind]
          refine Exec.wp_mono (wp_readKey hq₂.good row) ?_ fun _ _ _ => trivial
          rintro old db₃ ⟨⟨hold, -⟩, hq₃⟩
          have hknown := (hq₂.good.known (hq₂.good.lt_lines hrow.2) hold).quiet hq₃
          have hq := hq₂.trans hq₃
          split
          · trivial
          · split
            · rw [Exec.wp_bind, Exec.wp_ret]
              exact hwrite _ _ db₃ hq
            · split
              · rw [Exec.wp_bind]
                refine Exec.wp_mono (reads_rowValue hq.good hknown) ?_ fun _ _ _ => trivial
                intro v db₄ hq₄
                rw [Exec.wp_bind, Exec.wp_ret]
                exact hwrite _ _ db₄ (hq.trans hq₄)
              · rw [Exec.wp_bind, Exec.wp_ret]
                exact hwrite _ _ db₃ hq
        · rw [Exec.wp_bind, Exec.wp_ret]
          exact hwrite _ _ db₂ hq₂
      · rw [Exec.wp_bind, Exec.wp_ret]
        exact hwrite _ _ db₂ hq₂
    split
    · rw [Exec.wp_bind, Exec.wp_lift]
      exact ⟨fun _ _ => hlook db₁ hq₁, fun _ _ => trivial⟩
    · exact hlook db₁ hq₁

/-! ## `unmodify`, `revert` -/

/-- The slot is a parked version of `key`, of the version asked for. -/
def IsVersion (key : Key) (version : Option ℕ) (s : Slot) : Prop :=
  s.key = key ∧ ∀ x, version = some x → x = s.ver

/-- **The search for a parked version** stops at the first row that holds one. -/
theorem wp_seekRow (key : Key) (version : Option ℕ) (m : ℕ) : ∀ (r : ℕ) (db : JDb), db.Good V cfg →
    Exec.Wp (seekRow key version r m) db
      (fun o db' => Quiet V cfg db db' ∧
        (o = none → ∀ x, r ≤ x → x < r + m → ¬ IsVersion key version ((db.view V).slot V x)) ∧
        ∀ d, o = some d → r ≤ d ∧ d < r + m ∧ IsVersion key version ((db.view V).slot V d) ∧
          ∀ x, r ≤ x → x < d → ¬ IsVersion key version ((db.view V).slot V x))
      (fun _ _ => (db.view V).cnt.nLines < r + m) := by
  induction m with
  | zero =>
    intro r db h
    refine ⟨.refl h, fun _ x h₁ h₂ => ?_, fun d hd => by cases hd⟩
    omega
  | succ m ih =>
    intro r db h
    unfold seekRow
    rw [Exec.wp_bind]
    refine Exec.wp_mono (wp_readKey h r) ?_ fun _ _ h' => ?_
    · rintro info db₁ ⟨⟨hinfo, -⟩, hq⟩
      have hslot := DbView.slot_eq hinfo
      have hver : IsVersion key version ((db.view V).slot V r) ↔
          info.key = key ∧ (version.all (· = info.ver)) = true := by
        rw [hslot]
        unfold IsVersion
        cases version with
        | none => simp
        | some x => simp
      split
      · rename_i hfound
        rw [Exec.wp_ret]
        refine ⟨hq, (fun hn => by cases hn), fun d hd => ?_⟩
        obtain rfl := Option.some.inj hd
        exact ⟨le_rfl, by omega, hver.2 hfound, fun x h₁ h₂ => absurd h₂ (by omega)⟩
      · rename_i hfound
        refine Exec.wp_mono (ih (r + 1) db₁ hq.good) ?_ ?_
        · rintro o db₂ ⟨hq₂, hnone, hsome⟩
          rw [hq.view] at hnone hsome
          have hr : ∀ x, r ≤ x → (r + 1 ≤ x → ¬ IsVersion key version ((db.view V).slot V x)) →
              ¬ IsVersion key version ((db.view V).slot V x) := by
            intro x hx hlater
            rcases Nat.eq_or_lt_of_le hx with rfl | hlt
            · exact mt hver.1 hfound
            · exact hlater hlt
          refine ⟨hq.trans hq₂, fun hn x h₁ h₂ => hr x h₁ fun h₃ => hnone hn x h₃ (by omega), fun d hd => ?_⟩
          obtain ⟨h₁, h₂, h₃, h₄⟩ := hsome d hd
          exact ⟨by omega, by omega, h₃, fun x hx hxd => hr x hx fun h₅ => h₄ x h₅ hxd⟩
        · intro _ _ h'
          rw [hq.view] at h'
          omega
    · have := h'.2.1
      omega

/-- The row `unmodify` and `revert` find: the first parked one of the key and version. -/
def FirstVersion (V : RowView γ) (key : Key) (version : Option ℕ) (v : DbView γ) (d : ℕ) : Prop :=
  v.cnt.nRecords ≤ d ∧ d < v.cnt.nLines ∧ IsVersion key version (v.slot V d) ∧
    ∀ x, v.cnt.nRecords ≤ x → x < d → ¬ IsVersion key version (v.slot V x)

/-- There is no parked row of the key and version. -/
def NoVersion (V : RowView γ) (key : Key) (version : Option ℕ) (v : DbView γ) : Prop :=
  ∀ x, v.cnt.nRecords ≤ x → x < v.cnt.nLines → ¬ IsVersion key version (v.slot V x)

theorem wp_seekParked (h : db.Good V cfg) (key : Key) (version : Option ℕ) :
    Exec.Wp (seekRow key version db.io.cnt.nRecords (db.io.cnt.nLines - db.io.cnt.nRecords)) db
      (fun o db' => Quiet V cfg db db' ∧ (o = none → NoVersion V key version (db.view V)) ∧
        ∀ d, o = some d → FirstVersion V key version (db.view V) d) (fun _ _ => False) := by
  have hle : db.io.cnt.nRecords ≤ db.io.cnt.nLines := h.index.keyed.le
  refine Exec.wp_mono (wp_seekRow key version _ _ db h) ?_ fun _ _ h' => ?_
  · rintro o db' ⟨hq, hnone, hsome⟩
    rw [Nat.add_sub_cancel' hle] at hnone hsome
    exact ⟨hq, fun hn x h₁ h₂ => hnone hn x h₁ h₂, hsome⟩
  · rw [Nat.add_sub_cancel' hle] at h'
    exact absurd h' (lt_irrefl _)

/-- **What `unmodify` does.** -/
inductive Unmodifies (V : RowView γ) (key : Key) (version : Option ℕ) (v : DbView γ) :
    Option Restored → DbView γ → Prop
  | none : v.rowOf key = none ∨ NoVersion V key version v → Unmodifies V key version v none v
  | back {d : ℕ} {o : Option Restored} {v' : DbView γ} : v.rowOf key ≠ none →
      FirstVersion V key version v d → Unwrites V key (some d) v o v' →
      Unmodifies V key version v o v'

theorem wp_unmodify (hc : cfg.Keeps V) (h : db.Good V cfg) (key : Key) (version : Option ℕ) :
    Exec.Wp (unmodify cfg key version) db
      (fun o db' => db'.Good V cfg ∧ Unmodifies V key version (db.view V) o (db'.view V))
      (fun _ _ => True) := by
  have hle : db.io.cnt.nRecords ≤ db.io.cnt.nLines := h.index.keyed.le
  unfold unmodify
  rw [Exec.wp_bind, Exec.wp_get]
  extract_lets n
  split
  · rename_i hstop
    refine ⟨h, .none ?_⟩
    rcases hstop with hn | hmiss
    · refine .inr fun x h₁ h₂ => absurd h₂ (Nat.not_lt_of_le ?_)
      change db.io.cnt.nRecords ≤ x at h₁
      change db.io.cnt.nLines ≤ x
      omega
    · refine .inl ?_
      rw [← Bool.not_eq_true, contains_iff_rowOf (V := V), not_not] at hmiss
      exact hmiss
  · rename_i hstop
    rw [not_or, Bool.not_eq_false, contains_iff_rowOf (V := V)] at hstop
    rw [Exec.wp_bind]
    refine Exec.wp_mono (wp_seekParked h key version) ?_ fun _ _ h' => h'.elim
    rintro o db₁ ⟨hq, hnone, hsome⟩
    split
    · rename_i d
      refine Exec.wp_mono (wp_fUnwrite hc hq.good key (some d)) ?_ fun _ _ h' => h'
      rintro o db₂ ⟨h₂, hu⟩
      rw [hq.view] at hu
      exact ⟨h₂, .back hstop.2 (hsome d rfl) hu⟩
    · rw [Exec.wp_ret, hq.view]
      exact ⟨hq.good, .none (.inr (hnone rfl))⟩

/-- **What `revert` does.** -/
inductive Reverts (V : RowView γ) (cfg : Config) (key : Key) (version : Option ℕ) (v : DbView γ) :
    Option Restored → DbView γ → Prop
  | none : NoVersion V key version v → Reverts V cfg key version v none v
  | unwrite {d : ℕ} {o : Option Restored} {v' : DbView γ} : v.rowOf key ≠ none →
      FirstVersion V key version v d → Unwrites V key (some d) v o v' → Reverts V cfg key version v o v'
  | undelete {d : ℕ} {o : Option Restored} {v' : DbView γ} : v.rowOf key = none →
      FirstVersion V key version v d → Undeletes V key (some d) cfg.flags v o v' → Reverts V cfg key version v o v'

theorem wp_revert (hc : cfg.Keeps V) (h : db.Good V cfg) (key : Key) (version : Option ℕ) :
    Exec.Wp (revert cfg key version) db
      (fun o db' => db'.Good V cfg ∧ Reverts V cfg key version (db.view V) o (db'.view V))
      (fun _ _ => True) := by
  unfold revert
  rw [Exec.wp_bind, Exec.wp_get]
  extract_lets n
  split
  · rename_i hn
    refine ⟨h, .none fun x h₁ h₂ => absurd h₂ (Nat.not_lt_of_le ?_)⟩
    change db.io.cnt.nRecords ≤ x at h₁
    change db.io.cnt.nLines ≤ x
    omega
  · rw [Exec.wp_bind]
    refine Exec.wp_mono (wp_seekParked h key version) ?_ fun _ _ h' => h'.elim
    rintro o db₁ ⟨hq, hnone, hsome⟩
    split
    · rename_i d
      split
      · rename_i hlive
        rw [contains_iff_rowOf (V := V)] at hlive
        refine Exec.wp_mono (wp_fUnwrite hc hq.good key (some d)) ?_ fun _ _ h' => h'
        rintro o db₂ ⟨h₂, hu⟩
        rw [hq.view] at hu
        exact ⟨h₂, .unwrite hlive (hsome d rfl) hu⟩
      · rename_i hgone
        rw [contains_iff_rowOf (V := V), not_not] at hgone
        refine Exec.wp_mono (wp_fUndelete hc hq.good key (some d) none) ?_ fun _ _ h' => h'
        rintro o db₂ ⟨h₂, hu⟩
        rw [hq.view] at hu
        exact ⟨h₂, .undelete hgone (hsome d rfl) hu⟩
    · rw [Exec.wp_ret, hq.view]
      exact ⟨hq.good, .none (hnone rfl)⟩

end JDb

end OmniJsonDb
