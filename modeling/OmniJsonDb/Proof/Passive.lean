import OmniJsonDb.Model.Undo

/-!
# What reading cannot change

Reading a row remembers it, opening a VAL file counts it, decoding a value caches it. A
property of a handle that only looks at the rows, the counters and the length of a line
is kept by all of that, also when it raises.

* `SameRows`: two handles with the same rows.
* `Passive`: the properties that are kept.
* `passive_decodeValue`, `passive_fRead` and so on: the programs that keep them.
* `LineSize`: the length of a line is one of them.
-/

namespace OmniJsonDb

open Exec (Maintains)

namespace JDb

/-- Two handles with the same rows, stored and remembered, the same counters, also of the last
header, and lines. -/
structure SameRows (db db' : JDb) : Prop where
  rows : db'.io.files.rows = db.io.files.rows
  keyRows : db'.io.keyRows = db.io.keyRows
  cnt : db'.io.cnt = db.io.cnt
  prev : db'.io.prev = db.io.prev
  indexSize : db'.io.indexSize = db.io.indexSize

/-- A property that reading a row keeps, and everything that leaves the rows alone. -/
class Passive (I : JDb → Prop) : Prop where
  readKey : ∀ r, Maintains I (onIo (JIo.readKey r))
  same : ∀ {db db' : JDb}, I db → SameRows db db' → I db'

variable {I : JDb → Prop} [Passive I] {cfg : Config}

theorem passive_modify {f : JDb → JDb} (hf : ∀ db, SameRows db (f db)) :
    Maintains I (Exec.modify f : DbM Unit) :=
  .modify fun db h => Passive.same h (hf db)

theorem passive_modifyIo {f : JIo → JIo} (hf : ∀ db : JDb, SameRows db { db with io := f db.io }) :
    Maintains I (modifyIo f) :=
  passive_modify hf

theorem passive_readKey (r : ℕ) : Maintains I (onIo (JIo.readKey r)) := Passive.readKey r

theorem passive_getDeadRow (h req : ℕ) : Maintains I (onIo (JIo.getDeadRow h req)) := by
  intro db hdb
  refine Passive.same hdb ?_
  unfold onIo JIo.getDeadRow Exec.zoom Exec.modifyGet Exec.run
  dsimp only
  split <;> exact ⟨rfl, rfl, rfl, rfl, rfl⟩

theorem passive_cachePop (key : Key) : Maintains I (cachePop key) :=
  passive_modify fun _ => ⟨rfl, rfl, rfl, rfl, rfl⟩

theorem passive_cacheTouch (key : Key) : Maintains I (cacheTouch key) :=
  passive_modify fun _ => ⟨rfl, rfl, rfl, rfl, rfl⟩

theorem passive_updateCache (key : Key) (val : PyVal) (f : ℕ) : Maintains I (updateCache cfg key val f) :=
  passive_modify fun _ => ⟨rfl, rfl, rfl, rfl, rfl⟩

theorem passive_liveNow (env : Env) : Maintains I (liveNow env) :=
  .bind (passive_modifyIo fun _ => ⟨rfl, rfl, rfl, rfl, rfl⟩) fun _ => .pure _

theorem passive_tableSet (key : Key) (row f : ℕ) :
    Maintains I (modifyIo fun io => io.tableSet key row f) :=
  passive_modifyIo fun _ => ⟨rfl, rfl, rfl, rfl, rfl⟩

theorem passive_tablePop (key : Key) : Maintains I (modifyIo fun io => io.tablePop key) :=
  passive_modifyIo fun _ => ⟨rfl, rfl, rfl, rfl, rfl⟩

/-! ## VAL files and values -/

theorem passive_closeOldest (m : ℕ) : Maintains I (closeOldest m) := by
  induction m with
  | zero => exact .pure _
  | succ m ih =>
    unfold closeOldest
    refine .bind .get fun db => ?_
    split
    · exact .pure _
    · exact .bind (passive_modify fun _ => ⟨rfl, rfl, rfl, rfl, rfl⟩) fun _ => ih

theorem passive_getValFp (fileId : Option ℕ) (req : ℕ) : Maintains I (getValFp cfg fileId req) := by
  unfold getValFp
  refine .bind .get fun db => ?_
  extract_lets p
  split
  refine .ite (.pure _) (.bind (passive_closeOldest _) fun _ => .bind (.modifyGet fun db h => ?_) fun _ => .pure _)
  exact Passive.same h ⟨rfl, rfl, rfl, rfl, rfl⟩

theorem passive_writeVal (fileId offset : ℕ) (data : Bytes) : Maintains I (writeVal fileId offset data) :=
  passive_modifyIo fun _ => ⟨rfl, rfl, rfl, rfl, rfl⟩

theorem passive_rowValue (r : Core) : Maintains I (rowValue cfg r) := by
  unfold rowValue
  split
  · exact .lift _
  · exact .bind (passive_getValFp _ _) fun _ => .bind .get fun _ => .lift _

theorem passive_rowGroup (key : Key) (r : Core) : Maintains I (rowGroup cfg key r) := by
  unfold rowGroup
  refine .bind .get fun db => ?_
  split
  · exact .pure _
  · have hattach : ∀ g : PyVal, Maintains I
        (modifyIo fun io => { io with groups := io.groups.set key (some g) }) := by
      intro g
      exact passive_modifyIo fun _ => ⟨rfl, rfl, rfl, rfl, rfl⟩
    extract_lets attach
    have hg : ∀ g : PyVal, Maintains I (attach g) := fun g => .bind (hattach g) fun _ => .pure _
    refine .ite (.bind (.pure _) fun g => hg g) (.bind (passive_rowValue r) fun v => ?_)
    split
    · exact .bind (.pure _) fun g => hg g
    · exact .bind (.raise _) fun g => hg g

omit [Passive I] in
theorem passive_asTypeError {α : Type} {x : DbM α} (h : Maintains I x) :
    Maintains I (asTypeError x) := by
  intro db hdb
  have := h db hdb
  unfold Exec.run at this ⊢
  unfold asTypeError
  rcases hx : x db with ⟨_ | _, db'⟩ <;> rwa [hx] at this

theorem passive_decodeHere (key : Key) (r : Core) (update : Bool) :
    Maintains I (decodeHere cfg key r update) := by
  unfold decodeHere
  refine .guard (passive_cachePop _) (.bind .get fun db => ?_)
  split
  · exact .guard (passive_cacheTouch _) (.pure _)
  · refine passive_asTypeError (.ite (passive_rowGroup key r) (.bind (passive_rowValue r) fun v => ?_))
    exact .guard (passive_updateCache _ _ _) (.pure _)

/-! ## Links and reading -/

theorem passive_fGetGroup (key : Key) : Maintains I (fGetGroup cfg key) := by
  unfold fGetGroup
  refine .bind .get fun db => ?_
  split
  · exact .pure _
  · split
    · refine .ite (.bind (passive_readKey _) fun info => ?_) (.pure _)
      exact .ite (.bind (passive_decodeHere _ _ _) fun _ => .pure _) (.pure _)
    · exact .pure _

theorem passive_fLinkStep (target : PyVal) : Maintains I (fLinkStep cfg target) := by
  unfold fLinkStep
  split
  · refine .bind .get fun db => ?_
    split
    · exact .raise _
    · refine .ite (.raise _) (.bind (passive_readKey _) fun info => .ite (.raise _) (.ite ?_ ?_))
      · refine .bind (passive_fGetGroup _) fun g => ?_
        split
        · exact .raise _
        · exact .pure _
      · exact .ite (.raise _) (.pure _)
  · exact .raise _

theorem passive_fLinkRead (env : Env) (target : PyVal) : Maintains I (fLinkRead cfg env target) := by
  intro db hdb
  have hstep : I ((fLinkStep cfg target).run db).2 := passive_fLinkStep target db hdb
  unfold Exec.run at hstep ⊢
  unfold fLinkRead
  rcases hx : fLinkStep cfg target db with ⟨e | s, db'⟩
  · rw [hx] at hstep
    cases e <;> exact hstep
  · rw [hx] at hstep
    cases s with
    | value name row => exact passive_decodeHere name row.toCore true db' hstep
    | group g => exact hstep
    | descend g => exact hstep

theorem passive_decodeValue (env : Env) (key : Key) (r : Core) (update follow : Bool) :
    Maintains I (decodeValue cfg env key r update follow) := by
  unfold decodeValue
  exact .ite (.bind (passive_rowValue r) fun v => passive_fLinkRead env v) (passive_decodeHere key r update)

theorem passive_fRead (env : Env) (key : Key) (row : Option ℕ) (kf : FlagArg) :
    Maintains I (fRead cfg env key row kf) := by
  unfold fRead
  refine .bind .get fun db => ?_
  extract_lets entry kflags hit
  rcases hit with _ | v
  · dsimp only
    split
    · exact .pure _
    · rename_i r hr
      refine .ite (.bind (passive_tablePop _) fun _ => .pure _) (.bind (passive_readKey _) fun info => ?_)
      refine .ite (.bind (passive_liveNow _) fun _ => .bind .get fun db => ?_) (.bind .get fun db => ?_)
      all_goals
        exact .ite (.bind (passive_modify fun _ => ⟨rfl, rfl, rfl, rfl, rfl⟩) fun _ => .pure _)
          (.bind (passive_decodeValue _ _ _ _ _) fun _ => .pure _)
  · exact .bind (passive_cacheTouch _) fun _ => .pure _

/-! ## Steps of writing and undoing -/

theorem passive_noteExtent (enc : Enc) (sp : Space) : Maintains I (noteExtent enc sp) := by
  unfold noteExtent
  split
  · exact .pure _
  · exact passive_modifyIo fun _ => ⟨rfl, rfl, rfl, rfl, rfl⟩

theorem passive_setGroup (key : Key) (val : PyVal) : Maintains I (setGroup key val) :=
  .ite (passive_modifyIo fun _ => ⟨rfl, rfl, rfl, rfl, rfl⟩) (.pure _)

theorem passive_newMdays (env : Env) (mdays : Option ℕ) (transient : ℕ) (old : Row) (ttl : Ttl) :
    Maintains I (newMdays env mdays transient old ttl) := by
  unfold newMdays
  split
  · exact .pure _
  · exact .ite (.pure _) (.ite (passive_liveNow _) (.bind .get fun _ => .pure _))

theorem passive_undoGroup (key : Key) (r : Core) : Maintains I (undoGroup key r) :=
  .ite (.bind (passive_modifyIo fun _ => ⟨rfl, rfl, rfl, rfl, rfl⟩) fun _ => .pure _)
    (.bind (passive_modifyIo fun _ => ⟨rfl, rfl, rfl, rfl, rfl⟩) fun _ => .pure _)

theorem passive_seekRow (key : Key) (version : Option ℕ) (m : ℕ) : ∀ r,
    Maintains I (seekRow key version r m) := by
  induction m with
  | zero => intro r; exact .pure _
  | succ m ih =>
    intro r
    unfold seekRow
    exact .bind (passive_readKey r) fun info => .ite (.pure _) (ih _)


/-! ## The length of a line -/

/-- The lines of the index have `n` bytes. -/
def LineSize (n : ℕ) (db : JDb) : Prop := db.io.indexSize = n

theorem maintains_indexSize (n r : ℕ) : Maintains (fun io : JIo => io.indexSize = n) (JIo.readKey r) := by
  unfold JIo.readKey
  refine .bind (.modify fun _ h => h) fun _ => .bind .get fun io => ?_
  split
  · exact .bind (.modify fun _ h => h) fun _ => .pure _
  · refine .bind (.lift _) fun _ => .bind (.modify fun io' h => ?_) fun _ => .pure _
    split <;> exact h

instance (n : ℕ) : Passive (LineSize n) where
  readKey r := .zoom (fun _ h => h) (fun _ _ h _ => h) (maintains_indexSize n r)
  same h hs := hs.indexSize.trans h

theorem LineSize.wide {db db' : JDb} (h : LineSize db.io.indexSize db') : db'.io.wide cfg = db.io.wide cfg := by
  unfold JIo.wide
  rw [show db'.io.indexSize = db.io.indexSize from h]

end JDb

end OmniJsonDb
