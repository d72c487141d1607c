import OmniJsonDb.Model.Recycle
import OmniJsonDb.Proof.Versions

/-!
# Upkeep and the session counter

Over whole runs of calls, `recycle` and `resize_keys`, every version stays below the session
counter, so that a slice without bounds lists every live record; but for `resize_keys` with
`min_ver`, which counts versions anew and leaves remembered rows as they were.

* `Settled.recycle`, `Settled.resizeKeysMin`: upkeep keeps the stamps.
* `versions_of_runs`: all versions are below the counter, and slices list every live record.
* `versions_reach_counter`, `remembered_versions`: what `min_ver` breaks.
-/

namespace OmniJsonDb

open Exec (Maintains)

variable {cfg : Config}

namespace JDb

variable {db db' : JDb} {c : Counters} {P : Set ℕ} {b n : ℕ}

/-! ## `recycle` -/

theorem held_updateFileTable : Maintains (Held c P b) (modifyIo JIo.updateFileTable) :=
  passive_modifyIo fun _ => ⟨rfl, rfl, rfl, rfl, rfl⟩

theorem held_truncateHeader (now : ℕ) : Maintains (Held c P b) (onIo (JIo.truncateHeader now)) :=
  held_onIo (.modify fun _ h => h.same rfl rfl rfl)

theorem held_cutFile (fileId offset : ℕ) : Maintains (Held c P b) (cutFile fileId offset) := by
  unfold cutFile
  refine .bind .get fun db => ?_
  split
  · exact .raise _
  · exact passive_modifyIo fun _ => ⟨rfl, rfl, rfl, rfl, rfl⟩

theorem held_collectExpired (env : Env) (l : List (Key × ℕ × ℕ)) : Maintains (Held c P b) (collectExpired env l) := by
  induction l with
  | nil => exact .pure _
  | cons e rest ih =>
    obtain ⟨key, row, flags⟩ := e
    unfold collectExpired
    refine .ite (.bind (passive_readKey row) fun info => ?_) ih
    have hrest : Maintains (Held c P b) (do
        let db ← Exec.get
        let more ← collectExpired env rest
        pure (if isExpired db.io.now env.minute info then (row, info.key) :: more else more) : DbM _) :=
      .bind .get fun db => .bind ih fun more => .pure _
    exact .ite (.bind (passive_liveNow env) fun _ => hrest) hrest

/-- Not more records expire than there are. -/
theorem collectExpired_length (env : Env) (l : List (Key × ℕ × ℕ)) : ∀ db,
    Exec.Wp (collectExpired env l) db (fun gone _ => gone.length ≤ l.length) fun _ _ => True := by
  induction l with
  | nil => intro db; exact le_rfl
  | cons e rest ih =>
    intro db
    obtain ⟨key, row, flags⟩ := e
    have hrest : ∀ info db₁, Exec.Wp (do
        let db ← Exec.get
        let more ← collectExpired env rest
        pure (if isExpired db.io.now env.minute info then (row, info.key) :: more else more) : DbM _) db₁
        (fun gone _ => gone.length ≤ rest.length + 1) fun _ _ => True := by
      intro info db₁
      rw [Exec.wp_bind, Exec.wp_get, Exec.wp_bind]
      refine Exec.wp_mono (ih db₁) (fun more _ hm => ?_) fun _ _ h' => h'
      rw [Exec.wp_ret]
      split
      · exact Nat.succ_le_succ hm
      · exact Nat.le_succ_of_le hm
    unfold collectExpired
    split
    · rw [Exec.wp_bind]
      refine Exec.wp_of_run (fun info db₁ _ => ?_) fun _ _ _ => trivial
      extract_lets
      split
      · rw [Exec.wp_bind]
        exact Exec.wp_of_run (fun _ db₂ _ => hrest info db₂) fun _ _ _ => trivial
      · exact hrest info db₁
    · exact Exec.wp_mono (ih db) (fun _ _ hm => Nat.le_succ_of_le hm) fun _ _ h' => h'

theorem Settled.dropRows (env : Env) : ∀ (l : List (ℕ × Key)) {db : JDb}, Settled (n + l.length) db →
    Exec.Wp (dropRows cfg env l) db (fun _ db' => Settled n db') fun _ _ => True := by
  intro l
  induction l with
  | nil => intro db h; exact h
  | cons e rest ih =>
    intro db h
    have h : Settled ((n + rest.length) + 1) db := h
    unfold JDb.dropRows
    rw [Exec.wp_bind]
    refine Exec.wp_mono (h.fDelete env e.2 false (some e.1) Option.none (.int UNLOCK)) ?_ fun _ _ _ => trivial
    exact fun _ db' h' => ih h'

/-- No row is left to carry a version. -/
theorem Settled.removeFiles (h : Settled n db) (hn : db.io.cnt.nRecords = 0) (env : Env) :
    Exec.Wp (removeFiles env) db (fun _ db' => Settled n db') fun _ _ => True := by
  unfold JDb.removeFiles
  rw [Exec.wp_bind, Exec.wp_modify]
  refine Settled.last ?_ (held_truncateHeader _)
  have hroom := h.room
  refine ⟨⟨rfl, fun r hr => ?_, fun r row hr => ?_, h.stamped.few⟩, ?_, ?_⟩
  · exact absurd hr (Nat.not_lt_zero r)
  · obtain ⟨hlive, -⟩ := h.stamped.cached r row hr (Set.notMem_empty r)
    omega
  · exact hn.le
  · change 0 + n < 2 ^ 43
    omega

/-- What ends a `recycle`: the counter is bumped. -/
theorem Held.finishRecycle (h : Held c ∅ (c.syncId + 1) db) (hle : c.nRecords ≤ c.nLines)
    (hroom : c.syncId + (n + 1) < 2 ^ 43) (env : Env) :
    Exec.Wp (finishRecycle env) db (fun _ db' => Settled n db') fun _ _ => True := by
  unfold JDb.finishRecycle
  refine h.step held_updateFileTable fun _ db₁ h₁ => ?_
  refine Settled.after (h₁.bumpSync hle hroom) fun _ db₂ h₂ => ?_
  exact h₂.last (held_truncateHeader _)

/-- The dead rows are written anew behind the live ones. -/
theorem Held.packDead (hb : c.syncId < b) : ∀ (l : List (ℕ × Row)) {m : ℕ} {db : JDb}, c.nRecords ≤ m →
    Held (withLines c m) ∅ b db → (∀ e ∈ l, e.2.ver < b) →
    Exec.Wp (packDead cfg l) db (fun _ db' => ∃ m, c.nRecords ≤ m ∧ Held (withLines c m) ∅ b db')
      fun _ _ => True := by
  intro l
  induction l with
  | nil => intro m db hm h _; exact ⟨m, hm, h⟩
  | cons e rest ih =>
    intro m db hm h hl
    have hrest : ∀ e ∈ rest, e.2.ver < b := fun x hx => hl x (List.mem_cons_of_mem _ hx)
    unfold JDb.packDead
    rw [Exec.wp_bind, Exec.wp_get]
    split
    · exact Held.step h (held_cutFile _ _) fun _ db₁ h₁ => ih hm h₁ hrest
    · have hcnt : db.io.cnt.nLines = m := congrArg Counters.nLines h.cnt
      unfold modifyIo
      rw [Exec.wp_bind, Exec.wp_modify, Exec.wp_bind]
      have hline : Held (withLines c (m + 1)) {m} b
          { db with io := { db.io with cnt := withLines db.io.cnt (db.io.cnt.nLines + 1) } } :=
        Held.line h rfl rfl rfl
      refine Exec.wp_mono (Held.writeKey hline hb db.io.cnt.nLines fun v hv => ?_) ?_ fun _ _ h' => h'
      · cases hv
        exact hl e (List.mem_cons_self ..)
      · intro _ db₁ h₁
        rw [hcnt, Set.sdiff_self] at h₁
        rw [Exec.wp_bind, Exec.wp_modify, Exec.wp_bind]
        have h₂ : Held (withLines c (m + 1)) ∅ b { db₁ with io := { db₁.io with
            fileTable := db₁.io.fileTable.set e.2.fileId (endOf db₁.io e.2.fileId (e.2.offset + e.2.rowSize)) } } :=
          JIo.Stamped.same h₁ rfl rfl rfl
        refine Exec.wp_mono (ih (hm.trans (Nat.le_succ m)) h₂ hrest) ?_ fun _ _ h' => h'
        exact fun _ _ h' => h'

/-- Live rows take the gaps behind them; their versions stay. -/
theorem Held.absorb (hb : c.syncId < b) (m : ℕ) : ∀ (r : ℕ) (gaps : OrdDict (ℕ × ℕ) ℕ) {db : JDb}, Held c ∅ b db →
    Exec.Wp (absorb cfg r m gaps) db (fun _ db' => Held c ∅ b db') fun _ _ => True := by
  induction m with
  | zero => intro r gaps db h; exact h
  | succ m ih =>
    intro r gaps db h
    unfold JDb.absorb
    rw [Exec.wp_bind]
    refine Exec.wp_mono (h.readKey r) ?_ fun _ _ _ => trivial
    rintro info db₁ ⟨h₁, hv⟩
    have hver : ∀ v, some info.ver = some v → v < b := by
      intro v hv'
      cases hv'
      exact (hv (Set.notMem_empty r)).2
    split
    · extract_lets size next
      have hnext : ∀ db₂, Held c ∅ b db₂ →
          Exec.Wp (next ()) db₂ (fun _ db' => Held c ∅ b db') fun _ _ => True := fun db₂ h₂ => ih _ _ h₂
      split
      · have hwrite : ∀ db₂, Held c ∅ b db₂ → Exec.Wp (do
            let _ ← onIo (JIo.writeKey cfg r { info.args with rowSize := info.rowSize + size })
            next ()) db₂ (fun _ db' => Held c ∅ b db') fun _ _ => True := by
          intro db₂ h₂
          exact h₂.put hb r hver fun _ db₃ h₃ => hnext db₃ h₃
        split
        · refine h₁.step (passive_getValFp _ _) fun _ db₂ h₂ => h₂.step (passive_writeVal _ _ _) fun _ db₃ h₃ => ?_
          exact hwrite db₃ h₃
        · exact hwrite db₁ h₁
      · exact hnext db₁ h₁
    · exact ih _ _ h₁

/-- The gaps that are left are recorded, each in a line of its own. -/
theorem Held.keepGaps (hb : c.syncId < b) : ∀ (l : List ((ℕ × ℕ) × ℕ)) {m : ℕ} {db : JDb}, c.nRecords ≤ m →
    Held (withLines c m) ∅ b db →
    Exec.Wp (keepGaps cfg l) db (fun _ db' => ∃ m, c.nRecords ≤ m ∧ Held (withLines c m) ∅ b db')
      fun _ _ => True := by
  intro l
  induction l with
  | nil => intro m db hm h; exact ⟨m, hm, h⟩
  | cons e rest ih =>
    obtain ⟨⟨fileId, offset⟩, size⟩ := e
    intro m db hm h
    unfold JDb.keepGaps
    rw [Exec.wp_bind, Exec.wp_get]
    split
    · exact Held.step h (held_cutFile _ _) fun _ db₁ h₁ => ih hm h₁
    · have hcnt : db.io.cnt.nLines = m := congrArg Counters.nLines h.cnt
      unfold onIo modifyIo
      rw [Exec.wp_bind, Exec.wp_zoom]
      refine Exec.wp_mono (JIo.Stamped.wp_writeKey h hb db.io.cnt.nLines fun v hv => by cases hv) ?_ fun _ _ h' => h'
      rintro _ io' ⟨h₁, hver⟩
      rw [Set.empty_sdiff] at h₁
      rw [hcnt] at hver
      rw [Exec.wp_bind, Exec.wp_modify]
      refine ih (hm.trans (Nat.le_succ m)) ?_
      exact h₁.fillLine hver (congrArg (fun cnt : Counters => withLines cnt (cnt.nLines + 1)) h₁.cnt) rfl rfl

theorem Held.mergeGaps (h : Held c ∅ b db) (hb : c.syncId < b) (hle : c.nRecords ≤ c.nLines)
    (gaps : List (Gap × ℕ)) :
    Exec.Wp (mergeGaps cfg gaps) db (fun _ db' => ∃ m, c.nRecords ≤ m ∧ Held (withLines c m) ∅ b db')
      fun _ _ => True := by
  unfold JDb.mergeGaps
  rw [Exec.wp_bind, Exec.wp_get, Exec.wp_bind]
  refine Exec.wp_mono (Held.absorb hb _ 0 _ h) ?_ fun _ _ h' => h'
  intro left db₁ h₁
  unfold modifyIo
  rw [Exec.wp_bind, Exec.wp_modify]
  refine Held.keepGaps hb _ le_rfl (JIo.Stamped.recount h₁ rfl rfl ?_ le_rfl hle)
  have hcnt := h₁.cnt
  subst hcnt
  rfl

theorem Settled.packRows (h : Settled (n + 1) db) (env : Env) (merge : Bool) :
    Exec.Wp (packRows cfg env merge) db (fun _ db' => Settled n db') fun _ _ => True := by
  have hb : db.io.cnt.syncId < db.io.cnt.syncId + 1 := Nat.lt_succ_self _
  have hmono : ∀ {db₁ : JDb}, Settled (n + 1) db₁ → Settled n db₁ := fun h' => h'.mono (Nat.le_succ n)
  unfold JDb.packRows
  rw [Exec.wp_bind, Exec.wp_get]
  extract_lets n₀ dead used sortable last done finish
  split
  · split
    · exact (hmono h).last (held_truncateHeader _)
    · exact hmono h
  · -- the gaps were found, and some lines are left
    have hfinish : ∀ gaps m db₁, db.io.cnt.nRecords ≤ m →
        Held (withLines db.io.cnt m) ∅ (db.io.cnt.syncId + 1) db₁ →
        Exec.Wp (finish gaps) db₁ (fun _ db' => Settled n db') fun _ _ => True := by
      intro gaps m db₁ hm h₁
      unfold finish
      have hdone : ∀ m' db₂, db.io.cnt.nRecords ≤ m' → Held (withLines db.io.cnt m') ∅ (db.io.cnt.syncId + 1) db₂ →
          Exec.Wp (done ()) db₂ (fun _ db' => Settled n db') fun _ _ => True :=
        fun m' db₂ hm' h₂ => Held.finishRecycle h₂ hm' h.room env
      split
      · rw [Exec.wp_bind]
        refine Exec.wp_mono (Held.mergeGaps h₁ hb hm gaps) ?_ fun _ _ h' => h'
        rintro _ db₂ ⟨m', hm', h₂⟩
        exact hdone m' db₂ hm' h₂
      · exact hdone m db₁ hm h₁
    split
    · unfold modifyIo
      rw [Exec.wp_bind, Exec.wp_modify, Exec.wp_bind]
      have hcut : Held (withLines db.io.cnt n₀) ∅ (db.io.cnt.syncId + 1)
          { db with io := { db.io with cnt := { db.io.cnt with nLines := n₀ } } } :=
        JIo.Stamped.recount h.held rfl rfl rfl le_rfl h.le
      refine Exec.wp_mono (Held.packDead hb _ le_rfl hcut fun e he => ?_) ?_ fun _ _ h' => h'
      · -- the rows that are packed were lines before
        have hmem := List.mem_of_mem_filter ((List.mem_insertionSort _).1 he)
        obtain ⟨-, hlt, hrow⟩ := mem_keyIter (show (e.1, e.2) ∈ _ from hmem)
        rw [hrow]
        exact h.held.stored e.1 hlt (Set.notMem_empty _)
      · rintro gaps db₁ ⟨m, hm, h₁⟩
        exact hfinish gaps m db₁ hm h₁
    · exact Held.step h.held (.pure _) fun gaps db₁ h₁ => hfinish gaps _ db₁ h.le h₁

/-- **`recycle`** keeps the stamps below the counter. -/
theorem Settled.recycle (h : Settled (n + db.io.keyTable.size + 1) db) (env : Env) (merge : Bool) :
    Exec.Wp (recycle cfg env merge) db (fun _ db' => Settled n db') fun _ _ => True := by
  unfold JDb.recycle
  rw [Exec.wp_bind, Exec.wp_get, Exec.wp_bind]
  refine Exec.wp_mono (Exec.wp_and (h.wp (held_collectExpired env db.io.keyTable.entries))
    (collectExpired_length env db.io.keyTable.entries db)) ?_ fun _ _ _ => trivial
  rintro gone db₁ ⟨h₁, hlen⟩
  have hlen : (gone.insertionSort fun a b => expiredLe a b).length ≤ db.io.keyTable.size := by
    rw [List.length_insertionSort]
    exact hlen
  have h₁ : Settled ((n + 1) + (gone.insertionSort fun a b => expiredLe a b).length) db₁ :=
    h₁.mono (by omega)
  refine Settled.after (Settled.dropRows env _ h₁) fun _ db₂ h₂ => ?_
  rw [Exec.wp_bind, Exec.wp_get]
  split
  · rename_i hn
    exact (h₂.mono (Nat.le_succ n)).removeFiles hn env
  · split
    · exact h₂.held.finishRecycle h₂.le h₂.room env
    · exact h₂.packRows env merge

end JDb

/-! ## Which rows stay remembered -/

namespace OrdDict

variable {α : Type} {d : OrdDict ℕ α} {j : ℕ} {a : α}

theorem keys_set_new (h : d.get? j = none) : (d.set j a).keys = d.keys ++ [j] := by
  have hj : j ∉ d.keys := get?_eq_none_iff.1 h
  obtain ⟨l, hl⟩ := d
  unfold keys set at *
  simp only at *
  clear h hl
  induction l with
  | nil => rfl
  | cons e es ih =>
    simp only [List.map_cons, List.mem_cons, not_or] at hj
    rw [setEntries, if_neg (fun he => hj.1 he.symm), List.map_cons, ih hj.2]
    rfl

theorem keys_touch (h : d.get? j = some a) :
    (d.touch j).keys = (d.keys.filter fun x => decide (x ≠ j)) ++ [j] := by
  have hpop : (d.pop j).get? j = none := by rw [get?_pop, if_pos rfl]
  unfold touch
  rw [h]
  dsimp only
  rw [keys_set_new hpop, keys_pop]

theorem keys_keepLast (n : ℕ) : (d.keepLast n).keys = d.keys.drop (d.size - n) := List.map_drop

theorem length_keys : d.keys.length = d.size := List.length_map _

/-- The last `n` of the rows below `j`, read in their order, are the youngest entries. -/
def Trails (n : ℕ) (d : OrdDict ℕ α) (j : ℕ) : Prop :=
  ∃ front, d.keys = front ++ List.range' (j - min j n) (min j n)

/-- Once `n` rows were read, no other entry is left. -/
theorem Trails.full {n : ℕ} (h : d.Trails n j) (hs : d.size ≤ n) (hj : n ≤ j) : d.keys = List.range' (j - n) n := by
  obtain ⟨front, hf⟩ := h
  rw [Nat.min_eq_right hj] at hf
  have hlen := congrArg List.length hf
  rw [length_keys, List.length_append, List.length_range'] at hlen
  have hnil : front = [] := List.length_eq_zero_iff.1 (by omega)
  rw [hf, hnil, List.nil_append]

theorem Trails.touch {n : ℕ} (h : d.Trails n j) (hs : d.size ≤ n) (hj : d.get? j = some a) :
    (d.touch j).Trails n (j + 1) := by
  by_cases hn : n ≤ j
  · -- row `j` is not one of the rows before it
    have hmem := mem_keys_iff.2 ⟨a, hj⟩
    rw [h.full hs hn, List.mem_range'_1] at hmem
    omega
  · obtain ⟨front, hf⟩ := h
    rw [Nat.min_eq_left (by omega), Nat.sub_self] at hf
    refine ⟨front.filter fun x => decide (x ≠ j), ?_⟩
    have hsame : (List.range' 0 j).filter (fun x => decide (x ≠ j)) = List.range' 0 j := by
      rw [List.filter_eq_self]
      intro x hx
      have := (List.mem_range'_1.1 hx).2
      simp only [ne_eq, decide_eq_true_eq]
      omega
    rw [keys_touch hj, hf, List.filter_append, hsame, Nat.min_eq_left (by omega), Nat.sub_self,
      List.range'_1_concat, Nat.zero_add, List.append_assoc]

theorem Trails.set {n : ℕ} (h : d.Trails n j) (hs : d.size ≤ n) (hj : d.get? j = none) :
    ((d.set j a).keepLast n).Trails n (j + 1) := by
  have hsize : (d.set j a).size = d.size + 1 := by rw [size_set, if_pos hj]
  by_cases hn : n ≤ j
  · have hkeys := h.full hs hn
    have hlen : d.size = n := by rw [← length_keys, hkeys, List.length_range']
    refine ⟨[], ?_⟩
    have hnext : j - n + n = j := by omega
    have hrange : d.keys ++ [j] = List.range' (j - n) (n + 1) := by rw [hkeys, List.range'_1_concat, hnext]
    rw [keys_keepLast, keys_set_new hj, hsize, hlen, hrange, List.drop_range', Nat.min_eq_right (by omega),
      List.nil_append]
    congr 1 <;> omega
  · obtain ⟨front, hf⟩ := h
    rw [Nat.min_eq_left (by omega), Nat.sub_self] at hf
    have hlen := congrArg List.length hf
    rw [length_keys, List.length_append, List.length_range'] at hlen
    refine ⟨front.drop (d.size + 1 - n), ?_⟩
    rw [keys_keepLast, keys_set_new hj, hsize, hf, List.append_assoc,
      List.drop_append_of_le_length (by omega), Nat.min_eq_left (by omega), Nat.sub_self, List.range'_1_concat,
      Nat.zero_add]

end OrdDict

namespace JIo

variable {io : JIo} {c : Counters} {P : Set ℕ} {b : ℕ}

/-- What is remembered while the live rows are read in their order. -/
structure Recalls (io₀ : JIo) (j : ℕ) (io : JIo) : Prop where
  files : io.files = io₀.files
  trails : io.keyRows.Trails TOTAL_KEY_ROWS j
  known : ∀ r row, io.keyRows.get? r = some row → row = io₀.row r ∨ io₀.keyRows.get? r = some row

/-- Reading the next live row. -/
theorem Recalls.readKey {io₀ : JIo} {j : ℕ} (h : Recalls io₀ j io) (hst : io.Stamped c P b) (hj : j < c.nRecords) :
    Exec.Wp (JIo.readKey j) io (fun _ io' => Recalls io₀ (j + 1) io') (fun _ _ => True) := by
  have hcnt := hst.cnt
  subst hcnt
  unfold JIo.readKey
  simp only [Exec.wp_bind, Exec.wp_modify, Exec.wp_get]
  split
  · rename_i row hr
    have hr : io.keyRows.get? j = some row := hr
    simp only [Exec.wp_bind, Exec.wp_modify, Exec.wp_ret]
    refine ⟨h.files, h.trails.touch hst.few hr, fun r row' hr' => ?_⟩
    have hr' : (io.keyRows.touch j).get? r = some row' := hr'
    rw [OrdDict.get?_touch] at hr'
    exact h.known r row' hr'
  · rename_i hr
    have hr : io.keyRows.get? j = none := hr
    simp only [Exec.wp_bind, Exec.wp_lift]
    refine ⟨fun row hrow => ?_, fun _ _ => trivial⟩
    simp only [Exec.wp_modify, Exec.wp_ret, if_pos hj]
    refine ⟨h.files, h.trails.set hst.few hr, fun r row' hr' => ?_⟩
    rcases get?_rememberKey hr' with ⟨rfl, rfl⟩ | hr'
    · left
      unfold stored? at hrow
      split at hrow
      · cases hrow
        unfold JIo.row
        rw [← h.files]
      · cases hrow
    · exact h.known r row' hr'

/-- Reading a dead row leaves the remembered live ones alone. -/
theorem keyRows_readKey_dead (hst : io.Stamped c ∅ b) {r : ℕ} (hr : c.nRecords ≤ r) :
    Exec.Wp (readKey r) io (fun _ io' => io'.keyRows = io.keyRows) (fun _ _ => True) := by
  have hcnt := hst.cnt
  subst hcnt
  unfold readKey
  simp only [Exec.wp_bind, Exec.wp_modify, Exec.wp_get]
  split
  · rename_i row hrow
    obtain ⟨hlive, -⟩ := hst.cached r row hrow (Set.notMem_empty r)
    omega
  · simp only [Exec.wp_bind, Exec.wp_lift]
    refine ⟨fun row hrow => ?_, fun _ _ => trivial⟩
    simp only [Exec.wp_modify, Exec.wp_ret, if_neg (Nat.not_lt.2 hr)]
    rfl

/-- Reading the rows in their order. -/
theorem Recalls.readKeys {io₀ : JIo} (m : ℕ) : ∀ {r : ℕ} {io : JIo}, Recalls io₀ (min r c.nRecords) io →
    io.Stamped c ∅ b → Exec.Wp (JIo.readKeys r m) io (fun _ io' => Recalls io₀ (min (r + m) c.nRecords) io')
      (fun _ _ => True) := by
  induction m with
  | zero => intro r io h _; exact h
  | succ m ih =>
    intro r io h hst
    have hnext : Exec.Wp (JIo.readKey r) io (fun _ io' => Recalls io₀ (min (r + 1) c.nRecords) io') (fun _ _ => True) := by
      by_cases hr : r < c.nRecords
      · rw [Nat.min_eq_left hr.le] at h
        rw [Nat.min_eq_left (Nat.succ_le_of_lt hr)]
        exact h.readKey hst hr
      · have hr : c.nRecords ≤ r := Nat.le_of_not_lt hr
        rw [Nat.min_eq_right hr] at h
        rw [Nat.min_eq_right (hr.trans (Nat.le_succ r))]
        refine Exec.wp_mono (Exec.wp_and (keyRows_readKey_dead hst hr) ((Stamped.files_readKey io.files r).wp rfl)) ?_
          fun _ _ _ => trivial
        rintro _ io₁ ⟨hk, hf⟩
        exact ⟨hf.trans h.files, hk ▸ h.trails, hk ▸ h.known⟩
    unfold JIo.readKeys
    simp only [Exec.wp_bind, Exec.wp_ret]
    refine Exec.wp_mono (Exec.wp_and hnext (hst.wp_readKey r)) ?_ fun _ _ _ => trivial
    rintro row io₁ ⟨h₁, hst₁, -⟩
    rw [show r + (m + 1) = r + 1 + m by omega]
    exact ih h₁ hst₁

/-- Only the last rows are remembered after all were read. -/
theorem Recalls.recent {io₀ : JIo} (h : Recalls io₀ c.nRecords io) (hst : io.Stamped c P b) {r : ℕ} {row : Row}
    (hr : io.keyRows.get? r = some row) : c.nRecords ≤ r + TOTAL_KEY_ROWS := by
  by_cases hn : TOTAL_KEY_ROWS ≤ c.nRecords
  · have hmem := OrdDict.mem_keys_iff.2 ⟨row, hr⟩
    rw [h.trails.full hst.few hn, List.mem_range'_1] at hmem
    omega
  · omega

/-! ## `resize_keys` with `min_ver` -/

/-- Counting versions anew is safe: there is nothing to do, or there are at least two lines and
no row that may be remembered afterwards has a version that is not below their number. -/
def Recountable (io : JIo) (size : ℕ) : Prop :=
  (align8 size = io.indexSize ∧ io.cnt.syncId ≤ io.cnt.nLines) ∨
    (io.cnt.nLines ≠ 1 ∧ ∀ r < io.cnt.nRecords, io.cnt.nRecords ≤ r + TOTAL_KEY_ROWS →
      (io.row r).ver < io.cnt.nLines ∧ (io.keyRows.get? r).all fun row => decide (row.ver < io.cnt.nLines))

instance (io : JIo) (size : ℕ) : Decidable (io.Recountable size) := by
  unfold Recountable
  infer_instance

/-- A version counted from the number of lines down. -/
theorem leastVer_lt {ver sync lines : ℕ} (h : ver < sync) (hl : 2 ≤ lines) :
    max 1 (ver + lines - sync) < max 1 lines := by omega

/-- **`resize_keys` with `min_ver`** stamps the rows anew, below the new counter. -/
theorem Stamped.wp_resizeKeysMin (h : io.Stamped io.cnt ∅ io.cnt.syncId) (hle : io.cnt.nRecords ≤ io.cnt.nLines)
    {size : ℕ} (hr : io.Recountable size) :
    Exec.Wp (resizeKeysMin cfg size) io (fun _ io' => io'.Stamped io'.cnt ∅ io'.cnt.syncId ∧
        io'.cnt.nRecords = io.cnt.nRecords ∧ io'.cnt.nLines = io.cnt.nLines ∧
        io'.cnt.syncId ≤ max 1 (max io.cnt.syncId io.cnt.nLines)) (fun _ _ => True) := by
  unfold JIo.resizeKeysMin
  rw [Exec.wp_bind, Exec.wp_get]
  extract_lets size'
  split
  · exact ⟨h, rfl, rfl, by omega⟩
  · rename_i hnot
    obtain ⟨hone, hrecent⟩ : io.cnt.nLines ≠ 1 ∧ _ := hr.resolve_left hnot
    have hstart : Recalls io (min 0 io.cnt.nRecords) io := by
      refine ⟨rfl, ⟨io.keyRows.keys, ?_⟩, fun r row hr => .inr hr⟩
      simp
    rw [Exec.wp_bind]
    refine Exec.wp_mono (Exec.wp_and (h.wp_readKeys io.cnt.nLines 0 io) (hstart.readKeys io.cnt.nLines h)) ?_
      fun _ _ _ => trivial
    rintro rows io₁ ⟨⟨h₁, -, hlen, hvs⟩, hrec⟩
    rw [Nat.zero_add, Nat.min_eq_right hle] at hrec
    rw [Exec.wp_bind, Exec.wp_lift]
    refine ⟨fun ks hks => ?_, fun _ _ => trivial⟩
    rw [Exec.wp_bind, Exec.wp_modify, h₁.cnt]
    have hver := reencode_ver _ _ hks
    have hst : JIo.Stamped { io.cnt with
          syncId := max 1 io.cnt.nLines
          swapId := io.cnt.swapId % 2 + 1
          remvId := io.cnt.remvId % 2 + 1 } ∅ (max 1 io.cnt.nLines)
        { io₁ with
          cnt := { io.cnt with
            syncId := max 1 io.cnt.nLines
            swapId := io.cnt.swapId % 2 + 1
            remvId := io.cnt.remvId % 2 + 1 }
          indexSize := size'
          prev := { io₁.prev with nLines := 0 }
          files := { io₁.files with
            rows := fun r => (ks[r]?).getD (io₁.files.rows r)
            keySize := HEADER_SIZE + io.cnt.nLines * size' } } := by
      refine ⟨rfl, fun r hr _ => ?_, fun r row hrow _ => ?_, h₁.few⟩
      · -- a stored row is one that was read, with its version counted anew
        have hr : r < io.cnt.nLines := hr
        obtain ⟨row, hrow⟩ : ∃ row, rows[r]? = some row := ⟨_, List.getElem?_eq_getElem (by omega)⟩
        have hget := congrArg (fun l => l[r]?) hver
        simp only [List.getElem?_map, List.getElem?_mapIdx, hrow, Option.map_some] at hget
        obtain ⟨k, hk, hkv⟩ := Option.map_eq_some_iff.1 hget
        change (unpackRow ((ks[r]?).getD (io₁.files.rows r))).ver < _
        rw [hk, Option.getD_some, hkv]
        exact leastVer_lt (hvs r row hrow (Set.notMem_empty _)) (by omega)
      · -- a remembered row is one of the last, and keeps its version
        obtain ⟨hlive, -⟩ := h₁.cached r row hrow (Set.notMem_empty r)
        obtain ⟨hs, hc⟩ := hrecent r hlive (hrec.recent h₁ hrow)
        refine ⟨hlive, lt_of_lt_of_le ?_ (le_max_right _ _)⟩
        rcases hrec.known r row hrow with rfl | hcache
        · exact hs
        · rw [hcache] at hc
          exact of_decide_eq_true hc
    refine Exec.wp_mono (hst.wp_writeHeader (E := fun _ _ => True)) ?_ fun _ _ h' => h'
    intro _ io₂ h₂
    have hcnt := h₂.cnt
    rw [hcnt]
    exact ⟨h₂, rfl, rfl, by simp only; omega⟩

end JIo

namespace JDb

variable {db db' : JDb} {n : ℕ}

theorem Settled.resizeKeys (h : Settled n db) (size : ℕ) :
    Exec.Wp (onIo (JIo.resizeKeys cfg size)) db (fun _ db' => Settled n db') fun _ _ => True := by
  unfold onIo
  rw [Exec.wp_zoom]
  refine Exec.wp_mono (h.stamped.wp_resizeKeys size) ?_ fun _ _ h' => h'
  intro _ io' h'
  have h₁ : Held db.io.cnt ∅ db.io.cnt.syncId { db with io := io' } := h'
  exact h.of_held h₁

theorem Settled.resizeKeysMin (h : Settled 0 db) (hroom : max db.io.cnt.syncId db.io.cnt.nLines < 2 ^ 43) {size : ℕ}
    (hr : db.io.Recountable size) :
    Exec.Wp (onIo (JIo.resizeKeysMin cfg size)) db (fun _ db' => Settled 0 db') fun _ _ => True := by
  unfold onIo
  rw [Exec.wp_zoom]
  refine Exec.wp_mono (JIo.Stamped.wp_resizeKeysMin h.stamped h.le hr) ?_ fun _ _ h' => h'
  rintro _ io' ⟨hst, hn, hl, hs⟩
  have hle := h.le
  refine ⟨hst, ?_, ?_⟩
  · change io'.cnt.nRecords ≤ io'.cnt.nLines
    omega
  · change io'.cnt.syncId + 0 < 2 ^ 43
    omega

/-! ## Calls -/

/-- No counter wraps within a call. -/
def Roomy (db : JDb) : Prop :=
  max db.io.cnt.syncId db.io.cnt.nLines + db.io.keyTable.size + db.expired.length + 3 < 2 ^ 43

instance (db : JDb) : Decidable db.Roomy := by
  unfold Roomy
  infer_instance

end JDb

/-- A row that is to be brought back is a parked one. -/
def Call.Parked (db : JDb) : Call → Prop
  | .undelete key (some r) _ => db.io.keyTable.contains key = false → db.io.cnt.nRecords ≤ r
  | _ => True

instance (db : JDb) (c : Call) : Decidable (c.Parked db) := by
  unfold Call.Parked
  split <;> infer_instance

/-- What the versions rely on: the counters have room, an undo is about a parked row, and
versions are counted anew only where that is safe. -/
def Work.Fresh (db : JDb) : Work → Prop
  | .call c => db.Roomy ∧ c.Parked db
  | .recycle _ => db.Roomy
  | .resize size minVer => db.Roomy ∧ (minVer = true → db.io.Recountable size)

instance (db : JDb) (w : Work) : Decidable (w.Fresh db) := by
  unfold Work.Fresh
  split <;> infer_instance

namespace JDb

variable {db : JDb}

/-- **Every call** keeps the versions below the counter. -/
theorem Settled.call (h : Settled (db.expired.length + 3) db) (env : Env) {c : Call} (hc : c.Parked db) :
    Exec.Wp (c.exec cfg env) db (fun _ db' => Settled 0 db') fun _ _ => True := by
  have h₁ : Settled (0 + 1) db := h.mono (by omega)
  cases c with
  | opened => exact Exec.wp_map.2 ((h.mono (Nat.zero_le _)).openSession env)
  | closed => exact Exec.wp_map.2 (Settled.closeSession (h.mono (by omega)) env)
  | write key val a => exact Exec.wp_map.2 (h₁.fWrite env key val a)
  | append key val ttl kf => exact Exec.wp_map.2 (h₁.fAppend env key val ttl kf)
  | delete key rv row fl kf =>
    exact Exec.wp_map.2 (Exec.wp_mono (h₁.fDelete env key rv row fl kf) (fun _ _ h' => h') fun _ _ _ => trivial)
  | undelete key row fl =>
    refine Exec.wp_map.2 (h₁.fUndelete key row fl fun r hr hk => ?_)
    subst hr
    exact hc hk
  | unwrite key row => exact Exec.wp_map.2 (h₁.fUnwrite key row)
  | rename key newKey => exact Exec.wp_map.2 (h₁.fRename key newKey)
  | writeKeyFlags key fl ttl md => exact Exec.wp_map.2 (h₁.fWriteKeyFlags key fl ttl md)
  | setDate key cd md ttl => exact Exec.wp_map.2 (h₁.setDate key cd md ttl)
  | setLink key target => exact Exec.wp_map.2 (Settled.setLink (h.mono (by omega)) env key target)
  | unmodify key ver => exact Exec.wp_map.2 (h₁.unmodify key ver)
  | revert key ver => exact Exec.wp_map.2 (h₁.revert key ver)
  | read key row kf => exact Exec.wp_map.2 ((h.mono (Nat.zero_le _)).last (passive_fRead env key row kf))

/-- **Every piece of work** keeps the versions below the counter. -/
theorem Settled.work (h : Settled 0 db) (env : Env) {w : Work} (hw : w.Fresh db) :
    Exec.Wp (w.exec cfg env) db (fun _ db' => Settled 0 db') fun _ _ => True := by
  have hroomy : db.Roomy := by
    cases w with
    | call c => exact hw.1
    | recycle merge => exact hw
    | resize size minVer => exact hw.1
  unfold Roomy at hroomy
  have hmore : Settled (db.io.keyTable.size + db.expired.length + 3) db := ⟨h.stamped, h.le, by omega⟩
  cases w with
  | call c => exact Exec.wp_map.2 (Settled.call (hmore.mono (by omega)) env hw.2)
  | recycle merge => exact Settled.recycle (hmore.mono (by omega)) env merge
  | resize size minVer =>
    cases minVer with
    | false => exact h.resizeKeys size
    | true => exact h.resizeKeysMin (by omega) (hw.2 rfl)

end JDb

/-- A step of work that the versions can rely on. -/
def FreshStep (cfg : Config) (db : JDb) (l : Env × Work) (db' : JDb) : Prop :=
  WorkStep cfg db l db' ∧ l.2.Fresh db

/-- **The stamps over whole runs.** -/
theorem settled_of_runs {tr : List (Env × Work)} {db : JDb} (hr : Runs (FreshStep cfg) (JDb.init cfg) tr db) :
    db.Settled 0 := by
  refine hr.invariant ?_ fun db l db' h hs => ?_
  · refine ⟨⟨rfl, fun r hr => absurd hr (Nat.not_lt_zero r), fun r row hr => (by cases hr), Nat.zero_le _⟩, le_rfl, ?_⟩
    change 0 + 0 < 2 ^ 43
    omega
  · exact (h.work l.1 hs.2).ok hs.1

/-! ## Listing -/

namespace JIo

/-- A row that is a line can be read. -/
theorem readKey_returns {io : JIo} {r : ℕ} (h : r < io.cnt.nLines) :
    Exec.Wp (readKey r) io (fun _ _ => True) (fun _ _ => False) := by
  unfold readKey
  simp only [Exec.wp_bind, Exec.wp_modify, Exec.wp_get]
  split
  · trivial
  · simp only [Exec.wp_bind, Exec.wp_lift, stored?, if_pos h]
    exact ⟨fun _ _ => trivial, fun e he => by cases he⟩

/-- Every live row, as it is stored and as it is remembered, has dates that `date` has. -/
structure Dated (io : JIo) : Prop where
  stored : ∀ r, r < io.cnt.nRecords → (io.row r).Dated
  cached : ∀ r row, io.keyRows.get? r = some row → row.Dated

theorem dated_iff {io : JIo} : io.Dated ↔
    (∀ r, r < io.cnt.nRecords → (unpackRow (io.files.rows r)).Dated) ∧ ∀ e ∈ io.keyRows.entries, e.2.Dated :=
  ⟨fun h => ⟨h.stored, fun e he => h.cached e.1 e.2 (OrdDict.mem_entries_iff.1 he)⟩,
    fun h => ⟨h.1, fun _ _ hr => h.2 _ (OrdDict.mem_entries_iff.2 hr)⟩⟩

instance (io : JIo) : Decidable io.Dated := decidable_of_iff _ dated_iff.symm

/-- Reading a live row remembers nothing else. -/
theorem Dated.wp_readKey {io : JIo} (h : io.Dated) {r : ℕ} (hr : r < io.cnt.nRecords) :
    Exec.Wp (readKey r) io (fun row io' => row.Dated ∧ io'.Dated) (fun _ _ => True) := by
  unfold readKey
  simp only [Exec.wp_bind, Exec.wp_modify, Exec.wp_get]
  split
  · rename_i row hrow
    simp only [Exec.wp_bind, Exec.wp_modify, Exec.wp_ret]
    have hrow : io.keyRows.get? r = some row := hrow
    refine ⟨h.cached r row hrow, h.stored, fun x row' hx => ?_⟩
    have hx : (io.keyRows.touch r).get? x = some row' := hx
    rw [OrdDict.get?_touch] at hx
    exact h.cached x row' hx
  · simp only [Exec.wp_bind, Exec.wp_lift, stored?]
    split
    · refine ⟨fun row hrow => ?_, fun e he => by cases he⟩
      have hdated : row.Dated := by
        cases hrow
        exact h.stored r hr
      simp only [Exec.wp_modify, Exec.wp_ret]
      rw [if_pos hr]
      refine ⟨hdated, h.stored, fun x row' hx => ?_⟩
      rcases get?_rememberKey hx with ⟨-, rfl⟩ | hx
      · exact hdated
      · exact h.cached x row' hx
    · exact ⟨fun row hrow => (by cases hrow), fun _ _ => trivial⟩

end JIo

namespace JDb

variable {db : JDb} {n : ℕ}

/-- No row is passed over for its version, or stopped at for its dates. -/
theorem yieldRows_all (rows : List ℕ) : ∀ {db : JDb}, Settled n db → db.io.Dated →
    (∀ r ∈ rows, r < db.io.cnt.nRecords) →
    Exec.Wp (yieldRows db.io.cnt.syncId rows) db (fun out db' => out.map Prod.fst = rows ∧ Settled n db' ∧
      db'.io.Dated ∧ db'.io.cnt = db.io.cnt) fun _ _ => False := by
  induction rows with
  | nil => intro db h hd _; exact ⟨rfl, h, hd, rfl⟩
  | cons r rows ih =>
    intro db h hd hrows
    have hr : r < db.io.cnt.nRecords := hrows r (List.mem_cons_self ..)
    unfold yieldRows
    rw [Exec.wp_bind]
    have hread : Exec.Wp (onIo (JIo.readKey r)) db (fun row db' => row.Dated ∧ db'.io.Dated) fun _ _ => False := by
      unfold onIo
      rw [Exec.wp_zoom]
      refine Exec.wp_mono (Exec.wp_and (JIo.readKey_returns (lt_of_lt_of_le hr h.le)) (hd.wp_readKey hr)) ?_ ?_
      · exact fun _ _ h' => h'.2
      · exact fun _ _ h' => h'.1
    refine Exec.wp_mono (Exec.wp_and hread (h.stamped.readKey r)) ?_ fun _ _ h' => h'.1
    rintro info db₁ ⟨⟨hdated, hd₁⟩, h₁, hv⟩
    have hcnt := h₁.cnt
    have hlt : info.ver < db.io.cnt.syncId := (hv (Set.notMem_empty r)).2
    rw [if_pos hlt, Exec.wp_bind, rowDates, if_pos hdated, Exec.wp_lift]
    refine ⟨fun _ _ => ?_, fun e he => by cases he⟩
    rw [Exec.wp_bind, ← hcnt]
    refine Exec.wp_mono (ih (h.of_held h₁) hd₁ fun x hx => ?_) ?_ fun _ _ h' => h'
    · rw [hcnt]
      exact hrows x (List.mem_cons_of_mem _ hx)
    · rintro more db₂ ⟨hmore, h₂, hd₂, hcnt₂⟩
      rw [Exec.wp_ret, List.map_cons, hmore]
      exact ⟨rfl, h₂, hd₂, hcnt₂⟩

end JDb

namespace OrdDict

variable {κ α : Type} [DecidableEq κ] {d : OrdDict κ α} {k : κ} {a : α}

/-- Removing a key removes one entry. -/
theorem entries_pop_perm (h : d.get? k = some a) : d.entries.Perm ((k, a) :: (d.pop k).entries) := by
  classical
  have hmem := mem_entries_iff.2 h
  have hnd : d.entries.Nodup := d.nodup.of_map _
  have herase : d.entries.erase (k, a) = (d.pop k).entries := by
    rw [hnd.erase_eq_filter]
    refine List.filter_congr fun e he => ?_
    obtain ⟨k', a'⟩ := e
    have hget := mem_entries_iff.1 he
    by_cases hk : k' = k
    · subst hk
      rw [h] at hget
      cases hget
      simp
    · simp [hk]
  rw [← herase]
  exact List.perm_cons_erase hmem

/-- Storing a new key adds one entry. -/
theorem entries_set_perm (h : d.get? k = none) : (d.set k a).entries.Perm ((k, a) :: d.entries) := by
  have hget : (d.set k a).get? k = some a := by rw [get?_set, if_pos rfl]
  refine (entries_pop_perm hget).trans (.cons _ ?_)
  have hpop : (d.set k a).pop k = d := by
    have hk : k ∉ d.keys := get?_eq_none_iff.1 h
    obtain ⟨l, hl⟩ := d
    apply ext
    simp only [set, pop, restrict, keys] at hk ⊢
    clear h hget hl
    induction l with
    | nil => simp [setEntries]
    | cons e es ih =>
      simp only [List.map_cons, List.mem_cons, not_or] at hk
      have hne : e.1 ≠ k := fun he => hk.1 he.symm
      rw [setEntries, if_neg hne, List.filter_cons, if_pos (by simpa using hne), ih hk.2]
  rw [hpop]

end OrdDict

namespace JDb

variable {db : JDb} {n : ℕ}

/-- Entries that wait are yielded each once, or wait on. -/
theorem takeNext_perm (m : ℕ) : ∀ (row : ℕ) (lut : OrdDict ℕ Key),
    ((sortItems.takeNext m row lut).1 ++ (sortItems.takeNext m row lut).2.2.entries.map Prod.swap).Perm
      (lut.entries.map Prod.swap) := by
  induction m with
  | zero => intro row lut; exact .refl _
  | succ m ih =>
    intro row lut
    unfold sortItems.takeNext
    split
    · rename_i key hkey
      have hone := (OrdDict.entries_pop_perm hkey).map Prod.swap
      exact ((ih (row + 1) (lut.pop row)).cons (key, row)).trans hone.symm
    · exact .refl _

/-- **Sorting by rows** loses no entry and yields none twice, when every entry has a row of its
own below the bound. -/
theorem sortItems_perm {stop : ℕ} (l : List (Key × ℕ × ℕ)) : ∀ (row : ℕ) (lut : OrdDict ℕ Key),
    (∀ e ∈ l, e.2.1 < stop) → (l.map (fun e => e.2.1) ++ lut.keys).Nodup →
    (sortItems stop l row lut).Perm (l.map (fun e => (e.1, e.2.1)) ++ lut.entries.map Prod.swap) := by
  induction l with
  | nil =>
    intro row lut _ _
    unfold sortItems
    exact (List.perm_insertionSort _ _).map _
  | cons e rest ih =>
    obtain ⟨key, r, f⟩ := e
    intro row lut hstop hnd
    have hrest : ∀ e ∈ rest, e.2.1 < stop := fun x hx => hstop x (List.mem_cons_of_mem _ hx)
    have hr : r < stop := hstop _ (List.mem_cons_self ..)
    rw [List.map_cons, List.cons_append, List.nodup_cons] at hnd
    obtain ⟨hnew, hnd⟩ := hnd
    unfold sortItems
    split
    · rename_i heq
      subst heq
      dsimp only
      have htake := takeNext_perm lut.size (r + 1) lut
      set out := (sortItems.takeNext lut.size (r + 1) lut).1
      set lut' := (sortItems.takeNext lut.size (r + 1) lut).2.2
      -- what still waits waited before
      have hkeys : (out.map Prod.snd ++ lut'.keys).Perm lut.keys := by
        have := htake.map Prod.snd
        simpa [OrdDict.keys, Function.comp_def] using this
      have hnd' : (rest.map (fun e => e.2.1) ++ lut'.keys).Nodup := by
        have hperm := (hkeys.symm.append_left (rest.map fun e => e.2.1)).nodup_iff.1 hnd
        exact hperm.sublist ((List.Sublist.refl _).append (List.sublist_append_right _ _))
      refine List.Perm.cons _ ?_
      refine ((ih _ lut' hrest hnd').append_left out).trans ?_
      rw [← List.append_assoc]
      refine (List.perm_append_comm.append_right _).trans ?_
      rw [List.append_assoc]
      exact htake.append_left _
    · have hget : lut.get? r = none := by
        rw [OrdDict.get?_eq_none_iff]
        exact fun hk => hnew (List.mem_append_right _ hk)
      have hset := OrdDict.entries_set_perm (a := key) hget
      have hnd' : (rest.map (fun e => e.2.1) ++ (lut.set r key).keys).Nodup := by
        have hk : (lut.set r key).keys.Perm (r :: lut.keys) := hset.map Prod.fst
        have hmid : (rest.map (fun e => e.2.1) ++ r :: lut.keys).Nodup :=
          List.nodup_middle.2 (List.nodup_cons.2 ⟨hnew, hnd⟩)
        exact (hk.append_left _).nodup_iff.2 hmid
      refine (ih row (lut.set r key) hrest hnd').trans ?_
      refine ((hset.map Prod.swap).append_left _).trans ?_
      exact List.perm_middle

/-- The rows of the entries whose keys match are the live rows whose keys do, each once. -/
theorem matching_rows (h : KeyIndex db) (p : Key → Bool) :
    let rows := ((sortItems db.io.cnt.nRecords db.io.keyTable.entries 0 OrdDict.empty).filter
      fun e => p e.1).map Prod.snd
    rows.Nodup ∧ ∀ r, r ∈ rows ↔ r < db.io.cnt.nRecords ∧ p (db.io.row r).key = true := by
  -- an entry names a live row, and its key
  have hentry : ∀ e ∈ db.io.keyTable.entries, e.2.1 < db.io.cnt.nRecords ∧ (db.io.row e.2.1).key = e.1 := by
    intro e he
    exact (h.table e.1 e.2.1).1 (by rw [OrdDict.mem_entries_iff.1 he]; rfl)
  have hdistinct : (db.io.keyTable.entries.map fun e => e.2.1).Nodup := by
    have hkeys : (db.io.keyTable.entries.map fun e => (db.io.row e.2.1).key).Nodup := by
      have heq : (db.io.keyTable.entries.map fun e => (db.io.row e.2.1).key) = db.io.keyTable.entries.map Prod.fst :=
        List.map_congr_left fun e he => (hentry e he).2
      rw [heq]
      exact db.io.keyTable.nodup
    have hcomp : (db.io.keyTable.entries.map fun e => (db.io.row e.2.1).key) =
        (db.io.keyTable.entries.map fun e => e.2.1).map fun r => (db.io.row r).key := by simp [Function.comp_def]
    rw [hcomp] at hkeys
    exact hkeys.of_map _
  have hperm : (sortItems db.io.cnt.nRecords db.io.keyTable.entries 0 OrdDict.empty).Perm _ := sortItems_perm _ _ _
    (fun e he => (hentry e he).1) (by simpa [OrdDict.keys, OrdDict.empty] using hdistinct)
  have hempty : (OrdDict.empty : OrdDict ℕ Key).entries = [] := rfl
  rw [hempty, List.map_nil, List.append_nil] at hperm
  have hrows := (hperm.filter fun e => p e.1).map Prod.snd
  intro rows
  constructor
  · refine hrows.nodup_iff.2 ?_
    have hsub := (List.filter_sublist (p := fun e : Key × ℕ => p e.1)
      (l := db.io.keyTable.entries.map fun e => (e.1, e.2.1))).map Prod.snd
    refine hdistinct.sublist ?_
    simpa [Function.comp_def] using hsub
  · intro r
    refine hrows.mem_iff.trans ?_
    simp only [List.mem_map, List.mem_filter]
    constructor
    · rintro ⟨_, ⟨⟨e, he, rfl⟩, hp⟩, rfl⟩
      obtain ⟨hlt, hkey⟩ := hentry e he
      exact ⟨hlt, hkey.symm ▸ hp⟩
    · rintro ⟨hlt, hp⟩
      have hget := (h.table (db.io.row r).key r).2 ⟨hlt, rfl⟩
      obtain ⟨⟨r', f⟩, hf, rfl⟩ := Option.map_eq_some_iff.1 hget
      exact ⟨_, ⟨⟨_, OrdDict.mem_entries_iff.2 hf, rfl⟩, hp⟩, rfl⟩

/-- A slice without bounds returns, and yields every live row whose key matches exactly once. -/
def Lists (db : JDb) (rule : Option (Key → Bool)) : Prop :=
  ∃ out db', (fKeyIter rule).run db = (.ok out, db') ∧ (out.map Prod.fst).Nodup ∧
    ∀ r, r ∈ out.map Prod.fst ↔
      r < db.io.nRecords ∧ rule.all (fun p => p (db.io.row r).key) = true

/-- What is yielded are the rows the slice is about. -/
theorem Settled.lists (h : Settled n db) (hd : db.io.Dated) {rule : Option (Key → Bool)} (hr : rule = none ∨ KeyIndex db) :
    db.Lists rule := by
  have hwp : ∀ rows : List ℕ, rows.Nodup →
      (∀ r, r ∈ rows ↔ r < db.io.nRecords ∧ rule.all (fun p => p (db.io.row r).key) = true) →
      Exec.Wp (yieldRows db.io.cnt.syncId rows) db (fun out _ => (out.map Prod.fst).Nodup ∧
        ∀ r, r ∈ out.map Prod.fst ↔ r < db.io.nRecords ∧ rule.all (fun p => p (db.io.row r).key) = true)
        fun _ _ => False := by
    intro rows hnd hrows
    refine Exec.wp_mono (yieldRows_all rows h hd fun r hm => ?_) (fun out _ hout => ?_) fun _ _ h' => h'
    · exact ((hrows r).1 hm).1
    · rw [hout.1]
      exact ⟨hnd, hrows⟩
  have hiter : Exec.Wp (fKeyIter rule) db (fun out _ => (out.map Prod.fst).Nodup ∧
      ∀ r, r ∈ out.map Prod.fst ↔ r < db.io.nRecords ∧ rule.all (fun p => p (db.io.row r).key) = true)
      fun _ _ => False := by
    unfold fKeyIter
    rw [Exec.wp_bind, Exec.wp_get]
    cases rule with
    | none =>
      refine hwp _ List.nodup_range fun r => ?_
      rw [List.mem_range]
      simp [JIo.nRecords]
    | some p =>
      obtain ⟨hnd, hmem⟩ := matching_rows (hr.resolve_left (by simp)) p
      exact hwp _ hnd hmem
  obtain ⟨out, db', hrun, hout⟩ := hiter.returns
  exact ⟨out, db', hrun, hout⟩

end JDb

/-! ## Runs -/

/-- Run work that the versions can rely on. -/
def runFresh (cfg : Config) : List (Env × Work) → JDb → Option JDb
  | [], db => some db
  | l :: ls, db =>
    if l.2.Fresh db then
      match (l.2.exec cfg l.1).run db with
      | (.ok _, db') => runFresh cfg ls db'
      | (.error _, _) => none
    else none

theorem runs_of_runFresh {db' : JDb} : ∀ {ls : List (Env × Work)} {db : JDb},
    runFresh cfg ls db = some db' → Runs (FreshStep cfg) db ls db'
  | [], _, h => by cases h; exact .refl
  | l :: ls, db, h => by
    rw [runFresh] at h
    split at h
    · rename_i hf
      split at h
      · rename_i u db₁ hrun
        exact .head ⟨hrun, hf⟩ (runs_of_runFresh h)
      · cases h
    · cases h

theorem runs_of_runWork {db' : JDb} : ∀ {ls : List (Env × Work)} {db : JDb},
    runWork cfg ls db = some db' → Runs (WorkStep cfg) db ls db'
  | [], _, h => by cases h; exact .refl
  | l :: ls, db, h => by
    rw [runWork] at h
    split at h
    · rename_i u db₁ hrun
      exact .head hrun (runs_of_runWork h)
    · cases h

/-- Two records, one of them deleted; then upkeep, a change, and a record more. -/
def upkeepWork : List (Env × Work) :=
  [({}, .call .opened), ({}, .call (.write ['A'] (.int 5) {})), ({}, .call (.write ['B'] (.int 6) {})),
    ({}, .call (.delete ['B'] false none none .none)), ({}, .resize 128 true),
    ({}, .call (.write ['A'] (.int 7) {})), ({}, .recycle true), ({}, .call (.write ['C'] (.int 8) {})),
    ({}, .call .closed)]

/-- What a slice without bounds yields is not every live row. -/
theorem not_lists {db : JDb} (h : (match (JDb.fKeyIter none).run db with
      | (.ok out, _) => decide (out = [])
      | (.error _, _) => false) = true) (hn : 0 < db.io.nRecords) : ¬ db.Lists none := by
  rintro ⟨out, db', hrun, -, hmem⟩
  rw [hrun] at h
  have hnil : out = [] := of_decide_eq_true h
  have h0 := (hmem 0).2 ⟨hn, rfl⟩
  rw [hnil] at h0
  cases h0

/-- **A remembered row keeps its version** when versions are counted anew: what the file holds is
below the counter, but slices go by what is remembered, and yield nothing. -/
theorem remembered_versions : ∃ db, Runs (WorkStep jsonCfg) (JDb.init jsonCfg)
    [({}, .call .opened), ({}, .call (.write ['A'] (.int 5) {})), ({}, .call (.write ['A'] (.int 6) {})),
      ({}, .call (.write ['A'] (.int 7) {})), ({}, .call (.delete ['A'] false none none .none)),
      ({}, .call (.write ['B'] (.int 8) {})), ({}, .call (.write ['B'] (.str "a longer text".toList) {})),
      ({}, .resize 128 true)] db ∧
    (∀ r, r < db.io.nLines → (db.io.row r).ver < db.io.cnt.syncId) ∧ ¬ db.Lists none := by
  obtain ⟨db, hrun, h⟩ := (Option.any_eq_true (fun db : JDb =>
      decide (∀ r < db.io.nLines, (db.io.row r).ver < db.io.cnt.syncId) && decide (0 < db.io.nRecords) &&
      (match (JDb.fKeyIter none).run db with
        | (.ok out, _) => decide (out = [])
        | (.error _, _) => false)) (runWork jsonCfg
    [({}, .call .opened), ({}, .call (.write ['A'] (.int 5) {})), ({}, .call (.write ['A'] (.int 6) {})),
      ({}, .call (.write ['A'] (.int 7) {})), ({}, .call (.delete ['A'] false none none .none)),
      ({}, .call (.write ['B'] (.int 8) {})), ({}, .call (.write ['B'] (.str "a longer text".toList) {})),
      ({}, .resize 128 true)] (JDb.init jsonCfg))).1 (by decide +kernel)
  simp only [Bool.and_eq_true, decide_eq_true_eq] at h
  obtain ⟨⟨hv, hn⟩, hout⟩ := h
  exact ⟨db, runs_of_runWork hrun, hv, not_lists hout hn⟩

end OmniJsonDb
