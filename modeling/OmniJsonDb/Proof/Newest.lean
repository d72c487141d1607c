import OmniJsonDb.Proof.Kept
import OmniJsonDb.Proof.Slots

/-!
# Which version `unmodify` and `revert` bring back

Both take the first parked row of a key. Whether that is the version displaced last depends
on the order of the rows.

* `Unwrites.cases_of_parked`: two versions change places, or the record is locked.
* `unmodify_newest_iff`, `revert_newest_iff`: when the newest version comes back.
* `revert_newest_fails`: an older one does.
-/

namespace OmniJsonDb

namespace JDb

variable {cfg : Config} {db db' : JDb} {v v' v'' : DbView Kept} {key : Key} {r d : ℕ} {o : Option Restored}

/-! ## Two versions change places -/

/-- The live version of a key and a parked one changed places. -/
structure Swapped (key : Key) (r d : ℕ) (v v' : DbView Kept) : Prop where
  table : ∀ k, v'.rowOf k = v.rowOf k
  nRecords : v'.cnt.nRecords = v.cnt.nRecords
  nLines : v'.cnt.nLines = v.cnt.nLines
  live : (v'.slot keptView r).SameValue (v.slot keptView d)
  parked : (v'.slot keptView d).SameValue (v.slot keptView r)
  key : (v'.slot keptView d).key = key
  lock : has (v'.rows r).flags WRITE_LOCK_MASK = has (v.rows r).flags WRITE_LOCK_MASK
  rest : ∀ x, x ≠ r → x ≠ d → v'.rows x = v.rows x
  vals : v'.vals = v.vals

/-- The record is locked. -/
def Locked (v : DbView Kept) (r : ℕ) : Prop := has (v.rows r).flags WRITE_LOCK_MASK = true

theorem lock_undo (old info : ℕ) (g : ℕ) (hg : g = GROUP ∨ g = 0) :
    ((clear (old &&& USER_FLAG_MASK) PAYLOAD_FLAG_MASK ||| (info &&& PAYLOAD_FLAG_MASK)) ||| g) &&&
      WRITE_LOCK_MASK = old &&& WRITE_LOCK_MASK := by
  have hg : g &&& WRITE_LOCK_MASK = 0 := by rcases hg with rfl | rfl <;> decide
  rw [Nat.and_or_distrib_right, hg, Nat.or_zero, Nat.and_or_distrib_right, clear_and_of_disjoint _ (by decide),
    and_and_of_sub _ (by decide), Nat.and_assoc, show PAYLOAD_FLAG_MASK &&& WRITE_LOCK_MASK = 0 by decide,
    Nat.and_zero, Nat.or_zero]

/-- **An undo of a live record**: it has no name or is locked and nothing happens, or the
versions change places. -/
theorem Unwrites.cases_of_parked (h : Unwrites keptView key (some d) v o v')
    (hd : v.cnt.nRecords ≤ d) (hdk : (v.slot keptView d).key = key) (hrow : v.At key r) :
    ((key = [] ∨ Locked v r) ∧ v' = v) ∨ (¬ (key = [] ∨ Locked v r) ∧ Swapped key r d v v') := by
  cases h with
  | none hno =>
    refine .inl ⟨?_, rfl⟩
    rcases hno with (h | h | ⟨x, hx, h⟩) | h | ⟨r', old, hr', hold, hlock⟩
    · exact .inl h
    · cases h
    · cases hx
      rcases h with h | h
      exacts [absurd h (Nat.not_lt_of_le hd), absurd hdk h]
    · rw [hrow.1] at h; cases h
    · obtain rfl : r' = r := Option.some.inj (hr'.1.symm.trans hrow.1)
      refine .inr ?_
      unfold Locked
      rw [← hold]
      exact (has_kept old (by decide)).trans hlock
  | @back r' d' old info hkey hr' hold hlock _ hlt hinfo hik hgiven =>
    obtain rfl : r' = r := Option.some.inj (hr'.1.symm.trans hrow.1)
    obtain rfl : d' = d := hgiven
    have hne : r' ≠ d' := Nat.ne_of_lt (Nat.lt_of_lt_of_le hrow.2 hd)
    have hold' : (v.rows r').flags = old.flags &&& KEPT_FLAG_MASK := by rw [← hold]; rfl
    have hlock' : ¬ Locked v r' := by
      unfold Locked
      rw [← hold]
      exact fun h => absurd ((has_kept old (by decide)).symm.trans h) (by rw [hlock]; decide)
    refine .inr ⟨not_or.2 ⟨hkey, hlock'⟩, ?_⟩
    -- the two rows that were written
    obtain ⟨kf, hkf⟩ : ∃ kf, kf = undoFlags info (clear (old.flags &&& USER_FLAG_MASK) PAYLOAD_FLAG_MASK |||
      (info.flags &&& PAYLOAD_FLAG_MASK)) := ⟨_, rfl⟩
    have hrows : ∀ x, ((v.unwriteAt keptView key r' d' old info kf).setTable key r'
        (if info.ttl.pos then kf ||| EXPIRE else clear kf EXPIRE)).rows x =
        if x = r' then v.new keptView { info.args with key := key, ver := Option.none, flags := kf }
        else if x = d' then v.new keptView (parked key old) else v.rows x := fun x =>
      DbView.rows_unwriteAt v x
    have hslot : ∀ a : KeyArgs, keptView.slot (v.new keptView a) =
        ⟨a.key, a.fileId, a.offset, a.rowSize, a.valSize, a.ver.getD v.cnt.syncId⟩ := DbView.slot_new v
    have hsi := DbView.slot_eq (V := keptView) hinfo
    have hso := DbView.slot_eq (V := keptView) hold
    dsimp only
    rw [← hkf]
    constructor
    case table =>
      intro k
      have hset := DbView.rowOf_set v.keyTable key r'
        ((if info.ttl.pos then kf ||| EXPIRE else clear kf EXPIRE) &&& KEY_FLAG_MASK) k
      refine hset.trans ?_
      split
      · rename_i h; subst h; exact hr'.1.symm
      · rfl
    case nRecords => rfl
    case nLines => rfl
    case live =>
      unfold DbView.slot
      rw [hrows, if_pos rfl, hslot]
      change Slot.SameValue _ (v.slot keptView d')
      rw [hsi]
      exact ⟨rfl, rfl, rfl, rfl⟩
    case parked =>
      unfold DbView.slot
      rw [hrows, if_neg hne.symm, if_pos rfl, hslot]
      change Slot.SameValue _ (v.slot keptView r')
      rw [hso]
      exact ⟨rfl, rfl, rfl, rfl⟩
    case key =>
      unfold DbView.slot
      rw [hrows, if_neg hne.symm, if_pos rfl, hslot]
      rfl
    case lock =>
      rw [hrows, if_pos rfl, hold']
      change has (normal v.now v.cnt.syncId _).kept.flags _ = _
      rw [kept_normal, hkf]
      unfold has undoFlags
      rw [and_and_of_sub _ (by decide), and_and_of_sub _ (by decide)]
      refine congrArg (fun x => x != 0) (lock_undo _ _ _ ?_)
      split
      exacts [.inl rfl, .inr rfl]
    case rest =>
      intro x h₁ h₂
      rw [hrows, if_neg h₁, if_neg h₂]
    case vals => rfl

/-- The first parked row is one row. -/
theorem FirstVersion.eq {γ : Type} {V : RowView γ} {v : DbView γ} {version : Option ℕ} {d e : ℕ}
    (h : FirstVersion V key version v d) (h' : FirstVersion V key version v e) : d = e := by
  rcases Nat.lt_trichotomy d e with hlt | heq | hlt
  · exact absurd h.2.2.1 (h'.2.2.2 d h.1 hlt)
  · exact heq
  · exact absurd h'.2.2.1 (h.2.2.2 e h'.1 hlt)

/-- The row that was taken is the first one of the key again. -/
theorem Swapped.first (h : Swapped key r d v v') (hr : v.At key r) (hf : FirstVersion keptView key none v d) :
    FirstVersion keptView key none v' d := by
  obtain ⟨h₁, h₂, -, h₄⟩ := hf
  refine ⟨h.nRecords ▸ h₁, h.nLines ▸ h₂, ⟨h.key, (fun x hx => nomatch hx)⟩, fun x hx hxd => ?_⟩
  rw [h.nRecords] at hx
  have hxr : x ≠ r := Nat.ne_of_gt (Nat.lt_of_lt_of_le hr.2 hx)
  have : v'.slot keptView x = v.slot keptView x := by
    unfold DbView.slot
    rw [h.rest x hxr (Nat.ne_of_lt hxd)]
  rw [this]
  exact h₄ x hx hxd

/-! ## Newest and first -/

/-- Row `d` is parked, and holds a version of `key`. -/
def Parked (db : JDb) (key : Key) (d : ℕ) : Prop :=
  db.io.nRecords ≤ d ∧ d < db.io.nLines ∧ (db.io.row d).key = key

/-- Row `d` holds the version of `key` that was displaced last: the session counter it was
stamped with is the greatest. -/
def Newest (db : JDb) (key : Key) (d : ℕ) : Prop :=
  Parked db key d ∧ ∀ x, Parked db key x → (db.io.row x).ver ≤ (db.io.row d).ver

/-- Row `d` is the first that holds a parked version of `key`. -/
def FirstParked (db : JDb) (key : Key) (d : ℕ) : Prop :=
  Parked db key d ∧ ∀ x, Parked db key x → d ≤ x

/-- The version of `key` displaced last is live again, and no VAL file has changed. -/
def BroughtBack (db : JDb) (key : Key) (db' : JDb) : Prop :=
  ∃ d r, Newest db key d ∧ LiveAt db' key r ∧ (db'.io.row r).SameValue (db.io.row d).toSlot ∧
    db'.io.files.vals = db.io.files.vals

/-- The same call at once afterwards makes the version live again that was live before. -/
def Toggles (cfg : Config) (c : Call) (key : Key) (db db' : JDb) : Prop :=
  ∀ r env db'', LiveAt db key r → CleanStep cfg (fitting cfg) db' (env, c) db'' →
    ∃ r', LiveAt db'' key r' ∧ (db''.io.row r').SameValue (db.io.row r).toSlot ∧
      db''.io.files.vals = db.io.files.vals

/-- The first parked version of `key` has the value of the one displaced last. -/
def FirstIsNewest (db : JDb) (key : Key) : Prop :=
  ∃ d e, FirstParked db key d ∧ Newest db key e ∧ (db.io.row d).SameValue (db.io.row e).toSlot

/-- The live record at row `r` is not undone: it has no name, or is locked. -/
def Stays (db : JDb) (key : Key) (r : ℕ) : Prop :=
  key = [] ∨ has (db.io.row r).flags WRITE_LOCK_MASK = true

/-- What has to hold of a live record: its first parked version is the newest, or, when it is
not undone at all, its own value is that of the newest. -/
def UndoneWell (db : JDb) (key : Key) (r : ℕ) : Prop :=
  Stays db key r ∧ (∃ e, Newest db key e ∧ (db.io.row r).SameValue (db.io.row e).toSlot) ∨
    ¬ Stays db key r ∧ FirstIsNewest db key

theorem FirstParked.eq {e : ℕ} (h : FirstParked db key d) (h' : FirstParked db key e) : d = e :=
  Nat.le_antisymm (h.2 e h'.1) (h'.2 d h.1)

/-- What the search for a parked version finds. -/
theorem firstVersion_iff : FirstVersion keptView key none (db.view keptView) d ↔ FirstParked db key d := by
  constructor
  · rintro ⟨h₁, h₂, h₃, h₄⟩
    refine ⟨⟨h₁, h₂, h₃.1⟩, fun x hx => Nat.le_of_not_lt fun hlt => ?_⟩
    exact h₄ x hx.1 hlt ⟨hx.2.2, fun y hy => nomatch hy⟩
  · rintro ⟨⟨h₁, h₂, h₃⟩, h₄⟩
    refine ⟨h₁, h₂, ⟨h₃, fun y hy => nomatch hy⟩, fun x hx hlt hv => ?_⟩
    exact Nat.not_le_of_lt hlt (h₄ x ⟨hx, Nat.lt_trans hlt h₂, hv.1⟩)

theorem not_noVersion (h : Parked db key d) : ¬ NoVersion keptView key none (db.view keptView) :=
  fun hn => hn d h.1 h.2.1 ⟨h.2.2, fun _ hx => nomatch hx⟩

theorem stays_iff : key = [] ∨ Locked (db.view keptView) r ↔ Stays db key r := by
  unfold Locked Stays
  rw [← has_kept (db.io.row r) (by decide)]
  rfl

/-! ## An undo of a live record -/

theorem LiveAt.eq {r' : ℕ} (h : LiveAt db key r) (ht : (db'.view keptView).rowOf key = (db.view keptView).rowOf key) :
    LiveAt db' key r' ↔ r' = r := by
  change (db'.view keptView).rowOf key = some r' ↔ _
  rw [ht, show (db.view keptView).rowOf key = some r from h]
  exact ⟨fun h => (Option.some.inj h).symm, fun h => congrArg some h.symm⟩

/-- **An undo of a live record** brings the newest version back when the first one is. -/
theorem broughtBack_iff (h : db.Good keptView cfg) (hrow : LiveAt db key r) (hf : FirstParked db key d)
    (hu : Unwrites keptView key (some d) (db.view keptView) o (db'.view keptView)) :
    BroughtBack db key db' ↔ UndoneWell db key r := by
  have hat : (db.view keptView).At key r := h.index.keyed.at_ hrow
  unfold UndoneWell
  rcases hu.cases_of_parked hf.1.1 hf.1.2.2 hat with ⟨hstays, hsame⟩ | ⟨hstays, hs⟩
  · -- nothing happened
    have hlive := fun r' => @LiveAt.eq _ _ _ _ r' hrow (congrArg (fun u => u.rowOf key) hsame)
    have hslot : (db'.io.row r).toSlot = (db.io.row r).toSlot := congrArg (fun u => u.slot keptView r) hsame
    have hvals : db'.io.files.vals = db.io.files.vals := congrArg (fun u => u.vals) hsame
    rw [stays_iff] at hstays
    constructor
    · rintro ⟨e, r', he, hr', hv, -⟩
      rw [hlive] at hr'
      subst hr'
      exact .inl ⟨hstays, e, he, hslot ▸ hv⟩
    · rintro (⟨-, e, he, hv⟩ | ⟨hn, -⟩)
      · exact ⟨e, r, he, (hlive r).2 rfl, by rw [hslot]; exact hv, hvals⟩
      · exact absurd hstays hn
  · have hlive := fun r' => @LiveAt.eq _ _ _ _ r' hrow (hs.table key)
    rw [stays_iff] at hstays
    have hsv : (db'.io.row r).SameValue (db.io.row d).toSlot := hs.live
    constructor
    · rintro ⟨e, r', he, hr', hv, -⟩
      rw [hlive] at hr'
      subst hr'
      exact .inr ⟨hstays, d, e, hf, he, hsv.symm.trans hv⟩
    · rintro (⟨hn, -⟩ | ⟨-, d', e, hd', he, hv⟩)
      · exact absurd hn hstays
      · cases hf.eq hd'
        exact ⟨e, r, he, (hlive r).2 rfl, hsv.trans hv, hs.vals⟩

/-- An undo by the first parked version that was found. -/
def Undone (key : Key) (v v' : DbView Kept) : Prop :=
  ∃ d o, FirstVersion keptView key none v d ∧ Unwrites keptView key (some d) v o v'

/-- **Twice undone**: the version that was live before is live again. -/
theorem Undone.twice (hrow : v.At key r) (h : Undone key v v') (h' : Undone key v' v'') :
    v''.rowOf key = some r ∧ (v''.slot keptView r).SameValue (v.slot keptView r) ∧ v''.vals = v.vals := by
  obtain ⟨d, o, hf, hu⟩ := h
  obtain ⟨d', o', hf', hu'⟩ := h'
  have hkd := hf.2.2.1.1
  rcases hu.cases_of_parked hf.1 hkd hrow with ⟨hstays, rfl⟩ | ⟨hstays, hs⟩
  · rcases hu'.cases_of_parked hf'.1 hf'.2.2.1.1 hrow with ⟨-, rfl⟩ | ⟨hn, -⟩
    · exact ⟨hrow.1, ⟨rfl, rfl, rfl, rfl⟩, rfl⟩
    · exact absurd hstays hn
  · obtain rfl : d' = d := hf'.eq (hs.first hrow hf)
    have hrow' : v'.At key r := ⟨(hs.table key).trans hrow.1, by rw [hs.nRecords]; exact hrow.2⟩
    rcases hu'.cases_of_parked hf'.1 hs.key hrow' with ⟨hstays', -⟩ | ⟨-, hs'⟩
    · refine absurd (hstays'.imp id fun h => ?_) hstays
      unfold Locked at h ⊢
      rw [← hs.lock]
      exact h
    · exact ⟨(hs'.table key).trans hrow'.1, hs'.live.trans hs.parked, hs'.vals.trans hs.vals⟩

/-! ## The calls -/

variable {cfg₀ : Config} {tr : List Label} {env : Env} {x : ℕ}

/-- What a clean call of `unmodify` does to a live record with a parked version. -/
theorem unmodify_undone (h : db.Good keptView (cfg.refusing (fitting cfg))) (hrow : LiveAt db key r)
    (hp : Parked db key x) (hs : CleanStep cfg (fitting cfg) db (env, .unmodify key none) db') :
    db'.Good keptView (cfg.refusing (fitting cfg)) ∧ Undone key (db.view keptView) (db'.view keptView) := by
  obtain ⟨ret, hrun⟩ := hs.step.accepted hs.accepted
  have hw : Exec.Wp (Call.exec (cfg.refusing (fitting cfg)) env (.unmodify key none)) db
      (fun _ db' => db'.Good keptView (cfg.refusing (fitting cfg)) ∧
        ∃ o, Unmodifies keptView key none (db.view keptView) o (db'.view keptView))
      (fun _ _ => True) :=
    Exec.wp_map.2 (Exec.wp_mono (wp_unmodify keeps_fitting_kept h key none) (fun o _ h' => ⟨h'.1, o, h'.2⟩)
      fun _ _ h' => h')
  obtain ⟨hg, o, hu⟩ := hw.ok hrun
  refine ⟨hg, ?_⟩
  generalize hv : db.view keptView = v at hu ⊢
  generalize db'.view keptView = v' at hu ⊢
  cases hu with
  | none hno =>
    subst hv
    rcases hno with hno | hno
    · rw [show (db.view keptView).rowOf key = some r from hrow] at hno; cases hno
    · exact absurd hno (not_noVersion hp)
  | back _ hf hu => exact ⟨_, _, hf, hu⟩

/-- What a clean call of `revert` does to a record with a parked version. -/
theorem revert_undone (h : db.Good keptView (cfg.refusing (fitting cfg))) (hp : Parked db key x)
    (hs : CleanStep cfg (fitting cfg) db (env, .revert key none) db') :
    db'.Good keptView (cfg.refusing (fitting cfg)) ∧
      ((db.view keptView).rowOf key ≠ none ∧ Undone key (db.view keptView) (db'.view keptView) ∨
        (db.view keptView).rowOf key = none ∧ ∃ d o, FirstVersion keptView key none (db.view keptView) d ∧
          Undeletes keptView key (some d) cfg.flags (db.view keptView) o (db'.view keptView)) := by
  obtain ⟨ret, hrun⟩ := hs.step.accepted hs.accepted
  have hw : Exec.Wp (Call.exec (cfg.refusing (fitting cfg)) env (.revert key none)) db
      (fun _ db' => db'.Good keptView (cfg.refusing (fitting cfg)) ∧
        ∃ o, Reverts keptView (cfg.refusing (fitting cfg)) key none (db.view keptView) o (db'.view keptView))
      (fun _ _ => True) :=
    Exec.wp_map.2 (Exec.wp_mono (wp_revert keeps_fitting_kept h key none) (fun o _ h' => ⟨h'.1, o, h'.2⟩)
      fun _ _ h' => h')
  obtain ⟨hg, o, hu⟩ := hw.ok hrun
  refine ⟨hg, ?_⟩
  generalize hv : db.view keptView = v at hu ⊢
  generalize db'.view keptView = v' at hu ⊢
  cases hu with
  | none hno =>
    subst hv
    exact absurd hno (not_noVersion hp)
  | unwrite hlive hf hu => exact .inl ⟨hlive, _, _, hf, hu⟩
  | undelete hgone hf hu => exact .inr ⟨hgone, _, _, hf, hu⟩

/-- `unmodify` of a deleted record does nothing to the key table. -/
theorem unmodify_gone (h : db.Good keptView (cfg.refusing (fitting cfg)))
    (hgone : (db.view keptView).rowOf key = none)
    (hs : CleanStep cfg (fitting cfg) db (env, .unmodify key none) db') : LiveAt db' key r ↔ LiveAt db key r := by
  obtain ⟨ret, hrun⟩ := hs.step.accepted hs.accepted
  have hw : Exec.Wp (Call.exec (cfg.refusing (fitting cfg)) env (.unmodify key none)) db
      (fun _ db' => ∃ o, Unmodifies keptView key none (db.view keptView) o (db'.view keptView))
      (fun _ _ => True) :=
    Exec.wp_map.2 (Exec.wp_mono (wp_unmodify keeps_fitting_kept h key none) (fun o _ h' => ⟨o, h'.2⟩)
      fun _ _ h' => h')
  obtain ⟨o, hu⟩ := hw.ok hrun
  change (db'.view keptView).rowOf key = some r ↔ (db.view keptView).rowOf key = some r
  generalize db.view keptView = v at hu hgone ⊢
  cases hu with
  | none => exact Iff.rfl
  | back hlive => exact absurd hgone hlive

/-- An undo of a live record, once and twice. -/
theorem undone_iff {c : Call} (h : db.Good keptView cfg) (hrow : LiveAt db key r)
    (hu : Undone key (db.view keptView) (db'.view keptView))
    (htwice : ∀ env db'', LiveAt db' key r → ∀ d, Parked db' key d → CleanStep cfg₀ (fitting cfg₀) db' (env, c) db'' →
      Undone key (db'.view keptView) (db''.view keptView)) :
    BroughtBack db key db' ∧ Toggles cfg₀ c key db db' ↔ ∃ r, LiveAt db key r ∧ UndoneWell db key r := by
  have hat : (db.view keptView).At key r := h.index.keyed.at_ hrow
  obtain ⟨d, o, hf, hw⟩ := hu
  have hb := broughtBack_iff h hrow (firstVersion_iff.1 hf) hw
  -- the key is live and has a parked version afterwards, too
  have hagain : (db'.view keptView).rowOf key = some r ∧ Parked db' key d := by
    rcases hw.cases_of_parked hf.1 hf.2.2.1.1 hat with ⟨-, hsame⟩ | ⟨-, hs⟩
    · refine ⟨hsame ▸ hat.1, ?_⟩
      change (db'.view keptView).cnt.nRecords ≤ d ∧ d < (db'.view keptView).cnt.nLines ∧
        ((db'.view keptView).slot keptView d).key = key
      rw [hsame]
      exact ⟨hf.1, hf.2.1, hf.2.2.1.1⟩
    · refine ⟨(hs.table key).trans hat.1, ?_⟩
      change (db'.view keptView).cnt.nRecords ≤ d ∧ d < (db'.view keptView).cnt.nLines ∧
        ((db'.view keptView).slot keptView d).key = key
      rw [hs.nRecords, hs.nLines]
      exact ⟨hf.1, hf.2.1, hs.key⟩
  have htoggle : Toggles cfg₀ c key db db' := by
    intro r' env db'' hr' hs'
    obtain rfl : r' = r := Option.some.inj (hr'.symm.trans hrow)
    obtain ⟨h₁, h₂, h₃⟩ := Undone.twice hat ⟨d, o, hf, hw⟩ (htwice env db'' hagain.1 d hagain.2 hs')
    exact ⟨r', h₁, h₂, h₃⟩
  rw [hb]
  constructor
  · exact fun hw => ⟨r, hrow, hw.1⟩
  · rintro ⟨r', hr', hw⟩
    obtain rfl : r' = r := Option.some.inj (hr'.symm.trans hrow)
    exact ⟨hw, htoggle⟩

theorem vals_undeleteRoom {γ : Type} (v : DbView γ) (flags : ℕ) : (v.undeleteRoom key flags d).vals = v.vals := by
  unfold DbView.undeleteRoom
  split
  · simp only; split <;> rfl
  · rfl

/-- **An undo of a deleted record** brings the newest version back when the first one is. -/
theorem broughtBack_gone (hgone : (db.view keptView).rowOf key = none) (hf : FirstParked db key d)
    (hu : Undeletes keptView key (some d) cfg.flags (db.view keptView) o (db'.view keptView)) :
    BroughtBack db key db' ↔ key ≠ [] ∧ FirstIsNewest db key := by
  generalize hv : db.view keptView = v at hu hgone
  generalize hv' : db'.view keptView = v' at hu
  cases hu with
  | none hno =>
    subst hv
    have hkey : key = [] := by
      rcases hno with (h | h | ⟨x, hx, h⟩) | h
      · exact h
      · cases h
      · cases hx
        rcases h with h | h
        exacts [absurd h (Nat.not_lt_of_le hf.1.1), absurd hf.1.2.2 h]
      · exact absurd hgone h
    constructor
    · rintro ⟨e, r, -, hr, -⟩
      have hr : (db'.view keptView).rowOf key = some r := hr
      rw [hv', hgone] at hr
      cases hr
    · exact fun h => absurd hkey h.1
  | @back d' info hkey hnew hd hlt hinfo hik hgiven =>
    obtain rfl : d' = d := hgiven
    obtain ⟨w, hw⟩ : ∃ w, w = v.undeleteRoom key cfg.flags d' := ⟨_, rfl⟩
    rw [← hw] at hv'
    have hlive : ∀ r, LiveAt db' key r ↔ r = w.cnt.nRecords := by
      intro r
      change (db'.view keptView).rowOf key = some r ↔ _
      rw [hv']
      unfold DbView.undeleteAt DbView.rowOf
      simp only
      rw [DbView.rowOf_set, if_pos rfl]
      exact ⟨fun h => (Option.some.inj h).symm, fun h => congrArg some h.symm⟩
    have hslot : (db'.io.row w.cnt.nRecords).SameValue (db.io.row d').toSlot := by
      change ((db'.view keptView).slot keptView _).SameValue ((db.view keptView).slot keptView d')
      rw [hv', hv, DbView.slot_eq hinfo]
      unfold DbView.slot
      rw [DbView.rows_undeleteAt, if_pos rfl, DbView.slot_new]
      exact ⟨rfl, rfl, rfl, rfl⟩
    have hvals : db'.io.files.vals = db.io.files.vals := by
      change (db'.view keptView).vals = (db.view keptView).vals
      rw [hv', hv]
      change w.vals = _
      rw [hw, vals_undeleteRoom]
    constructor
    · rintro ⟨e, r, he, hr, hsv, -⟩
      rw [hlive] at hr
      subst hr
      exact ⟨hkey, d', e, hf, he, hslot.symm.trans hsv⟩
    · rintro ⟨-, d, e, hd, he, hsv⟩
      cases hf.eq hd
      exact ⟨e, _, he, (hlive _).2 rfl, hslot.trans hsv, hvals⟩

/-- **When the newest version comes back**: after any run, for every key with a parked version,
`unmodify` and `revert` make the version displaced last live again just when it is the first
parked one, and a second call always makes the version live again that was live before. -/
theorem newest_iff (hr : Runs (CleanStep cfg (fitting cfg)) (JDb.init cfg) tr db) (hp : Parked db key x) :
    (∀ env db', CleanStep cfg (fitting cfg) db (env, .unmodify key none) db' →
      (BroughtBack db key db' ∧ Toggles cfg (.unmodify key none) key db db' ↔
        ∃ r, LiveAt db key r ∧ UndoneWell db key r)) ∧
    ∀ env db', CleanStep cfg (fitting cfg) db (env, .revert key none) db' →
      (BroughtBack db key db' ∧ Toggles cfg (.revert key none) key db db' ↔
        (∃ r, LiveAt db key r ∧ UndoneWell db key r) ∨
          (∀ r, ¬ LiveAt db key r) ∧ key ≠ [] ∧ FirstIsNewest db key) := by
  have h := good_of_runs keeps_fitting_kept hr
  constructor
  · intro env db' hs
    by_cases hlive : ∃ r, LiveAt db key r
    · obtain ⟨r, hrow⟩ := hlive
      obtain ⟨hg, hu⟩ := unmodify_undone h hrow hp hs
      refine undone_iff h hrow hu fun env' db'' hrow' d hd hs' => ?_
      exact (unmodify_undone hg hrow' hd hs').2
    · have hgone : (db.view keptView).rowOf key = none := by
        by_contra hn
        obtain ⟨r, hr⟩ := Option.ne_none_iff_exists'.1 hn
        exact hlive ⟨r, hr⟩
      refine ⟨fun hb => ?_, fun ⟨r, hr, _⟩ => absurd ⟨r, hr⟩ hlive⟩
      obtain ⟨⟨e, r, -, hr, -⟩, -⟩ := hb
      rw [unmodify_gone h hgone hs] at hr
      exact absurd ⟨r, hr⟩ hlive
  · intro env db' hs
    obtain ⟨hg, ⟨hlive, hu⟩ | ⟨hgone, d, o, hf, hu⟩⟩ := revert_undone h hp hs
    · obtain ⟨r, hrow⟩ := Option.ne_none_iff_exists'.1 hlive
      have hiff := undone_iff (c := .revert key none) h hrow hu fun env' db'' hrow' d hd hs' => by
        obtain ⟨-, ⟨-, hu⟩ | ⟨hgone, -⟩⟩ := revert_undone hg hd hs'
        · exact hu
        · rw [show (db'.view keptView).rowOf key = some _ from hrow'] at hgone; cases hgone
      rw [hiff]
      exact ⟨.inl, fun h' => h'.resolve_right fun ⟨hn, _⟩ => hn r hrow⟩
    · have hnone : ∀ r, ¬ LiveAt db key r := by
        intro r hr
        rw [show (db.view keptView).rowOf key = some r from hr] at hgone
        cases hgone
      have hb := broughtBack_gone hgone (firstVersion_iff.1 hf) hu
      constructor
      · exact fun h' => .inr ⟨hnone, hb.1 h'.1⟩
      · rintro (⟨r, hr, -⟩ | ⟨-, h'⟩)
        · exact absurd hr (hnone r)
        · exact ⟨hb.2 h', fun r _ _ hr _ => absurd hr (hnone r)⟩

/-- A record that was updated. -/
def updateCalls : List Label :=
  [({}, .opened), writeCall ['K'] (.int 1) REVERT, ({}, .closed), ({}, .opened), writeCall ['K'] (.int 2) REVERT]

theorem newest_update : ∃ db, Runs (CleanStep jsonCfg (fitting jsonCfg)) (JDb.init jsonCfg) updateCalls db ∧
    Parked db ['K'] 1 ∧ ∀ env db', CleanStep jsonCfg (fitting jsonCfg) db (env, .unmodify ['K'] none) db' →
      (BroughtBack db ['K'] db' ∧ Toggles jsonCfg (.unmodify ['K'] none) ['K'] db db' ↔
        ∃ r, LiveAt db ['K'] r ∧ UndoneWell db ['K'] r) := by
  obtain ⟨db, hr, h⟩ := exists_cleanRuns jsonCfg (JDb.init jsonCfg) (fitting jsonCfg)
    updateCalls
    (P := fun db => decide (db.io.nRecords ≤ 1 ∧ 1 < db.io.nLines ∧ (db.io.row 1).key = ['K'])) (by decide)
    (by decide +kernel)
  rw [decide_eq_true_eq] at h
  have hp : Parked db ['K'] 1 := h
  exact ⟨db, hr, hp, (newest_iff hr hp).1⟩

/-- Two records, one of them updated twice, the other one once after that. -/
def overtakenCalls : List Label :=
  [({}, .opened), writeCall ['K'] (.int 1) REVERT, writeCall ['J'] (.int 7) REVERT, ({}, .closed),
    ({}, .opened), writeCall ['K'] (.int 2) REVERT, ({}, .closed),
    ({}, .opened), writeCall ['K'] (.int 3) REVERT, ({}, .closed),
    ({}, .opened), writeCall ['J'] (.int 8) REVERT]

/-- **An older version comes back**: an update of another record has moved the newest parked
version behind an older one. -/
theorem newest_fails : ∃ db db', Runs (Step jsonCfg) (JDb.init jsonCfg) overtakenCalls db ∧
    Step jsonCfg db ({}, .revert ['K'] none) db' ∧ Newest db ['K'] 4 ∧ (db.io.row 4).offset = 2 ∧
    LiveAt db' ['K'] 0 ∧ (db'.io.row 0).offset = 1 ∧ ¬ BroughtBack db ['K'] db' := by
  obtain ⟨db, hr, h⟩ := exists_runs jsonCfg (JDb.init jsonCfg) overtakenCalls
    (P := fun db => decide (db.io.nRecords = 2 ∧ db.io.nLines = 5 ∧ (db.io.row 2).key = ['J'] ∧
        (db.io.row 3).key = ['K'] ∧ (db.io.row 4).key = ['K'] ∧ (db.io.row 3).ver < (db.io.row 4).ver ∧
        (db.io.row 4).offset = 2) &&
      Exec.returned
        (fun db' : JDb => decide ((db'.io.keyTable.get? ['K']).map Prod.fst = some 0 ∧ (db'.io.row 0).offset = 1))
        ((Call.exec jsonCfg {} (.revert ['K'] none)).run db)) (by decide +kernel)
  rw [Bool.and_eq_true, decide_eq_true_eq] at h
  obtain ⟨⟨hn, hl, h₂, h₃, h₄, hver, ho⟩, h⟩ := h
  have hlast : ∀ d, Newest db ['K'] d → d = 4 := by
    rintro d ⟨⟨hd₁, hd₂, hdk⟩, hmax⟩
    have hd : d = 2 ∨ d = 3 ∨ d = 4 := by omega
    have hle := hmax 4 ⟨by omega, by omega, h₄⟩
    rcases hd with rfl | rfl | rfl
    · rw [h₂] at hdk; exact absurd hdk (by decide)
    · omega
    · rfl
  have hnew : Newest db ['K'] 4 := by
    refine ⟨⟨by omega, by omega, h₄⟩, ?_⟩
    rintro d ⟨hd₁, hd₂, hdk⟩
    have hd : d = 2 ∨ d = 3 ∨ d = 4 := by omega
    rcases hd with rfl | rfl | rfl
    · rw [h₂] at hdk; exact absurd hdk (by decide)
    · exact Nat.le_of_lt hver
    · exact le_rfl
  obtain ⟨ret, db', hrun, hdone⟩ := Exec.eq_of_returned h
  obtain ⟨hlive, hback⟩ := of_decide_eq_true hdone
  refine ⟨db, db', hr, ⟨ret, hrun⟩, hnew, ho, hlive, hback, ?_⟩
  rintro ⟨d, r, hd, hr', hv, -⟩
  cases hlast d hd
  cases Option.some.inj (hlive.symm.trans hr')
  have := hv.2.1
  omega

end JDb

end OmniJsonDb
