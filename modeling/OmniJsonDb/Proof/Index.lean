import OmniJsonDb.Proof.Refuse

/-!
# The index over whole runs

The key table lists the live rows and the extents of all rows are apart, after any
sequence of calls that write no row too long for `write_key`.

* `good_of_runs`: a good handle after every such run.
* `keyIndex_of_runs`, `valSpace_of_runs`: what that says of the stored rows.
* `keyIndex_fails`, `valSpace_fails`: a key that is shortened loses both.
-/

namespace OmniJsonDb

/-- The row stored at `r`. -/
def JIo.row (io : JIo) (r : ℕ) : Row := unpackRow (io.files.rows r)

/-- The key table has row `r` for `key`. -/
def JDb.LiveAt (db : JDb) (key : Key) (r : ℕ) : Prop := (db.io.keyTable.get? key).map Prod.fst = some r

/-! ## Clean runs -/

/-- A call that returns, that names live rows where it takes them for such, and that writes
only rows that `p` admits. -/
structure CleanStep (cfg : Config) (p : Row → KeyRec → ℕ → Bool) (db : JDb) (l : Label) (db' : JDb) :
    Prop where
  step : Step cfg db l db'
  accepted : Call.Accepted cfg p db l
  live : l.2.RowsLive db

/-- The call names no row that would have to be live. -/
def Call.plain : Call → Bool
  | .delete key _ row _ _ => key ≠ [] || row.isNone
  | .read _ row _ => row.isNone
  | _ => true

theorem Call.plain_live {c : Call} (h : c.plain = true) (db : JDb) : c.RowsLive db := by
  unfold Call.plain at h
  cases c with
  | delete key _ row _ _ =>
    intro hk r hr
    simp [hk, hr] at h
  | read _ row _ =>
    intro r hr
    simp [hr] at h
  | _ => trivial

variable {γ : Type} {V : RowView γ} {cfg : Config} {p : Row → KeyRec → ℕ → Bool} {db db' : JDb}
  {l : Label} {tr : List Label}

/-- A call that returns under the codec that refuses is a clean one. -/
theorem CleanStep.of_run {ret : Ret} (hp : l.2.plain = true)
    (h : (l.2.exec (cfg.refusing p) l.1).run db = (.ok ret, db')) : CleanStep cfg p db l db' where
  step := ⟨ret, (within_exec l.1 l.2).ok h⟩
  accepted := ⟨db', ret, h⟩
  live := Call.plain_live hp db

variable (cfg db) in
/-- A clean run that can be computed. -/
theorem exists_cleanRuns (p : Row → KeyRec → ℕ → Bool) (ls : List Label) {P : JDb → Bool}
    (hp : (ls.all fun l => l.2.plain) = true)
    (h : (runCalls (cfg.refusing p) ls db).any P = true) :
    ∃ db', Runs (CleanStep cfg p) db ls db' ∧ P db' = true := by
  induction ls generalizing db with
  | nil => exact ⟨db, .refl, h⟩
  | cons l ls ih =>
    rw [List.all_cons, Bool.and_eq_true] at hp
    rw [runCalls] at h
    split at h
    · rename_i ret db₁ hrun
      obtain ⟨db', hr, hP⟩ := ih db₁ hp.2 h
      exact ⟨db', .head (.of_run hp.1 hrun) hr, hP⟩
    · cases h

/-- Run calls one after the other, as long as they return and `check` admits them. -/
def runChecked (cfg : Config) (check : JDb → Label → Bool) : List Label → JDb → Option JDb
  | [], db => some db
  | l :: ls, db =>
    if check db l then
      match (l.2.exec cfg l.1).run db with
      | (.ok _, db') => runChecked cfg check ls db'
      | (.error _, _) => none
    else none

variable (cfg db) in
/-- A clean run whose calls meet a condition that can be checked. -/
theorem exists_checkedRuns (p : Row → KeyRec → ℕ → Bool) {check : JDb → Label → Bool} {D : JDb → Label → Prop}
    (hD : ∀ db l, check db l = true → D db l) (ls : List Label) {P : JDb → Bool}
    (hp : (ls.all fun l => l.2.plain) = true) (h : (runChecked (cfg.refusing p) check ls db).any P = true) :
    ∃ db', Runs (fun db l db' => CleanStep cfg p db l db' ∧ D db l) db ls db' ∧ P db' = true := by
  induction ls generalizing db with
  | nil => exact ⟨db, .refl, h⟩
  | cons l ls ih =>
    rw [List.all_cons, Bool.and_eq_true] at hp
    rw [runChecked] at h
    split at h
    · rename_i hcheck
      split at h
      · rename_i ret db₁ hrun
        obtain ⟨db', hr, hP⟩ := ih db₁ hp.2 h
        exact ⟨db', .head ⟨.of_run hp.1 hrun, hD db l hcheck⟩ hr, hP⟩
      · cases h
    · cases h

/-- **A clean call** keeps a handle good, by updates of the index. -/
theorem CleanStep.moved (hk : (cfg.refusing p).Keeps V) (h : db.Good V (cfg.refusing p))
    (hs : CleanStep cfg p db l db') :
    db'.Good V (cfg.refusing p) ∧ JDb.Moved V (cfg.refusing p) (db.view V) (db'.view V) := by
  obtain ⟨ret, hrun⟩ := hs.step.accepted hs.accepted
  exact (wp_exec hk h l.1 l.2 hs.live).ok hrun

/-- **After a clean run** the handle is good. -/
theorem good_of_runs (hk : (cfg.refusing p).Keeps V) (hr : Runs (CleanStep cfg p) (JDb.init cfg) tr db) :
    db.Good V (cfg.refusing p) :=
  hr.invariant (P := fun db => db.Good V (cfg.refusing p)) (good_init V (cfg.refusing p))
    fun _ _ _ h hs => (hs.moved hk h).1

/-! ## Slots -/

/-- A row without its dates and flags. -/
def slotView : RowView Slot where
  proj r := r.toSlot
  slot s := s
  slot_proj r := id_eq r.toSlot
  fixed _ := True
  fixed_empty := trivial
  normal_fixed _ _ _ := rfl

/-- A codec that only refuses rows that are too long keeps slots. -/
theorem keeps_fitting : (cfg.refusing (fitting cfg)).Keeps slotView := by
  intro r k n h
  obtain ⟨hd, hf⟩ := refusing_ok h
  exact ⟨of_decide_eq_true hf, congrArg Core.toSlot (unpackRow_core (cfg.keyDumps_pack _ _ _ hd)), trivial⟩

/-! ## The key index -/

/-- **Integrity of the key index**: the live rows hold different keys, and the key table maps
just these, each to its row. -/
structure KeyIndex (db : JDb) : Prop where
  le : db.io.nRecords ≤ db.io.nLines
  distinct : ∀ r s, r < db.io.nRecords → s < db.io.nRecords →
    (db.io.row r).key = (db.io.row s).key → r = s
  table : ∀ key row, (db.io.keyTable.get? key).map Prod.fst = some row ↔
    row < db.io.nRecords ∧ (db.io.row row).key = key

theorem JDb.Good.keyIndex (h : db.Good slotView cfg) : KeyIndex db where
  le := h.index.keyed.le
  distinct _ _ hr hs he := h.index.keyed.inj hr hs he
  table := h.index.keyed.table

/-- **The key index over whole runs**: after every run of calls that write no row too long,
the key table has the live rows, each for its own key. -/
theorem keyIndex_of_runs (hr : Runs (CleanStep cfg (fitting cfg)) (JDb.init cfg) tr db) : KeyIndex db :=
  (good_of_runs keeps_fitting hr).keyIndex

/-- A write of a plain value. -/
def writeCall (key : Key) (val : PyVal) (flags : ℕ) : Label := ({}, .write key val { flags := some flags })

def deleteCall (key : Key) (flags : ℕ) : Label := ({}, .delete key false none (some flags) .none)

/-- Two keys, one of them deleted and brought back, in two sessions. -/
def plainCalls : List Label :=
  [({}, .opened), writeCall ['A'] (.str "a longer text".toList) REVERT, writeCall ['B'] (.int 5) REVERT,
    deleteCall ['A'] REVERT, ({}, .closed), ({}, .opened), ({}, .undelete ['A'] none none)]

theorem keyIndex_plain : ∃ db, Runs (CleanStep jsonCfg (fitting jsonCfg)) (JDb.init jsonCfg) plainCalls db ∧
    KeyIndex db ∧ db.io.nRecords = 2 := by
  obtain ⟨db, hr, hn⟩ := exists_cleanRuns jsonCfg (JDb.init jsonCfg) (fitting jsonCfg)
    plainCalls (P := fun db => decide (db.io.nRecords = 2)) (by decide) (by decide +kernel)
  exact ⟨db, hr, keyIndex_of_runs hr, of_decide_eq_true hn⟩

/-- A key of fewer than `MAX_KEY_SIZE` characters that no row can hold. -/
def longKey : Key := List.replicate 2800 '漢'

/-- **A shortened key**: the row holds what is left of it, the key table the whole. -/
theorem keyIndex_fails : ∃ db, Runs (Step jsonCfg) (JDb.init jsonCfg)
    [({}, .opened), writeCall longKey (.int 5) 0] db ∧ ¬ KeyIndex db := by
  obtain ⟨db, hr, h⟩ := exists_runs jsonCfg (JDb.init jsonCfg)
    [({}, .opened), writeCall longKey (.int 5) 0]
    (P := fun db => decide (db.io.keyTable.get? longKey = some (0, 0)) && decide ((db.io.row 0).key = []))
    (by decide +kernel)
  rw [Bool.and_eq_true, decide_eq_true_eq, decide_eq_true_eq] at h
  refine ⟨db, hr, fun hk => ?_⟩
  have := ((hk.table longKey 0).1 (by rw [h.1]; rfl)).2
  rw [h.2] at this
  exact absurd this (by decide)

/-! ## The space of the values -/

/-- **Ownership of VAL space**: every extent lies in the used part of its file, and no two
rows, live or dead, share a byte. -/
structure ValSpace (db : JDb) : Prop where
  inside : ∀ r, r < db.io.nLines → 0 < (db.io.row r).rowSize →
    (db.io.row r).offset + (db.io.row r).rowSize ≤ db.io.fileEnd (db.io.row r).fileId
  disjoint : ∀ r s, r < db.io.nLines → s < db.io.nLines → r ≠ s →
    0 < (db.io.row r).rowSize → 0 < (db.io.row s).rowSize →
    (db.io.row r).fileId = (db.io.row s).fileId →
    (db.io.row r).offset + (db.io.row r).rowSize ≤ (db.io.row s).offset ∨
      (db.io.row s).offset + (db.io.row s).rowSize ≤ (db.io.row r).offset

theorem JDb.Good.valSpace (h : db.Good slotView cfg) : ValSpace db where
  inside r hr hpos := h.index.extents.inside r hr hpos
  disjoint r s hr hs hne hpos hpos' hf := by
    rcases h.index.extents.apart r s hr hs hne with h' | h' | h' | h'
    · exact absurd hf h'
    · exact absurd h' (Nat.ne_of_gt hpos)
    · exact absurd h' (Nat.ne_of_gt hpos')
    · exact h'

/-- One update of the index and the VAL files, which leaves the bytes of every extent alone
that a row lists afterwards, but for the live row of the one key it is about. -/
def Spares (cfg : Config) (v w : DbView Slot) : Prop :=
  JDb.Moves slotView cfg v w ∧ ∃ key, ∀ r, r < w.cnt.nLines → w.rowOf key ≠ some r →
    w.bytesAt (w.place slotView r) = v.bytesAt (w.place slotView r)

theorem JDb.Moves.spares {v w : DbView Slot} (h : v.Good slotView) (hm : JDb.Moves slotView cfg v w) :
    Spares cfg v w := by
  refine ⟨hm, ?_⟩
  cases hm with
  | @effect key flags _ _ he => exact ⟨key, fun r hr hne => he.bytes_eq h.keyed h.extents h.volumes hr hne⟩
  | session => exact ⟨[], fun _ _ _ => rfl⟩
  | rename => exact ⟨[], fun _ _ _ => rfl⟩

theorem JDb.Moved.spares {v w : DbView Slot} (h : v.Good slotView) (hm : JDb.Moved slotView cfg v w) :
    Relation.ReflTransGen (Spares cfg) v w := by
  induction hm with
  | refl => exact .refl
  | tail hs hm ih => exact ih.tail (hm.spares (JDb.Moved.good h hs))

/-- **VAL space over whole runs**: after every run of calls that write no row too long, all
extents are apart, and no update of the next call writes on an extent another row lists. -/
theorem valSpace_of_runs (hr : Runs (CleanStep cfg (fitting cfg)) (JDb.init cfg) tr db) :
    ValSpace db ∧ ∀ l db', CleanStep cfg (fitting cfg) db l db' →
      Relation.ReflTransGen (Spares (cfg.refusing (fitting cfg))) (db.view slotView) (db'.view slotView) := by
  have h := good_of_runs keeps_fitting hr
  exact ⟨h.valSpace, fun _ _ hs => (hs.moved keeps_fitting h).2.spares h.index⟩

theorem valSpace_plain : ∃ db, Runs (CleanStep jsonCfg (fitting jsonCfg)) (JDb.init jsonCfg) plainCalls db ∧
    ValSpace db ∧ db.io.nLines = 2 := by
  obtain ⟨db, hr, hn⟩ := exists_cleanRuns jsonCfg (JDb.init jsonCfg) (fitting jsonCfg)
    plainCalls (P := fun db => decide (db.io.nLines = 2)) (by decide) (by decide +kernel)
  exact ⟨db, hr, (valSpace_of_runs hr).1, of_decide_eq_true hn⟩

/-- Three records, the last under a key that is shortened; the first two are deleted, and the
key table then has a dead row for that key. -/
def sharedCalls : List Label :=
  let long c : PyVal := .str (List.replicate 40 c)
  [({}, .opened), writeCall ['A'] (long 'a') 0, writeCall ['B'] (long 'b') 0, writeCall longKey (long 'c') 0,
    deleteCall ['A'] 0, deleteCall ['B'] 0, ({}, .closed), ({}, .opened), writeCall longKey (long 'd') REVERT]

/-- **An extent two rows share**, once a key was shortened. -/
theorem valSpace_fails : ∃ db, Runs (Step jsonCfg) (JDb.init jsonCfg) sharedCalls db ∧ ¬ ValSpace db := by
  obtain ⟨db, hr, h⟩ := exists_runs jsonCfg (JDb.init jsonCfg) sharedCalls
    (P := fun db => decide (db.io.nLines = 3 ∧ (db.io.row 1).fileId = (db.io.row 2).fileId ∧
      (db.io.row 1).offset = (db.io.row 2).offset ∧ 0 < (db.io.row 1).rowSize ∧ 0 < (db.io.row 2).rowSize))
    (by decide +kernel)
  obtain ⟨hn, hf, ho, h₁, h₂⟩ := of_decide_eq_true h
  refine ⟨db, hr, fun hv => ?_⟩
  have := hv.disjoint 1 2 (by omega) (by omega) (by decide) h₁ h₂ hf
  omega

end OmniJsonDb
