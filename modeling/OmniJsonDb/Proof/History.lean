import OmniJsonDb.Model.History
import OmniJsonDb.Proof.Upkeep

/-!
# Listing versions

* `wp_listVersions`: the loop lists the rows within the bounds, in order.
* `readVersion_iff`: where a block has room for a row, the listing is exact with an upper bound, and
  without one it is complete just when no row has a version above the number of lines.
-/

namespace OmniJsonDb

namespace JDb

variable {cfg : Config}

/-- A row within the bounds of a listing. -/
def Within (version : ℤ) (maxVersion : Option ℤ) (row : Row) : Prop :=
  version ≤ row.ver ∧ ∀ w ∈ maxVersion, (row.ver : ℤ) ≤ w

instance (version : ℤ) (maxVersion : Option ℤ) (row : Row) : Decidable (Within version maxVersion row) :=
  inferInstanceAs (Decidable (version ≤ row.ver ∧ ∀ w ∈ maxVersion, (row.ver : ℤ) ≤ w))

/-- What a listing tells of a row, its value apart. -/
def Listed.facts (e : ℕ × Listed) : ℕ × Row × Bool := (e.1, e.2.row, e.2.isActive)

/-- Only decoding a value can raise. -/
theorem wp_listedValue (env : Env) (withValue isActive : Bool) (row : Row) (db : JDb) :
    Exec.Wp (listedValue cfg env withValue isActive row) db (fun _ _ => True) fun _ _ => withValue = true := by
  cases withValue with
  | false => trivial
  | true => exact Exec.wp_of_run (fun _ _ _ => trivial) fun _ _ _ => rfl

/-- **The loop** lists the rows within the bounds. -/
theorem wp_listVersions (env : Env) (w v : ℤ) (withValue : Bool) (n : ℕ) (rows : List (ℕ × Row)) : ∀ db : JDb,
    Exec.Wp (listVersions cfg env w v withValue n rows) db
      (fun out _ => out.map Listed.facts =
        (rows.filter fun e => (e.2.ver : ℤ) ≤ w ∧ v ≤ e.2.ver).map fun e => (e.1, e.2, decide (e.1 < n)))
      fun _ _ => withValue = true := by
  induction rows with
  | nil => intro db; rfl
  | cons e rows ih =>
    obtain ⟨r, row⟩ := e
    intro db
    unfold listVersions
    by_cases h : (row.ver : ℤ) ≤ w ∧ v ≤ row.ver
    · rw [if_pos h, List.filter_cons_of_pos (by simpa using h), Exec.wp_bind]
      refine Exec.wp_mono (wp_listedValue env withValue _ row db) (fun val db₁ _ => ?_) fun _ _ h' => h'
      rw [Exec.wp_bind]
      refine Exec.wp_mono (ih db₁) (fun more _ hmore => ?_) fun _ _ h' => h'
      rw [Exec.wp_ret, List.map_cons, List.map_cons, hmore]
      rfl
    · rw [if_neg h, List.filter_cons_of_neg (by simpa using h)]
      exact ih db

/-- The rows of the index, in order. -/
def rowsOf (db : JDb) : List (ℕ × Row) := (List.range db.io.nLines).map fun r => (r, db.io.row r)

/-- **The listing is exactly the rows of the index whose version lies within the bounds**, live and
parked ones, in order. -/
def ListsVersions (cfg : Config) (env : Env) (db : JDb) (version : ℤ) (maxVersion : Option ℤ) : Prop :=
  ∃ out db', (fReadVersion cfg env version maxVersion false).run db = (.ok out, db') ∧
    out.map Listed.facts = ((rowsOf db).filter fun e => Within version maxVersion e.2).map
      fun e => (e.1, e.2, decide (e.1 < db.io.nRecords))

/-- `KEY_iter` meets every row of the index, or none. -/
theorem keyIter_all (db : JDb) :
    db.io.keyIter 0 db.io.cnt.nLines = if 2 ^ 22 < db.io.indexSize then [] else rowsOf db := by
  unfold JIo.keyIter rowsOf
  rw [Nat.min_self, Nat.sub_zero, ← List.range_eq_range']
  rfl

/-- What is listed: nothing where a block has no room for a row, and as if no upper bound were the
number of lines. -/
theorem listsVersions_iff (env : Env) (db : JDb) (v : ℤ) (w : Option ℤ) : ListsVersions cfg env db v w ↔
    ∀ r, r < db.io.nLines → Within v w (db.io.row r) →
      db.io.indexSize ≤ 2 ^ 22 ∧ (w = none → (db.io.row r).ver ≤ db.io.nLines) := by
  have hwp : Exec.Wp (fReadVersion cfg env v w false) db _ fun _ _ => False :=
    Exec.wp_mono (wp_listVersions env (w.getD db.io.cnt.nLines) (max v 0) false db.io.cnt.nRecords
      (db.io.keyIter 0 db.io.cnt.nLines) db) (fun _ _ h => h) fun _ _ h => Bool.noConfusion h
  obtain ⟨out, db', hrun, hout⟩ := hwp.returns
  have hinj : Function.Injective fun e : ℕ × Row => (e.1, e.2, decide (e.1 < db.io.cnt.nRecords)) := by
    intro e e' h
    exact Prod.ext (congrArg (fun x : ℕ × Row × Bool => x.1) h) (congrArg (fun x : ℕ × Row × Bool => x.2.1) h)
  constructor
  · rintro ⟨out', db'', hrun', hlist⟩ r hr hin
    rw [hrun] at hrun'
    cases hrun'
    have hmem : (r, db.io.row r) ∈ (rowsOf db).filter fun e => Within v w e.2 :=
      List.mem_filter.2 ⟨List.mem_map.2 ⟨r, List.mem_range.2 hr, rfl⟩, decide_eq_true hin⟩
    have hsame := List.map_injective_iff.2 hinj (hout.symm.trans hlist)
    rw [← hsame, keyIter_all] at hmem
    obtain ⟨hiter, hle⟩ := List.mem_filter.1 hmem
    have hle := of_decide_eq_true hle
    split at hiter
    · exact absurd hiter List.not_mem_nil
    · refine ⟨by omega, ?_⟩
      rintro rfl
      exact Int.ofNat_le.1 hle.1
  · intro h
    refine ⟨out, db', hrun, hout.trans ?_⟩
    rw [keyIter_all]
    by_cases hwide : 2 ^ 22 < db.io.indexSize
    · -- no row belongs to the listing
      have hnone : ((rowsOf db).filter fun e => Within v w e.2) = [] := by
        rw [List.filter_eq_nil_iff]
        intro e he hin
        obtain ⟨r, hr, rfl⟩ := List.mem_map.1 he
        have := (h r (List.mem_range.1 hr) (of_decide_eq_true hin)).1
        omega
      rw [if_pos hwide, hnone]
      rfl
    · rw [if_neg hwide]
      refine congrArg _ (List.filter_congr fun e he => ?_)
      obtain ⟨r, hr, rfl⟩ := List.mem_map.1 he
      have hr := List.mem_range.1 hr
      have hbound : ((db.io.row r).ver : ℤ) ≤ w.getD db.io.cnt.nLines ∧ max v 0 ≤ ((db.io.row r).ver : ℤ) ↔
          Within v w (db.io.row r) := by
        have hin := h r hr
        unfold Within at hin ⊢
        cases w with
        | none =>
          simp only [Option.getD_none, Option.mem_def, reduceCtorEq, false_implies, implies_true, and_true] at hin ⊢
          constructor
          · rintro ⟨-, hv⟩
            omega
          · intro hv
            have hle : (db.io.row r).ver ≤ db.io.cnt.nLines := (hin hv).2 trivial
            omega
        | some w =>
          simp only [Option.getD_some, Option.mem_def, Option.some.injEq, forall_eq']
          omega
      exact decide_eq_decide.2 hbound

/-- **Listing versions.** The listing is exact just when a block of `KEY_iter` has room for a row, or no
row belongs to the listing, and, without an upper bound, no row that belongs to it has a version above
the number of lines: that number stands in for the bound. -/
theorem readVersion_iff (cfg : Config) (env : Env) (db : JDb) :
    (∀ v : ℤ, ListsVersions cfg env db v none ↔
      ∀ r, r < db.io.nLines → v ≤ (db.io.row r).ver →
        db.io.indexSize ≤ 2 ^ 22 ∧ (db.io.row r).ver ≤ db.io.nLines) ∧
    ∀ v w : ℤ, ListsVersions cfg env db v (some w) ↔
      ∀ r, r < db.io.nLines → v ≤ (db.io.row r).ver → (db.io.row r).ver ≤ w → db.io.indexSize ≤ 2 ^ 22 := by
  constructor
  · intro v
    rw [listsVersions_iff]
    refine forall₂_congr fun r _ => ?_
    simp [Within]
  · intro v w
    rw [listsVersions_iff]
    refine forall₂_congr fun r _ => ?_
    simp [Within]

/-- As long as there were no more sessions than lines, nothing recent is missing. -/
theorem Settled.listsVersions {n : ℕ} {db : JDb} (h : Settled n db) (hle : db.io.cnt.syncId ≤ db.io.nLines + 1)
    (hblock : db.io.indexSize ≤ 2 ^ 22) (env : Env) (v : ℤ) : ListsVersions cfg env db v none := by
  rw [listsVersions_iff]
  intro r hr _
  have hver : (db.io.row r).ver < db.io.cnt.syncId := h.stamped.stored r hr (Set.notMem_empty r)
  exact ⟨hblock, fun _ => by omega⟩

/-- **One record, rewritten in place**: its version passes the number of lines, and a listing without
an upper bound is empty. -/
theorem readVersion_misses : ∃ db, Runs (WorkStep jsonCfg) (JDb.init jsonCfg)
    [({}, .call .opened), ({}, .call (.write ['A'] (.int 5) {})), ({}, .call (.write ['A'] (.int 6) {})),
      ({}, .call (.write ['A'] (.int 7) {})), ({}, .call .closed)] db ∧ ¬ ListsVersions jsonCfg {} db 1 none := by
  obtain ⟨db, hrun, h⟩ := (Option.any_eq_true (fun db : JDb => decide (0 < db.io.nLines) &&
      decide (1 ≤ (db.io.row 0).ver) && decide (db.io.nLines < (db.io.row 0).ver)) (runWork jsonCfg
    [({}, .call .opened), ({}, .call (.write ['A'] (.int 5) {})), ({}, .call (.write ['A'] (.int 6) {})),
      ({}, .call (.write ['A'] (.int 7) {})), ({}, .call .closed)] (JDb.init jsonCfg))).1 (by decide +kernel)
  simp only [Bool.and_eq_true, decide_eq_true_eq] at h
  obtain ⟨⟨hl, hv⟩, hlt⟩ := h
  refine ⟨db, runs_of_runWork hrun, ?_⟩
  rw [listsVersions_iff]
  intro hall
  have := (hall 0 hl ⟨by omega, fun _ h => by cases h⟩).2 rfl
  omega

end JDb

end OmniJsonDb
