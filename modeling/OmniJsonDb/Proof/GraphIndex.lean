import Mathlib.Data.List.Dedup
import OmniJsonDb.Proof.GraphStore

/-!
# What the edges imply

Each edge implies one entry in the list of either end. A store whose lists and counters are what
its edges imply has nothing amiss.

* `scan_entries`: what the scan of the edges expects.
* `wp_iterAdjs`: what the lists are read as.
* `wp_verifyIndex`: where the lists and the counters are right, the report is clean.
-/

namespace OmniJsonDb

namespace Graph

open Exec

variable {P C : Type} {cfg : Config P C} {db db' : Db P C} {key : Key} {id : NodeId}
  {x : List Char}

/-- An edge: where it starts, whether it is directed, where it ends. -/
abbrev Edge := NodeId × Bool × NodeId

/-- The entries of an edge in the list of `id`. -/
def entriesAt (id : NodeId) (e : Edge) : List (List Char) :=
  (if e.1 = id then [outEntry e.2.1 e.2.2] else []) ++ if e.2.2 = id then [inEntry e.2.1 e.1] else []

/-- The list of `id` that edges imply. -/
def implied (id : NodeId) (es : List Edge) : List (List Char) := es.flatMap (entriesAt id)

theorem mem_entriesAt {e : Edge} : x ∈ entriesAt id e ↔
    (e.1 = id ∧ x = outEntry e.2.1 e.2.2) ∨ (e.2.2 = id ∧ x = inEntry e.2.1 e.1) := by
  unfold entriesAt
  by_cases h₁ : e.1 = id <;> by_cases h₂ : e.2.2 = id <;> simp [h₁, h₂]

theorem implied_cons {e : Edge} {es : List Edge} : implied id (e :: es) = entriesAt id e ++ implied id es := rfl

theorem mem_implied {es : List Edge} : x ∈ implied id es ↔ ∃ e ∈ es, x ∈ entriesAt id e := List.mem_flatMap

/-- What starts a key of an edge, a list or a node. -/
theorem head?_of_edgeMatch {e : Edge} (h : edgeMatch key = some e) : key.head? = some 'E' := by
  obtain ⟨u, d, v⟩ := e
  obtain ⟨-, -, hk⟩ := edgeOf_eq_some (edgeMatch_edgeOf h)
  rcases hk with rfl | rfl <;> rfl

theorem head?_of_adjMatch (h : adjMatch key = some id) : key.head? = some 'X' := by
  obtain ⟨-, hk⟩ := adjMatch_eq_some.1 h
  rcases hk with rfl | rfl <;> rfl

theorem head?_of_nodeMatch (h : nodeMatch key = some id) : key.head? = some 'N' := by
  obtain ⟨-, hk⟩ := nodeMatch_eq_some.1 h
  rcases hk with rfl | rfl <;> rfl

/-! ## The scan of the edges -/

/-- One edge more. -/
def Expected.edge (ex : Expected) (e : Edge) : Expected where
  entries := addTo (addTo ex.entries e.1 (outEntry e.2.1 e.2.2)) e.2.2 (inEntry e.2.1 e.1)
  edges := ex.edges + 1
  directed := if e.2.1 then ex.directed + 1 else ex.directed

/-- The scan goes over the edges that are seen. -/
theorem scan_eq (keys : List Key) :
    Expected.scan keys = (keys.filterMap edgeMatch).foldl Expected.edge ⟨OrdDict.empty, 0, 0⟩ := by
  unfold Expected.scan
  rw [List.foldl_filterMap]
  congr 1
  funext ex key
  rcases edgeMatch key with _ | ⟨u, d, v⟩ <;> rfl

theorem mem_addTo {d : OrdDict NodeId (List (List Char))} {i : NodeId} {entry : List Char} :
    x ∈ ((addTo d i entry).get? id).getD [] ↔ x ∈ (d.get? id).getD [] ∨ id = i ∧ x = entry := by
  unfold addTo
  rw [OrdDict.get?_set]
  by_cases hi : id = i
  · subst hi
    simp only [if_true, Option.getD_some, List.mem_insert_iff, true_and]
    exact or_comm
  · simp [hi]

theorem Expected.mem_edge {ex : Expected} {e : Edge} : x ∈ ((ex.edge e).entries.get? id).getD [] ↔
    x ∈ (ex.entries.get? id).getD [] ∨ x ∈ entriesAt id e := by
  unfold Expected.edge
  rw [mem_addTo, mem_addTo, mem_entriesAt, or_assoc]
  simp only [eq_comm (a := id)]

theorem Expected.mem_foldl (es : List Edge) (ex : Expected) :
    x ∈ ((es.foldl Expected.edge ex).entries.get? id).getD [] ↔
      x ∈ (ex.entries.get? id).getD [] ∨ x ∈ implied id es := by
  induction es generalizing ex with
  | nil => simp [implied]
  | cons e es ih => rw [List.foldl_cons, ih, Expected.mem_edge, implied_cons, List.mem_append, or_assoc]

/-- **What the scan expects** of a list. -/
theorem scan_entries (keys : List Key) :
    x ∈ ((Expected.scan keys).entries.get? id).getD [] ↔ x ∈ implied id (keys.filterMap edgeMatch) := by
  rw [scan_eq, Expected.mem_foldl]
  simp

theorem Expected.foldl_edges (es : List Edge) (ex : Expected) :
    (es.foldl Expected.edge ex).edges = ex.edges + es.length := by
  induction es generalizing ex with
  | nil => rfl
  | cons e es ih =>
    rw [List.foldl_cons, ih, List.length_cons]
    simp only [Expected.edge]
    omega

theorem Expected.foldl_directed (es : List Edge) (ex : Expected) :
    (es.foldl Expected.edge ex).directed = ex.directed + es.countP (·.2.1) := by
  induction es generalizing ex with
  | nil => rfl
  | cons e es ih =>
    rw [List.foldl_cons, ih, List.countP_cons]
    simp only [Expected.edge]
    split <;> omega

theorem scan_edges (keys : List Key) : (Expected.scan keys).edges = (keys.filterMap edgeMatch).length := by
  rw [scan_eq, Expected.foldl_edges]
  simp

theorem scan_directed (keys : List Key) :
    (Expected.scan keys).directed = (keys.filterMap edgeMatch).countP (·.2.1) := by
  rw [scan_eq, Expected.foldl_directed]
  simp

/-! ## The lists -/

theorem get?_of_look {v : Val P} (h : db.look cfg key = some v) :
    ∃ data, db.table.get? key = some data ∧ cfg.loads data = .ok v := by
  unfold Db.look at h
  rw [Option.bind_eq_some_iff] at h
  obtain ⟨data, hdata, hv⟩ := h
  refine ⟨data, hdata, ?_⟩
  cases hl : cfg.loads data with
  | ok v' =>
    rw [hl] at hv
    exact congrArg Except.ok (Option.some.inj hv)
  | error e =>
    rw [hl] at hv
    cases hv

/-- **The lists as they are read**, for lists that are as `S` says. -/
theorem wp_iterAdjs (S : NodeId → List (List Char)) (keys : List Key) (actual : OrdDict NodeId (List (List Char)))
    (hc : Coherent cfg db)
    (hS : ∀ key ∈ keys, ∀ id, adjMatch key = some id →
      ∃ entries, db.look cfg key = some (.adj entries) ∧ ∀ x, x ∈ entries ↔ x ∈ S id) :
    Wp (iterAdjs cfg keys actual) db
      (fun actual' db' => Quiet cfg db db' ∧ ∀ id x, x ∈ (actual'.get? id).getD [] ↔
        ((∃ key ∈ keys, adjMatch key = some id) ∧ x ∈ S id) ∨
          ((¬ ∃ key ∈ keys, adjMatch key = some id) ∧ x ∈ (actual.get? id).getD []))
      fun _ _ => False := by
  induction keys generalizing db actual with
  | nil =>
    unfold iterAdjs
    rw [wp_ret]
    refine ⟨⟨rfl, rfl, hc⟩, ?_⟩
    intro id x
    simp
  | cons key keys ih =>
    have hS' : ∀ k ∈ keys, ∀ id, adjMatch k = some id →
        ∃ entries, db.look cfg k = some (.adj entries) ∧ ∀ x, x ∈ entries ↔ x ∈ S id :=
      fun k hk => hS k (List.mem_cons_of_mem _ hk)
    unfold iterAdjs
    split
    · rename_i hnone
      refine wp_mono (ih actual hc hS') ?_ fun _ _ h => h
      rintro actual' db' ⟨hq, h⟩
      refine ⟨hq, fun id x => ?_⟩
      rw [h]
      simp [hnone]
    · rename_i id₀ hmatch
      obtain ⟨entries, hlook, hentries⟩ := hS key List.mem_cons_self id₀ hmatch
      obtain ⟨data, hdata, hloads⟩ := get?_of_look hlook
      rw [wp_bind, wp_get]
      simp only [hdata]
      rw [wp_bind]
      refine wp_mono wp_decode ?_ ?_
      · rintro v db₁ ⟨hr, hv⟩
        have hv' : v = .adj entries := by
          rcases hv with hv | hv
          · have := hc.on key (.inl (head?_of_adjMatch hmatch)) v hv
            rw [hlook] at this
            exact (Option.some.inj this).symm
          · rw [hloads] at hv
            exact (Except.ok.inj hv).symm
        subst hv'
        have hlook₁ : db₁.look cfg = db.look cfg := look_of_table hr.table
        refine wp_mono (ih _ (hc.reads hr fun _ => hlook) (by rw [hlook₁]; exact hS')) ?_ fun _ _ h => h
        rintro actual' db' ⟨hq, h⟩
        refine ⟨⟨hq.table.trans hr.table, hq.rows.trans hr.rows, hq.coherent⟩, fun id x => ?_⟩
        rw [h, OrdDict.get?_set]
        by_cases hlater : ∃ k ∈ keys, adjMatch k = some id
        · have : ∃ k ∈ key :: keys, adjMatch k = some id := by
            obtain ⟨k, hk, hm⟩ := hlater
            exact ⟨k, List.mem_cons_of_mem _ hk, hm⟩
          simp only [hlater, this, true_and, not_true, false_and, or_false]
        · by_cases hid : id = id₀
          · subst hid
            have : ∃ k ∈ key :: keys, adjMatch k = some id := ⟨key, List.mem_cons_self, hmatch⟩
            simp only [hlater, this, true_and, not_true, not_false_iff, false_and, or_false, false_or, if_true,
              Option.getD_some, List.mem_dedup]
            exact hentries x
          · have : ¬ ∃ k ∈ key :: keys, adjMatch k = some id := by
              rintro ⟨k, hk, hm⟩
              rcases List.mem_cons.1 hk with rfl | hk
              · rw [hmatch] at hm
                exact hid (Option.some.inj hm).symm
              · exact hlater ⟨k, hk, hm⟩
            simp only [hlater, this, false_and, not_false_iff, true_and, false_or, if_neg hid]
      · rintro _ _ ⟨-, e, he⟩
        rw [hloads] at he
        cases he

/-! ## The report -/

/-- The edges that are seen. -/
def Db.seenEdges (db : Db P C) : List Edge := db.table.keys.filterMap edgeMatch

/-- The edges, whatever their ids are made of. -/
def Db.edges (db : Db P C) : List Edge := db.table.keys.filterMap edgeOf

/-- The lists and the counters are what the edges that are seen imply. -/
structure Indexed (cfg : Config P C) (db : Db P C) : Prop where
  lists : ∀ key ∈ db.table.keys, ∀ id, adjMatch key = some id →
    ∃ entries, db.look cfg key = some (.adj entries) ∧ ∀ x, x ∈ entries ↔ x ∈ implied id db.seenEdges
  absent : ∀ id, (¬ ∃ key ∈ db.table.keys, adjMatch key = some id) → implied id db.seenEdges = []
  nodes : db.Counts cfg N_NODES (db.table.keys.filter fun key => (nodeMatch key).isSome).length
  edges : db.Counts cfg N_EDGES db.seenEdges.length
  directed : db.Counts cfg N_DIRECTED (db.seenEdges.countP (·.2.1))

theorem surplus_eq_nil {ids : List NodeId} {a b : OrdDict NodeId (List (List Char))}
    (h : ∀ id x, x ∈ (a.get? id).getD [] → x ∈ (b.get? id).getD []) : surplus ids a b = [] := by
  unfold surplus
  rw [List.flatMap_eq_nil_iff]
  intro id _
  have hnone : ((a.get? id).getD []).filter (fun entry => entry ∉ (b.get? id).getD []) = [] := by
    rw [List.filter_eq_nil_iff]
    intro x hx
    simp [h id x hx]
  rw [hnone, sortText, List.mergeSort_nil, List.map_nil]

theorem counterOff_eq_nil {name : Key} {n : ℕ} : counterOff cfg name (.num n : Val P) n = [] := by
  unfold counterOff
  rw [if_pos]
  simp [Val.same]

theorem Db.Gives.quiet {d v : Val P} (h : db.Gives cfg key d v) (hq : db'.table = db.table) : db'.Gives cfg key d v := by
  unfold Db.Gives
  rw [look_of_table hq, hq]
  exact h

/-- **Nothing is amiss** where the lists and the counters are what the edges imply. -/
theorem wp_verifyIndex (hc : Coherent cfg db) (hi : Indexed cfg db) :
    Wp (verifyIndex cfg) db (fun r _ => r.Clean) fun _ _ => False := by
  unfold verifyIndex
  rw [wp_bind, wp_get, wp_bind]
  refine wp_mono (wp_iterAdjs (fun id => implied id db.seenEdges) _ _ hc hi.lists) ?_ fun _ _ h => h
  rintro actual db₁ ⟨hq₁, hactual⟩
  rw [wp_bind]
  refine wp_mono (wp_gives hq₁.coherent (.inr rfl) (hi.nodes.quiet hq₁.table)) ?_ fun _ _ h => h
  rintro _ db₂ ⟨rfl, hq₂⟩
  rw [wp_bind]
  refine wp_mono (wp_gives hq₂.coherent (.inr rfl) ((hi.edges.quiet hq₁.table).quiet hq₂.table)) ?_ fun _ _ h => h
  rintro _ db₃ ⟨rfl, hq₃⟩
  rw [wp_bind]
  refine wp_mono (wp_gives hq₃.coherent (.inr rfl)
    (((hi.directed.quiet hq₁.table).quiet hq₂.table).quiet hq₃.table)) ?_ fun _ _ h => h
  rintro _ db₄ ⟨rfl, -⟩
  rw [wp_ret]
  -- both sides of the comparison are what the edges imply
  have hsame : ∀ id x, x ∈ (actual.get? id).getD [] ↔ x ∈ implied id db.seenEdges := by
    intro id x
    rw [hactual]
    by_cases hid : ∃ key ∈ db.table.keys, adjMatch key = some id
    · simp only [hid, true_and, not_true, false_and, or_false]
    · simp only [hid, false_and, not_false_iff, true_and, false_or, hi.absent id hid]
      simp
  refine ⟨surplus_eq_nil fun id x hx => ?_, surplus_eq_nil fun id x hx => ?_, ?_⟩
  · exact (hsame id x).2 ((scan_entries _).1 hx)
  · exact (scan_entries _).2 ((hsame id x).1 hx)
  · rw [scan_edges, scan_directed]
    simp only [List.append_eq_nil_iff]
    exact ⟨⟨counterOff_eq_nil, counterOff_eq_nil⟩, counterOff_eq_nil⟩

end Graph

end OmniJsonDb
