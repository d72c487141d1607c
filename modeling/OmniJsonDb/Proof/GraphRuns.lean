import OmniJsonDb.Lib.Machine
import OmniJsonDb.Proof.GraphRemoval
import OmniJsonDb.Proof.GraphWalks

/-!
# Graphs that are built by calls

From an empty store, calls that return leave a graph in order: its lists say what its edges imply,
and its edges go from node to node.

* `Maintained.inOrder`: what the calls keep up is such a graph.
* `Update.Fits`: a call that neither misleads nor breaks off.
* `Tracks.wp_call`: a call does what it asks for.
* `inOrder_of_runs`: every run of calls that return.
-/

namespace OmniJsonDb

namespace Graph

open Exec

variable {P C : Type} {cfg : Config P C} {db db' : Db P C} {id u v : NodeId} {d : Bool} {key : Key} {x : List Char}
  {g : Shape} {exact : Prop} {c : Update P}

/-- **The edges** are those that are stored, an undirected one from one end. -/
theorem Maintained.edged_iff (h : Maintained cfg db) :
    Edged (db.look cfg) u d v ↔ (u, d, v) ∈ db.edges ∨ d = false ∧ (v, d, u) ∈ db.edges := by
  rw [h.mem_edges, h.mem_edges]
  constructor
  · intro he
    rcases place_cases u v d with hp | ⟨rfl, -, hp⟩
    · exact .inl ⟨hp, he⟩
    · exact .inr ⟨rfl, place_comm.trans hp, he.symm⟩
  · rintro (⟨-, he⟩ | ⟨rfl, -, he⟩)
    · exact he
    · exact he.symm

/-- **The entries are those the edges imply.** -/
theorem Maintained.entry_iff (h : Maintained cfg db) : Entry (Edged (db.look cfg)) id x ↔ x ∈ implied id db.edges := by
  cases x with
  | nil =>
    refine iff_of_false ?_ nil_not_mem_implied
    rintro ⟨d, n, ⟨hx, -⟩ | ⟨hx, -⟩⟩ <;> cases hx
  | cons kind n =>
    rw [mem_implied_cons]
    constructor
    · rintro ⟨d, m, ⟨hx, he⟩ | ⟨hx, he⟩⟩ <;> obtain ⟨rfl, rfl⟩ := List.cons.inj hx <;> rw [h.edged_iff] at he
      · cases d with
        | true => exact .inl ⟨rfl, he.resolve_right fun h => by cases h.1⟩
        | false => exact .inr (.inr ⟨rfl, he.imp_right And.right⟩)
      · cases d with
        | true => exact .inr (.inl ⟨rfl, he.resolve_right fun h => by cases h.1⟩)
        | false => exact .inr (.inr ⟨rfl, (he.imp_right And.right).symm⟩)
    · rintro (⟨rfl, he⟩ | ⟨rfl, he⟩ | ⟨rfl, he⟩)
      · exact ⟨true, n, .inl ⟨rfl, h.edged_iff.2 (.inl he)⟩⟩
      · exact ⟨true, n, .inr ⟨rfl, h.edged_iff.2 (.inl he)⟩⟩
      · exact ⟨false, n, .inl ⟨rfl, h.edged_iff.2 (he.imp_right fun he => ⟨rfl, he⟩)⟩⟩

theorem GoodId.of_nodeKey (h : OwnKey (nodeKey id)) : GoodId id := by
  rcases h with ⟨n, hn, hk | hk⟩ | ⟨u, d, v, -, -, -, hk⟩ | hk
  · rwa [nodeKey_inj hk]
  · simp [nodeKey, adjKey] at hk
  · exact absurd hk nodeKey_ne_generateEdgeKey
  · simp [nodeKey] at hk

/-- The keys of the graph end in a colon. -/
theorem not_ownKey_newline (hk : key.head? ≠ some '#') : ¬ OwnKey (key ++ ['\n']) := by
  rintro (⟨n, -, hkey | hkey⟩ | ⟨u, d, v, -, -, -, hkey⟩ | hkey)
  · cases (List.append_inj' hkey rfl).2
  · cases (List.append_inj' hkey rfl).2
  · rw [generateEdgeKey_eq] at hkey
    cases (List.append_inj' hkey rfl).2
  · cases key with
    | nil => cases hkey
    | cons c key => exact hk hkey

/-- **What the calls keep up is a graph in order.** -/
theorem Maintained.inOrder (h : Maintained cfg db) : InOrder cfg db where
  sound := h.sound
  lists id _ := by
    obtain ⟨es, hes, -, hmem⟩ := h.tidy.lists id
    exact ⟨es, hes, fun x => (hmem x).trans h.entry_iff⟩
  ends u d v he := by
    rw [h.sound.holds_iff_look, h.sound.holds_iff_look]
    exact h.tidy.ends u d v (h.edged_iff.2 (.inl he))
  places key hkey u d v he := (h.place (mem_keys.1 hkey) he).2.2.1
  named := by
    rw [Bool.eq_false_iff]
    exact fun hk => (GoodId.of_nodeKey (h.ownKey hk)).1 rfl
  closed id := by
    rw [Bool.eq_false_iff]
    exact fun hk => not_ownKey_newline head_nodeKey (h.ownKey hk)

/-! ## Runs -/

/-- The empty store shows the empty graph. -/
theorem tracks_init : Tracks cfg (Db.init : Db P C) Shape.empty exact where
  kept := by
    refine ⟨⟨⟨fun _ k => rfl, ?_⟩, ?_, ?_⟩, tidy_none⟩
    · intro k _ v hv
      cases hv
    · intro k data hdata
      cases hdata
    · intro k hk
      cases hk
  mirrors := mirrors_none
  nNodes := .inr ⟨rfl, rfl⟩
  nEdges := .inr ⟨rfl, rfl⟩
  nDirected := ⟨0, .inr ⟨rfl, rfl⟩, fun _ => rfl⟩

/-- The graph that a call asks for. -/
def Shape.after (g : Shape) : Update P → Shape
  | .addNode id _ => g.addNode id
  | .addEdge u v d _ => g.addEdge u v d
  | .removeNode id => g.removeNode id
  | .removeEdge u v d => g.removeEdge u v d
  | .read _ _ => g

/-- **The condition on a call.** A node or an edge that it accepts has no newline in its ids, a new edge is admitted,
and no edge of a node that goes is misread. -/
def Update.Fits (cfg : Config P C) (db : Db P C) (g : Shape) : Update P → Prop
  | .addNode id _ => GoodId id → '\n' ∉ id
  | .addEdge u v d p => GoodId u → GoodId v → u ≠ v → db.holds (generateEdgeKey u v d) = false →
    '\n' ∉ u ∧ '\n' ∉ v ∧ db.Admits cfg u d v p
  | .removeNode id => g.Told id
  | .removeEdge _ _ _ => True
  | .read _ _ => True

/-- **A call does what it asks for.** Where it fits it changes nothing when it raises. -/
theorem Tracks.wp_call [DecidableEq C] (law : Lawful cfg) (hempty : ∃ data, cfg.dumps (.props cfg.empty) = .ok data)
    (h : Tracks cfg db g exact) (hfit : exact → c.Fits cfg db g) :
    Wp (c.exec cfg (pure ())) db (fun _ db' => Tracks cfg db' (g.after c) exact)
      fun _ db' => exact → Same cfg db db' := by
  cases c with
  | addNode id p => exact wp_map.2 (wp_mono (wp_fAddNode law h p) (fun _ _ h => h) fun _ _ h _ => h)
  | addEdge u v d p =>
    refine wp_map.2 (wp_mono (wp_fAddEdge law hempty h p) (fun _ _ h => h) ?_)
    rintro _ _ (hs | ⟨hu, hv, hne, hno, hadmits⟩) hx
    · exact hs
    · exact absurd (hfit hx hu hv hne hno).2.2 hadmits
  | removeNode id => exact wp_map.2 (wp_mono (wp_fRemoveNode law h hfit) (fun _ _ h => h) fun _ _ h => h.elim)
  | removeEdge u v d => exact wp_map.2 (wp_mono (wp_fRemoveEdge law h) (fun _ _ h => h) fun _ _ h => h.elim)
  | read key w =>
    refine wp_map.2 ?_
    by_cases hd : Derived key
    · exact wp_mono (wp_read h.kept.sound hd) (fun _ _ hr => h.same hr.2) fun _ _ hr => hr.elim
    · exact wp_mono (wp_readAny h.kept.sound hd) (fun _ _ hr => h.same hr) fun _ _ hr => hr.elim

/-- **Every run of calls that return leaves a graph in order.** -/
theorem inOrder_of_runs [DecidableEq C] (law : Lawful cfg) (hempty : ∃ data, cfg.dumps (.props cfg.empty) = .ok data)
    {tr : List (Update P)} (hr : Runs (Update.Step cfg) Db.init tr db) : InOrder cfg db := by
  have hinv := hr.invariant (P := fun db => ∃ g, Tracks cfg db g False) ⟨_, tracks_init⟩ fun db c db' => ?_
  · obtain ⟨g, h⟩ := hinv
    exact h.kept.inOrder
  · rintro ⟨g, h⟩ hs
    exact ⟨_, (h.wp_call law hempty False.elim).ok hs⟩

/-- The lists of two nodes when the edge between them has come and gone. -/
example : ((do
    (Update.addEdge ['a'] ['b'] true []).exec asIs (pure ())
    (Update.removeEdge ['a'] ['b'] true).exec asIs (pure ())).run Db.init).2.table.entries.filter
      (fun record => record.1.head? = some 'X') = [(adjKey ['a'], .adj []), (adjKey ['b'], .adj [])] := by decide

end Graph

end OmniJsonDb
