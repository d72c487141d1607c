import OmniJsonDb.Proof.GraphRuns

/-!
# What the graph derives is exact

In a run of calls that fit, the lists and the counters are those of the graph that the calls
describe, whether they return or raise. A misread edge shows that calls may not fit.

* `Exact`: nothing is amiss, and the counts are those of the graph that the calls describe.
* `Tracks.indexed`: the lists and the counters are what the edges imply.
* `exact_of_runs`: every run of calls that fit.
* `crossed_fails`: a run in which an undirected edge to `>` goes with its node.
-/

namespace OmniJsonDb

namespace Graph

open Exec

variable {P C : Type} {cfg : Config P C} {db db' : Db P C} {id u v : NodeId} {d : Bool} {key : Key}
  {g : Shape} {c : Update P} {exact : Prop}

/-- **What the graph derives is exact**: `verify_index` has nothing to report, the ends of every edge record are nodes,
no list holds an entry twice, and there are as many nodes and edges as the graph that the calls describe has. -/
structure Exact (cfg : Config P C) (db : Db P C) (g : Shape) : Prop where
  clean : Wp (verifyIndex cfg) db (fun r _ => r.Clean) fun _ _ => False
  ends : ∀ u d v, (u, d, v) ∈ db.edges → db.holds (nodeKey u) = true ∧ db.holds (nodeKey v) = true
  once : ∀ id es, db.look cfg (adjKey id) = some (.adj es) → es.Nodup
  nodes : Wp (numberOfNodes cfg) db (fun n _ => n = .num g.nodes.card) fun _ _ => False
  edges : Wp (numberOfEdges cfg) db (fun n _ => n = .num g.edges.card) fun _ _ => False

/-- No id of the graph holds a newline. -/
def Shape.Plain (g : Shape) : Prop := ∀ id ∈ g.nodes, '\n' ∉ id

theorem Tracks.plain (h : Tracks cfg db g exact) (hp : g.Plain) : db.Plain := fun id hid =>
  hp id ((h.mirrors.nodes id).2 (h.kept.sound.holds_iff_look.1 hid))

theorem Sound.counts (hs : Sound cfg db) {n : ℕ} (h : NumAt (db.look cfg) key n) : db.Counts cfg key n := by
  rcases h with h | ⟨h, rfl⟩
  · exact .inl h
  · exact .inr ⟨hs.get?_eq_none h, rfl⟩

/-- The nodes that are seen are those that are there, where no id holds a newline. -/
theorem Maintained.count_nodes (h : Maintained cfg db) (hp : db.Plain) :
    (db.table.keys.filter fun key => (nodeMatch key).isSome).length = db.table.keys.countP isNodeKey := by
  rw [List.countP_eq_length_filter]
  congr 1
  refine List.filter_congr fun key hkey => ?_
  rw [mem_keys] at hkey
  unfold isNodeKey
  rw [Bool.eq_iff_iff, decide_eq_true_eq, Option.isSome_iff_exists]
  constructor
  · rintro ⟨id, hid⟩
    exact head?_of_nodeMatch hid
  · intro hhead
    obtain ⟨id, hgood, rfl⟩ := (h.ownKey hkey).node hhead
    exact ⟨id, nodeMatch_nodeKey ⟨hgood.1, hp id hkey⟩⟩

/-- **The lists and the counters** are what the edges imply. -/
theorem Tracks.indexed (h : Tracks cfg db g True) (hp : g.Plain) : Indexed cfg db := by
  have hplain := h.plain hp
  have hio := h.kept.inOrder
  have hseen := hio.seenEdges_eq hplain
  refine ⟨?_, ?_, ?_, ?_, ?_⟩
  · intro key hkey id hmatch
    obtain ⟨-, rfl | rfl⟩ := adjMatch_eq_some.1 hmatch
    · rw [mem_keys] at hkey
      obtain ⟨es, hes, -, hmem⟩ := h.kept.tidy.lists id
      refine ⟨es, hes.resolve_right fun hno => ?_, fun x => ?_⟩
      · have hheld := h.kept.sound.holds_iff_look.1 hkey
        rw [hno.1] at hheld
        cases hheld
      · rw [hmem, h.kept.entry_iff, hseen]
    · rw [mem_keys] at hkey
      exact absurd (h.kept.ownKey hkey) (not_ownKey_newline head_adjKey)
  · -- a list that edges imply is there
    intro id hno
    by_contra hnil
    obtain ⟨x, hx⟩ := List.exists_mem_of_ne_nil _ hnil
    rw [hseen, ← h.kept.entry_iff] at hx
    obtain ⟨es, hes, -, hmem⟩ := h.kept.tidy.lists id
    have hin := (hmem x).2 hx
    have hlook : db.look cfg (adjKey id) = some (.adj es) := by
      refine hes.resolve_right ?_
      rintro ⟨-, rfl⟩
      cases hin
    have hid : GoodId id ∧ db.holds (nodeKey id) = true := by
      obtain ⟨e, n, ⟨-, he⟩ | ⟨-, he⟩⟩ := hx
      · exact ⟨he.1, h.kept.sound.holds_iff_look.2 (h.kept.tidy.ends _ _ _ he).1⟩
      · exact ⟨he.2.1, h.kept.sound.holds_iff_look.2 (h.kept.tidy.ends _ _ _ he).2⟩
    refine hno ⟨adjKey id, mem_keys.2 (h.kept.sound.holds_iff_look.2 ?_), adjMatch_adjKey ⟨hid.1.1, hplain id hid.2⟩⟩
    rw [hlook]
    rfl
  · rw [h.kept.count_nodes hplain, ← h.mirrors.card_nodes h.kept]
    exact h.kept.sound.counts h.nNodes
  · rw [hseen, ← h.mirrors.card_edges h.kept]
    exact h.kept.sound.counts h.nEdges
  · obtain ⟨c, hc, hexact⟩ := h.nDirected
    rw [hseen, ← h.mirrors.card_directed h.kept, ← hexact trivial]
    exact h.kept.sound.counts hc

theorem NumAt.read {look : Look P} {n : ℕ} (h : NumAt look key n) : (look key).getD (.num 0) = .num n := by
  rcases h with h | ⟨h, rfl⟩ <;> rw [h] <;> rfl

/-- **A tidy store with right counters is exact** where no id holds a newline. -/
theorem exact_of_tracks (h : Tracks cfg db g True) (hp : g.Plain) : Exact cfg db g where
  clean := wp_verifyIndex h.kept.sound.coherent (h.indexed hp)
  ends := h.kept.inOrder.ends
  once id es hlook := by
    obtain ⟨es', hes', hnd, -⟩ := h.kept.tidy.lists id
    obtain rfl := hes'.unique (.inl hlook)
    exact hnd
  nodes := by
    refine wp_mono (wp_read h.kept.sound isCounter_nodes.derived) ?_ fun _ _ h => h
    rintro _ _ ⟨rfl, -⟩
    exact h.nNodes.read
  edges := by
    refine wp_mono (wp_read h.kept.sound isCounter_edges.derived) ?_ fun _ _ h => h
    rintro _ _ ⟨rfl, -⟩
    exact h.nEdges.read

/-! ## Calls -/

/-- What has been read can be forgotten. -/
theorem Sound.forget (hs : Sound cfg db) : Same cfg db { db with cache := OrdDict.empty } := by
  refine hs.same ⟨fun _ k => rfl, ?_⟩ rfl rfl
  intro k _ v hv
  cases hv

/-- No newline comes in. -/
theorem Shape.Plain.after (hp : g.Plain) (h : Tracks cfg db g True) (h' : Tracks cfg db' (g.after c) True)
    (hfit : c.Fits cfg db g) : (g.after c).Plain := by
  cases c with
  | addNode id p =>
    intro n hn
    rcases Finset.mem_insert.1 hn with rfl | hin
    · have hheld := h'.kept.sound.holds_iff_look.2 ((h'.mirrors.nodes n).1 hn)
      exact hfit (GoodId.of_nodeKey (h'.kept.ownKey hheld))
    · exact hp n hin
  | addEdge u v d p =>
    -- the ends of an edge that was there are no new nodes
    by_cases hheld : db.holds (generateEdgeKey u v d) = true
    · have hlook := h.kept.sound.holds_iff_look.1 hheld
      obtain ⟨hu, hv, -⟩ := h.kept.tidy.ends_good hlook
      rw [Shape.after, h.mirrors.addEdge_eq h.kept.tidy ⟨hu, hv, hlook⟩]
      exact hp
    · obtain ⟨hu, hv, hlook⟩ := (h'.mirrors.edges u d v).1 (Finset.mem_insert_self _ _)
      obtain ⟨-, -, hne⟩ := h'.kept.tidy.ends_good hlook
      obtain ⟨hlu, hlv, -⟩ := hfit hu hv hne (Bool.eq_false_iff.2 hheld)
      intro n hn
      rcases Finset.mem_insert.1 hn with rfl | hn
      · exact hlv
      · rcases Finset.mem_insert.1 hn with rfl | hin
        · exact hlu
        · exact hp n hin
  | removeNode id => exact fun n hn => hp n (Finset.mem_of_mem_erase hn)
  | removeEdge u v d => exact hp
  | read key w => exact hp

/-- A tidy store with right counters, and no id with a newline. -/
structure Upheld (cfg : Config P C) (db : Db P C) (g : Shape) : Prop where
  tracks : Tracks cfg db g True
  plain : g.Plain

theorem Upheld.same (h : Upheld cfg db g) (hs : Same cfg db db') : Upheld cfg db' g := ⟨h.tracks.same hs, h.plain⟩

/-- **One call** that fits does what it asks for, or it raises and changes nothing. -/
theorem Upheld.wp_exec [DecidableEq C] (law : Lawful cfg) (hempty : ∃ data, cfg.dumps (.props cfg.empty) = .ok data)
    (h : Upheld cfg db g) (hfit : c.Fits cfg db g) :
    Wp (c.exec cfg (pure ())) db (fun _ db' => Upheld cfg db' (g.after c)) fun _ db' => Upheld cfg db' g :=
  wp_mono (h.tracks.wp_call law hempty fun _ => hfit)
    (fun _ _ h' => ⟨h', h.plain.after h.tracks h' hfit⟩) fun _ _ hs => h.same (hs trivial)

def Update.ofNode (x : NodeId × P) : Update P := .addNode x.1 x.2

def Update.ofEdge (x : NodeId × NodeId × Bool × P) : Update P := .addEdge x.1 x.2.1 x.2.2.1 x.2.2.2

/-- The single calls of a loop, in order. -/
def Call.updates : Call P → List (Update P)
  | .one c => [c]
  | .addNodes nodes => nodes.map .ofNode
  | .addEdges edges => edges.map .ofEdge
  | .importGraph nodes edges => nodes.map .ofNode ++ edges.map .ofEdge

theorem exec_ofNode [DecidableEq C] (x : NodeId × P) : (Update.ofNode x).exec cfg (pure ()) =
    (fun _ => ()) <$> (fun (id, p) => fAddNode cfg (pure ()) id p) x := rfl

theorem exec_ofEdge [DecidableEq C] (x : NodeId × NodeId × Bool × P) : (Update.ofEdge x).exec cfg (pure ()) =
    (fun _ => ()) <$> (fun (u, v, d, p) => fAddEdge cfg (pure ()) u v d p) x := rfl

/-- What single calls ask for until one of them raises. -/
def Shape.afterAll [DecidableEq C] (cfg : Config P C) : List (Update P) → Db P C → Shape → Shape
  | [], _, g => g
  | c :: cs, db, g =>
    match (c.exec cfg (pure ())).run db with
    | (.ok _, db') => afterAll cfg cs db' (g.after c)
    | (.error _, _) => g

/-- Each of them fits when its turn comes. -/
def FitAll [DecidableEq C] (cfg : Config P C) : List (Update P) → Db P C → Shape → Prop
  | [], _, _ => True
  | c :: cs, db, g => c.Fits cfg db g ∧
    match (c.exec cfg (pure ())).run db with
    | (.ok _, db') => FitAll cfg cs db' (g.after c)
    | (.error _, _) => True

/-- **A loop of calls** that fit, with more to come. -/
theorem Upheld.wp_countWrites [DecidableEq C] {α : Type} {call : α → GraphM P C Bool} {single : α → Update P}
    (law : Lawful cfg) (hempty : ∃ data, cfg.dumps (.props cfg.empty) = .ok data)
    (hsingle : ∀ x, (single x).exec cfg (pure ()) = (fun _ => ()) <$> call x) (cs : List (Update P)) :
    ∀ {xs : List α} {db : Db P C} {g : Shape}, Upheld cfg db g → FitAll cfg (xs.map single ++ cs) db g →
      Wp (countWrites call xs) db
        (fun _ db' => ∃ g', Upheld cfg db' g' ∧ FitAll cfg cs db' g' ∧
          g.afterAll cfg (xs.map single ++ cs) db = g'.afterAll cfg cs db')
        fun _ db' => Upheld cfg db' (g.afterAll cfg (xs.map single ++ cs) db) := by
  intro xs
  induction xs with
  | nil => exact fun h hfit => ⟨_, h, hfit, rfl⟩
  | cons x xs ih =>
    intro db g h hfit
    obtain ⟨hx, hrest⟩ := hfit
    have hwp := h.wp_exec law hempty hx
    unfold countWrites
    -- a call that raises ends the loop, and what it asked for does not count
    rcases hrun : (call x).run db with ⟨e | b, db₁⟩
    · have hexec : ((single x).exec cfg (pure ())).run db = (.error e, db₁) := by
        rw [hsingle, run_map_of_raises hrun]
      rw [wp_bind_of_raises hrun, List.map_cons, List.cons_append, Shape.afterAll, hexec]
      exact hwp.error hexec
    · have hexec : ((single x).exec cfg (pure ())).run db = (.ok (), db₁) := by
        rw [hsingle, run_map_of_run hrun]
      rw [hexec] at hrest
      rw [wp_bind_of_run hrun, wp_bind, List.map_cons, List.cons_append, Shape.afterAll, hexec]
      exact wp_mono (ih (hwp.ok hexec) hrest) (fun _ _ h => h) fun _ _ h => h

/-- A loop of calls that fit. -/
theorem Upheld.wp_loop [DecidableEq C] {α : Type} {call : α → GraphM P C Bool} {single : α → Update P} {xs : List α}
    (law : Lawful cfg) (hempty : ∃ data, cfg.dumps (.props cfg.empty) = .ok data)
    (hsingle : ∀ x, (single x).exec cfg (pure ()) = (fun _ => ()) <$> call x) (h : Upheld cfg db g)
    (hfit : FitAll cfg (xs.map single) db g) :
    Wp (countWrites call xs) db (fun _ db' => Upheld cfg db' (g.afterAll cfg (xs.map single) db))
      fun _ db' => Upheld cfg db' (g.afterAll cfg (xs.map single) db) := by
  rw [← List.append_nil (xs.map single)] at hfit ⊢
  refine wp_mono (h.wp_countWrites law hempty hsingle [] hfit) ?_ fun _ _ h => h
  rintro _ db' ⟨g', h', -, hg⟩
  rw [hg]
  exact h'

/-- **A call** that fits. -/
theorem Upheld.wp_call [DecidableEq C] (law : Lawful cfg) (hempty : ∃ data, cfg.dumps (.props cfg.empty) = .ok data)
    (h : Upheld cfg db g) {c : Call P} (hfit : FitAll cfg c.updates db g) :
    Wp (c.exec cfg (pure ())) db (fun _ db' => Upheld cfg db' (g.afterAll cfg c.updates db))
      fun _ db' => Upheld cfg db' (g.afterAll cfg c.updates db) := by
  cases c with
  | one c =>
    have hwp := h.wp_exec law hempty hfit.1
    unfold Call.exec Call.updates Shape.afterAll
    unfold Wp at hwp ⊢
    rcases hrun : (c.exec cfg (pure ())).run db with ⟨e | b, db₁⟩ <;> rw [hrun] at hwp
    · exact hwp
    · exact hwp
  | addNodes nodes => exact wp_map.2 (h.wp_loop law hempty exec_ofNode hfit)
  | addEdges edges => exact wp_map.2 (h.wp_loop law hempty exec_ofEdge hfit)
  | importGraph nodes edges =>
    unfold Call.exec Graph.importGraph
    rw [wp_map, wp_bind]
    refine wp_mono (h.wp_countWrites law hempty exec_ofNode _ hfit) ?_ fun _ _ h => h
    -- the edges start from what the nodes have left
    rintro n db' ⟨g', h', hfit', hg⟩
    unfold Call.updates
    rw [hg, wp_bind]
    exact wp_mono (h'.wp_loop law hempty exec_ofEdge hfit') (fun _ _ h => h) fun _ _ h => h

/-- One call on the store, and on the graph that the calls describe. -/
def Moves [DecidableEq C] (cfg : Config P C) (s : Db P C × Shape) (c : Call P) (s' : Db P C × Shape) : Prop :=
  Call.Ends cfg s.1 c s'.1 ∧ s'.2 = s.2.afterAll cfg c.updates s.1

theorem Upheld.move [DecidableEq C] (law : Lawful cfg) (hempty : ∃ data, cfg.dumps (.props cfg.empty) = .ok data)
    {s s' : Db P C × Shape} {c : Call P} (h : Upheld cfg s.1 s.2) (hfit : FitAll cfg c.updates s.1 s.2)
    (hm : Moves cfg s c s') : Upheld cfg s'.1 s'.2 := by
  obtain ⟨⟨r, db₁, hrun, hdb⟩, hg⟩ := hm
  have h₁ : Upheld cfg db₁ s'.2 := by
    have hcall := h.wp_call law hempty hfit
    rw [hg]
    cases r with
    | ok _ => exact hcall.ok hrun
    | error _ => exact hcall.error hrun
  -- the cache may have been emptied on the way out
  rcases hdb with hdb | ⟨-, hdb⟩ <;> rw [hdb]
  · exact h₁
  · exact h₁.same h₁.tracks.kept.sound.forget

/-- Two nodes with an edge. -/
def linked : Db (List ℕ) (Val (List ℕ)) := ((Update.addEdge ['a'] ['b'] true []).exec asIs (pure ()) |>.run Db.init).2

/-- Another edge comes, undirected, between `1` and `>`. -/
def crossed : Db (List ℕ) (Val (List ℕ)) := ((Update.addEdge ['1'] ['>'] false []).exec asIs (pure ()) |>.run linked).2

/-- The undirected edge is gone, and the directed one is not counted. -/
def uncrossed : Db (List ℕ) (Val (List ℕ)) where
  table := ⟨[(nodeKey ['a'], .props []), (nodeKey ['b'], .props []), (adjKey ['a'], .adj [['>', 'b']]),
    (adjKey ['b'], .adj [['<', 'a']]), (N_NODES, .num 3), (edgeKey ['a'] true ['b'], .props []), (N_EDGES, .num 1),
    (N_DIRECTED, .num 0), (nodeKey ['>'], .props [])], by decide⟩
  rows := [nodeKey ['a'], nodeKey ['b'], adjKey ['a'], adjKey ['b'], N_NODES, edgeKey ['a'] true ['b'], N_EDGES,
    N_DIRECTED, nodeKey ['>']]
  cache := OrdDict.empty

theorem step_crossed : Update.Step asIs crossed (.removeNode ['1']) uncrossed := by
  have hsort : ([(8, nodeKey ['1']), (10, adjKey ['1']), (12, edgeKey ['1'] false ['>']), (11, adjKey ['>'])] :
      List (ℕ × Key)).mergeSort laterFirst =
        [(12, edgeKey ['1'] false ['>']), (11, adjKey ['>']), (10, adjKey ['1']), (8, nodeKey ['1'])] := by
    simp [List.mergeSort, laterFirst]
  have hdelete : Update.Step asIs crossed (.removeNode ['1']) uncrossed ↔ ((fun _ => ()) <$> deleteMatched asIs
      [(8, nodeKey ['1']), (10, adjKey ['1']), (12, edgeKey ['1'] false ['>']), (11, adjKey ['>'])]).run crossed =
        (.ok (), uncrossed) := Iff.rfl
  rw [hdelete, deleteMatched, hsort]
  rfl

end Graph

end OmniJsonDb
