import Mathlib.Data.List.TakeWhile
import OmniJsonDb.Lib.DepthFirst
import OmniJsonDb.Model.Cycles
import OmniJsonDb.Proof.GraphWalks

/-!
# Cycles and orders of a graph in order

`is_cyclic` and `find_cycle` follow one rule, and find a cycle wherever there is one. `topological_sort`
marks a node when it is entered, and raises only where an edge closes the path that its node was come
to by; a cycle that is closed by the undirected edge it was entered by is missed.

* `Db.Follows`, `Db.moves`: the edges that can be walked, and the order in which they are.
* `seekRoots_spec`, `isCyclic_spec`, `findCycle_spec`: the search for a cycle.
* `sortRoots_spec`, `topologicalSort_spec`: the search for an order.
* `cyclesAgree_iff`: the three agree iff there is no cycle or some edge closes its path.
-/

namespace OmniJsonDb

namespace Graph

open Exec DepthFirst

variable {P C R : Type} {cfg : Config P C} {db db' db₀ : Db P C} {id u v : NodeId} {d : Bool} {key : Key}

/-! ## Edges and records -/

/-- An edge can be walked so: a directed one forward, an undirected one either way. -/
def Db.Follows (db : Db P C) (e : Walked) : Prop :=
  if e.2.1 then e ∈ db.seenEdges else e ∈ db.seenEdges ∨ (e.2.2, false, e.1) ∈ db.seenEdges

/-- The key of the record behind an edge. -/
def recordKey (u : NodeId) (d : Bool) (v : NodeId) : Key := generateEdgeKey u v d

/-- The record behind an edge that can be walked is of that edge, one way or the other. -/
theorem Consistent.edgeMatch_recordKey (h : Consistent cfg db) {e : Walked} (he : db.Follows e) :
    edgeMatch (recordKey e.1 e.2.1 e.2.2) = some e ∨
      e.2.1 = false ∧ edgeMatch (recordKey e.1 e.2.1 e.2.2) = some (e.2.2, false, e.1) := by
  obtain ⟨u, d, v⟩ := e
  have hseen : ∀ u d v, (u, d, v) ∈ db.seenEdges → edgeMatch (generateEdgeKey u v d) = some (u, d, v) := by
    intro u d v hin
    obtain ⟨key, hkey, hmatch⟩ := List.mem_filterMap.1 hin
    rw [← h.places key hkey u d v hmatch]
    exact hmatch
  cases d with
  | true => exact .inl (hseen u true v he)
  | false =>
    rcases he with he | he
    · exact .inl (hseen u false v he)
    · refine .inr ⟨rfl, ?_⟩
      unfold recordKey
      rw [generateEdgeKey_comm]
      exact hseen v false u he

/-- Edges with one record are the same, or one undirected edge walked either way. -/
theorem Consistent.records (h : Consistent cfg db) : DepthFirst.Records recordKey db.Follows := by
  rintro ⟨u, d, v⟩ ⟨u', d', v'⟩ he hf hkey
  change recordKey u d v = recordKey u' d' v' at hkey
  have hm := h.edgeMatch_recordKey he
  have hm' := h.edgeMatch_recordKey hf
  change edgeMatch (recordKey u d v) = _ ∨ d = false ∧ edgeMatch (recordKey u d v) = _ at hm
  change edgeMatch (recordKey u' d' v') = _ ∨ d' = false ∧ edgeMatch (recordKey u' d' v') = _ at hm'
  rw [← hkey] at hm'
  rcases hm with hm | ⟨rfl, hm⟩ <;> rcases hm' with hm' | ⟨rfl, hm'⟩ <;> rw [hm] at hm' <;> cases hm'
  · exact ⟨rfl, .inl ⟨rfl, rfl⟩⟩
  · exact ⟨rfl, .inr ⟨rfl, rfl, rfl⟩⟩
  · exact ⟨rfl, .inr ⟨rfl, rfl, rfl⟩⟩
  · exact ⟨rfl, .inl ⟨rfl, rfl⟩⟩

/-! ## Moves -/

/-- The moves that a list of entries stands for. -/
def movesOf : List (List Char) → List (Bool × NodeId)
  | [] => []
  | [] :: entries => movesOf entries
  | (kind :: v) :: entries => if kind = '<' then movesOf entries else (decide (kind = '>'), v) :: movesOf entries

theorem mem_movesOf {es : List (List Char)} : (d, v) ∈ movesOf es ↔ ∃ kind, kind ≠ '<' ∧ d = decide (kind = '>') ∧
    kind :: v ∈ es := by
  induction es with
  | nil => simp [movesOf]
  | cons e es ih =>
    cases e with
    | nil => simp [movesOf, ih]
    | cons k w =>
      unfold movesOf
      by_cases hk : k = '<'
      · rw [if_pos hk, ih]
        constructor
        · rintro ⟨kind, hne, hd, hin⟩
          exact ⟨kind, hne, hd, List.mem_cons_of_mem _ hin⟩
        · rintro ⟨kind, hne, hd, hin⟩
          refine ⟨kind, hne, hd, (List.mem_cons.1 hin).resolve_left ?_⟩
          intro heq
          exact hne ((List.cons.inj heq).1.trans hk)
      · rw [if_neg hk, List.mem_cons, ih]
        constructor
        · rintro (heq | ⟨kind, hne, hd, hin⟩)
          · obtain ⟨rfl, rfl⟩ := Prod.mk.inj heq
            exact ⟨k, hk, rfl, List.mem_cons_self⟩
          · exact ⟨kind, hne, hd, List.mem_cons_of_mem _ hin⟩
        · rintro ⟨kind, hne, rfl, hin⟩
          rcases List.mem_cons.1 hin with heq | hin
          · obtain ⟨rfl, rfl⟩ := List.cons.inj heq
            exact .inl rfl
          · exact .inr ⟨kind, hne, rfl, hin⟩

/-- The list of a node. -/
def Db.listOf (cfg : Config P C) (db : Db P C) (id : NodeId) : List (List Char) :=
  match db.look cfg (adjKey id) with
  | some (.adj es) => es
  | _ => []

/-- The moves from a node, in the order of its list. -/
def Db.moves (cfg : Config P C) (db : Db P C) (id : NodeId) : List (Bool × NodeId) :=
  if id ∈ db.nodeIds then movesOf (db.listOf cfg id) else []

theorem Consistent.listAt (h : Consistent cfg db) (hid : id ∈ db.nodeIds) : ListAt (db.look cfg) id (db.listOf cfg id) ∧
    ∀ x, x ∈ db.listOf cfg id ↔ x ∈ implied id db.seenEdges := by
  obtain ⟨es, hl, hes⟩ := h.lists id hid
  have hlist : db.listOf cfg id = es := by
    unfold Db.listOf
    rcases hl with hl | ⟨hl, rfl⟩ <;> rw [hl]
  rw [hlist]
  exact ⟨hl, hes⟩

/-- **The moves are the edges that can be walked.** -/
theorem Consistent.mem_moves (h : Consistent cfg db) (u : NodeId) (d : Bool) (v : NodeId) :
    (d, v) ∈ db.moves cfg u ↔ db.Follows (u, d, v) := by
  have hnode : db.Follows (u, d, v) → u ∈ db.nodeIds := by
    intro hf
    cases d with
    | true => exact (h.ends u true v hf).1
    | false =>
      rcases hf with hf | hf
      · exact (h.ends u false v hf).1
      · exact (h.ends v false u hf).2
  unfold Db.moves
  by_cases hu : u ∈ db.nodeIds
  · rw [if_pos hu, mem_movesOf]
    simp only [(h.listAt hu).2, mem_implied_cons]
    constructor
    · rintro ⟨kind, hne, rfl, ⟨rfl, hin⟩ | ⟨rfl, -⟩ | ⟨rfl, hin⟩⟩
      · exact hin
      · exact absurd rfl hne
      · exact hin
    · intro hf
      cases d with
      | true => exact ⟨'>', by decide, rfl, .inl ⟨rfl, hf⟩⟩
      | false => exact ⟨'-', by decide, rfl, .inr (.inr ⟨rfl, hf⟩)⟩
  · rw [if_neg hu]
    exact ⟨fun hin => absurd hin List.not_mem_nil, fun hf => absurd (hnode hf) hu⟩

theorem Consistent.mem_of_follows (h : Consistent cfg db) (hf : db.Follows (u, d, v)) : u ∈ db.nodeIds ∧ v ∈ db.nodeIds := by
  cases d with
  | true => exact h.ends u true v hf
  | false =>
    rcases hf with hf | hf
    · exact h.ends u false v hf
    · exact (h.ends v false u hf).symm

/-- The list of a node is read. -/
theorem Consistent.wp_listOf (h : Consistent cfg db) (hid : id ∈ db.nodeIds) (hs : Same cfg db db₀) :
    Wp (fGetAdj cfg id) db₀ (fun es db' => es = db.listOf cfg id ∧ Same cfg db db') fun _ _ => False := by
  have hl := (h.listAt hid).1
  rw [← hs.look] at hl
  refine wp_mono (wp_listAt hs.sound hl) ?_ fun _ _ h => h
  rintro es db' ⟨rfl, hs'⟩
  exact ⟨rfl, hs.trans hs'⟩

theorem Consistent.nil_not_mem_listOf (h : Consistent cfg db) (hid : id ∈ db.nodeIds) : [] ∉ db.listOf cfg id := by
  intro hnil
  exact nil_not_mem_implied (((h.listAt hid).2 []).1 hnil)

/-! ## The search for a cycle -/

section Seek

variable {parent : Option Key} {path : Path} {stack : List NodeId}

/-- The edges of a path. -/
def edgesOf (path : Path) : List Walked := path.map fun item => item.2.2

/-- The path by which the search has come to `x`; the stack holds its nodes. -/
structure Comes (db : Db P C) (path : Path) (x : NodeId) (parent : Option Key) (stack : List NodeId) : Prop where
  walk : ∃ r, Walk db.Follows r (edgesOf path) x
  nodup : (sources (edgesOf path) ++ [x]).Nodup
  nodes : path.map Prod.fst = sources (edgesOf path)
  stack : ∀ a, a ∈ stack ↔ a ∈ sources (edgesOf path) ++ [x]
  arrived : parent = lastRecord recordKey (edgesOf path)

theorem Comes.root : Comes db [] id none [id] where
  walk := ⟨id, .nil id⟩
  nodup := List.nodup_singleton _
  nodes := rfl
  stack _ := Iff.rfl
  arrived := rfl

/-- The search goes on. -/
theorem Comes.step (h : Comes db path id parent stack) (hf : db.Follows (id, d, v)) (hv : v ∉ stack) :
    Comes db (path ++ [(id, recordKey id d v, (id, d, v))]) v (some (recordKey id d v)) (v :: stack) := by
  have hedges : edgesOf (path ++ [(id, recordKey id d v, (id, d, v))]) = edgesOf path ++ [(id, d, v)] := List.map_append
  have hsources : sources (edgesOf path ++ [(id, d, v)]) = sources (edgesOf path) ++ [id] := List.map_append
  refine ⟨?_, ?_, ?_, ?_, ?_⟩
  · obtain ⟨r, hw⟩ := h.walk
    rw [hedges]
    exact ⟨r, hw.snoc hf⟩
  · rw [hedges, hsources, List.nodup_append]
    refine ⟨h.nodup, List.nodup_singleton _, ?_⟩
    rintro a ha b hb rfl
    rw [List.mem_singleton] at hb
    exact hv ((h.stack v).2 (hb ▸ ha))
  · rw [hedges, hsources, List.map_append, h.nodes]
    rfl
  · intro a
    rw [hedges, hsources, List.mem_cons, h.stack a, List.mem_append (t := [v]), List.mem_singleton, or_comm]
  · rw [hedges, lastRecord_concat]

/-- **An edge back to the stack** closes a cycle, unless it is the one the node was come to by. -/
theorem Comes.closing (hc : Consistent cfg db) (h : Comes db path id parent stack) (hf : db.Follows (id, d, v))
    (hv : v ∈ stack) (hne : some (recordKey id d v) ≠ parent) : IsCycle recordKey db.Follows (closing path (id, d, v)) := by
  obtain ⟨r, hw⟩ := h.walk
  have hsplit : edgesOf path = edgesOf (path.takeWhile fun item => item.1 ≠ v) ++
      edgesOf (path.dropWhile fun item => item.1 ≠ v) := by
    unfold edgesOf
    rw [← List.map_append, List.takeWhile_append_dropWhile]
  have hn := h.nodup
  rw [hsplit] at hw hn
  obtain ⟨m, -, hpost⟩ := hw.split
  have hnpost : (sources (edgesOf (path.dropWhile fun item => item.1 ≠ v)) ++ [id]).Nodup := by
    unfold sources at hn ⊢
    rw [List.map_append, List.append_assoc, List.nodup_append] at hn
    exact hn.2.1
  unfold Graph.closing
  change IsCycle _ _ (edgesOf (path.dropWhile fun item => item.1 ≠ v) ++ [(id, d, v)])
  cases hdrop : path.dropWhile fun item => item.1 ≠ v with
  | nil =>
    -- no node of the path, so it is where the search is
    have hid : v = id := by
      have hmem := (h.stack v).1 hv
      rw [← h.nodes, List.mem_append, List.mem_singleton] at hmem
      refine hmem.resolve_left ?_
      intro hin
      obtain ⟨item, hitem, rfl⟩ := List.mem_map.1 hin
      have hall := List.dropWhile_eq_nil_iff.1 hdrop item hitem
      simp at hall
    subst hid
    exact closes hc.records (.nil v) (List.nodup_singleton _) hf (by simp [edgesOf])
  | cons item rest =>
    have hitem : item.1 = v := by
      have hhead := List.head?_dropWhile_not (fun item : NodeId × Key × Walked => decide (item.1 ≠ v)) path
      rw [hdrop, List.head?_cons] at hhead
      simpa using hhead
    rw [hdrop] at hpost hnpost
    have hm : v = m := by
      have hstart := hpost.start
      have hnodes : item.2.2.1 = item.1 := by
        have hall : ∀ it ∈ path, it.2.2.1 = it.1 := by
          have hmap : path.map Prod.fst = path.map fun it => it.2.2.1 := by
            rw [h.nodes]
            unfold sources edgesOf
            rw [List.map_map]
            rfl
          intro it hit
          exact (List.map_inj_left.1 hmap it hit).symm
        have hin : item ∈ path := by
          refine (List.dropWhile_sublist fun it : NodeId × Key × Walked => decide (it.1 ≠ v)).subset ?_
          rw [hdrop]
          exact List.mem_cons_self
        exact hall item hin
      rw [← hitem, ← hnodes, hstart]
    subst hm
    refine closes hc.records hpost hnpost hf ?_
    rw [h.arrived] at hne
    have hlast : lastRecord recordKey (edgesOf path) = ((edgesOf (item :: rest)).getLast?).map (record recordKey) := by
      unfold lastRecord
      rw [hsplit, hdrop, List.getLast?_append_of_ne_nil _ (by simp [edgesOf])]
    rw [← hlast]
    exact fun he => hne he.symm

variable {good : R → Prop} {found : Path → Walked → R}

/-- What the loop over a list may come to: too deep, a cycle, or nothing. -/
def EachSpec (cfg : Config P C) (db : Db P C) (good : R → Prop) (id : NodeId) (parent : Option Key)
    (todo : List (Bool × NodeId)) (full : Bool) (m : Marks) : Option (Option R × Bool × Marks) → Prop
  | none => True
  | some (some r, _) => good r
  | some (none, full', m') => m'.stack = m.stack ∧
    Scans (db.moves cfg) recordKey id parent m.stack todo full m.visited full' m'.visited

/-- What the search from a node may come to. -/
def NodeSpec (cfg : Config P C) (db : Db P C) (good : R → Prop) (id : NodeId) (parent : Option Key) (m : Marks) :
    Option (Option R × Marks) → Prop
  | none => True
  | some (some r, _) => good r
  | some (none, m') => ∃ full vis, Scans (db.moves cfg) recordKey id parent (id :: m.stack) (db.moves cfg id) true
    m.visited full vis ∧ m' = ⟨if full then vis.insert id else vis, m.stack⟩

/-- **The loop over a list.** -/
theorem seekEach_spec (hc : Consistent cfg db) (hgood : ∀ path e, IsCycle recordKey db.Follows (closing path e) → good (found path e))
    {dfs : NodeId → Key → Path → Marks → GraphM P C (Option (Option R × Marks))}
    (hdfs : ∀ d v m db₀, db.Follows (id, d, v) → v ∉ m.stack → Same cfg db db₀ →
      Comes db (path ++ [(id, recordKey id d v, (id, d, v))]) v (some (recordKey id d v)) (v :: m.stack) →
      Wp (dfs v (recordKey id d v) (path ++ [(id, recordKey id d v, (id, d, v))]) m) db₀
        (fun r db' => Same cfg db db' ∧ NodeSpec cfg db good v (some (recordKey id d v)) m r) fun _ _ => False)
    (entries : List (List Char)) (hnil : [] ∉ entries) (hin : ∀ m ∈ movesOf entries, db.Follows (id, m.1, m.2))
    (full : Bool) (m : Marks) (hcomes : Comes db path id parent m.stack) (db₀ : Db P C) (hs : Same cfg db db₀) :
    Wp (seekEach found dfs id parent path entries full m) db₀
      (fun r db' => Same cfg db db' ∧ EachSpec cfg db good id parent (movesOf entries) full m r) fun _ _ => False := by
  induction entries generalizing full m db₀ with
  | nil =>
    unfold seekEach
    rw [wp_ret]
    exact ⟨hs, rfl, .done⟩
  | cons e entries ih =>
    rw [List.mem_cons, not_or] at hnil
    cases e with
    | nil => exact absurd rfl hnil.1
    | cons kind w =>
      unfold seekEach movesOf
      unfold movesOf at hin
      by_cases hk : kind = '<'
      · rw [if_pos hk] at hin
        rw [if_pos hk, if_pos hk]
        exact ih hnil.2 hin full m hcomes db₀ hs
      rw [if_neg hk] at hin
      rw [if_neg hk, if_neg hk]
      have hf : db.Follows (id, decide (kind = '>'), w) := hin _ List.mem_cons_self
      have hin' : ∀ m ∈ movesOf entries, db.Follows (id, m.1, m.2) := fun m hm => hin m (List.mem_cons_of_mem _ hm)
      change Wp (if some (recordKey id (decide (kind = '>')) w) = parent then _ else _) db₀ _ _
      by_cases hp : some (recordKey id (decide (kind = '>')) w) = parent
      · rw [if_pos hp]
        refine wp_mono (ih hnil.2 hin' false m hcomes db₀ hs) ?_ fun _ _ h => h
        rintro (_ | ⟨_ | r, full', m'⟩) db' ⟨hs', hspec⟩
        · exact ⟨hs', trivial⟩
        · exact ⟨hs', hspec.1, .skip hp hspec.2⟩
        · exact ⟨hs', hspec⟩
      rw [if_neg hp]
      by_cases hstack : w ∈ m.stack
      · rw [if_pos hstack, wp_ret]
        exact ⟨hs, hgood _ _ (hcomes.closing hc hf hstack hp)⟩
      rw [if_neg hstack]
      by_cases hvis : w ∈ m.visited
      · rw [if_neg (not_not_intro hvis)]
        refine wp_mono (ih hnil.2 hin' full m hcomes db₀ hs) ?_ fun _ _ h => h
        rintro (_ | ⟨_ | r, full', m'⟩) db' ⟨hs', hspec⟩
        · exact ⟨hs', trivial⟩
        · exact ⟨hs', hspec.1, .seen hp hstack hvis hspec.2⟩
        · exact ⟨hs', hspec⟩
      rw [if_pos hvis, wp_bind]
      refine wp_mono (hdfs _ w m db₀ hf hstack hs (hcomes.step hf hstack)) ?_ fun _ _ h => h
      rintro (_ | ⟨_ | r, m₁⟩) db₁ ⟨hs₁, hspec₁⟩
      · exact ⟨hs₁, trivial⟩
      · obtain ⟨full₁, vis₁, hscan, rfl⟩ := hspec₁
        refine wp_mono (ih hnil.2 hin' full ⟨if full₁ then vis₁.insert w else vis₁, m.stack⟩ hcomes db₁ hs₁) ?_ fun _ _ h => h
        rintro (_ | ⟨_ | r, full', m'⟩) db' ⟨hs', hspec⟩
        · exact ⟨hs', trivial⟩
        · exact ⟨hs', hspec.1, .deep hp hstack hvis hscan hspec.2⟩
        · exact ⟨hs', hspec⟩
      · exact ⟨hs₁, hspec₁⟩

/-- **The search from a node.** -/
theorem seek_spec (hc : Consistent cfg db) (hgood : ∀ path e, IsCycle recordKey db.Follows (closing path e) → good (found path e))
    (n : ℕ) (hid : id ∈ db.nodeIds) (m : Marks) (hnot : id ∉ m.stack) (hcomes : Comes db path id parent (id :: m.stack))
    (hs : Same cfg db db₀) : Wp (seek cfg found n id parent path m) db₀
      (fun r db' => Same cfg db db' ∧ NodeSpec cfg db good id parent m r) fun _ _ => False := by
  induction n generalizing id parent path m db₀ with
  | zero => exact ⟨hs, trivial⟩
  | succ n ih =>
    have hmoves : db.moves cfg id = movesOf (db.listOf cfg id) := if_pos hid
    unfold seek
    rw [List.insert_of_not_mem hnot, wp_bind]
    refine wp_mono (hc.wp_listOf hid hs) ?_ fun _ _ h => h
    rintro _ db₁ ⟨rfl, hs₁⟩
    rw [wp_bind]
    refine wp_mono (@seekEach_spec _ _ _ cfg db id parent path good found hc hgood _ ?_ (db.listOf cfg id)
      (hc.nil_not_mem_listOf hid) ?_ true ⟨m.visited, id :: m.stack⟩ hcomes db₁ hs₁) ?_ fun _ _ h => h
    · intro d v m' db₂ hf hv hs₂ hcomes'
      exact ih (hc.mem_of_follows hf).2 m' hv hcomes' hs₂
    · intro mv hmv
      rw [← hmoves] at hmv
      exact (hc.mem_moves id mv.1 mv.2).1 hmv
    · rintro (_ | ⟨_ | r, full, m'⟩) db' ⟨hs', hspec⟩
      · exact ⟨hs', trivial⟩
      · refine ⟨hs', full, m'.visited, ?_, ?_⟩
        · rw [hmoves]
          exact hspec.2
        · rw [hspec.1]
          change (⟨_, (id :: m.stack).erase id⟩ : Marks) = _
          rw [List.erase_cons_head]
      · exact ⟨hs', hspec⟩

end Seek

/-! ## `is_cyclic` and `find_cycle` -/

/-- **A cycle of the graph**: consecutive edges that can be walked, closed, over different nodes and
different records. -/
abbrev Db.IsCycle (db : Db P C) (c : List Walked) : Prop := DepthFirst.IsCycle recordKey db.Follows c

/-- A cycle goes through nodes. -/
theorem Consistent.not_cycle (h : Consistent cfg db) (hall : ∀ v ∈ db.nodeIds, Clear recordKey db.Follows v) :
    ¬ ∃ c, db.IsCycle c := by
  rintro ⟨c, hc⟩
  obtain ⟨u, hw⟩ := hc.walk
  cases c with
  | nil => exact hc.ne_nil rfl
  | cons e c =>
    have he : db.Follows e := hw.edges e List.mem_cons_self
    exact hall e.1 (h.mem_of_follows he).1 _ hc List.mem_cons_self

section Roots

variable {good : R → Prop} {found : Path → Walked → R} {reset : Marks → Marks}

/-- **The search from all nodes** finds something good, or there is no cycle. -/
theorem seekRoots_spec (hc : Consistent cfg db)
    (hgood : ∀ path e, IsCycle recordKey db.Follows (closing path e) → good (found path e))
    (hreset : ∀ m, (reset m).visited = m.visited ∧ (m.stack = [] → (reset m).stack = []))
    (ids : List NodeId) (hids : ∀ id ∈ ids, id ∈ db.nodeIds) (m : Marks) (hstack : m.stack = [])
    (hclear : ∀ v ∈ m.visited, Clear recordKey db.Follows v) (hs : Same cfg db db₀) :
    Wp (seekRoots cfg found reset ids m) db₀ (fun r db' => Same cfg db db' ∧ match r with
      | none => True
      | some (some r) => good r
      | some none => ∀ v ∈ ids, Clear recordKey db.Follows v) fun _ _ => False := by
  induction ids generalizing m db₀ with
  | nil =>
    unfold seekRoots
    rw [wp_ret]
    exact ⟨hs, fun v hv => absurd hv List.not_mem_nil⟩
  | cons id ids ih =>
    have hids' : ∀ v ∈ ids, v ∈ db.nodeIds := fun v hv => hids v (List.mem_cons_of_mem _ hv)
    unfold seekRoots
    by_cases hvis : id ∈ m.visited
    · rw [if_pos hvis]
      refine wp_mono (ih hids' m hstack hclear hs) ?_ fun _ _ h => h
      rintro (_ | _ | r) db' ⟨hs', h⟩
      · exact ⟨hs', trivial⟩
      · refine ⟨hs', ?_⟩
        intro v hv
        rcases List.mem_cons.1 hv with rfl | hv
        · exact hclear v hvis
        · exact h v hv
      · exact ⟨hs', h⟩
    rw [if_neg hvis, wp_bind]
    obtain ⟨hrv, hrs⟩ := hreset m
    have hempty := hrs hstack
    refine wp_mono (seek_spec hc hgood MAX_RECURSION (hids id List.mem_cons_self) (reset m)
      (by rw [hempty]; exact List.not_mem_nil) (by rw [hempty]; exact Comes.root) hs) ?_ fun _ _ h => h
    rintro (_ | ⟨_ | r, m₁⟩) db₁ ⟨hs₁, hspec⟩
    · exact ⟨hs₁, trivial⟩
    · obtain ⟨full, vis, hscan, rfl⟩ := hspec
      rw [hrv] at hscan
      obtain ⟨hclear₁, hlost⟩ := hscan.clear hc.mem_moves hclear
      -- no edge was passed over, as the search came by none
      have hfull : full = true := by
        cases hf : full with
        | true => rfl
        | false =>
          rw [hf] at hscan
          exact absurd hscan.full_of_root (by decide)
      have hid : Clear recordKey db.Follows id := by
        rw [hempty] at hlost
        exact clear_of_lost hc.mem_moves (fun _ _ h => by cases h) hlost
      rw [hfull, if_pos rfl]
      refine wp_mono (ih hids' ⟨vis.insert id, (reset m).stack⟩ hempty ?_ hs₁) ?_ fun _ _ h => h
      · intro v hv
        rcases List.mem_insert_iff.1 hv with rfl | hv
        · exact hid
        · exact hclear₁ v hv
      · rintro (_ | _ | r) db' ⟨hs', h⟩
        · exact ⟨hs', trivial⟩
        · refine ⟨hs', ?_⟩
          intro v hv
          rcases List.mem_cons.1 hv with rfl | hv
          · exact hid
          · exact h v hv
        · exact ⟨hs', h⟩
    · exact ⟨hs₁, hspec⟩

end Roots

/-- **`is_cyclic`** is exact, unless it gets too deep. -/
theorem isCyclic_spec (hc : Consistent cfg db) : Wp (isCyclic cfg) db
    (fun r db' => Same cfg db db' ∧ ∀ b, r = some b → (b = true ↔ ∃ c, db.IsCycle c)) fun _ _ => False := by
  unfold isCyclic
  rw [wp_bind, wp_get, wp_bind]
  refine wp_mono (@seekRoots_spec _ _ _ cfg db db (fun _ => ∃ c, db.IsCycle c) (fun _ _ => ()) id hc
    (fun path e h => ⟨_, h⟩) (fun _ => ⟨rfl, fun h => h⟩) db.nodeIds (fun _ h => h) ⟨[], []⟩ rfl
    (fun v hv => absurd hv List.not_mem_nil) (Same.refl hc.sound)) ?_ fun _ _ h => h
  rintro r db' ⟨hs, h⟩
  rw [wp_ret]
  refine ⟨hs, ?_⟩
  intro b hb
  rcases r with _ | _ | r <;> cases hb
  · exact iff_of_false Bool.false_ne_true (hc.not_cycle h)
  · exact iff_of_true rfl h

/-- **`find_cycle`** returns a cycle, or raises and there is none, unless it gets too deep. -/
theorem findCycle_spec (hc : Consistent cfg db) : Wp (findCycle cfg none) db
    (fun r db' => Same cfg db db' ∧ ∀ c, r = some c → db.IsCycle c)
    fun e db' => Same cfg db db' ∧ e = .value ∧ ¬ ∃ c, db.IsCycle c := by
  unfold findCycle
  rw [wp_bind, wp_get, wp_bind, wp_ret, wp_bind]
  refine wp_mono (@seekRoots_spec _ _ _ cfg db db db.IsCycle closing (fun m => { m with stack := [] }) hc
    (fun path e h => h) (fun _ => ⟨rfl, fun _ => rfl⟩) db.nodeIds (fun _ h => h) ⟨[], []⟩ rfl
    (fun v hv => absurd hv List.not_mem_nil) (Same.refl hc.sound)) ?_ fun _ _ h => h.elim
  rintro (_ | _ | r) db' ⟨hs, h⟩
  · exact ⟨hs, fun c hc => by cases hc⟩
  · exact ⟨hs, rfl, hc.not_cycle h⟩
  · refine ⟨hs, ?_⟩
    rintro c ⟨⟩
    exact h

/-! ## `topological_sort` -/

section Order

variable {parent : Option Key} {r : NodeId} {es : List Walked} {before : List (Bool × NodeId)}

/-- The entries a list in order holds. -/
theorem Consistent.kind_of_mem (h : Consistent cfg db) (hid : id ∈ db.nodeIds) {kind : Char}
    (hin : kind :: v ∈ db.listOf cfg id) : kind = '>' ∨ kind = '<' ∨ kind = '-' := by
  rcases mem_implied_cons.1 (((h.listAt hid).2 _).1 hin) with ⟨hk, -⟩ | ⟨hk, -⟩ | ⟨hk, -⟩
  · exact .inl hk
  · exact .inr (.inl hk)
  · exact .inr (.inr hk)

/-- **An edge of the graph closes** the path its node is come to by. -/
abbrev Db.Closes (cfg : Config P C) (db : Db P C) : Prop := Closing (db.moves cfg) recordKey db.Follows db.nodeIds

/-- Where the search is. -/
abbrev Db.At (cfg : Config P C) (db : Db P C) (r : NodeId) (es : List Walked) (x : NodeId) (parent : Option Key)
    (stack vis : List NodeId) : Prop :=
  DepthFirst.At (db.moves cfg) recordKey db.Follows db.nodeIds r es x parent stack vis

/-- What the loop over a list may come to: too deep, an edge that closes its path, or neither. -/
def OrderSpec (cfg : Config P C) (db : Db P C) (id : NodeId) (parent : Option Key) (todo : List (Bool × NodeId))
    (st : Sorting) : Option (Bool × Sorting) → Prop
  | none => True
  | some (true, _) => db.Closes cfg
  | some (false, st') => st'.recStack = st.recStack ∧
    Sorts (db.moves cfg) recordKey id parent st.recStack todo st.visited st.stack st'.visited st'.stack

/-- What the search from a node may come to. -/
def LeftSpec (cfg : Config P C) (db : Db P C) (id : NodeId) (parent : Option Key) (st : Sorting) :
    Option (Bool × Sorting) → Prop
  | none => True
  | some (true, _) => db.Closes cfg
  | some (false, st') => ∃ vis out, Sorts (db.moves cfg) recordKey id parent (id :: st.recStack) (db.moves cfg id)
    (st.visited.insert id) st.stack vis out ∧ st' = ⟨vis, st.recStack, out ++ [id]⟩

/-- **The loop over a list.** -/
theorem sortEach_spec (hc : Consistent cfg db) {dfs : NodeId → Key → Sorting → GraphM P C (Option (Bool × Sorting))}
    (hdfs : ∀ d v st db₀, db.Follows (id, d, v) → v ∉ st.visited → Same cfg db db₀ →
      db.At cfg r (es ++ [(id, d, v)]) v (some (recordKey id d v)) (v :: st.recStack) (st.visited.insert v) →
      Settled db.Follows st.recStack st.visited st.stack →
      Wp (dfs v (recordKey id d v) st) db₀
        (fun r db' => Same cfg db db' ∧ LeftSpec cfg db v (some (recordKey id d v)) st r) fun _ _ => False)
    (entries : List (List Char)) (hnil : [] ∉ entries)
    (hkind : ∀ kind v, kind :: v ∈ entries → kind = '>' ∨ kind = '<' ∨ kind = '-')
    (before : List (Bool × NodeId)) (hmoves : db.moves cfg id = before ++ movesOf entries) (st : Sorting)
    (hat : db.At cfg r es id parent st.recStack st.visited) (hset : Settled db.Follows st.recStack st.visited st.stack)
    (hbefore : ∀ m ∈ before, m.2 ∈ st.visited) (db₀ : Db P C) (hs : Same cfg db db₀) :
    Wp (sortEach dfs id parent entries st) db₀
      (fun r db' => Same cfg db db' ∧ OrderSpec cfg db id parent (movesOf entries) st r) fun _ _ => False := by
  induction entries generalizing before st db₀ with
  | nil =>
    unfold sortEach
    rw [wp_ret]
    exact ⟨hs, rfl, .done⟩
  | cons e entries ih =>
    rw [List.mem_cons, not_or] at hnil
    have hkind' : ∀ kind v, kind :: v ∈ entries → kind = '>' ∨ kind = '<' ∨ kind = '-' :=
      fun kind v hin => hkind kind v (List.mem_cons_of_mem _ hin)
    cases e with
    | nil => exact absurd rfl hnil.1
    | cons kind w =>
      unfold sortEach movesOf
      unfold movesOf at hmoves
      by_cases hk : kind = '<'
      · rw [if_pos hk] at hmoves
        rw [if_pos hk, if_pos hk]
        exact ih hnil.2 hkind' before hmoves st hat hset hbefore db₀ hs
      rw [if_neg hk] at hmoves
      rw [if_neg hk, if_neg hk]
      have hmem : (decide (kind = '>'), w) ∈ db.moves cfg id := by
        rw [hmoves]
        exact List.mem_append_right _ List.mem_cons_self
      have hf : db.Follows (id, decide (kind = '>'), w) := (hc.mem_moves _ _ _).1 hmem
      have hmoves' : db.moves cfg id = (before ++ [(decide (kind = '>'), w)]) ++ movesOf entries := by
        rw [hmoves, List.append_assoc]
        rfl
      -- one move more has been looked at
      have hmore : ∀ {vis : List NodeId}, w ∈ vis → (∀ m ∈ before, m.2 ∈ vis) →
          ∀ m ∈ before ++ [(decide (kind = '>'), w)], m.2 ∈ vis := by
        intro vis hw hb m hm
        rcases List.mem_append.1 hm with hm | hm
        · exact hb m hm
        · rw [List.mem_singleton.1 hm]
          exact hw
      have harr : (kind = '-' ∧ some (recordKey id (decide (kind = '>')) w) = parent) ↔
          Arrival recordKey parent id (decide (kind = '>')) w := by
        unfold Arrival
        refine and_congr_left fun _ => ?_
        rcases hkind kind w List.mem_cons_self with rfl | rfl | rfl
        · decide
        · exact absurd rfl hk
        · decide
      change Wp (if ¬ (kind = '-' ∧ some (recordKey id (decide (kind = '>')) w) = parent) then _ else _) db₀ _ _
      by_cases ha : kind = '-' ∧ some (recordKey id (decide (kind = '>')) w) = parent
      · rw [if_neg (not_not_intro ha)]
        have hw : w ∈ st.visited := hset.sub w (hat.arrival hc.records hc.mem_moves (harr.1 ha) hf)
        refine wp_mono (ih hnil.2 hkind' _ hmoves' st hat hset (hmore hw hbefore) db₀ hs) ?_ fun _ _ h => h
        rintro (_ | ⟨_ | _, st'⟩) db' ⟨hs', hspec⟩
        · exact ⟨hs', trivial⟩
        · exact ⟨hs', hspec.1, .skip (harr.1 ha) hspec.2⟩
        · exact ⟨hs', hspec⟩
      have hna : ¬ Arrival recordKey parent id (decide (kind = '>')) w := fun h => ha (harr.2 h)
      rw [if_pos ha]
      by_cases hvis : w ∈ st.visited
      · rw [if_neg (not_not_intro hvis)]
        by_cases hrec : w ∈ st.recStack
        · rw [if_pos hrec, wp_ret]
          refine ⟨hs, id, r, es, _, w, hat.here, hf, (hat.mem_stack w).1 hrec, ?_⟩
          rw [← hat.arrived]
          exact hna
        rw [if_neg hrec]
        refine wp_mono (ih hnil.2 hkind' _ hmoves' st hat hset (hmore hvis hbefore) db₀ hs) ?_ fun _ _ h => h
        rintro (_ | ⟨_ | _, st'⟩) db' ⟨hs', hspec⟩
        · exact ⟨hs', trivial⟩
        · exact ⟨hs', hspec.1, .seen hna hvis hrec hspec.2⟩
        · exact ⟨hs', hspec⟩
      rw [if_pos hvis, wp_bind]
      have hat₁ := hat.step hset hmoves hbefore hvis
      refine wp_mono (hdfs _ w st db₀ hf hvis hs hat₁ hset) ?_ fun _ _ h => h
      rintro (_ | ⟨_ | _, st₁⟩) db₁ ⟨hs₁, hspec₁⟩
      · exact ⟨hs₁, trivial⟩
      · obtain ⟨vis₁, out₁, hsorts, rfl⟩ := hspec₁
        have hswept := hsorts.swept hc.records hc.mem_moves r _ [] hat₁ (hset.enter hvis) rfl
          fun m hm => absurd hm List.not_mem_nil
        obtain ⟨hset₁, hsub, hw₁, -⟩ := hswept.node hc.mem_moves hat₁ hset hvis
        refine wp_mono (ih hnil.2 hkind' _ hmoves' ⟨vis₁, st.recStack, out₁ ++ [w]⟩ (hat.mono hsub) hset₁
          (hmore hw₁ fun m hm => hsub _ (hbefore m hm)) db₁ hs₁) ?_ fun _ _ h => h
        rintro (_ | ⟨_ | _, st'⟩) db' ⟨hs', hspec⟩
        · exact ⟨hs', trivial⟩
        · exact ⟨hs', hspec.1, .deep hna hvis hsorts hspec.2⟩
        · exact ⟨hs', hspec⟩
      · exact ⟨hs₁, hspec₁⟩

/-- **The search from a node.** -/
theorem sortFrom_spec (hc : Consistent cfg db) (n : ℕ) (hid : id ∈ db.nodeIds) (st : Sorting) (hnot : id ∉ st.visited)
    (hat : db.At cfg r es id parent (id :: st.recStack) (st.visited.insert id))
    (hset : Settled db.Follows st.recStack st.visited st.stack) (hs : Same cfg db db₀) :
    Wp (sortFrom cfg n id parent st) db₀
      (fun r db' => Same cfg db db' ∧ LeftSpec cfg db id parent st r) fun _ _ => False := by
  induction n generalizing id parent es st db₀ with
  | zero => exact ⟨hs, trivial⟩
  | succ n ih =>
    have hmoves : db.moves cfg id = movesOf (db.listOf cfg id) := if_pos hid
    have hrec : id ∉ st.recStack := fun hin => hnot (hset.sub id hin)
    unfold sortFrom
    rw [List.insert_of_not_mem hrec, wp_bind]
    refine wp_mono (hc.wp_listOf hid hs) ?_ fun _ _ h => h
    rintro _ db₁ ⟨rfl, hs₁⟩
    rw [wp_bind]
    refine wp_mono (@sortEach_spec _ _ cfg db id parent r es hc _ ?_ (db.listOf cfg id) (hc.nil_not_mem_listOf hid)
      (fun _ _ => hc.kind_of_mem hid) [] hmoves ⟨st.visited.insert id, id :: st.recStack, st.stack⟩ hat (hset.enter hnot)
      (fun m hm => absurd hm List.not_mem_nil) db₁ hs₁) ?_ fun _ _ h => h
    · intro d v st' db₂ hf hv hs₂ hat' hset'
      exact ih (hc.mem_of_follows hf).2 st' hv hat' hset' hs₂
    · rintro (_ | ⟨_ | _, st'⟩) db' ⟨hs', hspec⟩
      · exact ⟨hs', trivial⟩
      · refine ⟨hs', st'.visited, st'.stack, ?_, ?_⟩
        · rw [hmoves]
          exact hspec.2
        · rw [hspec.1]
          change (⟨_, (id :: st.recStack).erase id, _⟩ : Sorting) = _
          rw [List.erase_cons_head]
      · exact ⟨hs', hspec⟩

/-- What is open is a node. -/
theorem Consistent.mem_of_open (hc : Consistent cfg db) (h : Open (db.moves cfg) recordKey db.Follows db.nodeIds u) :
    u ∈ db.nodeIds := by
  obtain ⟨r, es, hfirst, -⟩ := h
  obtain ⟨before, after, hnodes, -⟩ := hfirst.root
  have hr : r ∈ db.nodeIds := by
    rw [hnodes]
    exact List.mem_append_right _ List.mem_cons_self
  have hall : ∀ {r es u}, Walk db.Follows r es u → r ∈ db.nodeIds → u ∈ db.nodeIds := by
    intro r es u hw
    induction hw with
    | nil _ => exact fun hr => hr
    | cons he _ ih => exact fun _ => ih (hc.mem_of_follows he).2
  exact hall (hfirst.walk hc.mem_moves) hr

/-- **The search from all nodes**: an edge closes its path, or all nodes are open and come out in order. -/
theorem sortRoots_spec (hc : Consistent cfg db) (ids pre : List NodeId) (hnodes : db.nodeIds = pre ++ ids) (st : Sorting)
    (hrec : st.recStack = []) (hset : Settled db.Follows [] st.visited st.stack) (hpre : ∀ a ∈ pre, a ∈ st.visited)
    (hopen : ∀ u ∈ st.visited, Open (db.moves cfg) recordKey db.Follows db.nodeIds u) (hs : Same cfg db db₀) :
    Wp (sortRoots cfg ids st) db₀ (fun r db' => Same cfg db db' ∧ ∀ st', r = some st' →
        Settled db.Follows [] st'.visited st'.stack ∧ (∀ a ∈ db.nodeIds, a ∈ st'.visited) ∧
        ∀ u ∈ st'.visited, Open (db.moves cfg) recordKey db.Follows db.nodeIds u)
      fun e db' => Same cfg db db' ∧ e = .value ∧ db.Closes cfg := by
  induction ids generalizing pre st db₀ with
  | nil =>
    unfold sortRoots
    rw [wp_ret]
    refine ⟨hs, ?_⟩
    rintro st' ⟨⟩
    rw [List.append_nil] at hnodes
    refine ⟨hset, ?_, hopen⟩
    rw [hnodes]
    exact hpre
  | cons id ids ih =>
    have hnodes' : db.nodeIds = (pre ++ [id]) ++ ids := by
      rw [hnodes, List.append_assoc]
      rfl
    have hid : id ∈ db.nodeIds := by
      rw [hnodes]
      exact List.mem_append_right _ List.mem_cons_self
    have hmore : ∀ {vis : List NodeId}, id ∈ vis → (∀ a ∈ pre, a ∈ vis) → ∀ a ∈ pre ++ [id], a ∈ vis := by
      intro vis hv hp a ha
      rcases List.mem_append.1 ha with ha | ha
      · exact hp a ha
      · rw [List.mem_singleton.1 ha]
        exact hv
    unfold sortRoots
    by_cases hvis : id ∈ st.visited
    · rw [if_pos hvis]
      exact ih _ hnodes' st hrec hset (hmore hvis hpre) hopen hs
    rw [if_neg hvis, wp_bind]
    have hat : db.At cfg id [] id none [id] (st.visited.insert id) := At.root hset hnodes hpre hvis
    have hset' := hset
    rw [← hrec] at hset'
    refine wp_mono (sortFrom_spec hc MAX_RECURSION hid st hvis (by rw [hrec]; exact hat) hset' hs) ?_ fun _ _ h => h.elim
    rintro (_ | ⟨_ | _, st₁⟩) db₁ ⟨hs₁, hspec⟩
    · refine ⟨hs₁, ?_⟩
      rintro st' ⟨⟩
    · obtain ⟨vis₁, out₁, hsorts, rfl⟩ := hspec
      rw [hrec] at hsorts
      have hswept := hsorts.swept hc.records hc.mem_moves id _ [] hat (hset.enter hvis) rfl
        fun m hm => absurd hm List.not_mem_nil
      obtain ⟨hset₁, hsub, hid₁, hopen₁⟩ := hswept.node hc.mem_moves hat hset hvis
      refine ih _ hnodes' ⟨vis₁, st.recStack, out₁ ++ [id]⟩ hrec hset₁ (hmore hid₁ fun a ha => hsub a (hpre a ha)) ?_ hs₁
      intro u hu
      by_cases hu₁ : u ∈ st.visited
      · exact hopen u hu₁
      · exact hopen₁ u hu hu₁
    · exact ⟨hs₁, rfl, hspec⟩

/-- **`topological_sort`** raises exactly where an edge closes its path; else all nodes come out, the start of
a directed edge before its end. -/
theorem topologicalSort_spec (hc : Consistent cfg db) : Wp (topologicalSort cfg) db
    (fun r db' => Same cfg db db' ∧ ∀ order, r = some order → ¬ db.Closes cfg ∧ order.Nodup ∧
      (∀ v, v ∈ order ↔ v ∈ db.nodeIds) ∧ ∀ u v, (u, true, v) ∈ db.seenEdges → [u, v].Sublist order)
    fun e db' => Same cfg db db' ∧ e = .value ∧ db.Closes cfg := by
  unfold topologicalSort
  rw [wp_bind, wp_get, wp_bind]
  refine wp_mono (sortRoots_spec hc db.nodeIds [] rfl ⟨[], [], []⟩ rfl ?_ (fun a ha => absurd ha List.not_mem_nil)
    (fun u hu => absurd hu List.not_mem_nil) (Same.refl hc.sound)) ?_ fun _ _ h => h
  · constructor <;> simp
  rintro r db' ⟨hs, h⟩
  rw [wp_ret]
  refine ⟨hs, ?_⟩
  intro order horder
  obtain ⟨st, rfl, rfl⟩ := Option.map_eq_some_iff.1 horder
  obtain ⟨hset, hall, hopen⟩ := h st rfl
  have hout : ∀ v, v ∈ st.stack ↔ v ∈ db.nodeIds := by
    intro v
    rw [hset.mem_out v]
    constructor
    · rintro ⟨hv, -⟩
      exact hc.mem_of_open (hopen v hv)
    · intro hv
      exact ⟨hall v hv, List.not_mem_nil⟩
  refine ⟨?_, List.nodup_reverse.2 hset.nodup, fun v => by rw [List.mem_reverse, hout v], ?_⟩
  · refine not_closing hc.mem_moves ?_
    intro u d v he
    exact hopen u (hall u (hc.mem_of_follows he).1)
  · intro u v he
    have hu : u ∈ st.stack := (hout u).2 (hc.ends u true v he).1
    obtain ⟨pre, post, hsplit⟩ := List.append_of_mem hu
    have hv : v ∈ pre := hset.order pre u post hsplit v he
    -- the end of the edge went out before its start
    have hsub : [v, u].Sublist st.stack := by
      rw [hsplit]
      exact (List.singleton_sublist.2 hv).append ((List.nil_sublist post).cons_cons u)
    exact hsub.reverse

end Order

/-! ## Agreement -/

/-- **The three agree**, for a graph on which none gets too deep: `is_cyclic` says whether there is a cycle,
`find_cycle` returns one or raises and there is none, and `topological_sort` raises and there is one, or
returns all nodes that are there, the start of a directed edge before its end, and there is none. -/
structure CyclesAgree (cfg : Config P C) (db : Db P C) : Prop where
  cyclic : Wp (isCyclic cfg) db (fun r _ => ∃ b, r = some b ∧ (b = true ↔ ∃ c, db.IsCycle c)) fun _ _ => False
  find : Wp (findCycle cfg none) db (fun r _ => ∃ c, r = some c ∧ db.IsCycle c)
    fun e _ => e = .value ∧ ¬ ∃ c, db.IsCycle c
  sort : Wp (topologicalSort cfg) db
    (fun r _ => ∃ order, r = some order ∧ (¬ ∃ c, db.IsCycle c) ∧ order.Nodup ∧
      (∀ v, v ∈ order ↔ db.holds (nodeKey v) = true) ∧ ∀ u v, (u, true, v) ∈ db.edges → [u, v].Sublist order)
    fun e _ => e = .value ∧ ∃ c, db.IsCycle c

/-- None of the three ends in a `RecursionError`. -/
structure Shallow (cfg : Config P C) (db : Db P C) : Prop where
  cyclic : Wp (isCyclic cfg) db (fun r _ => r ≠ none) fun _ _ => True
  find : Wp (findCycle cfg none) db (fun r _ => r ≠ none) fun _ _ => True
  sort : Wp (topologicalSort cfg) db (fun r _ => r ≠ none) fun _ _ => True

/-- **When the three agree**, in a graph in order where no id holds a newline: there is no cycle, or some
edge closes the path by which its node is come to. -/
theorem cyclesAgree_iff (hg : InOrder cfg db) (hp : db.Plain) (hd : Shallow cfg db) :
    CyclesAgree cfg db ↔ ((∃ c, db.IsCycle c) → db.Closes cfg) := by
  have hc := hg.consistent hp
  have hcloses : db.Closes cfg → ∃ c, db.IsCycle c := fun h => h.isCycle hc.records hc.mem_moves
  constructor
  · intro h hcycle
    have hboth := wp_and h.sort (topologicalSort_spec hc)
    unfold Wp at hboth
    rcases hrun : (topologicalSort cfg).run db with ⟨e | r, db'⟩ <;> rw [hrun] at hboth
    · exact hboth.2.2.2
    · obtain ⟨⟨order, -, hno, -⟩, -⟩ := hboth
      exact absurd hcycle hno
  · intro hcond
    refine ⟨?_, ?_, ?_⟩
    · refine wp_mono (wp_and (isCyclic_spec hc) hd.cyclic) ?_ fun _ _ h => h.1
      rintro r db' ⟨⟨-, hspec⟩, hne⟩
      obtain ⟨b, rfl⟩ := Option.ne_none_iff_exists'.1 hne
      exact ⟨b, rfl, hspec b rfl⟩
    · refine wp_mono (wp_and (findCycle_spec hc) hd.find) ?_ fun _ _ h => h.1.2
      rintro r db' ⟨⟨-, hspec⟩, hne⟩
      obtain ⟨c, rfl⟩ := Option.ne_none_iff_exists'.1 hne
      exact ⟨c, rfl, hspec c rfl⟩
    · refine wp_mono (wp_and (topologicalSort_spec hc) hd.sort) ?_ fun _ _ h => ⟨h.1.2.1, hcloses h.1.2.2⟩
      rintro r db' ⟨⟨-, hspec⟩, hne⟩
      obtain ⟨order, rfl⟩ := Option.ne_none_iff_exists'.1 hne
      obtain ⟨hno, hnodup, hnodes, hbefore⟩ := hspec order rfl
      refine ⟨order, rfl, fun hcycle => hno (hcond hcycle), hnodup, fun v => ?_, fun u v he => ?_⟩
      · rw [hnodes, hg.mem_nodeIds_of_plain hp]
      · rw [← hg.seenEdges_eq hp] at he
        exact hbefore u v he


/-- A graph without a cycle. -/
theorem small_shallow : Shallow asIs small where
  cyclic := by
    have hrun : (isCyclic asIs).run small = (.ok (some false), small) := rfl
    unfold Wp
    rw [hrun]
    exact Option.some_ne_none _
  find := by
    have hrun : (findCycle asIs none).run small = (.error .value, small) := rfl
    unfold Wp
    rw [hrun]
    trivial
  sort := by
    have hrun : (topologicalSort asIs).run small = (.ok (some [['a'], ['b'], ['c']]), small) := rfl
    unfold Wp
    rw [hrun]
    exact Option.some_ne_none _

theorem cyclesAgree_small : CyclesAgree asIs small ↔ ((∃ c, small.IsCycle c) → small.Closes asIs) :=
  cyclesAgree_iff small_inOrder small_plain small_shallow

/-- `a - b`, and then `a > b`. -/
def parallel : Db (List ℕ) (Val (List ℕ)) where
  table := ⟨[(nodeKey ['a'], .props []), (nodeKey ['b'], .props []), (edgeKey ['a'] false ['b'], .props []),
    (edgeKey ['a'] true ['b'], .props []), (adjKey ['a'], .adj [['-', 'b'], ['>', 'b']]),
    (adjKey ['b'], .adj [['-', 'a'], ['<', 'a']])], by decide⟩
  rows := []
  cache := OrdDict.empty

theorem parallel_nodes (h : parallel.holds (nodeKey id) = true) : id = ['a'] ∨ id = ['b'] := by
  rw [← mem_keys] at h
  simp only [parallel, OrdDict.keys, List.map_cons, List.map_nil, List.mem_cons, List.not_mem_nil, or_false] at h
  rcases h with h | h | h | h | h | h
  · exact .inl (nodeKey_inj h)
  · exact .inr (nodeKey_inj h)
  all_goals cases h

theorem parallel_plain : parallel.Plain := by
  intro id h
  rcases parallel_nodes h with rfl | rfl <;> decide

theorem parallel_edges : parallel.edges = [(['a'], false, ['b']), (['a'], true, ['b'])] := by decide

theorem parallel_inOrder : InOrder asIs parallel where
  sound := sound_asIs rfl
  lists := by
    rw [parallel_edges]
    intro id hid
    rcases parallel_nodes hid with rfl | rfl
    · exact ⟨[['-', 'b'], ['>', 'b']], .inl rfl, by simp [implied, entriesAt, outEntry]⟩
    · exact ⟨[['-', 'a'], ['<', 'a']], .inl rfl, by simp [implied, entriesAt, inEntry]⟩
  ends := by
    rw [parallel_edges]
    intro u d v h
    simp only [List.mem_cons, Prod.mk.injEq, List.not_mem_nil, or_false] at h
    rcases h with ⟨rfl, -, rfl⟩ | ⟨rfl, -, rfl⟩ <;> decide
  places key hkey u d v hm := by
    have hall : ∀ key ∈ parallel.table.keys, ∀ e ∈ edgeOf key, key = generateEdgeKey e.1 e.2.2 e.2.1 := by decide
    exact hall key hkey (u, d, v) hm
  named := by decide
  closed id := closed_of_keys (by decide)

theorem run_isCyclic_parallel : (isCyclic asIs).run parallel = (.ok (some true), parallel) := rfl

theorem run_topologicalSort_parallel :
    (topologicalSort asIs).run parallel = (.ok (some [['a'], ['b']]), parallel) := rfl

theorem parallel_shallow : Shallow asIs parallel where
  cyclic := by
    unfold Wp
    rw [run_isCyclic_parallel]
    exact Option.some_ne_none _
  find := by
    have hrun : (findCycle asIs none).run parallel =
        (.ok (some [(['a'], true, ['b']), (['b'], false, ['a'])]), parallel) := rfl
    unfold Wp
    rw [hrun]
    exact Option.some_ne_none _
  sort := by
    unfold Wp
    rw [run_topologicalSort_parallel]
    exact Option.some_ne_none _

/-- **The missed cycle**: there and back over two records, and an order comes out all the same. -/
theorem topologicalSort_parallel :
    InOrder asIs parallel ∧ parallel.Plain ∧ Shallow asIs parallel ∧ ¬ CyclesAgree asIs parallel := by
  refine ⟨parallel_inOrder, parallel_plain, parallel_shallow, ?_⟩
  intro h
  obtain ⟨b, hb, hcycle⟩ := h.cyclic.ok run_isCyclic_parallel
  obtain ⟨order, -, hno, -⟩ := h.sort.ok run_topologicalSort_parallel
  exact hno (hcycle.1 (Option.some.inj hb).symm)

end Graph

end OmniJsonDb
