import OmniJsonDb.Model.Scc
import OmniJsonDb.Proof.GraphSound

/-!
# What a traversal reads

A store whose lists say what its edges imply, and whose edges go from node to node.

* `InOrder`: such a store; `Consistent`: what the patterns see of it is one.
* `InOrder.consistent`, `InOrder.mem_nodeIds`, `InOrder.seenEdges_eq`: the patterns see all of it where
  no id holds a newline.
* `Leads`: an edge can be followed.
* `wp_entries`: the list of a node, as a traversal reads it.
-/

namespace OmniJsonDb

namespace Graph

open Exec

variable {P C : Type} {cfg : Config P C} {db db' : Db P C} {id u v : NodeId} {kind : Char} {key : Key}

/-- A directed edge is followed forward, an undirected one either way. -/
def Leads (es : List Edge) (u v : NodeId) : Prop := (u, true, v) ∈ es ∨ (u, false, v) ∈ es ∨ (v, false, u) ∈ es

abbrev Db.Leads (db : Db P C) : NodeId → NodeId → Prop := Graph.Leads db.seenEdges

/-- **A graph in order**: the lists of the nodes hold what the edges imply, and the ends of the edges
are nodes. An edge is stored where the graph looks for it, no node is kept under an empty id, and
behind the last colon of a node's key there is nothing. -/
structure InOrder (cfg : Config P C) (db : Db P C) : Prop where
  sound : Sound cfg db
  lists : ∀ id, db.holds (nodeKey id) = true →
    ∃ es, ListAt (db.look cfg) id es ∧ ∀ x, x ∈ es ↔ x ∈ implied id db.edges
  ends : ∀ u d v, (u, d, v) ∈ db.edges → db.holds (nodeKey u) = true ∧ db.holds (nodeKey v) = true
  places : ∀ key ∈ db.table.keys, ∀ u d v, edgeOf key = some (u, d, v) → key = generateEdgeKey u v d
  named : db.holds (nodeKey []) = false
  closed : ∀ id, db.holds (nodeKey id ++ ['\n']) = false

/-- **No id holds a newline.** The ids are those of the nodes that are there: so are the ends of edges. -/
def Db.Plain (db : Db P C) : Prop := ∀ id, db.holds (nodeKey id) = true → '\n' ∉ id

/-- What the patterns see is in order. -/
structure Consistent (cfg : Config P C) (db : Db P C) : Prop where
  sound : Sound cfg db
  lists : ∀ id ∈ db.nodeIds, ∃ es, ListAt (db.look cfg) id es ∧ ∀ x, x ∈ es ↔ x ∈ implied id db.seenEdges
  ends : ∀ u d v, (u, d, v) ∈ db.seenEdges → u ∈ db.nodeIds ∧ v ∈ db.nodeIds
  places : ∀ key ∈ db.table.keys, ∀ u d v, edgeMatch key = some (u, d, v) → key = generateEdgeKey u v d

/-- **The nodes that are seen** are those whose id holds no newline. -/
theorem InOrder.mem_nodeIds (h : InOrder cfg db) : id ∈ db.nodeIds ↔ db.holds (nodeKey id) = true ∧ '\n' ∉ id := by
  unfold Db.nodeIds
  rw [List.mem_filterMap]
  constructor
  · rintro ⟨key, hkey, hmatch⟩
    obtain ⟨hseen, hk⟩ := nodeMatch_eq_some.1 hmatch
    rw [mem_keys] at hkey
    rcases hk with rfl | rfl
    · exact ⟨hkey, hseen.2⟩
    · have hno := h.closed id
      rw [hkey] at hno
      cases hno
  · rintro ⟨hholds, hline⟩
    have hne : id ≠ [] := by
      rintro rfl
      have hno := h.named
      rw [hholds] at hno
      cases hno
    exact ⟨nodeKey id, mem_keys.2 hholds, nodeMatch_nodeKey ⟨hne, hline⟩⟩

theorem InOrder.mem_nodeIds_of_plain (h : InOrder cfg db) (hp : db.Plain) :
    id ∈ db.nodeIds ↔ db.holds (nodeKey id) = true := by
  rw [h.mem_nodeIds]
  exact and_iff_left_of_imp (hp id)

/-- All edges are seen where no id holds a newline. -/
theorem InOrder.seenEdges_eq (h : InOrder cfg db) (hp : db.Plain) : db.seenEdges = db.edges := by
  unfold Db.seenEdges Db.edges
  refine List.filterMap_congr fun key hkey => ?_
  cases hedge : edgeOf key with
  | none =>
    rw [Option.eq_none_iff_forall_ne_some]
    rintro ⟨u, d, v⟩ hseen
    rw [edgeMatch_edgeOf hseen] at hedge
    cases hedge
  | some e =>
    obtain ⟨u, d, v⟩ := e
    obtain ⟨hu, hv⟩ := h.ends u d v (List.mem_filterMap.2 ⟨key, hkey, hedge⟩)
    exact edgeMatch_of_edgeOf hedge (hp u hu) (hp v hv)

/-- **The patterns see a graph in order** where no id holds a newline. -/
theorem InOrder.consistent (h : InOrder cfg db) (hp : db.Plain) : Consistent cfg db where
  sound := h.sound
  lists id hid := by
    rw [h.seenEdges_eq hp]
    exact h.lists id ((h.mem_nodeIds_of_plain hp).1 hid)
  ends u d v he := by
    rw [h.seenEdges_eq hp] at he
    rw [h.mem_nodeIds_of_plain hp, h.mem_nodeIds_of_plain hp]
    exact h.ends u d v he
  places key hkey u d v hm := h.places key hkey u d v (edgeMatch_edgeOf hm)

/-- What an entry of an implied list stands for. -/
theorem mem_implied_cons {es : List Edge} : kind :: v ∈ implied id es ↔
    (kind = '>' ∧ (id, true, v) ∈ es) ∨ (kind = '<' ∧ (v, true, id) ∈ es) ∨
      (kind = '-' ∧ ((id, false, v) ∈ es ∨ (v, false, id) ∈ es)) := by
  rw [mem_implied]
  constructor
  · rintro ⟨⟨a, d, b⟩, he, hx⟩
    rw [mem_entriesAt] at hx
    cases d with
    | true =>
      rcases hx with ⟨rfl, hx⟩ | ⟨rfl, hx⟩
      · obtain ⟨rfl, rfl⟩ := List.cons.inj hx
        exact .inl ⟨rfl, he⟩
      · obtain ⟨rfl, rfl⟩ := List.cons.inj hx
        exact .inr (.inl ⟨rfl, he⟩)
    | false =>
      rcases hx with ⟨rfl, hx⟩ | ⟨rfl, hx⟩
      · obtain ⟨rfl, rfl⟩ := List.cons.inj hx
        exact .inr (.inr ⟨rfl, .inl he⟩)
      · obtain ⟨rfl, rfl⟩ := List.cons.inj hx
        exact .inr (.inr ⟨rfl, .inr he⟩)
  · rintro (⟨rfl, he⟩ | ⟨rfl, he⟩ | ⟨rfl, he | he⟩)
    · exact ⟨_, he, mem_entriesAt.2 (.inl ⟨rfl, rfl⟩)⟩
    · exact ⟨_, he, mem_entriesAt.2 (.inr ⟨rfl, rfl⟩)⟩
    · exact ⟨_, he, mem_entriesAt.2 (.inl ⟨rfl, rfl⟩)⟩
    · exact ⟨_, he, mem_entriesAt.2 (.inr ⟨rfl, rfl⟩)⟩

theorem nil_not_mem_implied {es : List Edge} : [] ∉ implied id es := by
  intro h
  obtain ⟨e, -, hx⟩ := mem_implied.1 h
  rcases mem_entriesAt.1 hx with ⟨-, hx⟩ | ⟨-, hx⟩ <;> cases hx

/-- An entry that is not the far end of a directed edge leads somewhere. -/
theorem leads_iff : db.Leads u v ↔ ∃ kind, kind ≠ '<' ∧ kind :: v ∈ implied u db.seenEdges := by
  constructor
  · rintro (h | h | h)
    · exact ⟨'>', by decide, mem_implied_cons.2 (.inl ⟨rfl, h⟩)⟩
    · exact ⟨'-', by decide, mem_implied_cons.2 (.inr (.inr ⟨rfl, .inl h⟩))⟩
    · exact ⟨'-', by decide, mem_implied_cons.2 (.inr (.inr ⟨rfl, .inr h⟩))⟩
  · rintro ⟨kind, hk, h⟩
    rcases mem_implied_cons.1 h with ⟨-, h⟩ | ⟨rfl, -⟩ | ⟨-, h | h⟩
    · exact .inl h
    · exact absurd rfl hk
    · exact .inr (.inl h)
    · exact .inr (.inr h)

theorem Consistent.mem_of_leads (h : Consistent cfg db) (hl : db.Leads u v) : u ∈ db.nodeIds ∧ v ∈ db.nodeIds := by
  rcases hl with hl | hl | hl
  · exact h.ends u true v hl
  · exact h.ends u false v hl
  · exact (h.ends v false u hl).symm

/-- **The list of a node is read.** -/
theorem Consistent.wp_entries (h : Consistent cfg db) (hid : id ∈ db.nodeIds) :
    ∃ es, (∀ x, x ∈ es ↔ x ∈ implied id db.seenEdges) ∧
      ∀ db₀, Same cfg db db₀ → Wp (fGetAdj cfg id) db₀ (fun es' db' => es' = es ∧ Same cfg db db') fun _ _ => False := by
  obtain ⟨es, hl, hes⟩ := h.lists id hid
  refine ⟨es, hes, ?_⟩
  intro db₀ hs
  rw [← hs.look] at hl
  refine wp_mono (wp_listAt hs.sound hl) ?_ fun _ _ h => h
  rintro es' db' ⟨rfl, hs'⟩
  exact ⟨rfl, hs.trans hs'⟩

/-! ## A small graph -/

/-- `a > b`, and `b - c`. -/
def small : Db (List ℕ) (Val (List ℕ)) where
  table := ⟨[(nodeKey ['a'], .props []), (nodeKey ['b'], .props []), (nodeKey ['c'], .props []),
    (edgeKey ['a'] true ['b'], .props []), (edgeKey ['b'] false ['c'], .props []),
    (adjKey ['a'], .adj [['>', 'b']]), (adjKey ['b'], .adj [['<', 'a'], ['-', 'c']]), (adjKey ['c'], .adj [['-', 'b']])],
    by decide⟩
  rows := []
  cache := OrdDict.empty

theorem small_nodeIds : small.nodeIds = [['a'], ['b'], ['c']] := by decide

/-- A store of values as they are is in order. -/
theorem sound_asIs {db : Db (List ℕ) (Val (List ℕ))} (hc : db.cache = OrdDict.empty) : Sound asIs db where
  coherent := by
    refine ⟨?_, ?_⟩
    · intro _ k
      rw [hc, OrdDict.get?_empty]
    · intro k _ v hv
      rw [hc, OrdDict.get?_empty] at hv
      cases hv
  loads _ data _ := ⟨data, rfl⟩
  takes _ _ := rfl

/-- Keys that end in a colon. -/
theorem closed_of_keys (h : ∀ key ∈ db.table.keys, key.getLast? = some ':') :
    db.holds (nodeKey id ++ ['\n']) = false := by
  rw [Bool.eq_false_iff]
  intro hholds
  have hlast := h _ (mem_keys.2 hholds)
  simp at hlast

/-- A node of a graph is one of the keys that begin with an `N`. -/
theorem small_nodes (h : small.holds (nodeKey id) = true) : id = ['a'] ∨ id = ['b'] ∨ id = ['c'] := by
  rw [← mem_keys] at h
  simp only [small, OrdDict.keys, List.map_cons, List.map_nil, List.mem_cons, List.not_mem_nil, or_false] at h
  rcases h with h | h | h | h | h | h | h | h
  · exact .inl (nodeKey_inj h)
  · exact .inr (.inl (nodeKey_inj h))
  · exact .inr (.inr (nodeKey_inj h))
  all_goals cases h

theorem small_plain : small.Plain := by
  intro id h
  rcases small_nodes h with rfl | rfl | rfl <;> decide

theorem small_edges : small.edges = [(['a'], true, ['b']), (['b'], false, ['c'])] := by decide

theorem small_inOrder : InOrder asIs small where
  sound := sound_asIs rfl
  lists := by
    rw [small_edges]
    intro id hid
    rcases small_nodes hid with rfl | rfl | rfl
    · exact ⟨[['>', 'b']], .inl rfl, by simp [implied, entriesAt, outEntry]⟩
    · exact ⟨[['<', 'a'], ['-', 'c']], .inl rfl, by simp [implied, entriesAt, outEntry, inEntry]⟩
    · exact ⟨[['-', 'b']], .inl rfl, by simp [implied, entriesAt, inEntry]⟩
  ends := by
    rw [small_edges]
    intro u d v h
    simp only [List.mem_cons, Prod.mk.injEq, List.not_mem_nil, or_false] at h
    rcases h with ⟨rfl, -, rfl⟩ | ⟨rfl, -, rfl⟩ <;> decide
  places key hkey u d v hm := by
    have hall : ∀ key ∈ small.table.keys, ∀ e ∈ edgeOf key, key = generateEdgeKey e.1 e.2.2 e.2.1 := by decide
    exact hall key hkey (u, d, v) hm
  named := by decide
  closed id := closed_of_keys (by decide)

end Graph

end OmniJsonDb
