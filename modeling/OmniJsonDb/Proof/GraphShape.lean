import Mathlib.Data.Finset.Card
import OmniJsonDb.Proof.GraphTidy

/-!
# What the calls say

The graph that the calls describe: a set of nodes and a set of edges. The records show it when the
nodes and the edges that are stored are its own.

* `Shape`: nodes and edges, an undirected edge from its lesser end.
* `Shape.addNode`, `Shape.addEdge`, `Shape.removeNode`, `Shape.removeEdge`: what a call asks for.
* `Mirrors`: the records show a shape.
-/

namespace OmniJsonDb

namespace Graph

/-! ## Nodes and edges -/

/-- An undirected edge is named from its lesser end. -/
def place (u : NodeId) (d : Bool) (v : NodeId) : Edge := if d = false ∧ v < u then (v, d, u) else (u, d, v)

/-- A set of nodes and a set of edges. -/
structure Shape where
  nodes : Finset NodeId
  edges : Finset Edge

namespace Shape

variable (g : Shape) (id u v : NodeId) (d : Bool)

def empty : Shape := ⟨∅, ∅⟩

def addNode : Shape := { g with nodes := insert id g.nodes }

/-- Its ends are added with an edge. -/
def addEdge : Shape := ⟨insert v (insert u g.nodes), insert (place u d v) g.edges⟩

/-- The edges of a node go with it. -/
def removeNode : Shape := ⟨g.nodes.erase id, g.edges.filter fun e => e.1 ≠ id ∧ e.2.2 ≠ id⟩

def removeEdge : Shape := { g with edges := g.edges.erase (place u d v) }

/-- How many edges are directed. -/
def directed : ℕ := (g.edges.filter fun e => e.2.1 = true).card

end Shape

variable {P : Type} {id u v a b n : NodeId} {d e : Bool} {key k : Key} {look look' : Look P} {w : Val P} {g : Shape}

theorem place_cases (u v : NodeId) (d : Bool) : place u d v = (u, d, v) ∨ d = false ∧ v < u ∧ place u d v = (v, d, u) := by
  unfold place
  by_cases h : d = false ∧ v < u
  · exact .inr ⟨h.1, h.2, if_pos h⟩
  · exact .inl (if_neg h)

theorem generateEdgeKey_eq (u v : NodeId) (d : Bool) :
    generateEdgeKey u v d = edgeKey (place u d v).1 (place u d v).2.1 (place u d v).2.2 := by
  unfold generateEdgeKey place
  cases d <;> by_cases h : v < u <;> simp [h]

/-- The edge that a key stands for. -/
theorem edgeOf_generateEdgeKey (hu : GoodId u) (hv : GoodId v) : edgeOf (generateEdgeKey u v d) = some (place u d v) := by
  rw [generateEdgeKey_eq]
  rcases place_cases u v d with h | ⟨-, -, h⟩ <;> rw [h]
  · exact edgeOf_edgeKey hu hv.1
  · exact edgeOf_edgeKey hv hu.1

theorem place_comm : place u false v = place v false u := by
  unfold place
  rcases lt_trichotomy u v with h | rfl | h
  · rw [if_neg fun hn => h.not_gt hn.2, if_pos ⟨rfl, h⟩]
  · rfl
  · rw [if_pos ⟨rfl, h⟩, if_neg fun hn => h.not_gt hn.2]

/-- A place is the same edge. -/
theorem place_eq_iff : place a e b = place u d v ↔ SameEdge u d v a e b := by
  constructor
  · intro h
    rcases place_cases a b e with ha | ⟨rfl, -, ha⟩ <;> rcases place_cases u v d with hu | ⟨rfl, -, hu⟩ <;>
      rw [ha, hu] at h <;> cases h
    · exact .inl ⟨rfl, rfl, rfl⟩
    · exact .inr ⟨rfl, rfl, rfl, rfl⟩
    · exact .inr ⟨rfl, rfl, rfl, rfl⟩
    · exact .inl ⟨rfl, rfl, rfl⟩
  · rintro (⟨rfl, rfl, rfl⟩ | ⟨rfl, rfl, rfl, rfl⟩)
    · rfl
    · exact place_comm

theorem place_directed : (place u d v).2.1 = d := by
  rcases place_cases u v d with h | ⟨-, -, h⟩ <;> rw [h]

/-- The ends of a place are those of the edge. -/
theorem place_off : ((place u d v).1 ≠ id ∧ (place u d v).2.2 ≠ id) ↔ u ≠ id ∧ v ≠ id := by
  rcases place_cases u v d with h | ⟨-, -, h⟩ <;> rw [h]
  exact and_comm

/-! ## Records that show a shape -/

/-- **The records show a shape.** -/
structure Mirrors (look : Look P) (g : Shape) : Prop where
  nodes : ∀ id, id ∈ g.nodes ↔ (look (nodeKey id)).isSome = true
  edges : ∀ u d v, place u d v ∈ g.edges ↔ Edged look u d v
  placed : ∀ e ∈ g.edges, place e.1 e.2.1 e.2.2 = e

theorem mirrors_none : Mirrors (fun _ => none : Look P) Shape.empty where
  nodes id := ⟨fun h => absurd h (Finset.notMem_empty _), fun h => by cases h⟩
  edges u d v := ⟨fun h => absurd h (Finset.notMem_empty _), fun h => by cases h.2.2⟩
  placed e h := absurd h (Finset.notMem_empty _)

theorem place_place : place (place u d v).1 (place u d v).2.1 (place u d v).2.2 = place u d v := by
  rcases place_cases u v d with h | ⟨rfl, hvu, h⟩
  · rw [h]
    exact h
  · rw [h]
    exact place_comm.trans h

/-- The nodes and the edges stay what they are. -/
theorem Mirrors.mono (h : Mirrors look g) (hnode : ∀ id, (look' (nodeKey id)).isSome = (look (nodeKey id)).isSome)
    (hedge : ∀ u d v, (look' (generateEdgeKey u v d)).isSome = (look (generateEdgeKey u v d)).isSome) :
    Mirrors look' g := by
  refine ⟨fun id => ?_, fun u d v => ?_, h.placed⟩
  · rw [hnode]
    exact h.nodes id
  · unfold Edged
    rw [hedge]
    exact h.edges u d v

/-- A record that is there, or that is neither a node nor an edge. -/
theorem Mirrors.update (h : Mirrors look g)
    (hk : (look key).isSome = true ∨ key.head? ≠ some 'N' ∧ key.head? ≠ some 'E') :
    Mirrors (Function.update look key (some w)) g := by
  have hsame : ∀ k, k.head? = some 'N' ∨ k.head? = some 'E' →
      (Function.update look key (some w) k).isSome = (look k).isSome := by
    intro k hhead
    by_cases hkey : k = key
    · subst hkey
      rw [Function.update_self]
      rcases hk with hk | hk
      · rw [hk]
        rfl
      · exact absurd hhead (not_or.2 hk)
    · rw [Function.update_of_ne hkey]
  exact h.mono (fun _ => hsame _ (.inl rfl)) fun _ _ _ => hsame _ (.inr head?_generateEdgeKey)

theorem Mirrors.addNode (h : Mirrors look g) (hhere : (look' (nodeKey id)).isSome = true)
    (hrest : ∀ k, k ≠ nodeKey id → look' k = look k) : Mirrors look' (g.addNode id) := by
  refine ⟨fun n => ?_, fun u d v => ?_, h.placed⟩
  · unfold Shape.addNode
    rw [Finset.mem_insert, h.nodes]
    by_cases hn : n = id
    · subst hn
      exact iff_of_true (.inl rfl) hhere
    · rw [or_iff_right hn, hrest _ fun hk => hn (nodeKey_inj hk)]
  · unfold Edged
    rw [hrest _ nodeKey_ne_generateEdgeKey.symm]
    exact h.edges u d v

/-- An edge comes, whose ends are there. -/
theorem Mirrors.addEdge {f g'} (h : Mirrors look g) (hl : EndsEdited look look' u d v f g') (hu : GoodId u)
    (hv : GoodId v) (hnu : u ∈ g.nodes) (hnv : v ∈ g.nodes) (hedge : (look' (generateEdgeKey u v d)).isSome = true) :
    Mirrors look' (g.addEdge u v d) := by
  unfold Shape.addEdge
  rw [Finset.insert_eq_of_mem hnu, Finset.insert_eq_of_mem hnv]
  refine ⟨fun n => ?_, fun a e b => ?_, fun x hx => ?_⟩
  · rw [hl.node]
    exact h.nodes n
  · rw [Finset.mem_insert, place_eq_iff, h.edges, hl.edged_link hu hv hedge]
    exact or_comm
  · rcases Finset.mem_insert.1 hx with rfl | hx
    · exact place_place
    · exact h.placed x hx

/-- An edge goes. -/
theorem Mirrors.removeEdge {f g'} (h : Mirrors look g) (hl : EndsEdited look look' u d v f g') (hu : GoodId u)
    (hv : GoodId v) (hedge : look' (generateEdgeKey u v d) = none) : Mirrors look' (g.removeEdge u v d) := by
  unfold Shape.removeEdge
  refine ⟨fun n => ?_, fun a e b => ?_, fun x hx => h.placed x (Finset.mem_of_mem_erase hx)⟩
  · rw [hl.node]
    exact h.nodes n
  · rw [Finset.mem_erase, ne_eq, place_eq_iff, h.edges, hl.edged_unlink hu hv hedge]
    exact and_comm

/-- A node goes. -/
theorem Mirrors.removeNode (h : Mirrors look g) (hi : Isolates look look' id) (hgone : look' (nodeKey id) = none) :
    Mirrors look' (g.removeNode id) := by
  unfold Shape.removeNode
  refine ⟨fun n => ?_, fun a e b => ?_, fun x hx => h.placed x (Finset.mem_of_mem_filter _ hx)⟩
  · rw [Finset.mem_erase]
    by_cases hn : n = id
    · subst hn
      rw [hgone]
      exact iff_of_false (fun hno => hno.1 rfl) (by simp)
    · rw [and_iff_right hn, hi.node n hn]
      exact h.nodes n
  · rw [Finset.mem_filter, place_off, h.edges, hi.edge]
    rfl

/-! ## Edges that are there already -/

theorem Shape.addNode_of_mem (h : id ∈ g.nodes) : g.addNode id = g := by
  unfold Shape.addNode
  rw [Finset.insert_eq_of_mem h]

/-- An edge brings its ends. -/
theorem Shape.addEdge_addNode : ((g.addNode u).addNode v).addEdge u v d = g.addEdge u v d := by
  unfold Shape.addEdge Shape.addNode
  rw [Finset.insert_eq_of_mem (Finset.mem_insert_of_mem (Finset.mem_insert_self u _)),
    Finset.insert_eq_of_mem (Finset.mem_insert_self v _)]

theorem Mirrors.addEdge_eq (h : Mirrors look g) (ht : Tidy look) (he : Edged look u d v) : g.addEdge u v d = g := by
  obtain ⟨hu, hv⟩ := ht.ends u d v he
  unfold Shape.addEdge
  rw [Finset.insert_eq_of_mem ((h.nodes u).2 hu), Finset.insert_eq_of_mem ((h.nodes v).2 hv),
    Finset.insert_eq_of_mem ((h.edges u d v).2 he)]

theorem Mirrors.removeEdge_eq (h : Mirrors look g) (he : ¬ Edged look u d v) : g.removeEdge u v d = g := by
  unfold Shape.removeEdge
  rw [Finset.erase_eq_of_notMem fun hin => he ((h.edges u d v).1 hin)]

/-! ## How many are directed -/

theorem Shape.directed_addEdge (h : place u d v ∉ g.edges) :
    (g.addEdge u v d).directed = if d then g.directed + 1 else g.directed := by
  unfold Shape.directed Shape.addEdge
  rw [Finset.filter_insert, place_directed]
  cases d with
  | true =>
    rw [if_pos rfl, if_pos rfl, Finset.card_insert_of_notMem]
    exact fun hin => h (Finset.mem_of_mem_filter _ hin)
  | false => rfl

theorem Shape.directed_removeEdge (h : place u d v ∈ g.edges) :
    (g.removeEdge u v d).directed = if d then g.directed - 1 else g.directed := by
  unfold Shape.directed Shape.removeEdge
  rw [Finset.filter_erase]
  cases d with
  | true =>
    rw [if_pos rfl, Finset.card_erase_of_mem]
    exact Finset.mem_filter.2 ⟨h, place_directed⟩
  | false =>
    rw [if_neg Bool.false_ne_true, Finset.erase_eq_of_notMem]
    intro hin
    have := (Finset.mem_filter.1 hin).2
    rw [place_directed] at this
    cases this

end Graph

end OmniJsonDb
