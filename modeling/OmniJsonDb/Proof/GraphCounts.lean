import OmniJsonDb.Proof.GraphUpdates

/-!
# How many nodes and edges

The keys of a tidy store are counted: those of nodes and of edges are as many as the shape has.
What is deleted is taken off, if the key tells whether an edge is directed.

* `Maintained.place`: an edge that is read off a key is stored where the graph looks for it.
* `Mirrors.card_edges`, `Mirrors.card_directed`, `Mirrors.card_nodes`: the counts of a shape.
* `looksDirected_iff`: which keys mislead.
* `Tally.without`: the counts when a key goes.
-/

namespace OmniJsonDb

namespace Graph

variable {P C : Type} {cfg : Config P C} {db db' : Db P C} {id u v : NodeId} {d : Bool} {key : Key} {g : Shape}
  {exact : Prop}

theorem OwnKey.edge (h : OwnKey key) (hk : key.head? = some 'E') :
    ∃ u d v, GoodId u ∧ GoodId v ∧ key = generateEdgeKey u v d := by
  rcases h with ⟨id, -, rfl | rfl⟩ | ⟨u, d, v, hu, hv, -, rfl⟩ | h
  · cases hk
  · cases hk
  · exact ⟨u, d, v, hu, hv, rfl⟩
  · rw [h] at hk
    cases hk

theorem OwnKey.node (h : OwnKey key) (hk : key.head? = some 'N') : ∃ id, GoodId id ∧ key = nodeKey id := by
  rcases h with ⟨id, hid, rfl | rfl⟩ | ⟨u, d, v, hu, hv, -, rfl⟩ | h
  · exact ⟨id, hid, rfl⟩
  · cases hk
  · rw [head?_generateEdgeKey] at hk
    cases hk
  · rw [h] at hk
    cases hk

theorem Maintained.ownKey (h : Maintained cfg db) (hk : db.holds key = true) : OwnKey key := by
  obtain ⟨v, hv⟩ := Option.isSome_iff_exists.1 (h.sound.holds_iff_look.1 hk)
  exact h.tidy.keys key v hv

/-- **An edge is stored under its key**, from its lesser end. -/
theorem Maintained.place (h : Maintained cfg db) (hk : db.holds key = true) (he : edgeOf key = some (u, d, v)) :
    GoodId u ∧ GoodId v ∧ key = generateEdgeKey u v d ∧ Graph.place u d v = (u, d, v) := by
  have hhead : key.head? = some 'E' := by
    obtain ⟨-, -, rfl | rfl⟩ := edgeOf_eq_some he <;> rfl
  obtain ⟨a, e, b, ha, hb, rfl⟩ := (h.ownKey hk).edge hhead
  rw [edgeOf_generateEdgeKey ha hb] at he
  have he := Option.some.inj he
  have hplace : Graph.place u d v = (u, d, v) := by
    have := @place_place a b e
    rwa [he] at this
  have hsame : SameEdge a e b u d v := place_eq_iff.1 (hplace.trans he.symm)
  obtain ⟨hu, hv⟩ := hsame.good ha hb
  exact ⟨hu, hv, (generateEdgeKey_of_sameEdge hsame).symm, hplace⟩

/-- **The edges** are those that are stored, each from its lesser end. -/
theorem Maintained.mem_edges (h : Maintained cfg db) :
    (u, d, v) ∈ db.edges ↔ Graph.place u d v = (u, d, v) ∧ Edged (db.look cfg) u d v := by
  unfold Db.edges
  rw [List.mem_filterMap]
  constructor
  · rintro ⟨key, hkey, he⟩
    rw [mem_keys] at hkey
    obtain ⟨hu, hv, rfl, hp⟩ := h.place hkey he
    exact ⟨hp, hu, hv, h.sound.holds_iff_look.1 hkey⟩
  · rintro ⟨hp, hu, hv, hk⟩
    refine ⟨_, mem_keys.2 (h.sound.holds_iff_look.2 hk), ?_⟩
    rw [edgeOf_generateEdgeKey hu hv, hp]

theorem Maintained.nodup_edges (h : Maintained cfg db) : db.edges.Nodup := by
  unfold Db.edges
  refine List.pairwise_filterMap.2 (db.table.nodup_keys.imp_of_mem ?_)
  rintro key key' hk hk' hne ⟨u, d, v⟩ he _ he' rfl
  exact hne ((h.place (mem_keys.1 hk) he).2.2.1.trans (h.place (mem_keys.1 hk') he').2.2.1.symm)

/-! ## Telling an edge from its key -/

/-- An edge whose key misleads `key.find(':>:') >= 3`: a directed one out of `>`, an undirected one into it. -/
def Misread (e : Edge) : Prop := if e.2.1 = true then e.1 = ['>'] else e.2.2 = ['>']

/-- No edge of `id` is misread. -/
def Shape.Told (g : Shape) (id : NodeId) : Prop := ∀ e ∈ g.edges, e.1 = id ∨ e.2.2 = id → ¬ Misread e

/-- Within an id there is no colon to be found. -/
theorem findDirected_append {i : ℕ} {s : List Char} (hu : ':' ∉ u) :
    findDirected i (u ++ s) = findDirected (i + u.length) s := by
  induction u generalizing i with
  | nil => rfl
  | cons c u ih =>
    obtain ⟨hc, hu⟩ := not_or.1 (List.mem_cons.not.1 hu)
    have hno : [':', '>', ':'].isPrefixOf (c :: (u ++ s)) = false := by
      rw [List.isPrefixOf, beq_eq_false_iff_ne.2 hc, Bool.false_and]
    rw [List.cons_append, findDirected, hno, if_neg Bool.false_ne_true, ih hu, List.length_cons]
    congr 1
    omega

/-- Around an id it is found if the id is `>`. -/
theorem isPrefixOf_id {s : List Char} (hu : GoodId u) :
    [':', '>', ':'].isPrefixOf (':' :: (u ++ ':' :: s)) = decide (u = ['>']) := by
  obtain ⟨hne, hno⟩ := hu
  cases u with
  | nil => exact absurd rfl hne
  | cons c u =>
    cases u with
    | nil =>
      have hmark : ('>' == c) = decide (c = '>') := Bool.beq_comm.trans (beq_eq_decide c '>')
      simp [List.isPrefixOf, hmark]
    | cons c' u =>
      have hc' : ¬ ':' = c' := by
        rintro rfl
        simp at hno
      simp [List.isPrefixOf, hc']

/-- **What the key of an edge tells.** -/
theorem looksDirected_edgeKey (hu : GoodId u) (hv : GoodId v) :
    looksDirected (edgeKey u d v) = (decide (u ≠ ['>']) && (d || decide (v = ['>']))) := by
  have hE : ∀ s, [':', '>', ':'].isPrefixOf ('E' :: s) = false := fun _ => rfl
  have hkey : edgeKey u d v = 'E' :: ':' :: (u ++ ':' :: mark d :: ':' :: (v ++ ':' :: [])) := by simp [edgeKey]
  unfold looksDirected
  rw [hkey, findDirected, hE, if_neg Bool.false_ne_true, findDirected, isPrefixOf_id hu]
  by_cases hu' : u = ['>']
  · -- found at 1, which is too early
    simp [hu']
  · have hlen : 0 < u.length := List.length_pos_iff.2 hu.1
    rw [decide_eq_false hu', if_neg Bool.false_ne_true, findDirected_append hu.2, findDirected]
    cases d with
    | true =>
      simp [mark, List.isPrefixOf, hu']
      omega
    | false =>
      have hdash : [':', '>', ':'].isPrefixOf (':' :: mark false :: ':' :: (v ++ ':' :: [])) = false := rfl
      have hmark : ∀ s, [':', '>', ':'].isPrefixOf (mark false :: s) = false := fun _ => rfl
      rw [hdash, if_neg Bool.false_ne_true, findDirected, hmark, if_neg Bool.false_ne_true, findDirected,
        isPrefixOf_id hv]
      by_cases hv' : v = ['>']
      · -- found around the second id
        simp [hu', hv']
        omega
      · rw [decide_eq_false hv', if_neg Bool.false_ne_true, findDirected_append hv.2]
        simp [findDirected, List.isPrefixOf]

/-- **An edge is told** unless it is misread. -/
theorem looksDirected_iff (hu : GoodId u) (hv : GoodId v) (hne : u ≠ v) :
    looksDirected (edgeKey u d v) = d ↔ ¬ Misread (u, d, v) := by
  rw [looksDirected_edgeKey hu hv]
  unfold Misread
  cases d with
  | true => simp
  | false =>
    simp only [Bool.false_or, Bool.and_eq_false_iff, decide_eq_false_iff_not, not_not, Bool.false_eq_true, if_false]
    constructor
    · rintro (rfl | h) hv'
      · exact hne hv'.symm
      · exact h hv'
    · exact .inr

/-! ## Counting -/

/-- The edges of the shape are those that are stored. -/
theorem Mirrors.mem_edges (hm : Mirrors (db.look cfg) g) (h : Maintained cfg db) {e : Edge} : e ∈ g.edges ↔ e ∈ db.edges := by
  obtain ⟨u, d, v⟩ := e
  rw [h.mem_edges, ← hm.edges]
  constructor
  · intro he
    have hp := hm.placed _ he
    exact ⟨hp, hp.symm ▸ he⟩
  · rintro ⟨hp, he⟩
    exact hp ▸ he

theorem Mirrors.card_edges (hm : Mirrors (db.look cfg) g) (h : Maintained cfg db) : g.edges.card = db.edges.length := by
  rw [← List.toFinset_card_of_nodup h.nodup_edges]
  congr 1
  ext e
  rw [List.mem_toFinset]
  exact hm.mem_edges h

theorem Mirrors.card_directed (hm : Mirrors (db.look cfg) g) (h : Maintained cfg db) :
    g.directed = db.edges.countP (·.2.1) := by
  rw [List.countP_eq_length_filter, ← List.toFinset_card_of_nodup (h.nodup_edges.filter _)]
  unfold Shape.directed
  congr 1
  ext e
  rw [List.mem_toFinset, List.mem_filter, Finset.mem_filter, hm.mem_edges h]

/-- The key of a node. -/
def isNodeKey (key : Key) : Bool := key.head? = some 'N'

theorem Mirrors.card_nodes (hm : Mirrors (db.look cfg) g) (h : Maintained cfg db) :
    g.nodes.card = db.table.keys.countP isNodeKey := by
  rw [List.countP_eq_length_filter, ← List.toFinset_card_of_nodup (db.table.nodup_keys.filter _),
    ← Finset.card_image_of_injective g.nodes fun _ _ => nodeKey_inj]
  congr 1
  ext key
  rw [Finset.mem_image, List.mem_toFinset, List.mem_filter, mem_keys, isNodeKey, decide_eq_true_eq]
  constructor
  · rintro ⟨id, hid, rfl⟩
    exact ⟨h.sound.holds_iff_look.2 ((hm.nodes id).1 hid), rfl⟩
  · rintro ⟨hk, hhead⟩
    obtain ⟨id, -, rfl⟩ := (h.ownKey hk).node hhead
    exact ⟨id, (hm.nodes id).2 (h.sound.holds_iff_look.1 hk), rfl⟩

/-- The counts that `f_remove_node` keeps are those of the keys. -/
structure Tally (keys : List Key) (c : Counts) (exact : Prop) : Prop where
  nodes : c.nodes = keys.countP isNodeKey
  edges : c.edges = (keys.filterMap edgeOf).length
  directed : exact → c.directed = (keys.filterMap edgeOf).countP (·.2.1)

theorem Tally.perm {keys keys' : List Key} {c : Counts} (h : Tally keys c exact) (hp : keys.Perm keys') :
    Tally keys' c exact where
  nodes := by rw [h.nodes, hp.countP_eq]
  edges := by rw [h.edges, (hp.filterMap edgeOf).length_eq]
  directed he := by rw [h.directed he, (hp.filterMap edgeOf).countP_eq]

theorem perm_cons_filter {keys : List Key} (h : keys.Nodup) (hk : key ∈ keys) :
    keys.Perm (key :: keys.filter (· ≠ key)) := by
  refine (List.perm_cons_erase hk).trans (.of_eq ?_)
  rw [h.erase_eq_filter]
  congr 2
  funext k
  rw [bne, beq_eq_decide, decide_not]

theorem edgeOf_eq_none (h : key.head? ≠ some 'E') : edgeOf key = none := by
  rw [Option.eq_none_iff_forall_ne_some]
  rintro ⟨u, d, v⟩ he
  obtain ⟨-, -, rfl | rfl⟩ := edgeOf_eq_some he <;> exact h rfl

/-- A key of the graph. Where it is that of an edge it tells whether the edge is directed, as far as `exact` goes. -/
def Told (key : Key) (exact : Prop) : Prop :=
  OwnKey key ∧ (exact → ∀ e, edgeOf key = some e → looksDirected key = e.2.1)

/-- **What is deleted is taken off.** -/
theorem Tally.without {keys : List Key} {c : Counts} (h : Tally (key :: keys) c exact) (hk : Told key exact) :
    Tally keys (c.without key) exact := by
  obtain ⟨hn, he, hd⟩ := h
  obtain ⟨hk, htold⟩ := hk
  rw [List.countP_cons] at hn
  -- a node, a list, an edge or a counter
  rcases hk with ⟨id, -, rfl | rfl⟩ | ⟨u, d, v, hu, hv, -, rfl⟩ | hhead
  · have hno : edgeOf (nodeKey id) = none := edgeOf_eq_none (by simp [nodeKey])
    rw [List.filterMap_cons_none hno] at he hd
    refine ⟨?_, he, hd⟩
    have hw : (c.without (nodeKey id)).nodes = c.nodes - 1 := rfl
    rw [hw, hn, show isNodeKey (nodeKey id) = true from rfl, if_pos rfl]
    omega
  · have hno : edgeOf (adjKey id) = none := edgeOf_eq_none (by simp [adjKey])
    rw [List.filterMap_cons_none hno] at he hd
    exact ⟨hn, he, hd⟩
  · have hsome := edgeOf_generateEdgeKey (d := d) hu hv
    rw [List.filterMap_cons_some hsome, List.length_cons] at he
    rw [List.filterMap_cons_some hsome, List.countP_cons, place_directed] at hd
    have hw : c.without (generateEdgeKey u v d) = if looksDirected (generateEdgeKey u v d)
        then { c with edges := c.edges - 1, directed := c.directed - 1 } else { c with edges := c.edges - 1 } := by
      rw [generateEdgeKey_eq]
      rfl
    have hnode : isNodeKey (generateEdgeKey u v d) = false := by
      rw [isNodeKey, head?_generateEdgeKey]
      decide
    rw [hnode] at hn
    have hedges : c.edges - 1 = ((keys.filterMap edgeOf).length : ℤ) := by omega
    rw [hw]
    split
    · rename_i hlooks
      refine ⟨hn, hedges, fun hx => ?_⟩
      have hright := htold hx _ hsome
      rw [hlooks, place_directed] at hright
      have hdx := hd hx
      rw [← hright, if_pos rfl] at hdx
      dsimp only
      omega
    · rename_i hlooks
      refine ⟨hn, hedges, fun hx => ?_⟩
      have hright := htold hx _ hsome
      rw [Bool.not_eq_true] at hlooks
      rw [hlooks, place_directed] at hright
      have hdx := hd hx
      rw [← hright, if_neg Bool.false_ne_true] at hdx
      dsimp only
      omega
  · have hnode : isNodeKey key = false := by
      rw [isNodeKey, hhead]
      decide
    have hno : edgeOf key = none := edgeOf_eq_none (by rw [hhead]; decide)
    have hw : c.without key = c := by
      unfold Counts.without
      rw [hhead]
      rfl
    rw [hnode] at hn
    rw [List.filterMap_cons_none hno] at he hd
    rw [hw]
    exact ⟨hn, he, hd⟩

/-- **The counts of a tidy store** are those of its shape. -/
theorem Tally.counts {c : Counts} (ht : Tally db.table.keys c exact) (h : Maintained cfg db) (hm : Mirrors (db.look cfg) g) :
    c.nodes = g.nodes.card ∧ c.edges = g.edges.card ∧ (exact → c.directed = g.directed) := by
  refine ⟨?_, ?_, fun hx => ?_⟩
  · rw [ht.nodes, hm.card_nodes h]
  · rw [ht.edges, hm.card_edges h]
    rfl
  · rw [ht.directed hx, hm.card_directed h]
    rfl

/-- The counters of a tidy store. -/
theorem Tracks.tally (h : Tracks cfg db g exact) : ∃ c : ℕ, NumAt (db.look cfg) N_DIRECTED c ∧
    Tally db.table.keys ⟨g.nodes.card, g.edges.card, c⟩ exact := by
  obtain ⟨c, hc, hexact⟩ := h.nDirected
  refine ⟨c, hc, ?_, ?_, fun hx => ?_⟩
  · exact congrArg _ (h.mirrors.card_nodes h.kept)
  · exact congrArg _ (h.mirrors.card_edges h.kept)
  · exact congrArg _ ((hexact hx).trans (h.mirrors.card_directed h.kept))

end Graph

end OmniJsonDb
