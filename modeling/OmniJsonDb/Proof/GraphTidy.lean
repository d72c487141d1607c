import OmniJsonDb.Proof.GraphSound

/-!
# A tidy graph

What the update calls keep true of the records: each list holds the entries of the edges that are
stored. How a record more or less leaves it so.

* `edgeOf_edgeKey`, `generateEdgeKey_inj`: an edge and its key tell each other.
* `Entry`: an entry that the edges give the list of a node.
* `Tidy`: the invariant.
* `Tidy.link`, `Tidy.unlink`, `Tidy.isolate`: an edge comes, an edge goes, a node goes.
-/

namespace OmniJsonDb

namespace Graph

variable {P : Type} {id u v a b n : NodeId} {d e : Bool} {key : Key} {x : List Char} {kind : Char}

/-! ## Keys -/

/-- An id that the calls take. -/
def GoodId (id : NodeId) : Prop := id ≠ [] ∧ ':' ∉ id

theorem goodId_iff : badId id = false ↔ GoodId id := by
  unfold badId GoodId
  simp

/-- An edge as it is stored. -/
theorem generateEdgeKey_cases (u v : NodeId) (d : Bool) :
    generateEdgeKey u v d = edgeKey u d v ∨ d = false ∧ v < u ∧ generateEdgeKey u v d = edgeKey v d u := by
  unfold generateEdgeKey
  cases d with
  | true => exact .inl rfl
  | false =>
    by_cases h : v < u
    · exact .inr ⟨rfl, h, by simp [h]⟩
    · exact .inl (by simp [h])

/-- Behind an id without a colon stands the kind of the edge. -/
theorem edgeTail_append {dot : Char → Bool} (hdot : ∀ c, dot c = true) {rest : List Char} (hu : ':' ∉ u)
    (hrest : markAndLast dot (':' :: rest) = some (d, v)) : ∀ {seen : List Char}, seen ≠ [] ∨ u ≠ [] →
    edgeTail dot seen (u ++ ':' :: rest) = some (seen.reverse ++ u, d, v) := by
  induction u with
  | nil =>
    intro seen hne
    have hs : seen ≠ [] := hne.resolve_right fun h => h rfl
    rw [List.nil_append, List.append_nil, edgeTail, if_neg hs, hrest]
  | cons c u ih =>
    intro seen _
    obtain ⟨hc, hu⟩ := not_or.1 (List.mem_cons.not.1 hu)
    have hno : (if seen = [] then none else markAndLast dot (c :: (u ++ ':' :: rest))) = none := by
      split
      · rfl
      · rw [Option.eq_none_iff_forall_ne_some]
        rintro ⟨d', v'⟩ hm
        obtain ⟨-, -, hs | hs⟩ := markAndLast_eq_some.1 hm
        · exact hc (List.cons.inj hs).1.symm
        · exact hc (List.cons.inj hs).1.symm
    rw [List.cons_append, edgeTail, hno]
    dsimp only
    rw [if_pos (hdot c), ih hu (.inl (List.cons_ne_nil _ _)), List.reverse_cons, List.append_assoc]
    rfl

/-- **An edge is read off its key.** -/
theorem edgeOf_edgeKey (hu : GoodId u) (hv : v ≠ []) : edgeOf (edgeKey u d v) = some (u, d, v) := by
  have hmark : markAndLast (fun _ => true) (':' :: (mark d :: ':' :: v ++ [':'])) = some (d, v) :=
    markAndLast_eq_some.2 ⟨hv, fun _ _ => rfl, .inl rfl⟩
  have htail : edgeTail (fun _ => true) [] (u ++ ':' :: (mark d :: ':' :: v ++ [':'])) = some (u, d, v) :=
    edgeTail_append (fun _ => rfl) hu.2 hmark (.inr hu.1)
  unfold edgeOf
  rw [Option.bind_eq_bind, Option.bind_eq_some_iff]
  refine ⟨u ++ ':' :: (mark d :: ':' :: v ++ [':']), behind_eq_some.2 ?_, htail⟩
  simp [edgeKey]

theorem edgeKey_inj (hu : GoodId u) (ha : GoodId a) (hv : v ≠ []) (hb : b ≠ [])
    (h : edgeKey u d v = edgeKey a e b) : u = a ∧ d = e ∧ v = b := by
  have he := edgeOf_edgeKey (d := d) hu hv
  rw [h, edgeOf_edgeKey ha hb] at he
  cases he
  exact ⟨rfl, rfl, rfl⟩

theorem generateEdgeKey_inj (hu : GoodId u) (hv : GoodId v) (ha : GoodId a) (hb : GoodId b)
    (h : generateEdgeKey u v d = generateEdgeKey a b e) :
    (a = u ∧ e = d ∧ b = v) ∨ (d = false ∧ e = false ∧ a = v ∧ b = u) := by
  rcases generateEdgeKey_cases u v d with h₁ | ⟨rfl, -, h₁⟩ <;>
    rcases generateEdgeKey_cases a b e with h₂ | ⟨rfl, -, h₂⟩ <;> rw [h₁, h₂] at h
  · obtain ⟨rfl, rfl, rfl⟩ := edgeKey_inj hu ha hv.1 hb.1 h
    exact .inl ⟨rfl, rfl, rfl⟩
  · obtain ⟨rfl, rfl, rfl⟩ := edgeKey_inj hu hb hv.1 ha.1 h
    exact .inr ⟨rfl, rfl, rfl, rfl⟩
  · obtain ⟨rfl, rfl, rfl⟩ := edgeKey_inj hv ha hu.1 hb.1 h
    exact .inr ⟨rfl, rfl, rfl, rfl⟩
  · obtain ⟨rfl, -, rfl⟩ := edgeKey_inj hv hb hu.1 ha.1 h
    exact .inl ⟨rfl, rfl, rfl⟩

/-- An id without a colon ends at the first one. -/
theorem colon_split {r s : List Char} (hu : ':' ∉ u) (ha : ':' ∉ a) (h : u ++ ':' :: r = a ++ ':' :: s) :
    u = a ∧ r = s := by
  induction u generalizing a with
  | nil =>
    cases a with
    | nil => exact ⟨rfl, (List.cons.inj h).2⟩
    | cons c a => exact absurd (List.mem_cons.2 (.inl (List.cons.inj h).1)) ha
  | cons c u ih =>
    cases a with
    | nil => exact absurd (List.mem_cons.2 (.inl (List.cons.inj h).1.symm)) hu
    | cons c' a =>
      obtain ⟨hc, htail⟩ := List.cons.inj h
      obtain ⟨rfl, rfl⟩ :=
        ih (fun hm => hu (List.mem_cons_of_mem _ hm)) (fun hm => ha (List.mem_cons_of_mem _ hm)) htail
      exact ⟨by rw [hc], rfl⟩

/-- The key of an edge has four colons and those of its ids. -/
theorem count_edgeKey (u v : NodeId) (d : Bool) : (edgeKey u d v).count ':' = 4 + u.count ':' + v.count ':' := by
  cases d <;> simp [edgeKey, mark] <;> omega

/-- What is stored under the key of an edge is asked for by its ids. -/
theorem goodId_of_edgeKey (ha : GoodId a) (hb : GoodId b) (h : edgeKey u d v = edgeKey a e b) :
    GoodId u ∧ GoodId v := by
  have hcount := congrArg (List.count ':') h
  rw [count_edgeKey, count_edgeKey, List.count_eq_zero_of_not_mem ha.2, List.count_eq_zero_of_not_mem hb.2] at hcount
  have hu : ':' ∉ u := List.count_eq_zero.1 (by omega)
  have hv : ':' ∉ v := List.count_eq_zero.1 (by omega)
  have hsplit : u ++ ':' :: (mark d :: ':' :: v ++ [':']) = a ++ ':' :: (mark e :: ':' :: b ++ [':']) := by
    have h' : 'E' :: ':' :: (u ++ ':' :: (mark d :: ':' :: v ++ [':'])) =
        'E' :: ':' :: (a ++ ':' :: (mark e :: ':' :: b ++ [':'])) := by simpa [edgeKey] using h
    exact (List.cons.inj (List.cons.inj h').2).2
  obtain ⟨rfl, hrest⟩ := colon_split hu ha.2 hsplit
  have hrest : v ++ ':' :: [] = b ++ ':' :: [] := (List.cons.inj (List.cons.inj hrest).2).2
  obtain ⟨rfl, -⟩ := colon_split hv hb.2 hrest
  exact ⟨ha, hb⟩

theorem goodId_of_generateEdgeKey (ha : GoodId a) (hb : GoodId b) (h : generateEdgeKey u v d = generateEdgeKey a b e) :
    GoodId u ∧ GoodId v := by
  rcases generateEdgeKey_cases u v d with h₁ | ⟨-, -, h₁⟩ <;>
    rcases generateEdgeKey_cases a b e with h₂ | ⟨-, -, h₂⟩ <;> rw [h₁, h₂] at h
  · exact goodId_of_edgeKey ha hb h
  · exact goodId_of_edgeKey hb ha h
  · exact (goodId_of_edgeKey ha hb h).symm
  · exact (goodId_of_edgeKey hb ha h).symm

/-! ## Edges and entries -/

/-- Which edges there are. -/
abbrev Edges := NodeId → Bool → NodeId → Prop

/-- The entries of the list of `id`. -/
def Entry (E : Edges) (id : NodeId) (x : List Char) : Prop :=
  ∃ d n, x = outEntry d n ∧ E id d n ∨ x = inEntry d n ∧ E n d id

/-- The same edge, an undirected one also from the other end. -/
def SameEdge (u : NodeId) (d : Bool) (v : NodeId) : Edges := fun a e b =>
  (a = u ∧ e = d ∧ b = v) ∨ (d = false ∧ e = false ∧ a = v ∧ b = u)

theorem outEntry_inj (h : outEntry d v = outEntry e b) : d = e ∧ v = b := by
  unfold outEntry at h
  obtain ⟨hc, rfl⟩ := List.cons.inj h
  cases d <;> cases e <;> simp_all

theorem inEntry_inj (h : inEntry d v = inEntry e b) : d = e ∧ v = b := by
  unfold inEntry at h
  obtain ⟨hc, rfl⟩ := List.cons.inj h
  cases d <;> cases e <;> simp_all

/-- The two ends of an undirected edge look alike. -/
theorem outEntry_eq_inEntry (h : outEntry d v = inEntry e b) : d = false ∧ e = false ∧ v = b := by
  unfold outEntry inEntry at h
  obtain ⟨hc, rfl⟩ := List.cons.inj h
  cases d <;> cases e <;> simp_all

/-- The entries of one edge. -/
def EntryOf (u : NodeId) (d : Bool) (v id : NodeId) (x : List Char) : Prop :=
  (id = u ∧ x = outEntry d v) ∨ (id = v ∧ x = inEntry d u)

theorem entry_sameEdge : Entry (SameEdge u d v) id x ↔ EntryOf u d v id x := by
  constructor
  · rintro ⟨e, n, ⟨rfl, ⟨rfl, rfl, rfl⟩ | ⟨rfl, rfl, rfl, rfl⟩⟩ | ⟨rfl, ⟨rfl, rfl, rfl⟩ | ⟨rfl, rfl, rfl, rfl⟩⟩⟩
    · exact .inl ⟨rfl, rfl⟩
    · exact .inr ⟨rfl, rfl⟩
    · exact .inr ⟨rfl, rfl⟩
    · exact .inl ⟨rfl, rfl⟩
  · rintro (⟨rfl, rfl⟩ | ⟨rfl, rfl⟩)
    · exact ⟨d, v, .inl ⟨rfl, .inl ⟨rfl, rfl, rfl⟩⟩⟩
    · exact ⟨d, u, .inr ⟨rfl, .inl ⟨rfl, rfl, rfl⟩⟩⟩

/-- One edge more. -/
theorem entry_add {E : Edges} : Entry (fun a e b => E a e b ∨ SameEdge u d v a e b) id x ↔
    Entry E id x ∨ EntryOf u d v id x := by
  rw [← entry_sameEdge]
  constructor
  · rintro ⟨e, n, ⟨rfl, h | h⟩ | ⟨rfl, h | h⟩⟩
    · exact .inl ⟨e, n, .inl ⟨rfl, h⟩⟩
    · exact .inr ⟨e, n, .inl ⟨rfl, h⟩⟩
    · exact .inl ⟨e, n, .inr ⟨rfl, h⟩⟩
    · exact .inr ⟨e, n, .inr ⟨rfl, h⟩⟩
  · rintro (⟨e, n, ⟨rfl, h⟩ | ⟨rfl, h⟩⟩ | ⟨e, n, ⟨rfl, h⟩ | ⟨rfl, h⟩⟩)
    · exact ⟨e, n, .inl ⟨rfl, .inl h⟩⟩
    · exact ⟨e, n, .inr ⟨rfl, .inl h⟩⟩
    · exact ⟨e, n, .inl ⟨rfl, .inr h⟩⟩
    · exact ⟨e, n, .inr ⟨rfl, .inr h⟩⟩

/-- An entry tells the edge. -/
theorem sameEdge_of_entryOf : (EntryOf u d v id (outEntry e a) ↔ SameEdge u d v id e a) ∧
    (EntryOf u d v id (inEntry e a) ↔ SameEdge u d v a e id) := by
  refine ⟨⟨?_, ?_⟩, ⟨?_, ?_⟩⟩
  · rintro (⟨rfl, h⟩ | ⟨rfl, h⟩)
    · obtain ⟨rfl, rfl⟩ := outEntry_inj h
      exact .inl ⟨rfl, rfl, rfl⟩
    · obtain ⟨rfl, rfl, rfl⟩ := outEntry_eq_inEntry h
      exact .inr ⟨rfl, rfl, rfl, rfl⟩
  · rintro (⟨rfl, rfl, rfl⟩ | ⟨rfl, rfl, rfl, rfl⟩)
    · exact .inl ⟨rfl, rfl⟩
    · exact .inr ⟨rfl, rfl⟩
  · rintro (⟨rfl, h⟩ | ⟨rfl, h⟩)
    · obtain ⟨rfl, rfl, rfl⟩ := outEntry_eq_inEntry h.symm
      exact .inr ⟨rfl, rfl, rfl, rfl⟩
    · obtain ⟨rfl, rfl⟩ := inEntry_inj h
      exact .inl ⟨rfl, rfl, rfl⟩
  · rintro (⟨rfl, rfl, rfl⟩ | ⟨rfl, rfl, rfl, rfl⟩)
    · exact .inr ⟨rfl, rfl⟩
    · exact .inl ⟨rfl, rfl⟩

/-- One edge less. -/
theorem entry_remove {E : Edges} : Entry (fun a e b => E a e b ∧ ¬ SameEdge u d v a e b) id x ↔
    Entry E id x ∧ ¬ EntryOf u d v id x := by
  constructor
  · rintro ⟨e, n, ⟨rfl, h, hno⟩ | ⟨rfl, h, hno⟩⟩
    · exact ⟨⟨e, n, .inl ⟨rfl, h⟩⟩, fun ho => hno (sameEdge_of_entryOf.1.1 ho)⟩
    · exact ⟨⟨e, n, .inr ⟨rfl, h⟩⟩, fun ho => hno (sameEdge_of_entryOf.2.1 ho)⟩
  · rintro ⟨⟨e, n, ⟨rfl, h⟩ | ⟨rfl, h⟩⟩, hno⟩
    · exact ⟨e, n, .inl ⟨rfl, h, fun hs => hno (sameEdge_of_entryOf.1.2 hs)⟩⟩
    · exact ⟨e, n, .inr ⟨rfl, h, fun hs => hno (sameEdge_of_entryOf.2.2 hs)⟩⟩

/-! ## A tidy graph -/

variable {look look' : Look P} {w : Val P} {es es' : List (List Char)}

/-- The edges that are stored. -/
def Edged (look : Look P) : Edges := fun u d v => GoodId u ∧ GoodId v ∧ (look (generateEdgeKey u v d)).isSome = true

theorem Edged.symm (h : Edged look u false v) : Edged look v false u := by
  obtain ⟨hu, hv, h⟩ := h
  exact ⟨hv, hu, generateEdgeKey_comm ▸ h⟩

/-- A key of a node, of a list, of an edge or of a counter. -/
def OwnKey (key : Key) : Prop :=
  (∃ id, GoodId id ∧ (key = nodeKey id ∨ key = adjKey id)) ∨
    (∃ u d v, GoodId u ∧ GoodId v ∧ u ≠ v ∧ key = generateEdgeKey u v d) ∨ key.head? = some '#'

/-- **What the calls leave behind**: under the keys they build, each list holds the entries of the stored
edges, once each, and the ends of an edge are nodes. -/
structure Tidy (look : Look P) : Prop where
  keys : ∀ key v, look key = some v → OwnKey key
  lists : ∀ id, ∃ es, ListAt look id es ∧ es.Nodup ∧ ∀ x, x ∈ es ↔ Entry (Edged look) id x
  ends : ∀ u d v, Edged look u d v → (look (nodeKey u)).isSome = true ∧ (look (nodeKey v)).isSome = true

theorem ListAt.unique (h : ListAt look id es) (h' : ListAt look id es') : es = es' := by
  rcases h with h | ⟨h, rfl⟩
  · rcases h' with h' | ⟨h', -⟩
    · rw [h] at h'
      cases h'
      rfl
    · rw [h] at h'
      cases h'
  · rcases h' with h' | ⟨-, rfl⟩
    · rw [h] at h'
      cases h'
    · rfl

theorem tidy_none : Tidy (fun _ => none : Look P) where
  keys _ _ h := by cases h
  lists id := by
    refine ⟨[], .inr ⟨rfl, rfl⟩, List.nodup_nil, fun x => ⟨fun h => absurd h List.not_mem_nil, ?_⟩⟩
    rintro ⟨d, n, ⟨-, -, -, h⟩ | ⟨-, -, -, h⟩⟩ <;> cases h
  ends u d v h := by cases h.2.2

/-- The edges stay what they are, and so do the lists; there may be more nodes. -/
theorem Tidy.mono (h : Tidy look) (hkeys : ∀ key v, look' key = some v → OwnKey key)
    (hedge : ∀ u v d, (look' (generateEdgeKey u v d)).isSome = (look (generateEdgeKey u v d)).isSome)
    (hadj : ∀ id, look' (adjKey id) = look (adjKey id))
    (hnode : ∀ id, (look (nodeKey id)).isSome = true → (look' (nodeKey id)).isSome = true) : Tidy look' := by
  have he : Edged look' = Edged look := by
    funext u d v
    unfold Edged
    rw [hedge]
  refine ⟨hkeys, fun id => ?_, fun u d v hed => ?_⟩
  · obtain ⟨es, hl, hes⟩ := h.lists id
    rw [he]
    refine ⟨es, ?_, hes⟩
    unfold ListAt
    rw [hadj]
    exact hl
  · rw [he] at hed
    obtain ⟨hu, hv⟩ := h.ends u d v hed
    exact ⟨hnode u hu, hnode v hv⟩

/-- The edges of `look` with those of `E` added or taken away, and the lists that go with them. -/
theorem Tidy.relist {E : Edges} (h : Tidy look) (he : ∀ u d v, Edged look' u d v ↔ E u d v)
    (hkeys : ∀ key v, look' key = some v → OwnKey key)
    (hlists : ∀ id es, ListAt look id es → es.Nodup → (∀ x, x ∈ es ↔ Entry (Edged look) id x) →
      ∃ es', ListAt look' id es' ∧ es'.Nodup ∧ ∀ x, x ∈ es' ↔ Entry E id x)
    (hends : ∀ u d v, E u d v → (look' (nodeKey u)).isSome = true ∧ (look' (nodeKey v)).isSome = true) :
    Tidy look' := by
  have hE : Edged look' = E := by
    funext u d v
    exact propext (he u d v)
  refine ⟨hkeys, fun id => ?_, fun u d v hed => hends u d v (hE ▸ hed)⟩
  obtain ⟨es, hl, hn, hes⟩ := h.lists id
  rw [hE]
  exact hlists id es hl hn hes

/-- What holds of the records after an edge has come or gone: the edge, the two lists, and the rest. -/
structure EndsEdited (look look' : Look P) (u : NodeId) (d : Bool) (v : NodeId)
    (f g : List (List Char) → List (List Char)) : Prop where
  fromList : ∀ es, ListAt look u es → look' (adjKey u) = some (.adj (f es))
  toList : ∀ es, ListAt look v es → look' (adjKey v) = some (.adj (g es))
  rest : ∀ k, k.head? ≠ some '#' → k ≠ adjKey u → k ≠ adjKey v → k ≠ generateEdgeKey u v d → look' k = look k

theorem head?_generateEdgeKey : (generateEdgeKey u v d).head? = some 'E' := by
  rcases generateEdgeKey_cases u v d with h | ⟨-, -, h⟩ <;> rw [h] <;> rfl

theorem adjKey_ne_generateEdgeKey : adjKey id ≠ generateEdgeKey u v d := by
  intro h
  have := congrArg List.head? h
  rw [head?_generateEdgeKey] at this
  cases this

theorem nodeKey_ne_generateEdgeKey : nodeKey id ≠ generateEdgeKey u v d := by
  intro h
  have := congrArg List.head? h
  rw [head?_generateEdgeKey] at this
  cases this

theorem EndsEdited.node {f g} (h : EndsEdited look look' u d v f g) (id : NodeId) :
    look' (nodeKey id) = look (nodeKey id) :=
  h.rest _ (by simp [nodeKey]) (by simp [nodeKey, adjKey]) (by simp [nodeKey, adjKey]) nodeKey_ne_generateEdgeKey

theorem EndsEdited.list {f g} (h : EndsEdited look look' u d v f g) {id : NodeId} (hu : id ≠ u) (hv : id ≠ v) :
    look' (adjKey id) = look (adjKey id) :=
  h.rest _ (by simp [adjKey]) (fun hk => hu (adjKey_inj hk)) (fun hk => hv (adjKey_inj hk)) adjKey_ne_generateEdgeKey

theorem EndsEdited.ownKey {f g} (h : EndsEdited look look' u d v f g) (ht : Tidy look) (hu : GoodId u)
    (hv : GoodId v) (hne : u ≠ v) (key : Key) (x : Val P) (hx : look' key = some x) : OwnKey key := by
  by_cases h1 : key.head? = some '#'
  · exact .inr (.inr h1)
  by_cases h2 : key = adjKey u
  · exact .inl ⟨u, hu, .inr h2⟩
  by_cases h3 : key = adjKey v
  · exact .inl ⟨v, hv, .inr h3⟩
  by_cases h4 : key = generateEdgeKey u v d
  · exact .inr (.inl ⟨u, d, v, hu, hv, hne, h4⟩)
  · rw [h.rest key h1 h2 h3 h4] at hx
    exact ht.keys key x hx

/-- Another edge stays. -/
theorem EndsEdited.edge {f g} (h : EndsEdited look look' u d v f g) (hu : GoodId u) (hv : GoodId v)
    (ha : GoodId a) (hb : GoodId b) (hno : ¬ SameEdge u d v a e b) :
    look' (generateEdgeKey a b e) = look (generateEdgeKey a b e) := by
  refine h.rest _ ?_ adjKey_ne_generateEdgeKey.symm adjKey_ne_generateEdgeKey.symm ?_
  · rw [head?_generateEdgeKey]
    decide
  · intro hk
    exact hno (generateEdgeKey_inj hu hv ha hb hk.symm)

theorem generateEdgeKey_of_sameEdge (h : SameEdge u d v a e b) : generateEdgeKey a b e = generateEdgeKey u v d := by
  rcases h with ⟨rfl, rfl, rfl⟩ | ⟨rfl, rfl, rfl, rfl⟩
  · rfl
  · exact generateEdgeKey_comm

/-- An edge that is not stored is in no list. -/
theorem not_entry_of_none (hno : look (generateEdgeKey u v d) = none) (hx : EntryOf u d v id x) :
    ¬ Entry (Edged look) id x := by
  have hold : ∀ a e b, SameEdge u d v a e b → ¬ Edged look a e b := by
    intro a e b hs hed
    have := hed.2.2
    rw [generateEdgeKey_of_sameEdge hs, hno] at this
    cases this
  rintro ⟨e, n, ⟨rfl, hed⟩ | ⟨rfl, hed⟩⟩
  · exact hold _ _ _ (sameEdge_of_entryOf.1.1 hx) hed
  · exact hold _ _ _ (sameEdge_of_entryOf.2.1 hx) hed

theorem SameEdge.good (hs : SameEdge u d v a e b) (hu : GoodId u) (hv : GoodId v) : GoodId a ∧ GoodId b := by
  rcases hs with ⟨rfl, -, rfl⟩ | ⟨-, -, rfl, rfl⟩
  · exact ⟨hu, hv⟩
  · exact ⟨hv, hu⟩

/-- One edge more. -/
theorem EndsEdited.edged_link {f g} (h : EndsEdited look look' u d v f g) (hu : GoodId u) (hv : GoodId v)
    (hedge : (look' (generateEdgeKey u v d)).isSome = true) :
    Edged look' a e b ↔ Edged look a e b ∨ SameEdge u d v a e b := by
  by_cases hs : SameEdge u d v a e b
  · obtain ⟨ha, hb⟩ := hs.good hu hv
    refine iff_of_true ⟨ha, hb, ?_⟩ (.inr hs)
    rw [generateEdgeKey_of_sameEdge hs]
    exact hedge
  · rw [or_iff_left hs]
    constructor
    · rintro ⟨ha, hb, hk⟩
      exact ⟨ha, hb, h.edge hu hv ha hb hs ▸ hk⟩
    · rintro ⟨ha, hb, hk⟩
      exact ⟨ha, hb, (h.edge hu hv ha hb hs).symm ▸ hk⟩

/-- One edge less. -/
theorem EndsEdited.edged_unlink {f g} (h : EndsEdited look look' u d v f g) (hu : GoodId u) (hv : GoodId v)
    (hedge : look' (generateEdgeKey u v d) = none) :
    Edged look' a e b ↔ Edged look a e b ∧ ¬ SameEdge u d v a e b := by
  by_cases hs : SameEdge u d v a e b
  · refine iff_of_false ?_ fun hed => hed.2 hs
    rintro ⟨-, -, hk⟩
    rw [generateEdgeKey_of_sameEdge hs, hedge] at hk
    cases hk
  · rw [and_iff_left hs]
    constructor
    · rintro ⟨ha, hb, hk⟩
      exact ⟨ha, hb, h.edge hu hv ha hb hs ▸ hk⟩
    · rintro ⟨ha, hb, hk⟩
      exact ⟨ha, hb, (h.edge hu hv ha hb hs).symm ▸ hk⟩

/-- **An edge comes.** -/
theorem Tidy.link (h : Tidy look) (hu : GoodId u) (hv : GoodId v) (hne : u ≠ v)
    (hno : look (generateEdgeKey u v d) = none)
    (hnu : (look (nodeKey u)).isSome = true) (hnv : (look (nodeKey v)).isSome = true)
    (hl : EndsEdited look look' u d v (fun es => es ++ [outEntry d v]) fun es => es ++ [inEntry d u])
    (hedge : (look' (generateEdgeKey u v d)).isSome = true) : Tidy look' := by
  have hnot : ∀ id x, EntryOf u d v id x → ¬ Entry (Edged look) id x := fun id x => not_entry_of_none hno
  refine h.relist (fun _ _ _ => hl.edged_link hu hv hedge) (hl.ownKey h hu hv hne) ?_ ?_
  · intro id es hes hnd hmem
    -- the list of an end grows by its entry, which it did not hold
    have hgrow : ∀ y, EntryOf u d v id y → (∀ x, EntryOf u d v id x → x = y) →
        (es ++ [y]).Nodup ∧ ∀ x, x ∈ es ++ [y] ↔ Entry (fun a e b => Edged look a e b ∨ SameEdge u d v a e b) id x := by
      intro y hy huniq
      refine ⟨?_, ?_⟩
      · rw [List.nodup_append]
        refine ⟨hnd, List.nodup_singleton _, ?_⟩
        rintro x hx _ hy' rfl
        rw [List.mem_singleton] at hy'
        subst hy'
        exact hnot id x hy ((hmem x).1 hx)
      · intro x
        rw [entry_add, List.mem_append, List.mem_singleton, hmem]
        constructor
        · rintro (hx | rfl)
          · exact .inl hx
          · exact .inr hy
        · rintro (hx | hx)
          · exact .inl hx
          · exact .inr (huniq x hx)
    by_cases hidu : id = u
    · subst hidu
      refine ⟨_, .inl (hl.fromList es hes), hgrow _ (.inl ⟨rfl, rfl⟩) ?_⟩
      rintro x (⟨-, rfl⟩ | ⟨hid, -⟩)
      · rfl
      · exact absurd hid hne
    by_cases hidv : id = v
    · subst hidv
      refine ⟨_, .inl (hl.toList es hes), hgrow _ (.inr ⟨rfl, rfl⟩) ?_⟩
      rintro x (⟨hid, -⟩ | ⟨-, rfl⟩)
      · exact absurd hid hidu
      · rfl
    · refine ⟨es, ?_, hnd, ?_⟩
      · unfold ListAt
        rw [hl.list hidu hidv]
        exact hes
      · intro x
        rw [entry_add, hmem, or_iff_left]
        rintro (⟨hid, -⟩ | ⟨hid, -⟩)
        · exact hidu hid
        · exact hidv hid
  · intro a e b hed
    rw [hl.node, hl.node]
    rcases hed with hed | ⟨rfl, -, rfl⟩ | ⟨-, -, rfl, rfl⟩
    · exact h.ends a e b hed
    · exact ⟨hnu, hnv⟩
    · exact ⟨hnv, hnu⟩

/-- **An edge goes.** -/
theorem Tidy.unlink (h : Tidy look) (hu : GoodId u) (hv : GoodId v) (hne : u ≠ v)
    (hl : EndsEdited look look' u d v (fun es => es.erase (outEntry d v)) fun es => es.erase (inEntry d u))
    (hedge : look' (generateEdgeKey u v d) = none) : Tidy look' := by
  refine h.relist (fun _ _ _ => hl.edged_unlink hu hv hedge) (hl.ownKey h hu hv hne) ?_ ?_
  · intro id es hes hnd hmem
    have hshrink : ∀ y, EntryOf u d v id y → (∀ x, EntryOf u d v id x → x = y) →
        (es.erase y).Nodup ∧
          ∀ x, x ∈ es.erase y ↔ Entry (fun a e b => Edged look a e b ∧ ¬ SameEdge u d v a e b) id x := by
      intro y hy huniq
      refine ⟨hnd.erase y, ?_⟩
      intro x
      rw [entry_remove, hnd.mem_erase_iff, hmem, and_comm]
      refine and_congr_right fun _ => not_congr ⟨?_, huniq x⟩
      rintro rfl
      exact hy
    by_cases hidu : id = u
    · subst hidu
      refine ⟨_, .inl (hl.fromList es hes), hshrink _ (.inl ⟨rfl, rfl⟩) ?_⟩
      rintro x (⟨-, rfl⟩ | ⟨hid, -⟩)
      · rfl
      · exact absurd hid hne
    by_cases hidv : id = v
    · subst hidv
      refine ⟨_, .inl (hl.toList es hes), hshrink _ (.inr ⟨rfl, rfl⟩) ?_⟩
      rintro x (⟨hid, -⟩ | ⟨-, rfl⟩)
      · exact absurd hid hidu
      · rfl
    · refine ⟨es, ?_, hnd, ?_⟩
      · unfold ListAt
        rw [hl.list hidu hidv]
        exact hes
      · intro x
        rw [entry_remove, hmem, and_iff_left]
        rintro (⟨hid, -⟩ | ⟨hid, -⟩)
        · exact hidu hid
        · exact hidv hid
  · intro a e b hed
    rw [hl.node, hl.node]
    exact h.ends a e b hed.1

/-- What is stored as an edge joins two nodes. -/
theorem Tidy.ends_good (h : Tidy look) (he : (look (generateEdgeKey u v d)).isSome = true) :
    GoodId u ∧ GoodId v ∧ u ≠ v := by
  obtain ⟨x, hx⟩ := Option.isSome_iff_exists.1 he
  rcases h.keys _ x hx with ⟨id, -, hk | hk⟩ | ⟨a, e, b, ha, hb, hab, hk⟩ | hk
  · exact absurd hk.symm nodeKey_ne_generateEdgeKey
  · exact absurd hk.symm adjKey_ne_generateEdgeKey
  · obtain ⟨hu, hv⟩ := goodId_of_generateEdgeKey ha hb hk
    refine ⟨hu, hv, ?_⟩
    rcases generateEdgeKey_inj hu hv ha hb hk with ⟨rfl, -, rfl⟩ | ⟨-, -, rfl, rfl⟩
    · exact hab
    · exact hab.symm
  · rw [head?_generateEdgeKey] at hk
    cases hk

/-- The edges that do not meet `id`. -/
def Off (E : Edges) (id : NodeId) : Edges := fun a e b => E a e b ∧ a ≠ id ∧ b ≠ id

/-- The lists of the other nodes lose what names `id`. -/
theorem entry_off {E : Edges} {n : NodeId} (hn : n ≠ id) : Entry (Off E id) n x ↔ Entry E n x ∧ x.tail ≠ id := by
  constructor
  · rintro ⟨e, m, ⟨rfl, h, -, hm⟩ | ⟨rfl, h, hm, -⟩⟩
    · exact ⟨⟨e, m, .inl ⟨rfl, h⟩⟩, hm⟩
    · exact ⟨⟨e, m, .inr ⟨rfl, h⟩⟩, hm⟩
  · rintro ⟨⟨e, m, ⟨rfl, h⟩ | ⟨rfl, h⟩⟩, hm⟩
    · exact ⟨e, m, .inl ⟨rfl, h, hn, hm⟩⟩
    · exact ⟨e, m, .inr ⟨rfl, h, hm, hn⟩⟩

theorem not_entry_off {E : Edges} : ¬ Entry (Off E id) id x := by
  rintro ⟨e, m, ⟨-, -, h, -⟩ | ⟨-, -, -, h⟩⟩
  · exact h rfl
  · exact h rfl

/-- The list of another node without `id`. -/
abbrev without (id : NodeId) (es : List (List Char)) : List (List Char) := es.filter fun x => x.tail ≠ id

/-- What holds of the records after a node has gone. -/
structure Isolates (look look' : Look P) (id : NodeId) : Prop where
  keys : ∀ key v, look' key = some v → OwnKey key
  list : look' (adjKey id) = none
  node : ∀ n, n ≠ id → look' (nodeKey n) = look (nodeKey n)
  edge : ∀ a e b, Edged look' a e b ↔ Off (Edged look) id a e b
  lists : ∀ n es, n ≠ id → ListAt look n es → ListAt look' n (without id es)

/-- **A node goes**, with its edges. -/
theorem Tidy.isolate (h : Tidy look) (hi : Isolates look look' id) : Tidy look' := by
  refine h.relist hi.edge hi.keys ?_ ?_
  · intro n es hes hnd hmem
    by_cases hn : n = id
    · subst hn
      refine ⟨[], .inr ⟨hi.list, rfl⟩, List.nodup_nil, fun x => ?_⟩
      exact iff_of_false List.not_mem_nil not_entry_off
    · refine ⟨_, hi.lists n es hn hes, hnd.filter _, fun x => ?_⟩
      rw [List.mem_filter, entry_off hn, hmem, decide_eq_true_eq]
  · intro a e b hed
    rw [hi.node a hed.2.1, hi.node b hed.2.2]
    exact h.ends a e b hed.1

end Graph
end OmniJsonDb
