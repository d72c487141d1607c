import OmniJsonDb.Proof.Reindex

/-!
# What rebuilding repairs

A list tells a node its neighbours and its degree. The lists that edges imply tell what the edges
say, but for loops, and for edges that the patterns do not see.

* `answers_iff`: what `neighbors` and `degree` return is what the list tells.
* `tells_implied`: the lists that edges imply.
* `reindex_repaired`: exactly when drift is repaired.
-/

namespace OmniJsonDb

namespace Graph

open Exec

variable {P C : Type} {cfg : Config P C} {db db' : Db P C} {key : Key} {id u v : NodeId} {x : List Char}

/-! ## What a node is told -/

/-- `x` is at the other end of an edge of `id`. -/
def Adjacent (es : List Edge) (id x : NodeId) : Prop := ∃ e ∈ es, (e.1 = id ∧ e.2.2 = x) ∨ (e.2.2 = id ∧ e.1 = x)

/-- An edge of `id`. -/
def touches (id : NodeId) (e : Edge) : Bool := e.1 = id || e.2.2 = id

/-- A list with the neighbours that edges imply, and with one entry for each. -/
def Tells (es : List Edge) (id : NodeId) (entries : List (List Char)) : Prop :=
  (∀ x, x ∈ entries.map List.tail ↔ Adjacent es id x) ∧ [] ∉ entries ∧
    entries.countP (fun entry => entry.head? = some '<' || entry.head? = some '>' || entry.head? = some '-') =
      es.countP (touches id)

/-- `neighbors` and `degree` are what the edges say. -/
def Answers (cfg : Config P C) (db : Db P C) (id : NodeId) : Prop :=
  Wp (neighbors cfg id) db (fun ids _ => ∀ x, x ∈ ids ↔ Adjacent db.edges id x) (fun _ _ => False) ∧
    Wp (degree cfg id) db (fun d _ => d.total = db.edges.countP (touches id)) fun _ _ => False

theorem total_count (d : Degree) (c : Char) :
    (d.count c).total = d.total + if c = '<' ∨ c = '>' ∨ c = '-' then 1 else 0 := by
  unfold Degree.count Degree.total
  by_cases h₁ : c = '<'
  · simp only [h₁, if_true, true_or]; omega
  · by_cases h₂ : c = '>'
    · simp only [h₂, if_true, true_or, or_true]; simp; omega
    · by_cases h₃ : c = '-'
      · simp only [h₃, if_true, or_true]; simp; omega
      · simp [h₁, h₂, h₃]

/-- What `degree` counts. -/
theorem countEntries_iff (entries : List (List Char)) (d : Degree) (n : ℕ) :
    (∃ d', countEntries entries d = .ok d' ∧ d'.total = n) ↔ [] ∉ entries ∧ d.total + entries.countP
      (fun entry => entry.head? = some '<' || entry.head? = some '>' || entry.head? = some '-') = n := by
  induction entries generalizing d with
  | nil => simp [countEntries]
  | cons entry entries ih =>
    cases entry with
    | nil => simp [countEntries]
    | cons c cs =>
      rw [countEntries, ih, total_count, List.countP_cons]
      simp only [List.mem_cons, List.head?_cons, Option.some.injEq, Bool.or_eq_true, decide_eq_true_eq]
      simp only [or_assoc, reduceCtorEq, false_or]
      constructor
      · rintro ⟨h, rfl⟩
        exact ⟨h, by omega⟩
      · rintro ⟨h, rfl⟩
        exact ⟨h, by omega⟩

/-- A list that cannot be read. -/
theorem fGetAdj_raises (hc : Coherent cfg db) (h : ¬ ∃ entries, db.Lists cfg id entries) :
    ∃ e db', (fGetAdj cfg id).run db = (.error e, db') := by
  suffices hw : Wp (fGetAdj cfg id) db (fun _ _ => False) fun _ _ => True by
    obtain ⟨e, db', hrun, -⟩ := hw.raises
    exact ⟨e, db', hrun⟩
  unfold fGetAdj
  rw [wp_bind]
  refine wp_mono wp_fRead ?_ fun _ _ _ => trivial
  rintro w db' ⟨-, hw⟩
  rw [wp_lift]
  refine ⟨?_, fun _ _ => trivial⟩
  intro entries he
  have hwe : w = .adj entries := by
    cases w with
    | adj es =>
      obtain rfl := Except.ok.inj he
      rfl
    | props _ => cases he
    | num _ => cases he
  subst hwe
  refine h ⟨entries, ?_⟩
  rcases hw with hw | hw | ⟨hnone, hd, -⟩
  · exact .inl (hc.on _ derived_adjKey _ hw)
  · exact .inl hw
  · exact .inr ⟨hnone, hd⟩

/-- **What a node is told** is its list. -/
theorem answers_iff (hc : Coherent cfg db) (hn : db.holds (nodeKey id) = true) :
    Answers cfg db id ↔ ∃ entries, db.Lists cfg id entries ∧ Tells db.edges id entries := by
  have hdegree : ∀ {Q : Degree → Db P C → Prop} {E : Err → Db P C → Prop}, Wp (degree cfg id) db Q E ↔
      Wp (fGetAdj cfg id >>= fun adj => lift (countEntries adj ⟨0, 0, 0⟩)) db Q E := by
    intro Q E
    unfold degree
    rw [wp_bind, wp_get, if_pos hn]
  unfold Answers neighbors
  rw [hdegree]
  by_cases hl : ∃ entries, db.Lists cfg id entries
  · obtain ⟨entries, hl⟩ := hl
    obtain ⟨es, db₁, hrun, hes, -⟩ := (wp_fGetAdj hc hl).returns
    rw [hes] at hrun
    have htells : (∃ entries', db.Lists cfg id entries' ∧ Tells db.edges id entries') ↔ Tells db.edges id entries := by
      constructor
      · rintro ⟨entries', hl', h⟩
        obtain ⟨⟩ := hl.unique hl'
        exact h
      · intro h
        exact ⟨entries, hl, h⟩
    rw [wp_bind_of_run hrun, wp_bind_of_run hrun, wp_ret, wp_lift, htells]
    unfold Tells
    have hcount := countEntries_iff entries ⟨0, 0, 0⟩ (db.edges.countP (touches id))
    have hzero : (⟨0, 0, 0⟩ : Degree).total = 0 := rfl
    rw [hzero, Nat.zero_add] at hcount
    rw [← hcount]
    simp only [List.mem_dedup]
    refine and_congr_right fun _ => ?_
    cases hce : countEntries entries ⟨0, 0, 0⟩ with
    | ok d => simp
    | error e => simp
  · obtain ⟨e, db₁, hrun⟩ := fGetAdj_raises hc hl
    rw [wp_bind_of_raises hrun]
    constructor
    · rintro ⟨h, -⟩
      exact h.elim
    · rintro ⟨entries, h, -⟩
      exact (hl ⟨entries, h⟩).elim

/-! ## Lists that edges imply -/

theorem adjacent_filter {es : List Edge} : Adjacent es id v ↔ Adjacent (es.filter (touches id)) id v := by
  unfold Adjacent
  constructor
  · rintro ⟨e, he, h⟩
    refine ⟨e, List.mem_filter.2 ⟨he, ?_⟩, h⟩
    rcases h with ⟨h, -⟩ | ⟨h, -⟩ <;> simp [touches, h]
  · rintro ⟨e, he, h⟩
    exact ⟨e, (List.mem_filter.1 he).1, h⟩

/-- Only the edges of a node matter to it. -/
theorem tells_congr {es es' : List Edge} {entries : List (List Char)}
    (h : es.filter (touches id) = es'.filter (touches id)) : Tells es id entries ↔ Tells es' id entries := by
  have hadj : ∀ x, Adjacent es id x ↔ Adjacent es' id x := by
    intro x
    rw [adjacent_filter, h, ← adjacent_filter]
  have hcount : es.countP (touches id) = es'.countP (touches id) := by
    rw [List.countP_eq_length_filter, h, ← List.countP_eq_length_filter]
  unfold Tells
  simp only [hadj, hcount]

theorem mem_tail_implied {es : List Edge} : v ∈ (implied id es).map List.tail ↔ Adjacent es id v := by
  simp only [List.mem_map, mem_implied, mem_entriesAt, Adjacent]
  constructor
  · rintro ⟨x, ⟨e, he, ⟨h, rfl⟩ | ⟨h, rfl⟩⟩, rfl⟩
    · exact ⟨e, he, .inl ⟨h, rfl⟩⟩
    · exact ⟨e, he, .inr ⟨h, rfl⟩⟩
  · rintro ⟨e, he, ⟨h, rfl⟩ | ⟨h, rfl⟩⟩
    · exact ⟨_, ⟨e, he, .inl ⟨h, rfl⟩⟩, rfl⟩
    · exact ⟨_, ⟨e, he, .inr ⟨h, rfl⟩⟩, rfl⟩

/-- An entry starts with its kind. -/
theorem kind_of_implied {es : List Edge} (h : x ∈ implied id es) :
    (x.head? = some '<' || x.head? = some '>' || x.head? = some '-') = true := by
  obtain ⟨e, -, hx⟩ := mem_implied.1 h
  rcases mem_entriesAt.1 hx with ⟨-, rfl⟩ | ⟨-, rfl⟩ <;> cases e.2.1 <;> rfl

/-- An edge has one entry in the list of either end, so a loop has two in the list of its node. -/
theorem length_implied (es : List Edge) : (implied id es).length =
    es.countP (touches id) + es.countP fun e => e.1 = id && e.2.2 = id := by
  induction es with
  | nil => rfl
  | cons e es ih =>
    rw [implied_cons, List.length_append, ih, List.countP_cons, List.countP_cons]
    unfold entriesAt touches
    by_cases h₁ : e.1 = id <;> by_cases h₂ : e.2.2 = id <;> simp [h₁, h₂] <;> omega

/-- **What edges imply is what they say**, but for loops. -/
theorem tells_implied {es : List Edge} : Tells es id (implied id es) ↔ ∀ e ∈ es, ¬ (e.1 = id ∧ e.2.2 = id) := by
  have hkind : (implied id es).countP (fun entry => entry.head? = some '<' || entry.head? = some '>' || entry.head? = some '-')
      = (implied id es).length := by
    rw [List.countP_eq_length]
    intro x hx
    exact kind_of_implied hx
  have hnil : [] ∉ implied id es := by
    intro h
    have := kind_of_implied h
    simp at this
  unfold Tells
  rw [hkind, length_implied]
  constructor
  · rintro ⟨-, -, h⟩ e he hloop
    have hzero : es.countP (fun e => e.1 = id && e.2.2 = id) = 0 := by omega
    rw [List.countP_eq_zero] at hzero
    exact hzero e he (by simp [hloop.1, hloop.2])
  · intro h
    have hzero : es.countP (fun e => e.1 = id && e.2.2 = id) = 0 := by
      rw [List.countP_eq_zero]
      intro e he hloop
      exact h e he (by simpa using hloop)
    exact ⟨fun x => mem_tail_implied, hnil, by omega⟩

/-! ## Edges that are not seen -/

/-- Where the edges that are not seen are not its own, a node's edges are seen. -/
theorem filter_touches_seen {keys : List Key}
    (h : ∀ key ∈ keys, ∀ e, edgeMatch key = none → edgeOf key = some e → touches id e = false) :
    (keys.filterMap edgeOf).filter (touches id) = (keys.filterMap edgeMatch).filter (touches id) := by
  induction keys with
  | nil => rfl
  | cons key keys ih =>
    have ih := ih fun k hk => h k (List.mem_cons_of_mem _ hk)
    cases hm : edgeMatch key with
    | some e =>
      obtain ⟨u, d, v⟩ := e
      rw [List.filterMap_cons_some hm, List.filterMap_cons_some (edgeMatch_edgeOf hm), List.filter_cons, List.filter_cons, ih]
    | none =>
      rw [List.filterMap_cons_none hm, ← ih]
      cases ho : edgeOf key with
      | none => rw [List.filterMap_cons_none ho]
      | some e => rw [List.filterMap_cons_some ho, List.filter_cons_of_neg (by simp [h key List.mem_cons_self e hm ho])]

theorem head?_of_edgeOf {e : Edge} (h : edgeOf key = some e) : key.head? = some 'E' := by
  obtain ⟨u, d, v⟩ := e
  obtain ⟨-, -, hk⟩ := edgeOf_eq_some h
  rcases hk with rfl | rfl <;> rfl

/-- An edge of an id that is not seen is not seen, so it stays. -/
theorem not_old_of_touches {e : Edge} (hid : ¬ Seen id) (ho : edgeOf key = some e) (ht : touches id e = true) :
    db.old key = false := by
  have hm : adjMatch key = none := eq_none_of_head? head?_of_adjMatch head?_of_edgeOf (by decide) ho
  have he : edgeMatch key = none := by
    rw [Option.eq_none_iff_forall_ne_some]
    rintro ⟨u, d, v⟩ he
    obtain rfl := Option.some.inj (ho.symm.trans (edgeMatch_edgeOf he))
    obtain ⟨hu, hv⟩ := edgeMatch_seen he
    simp only [touches, Bool.or_eq_true, decide_eq_true_eq] at ht
    rcases ht with rfl | rfl
    · exact hid hu
    · exact hid hv
  simp [Db.old, hm, he]

theorem filter_touches_unseen {keys : List Key} (hid : ¬ Seen id) :
    ((keys.filter fun k => !db.old k).filterMap edgeOf).filter (touches id) =
      (keys.filterMap edgeOf).filter (touches id) := by
  induction keys with
  | nil => rfl
  | cons key keys ih =>
    cases ho : edgeOf key with
    | none =>
      rw [List.filterMap_cons_none ho, ← ih, List.filter_cons]
      split
      · rw [List.filterMap_cons_none ho]
      · rfl
    | some e =>
      rw [List.filterMap_cons_some ho, List.filter_cons, List.filter_cons]
      cases ht : touches id e with
      | true =>
        rw [not_old_of_touches hid ho ht, Bool.not_false, if_pos rfl, List.filterMap_cons_some ho,
          List.filter_cons_of_pos ht, ih]
        rfl
      | false =>
        split
        · rw [List.filterMap_cons_some ho, List.filter_cons_of_neg (by simp [ht]), ih]
          rfl
        · rw [ih]
          rfl

/-! ## When drift is repaired -/

/-- What rebuilding can mend: no edge that is seen is a loop at a node, an edge that is not seen joins
two nodes that are not seen, and the list of such a node is already what the edges say. -/
structure Mendable (cfg : Config P C) (db : Db P C) : Prop where
  noLoop : ∀ key ∈ db.table.keys, ∀ u d, edgeMatch key = some (u, d, u) → db.holds (nodeKey u) = false
  unseen : ∀ key ∈ db.table.keys, ∀ u d v, edgeMatch key = none → edgeOf key = some (u, d, v) →
    db.joins (u, d, v) = true ∧ ¬ Seen u ∧ ¬ Seen v
  lists : ∀ id, id ≠ [] → ¬ Seen id → db.holds (nodeKey id) = true →
    ∃ entries, db.Lists cfg id entries ∧ Tells db.edges id entries

/-- Drift is repaired: the report is clean, nodes and edges between nodes are as they were, edges with
a missing end are gone, each node is told what the edges say, and doing it again changes nothing. -/
structure Repaired [DecidableEq C] (cfg : Config P C) (db db' : Db P C) : Prop where
  clean : Wp (verifyIndex cfg) db' (fun r _ => r.Clean) fun _ _ => False
  nodes : ∀ key, key.head? = some 'N' → db'.table.get? key = db.table.get? key
  edges : ∀ key e, edgeOf key = some e → db.joins e = true → db'.table.get? key = db.table.get? key
  gone : ∀ key e, edgeOf key = some e → db.joins e = false → db'.table.get? key = none
  answers : ∀ id, id ≠ [] → db'.holds (nodeKey id) = true → Answers cfg db' id
  again : Wp (reindex cfg) db' (fun _ db'' => ∀ key, db''.look cfg key = db'.look cfg key ∧
    db''.holds key = db'.holds key) fun _ _ => False

theorem edgeOf_eq_of_edgeMatch {e e' : Edge} (h : edgeMatch key = some e) (h' : edgeOf key = some e') : e = e' := by
  obtain ⟨u, d, v⟩ := e
  exact Option.some.inj ((edgeMatch_edgeOf h).symm.trans h')

/-- An edge between nodes stays. -/
theorem not_old_of_joins {e : Edge} (ho : edgeOf key = some e) (hj : db.joins e = true) : db.old key = false := by
  have hm : adjMatch key = none := eq_none_of_head? head?_of_adjMatch head?_of_edgeOf (by decide) ho
  cases he : edgeMatch key with
  | none => simp [Db.old, hm, he]
  | some e' =>
    obtain rfl := edgeOf_eq_of_edgeMatch he ho
    simp [Db.old, hm, he, hj]

theorem not_counter_of_head? {c : Char} (h : key.head? = some c) (hc : c ≠ '#') : ¬ IsCounter key := by
  rintro (rfl | rfl | rfl) <;> exact hc (Option.some.inj h).symm

theorem not_adj_of_head? {c : Char} (h : key.head? = some c) (hc : c ≠ 'X') : key ≠ adjKey id := by
  rintro rfl
  exact hc (Option.some.inj h).symm

/-- The edges a node that is seen has afterwards. -/
theorem Rebuilt.filter_seen (h : Rebuilt cfg db db') (hid : Seen id) (hm : ∀ key ∈ db.table.keys, ∀ u d v,
    edgeMatch key = none → edgeOf key = some (u, d, v) → ¬ Seen u ∧ ¬ Seen v) :
    db'.edges.filter (touches id) = db.liveEdges.filter (touches id) := by
  rw [h.records, Db.liveEdges, ← filterMap_edgeMatch]
  refine filter_touches_seen fun key hk e he ho => ?_
  obtain ⟨u, d, v⟩ := e
  obtain ⟨hu, hv⟩ := hm key (List.mem_filter.1 hk).1 u d v he ho
  simp only [touches, Bool.or_eq_false_iff, decide_eq_false_iff_not]
  exact ⟨fun hu' => hu (hu' ▸ hid), fun hv' => hv (hv' ▸ hid)⟩

/-- A node that is seen is told what the edges say, where they can be mended. -/
theorem Rebuilt.tells_seen (h : Rebuilt cfg db db') (hm : Mendable cfg db) (hid : Seen id)
    (hn : db.holds (nodeKey id) = true) : Tells db'.edges id (implied id db.liveEdges) := by
  rw [tells_congr (h.filter_seen hid fun key hk u d v he ho => (hm.unseen key hk u d v he ho).2), tells_implied]
  rintro ⟨u, d, v⟩ he ⟨hu, hv⟩
  obtain ⟨⟨key, hk, hmatch⟩, -⟩ := mem_liveOf.1 he
  obtain rfl : u = id := hu
  obtain rfl : v = u := hv
  have := hm.noLoop key hk v d hmatch
  rw [hn] at this
  cases this

/-- What a node that is not seen is told does not change. -/
theorem Rebuilt.tells_unseen (h : Rebuilt cfg db db') (hid : ¬ Seen id) {entries : List (List Char)} :
    (db'.Lists cfg id entries ↔ db.Lists cfg id entries) ∧ (Tells db'.edges id entries ↔ Tells db.edges id entries) := by
  have hold : db.old (adjKey id) = false := by
    have he : edgeMatch (adjKey id) = none := rfl
    simp [Db.old, adjMatch_adjKey_eq_none.2 hid, he]
  have hget := h.kept (adjKey id) hold (not_counter_of_head? rfl (by decide))
  constructor
  · unfold Db.Lists Db.Gives
    rw [look_other hget, hget]
  · apply tells_congr
    rw [h.records, Db.edges]
    exact filter_touches_unseen hid

/-- What can be mended is repaired. -/
theorem Rebuilt.repaired [DecidableEq C] (h : Rebuilt cfg db db') (hm : Mendable cfg db)
    (hagain : Wp (reindex cfg) db' (fun _ db'' => Rebuilt cfg db' db'') fun _ _ => False) : Repaired cfg db db' where
  clean := wp_verifyIndex h.coherent h.indexed
  nodes key hk := by
    refine h.kept key ?_ (not_counter_of_head? hk (by decide))
    have hadj : adjMatch key = none := by
      rw [Option.eq_none_iff_forall_ne_some]
      intro _ h'
      have := (head?_of_adjMatch h').symm.trans hk
      simp at this
    have hedge : edgeMatch key = none := by
      rw [Option.eq_none_iff_forall_ne_some]
      intro _ h'
      have := (head?_of_edgeMatch h').symm.trans hk
      simp at this
    simp [Db.old, hadj, hedge]
  edges key e ho hj := h.kept key (not_old_of_joins ho hj) (not_counter_of_head? (head?_of_edgeOf ho) (by decide))
  gone key e ho hj := by
    obtain ⟨u, d, v⟩ := e
    cases he : edgeMatch key with
    | some e' =>
      obtain rfl := edgeOf_eq_of_edgeMatch he ho
      refine h.gone key (by simp [Db.old, he, hj]) fun id hk => ?_
      exact absurd hk (not_adj_of_head? (head?_of_edgeOf ho) (by decide))
    | none =>
      -- an edge that is not seen joins two nodes, or it is not there
      have hadj : adjMatch key = none := eq_none_of_head? head?_of_adjMatch head?_of_edgeOf (by decide) ho
      rw [h.kept key (by simp [Db.old, he, hadj]) (not_counter_of_head? (head?_of_edgeOf ho) (by decide)),
        OrdDict.get?_eq_none_iff]
      intro hk
      have := (hm.unseen key hk u d v he ho).1
      rw [hj] at this
      cases this
  answers id hne hn := by
    rw [answers_iff h.coherent hn]
    rw [h.holds_node] at hn
    by_cases hid : Seen id
    · exact ⟨_, h.lists_of_seen hid, h.tells_seen hm hid hn⟩
    · obtain ⟨entries, hl, ht⟩ := hm.lists id hne hid hn
      exact ⟨entries, (h.tells_unseen hid).1.2 hl, (h.tells_unseen hid).2.2 ht⟩
  again := wp_mono hagain (fun _ _ h' => h.again h') fun _ _ h' => h'

/-- The edges of the new lists are seen at both ends. -/
theorem seen_of_live {keys : List Key} {e : Edge} (h : e ∈ db.liveOf keys) : Seen e.1 ∧ Seen e.2.2 := by
  obtain ⟨⟨key, -, hm⟩, -⟩ := mem_liveOf.1 h
  obtain ⟨u, d, v⟩ := e
  exact edgeMatch_seen hm

/-- A node that is seen has no edge that is not, where it is told what the edges say. -/
theorem Rebuilt.not_adjacent (h : Rebuilt cfg db db') (hid : Seen id) (hn : db.holds (nodeKey id) = true)
    (ha : Answers cfg db' id) (hv : ¬ Seen v) : ¬ Adjacent db'.edges id v := by
  intro hadj
  obtain ⟨entries, hl, ht, -⟩ := (answers_iff h.coherent (by rw [h.holds_node]; exact hn)).1 ha
  obtain ⟨⟩ := hl.unique (h.lists_of_seen hid)
  have hmem := (ht v).2 hadj
  rw [mem_tail_implied] at hmem
  obtain ⟨e, he, ⟨-, rfl⟩ | ⟨-, rfl⟩⟩ := hmem
  · exact hv (seen_of_live he).2
  · exact hv (seen_of_live he).1

/-- What is repaired could be mended. -/
theorem Repaired.mendable [DecidableEq C] (h : Rebuilt cfg db db') (hr : Repaired cfg db db') : Mendable cfg db := by
  have hunseen : ∀ key ∈ db.table.keys, ∀ u d v, edgeMatch key = none → edgeOf key = some (u, d, v) →
      db.joins (u, d, v) = true ∧ ¬ Seen u ∧ ¬ Seen v := by
    intro key hk u d v he ho
    have hadj : adjMatch key = none := eq_none_of_head? head?_of_adjMatch head?_of_edgeOf (by decide) ho
    have hold : db.old key = false := by simp [Db.old, he, hadj]
    have hget := h.kept key hold (not_counter_of_head? (head?_of_edgeOf ho) (by decide))
    have hj : db.joins (u, d, v) = true := by
      by_contra hj
      rw [hr.gone key _ ho (by simpa using hj), eq_comm, OrdDict.get?_eq_none_iff] at hget
      exact hget hk
    have hin : (u, d, v) ∈ db'.edges := by
      rw [h.records, List.mem_filterMap]
      exact ⟨key, List.mem_filter.2 ⟨hk, by simp [hold]⟩, ho⟩
    obtain ⟨hu, hv⟩ : db.holds (nodeKey u) = true ∧ db.holds (nodeKey v) = true := by simpa [Db.joins] using hj
    obtain ⟨hune, hvne, -⟩ := edgeOf_eq_some ho
    have hnot := not_seen_of_edgeOf ho he
    refine ⟨hj, fun hsu => ?_, fun hsv => ?_⟩
    · have hsv : ¬ Seen v := hnot.resolve_left fun h => h hsu
      exact h.not_adjacent hsu hu (hr.answers u hune (by rw [h.holds_node]; exact hu)) hsv ⟨_, hin, .inl ⟨rfl, rfl⟩⟩
    · have hsu : ¬ Seen u := hnot.resolve_right fun h => h hsv
      exact h.not_adjacent hsv hv (hr.answers v hvne (by rw [h.holds_node]; exact hv)) hsu ⟨_, hin, .inr ⟨rfl, rfl⟩⟩
  refine ⟨?_, hunseen, ?_⟩
  · intro key hk u d he
    by_contra hn
    have hn : db.holds (nodeKey u) = true := by simpa using hn
    have hid : Seen u := (edgeMatch_seen he).1
    have ha := hr.answers u hid.1 (by rw [h.holds_node]; exact hn)
    obtain ⟨entries, hl, ht⟩ := (answers_iff h.coherent (by rw [h.holds_node]; exact hn)).1 ha
    obtain ⟨⟩ := hl.unique (h.lists_of_seen hid)
    rw [tells_congr (h.filter_seen hid fun key hk u d v he ho => (hunseen key hk u d v he ho).2), tells_implied] at ht
    refine ht (u, d, u) (mem_liveOf.2 ⟨⟨key, hk, he⟩, ?_⟩) ⟨rfl, rfl⟩
    simp [Db.joins, hn]
  · intro id hne hid hn
    have ha := hr.answers id hne (by rw [h.holds_node]; exact hn)
    obtain ⟨entries, hl, ht⟩ := (answers_iff h.coherent (by rw [h.holds_node]; exact hn)).1 ha
    exact ⟨entries, (h.tells_unseen hid).1.1 hl, (h.tells_unseen hid).2.1 ht⟩

/-- The records go on having room. -/
theorem Rebuilt.takes (h : Rebuilt cfg db db') (law : Lawful cfg) (ht : ∀ key ∈ db.table.keys, cfg.takes key = true) :
    ∀ key ∈ db'.table.keys, cfg.takes key = true := by
  intro key hk
  by_cases hc : IsCounter key
  · exact law.counters key hc
  · by_cases hlist : ∃ id, key = adjKey id ∧ implied id db.liveEdges ≠ []
    · obtain ⟨id, rfl, hnil⟩ := hlist
      exact takes_of_implied law ht hnil
    · refine ht key ?_
      have hold : db.old key = false := by
        by_contra hold
        have hnone := h.gone key (by simpa using hold) fun id hid => by
          by_contra hnil
          exact hlist ⟨id, hid, hnil⟩
        exact OrdDict.get?_eq_none_iff.1 hnone hk
      obtain ⟨data, hdata⟩ := OrdDict.mem_keys_iff.1 hk
      rw [h.kept key hold hc] at hdata
      exact OrdDict.mem_keys_iff.2 ⟨data, hdata⟩

/-- **Rebuilding repairs drift exactly where it can be mended**, and it always returns. -/
theorem reindex_repaired [DecidableEq C] (law : Lawful cfg) (hc : Coherent cfg db)
    (ht : ∀ key ∈ db.table.keys, cfg.takes key = true) :
    Wp (reindex cfg) db (fun _ db' => Repaired cfg db db' ↔ Mendable cfg db) fun _ _ => False := by
  refine wp_mono (wp_reindex law hc ht) ?_ fun _ _ h => h
  intro _ db' h
  exact ⟨fun hr => hr.mendable h, fun hm => h.repaired hm (wp_reindex law h.coherent (h.takes law ht))⟩

/-- Two nodes and an undirected edge written behind the graph's back, with a stale list. -/
def drifted : Db (List ℕ) (Val (List ℕ)) where
  table := (((OrdDict.empty.set (nodeKey ['a']) (.props [])).set (nodeKey ['b']) (.props [1])).set
    (adjKey ['a']) (.adj [['>', 'c']])).set (edgeKey ['b'] false ['a']) (.props [])
  rows := [nodeKey ['a'], nodeKey ['b'], adjKey ['a'], edgeKey ['b'] false ['a']]
  cache := OrdDict.empty

theorem reindex_drifted :
    Wp (reindex asIs) drifted (fun _ db' => Repaired asIs drifted db' ↔ Mendable asIs drifted) fun _ _ => False :=
  reindex_repaired asIs_lawful ⟨fun _ _ => rfl, fun _ _ _ h => by cases h⟩ fun _ _ => rfl

/-- An edge to a node whose id has a newline. -/
def broken : Db (List ℕ) (Val (List ℕ)) where
  table := ((OrdDict.empty.set (nodeKey ['a']) (.props [])).set (nodeKey ['b', '\n']) (.props [])).set
    (edgeKey ['a'] true ['b', '\n']) (.props [])
  rows := [nodeKey ['a'], nodeKey ['b', '\n'], edgeKey ['a'] true ['b', '\n']]
  cache := OrdDict.empty

/-- Its edge is nobody's after the lists have been rebuilt. -/
theorem reindex_broken : ¬ Wp (reindex asIs) broken (fun _ db' => Repaired asIs broken db') fun _ _ => False := by
  intro hw
  obtain ⟨_, db', hrun, hr⟩ := hw.returns
  have hb := (wp_reindex asIs_lawful ⟨fun _ _ => rfl, fun _ _ _ h => by cases h⟩ fun _ _ => rfl).ok hrun
  have hm := hr.mendable hb
  have hno := (hm.unseen (edgeKey ['a'] true ['b', '\n']) (by decide) ['a'] true ['b', '\n'] (by decide) (by decide)).2.1
  exact hno (by decide)

end Graph

end OmniJsonDb
