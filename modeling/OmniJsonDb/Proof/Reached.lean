import OmniJsonDb.Proof.Search

/-!
# What can be reached

`k_hop_neighbors`, `descendants` and `ancestors` go level by level, `connected_components` node by node
from each node that no component has.

* `wp_eachOf`: a level.
* `kHopNeighbors_spec`: who is how many hops away.
* `reached_spec`, `relatives_spec`: descendants and ancestors.
* `connectedComponents_spec`: the classes of what is linked.
-/

namespace OmniJsonDb

namespace Graph

open Exec Waves

variable {P C : Type} {cfg : Config P C} {db db' db₀ : Db P C} {source u v : NodeId} {dir : Direction} {d : ℕ}
  {left : List (NodeId × ℕ)} {visited : List NodeId}

/-! ## A level -/

theorem Consistent.nexts_closed {edgeFilter : Option (P → Bool)} (h : Consistent cfg db) :
    ∀ x ∈ db.nodeIds, ∀ y ∈ db.nexts cfg dir edgeFilter x, y ∈ db.nodeIds := by
  intro x _ y hy
  exact (h.mem_of_permits (h.mem_nexts.1 hy)).2

theorem foldl_level {ρ : Type} (add : NodeId → ρ → ρ) (ys : List NodeId) (res : ρ) (nxt : List NodeId) :
    ys.foldl (fun st y => Level.meet add y st) (res, nxt) = (ys.foldl (fun res y => add y res) res, nxt ++ ys) := by
  induction ys generalizing res nxt with
  | nil => rw [List.append_nil]; rfl
  | cons y ys ih =>
    rw [List.foldl_cons, List.foldl_cons, Level.meet, ih, List.append_assoc]
    rfl

/-- **A level**: all of it is left, and what is new is the next one. -/
theorem wp_eachOf (hc : Consistent cfg db) (hs : source ∈ db.nodeIds) {ρ : Type} (add : NodeId → ρ → ρ) (ids : List NodeId)
    (left : List (NodeId × ℕ)) (visited : List NodeId) (res : ρ) (nxt : List NodeId)
    (h : Front (db.nexts cfg dir none) source left d ids nxt visited) (hk : Stays cfg db db₀) :
    Wp (eachOf cfg dir add ids visited (res, nxt)) db₀
      (fun r db' => (∃ new, r.2 = (new.foldl (fun res y => add y res) res, nxt ++ new) ∧
        Front (db.nexts cfg dir none) source (left ++ level d ids) d [] (nxt ++ new) r.1) ∧
        Stays cfg db db') fun _ _ => False := by
  induction ids generalizing left visited res nxt db₀ with
  | nil =>
    unfold eachOf
    rw [wp_ret]
    refine ⟨⟨[], ?_, ?_⟩, hk⟩
    · rw [List.append_nil]
      rfl
    · rw [List.append_nil, level_nil, List.append_nil]
      exact h
  | cons id ids ih =>
    have hmem : (id, d) ∈ left ++ (level d (id :: ids) ++ level (d + 1) nxt) :=
      List.mem_append_right _ (List.mem_append_left _ (mem_level.2 ⟨List.mem_cons_self, rfl⟩))
    have hid : id ∈ db.nodeIds := (h.wave.hops _ hmem).mem hs hc.nexts_closed
    unfold eachOf
    refine hc.wp_meet hid (Level.meet add) visited (res, nxt) hk ?_
    intro db₁ hk₁
    rw [foldl_level]
    refine wp_mono (ih _ _ _ _ h.leave hk₁) ?_ fun _ _ h => h
    rintro r db' ⟨⟨new, hr, hfront⟩, hk'⟩
    refine ⟨⟨fresh visited (db.nexts cfg dir none id) ++ new, ?_, ?_⟩, hk'⟩
    · rw [hr, List.foldl_append, List.append_assoc]
    · rw [List.append_assoc] at hfront
      rw [← List.append_assoc nxt]
      exact hfront

/-! ## So many hops -/

theorem get?_foldl_set {ys : List NodeId} {result : OrdDict NodeId ℕ} {x : NodeId} :
    (ys.foldl (fun result y => result.set y d) result).get? x = if x ∈ ys then some d else result.get? x := by
  induction ys generalizing result with
  | nil => rfl
  | cons y ys ih =>
    rw [List.foldl_cons, ih, OrdDict.get?_set]
    by_cases hx : x ∈ ys
    · simp [hx]
    · by_cases hxy : x = y
      · simp [hxy]
      · simp [hx, hxy]

/-- The levels up to `d + n`. -/
theorem hopLoop_spec (hc : Consistent cfg db) (hs : source ∈ db.nodeIds) (n d : ℕ) (left : List (NodeId × ℕ))
    (ids visited : List NodeId) (result : OrdDict NodeId ℕ)
    (h : Front (db.nexts cfg dir none) source left d ids [] visited)
    (hres : ∀ x m, result.get? x = some m ↔ 1 ≤ m ∧ (x, m) ∈ left ++ level d ids) (hk : Stays cfg db db₀) :
    Wp (hopLoop cfg dir n (d + 1) visited result ids) db₀
      (fun r db' => (∀ x m, r.get? x = some m ↔ 1 ≤ m ∧ m ≤ d + n ∧ Far (db.nexts cfg dir none) source m x) ∧
        Stays cfg db db') fun _ _ => False := by
  induction n generalizing d left ids visited result db₀ with
  | zero =>
    unfold hopLoop
    rw [wp_ret]
    refine ⟨?_, hk⟩
    intro x m
    rw [hres, h.mem_iff, and_comm (b := m ≤ d)]
    rfl
  | succ n ih =>
    unfold hopLoop
    rw [wp_bind]
    refine wp_mono (wp_eachOf hc hs (fun id result => result.set id (d + 1)) ids left visited result [] h hk) ?_
      fun _ _ h => h
    rintro ⟨visited', result', nxt⟩ db₁ ⟨⟨new, hr, hfront⟩, hk₁⟩
    obtain ⟨rfl, hnxt⟩ := Prod.mk.inj hr
    obtain rfl : nxt = new := hnxt
    rw [List.nil_append] at hfront
    have hres' : ∀ x m, (nxt.foldl (fun result y => result.set y (d + 1)) result).get? x = some m ↔
        1 ≤ m ∧ (x, m) ∈ left ++ level d ids ++ level (d + 1) nxt := by
      intro x m
      have hdis := hfront.wave.nodup
      rw [level_nil, List.nil_append, List.map_append, map_level, List.nodup_append] at hdis
      rw [get?_foldl_set, List.mem_append (s := left ++ level d ids), mem_level]
      by_cases hx : x ∈ nxt
      · -- what is new has not been met before
        have hno : (x, m) ∉ left ++ level d ids := by
          intro hin
          exact hdis.2.2 x (List.mem_map_of_mem hin) x hx rfl
        rw [if_pos hx]
        constructor
        · intro hm
          have hmd : d + 1 = m := Option.some.inj hm
          exact ⟨by omega, .inr ⟨hx, hmd.symm⟩⟩
        · rintro ⟨-, hm | ⟨-, hm⟩⟩
          · exact absurd hm hno
          · exact congrArg some hm.symm
      · rw [if_neg hx, hres]
        simp [hx]
    simp only
    rw [wp_ite]
    constructor
    · rintro rfl
      refine ⟨?_, hk₁⟩
      have hfront' := hfront.turn
      intro x m
      rw [hres', hfront'.mem_iff]
      constructor
      · rintro ⟨hm, hfar, hle⟩
        exact ⟨hm, by omega, hfar⟩
      · rintro ⟨hm, -, hfar⟩
        -- nothing is further away, for nothing is left
        have hwave := hfront.wave
        rw [level_nil, level_nil, List.append_nil] at hwave
        have hin := hwave.far_iff.2 hfar
        exact ⟨hm, hfar, Nat.le_succ_of_le (hfront.below _ hin)⟩
    · intro _
      refine wp_mono (ih (d + 1) _ nxt visited' _ hfront.turn hres' hk₁) ?_ fun _ _ h => h
      rintro r db' ⟨hr', hk'⟩
      refine ⟨?_, hk'⟩
      intro x m
      rw [hr', Nat.add_right_comm, Nat.add_assoc]

/-- **So many hops.** In a graph in order where no id holds a newline, `k_hop_neighbors` maps each node that is one to `k` hops away to how many, and no
other. The store is as it was. -/
theorem kHopNeighbors_spec (h : InOrder cfg db) (hp : db.Plain) (source : NodeId) (k : ℤ) :
    Wp (kHopNeighbors cfg source k dir) db
      (fun r db' => Same cfg db db' ∧ ∀ x m, r.get? x = some m ↔ db.holds (nodeKey source) = true ∧ 1 ≤ m ∧ (m : ℤ) ≤ k ∧
        IsLeast {n | ∃ p, Way (db.Permits cfg dir none) source x p ∧ p.length = n + 1} m)
      fun _ _ => False := by
  have hc := h.consistent hp
  have hfar : ∀ m x, Far (db.nexts cfg dir none) source m x ↔
      IsLeast {n | ∃ p, Way (db.Permits cfg dir none) source x p ∧ p.length = n + 1} m := by
    intro m x
    rw [← hc.nexts_eq]
    unfold Far
    simp only [hops_iff]
  unfold kHopNeighbors
  rw [wp_bind, wp_get, wp_ite]
  constructor
  · intro hno
    refine ⟨Same.refl hc.sound, ?_⟩
    intro x m
    rw [OrdDict.get?_empty]
    constructor
    · intro h
      cases h
    · rintro ⟨hh, hm, hmk, -⟩
      rw [hh] at hno
      have hk : k < 1 := by simpa using hno
      omega
  · intro hyes
    obtain ⟨hh, hk⟩ : db.holds (nodeKey source) = true ∧ 1 ≤ k := by simpa using hyes
    have hres : ∀ x m, (OrdDict.empty : OrdDict NodeId ℕ).get? x = some m ↔ 1 ≤ m ∧ (x, m) ∈ [] ++ level 0 [source] := by
      intro x m
      rw [OrdDict.get?_empty, List.nil_append, mem_level]
      constructor
      · intro h
        cases h
      · rintro ⟨hm, -, rfl⟩
        cases hm
    have hfront : Front (db.nexts cfg dir none) source [] 0 [source] [] [source] := Front.start _ source
    refine wp_mono (hopLoop_spec hc ((h.mem_nodeIds_of_plain hp).2 hh) k.toNat 0 [] [source] [source] _ hfront hres
      (Stays.refl hc.sound)) ?_ fun _ _ h => h
    rintro r db' ⟨hr, hk'⟩
    refine ⟨hk'.same, ?_⟩
    intro x m
    rw [hr, hfar]
    constructor
    · rintro ⟨hm, hmk, hleast⟩
      exact ⟨hh, hm, by omega, hleast⟩
    · rintro ⟨-, hm, hmk, hleast⟩
      exact ⟨hm, by omega, hleast⟩

/-- Two hops from `a`. -/
theorem kHopNeighbors_small :
    Wp (kHopNeighbors asIs ['a'] 2 .out) small
      (fun r db' => Same asIs small db' ∧ ∀ x m, r.get? x = some m ↔ small.holds (nodeKey ['a']) = true ∧ 1 ≤ m ∧
        (m : ℤ) ≤ 2 ∧ IsLeast {n | ∃ p, Way (small.Permits asIs .out none) ['a'] x p ∧ p.length = n + 1} m)
      fun _ _ => False :=
  kHopNeighbors_spec small_inOrder small_plain ['a'] 2

example : ((kHopNeighbors asIs ['b'] 1 .inward).run small).1.toOption.map OrdDict.keys = some [['a'], ['c']] := rfl

/-! ## Descendants and ancestors -/

theorem mem_foldl_insert {ys result : List NodeId} {x : NodeId} :
    x ∈ ys.foldl (fun result y => List.insert y result) result ↔ x ∈ ys ∨ x ∈ result := by
  induction ys generalizing result with
  | nil => simp
  | cons y ys ih =>
    rw [List.foldl_cons, ih, List.mem_insert_iff, List.mem_cons]
    tauto

/-- The levels until none is left. -/
theorem reachLoop_spec (hc : Consistent cfg db) (hs : source ∈ db.nodeIds) (n d : ℕ) (left : List (NodeId × ℕ))
    (ids visited result : List NodeId) (h : Front (db.nexts cfg dir none) source left d ids [] visited)
    (hres : ∀ x, x ∈ result ↔ x ≠ source ∧ x ∈ visited) (hn : db.nodeIds.length < n + left.length)
    (hk : Stays cfg db db₀) :
    Wp (reachLoop cfg dir n visited result ids) db₀
      (fun r db' => (∃ ids', r = some ids' ∧
        ∀ x, x ∈ ids' ↔ x ≠ source ∧ Relation.ReflTransGen (db.Permits cfg dir none) source x) ∧ Stays cfg db db')
      fun _ _ => False := by
  induction n generalizing d left ids visited result db₀ with
  | zero =>
    have hle := h.wave.length_le hs hc.nexts_closed
    rw [List.length_append] at hle
    omega
  | succ n ih =>
    unfold reachLoop
    rw [wp_ite]
    constructor
    · rintro rfl
      refine ⟨⟨result, rfl, ?_⟩, hk⟩
      intro x
      have hwave := h.wave
      have hmet := h.met x
      simp only [level_nil, List.append_nil] at hwave hmet
      rw [hres, hmet, hwave.mem_iff_reaches, hc.nexts_eq]
    · intro hne
      rw [wp_bind]
      refine wp_mono (wp_eachOf hc hs List.insert ids left visited result [] h hk) ?_ fun _ _ h => h
      rintro ⟨visited', result', nxt⟩ db₁ ⟨⟨new, hr, hfront⟩, hk₁⟩
      obtain ⟨rfl, hnxt⟩ := Prod.mk.inj hr
      obtain rfl : nxt = new := hnxt
      have hres' : ∀ x, x ∈ nxt.foldl (fun result y => List.insert y result) result ↔ x ≠ source ∧ x ∈ visited' := by
        intro x
        have hold := h.met x
        have hnew := hfront.met x
        have hnodup := hfront.wave.nodup
        have hmet := List.mem_map_of_mem (f := Prod.fst) h.wave.started
        simp only [level_nil, List.nil_append, List.append_nil, List.map_append, List.mem_append, map_level]
          at hold hnew hnodup hmet
        rw [mem_foldl_insert, hres, hold, hnew]
        -- the start has been met before
        have hstart : source ∉ nxt := by
          intro hin
          refine (List.nodup_append.1 hnodup).2.2 source ?_ source hin rfl
          rwa [List.mem_append]
        constructor
        · rintro (hx | ⟨hx, hin⟩)
          · refine ⟨?_, .inr hx⟩
            rintro rfl
            exact hstart hx
          · exact ⟨hx, .inl hin⟩
        · rintro ⟨hx, hin | hin⟩
          · exact .inr ⟨hx, hin⟩
          · exact .inl hin
      refine ih (d + 1) _ nxt visited' _ hfront.turn hres' ?_ hk₁
      have hpos := List.length_pos_of_ne_nil hne
      rw [List.length_append, level, List.length_map]
      omega

/-- What `descendants` and `ancestors` come to. -/
theorem reached_spec (hc : Consistent cfg db) (source : NodeId)
    (hs : db.holds (nodeKey source) = true → source ∈ db.nodeIds) {fuel : ℕ} (hfuel : db.nodeIds.length < fuel)
    (hk : Stays cfg db db₀) :
    Wp (reached cfg fuel source dir) db₀
      (fun r db' => (∃ ids, r = some ids ∧ ∀ x, x ∈ ids ↔ db.holds (nodeKey source) = true ∧ x ≠ source ∧
        Relation.ReflTransGen (db.Permits cfg dir none) source x) ∧ Stays cfg db db') fun _ _ => False := by
  unfold reached
  rw [wp_bind, wp_get, hk.same.holds, wp_ite]
  constructor
  · intro hno
    refine ⟨⟨[], rfl, ?_⟩, hk⟩
    intro x
    constructor
    · intro hx
      exact absurd hx List.not_mem_nil
    · rintro ⟨hh, -⟩
      rw [hh] at hno
      cases hno
  · intro hyes
    have hh : db.holds (nodeKey source) = true := by simpa using hyes
    have hres : ∀ x, x ∈ ([] : List NodeId) ↔ x ≠ source ∧ x ∈ [source] := by
      intro x
      constructor
      · intro hx
        exact absurd hx List.not_mem_nil
      · rintro ⟨hne, hx⟩
        exact absurd (List.mem_singleton.1 hx) hne
    refine wp_mono (reachLoop_spec hc (hs hh) fuel 0 [] [source] [source] [] (Front.start _ source) hres
      (by simpa using hfuel) hk) ?_ fun _ _ h => h
    rintro r db' ⟨⟨ids, rfl, hids⟩, hk'⟩
    refine ⟨⟨ids, rfl, ?_⟩, hk'⟩
    intro x
    rw [hids]
    exact (and_iff_right hh).symm

/-- Outgoing edges are those that can be followed, incoming ones are those that can be followed back. -/
theorem permits_out : db.Permits cfg .out none = db.Leads := by
  funext u v
  unfold Db.Permits Db.Leads Graph.Leads Db.keeps
  simp

theorem permits_inward : db.Permits cfg .inward none = Function.swap db.Leads := by
  funext u v
  unfold Db.Permits Db.Leads Graph.Leads Db.keeps Function.swap
  simp [or_comm]

/-- **Descendants and ancestors.** In a graph in order where no id holds a newline, `descendants(u)` are the other nodes that `u` leads to, `ancestors(v)`
those that lead to `v`; so `v` is a descendant of `u` iff `u` is an ancestor of `v`. -/
theorem relatives_spec (h : InOrder cfg db) (hp : db.Plain) {u v : NodeId} (hu : db.holds (nodeKey u) = true)
    (hv : db.holds (nodeKey v) = true) {fuel : ℕ} (hfuel : db.nodeIds.length < fuel) :
    Wp (do let below ← descendants cfg fuel u; let above ← ancestors cfg fuel v; pure (below, above)) db
      (fun r db' => Same cfg db db' ∧ ∃ below above, r = (some below, some above) ∧
        (∀ x, x ∈ below ↔ x ≠ u ∧ Relation.ReflTransGen db.Leads u x) ∧
        (∀ x, x ∈ above ↔ x ≠ v ∧ Relation.ReflTransGen db.Leads x v) ∧ (v ∈ below ↔ u ∈ above))
      fun _ _ => False := by
  have hc := h.consistent hp
  rw [wp_bind]
  refine wp_mono (reached_spec hc u (fun _ => (h.mem_nodeIds_of_plain hp).2 hu) hfuel (Stays.refl hc.sound)) ?_ fun _ _ h => h
  rintro _ db₁ ⟨⟨below, rfl, hbelow⟩, hk₁⟩
  rw [wp_bind]
  refine wp_mono (reached_spec hc v (fun _ => (h.mem_nodeIds_of_plain hp).2 hv) hfuel hk₁) ?_ fun _ _ h => h
  rintro _ db₂ ⟨⟨above, rfl, habove⟩, hk₂⟩
  have hdown : ∀ x, x ∈ below ↔ x ≠ u ∧ Relation.ReflTransGen db.Leads u x := by
    intro x
    rw [hbelow, permits_out]
    exact and_iff_right hu
  have hup : ∀ x, x ∈ above ↔ x ≠ v ∧ Relation.ReflTransGen db.Leads x v := by
    intro x
    rw [habove, permits_inward, Relation.reflTransGen_swap]
    exact and_iff_right hv
  refine ⟨hk₂.same, below, above, rfl, hdown, hup, ?_⟩
  rw [hdown, hup, ne_comm]

/-- `c` is a descendant of `a`, and `a` an ancestor of `c`. -/
theorem relatives_small :
    Wp (do let below ← descendants asIs 4 ['a']; let above ← ancestors asIs 4 ['c']; pure (below, above)) small
      (fun r db' => Same asIs small db' ∧ ∃ below above, r = (some below, some above) ∧
        (∀ x, x ∈ below ↔ x ≠ ['a'] ∧ Relation.ReflTransGen small.Leads ['a'] x) ∧
        (∀ x, x ∈ above ↔ x ≠ ['c'] ∧ Relation.ReflTransGen small.Leads x ['c']) ∧ (['c'] ∈ below ↔ ['a'] ∈ above))
      fun _ _ => False :=
  relatives_spec small_inOrder small_plain (by decide) (by decide) (by rw [small_nodeIds]; decide)

/-! ## Components -/

/-- Some edge joins two nodes, whichever way it goes. -/
def Db.Linked (db : Db P C) (u v : NodeId) : Prop := db.Leads u v ∨ db.Leads v u

/-- What is linked is linked the other way round. -/
theorem linked_back (h : Relation.ReflTransGen db.Linked u v) : Relation.ReflTransGen db.Linked v u := by
  induction h with
  | refl => exact .refl
  | tail _ hstep ih => exact .head hstep.symm ih

theorem permits_both : db.Permits cfg .both none = db.Linked := by
  funext u v
  unfold Db.Permits Db.Linked Db.Leads Graph.Leads Db.keeps
  simp only [ne_eq, reduceCtorEq, not_false_eq_true, true_and, Option.all_none, and_true, eq_iff_iff]
  tauto

theorem Consistent.linked_eq (h : Consistent cfg db) : (fun a b => b ∈ db.nexts cfg .both none a) = db.Linked :=
  h.nexts_eq.trans permits_both

/-- Whatever stands in front, an entry leads to what stands behind. -/
theorem nextsOf_both {id : NodeId} (es : List (List Char)) (hnil : [] ∉ es) :
    db.nextsOf cfg .both none id es = es.map List.tail := by
  induction es with
  | nil => rfl
  | cons e es ih =>
    rw [List.mem_cons, not_or] at hnil
    cases e with
    | nil => exact absurd rfl hnil.1
    | cons kind w =>
      unfold Db.nextsOf
      rw [if_pos ⟨rfl, rfl⟩, ih hnil.2]
      rfl

theorem queueNew_spec (es : List (List Char)) (visited queue : List NodeId) :
    queueNew es visited queue =
      ((fresh visited (es.map List.tail)).reverse ++ visited, queue ++ fresh visited (es.map List.tail)) := by
  induction es generalizing visited queue with
  | nil =>
    rw [List.map_nil, fresh, List.append_nil]
    rfl
  | cons e es ih =>
    unfold queueNew
    rw [List.map_cons, fresh]
    by_cases he : e.tail ∈ visited
    · rw [if_pos he, if_pos he, ih]
    · rw [if_neg he, if_neg he, ih, List.reverse_cons, List.append_assoc, List.append_assoc]
      rfl

/-- **A component** is what is linked with where it starts, when nothing of that has been visited. -/
theorem componentLoop_spec (hc : Consistent cfg db) (hs : source ∈ db.nodeIds) (earlier : List NodeId)
    (hout : ∀ x, Relation.ReflTransGen db.Linked source x → x ∉ earlier) (n : ℕ) (left queue : List (NodeId × ℕ))
    (visited : List NodeId) (h : Wave (db.nexts cfg .both none) source left queue)
    (hvisited : ∀ x, x ∈ visited ↔ x ∈ (left ++ queue).map Prod.fst ∨ x ∈ earlier)
    (hn : db.nodeIds.length < n + left.length) (hk : Stays cfg db db₀) :
    Wp (componentLoop cfg n visited (left.map Prod.fst) (queue.map Prod.fst)) db₀
      (fun r db' => (∃ visited' component, r = some (visited', component) ∧ component.Nodup ∧
        (∀ x, x ∈ component ↔ Relation.ReflTransGen db.Linked source x) ∧
        ∀ x, x ∈ visited' ↔ x ∈ component ∨ x ∈ earlier) ∧ Stays cfg db db') fun _ _ => False := by
  induction n generalizing left queue visited db₀ with
  | zero =>
    have hle := h.length_le hs hc.nexts_closed
    rw [List.length_append] at hle
    omega
  | succ n ih =>
    unfold componentLoop
    cases queue with
    | nil =>
      refine ⟨⟨visited, left.map Prod.fst, rfl, ?_, ?_, ?_⟩, hk⟩
      · have hnodup := h.nodup
        rwa [List.append_nil] at hnodup
      · intro x
        rw [h.mem_iff_reaches, hc.linked_eq]
      · intro x
        rw [hvisited, List.append_nil]
    | cons e queue =>
      obtain ⟨current, d⟩ := e
      have hmem : (current, d) ∈ left ++ (current, d) :: queue := List.mem_append_right _ List.mem_cons_self
      have hcurrent : current ∈ db.nodeIds := (h.hops _ hmem).mem hs hc.nexts_closed
      have hreach : Relation.ReflTransGen db.Linked source current := by
        have hhops := exists_hops_iff.1 ⟨d, h.hops _ hmem⟩
        rwa [hc.linked_eq] at hhops
      -- a neighbour is in no component yet
      have hseen : ∀ y ∈ db.nexts cfg .both none current,
          y ∈ visited ↔ y ∈ (left ++ (current, d) :: queue).map Prod.fst := by
        intro y hy
        rw [hvisited]
        refine or_iff_left (hout y (hreach.tail ?_))
        rw [← hc.linked_eq]
        exact hy
      have hnexts : (db.listOf cfg current).map List.tail = db.nexts cfg .both none current := by
        unfold Db.nexts
        rw [if_pos hcurrent, nextsOf_both _ (hc.nil_not_mem_listOf hcurrent)]
      simp only [List.map_cons]
      rw [wp_bind]
      refine wp_mono (hc.wp_list asked_of_derived hcurrent hk) ?_ fun _ _ h => h
      rintro adj db₁ ⟨rfl, hk₁⟩
      rw [queueNew_spec, hnexts]
      have hstep := ih (left ++ [(current, d)])
        (queue ++ (fresh visited (db.nexts cfg .both none current)).map fun y => (y, d + 1))
        ((fresh visited (db.nexts cfg .both none current)).reverse ++ visited) (h.leave hseen) ?_ ?_ hk₁
      · rw [List.map_append, List.map_append, List.map_map] at hstep
        rwa [show (Prod.fst ∘ fun y : NodeId => (y, d + 1)) = id from rfl, List.map_id] at hstep
      · intro x
        have hx := hvisited x
        simp only [List.map_append, List.map_cons, List.map_nil, List.mem_append, List.mem_cons, List.not_mem_nil,
          or_false, List.map_map, List.mem_map, List.mem_reverse, Function.comp_apply, exists_eq_right] at hx ⊢
        rw [hx]
        constructor
        · rintro (h | (h | h | h) | h)
          · exact .inl (.inr (.inr h))
          · exact .inl (.inl (.inl h))
          · exact .inl (.inl (.inr h))
          · exact .inl (.inr (.inl h))
          · exact .inr h
        · rintro (((h | h) | h | h) | h)
          · exact .inr (.inl (.inl h))
          · exact .inr (.inl (.inr (.inl h)))
          · exact .inr (.inl (.inr (.inr h)))
          · exact .inl h
          · exact .inr (.inr h)
      · rw [List.length_append, List.length_singleton]
        omega

/-- What has been found of the components. -/
structure Parts (db : Db P C) (visited : List NodeId) (comps : List (List NodeId)) : Prop where
  visited : ∀ x, x ∈ visited ↔ x ∈ comps.flatten
  nodup : comps.flatten.Nodup
  classes : ∀ c ∈ comps, ∀ u ∈ c, ∀ w, w ∈ c ↔ Relation.ReflTransGen db.Linked u w
  nodes : ∀ x ∈ comps.flatten, x ∈ db.nodeIds

/-- A component more. -/
theorem Parts.add {visited visited' component : List NodeId} {comps : List (List NodeId)} (h : Parts db visited comps)
    (hs : source ∉ visited) (hnodes : ∀ x ∈ component, x ∈ db.nodeIds) (hnodup : component.Nodup)
    (hclass : ∀ x, x ∈ component ↔ Relation.ReflTransGen db.Linked source x)
    (hvisited : ∀ x, x ∈ visited' ↔ x ∈ component ∨ x ∈ visited) : Parts db visited' (comps ++ [component]) := by
  have hflat : (comps ++ [component]).flatten = comps.flatten ++ component := by
    rw [List.flatten_append, List.flatten_singleton]
  refine ⟨?_, ?_, ?_, ?_⟩
  · intro x
    rw [hvisited, hflat, List.mem_append, h.visited, or_comm]
  · rw [hflat, List.nodup_append]
    refine ⟨h.nodup, hnodup, ?_⟩
    rintro a ha b hb rfl
    -- then the start would be in that component
    obtain ⟨c, hin, hac⟩ := List.mem_flatten.1 ha
    refine hs ((h.visited source).2 (List.mem_flatten.2 ⟨c, hin, ?_⟩))
    exact (h.classes c hin a hac source).2 (linked_back ((hclass a).1 hb))
  · intro c hin u hu w
    rcases List.mem_append.1 hin with hin | hin
    · exact h.classes c hin u hu w
    · obtain rfl := List.mem_singleton.1 hin
      have hsu := (hclass u).1 hu
      rw [hclass]
      exact ⟨fun hw => (linked_back hsu).trans hw, fun hw => hsu.trans hw⟩
  · rw [hflat]
    intro x hx
    rcases List.mem_append.1 hx with hx | hx
    · exact h.nodes x hx
    · exact hnodes x hx

theorem componentsFrom_spec (hc : Consistent cfg db) {fuel : ℕ} (hfuel : db.nodeIds.length < fuel) (ids : List NodeId)
    (hids : ∀ id ∈ ids, id ∈ db.nodeIds) (visited : List NodeId) (comps : List (List NodeId)) (h : Parts db visited comps)
    (hk : Stays cfg db db₀) :
    Wp (componentsFrom cfg fuel ids visited comps) db₀
      (fun r db' => (∃ comps' visited', r = some comps' ∧ Parts db visited' comps' ∧ (∀ x ∈ visited, x ∈ visited') ∧
        ∀ x ∈ ids, x ∈ visited') ∧ Stays cfg db db') fun _ _ => False := by
  induction ids generalizing visited comps db₀ with
  | nil =>
    unfold componentsFrom
    rw [wp_ret]
    exact ⟨⟨comps, visited, rfl, h, fun x hx => hx, fun x hx => absurd hx List.not_mem_nil⟩, hk⟩
  | cons id ids ih =>
    have hrest : ∀ x ∈ ids, x ∈ db.nodeIds := fun x hx => hids x (List.mem_cons_of_mem _ hx)
    unfold componentsFrom
    rw [wp_ite]
    constructor
    · intro hin
      refine wp_mono (ih hrest visited comps h hk) ?_ fun _ _ h => h
      rintro r db' ⟨⟨comps', visited', rfl, hparts, hkeep, hall⟩, hk'⟩
      refine ⟨⟨comps', visited', rfl, hparts, hkeep, ?_⟩, hk'⟩
      intro x hx
      rcases List.mem_cons.1 hx with rfl | hx
      · exact hkeep x hin
      · exact hall x hx
    · intro hno
      have hid : id ∈ db.nodeIds := hids id List.mem_cons_self
      have hout : ∀ x, Relation.ReflTransGen db.Linked id x → x ∉ visited := by
        intro x hx hin
        obtain ⟨c, hcin, hxc⟩ := List.mem_flatten.1 ((h.visited x).1 hin)
        refine hno ((h.visited id).2 (List.mem_flatten.2 ⟨c, hcin, ?_⟩))
        exact (h.classes c hcin x hxc id).2 (linked_back hx)
      have hstart : ∀ x, x ∈ id :: visited ↔ x ∈ ([] ++ [(id, 0)] : List (NodeId × ℕ)).map Prod.fst ∨ x ∈ visited := by
        intro x
        rw [List.mem_cons, List.nil_append, List.map_singleton, List.mem_singleton]
      have hloop := componentLoop_spec hc hid visited hout fuel [] [(id, 0)] (id :: visited) (Wave.start _ id) hstart
        (by simpa using hfuel) hk
      rw [wp_bind]
      refine wp_mono hloop ?_ fun _ _ h => h
      rintro r db₁ ⟨⟨visited₁, component, rfl, hnodup, hclass, hvisited₁⟩, hk₁⟩
      have hnodes : ∀ x ∈ component, x ∈ db.nodeIds := by
        intro x hx
        have hreach := (hclass x).1 hx
        rw [← hc.linked_eq] at hreach
        obtain ⟨m, hm⟩ := exists_hops_iff.2 hreach
        exact hm.mem hid hc.nexts_closed
      refine wp_mono (ih hrest visited₁ _ (h.add hno hnodes hnodup hclass hvisited₁) hk₁) ?_ fun _ _ h => h
      rintro r db' ⟨⟨comps', visited', rfl, hparts, hkeep, hall⟩, hk'⟩
      refine ⟨⟨comps', visited', rfl, hparts, ?_, ?_⟩, hk'⟩
      · intro x hx
        exact hkeep x ((hvisited₁ x).2 (.inr hx))
      · intro x hx
        rcases List.mem_cons.1 hx with rfl | hx
        · exact hkeep x ((hvisited₁ x).2 (.inl ((hclass x).2 .refl)))
        · exact hall x hx

/-- **Connected components.** In a graph in order where no id holds a newline, with a round for each node
the search ends; every node is in exactly one component, and two nodes are in the same one iff they are
linked, whichever way the edges go. The store is as it was. -/
theorem connectedComponents_spec (h : InOrder cfg db) (hp : db.Plain) {fuel : ℕ} (hfuel : db.nodeIds.length < fuel) :
    Wp (connectedComponents cfg fuel) db (fun r db' => Same cfg db db' ∧ ∃ comps, r = some comps ∧
      comps.flatten.Nodup ∧ (∀ v, v ∈ comps.flatten ↔ db.holds (nodeKey v) = true) ∧
      ∀ u v, db.holds (nodeKey u) = true → db.holds (nodeKey v) = true →
        ((∃ c ∈ comps, u ∈ c ∧ v ∈ c) ↔ Relation.ReflTransGen db.Linked u v))
      fun _ _ => False := by
  have hc := h.consistent hp
  have hnone : Parts db [] [] := by
    refine ⟨fun x => Iff.rfl, List.nodup_nil, ?_, ?_⟩
    · intro c hin
      exact absurd hin List.not_mem_nil
    · intro x hx
      exact absurd hx List.not_mem_nil
  unfold connectedComponents
  rw [wp_bind, wp_get]
  refine wp_mono (componentsFrom_spec hc hfuel db.nodeIds (fun id hid => hid) [] [] hnone (Stays.refl hc.sound)) ?_
    fun _ _ h => h
  rintro r db' ⟨⟨comps, visited, rfl, hparts, -, hall⟩, hk⟩
  have hmem : ∀ v, v ∈ comps.flatten ↔ db.holds (nodeKey v) = true := by
    intro v
    rw [← h.mem_nodeIds_of_plain hp]
    exact ⟨hparts.nodes v, fun hv => (hparts.visited v).1 (hall v hv)⟩
  refine ⟨hk.same, comps, rfl, hparts.nodup, hmem, ?_⟩
  intro u v hu _
  constructor
  · rintro ⟨c, hin, huc, hvc⟩
    exact (hparts.classes c hin u huc v).1 hvc
  · intro huv
    obtain ⟨c, hin, huc⟩ := List.mem_flatten.1 ((hmem u).2 hu)
    exact ⟨c, hin, huc, (hparts.classes c hin u huc v).2 huv⟩

/-- All three nodes are linked. -/
theorem connectedComponents_small :
    Wp (connectedComponents asIs 4) small (fun r db' => Same asIs small db' ∧ ∃ comps, r = some comps ∧
      comps.flatten.Nodup ∧ (∀ v, v ∈ comps.flatten ↔ small.holds (nodeKey v) = true) ∧
      ∀ u v, small.holds (nodeKey u) = true → small.holds (nodeKey v) = true →
        ((∃ c ∈ comps, u ∈ c ∧ v ∈ c) ↔ Relation.ReflTransGen small.Linked u v))
      fun _ _ => False :=
  connectedComponents_spec small_inOrder small_plain (by rw [small_nodeIds]; decide)

end Graph

end OmniJsonDb
