import Mathlib.Data.Nat.Cast.Order.Ring
import OmniJsonDb.Lib.Lightest
import OmniJsonDb.Proof.Shortest

/-!
# The path of least weight

`dijkstra_shortest_path` goes by the distances it has written down; a pair on the heap that is no longer
the best for its node is passed over when it comes up.

* `Db.weightAt`, `Db.Weighs`: what it costs to cross an edge.
* `Dijkstra.Agrees`: what the search carries keeps the invariant of a search by weight.
* `relaxEach_spec`, `dijkstraLoop_spec`: the loops.
* `dijkstraShortestPath_spec`: the path is as light as any, and there is none only where there is no way.
-/

namespace OmniJsonDb

namespace Graph

open Exec Waves Lightest

variable {P C : Type} {cfg : Config P C} {weigh : P → Except Err ℚ} {db db' db₀ : Db P C}
  {source target current id u v x : NodeId} {b d w : ℚ}

/-! ## The heap -/

theorem heappush_perm (e : ℚ × NodeId) (heap : List (ℚ × NodeId)) : (heappush e heap).Perm (e :: heap) := by
  induction heap with
  | nil => exact List.Perm.refl _
  | cons x xs ih =>
    unfold heappush
    split
    · exact List.Perm.refl _
    · exact (ih.cons x).trans (List.Perm.swap e x xs)

/-- The heap by weight alone. -/
abbrev Lighter (heap : List (ℚ × NodeId)) : Prop := heap.Pairwise fun e e' => e.1 ≤ e'.1

theorem le_of_heapLe {e e' : ℚ × NodeId} (h : heapLe e e' = true) : e.1 ≤ e'.1 := by
  unfold heapLe at h
  rw [Bool.or_eq_true, Bool.and_eq_true, decide_eq_true_eq, decide_eq_true_eq] at h
  rcases h with hlt | ⟨heq, -⟩
  · exact hlt.le
  · exact heq.le

theorem le_of_not_heapLe {e e' : ℚ × NodeId} (h : ¬ heapLe e e' = true) : e'.1 ≤ e.1 := by
  rw [← not_lt]
  intro hlt
  apply h
  unfold heapLe
  rw [decide_eq_true hlt, Bool.true_or]

/-- **A push keeps the heap in order.** -/
theorem lighter_heappush {heap : List (ℚ × NodeId)} (h : Lighter heap) (e : ℚ × NodeId) : Lighter (heappush e heap) := by
  induction heap with
  | nil => exact List.pairwise_singleton _ e
  | cons x xs ih =>
    have hx := List.pairwise_cons.1 h
    unfold heappush
    split
    · rename_i hle
      have hex : e.1 ≤ x.1 := le_of_heapLe hle
      refine List.pairwise_cons.2 ⟨?_, h⟩
      intro y hy
      rcases List.mem_cons.1 hy with rfl | hy
      · exact hex
      · exact hex.trans (hx.1 y hy)
    · rename_i hno
      refine List.pairwise_cons.2 ⟨?_, ih hx.2⟩
      intro y hy
      rcases List.mem_cons.1 ((heappush_perm e xs).mem_iff.1 hy) with rfl | hy
      · exact le_of_not_heapLe hno
      · exact hx.1 y hy

/-! ## Weights -/

/-- What it costs to cross an edge. -/
def Db.weightAt (cfg : Config P C) (weigh : P → Except Err ℚ) (db : Db P C) (e : Walked) : Except Err ℚ :=
  weightOf cfg weigh ((db.look cfg (recordKey e.1 e.2.1 e.2.2)).getD noProps)

/-- One edge that can be walked leads from `u` to `v` at a cost of `w`. -/
def Db.Weighs (cfg : Config P C) (weigh : P → Except Err ℚ) (db : Db P C) (u v : NodeId) (w : ℚ) : Prop :=
  ∃ d, db.Follows (u, d, v) ∧ db.weightAt cfg weigh (u, d, v) = .ok w

/-- Every edge has a weight, none below zero. -/
def Db.Weighed (cfg : Config P C) (weigh : P → Except Err ℚ) (db : Db P C) : Prop :=
  ∀ e, db.Follows e → ∃ w, 0 ≤ w ∧ db.weightAt cfg weigh e = .ok w

/-- Where moves from a node lead, and at what cost. -/
def Db.costsOf (cfg : Config P C) (weigh : P → Except Err ℚ) (db : Db P C) (id : NodeId) (moves : List (Bool × NodeId)) :
    List (NodeId × ℚ) :=
  moves.map fun m => (m.2, (db.weightAt cfg weigh (id, m.1, m.2)).toOption.getD 0)

/-- Where a node leads, and at what cost. -/
abbrev Db.costs (cfg : Config P C) (weigh : P → Except Err ℚ) (db : Db P C) (id : NodeId) : List (NodeId × ℚ) :=
  db.costsOf cfg weigh id (db.moves cfg id)

theorem Consistent.mem_costs (h : Consistent cfg db) (hweigh : db.Weighed cfg weigh) :
    (v, w) ∈ db.costs cfg weigh u ↔ db.Weighs cfg weigh u v w := by
  unfold Db.costs Db.costsOf
  rw [List.mem_map]
  constructor
  · rintro ⟨m, hm, heq⟩
    obtain ⟨rfl, rfl⟩ := Prod.mk.inj heq
    have hf : db.Follows (u, m.1, m.2) := (h.mem_moves u m.1 m.2).1 hm
    obtain ⟨w, -, hw⟩ := hweigh _ hf
    refine ⟨m.1, hf, ?_⟩
    rw [hw]
    rfl
  · rintro ⟨d, hf, hw⟩
    refine ⟨(d, v), (h.mem_moves u d v).2 hf, ?_⟩
    rw [hw]
    rfl

theorem Consistent.costs_eq (h : Consistent cfg db) (hweigh : db.Weighed cfg weigh) :
    (fun u v w => (v, w) ∈ db.costs cfg weigh u) = db.Weighs cfg weigh := by
  funext u v w
  exact propext (h.mem_costs hweigh)

theorem Db.Weighed.nonneg (hweigh : db.Weighed cfg weigh) (h : db.Weighs cfg weigh u v w) : 0 ≤ w := by
  obtain ⟨d, hf, hw⟩ := h
  obtain ⟨w', hpos, hw'⟩ := hweigh _ hf
  rw [hw] at hw'
  rwa [Except.ok.inj hw']

/-! ## The loop over a list -/

/-- What the search carries keeps the invariant, and its heap is in order. -/
structure Dijkstra.Agrees (next : NodeId → List (NodeId × ℚ)) (s : NodeId) (b : ℚ) (c : NodeId)
    (todo : List (NodeId × ℚ)) (done : List NodeId) (st : Dijkstra) : Prop where
  search : Search next s b c todo done st.distances.get? st.previous.get? st.queue
  lighter : Lighter st.queue

theorem Dijkstra.agrees_start (next : NodeId → List (NodeId × ℚ)) (s : NodeId) :
    Dijkstra.Agrees next s 0 s [] [] ⟨OrdDict.empty.set s 0, OrdDict.empty.set s none, [(0, s)]⟩ where
  search := by
    refine Search.init ?_ ?_ ?_
    · rw [OrdDict.get?_set, if_pos rfl]
    · intro x hx
      rw [OrdDict.get?_set, if_neg hx, OrdDict.get?_empty]
    · rw [OrdDict.get?_set, if_pos rfl]
  lighter := List.pairwise_singleton _ _

section Agrees

variable {next : NodeId → List (NodeId × ℚ)} {todo : List (NodeId × ℚ)} {done : List NodeId} {st : Dijkstra}

/-- **A neighbour is looked at.** -/
theorem Dijkstra.Agrees.relax (h : Dijkstra.Agrees next source b current ((v, w) :: todo) done st) (hc : current ∈ done)
    (hb : st.distances.get? current = some b) (hw : 0 ≤ w) (hnext : (v, w) ∈ next current) :
    Dijkstra.Agrees next source b current todo done (st.relax current v (b + w)) ∧
      (st.relax current v (b + w)).distances.get? current = some b ∧
      (st.relax current v (b + w)).queue.length ≤ st.queue.length + 1 := by
  unfold Dijkstra.relax
  split
  · rename_i hnear
    have hlt : ∀ dv, st.distances.get? v = some dv → b + w < dv := by
      intro dv hdv
      rw [hdv] at hnear
      exact of_decide_eq_true hnear
    have hne : current ≠ v := by
      rintro rfl
      exact absurd (hlt b hb) (not_lt.2 (le_add_of_nonneg_right hw))
    refine ⟨⟨?_, lighter_heappush h.lighter _⟩, ?_, ?_⟩
    · refine h.search.lower hc hb hw hnext hlt ?_ ?_ ?_ ?_ (heappush_perm _ _)
      · rw [OrdDict.get?_set, if_pos rfl]
      · intro x hx
        rw [OrdDict.get?_set, if_neg hx]
      · rw [OrdDict.get?_set, if_pos rfl]
      · intro x hx
        rw [OrdDict.get?_set, if_neg hx]
    · rw [OrdDict.get?_set, if_neg hne]
      exact hb
    · exact (heappush_perm _ _).length_eq.le
  · rename_i hfar
    cases hdv : st.distances.get? v with
    | none =>
      rw [hdv] at hfar
      exact absurd rfl hfar
    | some dv =>
      have hle : dv ≤ b + w := by
        rw [hdv] at hfar
        rw [← not_lt]
        intro hlt
        exact hfar (decide_eq_true hlt)
      exact ⟨⟨h.search.keep hb hdv hle, h.lighter⟩, hb, Nat.le_succ _⟩

end Agrees

/-- **The loop over a list** looks at every neighbour. -/
theorem relaxEach_spec (hc : Consistent cfg db) (hweigh : db.Weighed cfg weigh) {done : List NodeId} (hdone : current ∈ done)
    (entries : List (List Char)) (hnil : [] ∉ entries) (hin : ∀ m ∈ movesOf entries, db.Follows (current, m.1, m.2))
    (st : Dijkstra)
    (h : Dijkstra.Agrees (db.costs cfg weigh) source b current (db.costsOf cfg weigh current (movesOf entries)) done st)
    (hb : st.distances.get? current = some b) (hk : Kept cfg (fun _ => True) db db₀) :
    Wp (relaxEach cfg weigh current b entries st) db₀
      (fun st' db' => (Dijkstra.Agrees (db.costs cfg weigh) source b current [] done st' ∧
        st'.queue.length ≤ st.queue.length + (movesOf entries).length) ∧ Kept cfg (fun _ => True) db db')
      fun _ _ => False := by
  induction entries generalizing st db₀ with
  | nil =>
    unfold relaxEach
    rw [wp_ret]
    exact ⟨⟨h, Nat.le_add_right _ _⟩, hk⟩
  | cons e entries ih =>
    rw [List.mem_cons, not_or] at hnil
    cases e with
    | nil => exact absurd rfl hnil.1
    | cons kind y =>
      unfold relaxEach
      unfold movesOf at h hin ⊢
      rw [wp_ite]
      constructor
      · intro hkind
        rw [if_pos hkind] at h hin ⊢
        exact ih hnil.2 hin st h hb hk
      · intro hkind
        rw [if_neg hkind] at h hin ⊢
        have hf : db.Follows (current, decide (kind = '>'), y) := hin _ List.mem_cons_self
        obtain ⟨w, hpos, hw⟩ := hweigh _ hf
        have hnext : (y, w) ∈ db.costs cfg weigh current := (hc.mem_costs hweigh).2 ⟨_, hf, hw⟩
        have hcons : db.costsOf cfg weigh current ((decide (kind = '>'), y) :: movesOf entries) =
            (y, w) :: db.costsOf cfg weigh current (movesOf entries) := by
          unfold Db.costsOf
          rw [List.map_cons, hw]
          rfl
        rw [hcons] at h
        obtain ⟨hagrees, hb', hlen⟩ := h.relax hdone hb hpos hnext
        rw [wp_bind]
        refine wp_mono (wp_look (fun _ _ => trivial) hc.sound hk trivial) ?_ fun _ _ h => h
        rintro props db₁ ⟨rfl, hk₁⟩
        have hweight : weightOf cfg weigh
            ((db.look cfg (generateEdgeKey current y (decide (kind = '>')))).getD noProps) = .ok w := hw
        rw [wp_bind, hweight, wp_lift]
        refine ⟨?_, fun _ h => by cases h⟩
        intro a ha
        obtain rfl := Except.ok.inj ha
        refine wp_mono (ih hnil.2 (fun m hm => hin m (List.mem_cons_of_mem _ hm)) _ hagrees hb' hk₁) ?_ fun _ _ h => h
        rintro st' db₂ ⟨⟨hst', hlen'⟩, hk₂⟩
        refine ⟨⟨hst', ?_⟩, hk₂⟩
        rw [List.length_cons]
        omega

/-! ## The loop over the heap -/

/-- What a search by weight comes to: the least weight with its path, or no path where there is no way. -/
def Lightens (E : NodeId → NodeId → ℚ → Prop) (s t : NodeId) : Option ℚ × List NodeId → Prop
  | (some d, path) => Costs E s d t path ∧ ∀ d' q, Costs E s d' t q → d ≤ d'
  | (none, path) => path = [] ∧ ∀ d q, ¬ Costs E s d t q

/-- The moves from the nodes that have not been settled. -/
def Db.movesLeft (cfg : Config P C) (db : Db P C) (left : List NodeId) : ℕ :=
  (left.map fun id => (db.moves cfg id).length).sum

/-- **The loop**: a round takes a pair off the heap, or the moves of a node from those that are left. -/
theorem dijkstraLoop_spec (hc : Consistent cfg db) (hweigh : db.Weighed cfg weigh) {fuel : ℕ} (hsource : source ∈ db.nodeIds)
    (hfuel : db.nodeIds.length ≤ fuel) (n : ℕ) (b : ℚ) (last : NodeId) (done left : List NodeId) (st : Dijkstra)
    (h : Dijkstra.Agrees (db.costs cfg weigh) source b last [] done st)
    (hdone : ∀ x ∈ done, x ∈ db.nodeIds ∧ x ≠ target) (hleft : ∀ x ∈ db.nodeIds, x ∉ done → x ∈ left)
    (hn : st.queue.length + db.movesLeft cfg left < n) (hk : Kept cfg (fun _ => True) db db₀) :
    Wp (dijkstraLoop cfg weigh target fuel n st) db₀
      (fun r db' => (∃ answer, r = some answer ∧
        Lightens (fun u v w => (v, w) ∈ db.costs cfg weigh u) source target answer) ∧ Kept cfg (fun _ => True) db db')
      fun _ _ => False := by
  have hcosts : ∀ u v w, (v, w) ∈ db.costs cfg weigh u → db.Weighs cfg weigh u v w := fun u v w => (hc.mem_costs hweigh).1
  have hpos : ∀ u v w, (v, w) ∈ db.costs cfg weigh u → 0 ≤ w := fun u v w hin => hweigh.nonneg (hcosts u v w hin)
  have hnode : ∀ {d x p}, Costs (fun u v w => (v, w) ∈ db.costs cfg weigh u) source d x p → x ∈ db.nodeIds := by
    intro d x p hp
    refine hp.holds (q := (· ∈ db.nodeIds)) hsource ?_
    intro u v w hin
    obtain ⟨d, hf, -⟩ := hcosts u v w hin
    exact (hc.mem_of_follows hf).2
  induction n generalizing b last done left st db₀ with
  | zero => omega
  | succ n ih =>
    unfold dijkstraLoop
    cases hq : st.queue with
    | nil =>
      simp only
      refine ⟨⟨(none, []), rfl, rfl, ?_⟩, hk⟩
      intro d q hway
      have hsearch := h.search
      rw [hq] at hsearch
      rcases hsearch.bound hpos hway with ⟨hin, -⟩ | ⟨e, he, -⟩
      · exact (hdone target hin).2 rfl
      · exact absurd he List.not_mem_nil
    | cons e queue =>
      obtain ⟨d, x⟩ := e
      have hsearch := h.search
      have hlighter := h.lighter
      rw [hq] at hsearch hlighter hn
      rw [List.length_cons] at hn
      have hmin : ∀ e ∈ queue, d ≤ e.1 := (List.pairwise_cons.1 hlighter).1
      simp only
      rw [wp_ite]
      constructor
      · rintro rfl
        have hout : x ∉ done := fun hin => (hdone x hin).2 rfl
        obtain ⟨p, htraces, hcost, hlen, hleast⟩ := hsearch.answer hout hmin hpos
        -- what has been settled and the target are nodes, each once
        have hall : x :: done ⊆ db.nodeIds := by
          intro y hy
          rcases List.mem_cons.1 hy with rfl | hy
          · exact hnode hcost
          · exact (hdone y hy).1
        have hle := (List.subperm_of_subset (List.nodup_cons.2 ⟨hout, hsearch.once⟩) hall).length_le
        rw [List.length_cons] at hle
        rw [wp_bind, pathTo_spec htraces (hlen.trans (hle.trans hfuel))]
        exact ⟨⟨(some d, p.reverse), rfl, hcost, hleast⟩, hk⟩
      · intro hne
        obtain ⟨dx, hle, hdx⟩ := hsearch.known _ List.mem_cons_self
        rw [wp_ite]
        constructor
        · intro hstale
          rw [hdx] at hstale
          have hlt : dx < d := of_decide_eq_true hstale
          refine ih b last done left _ ⟨hsearch.skip hdx hlt, (List.pairwise_cons.1 hlighter).2⟩ hdone hleft ?_ hk
          change queue.length + _ < n
          omega
        · intro hbest
          have hsame : dx = d := by
            refine le_antisymm hle (not_lt.1 ?_)
            intro hlt
            apply hbest
            rw [hdx]
            exact decide_eq_true hlt
          subst hsame
          have hout : x ∉ done := hsearch.not_done hdx
          obtain ⟨p, -, hcost, -, -⟩ := hsearch.trace_head hdx hout
          have hx : x ∈ db.nodeIds := hnode hcost
          have hmoves : db.moves cfg x = movesOf (db.listOf cfg x) := if_pos hx
          have hsettled : Dijkstra.Agrees (db.costs cfg weigh) source dx x
              (db.costsOf cfg weigh x (movesOf (db.listOf cfg x))) (x :: done) { st with queue := queue } := by
            rw [← hmoves]
            exact ⟨hsearch.settle hdx hmin, (List.pairwise_cons.1 hlighter).2⟩
          rw [wp_bind]
          refine wp_mono (hc.wp_list (fun _ _ => trivial) hx hk) ?_ fun _ _ h => h
          rintro adj db₁ ⟨rfl, hk₁⟩
          rw [wp_bind]
          refine wp_mono (relaxEach_spec hc hweigh List.mem_cons_self _ (hc.nil_not_mem_listOf hx) ?_ _ hsettled hdx hk₁)
            ?_ fun _ _ h => h
          · intro m hm
            rw [← hmoves] at hm
            exact (hc.mem_moves x m.1 m.2).1 hm
          · rintro st' db₂ ⟨⟨hst', hlen⟩, hk₂⟩
            -- the moves of `x` have gone to the heap
            have hsum : (db.moves cfg x).length + db.movesLeft cfg (left.erase x) = db.movesLeft cfg left := by
              have hperm := (List.perm_cons_erase (hleft x hx hout)).map fun id => (db.moves cfg id).length
              unfold Db.movesLeft
              rw [hperm.sum_nat, List.map_cons, List.sum_cons]
            rw [← hmoves] at hlen
            refine ih dx x (x :: done) (left.erase x) st' hst' ?_ ?_ ?_ hk₂
            · intro y hy
              rcases List.mem_cons.1 hy with rfl | hy
              · exact ⟨hx, hne⟩
              · exact hdone y hy
            · intro y hy hno
              rw [List.mem_cons, not_or] at hno
              exact (List.mem_erase_of_ne hno.1).2 (hleft y hy hno.2)
            · change st'.queue.length ≤ queue.length + _ at hlen
              omega

/-- **The path of least weight.** In a graph in order where no id holds a newline and whose edges have
weights, exact numbers, none below zero, `dijkstra_shortest_path` returns the least weight of a way and a
path of that weight, and no path where an end is missing or there is no way. The store is as it was. -/
theorem dijkstraShortestPath_spec (h : InOrder cfg db) (hp : db.Plain) (hcache : CoherentOn cfg (fun _ => True) db)
    (hweigh : db.Weighed cfg weigh) (source target : NodeId) (fuel : ℕ)
    (hfuel : db.nodeIds.length + db.movesLeft cfg db.nodeIds + 1 < fuel) :
    Wp (dijkstraShortestPath cfg weigh fuel source target) db
      (fun r db' => Same cfg db db' ∧ ∃ answer, r = some answer ∧
        if db.holds (nodeKey source) = true ∧ db.holds (nodeKey target) = true then
          Lightens (db.Weighs cfg weigh) source target answer
        else answer = (none, []))
      fun _ _ => False := by
  have hc := h.consistent hp
  unfold dijkstraShortestPath
  rw [wp_bind, wp_get, wp_ite]
  constructor
  · intro hno
    refine ⟨Same.refl hc.sound, _, rfl, ?_⟩
    rw [if_neg]
    rintro ⟨hs, ht⟩
    rw [hs, ht] at hno
    cases hno
  · intro hyes
    have hboth : db.holds (nodeKey source) = true ∧ db.holds (nodeKey target) = true := by
      simpa using hyes
    refine wp_mono (dijkstraLoop_spec hc hweigh ((h.mem_nodeIds_of_plain hp).2 hboth.1) ?_ fuel 0 source [] db.nodeIds _
      (Dijkstra.agrees_start (db.costs cfg weigh) source) ?_ ?_ ?_ (Kept.refl hc.sound hcache)) ?_ fun _ _ h => h
    · omega
    · intro x hx
      exact absurd hx List.not_mem_nil
    · intro x hx _
      exact hx
    · rw [List.length_singleton]
      omega
    · rintro r db' ⟨⟨answer, rfl, hanswer⟩, hk⟩
      refine ⟨hk.same, answer, rfl, ?_⟩
      rw [if_pos hboth, ← hc.costs_eq hweigh]
      exact hanswer

/-- The first number of the properties, or 1. -/
def headWeight (props : List ℕ) : Except Err ℚ := .ok (props.headD 1 : ℕ)

theorem weighed_small : small.Weighed asIs headWeight := by
  intro e _
  have hall : ∀ v : Val (List ℕ), ∃ w : ℚ, 0 ≤ w ∧ weightOf asIs headWeight v = .ok w := by
    intro v
    cases v with
    | props p => exact ⟨(p.headD 1 : ℕ), Nat.cast_nonneg _, rfl⟩
    | _ => exact ⟨1, zero_le_one, rfl⟩
  exact hall _

/-- From `a` to `c`, by the edges of the small graph. -/
theorem dijkstraShortestPath_small :
    Wp (dijkstraShortestPath asIs headWeight 8 ['a'] ['c']) small
      (fun r db' => Same asIs small db' ∧ ∃ answer, r = some answer ∧
        if small.holds (nodeKey ['a']) = true ∧ small.holds (nodeKey ['c']) = true then
          Lightens (small.Weighs asIs headWeight) ['a'] ['c'] answer
        else answer = (none, []))
      fun _ _ => False :=
  dijkstraShortestPath_spec small_inOrder small_plain coherentOn_small weighed_small ['a'] ['c'] 8 (by rw [small_nodeIds]; decide)

example : (dijkstraShortestPath asIs headWeight 8 ['a'] ['c']).run small =
    (.ok (some (some 2, [['a'], ['b'], ['c']])), small) := by with_unfolding_all rfl

end Graph

end OmniJsonDb
