import OmniJsonDb.Proof.Search

/-!
# The path with the fewest hops

`bfs_shortest_path` keeps a wave and a tree of the nodes that others were met from, and goes back along
the tree when the target comes up.

* `walkBack_spec`: the way back.
* `bfsLoop_spec`: the loop.
* `bfsShortestPath_spec`: the path is as short as any, and there is none only where there is no way.
-/

namespace OmniJsonDb

namespace Graph

open Exec Waves

variable {P C : Type} {cfg : Config P C} {db db' db₀ : Db P C} {source target : NodeId} {dir : Direction}
  {edgeFilter : Option (P → Bool)}

/-- A way that is as short as any. -/
structure Shortest {α : Type} (R : α → α → Prop) (s t : α) (path : List α) : Prop where
  route : Way R s t path
  least : ∀ q, Way R s t q → path.length ≤ q.length

/-- What a search for a path comes to: a shortest one, or the empty list where there is none. -/
def Solves {α : Type} (R : α → α → Prop) (s t : α) (path : List α) : Prop :=
  Shortest R s t path ∨ path = [] ∧ ∀ q, ¬ Way R s t q

/-! ## The way back -/

theorem walkBack_spec {previous : OrdDict NodeId (Option NodeId)} {node : NodeId} {p : List NodeId}
    (h : Traces previous.get? node p) (n : ℕ) (hn : p.length ≤ n) : walkBack previous n node = .ok (some p) := by
  induction h generalizing n with
  | @root x hx =>
    rw [List.length_singleton] at hn
    obtain ⟨m, rfl⟩ : ∃ m, n = m + 1 := ⟨n - 1, by omega⟩
    have hlook : lookUp previous x = .ok none := by
      unfold lookUp
      rw [hx]
    unfold walkBack
    rw [hlook]
    rfl
  | @up x y p hx _ ih =>
    rw [List.length_cons] at hn
    obtain ⟨m, rfl⟩ : ∃ m, n = m + 1 := ⟨n - 1, by omega⟩
    have hlook : lookUp previous x = .ok (some y) := by
      unfold lookUp
      rw [hx]
    have hrest := ih m (by omega)
    unfold walkBack
    rw [hlook]
    change (do let rest ← walkBack previous m y; Except.ok (rest.map (x :: ·))) = _
    rw [hrest]
    rfl

theorem pathTo_spec {previous : OrdDict NodeId (Option NodeId)} {node : NodeId} {p : List NodeId}
    (h : Traces previous.get? node p) {n : ℕ} (hn : p.length ≤ n) : pathTo previous n node = .ok (some p.reverse) := by
  unfold pathTo
  rw [walkBack_spec h n hn]
  rfl

/-! ## The loop -/

/-- What the neighbours that are new do to what the search carries. -/
theorem foldl_meet (current : NodeId) (ys : List NodeId) (st : Bfs) :
    (ys.foldl (fun st y => Bfs.meet current y st) st).queue = st.queue ++ ys ∧
      ∀ x, (ys.foldl (fun st y => Bfs.meet current y st) st).previous.get? x =
        if x ∈ ys then some (some current) else st.previous.get? x := by
  induction ys generalizing st with
  | nil => exact ⟨(List.append_nil _).symm, fun x => rfl⟩
  | cons y ys ih =>
    obtain ⟨hqueue, hget⟩ := ih (Bfs.meet current y st)
    rw [List.foldl_cons]
    refine ⟨?_, ?_⟩
    · rw [hqueue, Bfs.meet, List.append_assoc]
      rfl
    · intro x
      rw [hget x, Bfs.meet, OrdDict.get?_set]
      by_cases hx : x ∈ ys
      · simp [hx]
      · by_cases hxy : x = y
        · simp [hxy]
        · simp [hx, hxy]

/-- What the search carries says what a wave and its tree hold. -/
structure Bfs.Agrees (next : NodeId → List NodeId) (s : NodeId) (left queue : List (NodeId × ℕ)) (visited : List NodeId)
    (st : Bfs) : Prop where
  wave : Wave next s left queue
  tree : Tree next s st.previous.get? (left ++ queue)
  queued : st.queue = queue.map Prod.fst
  met : ∀ x, x ∈ visited ↔ x ∈ (left ++ queue).map Prod.fst

theorem Bfs.agrees_start (next : NodeId → List NodeId) (s : NodeId) :
    Bfs.Agrees next s [] [(s, 0)] [s] ⟨OrdDict.empty.set s none, [s]⟩ where
  wave := Wave.start next s
  tree := by
    refine Tree.start ?_
    rw [OrdDict.get?_set, if_pos rfl]
  queued := rfl
  met _ := Iff.rfl

/-- A node is left. -/
theorem Bfs.Agrees.leave {next : NodeId → List NodeId} {s current : NodeId} {d : ℕ} {left queue : List (NodeId × ℕ)}
    {visited : List NodeId} {st : Bfs} (h : Bfs.Agrees next s left ((current, d) :: queue) visited st) :
    Bfs.Agrees next s (left ++ [(current, d)]) (queue ++ (fresh visited (next current)).map fun y => (y, d + 1))
      ((fresh visited (next current)).reverse ++ visited)
      ((fresh visited (next current)).foldl (fun st y => Bfs.meet current y st) { st with queue := queue.map Prod.fst }) where
  wave := h.wave.leave fun y _ => h.met y
  tree := by
    have hget := (foldl_meet current (fresh visited (next current)) { st with queue := queue.map Prod.fst }).2
    refine h.tree.leave h.wave.started (fun y _ => h.met y) ?_ ?_
    · intro y hy
      rw [hget y, if_pos hy]
    · intro y hy
      rw [hget y, if_neg hy]
  queued := by
    rw [(foldl_meet current _ _).1, List.map_append, List.map_map]
    congr 1
    exact (List.map_id _).symm
  met := mem_seen_leave h.met (next current)

/-- The target comes up. -/
theorem Bfs.Agrees.answer {next : NodeId → List NodeId} {s current : NodeId} {d : ℕ} {left queue : List (NodeId × ℕ)}
    {visited : List NodeId} {st : Bfs} (h : Bfs.Agrees next s left ((current, d) :: queue) visited st) {fuel : ℕ}
    (hfuel : (left ++ (current, d) :: queue).length ≤ fuel) :
    ∃ path, pathTo st.previous fuel current = .ok (some path) ∧ Shortest (fun a b => b ∈ next a) s current path := by
  have hmem : (current, d) ∈ left ++ (current, d) :: queue := List.mem_append_right _ List.mem_cons_self
  obtain ⟨p, htraces, hlen, hroute, hlt⟩ := h.tree.traces h.wave.started (fun _ _ _ hn hm => h.wave.unique hn hm) hmem
  refine ⟨p.reverse, pathTo_spec htraces (by omega), hroute, ?_⟩
  intro q hq
  have hpos := hq.length_pos
  -- any other way is of at least as many hops
  have hle := (h.wave.far hmem).2 hq.hops
  rw [List.length_reverse]
  omega

/-- **The loop**, with a round for every node that has not been left. -/
theorem bfsLoop_spec (hc : Consistent cfg db) {fuel : ℕ} (hsource : source ∈ db.nodeIds)
    (hfuel : db.nodeIds.length ≤ fuel) (n : ℕ) (left queue : List (NodeId × ℕ)) (visited : List NodeId) (st : Bfs)
    (h : Bfs.Agrees (db.nexts cfg dir edgeFilter) source left queue visited st) (hn : db.nodeIds.length < n + left.length)
    (hleft : target ∉ left.map Prod.fst) (hk : Kept cfg (Asked edgeFilter) db db₀) :
    Wp (bfsLoop cfg dir edgeFilter target fuel n visited st) db₀
      (fun r db' => (∃ path, r = some path ∧ Solves (fun a b => b ∈ db.nexts cfg dir edgeFilter a) source target path) ∧
        Kept cfg (Asked edgeFilter) db db') fun _ _ => False := by
  have hclosed : ∀ x ∈ db.nodeIds, ∀ y ∈ db.nexts cfg dir edgeFilter x, y ∈ db.nodeIds := by
    intro x _ y hy
    exact (hc.mem_of_permits (hc.mem_nexts.1 hy)).2
  induction n generalizing left queue visited st db₀ with
  | zero =>
    have hle := h.wave.length_le hsource hclosed
    rw [List.length_append] at hle
    omega
  | succ n ih =>
    have hle := h.wave.length_le hsource hclosed
    unfold bfsLoop
    rw [h.queued]
    cases queue with
    | nil =>
      refine ⟨⟨[], rfl, .inr ⟨rfl, ?_⟩⟩, hk⟩
      intro q hq
      obtain ⟨m, hm⟩ := h.wave.exists_of_hops hq.hops
      exact hleft (List.mem_map_of_mem hm)
    | cons e queue =>
      obtain ⟨current, d⟩ := e
      simp only [List.map_cons]
      rw [wp_ite]
      constructor
      · rintro rfl
        obtain ⟨path, hpath, hshort⟩ := h.answer (hle.trans hfuel)
        rw [hpath]
        exact ⟨⟨path, rfl, .inl hshort⟩, hk⟩
      · intro hne
        have hmem : (current, d) ∈ left ++ (current, d) :: queue := List.mem_append_right _ List.mem_cons_self
        have hcurrent : current ∈ db.nodeIds := (h.wave.hops _ hmem).mem hsource hclosed
        refine hc.wp_meet hcurrent (Bfs.meet current) visited _ hk ?_
        intro db₁ hk₁
        refine ih _ _ _ _ h.leave ?_ ?_ hk₁
        · rw [List.length_append, List.length_singleton]
          omega
        · rw [List.map_append, List.mem_append, not_or]
          refine ⟨hleft, ?_⟩
          rw [List.map_singleton, List.mem_singleton]
          exact fun ht => hne ht.symm

/-- **The path with the fewest hops.** In a graph in order where no id holds a newline,
`bfs_shortest_path` returns a path over edges that may be crossed that is as short as any, and the empty
list where an end is missing or there is no way; whatever the direction and the filter. The store is as
it was. -/
theorem bfsShortestPath_spec (h : InOrder cfg db) (hp : db.Plain) (hcache : CoherentOn cfg (Asked edgeFilter) db)
    (source target : NodeId) (fuel : ℕ)
    (hfuel : db.nodeIds.length < fuel) :
    Wp (bfsShortestPath cfg fuel source target dir edgeFilter) db
      (fun r db' => Same cfg db db' ∧ ∃ path, r = some path ∧
        if db.holds (nodeKey source) = true ∧ db.holds (nodeKey target) = true then
          Solves (db.Permits cfg dir edgeFilter) source target path
        else path = [])
      fun _ _ => False := by
  have hc := h.consistent hp
  unfold bfsShortestPath
  rw [wp_bind, wp_get, wp_ite]
  constructor
  · intro hno
    refine ⟨Same.refl hc.sound, [], rfl, ?_⟩
    rw [if_neg]
    rintro ⟨hs, ht⟩
    rw [hs, ht] at hno
    cases hno
  · intro hyes
    have hboth : db.holds (nodeKey source) = true ∧ db.holds (nodeKey target) = true := by
      simpa using hyes
    refine wp_mono (bfsLoop_spec hc ((h.mem_nodeIds_of_plain hp).2 hboth.1) hfuel.le fuel [] [(source, 0)] [source] _
      (Bfs.agrees_start (db.nexts cfg dir edgeFilter) source) (by simpa using hfuel) List.not_mem_nil (Kept.refl hc.sound hcache)) ?_ fun _ _ h => h
    rintro r db' ⟨⟨path, rfl, hanswer⟩, hk⟩
    refine ⟨hk.same, path, rfl, ?_⟩
    rw [if_pos hboth, ← hc.nexts_eq]
    exact hanswer

/-- From `a` to `c`, over edges without properties. -/
theorem bfsShortestPath_small :
    Wp (bfsShortestPath asIs 4 ['a'] ['c'] .out (some fun props => props = [])) small
      (fun r db' => Same asIs small db' ∧ ∃ path, r = some path ∧
        if small.holds (nodeKey ['a']) = true ∧ small.holds (nodeKey ['c']) = true then
          Solves (small.Permits asIs .out (some fun props => props = [])) ['a'] ['c'] path
        else path = [])
      fun _ _ => False :=
  bfsShortestPath_spec small_inOrder small_plain coherentOn_small ['a'] ['c'] 4
    (by rw [small_nodeIds]; decide)

example : (bfsShortestPath asIs 4 ['a'] ['c'] .out none).run small = (.ok (some [['a'], ['b'], ['c']]), small) := rfl

end Graph

end OmniJsonDb
