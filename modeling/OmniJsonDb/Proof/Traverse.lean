import OmniJsonDb.Lib.Explore
import OmniJsonDb.Proof.Search

/-!
# The depth-first traversal

`dfs_traverse` enters nodes in pre-order, and shares what has been visited with the caller.

* `traverseEach_spec`, `traverse_spec`: the loop over a list, and a level of the recursion.
* `dfsTraverse_spec`: a node is on the path when it is led to past nothing that had been visited.
-/

namespace OmniJsonDb

namespace Graph

open Exec Explore

variable {P C : Type} {cfg : Config P C} {db db₀ : Db P C} {id source : NodeId} {dir : Direction}
  {edgeFilter : Option (P → Bool)}

/-- **The loop over a list** goes on from what each neighbour has left visited. -/
theorem traverseEach_spec (hc : Consistent cfg db) {n : ℕ}
    {dfs : NodeId → List NodeId → GraphM P C (Option (List NodeId × List NodeId))}
    (hdfs : ∀ v visited db₀, v ∈ db.nodeIds → unseen db.nodeIds visited < n → Kept cfg (Asked edgeFilter) db db₀ →
      Wp (dfs v visited) db₀ (fun r db' => (∃ path visited', r = some (path, visited') ∧
        Visits (db.nexts cfg dir edgeFilter) [v] visited path visited') ∧ Kept cfg (Asked edgeFilter) db db')
        fun _ _ => False)
    (entries : List (List Char)) (hnil : [] ∉ entries)
    (hin : ∀ v ∈ db.nextsOf cfg dir edgeFilter id entries, v ∈ db.nodeIds) (path visited : List NodeId)
    (hn : unseen db.nodeIds visited < n) (hk : Kept cfg (Asked edgeFilter) db db₀) :
    Wp (traverseEach cfg dir edgeFilter dfs id entries path visited) db₀
      (fun r db' => (∃ more visited', r = some (path ++ more, visited') ∧
        Visits (db.nexts cfg dir edgeFilter) (db.nextsOf cfg dir edgeFilter id entries) visited more visited') ∧
        Kept cfg (Asked edgeFilter) db db') fun _ _ => False := by
  induction entries generalizing path visited db₀ with
  | nil =>
    unfold traverseEach
    rw [wp_ret]
    refine ⟨⟨[], visited, ?_, .done visited⟩, hk⟩
    rw [List.append_nil]
  | cons e entries ih =>
    rw [List.mem_cons, not_or] at hnil
    cases e with
    | nil => exact absurd rfl hnil.1
    | cons kind w =>
      unfold traverseEach
      unfold Db.nextsOf at hin ⊢
      rw [wp_ite]
      constructor
      · intro hskip
        have hno : ¬ (dir.skips kind = false ∧ db.keeps cfg edgeFilter (incidentKey id kind w) = true) := by
          intro h
          rw [hskip] at h
          cases h.1
        rw [if_neg hno] at hin ⊢
        exact ih hnil.2 hin path visited hn hk
      · intro hskip
        have hskip : dir.skips kind = false := by simpa using hskip
        rw [wp_bind]
        refine wp_mono (wp_passes hc.sound hk) ?_ fun _ _ h => h
        rintro b db₁ ⟨rfl, hk₁⟩
        cases hkeep : db.keeps cfg edgeFilter (incidentKey id kind w) with
        | false =>
          have hno : ¬ (dir.skips kind = false ∧ db.keeps cfg edgeFilter (incidentKey id kind w) = true) := by
            intro h
            rw [hkeep] at h
            cases h.2
          rw [if_neg hno] at hin
          rw [if_neg fun h => by cases h.2]
          exact ih hnil.2 hin path visited hn hk₁
        | true =>
          rw [if_pos ⟨hskip, hkeep⟩] at hin
          rw [if_pos ⟨hskip, rfl⟩]
          rw [wp_bind]
          refine wp_mono (hdfs w visited db₁ (hin w List.mem_cons_self) hn hk₁) ?_ fun _ _ h => h
          rintro r db₂ ⟨⟨first, visited₁, rfl, hfirst⟩, hk₂⟩
          have hn₁ : unseen db.nodeIds visited₁ < n := lt_of_le_of_lt hfirst.unseen_le hn
          refine wp_mono (ih hnil.2 (fun v hv => hin v (List.mem_cons_of_mem _ hv)) (path ++ first) visited₁ hn₁ hk₂) ?_
            fun _ _ h => h
          rintro r db₃ ⟨⟨more, visited₂, rfl, hmore⟩, hk₃⟩
          refine ⟨⟨first ++ more, visited₂, ?_, hfirst.append hmore⟩, hk₃⟩
          rw [List.append_assoc]

/-- **A level of the recursion**, with a level for every node that has not been visited and one more. -/
theorem traverse_spec (hc : Consistent cfg db) (n : ℕ) (id : NodeId) (visited : List NodeId) (hid : id ∈ db.nodeIds)
    (hn : unseen db.nodeIds visited < n) (hk : Kept cfg (Asked edgeFilter) db db₀) :
    Wp (traverse cfg dir edgeFilter n id visited) db₀
      (fun r db' => (∃ path visited', r = some (path, visited') ∧
        Visits (db.nexts cfg dir edgeFilter) [id] visited path visited') ∧ Kept cfg (Asked edgeFilter) db db')
      fun _ _ => False := by
  induction n generalizing id visited db₀ with
  | zero => exact absurd hn (Nat.not_lt_zero _)
  | succ n ih =>
    unfold traverse
    rw [wp_ite]
    constructor
    · intro hin
      exact ⟨⟨[], visited, rfl, .again hin (.done visited)⟩, hk⟩
    · intro hout
      have hnexts : db.nexts cfg dir edgeFilter id = db.nextsOf cfg dir edgeFilter id (db.listOf cfg id) := by
        unfold Db.nexts
        rw [if_pos hid]
      have hless := unseen_enter hid hout
      rw [wp_bind]
      refine wp_mono (hc.wp_list asked_of_derived hid hk) ?_ fun _ _ h => h
      rintro adj db₁ ⟨rfl, hk₁⟩
      refine wp_mono (traverseEach_spec hc (n := n) (fun v visited db₀ hv hn hk => ih v visited hv hn hk) _
        (hc.nil_not_mem_listOf hid) ?_ [id] (id :: visited) (by omega) hk₁) ?_ fun _ _ h => h
      · intro v hv
        rw [← hnexts] at hv
        exact (hc.mem_of_permits (hc.mem_nexts.1 hv)).2
      · rintro r db₂ ⟨⟨more, visited', rfl, hmore⟩, hk₂⟩
        rw [← hnexts] at hmore
        refine ⟨⟨_, visited', rfl, ?_⟩, hk₂⟩
        have henter := Visits.enter hout hmore (.done visited')
        rwa [List.append_nil] at henter

/-- **The traversal.** In a graph in order where no id holds a newline and fewer than `MAX_RECURSION` nodes
have not been visited, `dfs_traverse` returns the pre-order of the depth-first search: each node once, and just those that the
source leads to past nothing that had been visited. What has been visited afterwards is what had been
and the path. The store is as it was. -/
theorem dfsTraverse_spec (h : InOrder cfg db) (hp : db.Plain) (hcache : CoherentOn cfg (Asked edgeFilter) db)
    (source : NodeId) (visited : List NodeId)
    (hdeep : unseen db.nodeIds visited < MAX_RECURSION) :
    Wp (dfsTraverse cfg dir edgeFilter source visited) db
      (fun r db' => Same cfg db db' ∧ ∃ path visited', r = some (path, visited') ∧
        (db.holds (nodeKey source) = true → Visits (db.nexts cfg dir edgeFilter) [source] visited path visited') ∧
        path.Nodup ∧ (∀ x, x ∈ visited' ↔ x ∈ path ∨ x ∈ visited) ∧
        ∀ x, x ∈ path ↔ db.holds (nodeKey source) = true ∧ Unmet (db.Permits cfg dir edgeFilter) visited source x)
      fun _ _ => False := by
  have hc := h.consistent hp
  unfold dfsTraverse
  rw [wp_bind, wp_get, wp_ite]
  constructor
  · intro hholds
    refine wp_mono (traverse_spec hc MAX_RECURSION source visited ((h.mem_nodeIds_of_plain hp).2 hholds) hdeep (Kept.refl hc.sound hcache)) ?_
      fun _ _ h => h
    rintro r db' ⟨⟨path, visited', rfl, hvisits⟩, hk⟩
    refine ⟨hk.same, path, visited', rfl, fun _ => hvisits, hvisits.nodup, fun x => hvisits.mem_visited, ?_⟩
    intro x
    rw [hvisits.mem_iff, hc.nexts_eq]
    constructor
    · rintro ⟨y, hy, hled⟩
      rw [List.mem_singleton] at hy
      rw [hy] at hled
      exact ⟨hholds, hled⟩
    · rintro ⟨-, hled⟩
      exact ⟨source, List.mem_singleton_self _, hled⟩
  · intro hno
    refine ⟨Same.refl hc.sound, [], visited, rfl, fun h => absurd h hno, List.nodup_nil, ?_, ?_⟩
    · intro x
      simp
    · intro x
      constructor
      · intro hx
        exact absurd hx List.not_mem_nil
      · rintro ⟨hholds, -⟩
        exact absurd hholds hno

/-- From `a`, where `c` has been visited. -/
theorem dfsTraverse_small :
    Wp (dfsTraverse asIs .out none ['a'] [['c']]) small
      (fun r db' => Same asIs small db' ∧ ∃ path visited', r = some (path, visited') ∧
        (small.holds (nodeKey ['a']) = true → Visits (small.nexts asIs .out none) [['a']] [['c']] path visited') ∧
        path.Nodup ∧ (∀ x, x ∈ visited' ↔ x ∈ path ∨ x ∈ [['c']]) ∧
        ∀ x, x ∈ path ↔ small.holds (nodeKey ['a']) = true ∧ Unmet (small.Permits asIs .out none) [['c']] ['a'] x)
      fun _ _ => False :=
  dfsTraverse_spec small_inOrder small_plain coherentOn_small ['a'] [['c']]
    (by rw [small_nodeIds]; decide)

example : (dfsTraverse asIs .out none ['a'] []).run small =
    (.ok (some ([['a'], ['b'], ['c']], [['c'], ['b'], ['a']])), small) := rfl

end Graph

end OmniJsonDb
