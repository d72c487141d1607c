import OmniJsonDb.Lib.Waves
import OmniJsonDb.Model.Search
import OmniJsonDb.Proof.Cycles

/-!
# What a search reads

A search goes over the lists of the nodes, and asks its filter about the records of the edges. In a
graph in order that is the same as to follow the edges.

* `Kept`: the same graph, and a cache that agrees on the records a search reads.
* `Db.Permits`: an edge may be crossed from one node to another.
* `Db.nexts`, `Consistent.mem_nexts`: where the list of a node leads.
* `wp_eachNew`: the loop over a list meets the neighbours that are new.
-/

namespace OmniJsonDb

namespace Graph

open Exec Waves

variable {P C : Type} {cfg : Config P C} {db db' db₀ : Db P C} {id u v : NodeId} {kind : Char} {key : Key}
  {p q : Key → Prop} {dir : Direction} {edgeFilter : Option (P → Bool)}

/-! ## Records that are read -/

/-- The same graph; of the records in `p`, what is remembered is what is stored. -/
structure Kept (cfg : Config P C) (p : Key → Prop) (db db' : Db P C) : Prop where
  same : Same cfg db db'
  coherent : CoherentOn cfg p db'

theorem CoherentOn.mono (h : CoherentOn cfg p db) (hq : ∀ k, q k → p k) : CoherentOn cfg q db :=
  ⟨h.off, fun k hk => h.on k (hq k hk)⟩

theorem Kept.refl (hs : Sound cfg db) (hc : CoherentOn cfg p db) : Kept cfg p db db := ⟨Same.refl hs, hc⟩

/-- **A record is read**: what is stored, or the default. -/
theorem wp_look {d : Val P} (hp : ∀ k, Derived k → p k) (hs : Sound cfg db) (hk : Kept cfg p db db₀) (hkey : p key) :
    Wp (fRead cfg key d) db₀ (fun v db' => v = (db.look cfg key).getD d ∧ Kept cfg p db db') fun _ _ => False := by
  refine wp_mono wp_fRead ?_ ?_
  · rintro v db' ⟨hr, hv⟩
    rw [← hk.same.look]
    have hlook : db₀.look cfg key = some v ∨ db₀.table.get? key = none ∧ v = d ∧ db' = db₀ := by
      rcases hv with hv | hv | hv
      · exact .inl (hk.coherent.on key hkey v hv)
      · exact .inl hv
      · exact .inr hv
    rcases hlook with hlook | ⟨hnone, rfl, rfl⟩
    · have hc : CoherentOn cfg p db' := hk.coherent.reads hr fun _ => hlook
      rw [hlook]
      exact ⟨rfl, hk.same.trans (hk.same.sound.same (hc.mono hp) hr.table hr.rows), hc⟩
    · rw [look_of_none hnone]
      exact ⟨rfl, hk⟩
  · rintro _ _ ⟨-, data, e, hdata, he⟩
    rw [hk.same.table] at hdata
    obtain ⟨v, hv⟩ := hs.loads key data hdata
    rw [hv] at he
    cases he

/-- The list of a node is read. -/
theorem Consistent.wp_list (h : Consistent cfg db) (hp : ∀ k, Derived k → p k) (hid : id ∈ db.nodeIds)
    (hk : Kept cfg p db db₀) :
    Wp (fGetAdj cfg id) db₀ (fun es db' => es = db.listOf cfg id ∧ Kept cfg p db db') fun _ _ => False := by
  unfold fGetAdj
  rw [wp_bind]
  refine wp_mono (wp_look hp h.sound hk (hp _ derived_adjKey)) ?_ fun _ _ h => h
  rintro v db' ⟨rfl, hk'⟩
  rcases (h.listAt hid).1 with hl | ⟨hl, hnil⟩
  · rw [hl]
    exact ⟨rfl, hk'⟩
  · rw [hl, hnil]
    exact ⟨rfl, hk'⟩

/-! ## Edges that are followed -/

/-- What a search reads: lists, and with a filter any record. -/
def Asked (edgeFilter : Option (P → Bool)) (key : Key) : Prop := Derived key ∨ edgeFilter.isSome = true

theorem asked_of_derived (k : Key) (h : Derived k) : Asked edgeFilter k := .inl h

/-- The same graph for a search that has no filter. -/
abbrev Stays (cfg : Config P C) (db db' : Db P C) : Prop := Kept cfg (Asked (none : Option (P → Bool))) db db'

theorem Stays.refl (hs : Sound cfg db) : Stays cfg db db := by
  refine Kept.refl hs (hs.coherent.mono ?_)
  rintro k (hd | hno)
  · exact hd
  · cases hno

/-- The filter lets the edge with a record through. -/
def Db.keeps (cfg : Config P C) (db : Db P C) (edgeFilter : Option (P → Bool)) (key : Key) : Bool :=
  edgeFilter.all fun keep => keep (asDict cfg ((db.look cfg key).getD noProps))

/-- An edge may be crossed from `u` to `v`: a directed one forward unless only incoming ones are
followed, backward unless only outgoing ones are, an undirected one either way. -/
def Db.Permits (cfg : Config P C) (db : Db P C) (dir : Direction) (edgeFilter : Option (P → Bool)) (u v : NodeId) : Prop :=
  (dir ≠ .inward ∧ (u, true, v) ∈ db.seenEdges ∧ db.keeps cfg edgeFilter (generateEdgeKey u v true) = true) ∨
    (dir ≠ .out ∧ (v, true, u) ∈ db.seenEdges ∧ db.keeps cfg edgeFilter (generateEdgeKey v u true) = true) ∨
      ((u, false, v) ∈ db.seenEdges ∨ (v, false, u) ∈ db.seenEdges) ∧
        db.keeps cfg edgeFilter (generateEdgeKey u v false) = true

/-- Where entries of the list of `id` lead. -/
def Db.nextsOf (cfg : Config P C) (db : Db P C) (dir : Direction) (edgeFilter : Option (P → Bool)) (id : NodeId) :
    List (List Char) → List NodeId
  | [] => []
  | [] :: entries => db.nextsOf cfg dir edgeFilter id entries
  | (kind :: v) :: entries =>
    if dir.skips kind = false ∧ db.keeps cfg edgeFilter (incidentKey id kind v) = true then
      v :: db.nextsOf cfg dir edgeFilter id entries
    else db.nextsOf cfg dir edgeFilter id entries

/-- Where a node leads, in the order of its list. -/
def Db.nexts (cfg : Config P C) (db : Db P C) (dir : Direction) (edgeFilter : Option (P → Bool)) (id : NodeId) :
    List NodeId :=
  if id ∈ db.nodeIds then db.nextsOf cfg dir edgeFilter id (db.listOf cfg id) else []

theorem mem_nextsOf {es : List (List Char)} : v ∈ db.nextsOf cfg dir edgeFilter id es ↔
    ∃ kind, kind :: v ∈ es ∧ dir.skips kind = false ∧ db.keeps cfg edgeFilter (incidentKey id kind v) = true := by
  induction es with
  | nil => simp [Db.nextsOf]
  | cons e es ih =>
    cases e with
    | nil => simp [Db.nextsOf, ih]
    | cons k w =>
      unfold Db.nextsOf
      split
      · rename_i hk
        rw [List.mem_cons, ih]
        constructor
        · rintro (rfl | ⟨kind, hin, hrest⟩)
          · exact ⟨k, List.mem_cons_self, hk⟩
          · exact ⟨kind, List.mem_cons_of_mem _ hin, hrest⟩
        · rintro ⟨kind, hin, hrest⟩
          rcases List.mem_cons.1 hin with heq | hin
          · exact .inl (List.cons.inj heq).2
          · exact .inr ⟨kind, hin, hrest⟩
      · rename_i hk
        rw [ih]
        constructor
        · rintro ⟨kind, hin, hrest⟩
          exact ⟨kind, List.mem_cons_of_mem _ hin, hrest⟩
        · rintro ⟨kind, hin, hrest⟩
          refine ⟨kind, (List.mem_cons.1 hin).resolve_left ?_, hrest⟩
          intro heq
          obtain ⟨rfl, rfl⟩ := List.cons.inj heq
          exact hk hrest

/-- Edges that may be crossed go from node to node. -/
theorem Consistent.mem_of_permits (h : Consistent cfg db) (hp : db.Permits cfg dir edgeFilter u v) :
    u ∈ db.nodeIds ∧ v ∈ db.nodeIds := by
  rcases hp with ⟨-, he, -⟩ | ⟨-, he, -⟩ | ⟨he | he, -⟩
  · exact h.ends u true v he
  · exact (h.ends v true u he).symm
  · exact h.ends u false v he
  · exact (h.ends v false u he).symm

/-- **The list of a node leads** where its edges do. -/
theorem Consistent.mem_nexts (h : Consistent cfg db) :
    v ∈ db.nexts cfg dir edgeFilter u ↔ db.Permits cfg dir edgeFilter u v := by
  unfold Db.nexts
  by_cases hu : u ∈ db.nodeIds
  · rw [if_pos hu, mem_nextsOf]
    simp only [(h.listAt hu).2, mem_implied_cons]
    constructor
    · rintro ⟨kind, ⟨rfl, he⟩ | ⟨rfl, he⟩ | ⟨rfl, he⟩, hskip, hkeep⟩
      · refine .inl ⟨?_, he, hkeep⟩
        rintro rfl
        cases hskip
      · refine .inr (.inl ⟨?_, he, hkeep⟩)
        rintro rfl
        cases hskip
      · exact .inr (.inr ⟨he, hkeep⟩)
    · rintro (⟨hdir, he, hkeep⟩ | ⟨hdir, he, hkeep⟩ | ⟨he, hkeep⟩)
      · refine ⟨'>', .inl ⟨rfl, he⟩, ?_, hkeep⟩
        cases dir with
        | inward => exact absurd rfl hdir
        | _ => rfl
      · refine ⟨'<', .inr (.inl ⟨rfl, he⟩), ?_, hkeep⟩
        cases dir with
        | out => exact absurd rfl hdir
        | _ => rfl
      · refine ⟨'-', .inr (.inr ⟨rfl, he⟩), ?_, hkeep⟩
        cases dir <;> rfl
  · rw [if_neg hu]
    constructor
    · intro hin
      exact absurd hin List.not_mem_nil
    · intro hp
      exact absurd (h.mem_of_permits hp).1 hu

/-- The edges that may be crossed, as a relation. -/
theorem Consistent.nexts_eq (h : Consistent cfg db) :
    (fun a b => b ∈ db.nexts cfg dir edgeFilter a) = db.Permits cfg dir edgeFilter := by
  funext a b
  exact propext h.mem_nexts

/-! ## The loop over a list -/

/-- The filter is asked. -/
theorem wp_passes (hs : Sound cfg db) (hk : Kept cfg (Asked edgeFilter) db db₀) :
    Wp (passes cfg edgeFilter id kind v) db₀
      (fun b db' => b = db.keeps cfg edgeFilter (incidentKey id kind v) ∧ Kept cfg (Asked edgeFilter) db db')
      fun _ _ => False := by
  unfold passes
  cases edgeFilter with
  | none => exact ⟨rfl, hk⟩
  | some keep =>
    rw [wp_bind]
    refine wp_mono (wp_look asked_of_derived hs hk (.inr rfl)) ?_ fun _ _ h => h
    rintro props db' ⟨rfl, hk'⟩
    exact ⟨rfl, hk'⟩

/-- **The loop over a list** meets the neighbours that are new, in order. -/
theorem wp_eachNew {σ : Type} (hs : Sound cfg db) (meet : NodeId → σ → σ) (entries : List (List Char)) (hnil : [] ∉ entries)
    (visited : List NodeId) (st : σ) (hk : Kept cfg (Asked edgeFilter) db db₀) :
    Wp (eachNew cfg dir edgeFilter id meet entries visited st) db₀
      (fun r db' => r = ((fresh visited (db.nextsOf cfg dir edgeFilter id entries)).reverse ++ visited,
        (fresh visited (db.nextsOf cfg dir edgeFilter id entries)).foldl (fun st y => meet y st) st) ∧
        Kept cfg (Asked edgeFilter) db db') fun _ _ => False := by
  induction entries generalizing visited st db₀ with
  | nil =>
    unfold eachNew
    rw [wp_ret]
    exact ⟨rfl, hk⟩
  | cons e entries ih =>
    rw [List.mem_cons, not_or] at hnil
    cases e with
    | nil => exact absurd rfl hnil.1
    | cons kind w =>
      unfold eachNew Db.nextsOf
      rw [wp_ite]
      constructor
      · intro hskip
        rw [if_neg fun h => by rw [hskip] at h; cases h.1]
        exact ih hnil.2 visited st hk
      · intro hskip
        have hskip : dir.skips kind = false := by simpa using hskip
        rw [wp_ite]
        constructor
        · intro hin
          -- one that has been visited is not new, whatever the filter says
          have hsame : fresh visited (if dir.skips kind = false ∧ db.keeps cfg edgeFilter (incidentKey id kind w) = true then
              w :: db.nextsOf cfg dir edgeFilter id entries else db.nextsOf cfg dir edgeFilter id entries) =
              fresh visited (db.nextsOf cfg dir edgeFilter id entries) := by
            split
            · rw [fresh, if_pos hin]
            · rfl
          rw [hsame]
          exact ih hnil.2 visited st hk
        · intro hout
          rw [wp_bind]
          refine wp_mono (wp_passes hs hk) ?_ fun _ _ h => h
          rintro b db₁ ⟨rfl, hk₁⟩
          cases hkeep : db.keeps cfg edgeFilter (incidentKey id kind w) with
          | true =>
            rw [if_pos ⟨hskip, rfl⟩, fresh, if_neg hout, List.reverse_cons, List.append_assoc, List.foldl_cons]
            exact ih hnil.2 (w :: visited) (meet w st) hk₁
          | false =>
            rw [if_neg fun h => by cases h.2]
            exact ih hnil.2 visited st hk₁

/-- The list of a node is read, and the neighbours that are new are met. -/
theorem Consistent.wp_meet {σ : Type} {β : Type} (h : Consistent cfg db) (hid : id ∈ db.nodeIds) (meet : NodeId → σ → σ)
    (visited : List NodeId) (st : σ) (hk : Kept cfg (Asked edgeFilter) db db₀) {k : List NodeId × σ → GraphM P C β}
    {Q : β → Db P C → Prop}
    (hnext : ∀ db₁, Kept cfg (Asked edgeFilter) db db₁ →
      Wp (k ((fresh visited (db.nexts cfg dir edgeFilter id)).reverse ++ visited,
        (fresh visited (db.nexts cfg dir edgeFilter id)).foldl (fun st y => meet y st) st)) db₁ Q fun _ _ => False) :
    Wp (do let adj ← fGetAdj cfg id; let r ← eachNew cfg dir edgeFilter id meet adj visited st; k r) db₀ Q
      fun _ _ => False := by
  have hnexts : db.nexts cfg dir edgeFilter id = db.nextsOf cfg dir edgeFilter id (db.listOf cfg id) := by
    unfold Db.nexts
    rw [if_pos hid]
  rw [wp_bind]
  refine wp_mono (h.wp_list asked_of_derived hid hk) ?_ fun _ _ h => h
  rintro adj db₁ ⟨rfl, hk₁⟩
  rw [wp_bind]
  refine wp_mono (wp_eachNew h.sound meet _ (h.nil_not_mem_listOf hid) visited st hk₁) ?_ fun _ _ h => h
  rintro r db₂ ⟨rfl, hk₂⟩
  rw [← hnexts]
  exact hnext db₂ hk₂

/-- Nothing is remembered of the small graph. -/
theorem coherentOn_small : CoherentOn asIs p small := by
  refine ⟨?_, ?_⟩
  · intro _ k
    exact OrdDict.get?_empty k
  · intro k _ v hv
    rw [show small.cache = OrdDict.empty from rfl, OrdDict.get?_empty] at hv
    cases hv

end Graph

end OmniJsonDb
