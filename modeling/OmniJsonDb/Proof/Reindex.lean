import Mathlib.Data.List.Induction
import OmniJsonDb.Proof.GraphIndex

/-!
# Rebuilding the lists

The scan gathers the old lists, the edges with a missing end and the entries the others imply; then
the old keys are deleted, the new lists written and the counters set.

* `gathers`: what the scan gathers.
* `wp_dropKeys`, `wp_writeAdjs`: the two loops.
* `wp_reindex`: what the store holds afterwards.
* `Rebuilt.indexed`, `Rebuilt.again`: nothing is amiss then, and doing it again changes nothing.
-/

namespace OmniJsonDb

namespace Graph

open Exec

variable {P C : Type} {cfg : Config P C} {db db' : Db P C} {key : Key} {id u v : NodeId} {x : List Char}

/-! ## The scan -/

/-- Both ends are there. -/
def Db.joins (db : Db P C) (e : Edge) : Bool := db.holds (nodeKey e.1) && db.holds (nodeKey e.2.2)

/-- A key that goes: a list, or an edge with a missing end. -/
def Db.old (db : Db P C) (key : Key) : Bool := (adjMatch key).isSome || (edgeMatch key).any fun e => !db.joins e

/-- The edges that stay, of some keys. -/
def Db.liveOf (db : Db P C) (keys : List Key) : List Edge := (keys.filterMap edgeMatch).filter db.joins

abbrev Db.liveEdges (db : Db P C) : List Edge := db.liveOf db.table.keys

/-- A list, or nothing where it is empty. -/
def unlessNil {α : Type} (xs : List α) : Option (List α) := if xs = [] then none else some xs

/-- What the scan has gathered of some keys. -/
structure Gathers (db : Db P C) (keys : List Key) (g : Gathered) : Prop where
  oldKeys : g.oldKeys.map Prod.snd = keys.filter db.old
  newAdj : ∀ id, g.newAdj.get? id = unlessNil (implied id (db.liveOf keys))
  nodes : g.nodes = (keys.filterMap nodeMatch).length
  edges : g.edges = (db.liveOf keys).length
  directed : g.directed = (db.liveOf keys).countP (·.2.1)

/-- One edge adds its entries. -/
theorem get?_appendTo {d : OrdDict NodeId (List (List Char))} {e : Edge} {xs : List (List Char)}
    (h : d.get? id = unlessNil xs) :
    (appendTo (appendTo d e.1 (outEntry e.2.1 e.2.2)) e.2.2 (inEntry e.2.1 e.1)).get? id =
      unlessNil (xs ++ entriesAt id e) := by
  have hget : (d.get? id).getD [] = xs := by
    rw [h]
    unfold unlessNil
    split
    · rename_i hnil
      exact hnil.symm
    · rfl
  unfold appendTo
  rw [OrdDict.get?_set, OrdDict.get?_set, OrdDict.get?_set]
  by_cases h₁ : e.1 = id
  · by_cases h₂ : e.2.2 = id
    · simp [h₁, h₂, hget, unlessNil, entriesAt]
    · simp [h₁, h₂, hget, unlessNil, entriesAt, Ne.symm h₂]
  · by_cases h₂ : e.2.2 = id
    · simp [h₁, h₂, hget, unlessNil, entriesAt, Ne.symm h₁]
    · simp [h₁, h₂, h, entriesAt, Ne.symm h₁, Ne.symm h₂]

/-- A key that is no edge that stays. -/
theorem Gathers.besides {keys : List Key} {g g' : Gathered} (h : Gathers db keys g)
    (hlive : db.liveOf (keys ++ [key]) = db.liveOf keys) (hadj : g'.newAdj = g.newAdj) (hedges : g'.edges = g.edges)
    (hdir : g'.directed = g.directed) (hold : g'.oldKeys.map Prod.snd = (keys ++ [key]).filter db.old)
    (hnodes : g'.nodes = ((keys ++ [key]).filterMap nodeMatch).length) : Gathers db (keys ++ [key]) g' where
  oldKeys := hold
  newAdj id := by rw [hlive, hadj]; exact h.newAdj id
  nodes := hnodes
  edges := by rw [hlive, hedges]; exact h.edges
  directed := by rw [hlive, hdir]; exact h.directed

/-- Two keys that start differently are not read alike. -/
theorem eq_none_of_head? {α β : Type} {f : Key → Option α} {g : Key → Option β} {a b : Char} {y : β}
    (hf : ∀ {y}, f key = some y → key.head? = some a) (hg : ∀ {y}, g key = some y → key.head? = some b)
    (hab : a ≠ b) (h : g key = some y) : f key = none := by
  rw [Option.eq_none_iff_forall_ne_some]
  intro _ h'
  have := (hf h').symm.trans (hg h)
  exact hab (Option.some.inj this)

/-- One key more. -/
theorem Gathers.step {keys : List Key} {g : Gathered} (h : Gathers db keys g) :
    Gathers db (keys ++ [key]) (g.key db key) := by
  obtain ⟨hold, hadj, hnodes, hedges, hdir⟩ := id h
  unfold Gathered.key
  cases hm : adjMatch key with
  | some id =>
    have hn : nodeMatch key = none := eq_none_of_head? head?_of_nodeMatch head?_of_adjMatch (by decide) hm
    have he : edgeMatch key = none := eq_none_of_head? head?_of_edgeMatch head?_of_adjMatch (by decide) hm
    simp only [Option.isSome_some, if_true]
    apply h.besides
    · simp [Db.liveOf, he]
    · rfl
    · rfl
    · rfl
    · simp [hold, List.filter_append, Db.old, hm]
    · simp [hnodes, hn]
  | none =>
    simp only [Option.isSome_none, Bool.false_eq_true, if_false]
    cases he : edgeMatch key with
    | some e =>
      obtain ⟨src, d, dst⟩ := e
      have hn : nodeMatch key = none := eq_none_of_head? head?_of_nodeMatch head?_of_edgeMatch (by decide) he
      cases hj : db.joins (src, d, dst) with
      | true =>
        have hboth : (!db.holds (nodeKey src) || !db.holds (nodeKey dst)) = false := by
          simpa [Db.joins] using hj
        have hlive : db.liveOf (keys ++ [key]) = db.liveOf keys ++ [(src, d, dst)] := by
          simp [Db.liveOf, List.filter_append, he, hj]
        simp only [hboth, Bool.false_eq_true, if_false]
        refine ⟨?_, ?_, ?_, ?_, ?_⟩
        · simp [hold, List.filter_append, Db.old, hm, he, hj]
        · intro id
          rw [hlive]
          unfold implied
          rw [List.flatMap_append, List.flatMap_singleton]
          exact get?_appendTo (e := (src, d, dst)) (hadj id)
        · simp [hnodes, hn]
        · simp [hlive, hedges]
        · rw [hlive, List.countP_append, List.countP_singleton, ← hdir]
          cases d <;> rfl
      | false =>
        have hone : (!db.holds (nodeKey src) || !db.holds (nodeKey dst)) = true := by
          unfold Db.joins at hj
          revert hj
          cases db.holds (nodeKey src) <;> cases db.holds (nodeKey dst) <;> decide
        simp only [hone, if_true]
        apply h.besides
        · simp [Db.liveOf, List.filter_append, he, hj]
        · rfl
        · rfl
        · rfl
        · simp [hold, List.filter_append, Db.old, he, hj]
        · simp [hnodes, hn]
    | none =>
      have hlive : db.liveOf (keys ++ [key]) = db.liveOf keys := by simp [Db.liveOf, he]
      have holdk : (keys ++ [key]).filter db.old = keys.filter db.old := by
        simp [List.filter_append, Db.old, hm, he]
      cases hn : nodeMatch key with
      | some id =>
        simp only [Option.isSome_some, if_true]
        exact h.besides hlive rfl rfl rfl (by rw [holdk, hold]) (by simp [hnodes, hn])
      | none =>
        simp only [Option.isSome_none, Bool.false_eq_true, if_false]
        exact h.besides hlive rfl rfl rfl (by rw [holdk, hold]) (by simp [hnodes, hn])

/-- **What the scan gathers.** -/
theorem gathers (db : Db P C) (keys : List Key) :
    Gathers db keys (keys.foldl (Gathered.key db) ⟨[], OrdDict.empty, 0, 0, 0⟩) := by
  induction keys using List.reverseRecOn with
  | nil => exact ⟨rfl, fun _ => rfl, rfl, rfl, rfl⟩
  | append_singleton keys key ih =>
    rw [List.foldl_append]
    exact ih.step

/-! ## The two loops -/

/-- Some keys have gone. -/
structure Dropped (gone : List Key) (db db' : Db P C) : Prop where
  get : ∀ k, db'.table.get? k = if k ∈ gone then none else db.table.get? k
  keys : db'.table.keys = db.table.keys.filter (· ∉ gone)

/-- **The old keys go.** -/
theorem wp_dropKeys (ks : List (ℕ × Key)) (hc : Coherent cfg db) (hnd : (ks.map Prod.snd).Nodup)
    (hin : ∀ k ∈ ks.map Prod.snd, k ∈ db.table.keys) :
    Wp (dropKeys cfg ks) db (fun _ db' => Dropped (ks.map Prod.snd) db db' ∧ Coherent cfg db') fun _ _ => False := by
  induction ks generalizing db with
  | nil =>
    unfold dropKeys
    rw [wp_ret]
    refine ⟨⟨fun k => ?_, ?_⟩, hc⟩
    · simp
    · simp
  | cons rk ks ih =>
    obtain ⟨r, key⟩ := rk
    rw [List.map_cons, List.nodup_cons] at hnd
    obtain ⟨data, hdata⟩ := OrdDict.mem_keys_iff.1 (hin key List.mem_cons_self)
    unfold dropKeys
    rw [wp_bind]
    refine wp_mono (wp_fDelete hdata fun h => by cases h) ?_ fun _ _ h => h
    intro _ db₁ h
    have hin₁ : ∀ k ∈ ks.map Prod.snd, k ∈ db₁.table.keys := by
      intro k hk
      rw [h.table, OrdDict.keys_pop, List.mem_filter]
      refine ⟨hin k (List.mem_cons_of_mem _ hk), ?_⟩
      have hne : k ≠ key := fun hkk => hnd.1 (hkk ▸ hk)
      simpa using hne
    refine wp_mono (ih (hc.deleted h) hnd.2 hin₁) ?_ fun _ _ h => h
    rintro _ db' ⟨hd, hc'⟩
    refine ⟨⟨fun k => ?_, ?_⟩, hc'⟩
    · rw [hd.get, h.table, OrdDict.get?_pop, List.map_cons]
      by_cases hk : k ∈ ks.map Prod.snd
      · rw [if_pos hk, if_pos (List.mem_cons_of_mem _ hk)]
      · by_cases hkk : k = key
        · simp [hkk]
        · simp [hk, hkk]
    · rw [hd.keys, h.table, OrdDict.keys_pop, List.filter_filter, List.map_cons]
      congr 1
      funext k
      simp only [List.mem_cons, not_or, Bool.decide_and]
      exact Bool.and_comm _ _

/-- The lists are there, and nothing else has changed. -/
structure Written (cfg : Config P C) (es : List (NodeId × List (List Char))) (db db' : Db P C) : Prop where
  lists : ∀ e ∈ es, db'.look cfg (adjKey e.1) = some (.adj e.2)
  other : ∀ k, (∀ e ∈ es, k ≠ adjKey e.1) → db'.table.get? k = db.table.get? k
  reads : ∀ {α : Type} (f : Key → Option α), (∀ id, f (adjKey id) = none) →
    db'.table.keys.filterMap f = db.table.keys.filterMap f

/-- What is not read off a key that comes. -/
theorem Put.filterMap {v : Val P} {α : Type} (h : Put cfg key v db db') {f : Key → Option α} (hf : f key = none) :
    db'.table.keys.filterMap f = db.table.keys.filterMap f := by
  rw [h.keys]
  split
  · rfl
  · simp [hf]

/-- **The new lists come.** -/
theorem wp_writeAdjs [DecidableEq C] (law : Lawful cfg) (es : List (NodeId × List (List Char))) (hc : Coherent cfg db)
    (hnd : (es.map Prod.fst).Nodup) (ht : ∀ e ∈ es, cfg.takes (adjKey e.1) = true) :
    Wp (writeAdjs cfg es) db (fun _ db' => Written cfg es db db' ∧ Coherent cfg db') fun _ _ => False := by
  induction es generalizing db with
  | nil =>
    unfold writeAdjs
    rw [wp_ret]
    refine ⟨⟨?_, ?_, ?_⟩, hc⟩
    · intro e he
      cases he
    · intro k _
      rfl
    · intro _ f _
      rfl
  | cons e es ih =>
    obtain ⟨id, entries⟩ := e
    rw [List.map_cons, List.nodup_cons] at hnd
    unfold writeAdjs
    rw [wp_bind]
    refine wp_mono (wp_put derived_adjKey trivial (law.adj entries) (ht _ List.mem_cons_self) (hc.but _)
      fun _ => hc) ?_ fun _ _ h => h
    rintro _ db₁ ⟨hp, hc₁⟩
    refine wp_mono (ih hc₁ hnd.2 fun e he => ht e (List.mem_cons_of_mem _ he)) ?_ fun _ _ h => h
    rintro _ db' ⟨hw, hc'⟩
    refine ⟨⟨?_, ?_, ?_⟩, hc'⟩
    · intro e he
      rcases List.mem_cons.1 he with rfl | he
      · -- the later ones are other lists
        have hlater : ∀ e ∈ es, adjKey id ≠ adjKey e.1 := by
          intro e he hk
          have hmem : e.1 ∈ es.map Prod.fst := List.mem_map_of_mem he
          exact hnd.1 (adjKey_inj hk ▸ hmem)
        rw [look_other (hw.other _ hlater)]
        exact hp.here
      · exact hw.lists e he
    · intro k hk
      rw [hw.other k fun e he => hk e (List.mem_cons_of_mem _ he)]
      exact hp.other k (hk _ List.mem_cons_self)
    · intro _ f hf
      rw [hw.reads f hf]
      exact hp.filterMap (hf id)

/-! ## The store afterwards -/

/-- What the store holds once the lists have been rebuilt. -/
structure Rebuilt (cfg : Config P C) (db db' : Db P C) : Prop where
  coherent : Coherent cfg db'
  edges : db'.seenEdges = db.liveEdges
  records : db'.edges = (db.table.keys.filter fun k => !db.old k).filterMap edgeOf
  nodes : db'.table.keys.filterMap nodeMatch = db.table.keys.filterMap nodeMatch
  lists : ∀ id, implied id db.liveEdges ≠ [] → db'.look cfg (adjKey id) = some (.adj (implied id db.liveEdges))
  gone : ∀ key, db.old key = true → (∀ id, key = adjKey id → implied id db.liveEdges = []) → db'.table.get? key = none
  kept : ∀ key, db.old key = false → ¬ IsCounter key → db'.table.get? key = db.table.get? key
  nNodes : db'.look cfg N_NODES = some (.num (db.table.keys.filterMap nodeMatch).length)
  nEdges : db'.look cfg N_EDGES = some (.num db.liveEdges.length)
  nDirected : db'.look cfg N_DIRECTED = some (.num (db.liveEdges.countP (·.2.1)))

theorem unlessNil_eq_some {α : Type} {xs ys : List α} : unlessNil xs = some ys ↔ xs ≠ [] ∧ ys = xs := by
  unfold unlessNil
  split
  · rename_i h
    simp [h]
  · rename_i h
    simp only [Option.some.injEq, ne_eq, h, not_false_iff, true_and]
    exact eq_comm

theorem mem_liveOf {keys : List Key} {e : Edge} :
    e ∈ db.liveOf keys ↔ (∃ key ∈ keys, edgeMatch key = some e) ∧ db.joins e = true := by
  unfold Db.liveOf
  rw [List.mem_filter, List.mem_filterMap]

/-- What an implied entry comes from. -/
theorem exists_of_implied {keys : List Key} (h : implied id (db.liveOf keys) ≠ []) :
    ∃ key ∈ keys, ∃ u d v, edgeMatch key = some (u, d, v) ∧ (u = id ∨ v = id) := by
  obtain ⟨x, hx⟩ := List.exists_mem_of_ne_nil _ h
  obtain ⟨⟨u, d, v⟩, he, hx⟩ := mem_implied.1 hx
  obtain ⟨⟨key, hkey, hm⟩, -⟩ := mem_liveOf.1 he
  refine ⟨key, hkey, u, d, v, hm, ?_⟩
  rcases mem_entriesAt.1 hx with ⟨h, -⟩ | ⟨h, -⟩
  · exact .inl h
  · exact .inr h

theorem seen_of_implied {keys : List Key} (h : implied id (db.liveOf keys) ≠ []) : Seen id := by
  obtain ⟨key, -, u, d, v, hm, hid⟩ := exists_of_implied h
  obtain ⟨hu, hv⟩ := edgeMatch_seen hm
  rcases hid with rfl | rfl
  · exact hu
  · exact hv

/-- Where an edge has room, so have the lists of its ends. -/
theorem takes_of_implied {keys : List Key} (law : Lawful cfg) (ht : ∀ key ∈ keys, cfg.takes key = true)
    (h : implied id (db.liveOf keys) ≠ []) : cfg.takes (adjKey id) = true := by
  obtain ⟨key, hkey, u, d, v, hm, hid⟩ := exists_of_implied h
  obtain ⟨hu, hv⟩ := law.ends key u d v (edgeMatch_edgeOf hm) (ht key hkey)
  rcases hid with rfl | rfl
  · exact law.list _ hu
  · exact law.list _ hv

theorem old_adjKey (h : Seen id) : db.old (adjKey id) = true := by
  unfold Db.old
  rw [adjMatch_adjKey h]
  rfl

theorem not_old_of_counter (h : IsCounter key) : db.old key = false := by
  rcases h with rfl | rfl | rfl <;> rfl

/-- Of the keys that stay, the edges are those that stay. -/
theorem filterMap_edgeMatch (keys : List Key) :
    (keys.filter fun k => !db.old k).filterMap edgeMatch = db.liveOf keys := by
  induction keys with
  | nil => rfl
  | cons key keys ih =>
    unfold Db.liveOf at ih ⊢
    rw [List.filter_cons]
    cases he : edgeMatch key with
    | none =>
      rw [List.filterMap_cons_none he, ← ih]
      split
      · rw [List.filterMap_cons_none he]
      · rfl
    | some e =>
      have hm : adjMatch key = none := eq_none_of_head? head?_of_adjMatch head?_of_edgeMatch (by decide) he
      have hold : (!db.old key) = db.joins e := by simp [Db.old, hm, he]
      rw [List.filterMap_cons_some he, hold, List.filter_cons, ← ih]
      split
      · rw [List.filterMap_cons_some he]
      · rfl

/-- Nodes stay. -/
theorem filterMap_nodeMatch (keys : List Key) :
    (keys.filter fun k => !db.old k).filterMap nodeMatch = keys.filterMap nodeMatch := by
  induction keys with
  | nil => rfl
  | cons key keys ih =>
    rw [List.filter_cons]
    cases hn : nodeMatch key with
    | none =>
      rw [List.filterMap_cons_none hn, ← ih]
      split
      · rw [List.filterMap_cons_none hn]
      · rfl
    | some id =>
      have hm : adjMatch key = none := eq_none_of_head? head?_of_adjMatch head?_of_nodeMatch (by decide) hn
      have he : edgeMatch key = none := eq_none_of_head? head?_of_edgeMatch head?_of_nodeMatch (by decide) hn
      have hold : db.old key = false := by simp [Db.old, hm, he]
      rw [hold, Bool.not_false, if_pos rfl, List.filterMap_cons_some hn, List.filterMap_cons_some hn, ih]

/-- **What the store holds once the lists have been rebuilt.** -/
theorem wp_reindex [DecidableEq C] (law : Lawful cfg) (hc : Coherent cfg db)
    (ht : ∀ key ∈ db.table.keys, cfg.takes key = true) :
    Wp (reindex cfg) db (fun _ db' => Rebuilt cfg db db') fun _ _ => False := by
  unfold reindex
  rw [wp_bind, wp_get]
  have hg := gathers db db.table.keys
  revert hg
  generalize db.table.keys.foldl (Gathered.key db) ⟨[], OrdDict.empty, 0, 0, 0⟩ = g
  intro hg
  -- what is deleted are the old keys, later rows first
  have hperm : ((g.oldKeys.mergeSort laterFirst).map Prod.snd).Perm (db.table.keys.filter db.old) := by
    rw [← hg.oldKeys]
    exact (List.mergeSort_perm _ _).map _
  have hgone : ∀ k, k ∈ (g.oldKeys.mergeSort laterFirst).map Prod.snd ↔ k ∈ db.table.keys ∧ db.old k = true := by
    intro k
    rw [hperm.mem_iff, List.mem_filter]
  rw [wp_bind]
  refine wp_mono (wp_dropKeys _ hc (hperm.nodup_iff.2 (db.table.nodup_keys.filter _)) fun k hk => ((hgone k).1 hk).1) ?_
    fun _ _ h => h
  rintro _ db₁ ⟨hdrop, hc₁⟩
  have hkeys₁ : db₁.table.keys = db.table.keys.filter fun k => !db.old k := by
    rw [hdrop.keys]
    refine List.filter_congr fun k hk => ?_
    simp [hgone, hk]
  -- what is written are the lists the edges imply
  have hes : ∀ e, e ∈ g.newAdj.entries ↔ implied e.1 db.liveEdges ≠ [] ∧ e.2 = implied e.1 db.liveEdges := by
    rintro ⟨id, es⟩
    rw [OrdDict.mem_entries_iff, hg.newAdj, unlessNil_eq_some]
  rw [wp_bind]
  refine wp_mono (wp_writeAdjs law _ hc₁ g.newAdj.nodup fun e he => takes_of_implied law ht ((hes e).1 he).1) ?_
    fun _ _ h => h
  rintro _ db₂ ⟨hw, hc₂⟩
  rw [wp_bind]
  refine wp_mono (wp_setNum law (.inl rfl) g.nodes hc₂) ?_ fun _ _ h => h
  rintro _ db₃ ⟨hn, hc₃⟩
  rw [wp_bind]
  refine wp_mono (wp_setNum law (.inr (.inl rfl)) g.edges hc₃) ?_ fun _ _ h => h
  rintro _ db₄ ⟨he, hc₄⟩
  rw [wp_bind]
  refine wp_mono (wp_setNum law (.inr (.inr rfl)) g.directed hc₄) ?_ fun _ _ h => h
  rintro _ db₅ ⟨hd, hc₅⟩
  rw [wp_ret]
  have hreads : ∀ {α : Type} (f : Key → Option α), (∀ id, f (adjKey id) = none) → f N_NODES = none →
      f N_EDGES = none → f N_DIRECTED = none →
      db₅.table.keys.filterMap f = (db.table.keys.filter fun k => !db.old k).filterMap f := by
    intro α f hadj h₁ h₂ h₃
    rw [hd.filterMap h₃, he.filterMap h₂, hn.filterMap h₁, hw.reads f hadj, hkeys₁]
  -- a key that is no counter
  have hother : ∀ k, ¬ IsCounter k → db₅.table.get? k = db₂.table.get? k := by
    intro k hk
    rw [hd.other k fun h => hk (.inr (.inr h)), he.other k fun h => hk (.inr (.inl h)), hn.other k fun h => hk (.inl h)]
  have hadj : ∀ id, ¬ IsCounter (adjKey id) := by
    intro id h
    rcases h with h | h | h <;> cases h
  refine ⟨hc₅, ?_, ?_, ?_, ?_, ?_, ?_, ?_, ?_, ?_⟩
  · unfold Db.seenEdges
    rw [hreads edgeMatch (fun id => rfl) rfl rfl rfl, filterMap_edgeMatch]
  · exact hreads edgeOf (fun id => rfl) rfl rfl rfl
  · rw [hreads nodeMatch (fun id => rfl) rfl rfl rfl, filterMap_nodeMatch]
  · intro id hid
    rw [look_other (hother _ (hadj id))]
    exact hw.lists (id, implied id db.liveEdges) ((hes _).2 ⟨hid, rfl⟩)
  · intro key hold hno
    rw [hother key fun h => by rw [not_old_of_counter h] at hold; cases hold]
    rw [hw.other key ?_, hdrop.get]
    · split
      · rfl
      · rename_i hk
        rw [OrdDict.get?_eq_none_iff]
        intro hin
        exact hk ((hgone key).2 ⟨hin, hold⟩)
    · intro e he hk
      exact ((hes e).1 he).1 (hno e.1 hk)
  · intro key hold hk
    rw [hother key hk, hw.other key ?_, hdrop.get, if_neg]
    · intro hin
      rw [((hgone key).1 hin).2] at hold
      cases hold
    · rintro e he rfl
      rw [old_adjKey (seen_of_implied ((hes e).1 he).1)] at hold
      cases hold
  · rw [look_other (hd.other _ (by decide)), look_other (he.other _ (by decide)), hn.here, hg.nodes]
  · rw [look_other (hd.other _ (by decide)), he.here, hg.edges]
  · rw [hd.here, hg.directed]

/-- Nodes stay. -/
theorem Rebuilt.holds_node (h : Rebuilt cfg db db') (id : NodeId) : db'.holds (nodeKey id) = db.holds (nodeKey id) := by
  unfold Db.holds OrdDict.contains
  rw [h.kept (nodeKey id) (by rfl) (by rintro (h | h | h) <;> cases h)]

theorem Rebuilt.joins_eq (h : Rebuilt cfg db db') : db'.joins = db.joins := by
  funext e
  unfold Db.joins
  rw [h.holds_node, h.holds_node]

theorem Rebuilt.old_eq (h : Rebuilt cfg db db') : db'.old = db.old := by
  funext key
  unfold Db.old
  rw [h.joins_eq]

theorem Rebuilt.liveEdges_eq (h : Rebuilt cfg db db') : db'.liveEdges = db.liveEdges := by
  have hedges : db'.seenEdges = db.liveEdges := h.edges
  unfold Db.seenEdges at hedges
  unfold Db.liveEdges Db.liveOf
  rw [hedges, h.joins_eq]
  unfold Db.liveEdges Db.liveOf
  rw [List.filter_filter]
  simp only [Bool.and_self]

/-- The list of an id that is seen. -/
theorem Rebuilt.lists_of_seen (h : Rebuilt cfg db db') (hid : Seen id) : db'.Lists cfg id (implied id db.liveEdges) := by
  by_cases hnil : implied id db.liveEdges = []
  · rw [hnil]
    refine .inr ⟨h.gone _ (old_adjKey hid) ?_, rfl⟩
    intro id' hk
    rw [← adjKey_inj hk]
    exact hnil
  · exact .inl (h.lists id hnil)

theorem mem_keys_of_look {v : Val P} (h : db.look cfg key = some v) : key ∈ db.table.keys := by
  obtain ⟨data, hdata, -⟩ := get?_of_look h
  exact OrdDict.mem_keys_iff.2 ⟨data, hdata⟩

/-- A list that is there after the lists have been rebuilt is a new one. -/
theorem Rebuilt.new_of_adjMatch (h : Rebuilt cfg db db') (hk : key ∈ db'.table.keys) (hm : adjMatch key = some id) :
    key = adjKey id ∧ implied id db.liveEdges ≠ [] := by
  have hold : db.old key = true := by simp [Db.old, hm]
  by_contra hno
  have hnone := h.gone key hold fun id' hk' => by
    by_contra hnil
    subst hk'
    rw [adjMatch_adjKey (seen_of_implied hnil)] at hm
    exact hno ⟨by rw [Option.some.inj hm], by rwa [← Option.some.inj hm]⟩
  exact OrdDict.get?_eq_none_iff.1 hnone hk

/-- **Nothing is amiss** once the lists have been rebuilt. -/
theorem Rebuilt.indexed (h : Rebuilt cfg db db') : Indexed cfg db' where
  lists key hk id hm := by
    obtain ⟨rfl, hnil⟩ := h.new_of_adjMatch hk hm
    refine ⟨_, h.lists id hnil, fun x => ?_⟩
    rw [h.edges]
  absent id hno := by
    rw [h.edges]
    by_contra hnil
    exact hno ⟨adjKey id, mem_keys_of_look (h.lists id hnil), adjMatch_adjKey (seen_of_implied hnil)⟩
  nodes := by
    have hcount : (db'.table.keys.filter fun key => (nodeMatch key).isSome).length = (db'.table.keys.filterMap nodeMatch).length := by
      rw [List.length_filterMap_eq_countP, List.countP_eq_length_filter]
    rw [hcount, h.nodes]
    exact .inl h.nNodes
  edges := by
    rw [h.edges]
    exact .inl h.nEdges
  directed := by
    rw [h.edges]
    exact .inl h.nDirected

theorem holds_of_look {v : Val P} (h : db.look cfg key = some v) : db.holds key = true := by
  obtain ⟨data, hdata, -⟩ := get?_of_look h
  exact OrdDict.contains_iff.2 ⟨data, hdata⟩

/-- **Rebuilding again changes nothing.** -/
theorem Rebuilt.again {db'' : Db P C} (h : Rebuilt cfg db db') (h' : Rebuilt cfg db' db'') (key : Key) :
    db''.look cfg key = db'.look cfg key ∧ db''.holds key = db'.holds key := by
  have hsame : (∃ v, db''.look cfg key = some v ∧ db'.look cfg key = some v) ∨
      db''.table.get? key = db'.table.get? key := by
    by_cases hc : IsCounter key
    · refine .inl ?_
      rcases hc with rfl | rfl | rfl
      · exact ⟨_, h'.nNodes, by rw [h.nodes]; exact h.nNodes⟩
      · exact ⟨_, h'.nEdges, by rw [h.liveEdges_eq]; exact h.nEdges⟩
      · exact ⟨_, h'.nDirected, by rw [h.liveEdges_eq]; exact h.nDirected⟩
    · cases hold : db.old key with
      | false => exact .inr (h'.kept key (by rw [h.old_eq]; exact hold) hc)
      | true =>
        by_cases hlist : ∃ id, key = adjKey id ∧ implied id db.liveEdges ≠ []
        · obtain ⟨id, rfl, hnil⟩ := hlist
          refine .inl ⟨_, h'.lists id (by rw [h.liveEdges_eq]; exact hnil), ?_⟩
          rw [h.liveEdges_eq]
          exact h.lists id hnil
        · have hno : ∀ id, key = adjKey id → implied id db.liveEdges = [] := by
            intro id hk
            by_contra hnil
            exact hlist ⟨id, hk, hnil⟩
          refine .inr ?_
          rw [h.gone key hold hno, h'.gone key (by rw [h.old_eq]; exact hold) (by rw [h.liveEdges_eq]; exact hno)]
  rcases hsame with ⟨v, hv'', hv'⟩ | hsame
  · rw [hv'', hv', holds_of_look hv'', holds_of_look hv']
    exact ⟨rfl, rfl⟩
  · refine ⟨look_other hsame, ?_⟩
    unfold Db.holds OrdDict.contains
    rw [hsame]

end Graph

end OmniJsonDb
