import OmniJsonDb.Proof.GraphShape

/-!
# Nodes and edges come and go

An update call that returns leaves a tidy store that shows what the call asked for, and its counters
say so.

* `Maintained`: a store in order that is tidy.
* `Tracks`: one that shows a shape, with its counters.
* `wp_fAddNode`, `wp_fAddEdge`, `wp_fRemoveEdge`: what the calls do, and when they raise in between.
-/

namespace OmniJsonDb

namespace Graph

open Exec

variable {P C : Type} {cfg : Config P C} {db db' db₁ : Db P C} {key k : Key} {id u v : NodeId} {d : Bool} {w : Val P}
  {o : Bool} {look look' : Look P} {p : P} {g : Shape} {exact : Prop}

/-- One record that is no list and changes no edge. -/
theorem Tidy.update (h : Tidy look) (hk : OwnKey key) (hadj : key.head? ≠ some 'X')
    (hedge : key.head? = some 'E' → (look key).isSome = true) : Tidy (Function.update look key (some w)) := by
  refine h.mono ?_ ?_ ?_ ?_
  · intro k x hx
    by_cases hkey : k = key
    · exact hkey ▸ hk
    · rw [Function.update_of_ne hkey] at hx
      exact h.keys k x hx
  · intro u v d
    by_cases hkey : generateEdgeKey u v d = key
    · have := hedge (hkey ▸ head?_generateEdgeKey)
      rw [hkey, Function.update_self, this]
      rfl
    · rw [Function.update_of_ne hkey]
  · intro id
    refine Function.update_of_ne ?_ _ _
    rintro rfl
    exact hadj rfl
  · intro id hid
    by_cases hkey : nodeKey id = key
    · rw [hkey, Function.update_self]
      rfl
    · rwa [Function.update_of_ne hkey]

/-- A store in order that is tidy. -/
structure Maintained (cfg : Config P C) (db : Db P C) : Prop where
  sound : Sound cfg db
  tidy : Tidy (db.look cfg)

theorem Maintained.same (h : Maintained cfg db) (hs : Same cfg db db') : Maintained cfg db' := by
  refine ⟨hs.sound, ?_⟩
  rw [hs.look]
  exact h.tidy

theorem Maintained.sets (h : Maintained cfg db) (hs : Sets cfg key w db db') (hk : OwnKey key)
    (hadj : key.head? ≠ some 'X') (hedge : key.head? = some 'E' → db.holds key = true) : Maintained cfg db' := by
  refine ⟨hs.sound, ?_⟩
  rw [hs.look]
  exact h.tidy.update hk hadj fun he => h.sound.holds_iff_look.1 (hedge he)

theorem ownKey_counter (hk : key.head? = some '#') : OwnKey key := .inr (.inr hk)

theorem Maintained.counter (h : Maintained cfg db) (hk : key.head? = some '#') (hs : Sets cfg key w db db') :
    Maintained cfg db' :=
  h.sets hs (ownKey_counter hk) (by rw [hk]; decide) (by rw [hk]; intro h; cases h)

/-! ## Counters -/

theorem isCounter_nodes : IsCounter N_NODES := .inl rfl

theorem isCounter_edges : IsCounter N_EDGES := .inr (.inl rfl)

theorem isCounter_directed : IsCounter N_DIRECTED := .inr (.inr rfl)

theorem IsCounter.head (h : IsCounter key) : key.head? = some '#' := by
  rcases h with rfl | rfl | rfl <;> rfl

theorem NumAt.update {m : ℕ} : NumAt (Function.update look key (some (.num m))) key m :=
  .inl (Function.update_self ..)

theorem NumAt.update_of_ne {m : ℕ} (h : NumAt look key m) (hne : key ≠ k) :
    NumAt (Function.update look k (some w)) key m := by
  unfold NumAt
  rw [Function.update_of_ne hne]
  exact h

theorem NumAt.congr {m : ℕ} (h : NumAt look key m) (hk : look' key = look key) : NumAt look' key m := by
  unfold NumAt
  rw [hk]
  exact h

/-- **A tidy store that shows a shape**, with the counters that go with it. `exact` says that the number of
directed edges is right. -/
structure Tracks (cfg : Config P C) (db : Db P C) (g : Shape) (exact : Prop) : Prop where
  kept : Maintained cfg db
  mirrors : Mirrors (db.look cfg) g
  nNodes : NumAt (db.look cfg) N_NODES g.nodes.card
  nEdges : NumAt (db.look cfg) N_EDGES g.edges.card
  nDirected : ∃ c, NumAt (db.look cfg) N_DIRECTED c ∧ (exact → c = g.directed)

theorem Tracks.same (h : Tracks cfg db g exact) (hs : Same cfg db db') : Tracks cfg db' g exact := by
  refine ⟨h.kept.same hs, ?_, ?_, ?_, ?_⟩ <;> rw [hs.look]
  · exact h.mirrors
  · exact h.nNodes
  · exact h.nEdges
  · exact h.nDirected

/-- Properties that are there are replaced. -/
theorem Tracks.sets (h : Tracks cfg db g exact) (hs : Sets cfg key w db db') (hk : OwnKey key)
    (hd : ¬ Derived key) (hin : db.holds key = true) : Tracks cfg db' g exact := by
  have hne : ∀ c, IsCounter c → c ≠ key := by
    rintro c hc rfl
    exact hd hc.derived
  refine ⟨h.kept.sets hs hk (fun hx => hd (.inl hx)) fun _ => hin, ?_, ?_, ?_, ?_⟩ <;> rw [hs.look]
  · exact h.mirrors.update (.inl (h.kept.sound.holds_iff_look.1 hin))
  · exact h.nNodes.update_of_ne (hne _ isCounter_nodes)
  · exact h.nEdges.update_of_ne (hne _ isCounter_edges)
  · obtain ⟨c, hc, hexact⟩ := h.nDirected
    exact ⟨c, hc.update_of_ne (hne _ isCounter_directed), hexact⟩

/-! ## Properties -/

/-- Properties that are there are written again. -/
theorem wp_rewrite [DecidableEq C] (law : Lawful cfg) (h : Tracks cfg db g exact) (hk : OwnKey key)
    (hd : ¬ Derived key) (hin : db.holds key = true) :
    Wp (fWrite cfg key (.props p) o) db (fun _ db' => Tracks cfg db' g exact) fun _ db' => db' = db := by
  refine wp_mono (wp_setProps law h.kept.sound hd) ?_ fun _ _ h => h.1
  rintro b db' (⟨-, w, hw⟩ | ⟨-, -, hw⟩)
  · exact h.sets hw hk hd hin
  · exact h.same hw

/-- Nothing happens between the locks. -/
theorem wp_fWriteShared [DecidableEq C] {p : P} {Q : Bool → Db P C → Prop} {E : Err → Db P C → Prop}
    (h : Wp (fWrite cfg key (.props p) o) db Q E) : Wp (fWriteShared cfg (pure ()) key (.props p) o) db Q E := by
  unfold fWriteShared
  rw [wp_bind, wp_get]
  split
  · exact h
  · exact h

/-- **Properties are merged** with those that are there. -/
theorem wp_mergeProps [DecidableEq C] (law : Lawful cfg) (h : Tracks cfg db g exact) (hk : OwnKey key)
    (hd : ¬ Derived key) (hin : db.holds key = true) :
    Wp (do
      match ← fRead cfg key (.props p) with
      | .props old =>
        if cfg.isDict old then
          let new := cfg.merge old p
          if !cfg.same new old then fWriteShared cfg (pure ()) key (.props new) false else pure false
        else fWriteShared cfg (pure ()) key (.props p) false
      | _ => fWriteShared cfg (pure ()) key (.props p) false) db
      (fun _ db' => Tracks cfg db' g exact) fun _ db' => Same cfg db db' := by
  rw [wp_bind]
  refine wp_mono (wp_readAny h.kept.sound hd) ?_ fun _ _ h => h.elim
  intro x db₁ h₁
  have hwrite : ∀ q : P, Wp (fWriteShared cfg (pure ()) key (.props q) false) db₁
      (fun _ db' => Tracks cfg db' g exact) fun _ db' => Same cfg db db' := by
    intro q
    refine wp_fWriteShared (wp_mono (wp_rewrite law (h.same h₁) hk hd ?_) (fun _ _ h => h) ?_)
    · rw [h₁.holds]
      exact hin
    · rintro _ _ rfl
      exact h₁
  cases x with
  | props old =>
    dsimp only
    rw [wp_ite]
    constructor
    · intro _
      rw [wp_ite]
      exact ⟨fun _ => hwrite _, fun _ => h.same h₁⟩
    · intro _
      exact hwrite p
  | adj es => exact hwrite p
  | num n => exact hwrite p

theorem not_derived_nodeKey : ¬ Derived (nodeKey id) := by
  rintro (h | h) <;> cases h

theorem not_derived_generateEdgeKey : ¬ Derived (generateEdgeKey u v d) := by
  rw [Derived, head?_generateEdgeKey]
  decide

theorem ownKey_node (h : GoodId id) : OwnKey (nodeKey id) := .inl ⟨id, h, .inl rfl⟩

/-! ## Nodes -/

/-- A new node, before it is counted. -/
theorem Maintained.addNode (h : Maintained cfg db) (hs : Sets cfg (nodeKey id) w db db') (hg : GoodId id) :
    Maintained cfg db' :=
  h.sets hs (ownKey_node hg) (by intro h; cases h) (by intro h; cases h)

theorem Mirrors.sets_node (h : Mirrors (db.look cfg) g) (hs : Sets cfg (nodeKey id) w db db') :
    Mirrors (db'.look cfg) (g.addNode id) := by
  rw [hs.look]
  refine h.addNode ?_ fun k hk => Function.update_of_ne hk _ _
  rw [Function.update_self]
  rfl

/-- A counter is counted up. -/
theorem Mirrors.sets_counter (h : Mirrors (db.look cfg) g) (hk : IsCounter key) (hs : Sets cfg key w db db') :
    Mirrors (db'.look cfg) g := by
  rw [hs.look]
  refine h.update (.inr ?_)
  rw [hk.head]
  decide

/-- **A node is added**, or its properties are. -/
theorem wp_fAddNode [DecidableEq C] (law : Lawful cfg) (h : Tracks cfg db g exact) (p : P) :
    Wp (fAddNode cfg (pure ()) id p) db (fun _ db' => Tracks cfg db' (g.addNode id) exact)
      fun _ db' => Same cfg db db' := by
  unfold fAddNode
  rw [wp_ite]
  refine ⟨fun _ => Same.refl h.kept.sound, fun hgood => ?_⟩
  have hgood : GoodId id := goodId_iff.1 (by simpa using hgood)
  rw [wp_bind, wp_get, wp_ite]
  constructor
  · intro hno
    have hout : id ∉ g.nodes := by
      rw [h.mirrors.nodes, ← h.kept.sound.holds_iff_look]
      simpa using hno
    rw [wp_bind]
    refine wp_mono (wp_fWriteShared (wp_setProps law h.kept.sound not_derived_nodeKey)) ?_ ?_
    · rintro b db₁ (⟨rfl, w, hw⟩ | ⟨-, hin, -⟩)
      · have hm := h.mirrors.sets_node hw
        have hkept := h.kept.addNode hw hgood
        have hn : NumAt (db₁.look cfg) N_NODES g.nodes.card := by
          rw [hw.look]
          exact h.nNodes.update_of_ne (by simp [N_NODES, nodeKey])
        rw [if_pos rfl]
        have hcount : Wp (raiseNum cfg N_NODES) db₁ _ _ := wp_raiseNum law hw.sound isCounter_nodes hn
        unfold raiseNum at hcount
        rw [wp_bind] at hcount ⊢
        refine wp_mono hcount ?_ fun _ _ h => h.elim
        intro n db₂ h₂
        rw [wp_bind]
        refine wp_mono h₂ ?_ fun _ _ h => h.elim
        intro _ db₃ h₃
        refine ⟨hkept.counter rfl h₃, hm.sets_counter isCounter_nodes h₃, ?_, ?_, ?_⟩
        · rw [h₃.look, Shape.addNode, Finset.card_insert_of_notMem hout]
          exact .update
        · rw [h₃.look, hw.look]
          exact (h.nEdges.update_of_ne (by simp [N_EDGES, nodeKey])).update_of_ne (by decide)
        · obtain ⟨c, hc, hexact⟩ := h.nDirected
          refine ⟨c, ?_, hexact⟩
          rw [h₃.look, hw.look]
          exact (hc.update_of_ne (by simp [N_DIRECTED, nodeKey])).update_of_ne (by decide)
      · rw [hin] at hno
        cases hno
    · rintro _ _ ⟨rfl, -⟩
      exact Same.refl h.kept.sound
  · intro hin
    have hin : db.holds (nodeKey id) = true := by simpa using hin
    rw [Shape.addNode_of_mem ((h.mirrors.nodes id).2 (h.kept.sound.holds_iff_look.1 hin))]
    exact wp_mergeProps law h (ownKey_node hgood) not_derived_nodeKey hin

/-! ## Edges -/

/-- An endpoint is there afterwards, and nothing else has changed. -/
structure Ended (cfg : Config P C) (id : NodeId) (db db' : Db P C) : Prop where
  kept : Maintained cfg db'
  here : (db'.look cfg (nodeKey id)).isSome = true
  rest : ∀ k, k ≠ nodeKey id → db'.look cfg k = db.look cfg k
  same : db.holds (nodeKey id) = true → db' = db

/-- **An endpoint that is missing is added**, unless there is no room for its key. -/
theorem wp_addEndpoint [DecidableEq C] (law : Lawful cfg) (hempty : ∃ data, cfg.dumps (.props cfg.empty) = .ok data)
    (h : Maintained cfg db) (hg : GoodId id) (n : ℤ) : Wp (addEndpoint cfg id n) db
      (fun m db' => Ended cfg id db db' ∧ m = if db.holds (nodeKey id) = true then n else n + 1)
      fun _ db' => db' = db ∧ db.holds (nodeKey id) = false ∧ cfg.takes (nodeKey id) = false := by
  unfold addEndpoint
  rw [wp_bind, wp_get, wp_ite]
  constructor
  · intro hno
    have hno : db.holds (nodeKey id) = false := by simpa using hno
    rw [wp_bind]
    refine wp_mono (wp_setProps law h.sound not_derived_nodeKey) ?_ ?_
    · rintro b db' (⟨-, w, hw⟩ | ⟨-, hin, -⟩)
      · rw [wp_ret, hno, if_neg Bool.false_ne_true]
        refine ⟨⟨h.addNode hw hg, ?_, fun k hk => ?_, fun hin => ?_⟩, rfl⟩
        · rw [hw.look, Function.update_self]
          rfl
        · rw [hw.look, Function.update_of_ne hk]
        · rw [hno] at hin
          cases hin
      · rw [hin] at hno
        cases hno
    · rintro _ _ ⟨rfl, ht | ⟨e, he⟩⟩
      · exact ⟨rfl, hno, ht⟩
      · obtain ⟨data, hdata⟩ := hempty
        rw [hdata] at he
        cases he
  · intro hin
    have hin : db.holds (nodeKey id) = true := by simpa using hin
    rw [wp_ret, if_pos hin]
    exact ⟨⟨h, h.sound.holds_iff_look.1 hin, fun _ _ => rfl, fun _ => rfl⟩, rfl⟩

theorem Ended.mirrors (he : Ended cfg id db db') (h : Mirrors (db.look cfg) g) :
    Mirrors (db'.look cfg) (g.addNode id) := h.addNode he.here he.rest

/-- What the call counts. -/
theorem Mirrors.card_addNode (h : Mirrors (db.look cfg) g) (hs : Sound cfg db) :
    (if db.holds (nodeKey id) = true then (g.nodes.card : ℤ) else g.nodes.card + 1) = (g.addNode id).nodes.card := by
  unfold Shape.addNode
  by_cases hin : db.holds (nodeKey id) = true
  · rw [if_pos hin, Finset.insert_eq_of_mem ((h.nodes id).2 (hs.holds_iff_look.1 hin))]
  · have hout : id ∉ g.nodes := by rwa [h.nodes, ← hs.holds_iff_look]
    rw [if_neg hin, Finset.card_insert_of_notMem hout]
    omega

theorem ne_of_head {k : Key} (hk : k.head? ≠ some '#') (h : key.head? = some '#') : k ≠ key := by
  rintro rfl
  exact hk h

theorem head_adjKey : (adjKey id).head? ≠ some '#' := by
  simp [adjKey]

theorem head_nodeKey : (nodeKey id).head? ≠ some '#' := by
  simp [nodeKey]

theorem head_generateEdgeKey : (generateEdgeKey u v d).head? ≠ some '#' := by
  rw [head?_generateEdgeKey]
  decide

theorem Maintained.takes_adjKey (h : Maintained cfg db) (law : Lawful cfg)
    (hin : (db.look cfg (nodeKey id)).isSome = true) : cfg.takes (adjKey id) = true :=
  law.list id (h.sound.takes _ (h.sound.holds_iff_look.2 hin))

/-- **The records of a new edge**: its entries, a counter, and the edge. -/
theorem wp_linkEdge [DecidableEq C] (law : Lawful cfg) (h : Maintained cfg db) (hm : Mirrors (db.look cfg) g)
    (hu : GoodId u) (hv : GoodId v) (hne : u ≠ v) (hno : db.look cfg (generateEdgeKey u v d) = none)
    (hnu : u ∈ g.nodes) (hnv : v ∈ g.nodes) {n : ℤ} (hn : n = g.nodes.card) (p : P) {next : Bool → GraphM P C Bool}
    {Q : Bool → Db P C → Prop}
    (hnext : ∀ db', Maintained cfg db' → Mirrors (db'.look cfg) (g.addEdge u v d) →
      NumAt (db'.look cfg) N_NODES g.nodes.card →
      (∀ key, key.head? = some '#' → key ≠ N_NODES → db'.look cfg key = db.look cfg key) →
      Wp (next true) db' Q fun _ _ => False) :
    Wp (do
      addEntry cfg u (outEntry d v)
      addEntry cfg v (inEntry d u)
      writeNum cfg N_NODES (max 0 n)
      let b ← fWrite cfg (generateEdgeKey u v d) (.props p) false
      next b) db Q
      fun _ _ => cfg.takes (generateEdgeKey u v d) = false ∨ ∃ e, cfg.dumps (.props p) = .error e := by
  obtain ⟨es, hes, -, hmem⟩ := h.tidy.lists u
  obtain ⟨es', hes', -, hmem'⟩ := h.tidy.lists v
  have hout : outEntry d v ∉ es := fun hx => not_entry_of_none hno (.inl ⟨rfl, rfl⟩) ((hmem _).1 hx)
  have hin : inEntry d u ∉ es' := fun hx => not_entry_of_none hno (.inr ⟨rfl, rfl⟩) ((hmem' _).1 hx)
  rw [hm.nodes] at hnu hnv
  rw [wp_bind]
  refine wp_mono (wp_addEntry law h.sound hes hout) ?_ ?_
  swap
  · intro _ _ ht
    rw [h.takes_adjKey law hnu] at ht
    cases ht
  intro _ db₁ h₁
  have hvu : adjKey v ≠ adjKey u := fun hk => hne (adjKey_inj hk).symm
  have hes₁ : ListAt (db₁.look cfg) v es' := by
    unfold ListAt
    rw [h₁.look, Function.update_of_ne hvu]
    exact hes'
  rw [wp_bind]
  refine wp_mono (wp_addEntry law h₁.sound hes₁ hin) ?_ ?_
  swap
  · intro _ _ ht
    rw [h.takes_adjKey law hnv] at ht
    cases ht
  intro _ db₂ h₂
  rw [wp_bind, show max 0 n = (g.nodes.card : ℤ) by omega]
  refine wp_mono (wp_storeNum law h₂.sound isCounter_nodes g.nodes.card) ?_ fun _ _ h => h.elim
  intro _ db₃ h₃
  have hlook : db₃.look cfg = Function.update (Function.update (Function.update (db.look cfg) (adjKey u)
      (some (.adj (es ++ [outEntry d v])))) (adjKey v) (some (.adj (es' ++ [inEntry d u])))) N_NODES
      (some (.num g.nodes.card)) := by
    rw [h₃.look, h₂.look, h₁.look]
  rw [wp_bind]
  refine wp_mono (wp_setProps law h₃.sound not_derived_generateEdgeKey) ?_ fun _ _ h => h.2
  have hedge : generateEdgeKey u v d ≠ N_NODES := ne_of_head head_generateEdgeKey rfl
  rintro b db₄ (⟨rfl, w, h₄⟩ | ⟨-, hheld, -⟩)
  · have hrel : EndsEdited (db.look cfg) (db₄.look cfg) u d v (fun es => es ++ [outEntry d v])
        fun es => es ++ [inEntry d u] := by
      rw [h₄.look, hlook]
      refine ⟨?_, ?_, ?_⟩
      · intro xs hxs
        obtain rfl := hxs.unique hes
        rw [Function.update_of_ne adjKey_ne_generateEdgeKey, Function.update_of_ne (ne_of_head head_adjKey rfl),
          Function.update_of_ne hvu.symm, Function.update_self]
      · intro xs hxs
        obtain rfl := hxs.unique hes'
        rw [Function.update_of_ne adjKey_ne_generateEdgeKey, Function.update_of_ne (ne_of_head head_adjKey rfl),
          Function.update_self]
      · intro k hk hku hkv hke
        rw [Function.update_of_ne hke, Function.update_of_ne (ne_of_head hk rfl), Function.update_of_ne hkv,
          Function.update_of_ne hku]
    have hthere : (db₄.look cfg (generateEdgeKey u v d)).isSome = true := by
      rw [h₄.look, Function.update_self]
      rfl
    refine wp_mono (hnext db₄ ⟨h₄.sound, h.tidy.link hu hv hne hno hnu hnv hrel hthere⟩ ?_ ?_ ?_) (fun _ _ h => h)
      fun _ _ h => h.elim
    · exact hm.addEdge hrel hu hv ((hm.nodes u).2 hnu) ((hm.nodes v).2 hnv) hthere
    · rw [h₄.look, h₃.look]
      exact NumAt.update.update_of_ne hedge.symm
    · intro key hk hkn
      rw [h₄.look, hlook, Function.update_of_ne (ne_of_head head_generateEdgeKey hk).symm, Function.update_of_ne hkn,
        Function.update_of_ne (ne_of_head head_adjKey hk).symm, Function.update_of_ne (ne_of_head head_adjKey hk).symm]
  · -- the edge was not there, and nothing has put it there
    rw [h₃.sound.holds_iff_look, hlook, Function.update_of_ne hedge,
      Function.update_of_ne adjKey_ne_generateEdgeKey.symm, Function.update_of_ne adjKey_ne_generateEdgeKey.symm, hno]
      at hheld
    cases hheld

/-- **A new edge is taken**: either there is no room for the first record it needs, and the call raises before it has
written anything, or there is room for the record of the edge, and its properties can be coded. -/
def Db.Admits (cfg : Config P C) (db : Db P C) (u : NodeId) (d : Bool) (v : NodeId) (p : P) : Prop :=
  cfg.takes (nodeKey (if db.holds (nodeKey u) = true then v else u)) = false ∨
    cfg.takes (generateEdgeKey u v d) = true ∧ ∃ data, cfg.dumps (.props p) = .ok data

theorem Lawful.takes_ends (law : Lawful cfg) (hu : GoodId u) (hv : GoodId v)
    (ht : cfg.takes (generateEdgeKey u v d) = true) :
    cfg.takes (nodeKey u) = true ∧ cfg.takes (nodeKey v) = true := by
  have he := edgeOf_generateEdgeKey (d := d) hu hv
  rcases place_cases u v d with hp | ⟨-, -, hp⟩ <;> rw [hp] at he
  · exact law.ends _ _ _ _ he ht
  · exact (law.ends _ _ _ _ he ht).symm

/-- What is refused once both ends are there. -/
theorem Db.not_admits (hu : cfg.takes (nodeKey u) = true) (hv : cfg.takes (nodeKey v) = true)
    (h : cfg.takes (generateEdgeKey u v d) = false ∨ ∃ e, cfg.dumps (.props p) = .error e) : ¬ db.Admits cfg u d v p := by
  rintro (ha | ⟨ht, data, hdata⟩)
  · split at ha
    · rw [hv] at ha
      cases ha
    · rw [hu] at ha
      cases ha
  · rcases h with h | ⟨e, he⟩
    · rw [ht] at h
      cases h
    · rw [hdata] at he
      cases he

/-- **An edge that was not there is added**, with the ends it lacks. -/
theorem wp_addNewEdge [DecidableEq C] (law : Lawful cfg) (hempty : ∃ data, cfg.dumps (.props cfg.empty) = .ok data)
    (h : Tracks cfg db g exact) (hu : GoodId u) (hv : GoodId v) (hne : u ≠ v)
    (hno : db.look cfg (generateEdgeKey u v d) = none) (p : P) :
    Wp (addNewEdge cfg u v d p) db (fun _ db' => Tracks cfg db' (g.addEdge u v d) exact)
      fun _ db' => Same cfg db db' ∨ ¬ db.Admits cfg u d v p := by
  unfold addNewEdge
  rw [wp_bind]
  refine wp_mono (wp_readNumAt h.kept.sound isCounter_nodes h.nNodes) ?_ fun _ _ h => h.elim
  rintro _ db₁ ⟨rfl, h₁⟩
  have ht₁ := h.same h₁
  rw [wp_bind]
  refine wp_mono (wp_addEndpoint law hempty ht₁.kept hu _) ?_ ?_
  swap
  · rintro _ _ ⟨rfl, -⟩
    exact .inl h₁
  rintro _ db₂ ⟨h₂, rfl⟩
  have hm₂ := h₂.mirrors ht₁.mirrors
  rw [ht₁.mirrors.card_addNode ht₁.kept.sound, wp_bind]
  refine wp_mono (wp_addEndpoint law hempty h₂.kept hv _) ?_ ?_
  swap
  · rintro _ _ ⟨rfl, -, hroom⟩
    by_cases hin : db₁.holds (nodeKey u) = true
    · rw [h₂.same hin]
      exact .inl h₁
    · -- the first end has been written, and there is no room for the second
      refine .inr ?_
      have htu := h₂.kept.sound.takes _ (h₂.kept.sound.holds_iff_look.2 h₂.here)
      rw [h₁.holds] at hin
      rintro (ha | ⟨ht, -⟩)
      · rw [if_neg hin, htu] at ha
        cases ha
      · rw [(law.takes_ends hu hv ht).2] at hroom
        cases hroom
  rintro _ db₃ ⟨h₃, rfl⟩
  have hm₃ := h₃.mirrors hm₂
  rw [hm₂.card_addNode h₂.kept.sound]
  have hnu : u ∈ ((g.addNode u).addNode v).nodes := Finset.mem_insert_of_mem (Finset.mem_insert_self u _)
  have hnv : v ∈ ((g.addNode u).addNode v).nodes := Finset.mem_insert_self v _
  have hrest : ∀ k, k.head? ≠ some 'N' → db₃.look cfg k = db.look cfg k := by
    intro k hk
    rw [h₃.rest k fun hkey => hk (by rw [hkey]; rfl), h₂.rest k fun hkey => hk (by rw [hkey]; rfl), h₁.look]
  have hno₃ : db₃.look cfg (generateEdgeKey u v d) = none := by
    rw [hrest _ (by rw [head?_generateEdgeKey]; decide)]
    exact hno
  have hout : place u d v ∉ g.edges := by
    rw [h.mirrors.edges]
    rintro ⟨-, -, hk⟩
    rw [hno] at hk
    cases hk
  refine wp_mono (wp_linkEdge law h₃.kept hm₃ hu hv hne hno₃ hnu hnv rfl p ?_) (fun _ _ h => h) ?_
  · intro db₄ hkept hm hnodes hcounters
    rw [Shape.addEdge_addNode] at hm
    have hedges : NumAt (db₄.look cfg) N_EDGES g.edges.card :=
      h.nEdges.congr ((hcounters N_EDGES rfl (by decide)).trans (hrest _ (by decide)))
    obtain ⟨c, hc, hexact⟩ := h.nDirected
    have hc : NumAt (db₄.look cfg) N_DIRECTED c :=
      hc.congr ((hcounters N_DIRECTED rfl (by decide)).trans (hrest _ (by decide)))
    have hcard : (g.addEdge u v d).edges.card = g.edges.card + 1 := Finset.card_insert_of_notMem hout
    rw [if_pos rfl, wp_bind]
    refine wp_mono (wp_raiseNum law hkept.sound isCounter_edges hedges) ?_ fun _ _ h => h
    intro _ db₅ h₅
    have hm₅ := hm.sets_counter isCounter_edges h₅
    have hnodes₅ : NumAt (db₅.look cfg) N_NODES (g.addEdge u v d).nodes.card := by
      rw [h₅.look]
      exact hnodes.update_of_ne (by decide)
    have hedges₅ : NumAt (db₅.look cfg) N_EDGES (g.addEdge u v d).edges.card := by
      rw [h₅.look, hcard]
      exact .update
    have hc₅ : NumAt (db₅.look cfg) N_DIRECTED c := by
      rw [h₅.look]
      exact hc.update_of_ne (by decide)
    have hdirected := Shape.directed_addEdge hout
    rw [wp_ite]
    constructor
    · rintro rfl
      rw [wp_bind]
      refine wp_mono (wp_raiseNum law h₅.sound isCounter_directed hc₅) ?_ fun _ _ h => h
      intro _ db₆ h₆
      refine ⟨(hkept.counter rfl h₅).counter rfl h₆, hm₅.sets_counter isCounter_directed h₆, ?_, ?_, c + 1, ?_, ?_⟩
      · rw [h₆.look]
        exact hnodes₅.update_of_ne (by decide)
      · rw [h₆.look]
        exact hedges₅.update_of_ne (by decide)
      · rw [h₆.look]
        exact .update
      · intro hx
        rw [hdirected, hexact hx]
        rfl
    · intro hd
      refine ⟨hkept.counter rfl h₅, hm₅, hnodes₅, hedges₅, c, hc₅, fun hx => ?_⟩
      rw [hdirected, if_neg hd, hexact hx]
  · intro _ _ hrefused
    have htakes : ∀ {n}, n ∈ ((g.addNode u).addNode v).nodes → cfg.takes (nodeKey n) = true := fun hn =>
      h₃.kept.sound.takes _ (h₃.kept.sound.holds_iff_look.2 ((hm₃.nodes _).1 hn))
    exact .inr (Db.not_admits (htakes hnu) (htakes hnv) hrefused)

/-- **An edge is added**, or its properties are. -/
theorem wp_fAddEdge [DecidableEq C] (law : Lawful cfg) (hempty : ∃ data, cfg.dumps (.props cfg.empty) = .ok data)
    (h : Tracks cfg db g exact) (p : P) :
    Wp (fAddEdge cfg (pure ()) u v d p) db (fun _ db' => Tracks cfg db' (g.addEdge u v d) exact)
      fun _ db' => Same cfg db db' ∨
        GoodId u ∧ GoodId v ∧ u ≠ v ∧ db.holds (generateEdgeKey u v d) = false ∧ ¬ db.Admits cfg u d v p := by
  have hsame := Same.refl h.kept.sound
  unfold fAddEdge
  rw [wp_ite]
  refine ⟨fun _ => .inl hsame, fun hne => ?_⟩
  rw [wp_ite]
  refine ⟨fun _ => .inl hsame, fun hgood => ?_⟩
  obtain ⟨hu, hv⟩ : GoodId u ∧ GoodId v := by
    rw [Bool.or_eq_true, not_or, Bool.not_eq_true, Bool.not_eq_true] at hgood
    exact ⟨goodId_iff.1 hgood.1, goodId_iff.1 hgood.2⟩
  rw [wp_bind, wp_get, wp_ite]
  constructor
  · intro hno
    have hno : db.holds (generateEdgeKey u v d) = false := by simpa using hno
    have hlook : db.look cfg (generateEdgeKey u v d) = none := by
      rw [← Option.not_isSome_iff_eq_none, ← h.kept.sound.holds_iff_look, hno]
      exact Bool.false_ne_true
    rw [wp_bind, wp_ret]
    refine wp_mono (wp_addNewEdge law hempty h hu hv hne hlook p) (fun _ _ h => h) ?_
    rintro _ _ (h' | h')
    · exact .inl h'
    · exact .inr ⟨hu, hv, hne, hno, h'⟩
  · intro hin
    have hin : db.holds (generateEdgeKey u v d) = true := by simpa using hin
    rw [h.mirrors.addEdge_eq h.kept.tidy ⟨hu, hv, h.kept.sound.holds_iff_look.1 hin⟩]
    refine wp_mono (wp_mergeProps law h (.inr (.inl ⟨u, d, v, hu, hv, hne, rfl⟩)) not_derived_generateEdgeKey hin)
      (fun _ _ h => h) fun _ _ h' => .inl h'

/-- The edge is gone, the counters aside. -/
def Unedged (look look' : Look P) (key : Key) : Prop :=
  look' key = none ∧ ∀ k, k.head? ≠ some '#' → k ≠ key → look' k = look k

theorem Unedged.counter {look₁ : Look P} {c : Key} (h : Unedged look look₁ key) (hc : c.head? = some '#')
    (hk : key.head? ≠ some '#') : Unedged look (Function.update look₁ c (some w)) key := by
  refine ⟨?_, fun k hk' hne => ?_⟩
  · rw [Function.update_of_ne (ne_of_head hk hc)]
    exact h.1
  · rw [Function.update_of_ne (ne_of_head hk' hc)]
    exact h.2 k hk' hne

/-- **The entries of an edge that is gone** go too. -/
theorem wp_unlinkEdge [DecidableEq C] {α : Type} (law : Lawful cfg) (h : Maintained cfg db)
    (hm : Mirrors (db.look cfg) g) (he : Edged (db.look cfg) u d v) (hne : u ≠ v) (h₁ : Sound cfg db₁)
    (hl : Unedged (db.look cfg) (db₁.look cfg) (generateEdgeKey u v d)) (r : α) :
    Wp (do removeEntry cfg u (outEntry d v); removeEntry cfg v (inEntry d u); pure r) db₁
      (fun _ db' => Maintained cfg db' ∧ Mirrors (db'.look cfg) (g.removeEdge u v d) ∧
        ∀ key, key.head? = some '#' → db'.look cfg key = db₁.look cfg key) fun _ _ => False := by
  obtain ⟨hu, hv, -⟩ := id he
  obtain ⟨es, hes, -, hmem⟩ := h.tidy.lists u
  obtain ⟨es', hes', -, hmem'⟩ := h.tidy.lists v
  have hout : outEntry d v ∈ es := (hmem _).2 ⟨d, v, .inl ⟨rfl, he⟩⟩
  have hinn : inEntry d u ∈ es' := (hmem' _).2 ⟨d, u, .inr ⟨rfl, he⟩⟩
  have hadj : ∀ id, db₁.look cfg (adjKey id) = db.look cfg (adjKey id) := fun id =>
    hl.2 _ head_adjKey adjKey_ne_generateEdgeKey
  have hvu : adjKey v ≠ adjKey u := fun hk => hne (adjKey_inj hk).symm
  have hes₁ : ListAt (db₁.look cfg) u es := by
    unfold ListAt
    rw [hadj]
    exact hes
  rw [wp_bind]
  refine wp_mono (wp_removeEntry law h₁ hes₁ hout) ?_ fun _ _ h => h
  intro _ db₂ h₂
  have hes₂ : ListAt (db₂.look cfg) v es' := by
    unfold ListAt
    rw [h₂.look, Function.update_of_ne hvu, hadj]
    exact hes'
  rw [wp_bind]
  refine wp_mono (wp_removeEntry law h₂.sound hes₂ hinn) ?_ fun _ _ h => h
  intro _ db₃ h₃
  rw [wp_ret]
  have hrel : EndsEdited (db.look cfg) (db₃.look cfg) u d v (fun es => es.erase (outEntry d v))
      fun es => es.erase (inEntry d u) := by
    rw [h₃.look, h₂.look]
    refine ⟨?_, ?_, ?_⟩
    · intro xs hxs
      obtain rfl := hxs.unique hes
      rw [Function.update_of_ne hvu.symm, Function.update_self]
    · intro xs hxs
      obtain rfl := hxs.unique hes'
      rw [Function.update_self]
    · intro k hk hku hkv hke
      rw [Function.update_of_ne hkv, Function.update_of_ne hku]
      exact hl.2 k hk hke
  have hgone : db₃.look cfg (generateEdgeKey u v d) = none := by
    rw [h₃.look, h₂.look, Function.update_of_ne adjKey_ne_generateEdgeKey.symm,
      Function.update_of_ne adjKey_ne_generateEdgeKey.symm]
    exact hl.1
  refine ⟨⟨h₃.sound, h.tidy.unlink hu hv hne hrel hgone⟩, hm.removeEdge hrel hu hv hgone, fun key hk => ?_⟩
  rw [h₃.look, h₂.look, Function.update_of_ne (ne_of_head head_adjKey hk).symm,
    Function.update_of_ne (ne_of_head head_adjKey hk).symm]

/-- **An edge that is there goes**, with its entries. -/
theorem wp_removeOldEdge [DecidableEq C] (law : Lawful cfg) (h : Tracks cfg db g exact)
    (he : Edged (db.look cfg) u d v) (hne : u ≠ v) : Wp (removeOldEdge cfg u v d) db
      (fun _ db' => Tracks cfg db' (g.removeEdge u v d) exact) fun _ _ => False := by
  have hin : place u d v ∈ g.edges := (h.mirrors.edges u d v).2 he
  have hcard : (g.removeEdge u v d).edges.card = g.edges.card - 1 := Finset.card_erase_of_mem hin
  have hdirected := Shape.directed_removeEdge hin
  obtain ⟨c, hc, hexact⟩ := h.nDirected
  unfold removeOldEdge
  rw [wp_bind]
  refine wp_mono (wp_drop h.kept.sound (h.kept.sound.holds_iff_look.2 he.2.2)) ?_ fun _ _ h => h
  intro old db₁ h₁
  have hl₁ : Unedged (db.look cfg) (db₁.look cfg) (generateEdgeKey u v d) := by
    rw [h₁.look]
    exact ⟨Function.update_self .., fun k _ hk => Function.update_of_ne hk _ _⟩
  have hcounters₁ : ∀ key, key.head? = some '#' → db₁.look cfg key = db.look cfg key := by
    intro key hk
    rw [h₁.look, Function.update_of_ne (ne_of_head head_generateEdgeKey hk).symm]
  rw [wp_bind]
  refine wp_mono (wp_lowerNum law h₁.sound isCounter_edges (h.nEdges.congr (hcounters₁ _ rfl))) ?_ fun _ _ h => h
  intro _ db₂ h₂
  have hl₂ : Unedged (db.look cfg) (db₂.look cfg) (generateEdgeKey u v d) := by
    rw [h₂.look]
    exact hl₁.counter rfl head_generateEdgeKey
  have hnodes₂ : NumAt (db₂.look cfg) N_NODES g.nodes.card := by
    rw [h₂.look]
    exact (h.nNodes.congr (hcounters₁ _ rfl)).update_of_ne (by decide)
  have hedges₂ : NumAt (db₂.look cfg) N_EDGES (g.removeEdge u v d).edges.card := by
    rw [h₂.look, hcard]
    exact .update
  have hc₂ : NumAt (db₂.look cfg) N_DIRECTED c := by
    rw [h₂.look]
    exact (hc.congr (hcounters₁ _ rfl)).update_of_ne (by decide)
  rw [wp_ite]
  constructor
  · rintro rfl
    rw [wp_bind]
    refine wp_mono (wp_lowerNum law h₂.sound isCounter_directed hc₂) ?_ fun _ _ h => h
    intro _ db₃ h₃
    have hl₃ : Unedged (db.look cfg) (db₃.look cfg) (generateEdgeKey u v true) := by
      rw [h₃.look]
      exact hl₂.counter rfl head_generateEdgeKey
    refine wp_mono (wp_unlinkEdge law h.kept h.mirrors he hne h₃.sound hl₃ _) ?_ fun _ _ h => h
    rintro _ db₄ ⟨hkept, hm, hcounters⟩
    refine ⟨hkept, hm, ?_, ?_, c - 1, ?_, fun hx => ?_⟩
    · refine NumAt.congr ?_ (hcounters _ rfl)
      rw [h₃.look]
      exact hnodes₂.update_of_ne (by decide)
    · refine NumAt.congr ?_ (hcounters _ rfl)
      rw [h₃.look]
      exact hedges₂.update_of_ne (by decide)
    · refine NumAt.congr ?_ (hcounters _ rfl)
      rw [h₃.look]
      exact .update
    · rw [hdirected, hexact hx]
      rfl
  · intro hd
    refine wp_mono (wp_unlinkEdge law h.kept h.mirrors he hne h₂.sound hl₂ _) ?_ fun _ _ h => h
    rintro _ db₄ ⟨hkept, hm, hcounters⟩
    refine ⟨hkept, hm, hnodes₂.congr (hcounters _ rfl), hedges₂.congr (hcounters _ rfl), c,
      hc₂.congr (hcounters _ rfl), fun hx => ?_⟩
    rw [hdirected, if_neg hd, hexact hx]

/-- **An edge is removed.** -/
theorem wp_fRemoveEdge [DecidableEq C] (law : Lawful cfg) (h : Tracks cfg db g exact) :
    Wp (fRemoveEdge cfg (pure ()) u v d) db (fun _ db' => Tracks cfg db' (g.removeEdge u v d) exact)
      fun _ _ => False := by
  unfold fRemoveEdge
  rw [wp_bind, wp_get, wp_ite]
  constructor
  · intro hin
    have hlook := h.kept.sound.holds_iff_look.1 hin
    obtain ⟨hu, hv, hne⟩ := h.kept.tidy.ends_good hlook
    rw [wp_bind, wp_ret]
    exact wp_removeOldEdge law h ⟨hu, hv, hlook⟩ hne
  · intro hno
    rw [wp_ret, h.mirrors.removeEdge_eq fun he => hno (h.kept.sound.holds_iff_look.2 he.2.2)]
    exact h

end Graph

end OmniJsonDb
