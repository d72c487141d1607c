import OmniJsonDb.Proof.GraphCounts

/-!
# A node goes

`f_remove_node` walks the list of the node: it marks the edges to go and cleans the lists of the
neighbours. Then it deletes what was marked.

* `Cleaning`: the invariant of the walk.
* `Cleaning.isolates`: with the marked records gone, the rest is what it was without the node.
* `wp_fRemoveNode`.
-/

namespace OmniJsonDb

namespace Graph

open Exec

variable {P C : Type} {cfg : Config P C} {db db' db₁ : Db P C} {key k : Key} {id u v n : NodeId} {d : Bool}
  {look look₁ look₂ look' : Look P} {st st' : Sweep} {es seen past : List (List Char)} {kind : Char} {r : ℕ}
  {g g' : Shape} {exact : Prop}

/-! ## Entries and edges -/

theorem incidentKey_outEntry : incidentKey id (if d then '>' else '-') v = generateEdgeKey id v d := by
  cases d <;> rfl

theorem incidentKey_inEntry : incidentKey id (if d then '<' else '-') v = generateEdgeKey v id d := by
  cases d with
  | true => rfl
  | false => exact generateEdgeKey_comm

/-- The edge of an entry. -/
theorem Entry.incident {E : Edges} (hx : Entry E id (kind :: n)) :
    ∃ d, E id d n ∧ incidentKey id kind n = generateEdgeKey id n d ∨
      E n d id ∧ incidentKey id kind n = generateEdgeKey n id d := by
  obtain ⟨d, m, ⟨hx, hed⟩ | ⟨hx, hed⟩⟩ := hx
  · obtain ⟨rfl, rfl⟩ := List.cons.inj hx
    exact ⟨d, .inl ⟨hed, incidentKey_outEntry⟩⟩
  · obtain ⟨rfl, rfl⟩ := List.cons.inj hx
    exact ⟨d, .inr ⟨hed, incidentKey_inEntry⟩⟩

theorem head?_incidentKey : (incidentKey id kind n).head? = some 'E' := by
  unfold incidentKey
  split <;> exact head?_generateEdgeKey

/-- **Each entry has an edge of its own.** -/
theorem incidentKey_inj {kind' : Char} {m : NodeId} (ht : Tidy look) (hx : Entry (Edged look) id (kind :: n))
    (hy : Entry (Edged look) id (kind' :: m)) (h : incidentKey id kind n = incidentKey id kind' m) :
    kind :: n = kind' :: m := by
  obtain ⟨d, a, ⟨hx, ⟨hu, hv, he⟩⟩ | ⟨hx, ⟨hu, hv, he⟩⟩⟩ := hx <;>
    obtain ⟨e, b, ⟨hy, ⟨ha, hb, -⟩⟩ | ⟨hy, ⟨ha, hb, -⟩⟩⟩ := hy <;>
    obtain ⟨rfl, rfl⟩ := List.cons.inj hx <;> obtain ⟨rfl, rfl⟩ := List.cons.inj hy <;>
    have hne := (ht.ends_good he).2.2
  · rw [incidentKey_outEntry, incidentKey_outEntry] at h
    rcases generateEdgeKey_inj hu hv ha hb h with ⟨-, rfl, rfl⟩ | ⟨-, -, hid, -⟩
    · rfl
    · exact absurd hid hne
  · rw [incidentKey_outEntry, incidentKey_inEntry] at h
    rcases generateEdgeKey_inj hu hv ha hb h with ⟨-, -, hid⟩ | ⟨rfl, rfl, rfl, -⟩
    · exact absurd hid hne
    · rfl
  · rw [incidentKey_inEntry, incidentKey_outEntry] at h
    rcases generateEdgeKey_inj hu hv ha hb h with ⟨hid, -, -⟩ | ⟨rfl, rfl, -, rfl⟩
    · exact absurd hid.symm hne
    · rfl
  · rw [incidentKey_inEntry, incidentKey_inEntry] at h
    rcases generateEdgeKey_inj hu hv ha hb h with ⟨rfl, rfl, -⟩ | ⟨-, -, -, hid⟩
    · rfl
    · exact absurd hid.symm hne

theorem adjKey_ne_incidentKey : adjKey u ≠ incidentKey id kind n := by
  intro h
  have := congrArg List.head? h
  rw [head?_incidentKey] at this
  cases this

theorem not_entry_nil {E : Edges} : ¬ Entry E id [] := by
  rintro ⟨d, n, ⟨hx, -⟩ | ⟨hx, -⟩⟩ <;> cases hx

theorem nodup_concat {ks : List Key} (h : ks.Nodup) (hk : k ∉ ks) : (ks ++ [k]).Nodup := by
  rw [← List.concat_eq_append]
  exact h.concat hk

/-! ## The loop over the list -/

/-- The keys of the records that are to go. -/
def Sweep.keys (st : Sweep) : List Key := st.matched.map Prod.snd

/-- **The loop over the list of `id`**, which has seen the edges of `seen` and passed the neighbours of `past`.
The lists that have been cleaned are without `id`, or are to go because nothing is left of them. -/
structure Cleaning (look look₁ : Look P) (id : NodeId) (st : Sweep) (seen past : List (List Char)) : Prop where
  other : ∀ k, (∀ n, n ≠ id → k ≠ adjKey n) → look₁ k = look k
  left : ∀ n, n ≠ id → adjKey n ∉ st.cleaned → look₁ (adjKey n) = look (adjKey n) ∧ adjKey n ∉ st.keys
  cleaned : ∀ n es, n ≠ id → adjKey n ∈ st.cleaned → ListAt look n es → (look (adjKey n)).isSome = true ∧
    (look₁ (adjKey n) = some (.adj (without id es)) ∧ adjKey n ∉ st.keys ∨ without id es = [] ∧ adjKey n ∈ st.keys)
  passed : ∀ x ∈ past, adjKey x.tail ∈ st.cleaned ∨ look (adjKey x.tail) = none
  own : adjKey id ∈ st.keys ∨ look (adjKey id) = none
  node : nodeKey id ∈ st.keys ∨ look (nodeKey id) = none
  nodup : st.keys.Nodup
  held : ∀ k ∈ st.keys, (look k).isSome = true
  same : ∀ k, (look₁ k).isSome = (look k).isSome
  gone : ∀ kind n, kind :: n ∈ seen → incidentKey id kind n ∈ st.keys
  matched : ∀ k ∈ st.keys, k = nodeKey id ∨ k = adjKey id ∨
    (∃ kind n, kind :: n ∈ seen ∧ k = incidentKey id kind n) ∨ ∃ n, n ≠ id ∧ k = adjKey n

theorem mem_keys_append {m : List (ℕ × Key)} {c : List Key} {b : Bool} :
    k ∈ (⟨st.matched ++ m, c, b⟩ : Sweep).keys ↔ k ∈ st.keys ∨ k ∈ m.map Prod.snd := by
  unfold Sweep.keys
  rw [List.map_append, List.mem_append]

/-- An edge is to go once. -/
theorem Cleaning.not_marked (h : Cleaning look look₁ id st seen past) (ht : Tidy look)
    (hseen : ∀ x ∈ seen, Entry (Edged look) id x) (hx : Entry (Edged look) id (kind :: n)) (hnew : kind :: n ∉ seen) :
    incidentKey id kind n ∉ st.keys := by
  intro hk
  rcases h.matched _ hk with hk | hk | ⟨kind', m, hm, hk⟩ | ⟨m, -, hk⟩
  · have := congrArg List.head? hk
    rw [head?_incidentKey] at this
    cases this
  · exact adjKey_ne_incidentKey hk.symm
  · exact hnew (incidentKey_inj ht hx (hseen _ hm) hk ▸ hm)
  · exact adjKey_ne_incidentKey hk.symm

/-- The edge of an entry is to go. -/
theorem Cleaning.mark (h : Cleaning look look₁ id st seen past) (hno : incidentKey id kind n ∉ st.keys)
    (hheld : (look (incidentKey id kind n)).isSome = true) :
    Cleaning look look₁ id ⟨st.matched ++ [(r, incidentKey id kind n)], st.cleaned, st.exclusive⟩
      (seen ++ [kind :: n]) past := by
  have hkeys : ∀ m, adjKey m ∈
      (⟨st.matched ++ [(r, incidentKey id kind n)], st.cleaned, st.exclusive⟩ : Sweep).keys ↔ adjKey m ∈ st.keys := by
    intro m
    rw [mem_keys_append, List.map_singleton, List.mem_singleton, or_iff_left adjKey_ne_incidentKey]
  refine ⟨h.other, ?_, ?_, h.passed, ?_, h.node.imp_left fun hk => mem_keys_append.2 (.inl hk), ?_, ?_, h.same, ?_, ?_⟩
  · intro m hm hc
    rw [hkeys]
    exact h.left m hm hc
  · intro m es hm hc hes
    rw [hkeys]
    exact h.cleaned m es hm hc hes
  · rw [hkeys]
    exact h.own
  · rw [Sweep.keys, List.map_append, List.map_singleton]
    exact nodup_concat h.nodup hno
  · intro k hk
    rw [mem_keys_append, List.map_singleton, List.mem_singleton] at hk
    rcases hk with hk | rfl
    · exact h.held k hk
    · exact hheld
  · intro kind' m hm
    rw [mem_keys_append]
    rcases List.mem_append.1 hm with hm | hm
    · exact .inl (h.gone kind' m hm)
    · obtain ⟨rfl, rfl⟩ := List.cons.inj (List.mem_singleton.1 hm)
      exact .inr (List.mem_singleton_self _)
  · intro k hk
    rcases mem_keys_append.1 hk with hk | hk
    · rcases h.matched k hk with hk | hk | ⟨kind', m, hm, hk⟩ | hk
      · exact .inl hk
      · exact .inr (.inl hk)
      · exact .inr (.inr (.inl ⟨kind', m, List.mem_append_left _ hm, hk⟩))
      · exact .inr (.inr (.inr hk))
    · rw [List.map_singleton, List.mem_singleton] at hk
      exact .inr (.inr (.inl ⟨kind, n, List.mem_append_right _ (List.mem_singleton_self _), hk⟩))

/-- A neighbour is passed without a change. -/
theorem Cleaning.pass (h : Cleaning look look₁ id st seen past)
    (hn : adjKey n ∈ st.cleaned ∨ look (adjKey n) = none) : Cleaning look look₁ id st seen (past ++ [kind :: n]) := by
  refine ⟨h.other, h.left, h.cleaned, ?_, h.own, h.node, h.nodup, h.held, h.same, h.gone, h.matched⟩
  intro x hx
  rcases List.mem_append.1 hx with hx | hx
  · exact h.passed x hx
  · rw [List.mem_singleton] at hx
    subst hx
    exact hn

/-- **The list of a neighbour is cleaned.** -/
theorem Cleaning.clean (h : Cleaning look look₁ id st seen past) (hn : n ≠ id) (hnot : adjKey n ∉ st.cleaned)
    (hes : look (adjKey n) = some (.adj es)) (hc : st'.cleaned = adjKey n :: st.cleaned)
    (hrest : ∀ k, k ≠ adjKey n → look₂ k = look₁ k) (hhere : (look₂ (adjKey n)).isSome = true)
    (hnew : look₂ (adjKey n) = some (.adj (without id es)) ∧ st'.keys = st.keys ∨
      without id es = [] ∧ st'.keys = st.keys ++ [adjKey n]) :
    Cleaning look look₂ id st' seen (past ++ [kind :: n]) := by
  have hgrow : ∀ k, k ∈ st.keys → k ∈ st'.keys := by
    intro k hk
    rcases hnew with ⟨-, he⟩ | ⟨-, he⟩
    · rwa [he]
    · rw [he]
      exact List.mem_append_left _ hk
  have hkeys : ∀ k, k ≠ adjKey n → (k ∈ st'.keys ↔ k ∈ st.keys) := by
    intro k hk
    refine ⟨fun h => ?_, hgrow k⟩
    rcases hnew with ⟨-, he⟩ | ⟨-, he⟩
    · rwa [he] at h
    · rw [he, List.mem_append, List.mem_singleton] at h
      exact h.resolve_right hk
  refine ⟨?_, ?_, ?_, ?_, h.own.imp_left (hgrow _), h.node.imp_left (hgrow _), ?_, ?_, ?_,
    fun kind m hm => hgrow _ (h.gone kind m hm), ?_⟩
  · intro k hk
    rw [hrest k (hk n hn)]
    exact h.other k hk
  · intro m hm hm'
    rw [hc, List.mem_cons, not_or] at hm'
    rw [hrest _ hm'.1, hkeys _ hm'.1]
    exact h.left m hm hm'.2
  · intro m es' hm hm' hes'
    by_cases hmn : adjKey m = adjKey n
    · obtain rfl := adjKey_inj hmn
      obtain rfl := hes'.unique (.inl hes)
      refine ⟨by rw [hes]; rfl, hnew.imp ?_ ?_⟩
      · rintro ⟨hl, he⟩
        rw [he]
        exact ⟨hl, (h.left m hm hnot).2⟩
      · rintro ⟨he, hk⟩
        rw [hk]
        exact ⟨he, List.mem_append_right _ (List.mem_singleton_self _)⟩
    · rw [hc, List.mem_cons, or_iff_right hmn] at hm'
      rw [hrest _ hmn, hkeys _ hmn]
      exact h.cleaned m es' hm hm' hes'
  · intro x hx
    rw [hc, List.mem_cons]
    rcases List.mem_append.1 hx with hx | hx
    · exact (h.passed x hx).imp_left .inr
    · rw [List.mem_singleton] at hx
      subst hx
      exact .inl (.inl rfl)
  · rcases hnew with ⟨-, he⟩ | ⟨-, he⟩
    · rw [he]
      exact h.nodup
    · rw [he]
      exact nodup_concat h.nodup (h.left n hn hnot).2
  · intro k hk
    by_cases hkn : k = adjKey n
    · rw [hkn, hes]
      rfl
    · exact h.held k ((hkeys k hkn).1 hk)
  · intro k
    by_cases hkn : k = adjKey n
    · rw [hkn, hes, hhere]
      rfl
    · rw [hrest k hkn]
      exact h.same k
  · intro k hk
    by_cases hkn : k = adjKey n
    · exact .inr (.inr (.inr ⟨n, hn, hkn⟩))
    · exact h.matched k ((hkeys k hkn).1 hk)

/-! ## The records that go -/

/-- The records under `ks` are gone, and the counters may have changed. -/
def Clears (look look' : Look P) (ks : List Key) : Prop :=
  ∀ k, k.head? ≠ some '#' → look' k = if k ∈ ks then none else look k

theorem Clears.stay {ks : List Key} (h : Clears look look' ks) (hk : k.head? ≠ some '#') (hno : k ∉ ks) :
    look' k = look k := by
  rw [h k hk, if_neg hno]

theorem Clears.gone {ks : List Key} (h : Clears look look' ks) (hk : k.head? ≠ some '#') (hin : k ∈ ks) :
    look' k = none := by
  rw [h k hk, if_pos hin]

/-- An edge of another node does not go. -/
theorem Cleaning.not_mem_of_off (h : Cleaning look look₁ id st es es) (hmem : ∀ x, x ∈ es ↔ Entry (Edged look) id x)
    {a b : NodeId} {e : Bool} (ha : GoodId a) (hb : GoodId b) (hai : a ≠ id) (hbi : b ≠ id) :
    generateEdgeKey a b e ∉ st.keys := by
  intro hk
  rcases h.matched _ hk with hk | hk | ⟨kind, n, hn, hk⟩ | ⟨n, -, hk⟩
  · exact nodeKey_ne_generateEdgeKey hk.symm
  · exact adjKey_ne_generateEdgeKey hk.symm
  · obtain ⟨d, ⟨⟨hu, hv, -⟩, hd⟩ | ⟨⟨hu, hv, -⟩, hd⟩⟩ := ((hmem _).1 hn).incident
    · rw [hd] at hk
      rcases generateEdgeKey_inj ha hb hu hv hk with ⟨rfl, -, -⟩ | ⟨-, -, rfl, -⟩
      · exact hai rfl
      · exact hbi rfl
    · rw [hd] at hk
      rcases generateEdgeKey_inj ha hb hu hv hk with ⟨-, -, rfl⟩ | ⟨-, -, -, rfl⟩
      · exact hbi rfl
      · exact hai rfl
  · exact adjKey_ne_generateEdgeKey hk.symm

/-- A list that has not been cleaned does not name `id`. -/
theorem Cleaning.not_named (h : Cleaning look look₁ id st es es) (ht : Tidy look)
    (hmem : ∀ x, x ∈ es ↔ Entry (Edged look) id x) {xs : List (List Char)} (hcl : adjKey n ∉ st.cleaned)
    (hxs : ListAt look n xs) : without id xs = xs := by
  obtain ⟨xs', hxs', -, hmem'⟩ := ht.lists n
  obtain rfl := hxs.unique hxs'
  rw [List.filter_eq_self]
  intro x hx
  rw [decide_eq_true_eq]
  have hheld : look (adjKey n) ≠ none := by
    intro h0
    rcases hxs with hxs | ⟨-, rfl⟩
    · rw [h0] at hxs
      cases hxs
    · exact List.not_mem_nil hx
  -- an entry that names `id` comes with one that names `n`, and that one has been passed
  have hpassed : ∀ y ∈ es, y.tail ≠ n := by
    rintro y hy rfl
    exact (h.passed y hy).elim hcl hheld
  obtain ⟨e, m, ⟨rfl, he⟩ | ⟨rfl, he⟩⟩ := (hmem' x).1 hx
  · rintro rfl
    exact hpassed (inEntry e n) ((hmem _).2 ⟨e, n, .inr ⟨rfl, he⟩⟩) rfl
  · rintro rfl
    exact hpassed (outEntry e n) ((hmem _).2 ⟨e, n, .inl ⟨rfl, he⟩⟩) rfl

/-- **The edges that stay** are those of the other nodes. -/
theorem Cleaning.edged_iff (h : Cleaning look look₁ id st es es) (hmem : ∀ x, x ∈ es ↔ Entry (Edged look) id x)
    (hc : Clears look₁ look' st.keys) {a b : NodeId} {e : Bool} : Edged look' a e b ↔ Off (Edged look) id a e b := by
  have hlook : look₁ (generateEdgeKey a b e) = look (generateEdgeKey a b e) :=
    h.other _ fun n _ hk => adjKey_ne_generateEdgeKey hk.symm
  constructor
  · rintro ⟨ha, hb, hk⟩
    have hno : generateEdgeKey a b e ∉ st.keys := by
      intro hin
      rw [hc.gone head_generateEdgeKey hin] at hk
      cases hk
    rw [hc.stay head_generateEdgeKey hno, hlook] at hk
    refine ⟨⟨ha, hb, hk⟩, ?_, ?_⟩
    · rintro rfl
      have hin := h.gone _ _ ((hmem (outEntry e b)).2 ⟨e, b, .inl ⟨rfl, ha, hb, hk⟩⟩)
      rw [incidentKey_outEntry] at hin
      exact hno hin
    · rintro rfl
      have hin := h.gone _ _ ((hmem (inEntry e a)).2 ⟨e, a, .inr ⟨rfl, ha, hb, hk⟩⟩)
      rw [incidentKey_inEntry] at hin
      exact hno hin
  · rintro ⟨⟨ha, hb, hk⟩, hai, hbi⟩
    refine ⟨ha, hb, ?_⟩
    rw [hc.stay head_generateEdgeKey (h.not_mem_of_off hmem ha hb hai hbi), hlook]
    exact hk

/-- No record appears. -/
theorem Cleaning.ownKey (h : Cleaning look look₁ id st es es) (ht : Tidy look) (hc : Clears look₁ look' st.keys)
    {v : Val P} (hv : look' key = some v) : OwnKey key := by
  by_cases hk : key.head? = some '#'
  · exact .inr (.inr hk)
  by_cases hin : key ∈ st.keys
  · rw [hc.gone hk hin] at hv
    cases hv
  rw [hc.stay hk hin] at hv
  by_cases hn : ∃ n, n ≠ id ∧ key = adjKey n
  · obtain ⟨n, hn, rfl⟩ := hn
    by_cases hcl : adjKey n ∈ st.cleaned
    · obtain ⟨xs, hxs, -⟩ := ht.lists n
      obtain ⟨y, hy⟩ := Option.isSome_iff_exists.1 (h.cleaned n xs hn hcl hxs).1
      exact ht.keys _ y hy
    · rw [(h.left n hn hcl).1] at hv
      exact ht.keys _ v hv
  · rw [h.other key fun n hni hkey => hn ⟨n, hni, hkey⟩] at hv
    exact ht.keys key v hv

/-- **What the loop and the deletions leave**: the records without the node. -/
theorem Cleaning.isolates (h : Cleaning look look₁ id st es es) (ht : Tidy look)
    (hmem : ∀ x, x ∈ es ↔ Entry (Edged look) id x) (hc : Clears look₁ look' st.keys) : Isolates look look' id where
  keys _ _ hv := h.ownKey ht hc hv
  edge _ _ _ := h.edged_iff hmem hc
  list := by
    by_cases hin : adjKey id ∈ st.keys
    · exact hc.gone head_adjKey hin
    · rw [hc.stay head_adjKey hin, h.other _ fun n hn hk => hn (adjKey_inj hk).symm]
      exact h.own.resolve_left hin
  node n hn := by
    have hno : nodeKey n ∉ st.keys := by
      intro hk
      rcases h.matched _ hk with hk | hk | ⟨kind, m, -, hk⟩ | ⟨m, -, hk⟩
      · exact hn (nodeKey_inj hk)
      · simp [nodeKey, adjKey] at hk
      · have := congrArg List.head? hk
        rw [head?_incidentKey] at this
        cases this
      · simp [nodeKey, adjKey] at hk
    rw [hc.stay (by simp [nodeKey]) hno, h.other]
    intro m _ hk
    simp [nodeKey, adjKey] at hk
  lists n xs hn hxs := by
    by_cases hcl : adjKey n ∈ st.cleaned
    · rcases (h.cleaned n xs hn hcl hxs).2 with ⟨hl, hno⟩ | ⟨hnil, hin⟩
      · exact .inl (by rw [hc.stay head_adjKey hno, hl])
      · exact .inr ⟨hc.gone head_adjKey hin, hnil⟩
    · obtain ⟨hl, hno⟩ := h.left n hn hcl
      rw [h.not_named ht hmem hcl hxs]
      unfold ListAt
      rw [hc.stay head_adjKey hno, hl]
      exact hxs

/-! ## The call -/

/-- **A neighbour's list is cleaned.** -/
theorem wp_cleanNeighbor [DecidableEq C] (law : Lawful cfg) (h : Maintained cfg db) (h₁ : Sound cfg db₁)
    (hs : Cleaning (db.look cfg) (db₁.look cfg) id st seen past) (hn : n ≠ id) (kind : Char) :
    Wp (cleanNeighbor cfg (pure ()) id n st) db₁
      (fun st' db' => Sound cfg db' ∧ Cleaning (db.look cfg) (db'.look cfg) id st' seen (past ++ [kind :: n]))
      fun _ _ => False := by
  unfold cleanNeighbor
  rw [wp_bind, wp_get, wp_ite]
  constructor
  · rintro ⟨hheld, hnot, -⟩
    obtain ⟨es, hes, -⟩ := h.tidy.lists n
    have hes₁ : ListAt (db₁.look cfg) n es := by
      unfold ListAt
      rw [(hs.left n hn hnot).1]
      exact hes
    have hlist : db.look cfg (adjKey n) = some (.adj es) := by
      refine hes.resolve_right fun h0 => ?_
      have := h₁.holds_iff_look.1 hheld
      rw [(hs.left n hn hnot).1, h0.1] at this
      cases this
    rw [wp_bind]
    refine wp_mono (wp_listAt h₁ hes₁) ?_ fun _ _ h => h
    rintro es db₂ ⟨rfl, h₂⟩
    have hlook₂ : ∀ k, k ≠ adjKey n → db₂.look cfg k = db₁.look cfg k := fun k _ => by rw [h₂.look]
    have hhere₂ : (db₂.look cfg (adjKey n)).isSome = true := by
      rw [h₂.look]
      exact h₁.holds_iff_look.1 hheld
    rw [wp_ite]
    constructor
    · intro hnil
      refine ⟨h₂.sound, hs.clean hn hnot hlist rfl hlook₂ hhere₂ (.inr ⟨hnil, ?_⟩)⟩
      unfold Sweep.keys
      rw [List.map_append]
      rfl
    · intro _
      rw [wp_ite]
      constructor
      · intro _
        have hwrite : Wp (do let _ ← fWrite cfg (adjKey n) (.adj (without id es)) true
                             pure (⟨st.matched, adjKey n :: st.cleaned, true⟩ : Sweep)) db₂
            (fun st' db' => Sound cfg db' ∧ Cleaning (db.look cfg) (db'.look cfg) id st' seen (past ++ [kind :: n]))
            fun _ _ => False := by
          rw [wp_bind]
          refine wp_mono (wp_set h₂.sound derived_adjKey trivial (law.adj _) (h₁.takes _ hheld)) ?_ fun _ _ h => h
          intro _ db₃ h₃
          refine ⟨h₃.sound, hs.clean hn hnot hlist rfl (fun k hk => ?_) ?_ (.inl ⟨?_, rfl⟩)⟩
          · rw [h₃.look, Function.update_of_ne hk, hlook₂ k hk]
          · rw [h₃.look, Function.update_self]
            rfl
          · rw [h₃.look, Function.update_self]
        rw [wp_ite]
        exact ⟨fun _ => hwrite, fun _ => hwrite⟩
      · intro hsame
        have hsame : without id es = es := not_not.1 hsame
        refine ⟨h₂.sound, hs.clean hn hnot hlist rfl hlook₂ hhere₂ (.inl ⟨?_, rfl⟩)⟩
        rw [h₂.look, (hs.left n hn hnot).1, hlist, hsame]
  · intro hno
    refine ⟨h₁, hs.pass (or_iff_not_imp_left.2 fun hnot => ?_)⟩
    obtain ⟨hl, hkeys⟩ := hs.left n hn hnot
    rw [← hl, ← Option.not_isSome_iff_eq_none, ← h₁.holds_iff_look]
    intro hheld
    refine hno ⟨hheld, hnot, fun hin => hkeys ?_⟩
    exact List.mem_map_of_mem (f := Prod.snd) hin

/-- **The loop over the list of `id`.** -/
theorem wp_sweep [DecidableEq C] (law : Lawful cfg) (h : Maintained cfg db) (hnd : es.Nodup)
    (hmem : ∀ x, x ∈ es ↔ Entry (Edged (db.look cfg)) id x) : ∀ {rest seen db₁ st}, es = seen ++ rest → Sound cfg db₁ →
      Cleaning (db.look cfg) (db₁.look cfg) id st seen seen →
      Wp (sweep cfg (pure ()) id rest st) db₁
        (fun st' db' => Sound cfg db' ∧ Cleaning (db.look cfg) (db'.look cfg) id st' es es) fun _ _ => False := by
  intro rest
  induction rest with
  | nil =>
    intro seen db₁ st hes h₁ hs
    rw [List.append_nil] at hes
    rw [hes]
    exact ⟨h₁, hs⟩
  | cons x rest ih =>
    intro seen db₁ st hes h₁ hs
    have hx : Entry (Edged (db.look cfg)) id x := by
      rw [← hmem, hes]
      exact List.mem_append_right _ List.mem_cons_self
    cases x with
    | nil => exact absurd hx not_entry_nil
    | cons kind n =>
      obtain ⟨hn, hedge⟩ : n ≠ id ∧ (db.look cfg (incidentKey id kind n)).isSome = true := by
        obtain ⟨d, ⟨⟨-, -, he⟩, hd⟩ | ⟨⟨-, -, he⟩, hd⟩⟩ := hx.incident
        · exact ⟨(h.tidy.ends_good he).2.2.symm, hd ▸ he⟩
        · exact ⟨(h.tidy.ends_good he).2.2, hd ▸ he⟩
      have hheld : db₁.holds (incidentKey id kind n) = true := by
        rw [h₁.holds_iff_look, hs.other _ fun m _ hk => adjKey_ne_incidentKey hk.symm]
        exact hedge
      have hseen : ∀ y ∈ seen, Entry (Edged (db.look cfg)) id y := by
        intro y hy
        rw [← hmem, hes]
        exact List.mem_append_left _ hy
      have hnew : kind :: n ∉ seen := by
        rw [hes, List.nodup_append] at hnd
        exact fun hin => hnd.2.2 _ hin _ List.mem_cons_self rfl
      unfold sweep
      rw [wp_bind, wp_get]
      dsimp only
      rw [if_pos hheld, wp_bind]
      have hmark := hs.mark (r := db₁.row (incidentKey id kind n)) (hs.not_marked h.tidy hseen hx hnew) hedge
      refine wp_mono (wp_cleanNeighbor law h h₁ hmark hn kind) ?_ fun _ _ h => h
      rintro st' db₂ ⟨h₂, hs'⟩
      exact ih (by rw [hes, List.append_assoc]; rfl) h₂ hs'

/-- **The records are deleted in order**, and taken off the counts. -/
theorem wp_deleteAll : ∀ {rows : List (ℕ × Key)} {c : Counts} {ret : OrdDict Key (Option (Val P))} {db₁ : Db P C},
    Sound cfg db₁ → (rows.map Prod.snd).Nodup → (∀ k ∈ rows.map Prod.snd, db₁.holds k = true) →
    (∀ k ∈ rows.map Prod.snd, Told k exact) → Tally db₁.table.keys c exact → Wp (deleteAll cfg rows c ret) db₁
      (fun r db' => Sound cfg db' ∧ (∀ k, db'.look cfg k = if k ∈ rows.map Prod.snd then none else db₁.look cfg k) ∧
        Tally db'.table.keys r.1 exact) fun _ _ => False := by
  intro rows
  induction rows with
  | nil =>
    intro c ret db₁ h₁ _ _ _ ht
    exact ⟨h₁, fun k => (if_neg List.not_mem_nil).symm, ht⟩
  | cons row rows ih =>
    intro c ret db₁ h₁ hnd hin htold ht
    rw [List.map_cons, List.nodup_cons] at hnd
    have hrow := hin row.2 List.mem_cons_self
    unfold deleteAll
    rw [wp_bind]
    refine wp_mono (wp_drop h₁ hrow) ?_ fun _ _ h => h
    intro _ db₂ h₂
    have hin₂ : ∀ k ∈ rows.map Prod.snd, db₂.holds k = true := by
      intro k hk
      rw [← mem_keys, h₂.keys, List.mem_filter, mem_keys]
      refine ⟨hin k (List.mem_cons_of_mem _ hk), decide_eq_true ?_⟩
      rintro rfl
      exact hnd.1 hk
    have ht₂ : Tally db₂.table.keys (c.without row.2) exact := by
      refine Tally.without ?_ (htold _ List.mem_cons_self)
      rw [h₂.keys]
      exact ht.perm (perm_cons_filter db₁.table.nodup_keys (mem_keys.2 hrow))
    refine wp_mono (ih h₂.sound hnd.2 hin₂ (fun k hk => htold k (List.mem_cons_of_mem _ hk)) ht₂) ?_ fun _ _ h => h
    rintro _ db₃ ⟨h₃, hlook, ht₃⟩
    refine ⟨h₃, fun k => ?_, ht₃⟩
    rw [hlook, List.map_cons, h₂.look]
    by_cases hk : k = row.2
    · rw [hk, Function.update_self, if_pos List.mem_cons_self, ite_self]
    · rw [Function.update_of_ne hk]
      simp only [List.mem_cons, hk, false_or]

/-- The counters do not matter. -/
theorem Clears.counter {ks : List Key} {w : Val P} (h : Clears look look' ks) (hk : key.head? = some '#') :
    Clears look (Function.update look' key (some w)) ks := by
  intro k hk'
  rw [Function.update_of_ne (ne_of_head hk' hk)]
  exact h k hk'

/-- **What was matched is deleted**, and the counters say so. -/
theorem wp_deleteMatched [DecidableEq C] (law : Lawful cfg) (h₁ : Sound cfg db₁) {n m c : ℕ}
    (hn : NumAt (db₁.look cfg) N_NODES n) (hm : NumAt (db₁.look cfg) N_EDGES m) (hc : NumAt (db₁.look cfg) N_DIRECTED c)
    (ht : Tally db₁.table.keys ⟨n, m, c⟩ exact) (hnd : st.keys.Nodup) (hin : ∀ k ∈ st.keys, db₁.holds k = true)
    (htold : ∀ k ∈ st.keys, Told k exact)
    (hdone : ∀ db', Sound cfg db' → Clears (db₁.look cfg) (db'.look cfg) st.keys →
      Maintained cfg db' ∧ Mirrors (db'.look cfg) g) :
    Wp (deleteMatched cfg st.matched) db₁ (fun _ db' => Tracks cfg db' g exact) fun _ _ => False := by
  have hperm := (List.mergeSort_perm st.matched laterFirst).map Prod.snd
  unfold deleteMatched
  rw [wp_bind]
  refine wp_mono (wp_readNumAt h₁ isCounter_nodes hn) ?_ fun _ _ h => h
  rintro _ db₂ ⟨rfl, h₂⟩
  rw [wp_bind]
  refine wp_mono (wp_readNumAt h₂.sound isCounter_edges (by rw [h₂.look]; exact hm)) ?_ fun _ _ h => h
  rintro _ db₃ ⟨rfl, h₃⟩
  have h₃ := h₂.trans h₃
  rw [wp_bind]
  refine wp_mono (wp_readNumAt h₃.sound isCounter_directed (by rw [h₃.look]; exact hc)) ?_ fun _ _ h => h
  rintro _ db₄ ⟨rfl, h₄⟩
  have h₄ := h₃.trans h₄
  rw [wp_bind]
  refine wp_mono (wp_deleteAll h₄.sound (hperm.nodup_iff.2 hnd) (fun k hk => ?_) (fun k hk => htold k (hperm.mem_iff.1 hk))
    (by rw [h₄.table]; exact ht)) ?_ fun _ _ h => h
  · rw [h₄.holds]
    exact hin k (hperm.mem_iff.1 hk)
  rintro ⟨c', ret⟩ db₅ ⟨h₅, hlook, ht₅⟩
  have hclear : Clears (db₁.look cfg) (db₅.look cfg) st.keys := by
    intro k _
    rw [hlook, h₄.look]
    exact if_congr hperm.mem_iff rfl rfl
  obtain ⟨hkept₅, hm₅⟩ := hdone db₅ h₅ hclear
  obtain ⟨hnodes, hedges, hdirected⟩ := ht₅.counts hkept₅ hm₅
  dsimp only at hnodes hedges hdirected ⊢
  rw [hnodes, hedges, max_eq_right (Int.natCast_nonneg _), max_eq_right (Int.natCast_nonneg _), wp_bind]
  refine wp_mono (wp_storeNum law h₅ isCounter_nodes _) ?_ fun _ _ h => h
  intro _ db₆ h₆
  rw [wp_bind]
  refine wp_mono (wp_storeNum law h₆.sound isCounter_edges _) ?_ fun _ _ h => h
  intro _ db₇ h₇
  rw [wp_bind, show max 0 c'.directed = (c'.directed.toNat : ℤ) by omega]
  refine wp_mono (wp_storeNum law h₇.sound isCounter_directed _) ?_ fun _ _ h => h
  intro _ db₈ h₈
  have hlook₈ : db₈.look cfg = Function.update (Function.update (Function.update (db₅.look cfg) N_NODES
      (some (.num g.nodes.card))) N_EDGES (some (.num g.edges.card))) N_DIRECTED (some (.num c'.directed.toNat)) := by
    rw [h₈.look, h₇.look, h₆.look]
  obtain ⟨hkept, hmirrors⟩ := hdone db₈ h₈.sound (by
    rw [hlook₈]
    exact ((hclear.counter rfl).counter rfl).counter rfl)
  refine ⟨hkept, hmirrors, ?_, ?_, c'.directed.toNat, ?_, fun hx => ?_⟩
  · rw [hlook₈]
    exact (NumAt.update.update_of_ne (by decide)).update_of_ne (by decide)
  · rw [hlook₈]
    exact NumAt.update.update_of_ne (by decide)
  · rw [hlook₈]
    exact NumAt.update
  · rw [hdirected hx, Int.toNat_natCast]

/-- Nothing has been seen yet. -/
theorem cleaning_start (hkeys : ∀ k ∈ st.keys, k = nodeKey id ∨ k = adjKey id) (hc : st.cleaned = [])
    (hown : adjKey id ∈ st.keys ∨ look (adjKey id) = none) (hnode : nodeKey id ∈ st.keys ∨ look (nodeKey id) = none)
    (hnd : st.keys.Nodup) (hheld : ∀ k ∈ st.keys, (look k).isSome = true) : Cleaning look look id st [] [] := by
  refine ⟨fun _ _ => rfl, ?_, ?_, ?_, hown, hnode, hnd, hheld, fun _ => rfl, ?_, ?_⟩
  · intro n hn _
    refine ⟨rfl, fun hin => ?_⟩
    rcases hkeys _ hin with hk | hk
    · simp [nodeKey, adjKey] at hk
    · exact hn (adjKey_inj hk)
  · intro n es _ hin
    rw [hc] at hin
    exact absurd hin List.not_mem_nil
  · intro x hx
    exact absurd hx List.not_mem_nil
  · intro kind n hx
    exact absurd hx List.not_mem_nil
  · intro k hk
    rcases hkeys k hk with hk | hk
    · exact .inl hk
    · exact .inr (.inl hk)

/-- The node itself goes. -/
theorem Cleaning.node_gone (h : Cleaning look look₁ id st es es) (hc : Clears look₁ look' st.keys) :
    look' (nodeKey id) = none := by
  by_cases hin : nodeKey id ∈ st.keys
  · exact hc.gone head_nodeKey hin
  · rw [hc.stay head_nodeKey hin, h.other _ fun n _ hk => by simp [nodeKey, adjKey] at hk]
    exact h.node.resolve_left hin

/-- **What goes is told from its key**, where the edges of the node are. -/
theorem Cleaning.told (hs : Cleaning (db.look cfg) look₁ id st es es) (h : Tracks cfg db g exact)
    (hmem : ∀ x, x ∈ es ↔ Entry (Edged (db.look cfg)) id x) (htold : exact → g.Told id) (hk : key ∈ st.keys) :
    Told key exact := by
  have hheld := h.kept.sound.holds_iff_look.2 (hs.held key hk)
  refine ⟨h.kept.ownKey hheld, fun hx => ?_⟩
  rintro ⟨u, d, v⟩ he
  obtain ⟨hu, hv, rfl, hp⟩ := h.kept.place hheld he
  have hin : (u, d, v) ∈ g.edges := by
    rw [← hp, h.mirrors.edges]
    exact ⟨hu, hv, hs.held _ hk⟩
  have hend : u = id ∨ v = id := by
    rcases hs.matched _ hk with hkey | hkey | ⟨kind, n, hn, hkey⟩ | ⟨n, -, hkey⟩
    · exact absurd hkey.symm nodeKey_ne_generateEdgeKey
    · exact absurd hkey.symm adjKey_ne_generateEdgeKey
    · obtain ⟨e, ⟨⟨ha, hb, -⟩, hkind⟩ | ⟨⟨ha, hb, -⟩, hkind⟩⟩ := ((hmem _).1 hn).incident
      · rw [hkind] at hkey
        exact (generateEdgeKey_inj hu hv ha hb hkey).imp (fun h => h.1.symm) fun h => h.2.2.1.symm
      · rw [hkind] at hkey
        exact (generateEdgeKey_inj hu hv ha hb hkey).symm.imp (fun h => h.2.2.2.symm) fun h => h.2.2.symm
    · exact absurd hkey.symm adjKey_ne_generateEdgeKey
  rw [generateEdgeKey_eq, hp]
  exact (looksDirected_iff hu hv (h.kept.tidy.ends_good (hs.held _ hk)).2.2).2 (htold hx _ hin hend)

/-- **The rest of the call**: what the loop leaves is without the node once what was matched is gone. -/
theorem Cleaning.wp_rest [DecidableEq C] (law : Lawful cfg) (h : Tracks cfg db g exact) (htold : exact → g.Told id)
    (hmem : ∀ x, x ∈ es ↔ Entry (Edged (db.look cfg)) id x) (h₁ : Sound cfg db₁)
    (hs : Cleaning (db.look cfg) (db₁.look cfg) id st es es) :
    Wp (if st.matched = [] then pure OrdDict.empty
      else do
        if !st.exclusive then pure ()
        deleteMatched cfg st.matched) db₁ (fun _ db' => Tracks cfg db' (g.removeNode id) exact) fun _ _ => False := by
  have hdone : ∀ db', Sound cfg db' → Clears (db₁.look cfg) (db'.look cfg) st.keys →
      Maintained cfg db' ∧ Mirrors (db'.look cfg) (g.removeNode id) := by
    intro db' h' hc
    have hi := hs.isolates h.kept.tidy hmem hc
    exact ⟨⟨h', h.kept.tidy.isolate hi⟩, h.mirrors.removeNode hi (hs.node_gone hc)⟩
  have hholds : ∀ k, db₁.holds k = db.holds k := by
    intro k
    rw [Bool.eq_iff_iff, h₁.holds_iff_look, h.kept.sound.holds_iff_look, hs.same]
  -- the counts are those of the keys, and the loop has left the keys alone
  obtain ⟨c, hc, ht⟩ := h.tally
  have hkeys : db.table.keys.Perm db₁.table.keys := by
    rw [List.perm_ext_iff_of_nodup db.table.nodup_keys db₁.table.nodup_keys]
    intro k
    rw [mem_keys, mem_keys, hholds]
  have ht := ht.perm hkeys
  have hcounter : ∀ key, IsCounter key → db₁.look cfg key = db.look cfg key := by
    intro key hkey
    refine hs.other key fun n _ hk => ?_
    have := hkey.head
    rw [hk] at this
    exact head_adjKey this
  have hnodes := h.nNodes.congr (hcounter _ isCounter_nodes)
  have hedges := h.nEdges.congr (hcounter _ isCounter_edges)
  have hdirected := hc.congr (hcounter _ isCounter_directed)
  rw [wp_ite]
  constructor
  · -- nothing was matched, so there are as many nodes and edges as before
    intro hnil
    obtain ⟨hkept, hm⟩ := hdone db₁ h₁ fun k _ => by
      rw [Sweep.keys, hnil]
      exact (if_neg List.not_mem_nil).symm
    obtain ⟨h₁, h₂, h₃⟩ := ht.counts hkept hm
    refine ⟨hkept, hm, ?_, ?_, c, hdirected, fun hx => ?_⟩
    · rw [← Int.ofNat_inj.1 h₁]
      exact hnodes
    · rw [← Int.ofNat_inj.1 h₂]
      exact hedges
    · exact Int.ofNat_inj.1 (h₃ hx)
  · intro _
    have hdel := wp_deleteMatched law h₁ hnodes hedges hdirected ht hs.nodup
      (fun k hk => (hholds k).trans (h.kept.sound.holds_iff_look.2 (hs.held k hk)))
      (fun k hk => hs.told h hmem htold hk) hdone
    rw [wp_ite]
    exact ⟨fun _ => hdel, fun _ => hdel⟩

/-- **A node is removed**, with its edges. -/
theorem wp_fRemoveNode [DecidableEq C] (law : Lawful cfg) (h : Tracks cfg db g exact) (htold : exact → g.Told id) :
    Wp (fRemoveNode cfg (pure ()) id) db (fun _ db' => Tracks cfg db' (g.removeNode id) exact) fun _ _ => False := by
  obtain ⟨es, hes, hnd, hmem⟩ := h.kept.tidy.lists id
  have hsound := h.kept.sound
  unfold fRemoveNode
  rw [wp_bind, wp_get]
  generalize hrows : (if db.holds (nodeKey id) then [(db.row (nodeKey id), nodeKey id)] else []) = rows
  -- what is matched of the node itself
  have hnode : ∀ k ∈ rows.map Prod.snd, k = nodeKey id ∧ db.holds k = true := by
    intro k hk
    rw [← hrows] at hk
    split at hk
    · rename_i hin
      rw [List.map_singleton, List.mem_singleton] at hk
      exact ⟨hk, hk ▸ hin⟩
    · exact absurd hk List.not_mem_nil
  have hnodup : (rows.map Prod.snd).Nodup := by
    rw [← hrows]
    split
    · exact List.nodup_singleton _
    · exact List.nodup_nil
  have hthere : nodeKey id ∈ rows.map Prod.snd ∨ db.look cfg (nodeKey id) = none := by
    rw [← hrows]
    split
    · exact .inl (List.mem_singleton_self _)
    · rename_i hno
      rw [← Option.not_isSome_iff_eq_none, ← hsound.holds_iff_look]
      exact .inr hno
  rw [wp_ite]
  constructor
  · intro hheld
    rw [wp_bind]
    refine wp_mono (wp_listAt hsound hes) ?_ fun _ _ h => h
    rintro es' db₁ ⟨rfl, h₁⟩
    rw [wp_bind]
    refine wp_mono (wp_sweep law h.kept hnd hmem (List.nil_append es').symm h₁.sound ?_)
      (fun st db₂ h₂ => h₂.2.wp_rest law h htold hmem h₂.1) fun _ _ h => h
    rw [h₁.look]
    have hkeys : (⟨rows ++ [(db.row (adjKey id), adjKey id)], [], false⟩ : Sweep).keys =
        rows.map Prod.snd ++ [adjKey id] := List.map_append
    refine cleaning_start ?_ rfl ?_ ?_ ?_ ?_ <;> rw [hkeys]
    · intro k hk
      exact (List.mem_append.1 hk).imp (fun hk => (hnode k hk).1) List.mem_singleton.1
    · exact .inl (List.mem_append_right _ (List.mem_singleton_self _))
    · exact hthere.imp_left (List.mem_append_left _)
    · refine nodup_concat hnodup fun hin => ?_
      have := (hnode _ hin).1
      simp [nodeKey, adjKey] at this
    · intro k hk
      rw [← hsound.holds_iff_look]
      rcases List.mem_append.1 hk with hk | hk
      · exact (hnode k hk).2
      · exact List.mem_singleton.1 hk ▸ hheld
  · intro hno
    have hnone : db.look cfg (adjKey id) = none := by
      rw [← Option.not_isSome_iff_eq_none, ← hsound.holds_iff_look]
      exact hno
    obtain rfl : es = [] := by
      rcases hes with hes | ⟨-, rfl⟩
      · rw [hnone] at hes
        cases hes
      · rfl
    refine Cleaning.wp_rest law h htold hmem hsound ?_
    refine cleaning_start (fun k hk => .inl (hnode k hk).1) rfl (.inr hnone) hthere hnodup fun k hk => ?_
    rw [← hsound.holds_iff_look]
    exact (hnode k hk).2

end Graph

end OmniJsonDb
