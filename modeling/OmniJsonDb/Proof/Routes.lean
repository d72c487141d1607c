import OmniJsonDb.Model.Query

/-!
# Routes through a value

The nodes of a value and the segments that lead to them.

* `Route`: a route of literal segments from a value to one of its nodes.
* `mem_allNodes_iff_route`: the nodes of a value are what its routes lead to.
* `child_of_named`: a segment finds the child that it names.
-/

namespace OmniJsonDb

open QueryEnv

/-! ## Routes -/

/-- The segment of an index. -/
def indexSeg (i : ℕ) : List Char := Nat.toDigits 10 i

/-- The items of a sequence, with the segments that name them. -/
def namedSeq (xs : List PyVal) : List (List Char × PyVal) := xs.zipIdx.map fun x => (indexSeg x.2, x.1)

/-- The children of a value. -/
def named : PyVal → List (List Char × PyVal)
  | .dict kvs => kvs.filterMap fun kv =>
      match kv.1 with
      | .str k => some (k, kv.2)
      | _ => none
  | .list xs | .tuple xs => namedSeq xs
  | _ => []

/-- A route of literal segments from a value to one of its nodes. -/
inductive Route : PyVal → List (List Char) → PyVal → Prop
  | nil (v) : Route v [] v
  | cons {v seg w segs u} : (seg, w) ∈ named v → Route w segs u → Route v (seg :: segs) u

/-! ## Plain values -/

/-- A key that a segment can spell. -/
structure PlainKey (k : List Char) : Prop where
  dot : '.' ∉ k
  wild : wild k = false
  space : k.head? ≠ some ' '
  op : isOpPart k = false

/-- The keys of every dictionary in a value are strings that a segment can spell. -/
def PlainVal (v : PyVal) : Prop :=
  ∀ kvs, .dict kvs ∈ allNodes v →
    (kvs.map Prod.fst).Nodup ∧ ∀ kv ∈ kvs, ∃ k, kv.1 = .str k ∧ PlainKey k

theorem mem_allNodes_self (v : PyVal) : v ∈ allNodes v := by
  cases v <;> simp [allNodes]

theorem mem_allNodesOf {xs : List PyVal} {u : PyVal} : u ∈ allNodesOf xs ↔ ∃ x ∈ xs, u ∈ allNodes x := by
  induction xs with
  | nil => simp [allNodesOf]
  | cons x xs ih => simp [allNodesOf, ih]

theorem mem_allNodesIn {kvs : List (PyVal × PyVal)} {u : PyVal} :
    u ∈ allNodesIn kvs ↔ ∃ kv ∈ kvs, u ∈ allNodes kv.2 := by
  induction kvs with
  | nil => simp [allNodesIn]
  | cons kv kvs ih =>
    obtain ⟨k, v⟩ := kv
    simp [allNodesIn, ih]

theorem mem_namedSeq {xs : List PyVal} {seg : List Char} {x : PyVal} :
    (seg, x) ∈ namedSeq xs ↔ ∃ i, xs[i]? = some x ∧ seg = indexSeg i := by
  simp only [namedSeq, List.mem_map, Prod.exists, Prod.mk.injEq]
  constructor
  · rintro ⟨y, i, hy, rfl, rfl⟩
    exact ⟨i, List.mk_mem_zipIdx_iff_getElem?.1 hy, rfl⟩
  · rintro ⟨i, hi, rfl⟩
    exact ⟨x, i, List.mk_mem_zipIdx_iff_getElem?.2 hi, rfl, rfl⟩

theorem exists_namedSeq {xs : List PyVal} {p : PyVal → Prop} : (∃ x ∈ namedSeq xs, p x.2) ↔ ∃ x ∈ xs, p x := by
  constructor
  · rintro ⟨⟨seg, x⟩, hx, hp⟩
    obtain ⟨i, hi, -⟩ := mem_namedSeq.1 hx
    exact ⟨x, List.mem_of_getElem? hi, hp⟩
  · rintro ⟨x, hx, hp⟩
    obtain ⟨i, hi⟩ := List.mem_iff_getElem?.1 hx
    exact ⟨(indexSeg i, x), mem_namedSeq.2 ⟨i, hi, rfl⟩, hp⟩

theorem mem_named_dict {kvs : List (PyVal × PyVal)} {k : List Char} {v : PyVal} :
    (k, v) ∈ named (.dict kvs) ↔ (.str k, v) ∈ kvs := by
  simp only [named, List.mem_filterMap]
  constructor
  · rintro ⟨⟨k', v'⟩, hkv, hs⟩
    dsimp only at hs
    split at hs
    · cases hs
      exact hkv
    · cases hs
  · intro hkv
    exact ⟨_, hkv, rfl⟩

/-- The nodes of a value are itself and those of its children. -/
theorem mem_allNodes {v u : PyVal} (hv : PlainVal v) :
    u ∈ allNodes v ↔ u = v ∨ ∃ x ∈ named v, u ∈ allNodes x.2 := by
  cases v with
  | list xs => rw [allNodes, List.mem_cons, mem_allNodesOf, ← exists_namedSeq, named]
  | tuple xs => rw [allNodes, List.mem_cons, mem_allNodesOf, ← exists_namedSeq, named]
  | dict kvs =>
    rw [allNodes, List.mem_cons, mem_allNodesIn]
    refine or_congr_right ⟨?_, ?_⟩
    · rintro ⟨⟨k, v⟩, hkv, hu⟩
      obtain ⟨s, hs, -⟩ := (hv kvs (mem_allNodes_self _)).2 _ hkv
      cases hs
      exact ⟨(s, v), mem_named_dict.2 hkv, hu⟩
    · rintro ⟨⟨k, v⟩, hkv, hu⟩
      exact ⟨_, mem_named_dict.1 hkv, hu⟩
  | _ => simp [allNodes, named]

theorem allNodes_child {v : PyVal} {x : List Char × PyVal} (hv : PlainVal v) (hx : x ∈ named v) {u : PyVal}
    (hu : u ∈ allNodes x.2) : u ∈ allNodes v :=
  (mem_allNodes hv).2 (.inr ⟨x, hx, hu⟩)

theorem PlainVal.child {v : PyVal} {x : List Char × PyVal} (hv : PlainVal v) (hx : x ∈ named v) : PlainVal x.2 :=
  fun kvs hkvs => hv kvs (allNodes_child hv hx hkvs)

theorem weight_child {v : PyVal} {x : List Char × PyVal} (hx : x ∈ named v) : x.2.weight < v.weight := by
  cases v with
  | list xs =>
    obtain ⟨y, hy, hw⟩ := exists_namedSeq (p := fun y => y = x.2).1 ⟨x, hx, rfl⟩
    rw [PyVal.weight, ← hw]
    exact weight_lt_of_mem hy
  | tuple xs =>
    obtain ⟨y, hy, hw⟩ := exists_namedSeq (p := fun y => y = x.2).1 ⟨x, hx, rfl⟩
    rw [PyVal.weight, ← hw]
    exact weight_lt_of_mem hy
  | dict kvs =>
    have hmem := mem_named_dict.1 hx
    rw [PyVal.weight]
    clear hx
    induction kvs with
    | nil => cases hmem
    | cons kv kvs ih =>
      rw [PyVal.kvWeights]
      rcases List.mem_cons.1 hmem with rfl | hmem
      · dsimp only
        omega
      · have := ih hmem
        omega
  | _ => simp [named] at hx

/-- The nodes of a value are what its routes lead to. -/
theorem mem_allNodes_iff_route {v u : PyVal} (hv : PlainVal v) : u ∈ allNodes v ↔ ∃ segs, Route v segs u := by
  constructor
  · intro hu
    -- down the value, by the number of its nodes
    induction hn : v.weight using Nat.strong_induction_on generalizing v with
    | _ n ih =>
      rcases (mem_allNodes hv).1 hu with rfl | ⟨⟨seg, w⟩, hx, hu⟩
      · exact ⟨[], .nil _⟩
      · obtain ⟨segs, hr⟩ := ih w.weight (hn ▸ weight_child hx) (hv.child hx) hu rfl
        exact ⟨seg :: segs, .cons hx hr⟩
  · rintro ⟨segs, hr⟩
    induction hr with
    | nil v => exact mem_allNodes_self v
    | cons hx _ ih => exact allNodes_child hv hx (ih (hv.child hx))

/-- A node of a node is a node. -/
theorem allNodes_trans {v u w : PyVal} (hv : PlainVal v) (hu : u ∈ allNodes v) (hw : w ∈ allNodes u) :
    w ∈ allNodes v := by
  obtain ⟨segs, hr⟩ := (mem_allNodes_iff_route hv).1 hu
  clear hu
  induction hr with
  | nil v => exact hw
  | cons hx _ ih => exact allNodes_child hv hx (ih (hv.child hx) hw)

theorem PlainVal.node {v u : PyVal} (hv : PlainVal v) (hu : u ∈ allNodes v) : PlainVal u :=
  fun kvs hkvs => hv kvs (allNodes_trans hv hu hkvs)

/-! ## Segments -/

theorem isDigit_indexSeg {i : ℕ} {c : Char} (h : c ∈ indexSeg i) : c.isDigit = true :=
  Nat.isDigit_of_mem_toDigits (by decide) (by decide) h

theorem pyDigits_digits {cs : List Char} (h : ∀ c ∈ cs, c.isDigit = true) (last : Bool) (n : ℕ) (hne : last = true ∨ cs ≠ []) :
    pyDigits last n cs = some (Nat.ofDigitChars 10 cs n) := by
  induction cs generalizing last n with
  | nil =>
    have hlast : last = true := by simpa using hne
    simp [pyDigits, hlast, Nat.ofDigitChars]
  | cons c cs ih =>
    rw [pyDigits, if_pos (h c List.mem_cons_self), ih (fun d hd => h d (List.mem_cons_of_mem c hd)) true _ (.inl rfl)]
    rfl

theorem dropWhile_digits {cs : List Char} (h : ∀ c ∈ cs, c.isDigit = true) :
    cs.dropWhile Char.isWhitespace = cs := by
  cases cs with
  | nil => rfl
  | cons c cs =>
    have hc : c.isWhitespace = false := by
      by_contra hw
      have hw : c.isWhitespace = true := by simpa using hw
      simp only [Char.isWhitespace, Bool.or_eq_true, decide_eq_true_eq] at hw
      have hd := h c List.mem_cons_self
      rcases hw with ((rfl | rfl) | rfl) | rfl <;> exact absurd hd (by decide)
    rw [List.dropWhile_cons, if_neg (by simp [hc])]

theorem pyInt_indexSeg (i : ℕ) : pyInt (indexSeg i) = some (i : ℤ) := by
  have hdig : ∀ c ∈ indexSeg i, c.isDigit = true := fun c hc => isDigit_indexSeg hc
  have hne : indexSeg i ≠ [] := Nat.toDigits_ne_nil
  have hrev : ∀ c ∈ (indexSeg i).reverse, c.isDigit = true := fun c hc => hdig c (List.mem_reverse.1 hc)
  have hval : pyDigits false 0 (indexSeg i) = some i := by
    rw [pyDigits_digits hdig false 0 (.inr hne)]
    exact congrArg some (Nat.ofDigitChars_toDigits (by decide) (by decide))
  unfold pyInt
  rw [dropWhile_digits hdig, dropWhile_digits hrev, List.reverse_reverse]
  split
  · rename_i cs hcs
    exact absurd (hdig '-' (by simp [hcs])) (by decide)
  · rename_i cs hcs
    exact absurd (hdig '+' (by simp [hcs])) (by decide)
  · rw [hval]
    rfl

theorem plainKey_indexSeg (i : ℕ) : PlainKey (indexSeg i) where
  dot h := absurd (isDigit_indexSeg h) (by decide)
  wild := by
    have hstar : '*' ∉ indexSeg i := fun h => absurd (isDigit_indexSeg h) (by decide)
    have hmark : '?' ∉ indexSeg i := fun h => absurd (isDigit_indexSeg h) (by decide)
    simp [QueryEnv.wild, hstar, hmark]
  space h := absurd (isDigit_indexSeg (List.mem_of_mem_head? h)) (by decide)
  op := by
    have hdollar : (indexSeg i).head? ≠ some '$' := fun h =>
      absurd (isDigit_indexSeg (List.mem_of_mem_head? h)) (by decide)
    have hbang : (indexSeg i).take 2 ≠ ['!', '$'] := by
      intro h
      have hmem : '!' ∈ (indexSeg i).take 2 := by simp [h]
      exact absurd (isDigit_indexSeg (List.mem_of_mem_take hmem)) (by decide)
    simp [isOpPart, hdollar, hbang]

theorem getItem_ofNat (xs : List PyVal) (i : ℕ) : PyVal.getItem xs i = xs[i]? := by
  have hi : ¬ (i : ℤ) < 0 := by omega
  rw [PyVal.getItem, if_neg hi, Int.toNat_natCast]

theorem lookup_of_mem {kvs : List (PyVal × PyVal)} {k : List Char} {v : PyVal} (hn : (kvs.map Prod.fst).Nodup)
    (h : (.str k, v) ∈ kvs) : PyVal.lookup kvs k = some v := by
  induction kvs with
  | nil => cases h
  | cons kv kvs ih =>
    obtain ⟨k', v'⟩ := kv
    rw [List.map_cons, List.nodup_cons] at hn
    rcases List.mem_cons.1 h with heq | hmem
    · cases heq
      simp [PyVal.lookup]
    · have hrest := ih hn.2 hmem
      have hne : k' ≠ .str k := by
        rintro rfl
        exact hn.1 (List.mem_map.2 ⟨_, hmem, rfl⟩)
      cases k' with
      | str s =>
        have hs : ¬ s = k := fun hs => hne (by rw [hs])
        rw [PyVal.lookup, if_neg hs, hrest]
      | _ => exact hrest

theorem mem_of_lookup {kvs : List (PyVal × PyVal)} {k : List Char} {v : PyVal} (h : PyVal.lookup kvs k = some v) :
    (.str k, v) ∈ kvs := by
  induction kvs with
  | nil => cases h
  | cons kv kvs ih =>
    obtain ⟨k', v'⟩ := kv
    cases k' with
    | str s =>
      rw [PyVal.lookup] at h
      split at h
      · rename_i hs
        cases h
        simp [hs]
      · exact List.mem_cons_of_mem _ (ih h)
    | _ => exact List.mem_cons_of_mem _ (ih h)

/-- A child is found under the segment that names it, which a path can spell. -/
theorem child_of_named {v : PyVal} {seg : List Char} {w : PyVal} (hv : PlainVal v) (h : (seg, w) ∈ named v) :
    child seg v = .ok (some w) ∧ PlainKey seg := by
  cases v with
  | list xs =>
    obtain ⟨i, hi, rfl⟩ := mem_namedSeq.1 h
    simp only [child, pyInt_indexSeg, getItem_ofNat, hi]
    exact ⟨trivial, plainKey_indexSeg i⟩
  | tuple xs =>
    obtain ⟨i, hi, rfl⟩ := mem_namedSeq.1 h
    simp only [child, pyInt_indexSeg, getItem_ofNat, hi]
    exact ⟨trivial, plainKey_indexSeg i⟩
  | dict kvs =>
    have hmem := mem_named_dict.1 h
    obtain ⟨hn, hk⟩ := hv kvs (mem_allNodes_self _)
    obtain ⟨k, hks, hplain⟩ := hk _ hmem
    cases hks
    simp only [child, lookup_of_mem hn hmem]
    exact ⟨trivial, hplain⟩
  | _ => simp [named] at h

theorem mem_of_getItem {xs : List PyVal} {i : ℤ} {x : PyVal} (h : PyVal.getItem xs i = some x) : x ∈ xs := by
  unfold PyVal.getItem at h
  split at h
  · split at h
    · exact List.mem_of_getElem? h
    · cases h
  · exact List.mem_of_getElem? h

/-- What a segment finds is a child. -/
theorem named_of_child {v : PyVal} {seg : List Char} {w : PyVal} (h : child seg v = .ok (some w)) :
    ∃ x ∈ named v, x.2 = w := by
  cases v with
  | list xs =>
    simp only [child] at h
    split at h
    · cases h
    · rename_i i hi
      split at h
      · rename_i u hu
        cases h
        exact exists_namedSeq (p := fun y => y = w).2 ⟨w, mem_of_getItem hu, rfl⟩
      · cases h
  | tuple xs =>
    simp only [child] at h
    split at h
    · cases h
    · rename_i i hi
      split at h
      · rename_i u hu
        cases h
        exact exists_namedSeq (p := fun y => y = w).2 ⟨w, mem_of_getItem hu, rfl⟩
      · cases h
  | dict kvs =>
    simp only [child] at h
    split at h
    · rename_i u hu
      cases h
      exact ⟨(seg, w), mem_named_dict.2 (mem_of_lookup hu), rfl⟩
    · cases h
  | _ => simp [child] at h

end OmniJsonDb
