import OmniJsonDb.Proof.Routes

/-!
# The two walkers

What the walker for wildcards answers, against the literal paths a wildcard stands for, and what
the walker for literal paths finds.

* `Expands`: a path, a literal path it stands for in a value, and the node that one leads to.
* `matchPATH_iff`: the walker for wildcards says yes where one of these nodes does.
* `walk_of_expands`: the walker for literal paths finds that node.
-/

namespace OmniJsonDb

open QueryEnv

/-! ## Expansions -/

/-- The children that a wildcard other than `**` stands for. -/
def globbed (e : QueryEnv) (name : List Char) (v : PyVal) : List (List Char × PyVal) :=
  match v with
  | .dict _ => (named v).filter fun x => name = ['*'] || (e.glob name).any fun rx => rx x.1
  | .list xs | .tuple xs =>
    if name = ['*'] ∨ name = ['?', '*'] ∨ name = ['*', '?'] then named v
    else if name.head? = some '?' ∧ name.count '?' = name.length then
      (xs.zipIdx.filter fun x => x.2 / 10 + 1 = name.length).map fun x => (indexSeg x.2, x.1)
    else []
  | _ => []

/-- A path, a literal path it stands for in a value, and the node that one leads to. Transforms
stay where they are and are applied once; an operator at the end stays. -/
inductive Expands (e : QueryEnv) : List (List Char) → PyVal → List (List Char) → PyVal → Prop
  | nil (v) : Expands e [] v [] v
  | op {part} (v) : wild part = false → isOpPart part = true → unbang part ∉ TRANSFORM_OPS →
      Expands e [part] v [part] v
  | trans {part rest v w q u} : wild part = false → isOpPart part = true → unbang part ∈ TRANSFORM_OPS →
      e.transform (unbang part) v = some w → Expands e rest w q u → Expands e (part :: rest) v (part :: q) u
  | lit {part rest v w q u} : wild part = false → isOpPart part = false → child part v = .ok (some w) →
      Expands e rest w q u → Expands e (part :: rest) v (part :: q) u
  | glob {part rest v seg w q u} : wild part = true → part ≠ ['*', '*'] → (seg, w) ∈ globbed e part v →
      Expands e rest w q u → Expands e (part :: rest) v (seg :: q) u
  | deep {rest v segs w q u} : Route v segs w → Expands e rest w q u →
      Expands e (['*', '*'] :: rest) v (segs ++ q) u

/-- The parts of a path: literals without leading spaces, wildcards, transforms, and at the end
perhaps an operator. -/
def Shape : List (List Char) → Prop
  | [] => True
  | part :: rest =>
    part.head? ≠ some ' ' ∧ Shape rest ∧
      (wild part = false → isOpPart part = true → unbang part ∈ TRANSFORM_OPS ∨ rest = [])

/-- The globs of a path compile. -/
def Globs (e : QueryEnv) (parts : List (List Char)) : Prop :=
  ∀ part ∈ parts, wild part = true → part = ['*', '*'] ∨ part = ['*'] ∨ e.glob part ≠ none

/-- A path without transforms. -/
def NoTransform (parts : List (List Char)) : Prop :=
  ∀ part ∈ parts, wild part = false → isOpPart part = true → unbang part ∉ TRANSFORM_OPS

/-! ## The walker for wildcards -/

/-- Whether an operator is left at the end. -/
def endsOp (parts : List (List Char)) : Bool :=
  match parts.getLast? with
  | some part => !wild part && isOpPart part && unbang part ∉ TRANSFORM_OPS
  | none => false

theorem stripPart_eq {part : List Char} (h : part.head? ≠ some ' ') : part.dropWhile (· = ' ') = part := by
  cases part with
  | nil => rfl
  | cons c cs =>
    have hc : c ≠ ' ' := fun hc => h (by rw [hc]; rfl)
    rw [List.dropWhile_cons, if_neg (by simpa using hc)]

theorem endsOp_cons {part p : List Char} {rest : List (List Char)} :
    endsOp (part :: p :: rest) = endsOp (p :: rest) := by
  unfold endsOp
  rw [List.getLast?_cons_cons]

/-- Tests that raise nothing: the list says yes where one of them does. -/
theorem any_ok {α : Type} {f : α → Test PyErr} {xs : List α} (h : ∀ x ∈ xs, ∃ b, f x = .ok b) :
    (∃ b, Test.any f xs = .ok b) ∧ (Test.any f xs = .ok true ↔ ∃ x ∈ xs, f x = .ok true) := by
  induction xs with
  | nil => simp
  | cons x xs ih =>
    obtain ⟨b, hb⟩ := h x List.mem_cons_self
    obtain ⟨hok, hiff⟩ := ih fun y hy => h y (List.mem_cons_of_mem x hy)
    cases b with
    | true => simp [hb]
    | false =>
      rw [Test.any_cons, hb, Test.orElse_false_left]
      exact ⟨hok, hiff.trans (by simp [hb])⟩

theorem map_namedSeq {β : Type} (f : PyVal → β) (xs : List PyVal) :
    (namedSeq xs).map (fun x => f x.2) = xs.map f := by
  calc (namedSeq xs).map (fun x => f x.2) = (xs.zipIdx.map Prod.fst).map f := by
        rw [namedSeq, List.map_map, List.map_map]
        rfl
    _ = xs.map f := by rw [List.zipIdx_map_fst]

/-- The children a wildcard stands for are the ones it names. -/
theorem children_eq {e : QueryEnv} {name : List Char} {v : PyVal} (hv : PlainVal v)
    (hg : name = ['*'] ∨ e.glob name ≠ none) :
    e.children name v = (globbed e name v).map fun x => .ok x.2 := by
  cases v with
  | list xs =>
    simp only [children, globbed]
    split
    · exact (map_namedSeq _ xs).symm
    · split
      · rw [List.map_map]
        rfl
      · rfl
  | tuple xs =>
    simp only [children, globbed]
    split
    · exact (map_namedSeq _ xs).symm
    · split
      · rw [List.map_map]
        rfl
      · rfl
  | dict kvs =>
    have hkeys : ∀ kv ∈ kvs, ∃ k, kv.1 = .str k := fun kv hkv => by
      obtain ⟨k, hk, -⟩ := (hv kvs (mem_allNodes_self _)).2 kv hkv
      exact ⟨k, hk⟩
    simp only [children, globbed, named]
    clear hv
    by_cases hstar : name = ['*']
    · simp only [hstar, if_true]
      induction kvs with
      | nil => rfl
      | cons kv kvs ih =>
        obtain ⟨k, hk⟩ := hkeys kv List.mem_cons_self
        obtain ⟨k', v⟩ := kv
        subst hk
        rw [List.map_cons, ih fun kv hkv => hkeys kv (List.mem_cons_of_mem _ hkv)]
        simp
    · obtain ⟨rx, hrx⟩ := Option.ne_none_iff_exists'.1 (hg.resolve_left hstar)
      simp only [hstar, hrx, if_false]
      induction kvs with
      | nil => rfl
      | cons kv kvs ih =>
        obtain ⟨k, hk⟩ := hkeys kv List.mem_cons_self
        obtain ⟨k', v⟩ := kv
        subst hk
        have hrest := ih fun kv hkv => hkeys kv (List.mem_cons_of_mem _ hkv)
        by_cases hm : rx k = true
        · simp only [List.filterMap_cons, hm, if_true, hrest]
          simp [hm]
        · simp only [List.filterMap_cons, hm, hrest]
          simp [hm]
  | _ => rfl

/-- The children that a wildcard names are children. -/
theorem named_of_globbed {e : QueryEnv} {name : List Char} {v : PyVal} {x : List Char × PyVal}
    (h : x ∈ globbed e name v) : x ∈ named v := by
  have hsub : ∀ xs : List PyVal, x ∈ globbed e name (.list xs) → x ∈ namedSeq xs := by
    intro xs hx
    simp only [globbed] at hx
    split at hx
    · exact hx
    · split at hx
      · obtain ⟨y, hy, rfl⟩ := List.mem_map.1 hx
        exact List.mem_map.2 ⟨y, (List.mem_filter.1 hy).1, rfl⟩
      · cases hx
  cases v with
  | list xs => exact hsub xs h
  | tuple xs => exact hsub xs h
  | dict kvs => exact (List.mem_filter.1 h).1
  | _ => cases h

/-- Whether the operator that is left at the end is negated. -/
def endsNeg (parts : List (List Char)) : Bool :=
  endsOp parts && (parts.getLast?.any negated)

theorem endsNeg_cons {part p : List Char} {rest : List (List Char)} :
    endsNeg (part :: p :: rest) = endsNeg (p :: rest) := by
  unfold endsNeg
  rw [endsOp_cons, List.getLast?_cons_cons]

/-- What is left at the end is what the rest of the path leaves, unless there is none. -/
theorem ends_cons {part : List Char} {rest : List (List Char)}
    (h : wild part = true ∨ isOpPart part = false ∨ unbang part ∈ TRANSFORM_OPS) :
    endsOp (part :: rest) = endsOp rest ∧ endsNeg (part :: rest) = endsNeg rest := by
  cases rest with
  | nil => rcases h with h | h | h <;> simp [endsOp, endsNeg, h]
  | cons p rest => exact ⟨endsOp_cons, endsNeg_cons⟩

section

variable {e : QueryEnv} {leaf last : PyVal → Test PyErr}

theorem tryMatch_ok (b : Bool) : tryMatch (.ok b) = .ok b := rfl

/-- What the wildcard `**` stands for. -/
theorem expands_deep {rest q : List (List Char)} {v u : PyVal} (hv : PlainVal v) :
    Expands e (['*', '*'] :: rest) v q u ↔
      ∃ w ∈ allNodes v, ∃ segs q', Route v segs w ∧ q = segs ++ q' ∧ Expands e rest w q' u := by
  constructor
  · intro h
    cases h with
    | op _ hw _ => simp [QueryEnv.wild] at hw
    | trans hw _ _ _ _ => simp [QueryEnv.wild] at hw
    | lit hw _ _ _ => simp [QueryEnv.wild] at hw
    | glob _ hne _ _ => exact absurd rfl hne
    | @deep _ _ segs w q _ hr hx => exact ⟨w, (mem_allNodes_iff_route hv).2 ⟨segs, hr⟩, segs, q, hr, rfl, hx⟩
  · rintro ⟨w, -, segs, q', hr, rfl, hx⟩
    exact .deep hr hx

/-- What another wildcard stands for. -/
theorem expands_glob {part : List Char} {rest q : List (List Char)} {v u : PyVal} (hw : wild part = true)
    (hne : part ≠ ['*', '*']) :
    Expands e (part :: rest) v q u ↔ ∃ x ∈ globbed e part v, ∃ q', q = x.1 :: q' ∧ Expands e rest x.2 q' u := by
  constructor
  · intro h
    cases h with
    | op _ hw' _ => simp [hw] at hw'
    | trans hw' _ _ _ _ => simp [hw] at hw'
    | lit hw' _ _ _ => simp [hw] at hw'
    | glob _ _ hx h => exact ⟨_, hx, _, rfl, h⟩
    | deep _ _ => exact absurd rfl hne
  · rintro ⟨x, hx, q', rfl, h⟩
    exact .glob hw hne hx h

/-- What a literal stands for. -/
theorem expands_lit {part : List Char} {rest q : List (List Char)} {v u : PyVal} (hw : wild part = false)
    (ho : isOpPart part = false) :
    Expands e (part :: rest) v q u ↔
      ∃ w, child part v = .ok (some w) ∧ ∃ q', q = part :: q' ∧ Expands e rest w q' u := by
  constructor
  · intro h
    cases h with
    | op _ _ ho' => simp [ho] at ho'
    | trans _ ho' _ _ _ => simp [ho] at ho'
    | lit _ _ hc h => exact ⟨_, hc, _, rfl, h⟩
    | glob hw' _ _ _ => simp [hw] at hw'
    | deep _ _ => simp [QueryEnv.wild] at hw
  · rintro ⟨w, hc, q', rfl, h⟩
    exact .lit hw ho hc h

/-- What an operator at the end stands for. -/
theorem expands_op {part : List Char} {rest q : List (List Char)} {v u : PyVal} (hw : wild part = false)
    (ho : isOpPart part = true) (ht : unbang part ∉ TRANSFORM_OPS) :
    Expands e (part :: rest) v q u ↔ rest = [] ∧ q = [part] ∧ u = v := by
  constructor
  · intro h
    cases h with
    | op => exact ⟨rfl, rfl, rfl⟩
    | trans _ _ ht' _ _ => exact absurd ht' ht
    | lit _ ho' _ _ => simp [ho] at ho'
    | glob hw' _ _ _ => simp [hw] at hw'
    | deep _ _ => simp [QueryEnv.wild] at hw
  · rintro ⟨rfl, rfl, rfl⟩
    exact .op _ hw ho ht

/-- **The walker for wildcards** says yes where one of the nodes that the path stands for does. -/
theorem matchPATH_iff {parts : List (List Char)} {v : PyVal} (hs : Shape parts) (hg : Globs e parts)
    (hn : NoTransform parts) (hv : PlainVal v)
    (hq : ∀ q u, Expands e parts v q u → ∃ b, (if endsOp parts then last else leaf) u = .ok b) :
    (∃ b, e.matchPATH leaf last parts v = .ok b) ∧
      (e.matchPATH leaf last parts v = .ok true ↔
        ∃ q u, Expands e parts v q u ∧ (if endsOp parts then last else leaf) u = .ok true) := by
  induction parts generalizing v with
  | nil =>
    refine ⟨hq [] v (.nil v), fun h => ⟨[], v, .nil v, h⟩, ?_⟩
    rintro ⟨q, u, hx, h⟩
    cases hx
    exact h
  | cons part rest ih =>
    obtain ⟨hspace, hrest, hop⟩ := hs
    have hg' : Globs e rest := fun p hp => hg p (List.mem_cons_of_mem part hp)
    have hn' : NoTransform rest := fun p hp => hn p (List.mem_cons_of_mem part hp)
    rw [matchPATH, stripPart_eq hspace]
    cases hw : wild part with
    | true =>
      rw [if_pos rfl]
      rw [(ends_cons (.inl hw)).1] at hq ⊢
      by_cases hdeep : part = ['*', '*']
      · -- every node of the value
        subst hdeep
        rw [if_pos rfl]
        have hsub := fun u (hu : u ∈ allNodes v) =>
          ih (v := u) hrest hg' hn' (hv.node hu) fun q w hx =>
            let ⟨segs, hr⟩ := (mem_allNodes_iff_route hv).1 hu
            hq (segs ++ q) w (.deep hr hx)
        obtain ⟨hok, hiff⟩ := any_ok fun u hu => (hsub u hu).1
        refine ⟨hok, hiff.trans ⟨?_, ?_⟩⟩
        · rintro ⟨u, hu, h⟩
          obtain ⟨q, w, hx, hfin⟩ := (hsub u hu).2.1 h
          obtain ⟨segs, hr⟩ := (mem_allNodes_iff_route hv).1 hu
          exact ⟨segs ++ q, w, .deep hr hx, hfin⟩
        · rintro ⟨q, w, hx, hfin⟩
          obtain ⟨u, hu, segs, q', -, -, hx⟩ := (expands_deep hv).1 hx
          exact ⟨u, hu, (hsub u hu).2.2 ⟨q', w, hx, hfin⟩⟩
      · rw [if_neg hdeep, children_eq hv ((hg part List.mem_cons_self hw).resolve_left hdeep), Test.any_map]
        have hsub := fun x (hx : x ∈ globbed e part v) =>
          ih (v := x.2) hrest hg' hn' (hv.child (named_of_globbed hx)) fun q w hxs =>
            hq (x.1 :: q) w (.glob hw hdeep hx hxs)
        obtain ⟨hok, hiff⟩ := any_ok (f := fun x : List Char × PyVal => e.matchPATH leaf last rest x.2)
          fun x hx => (hsub x hx).1
        refine ⟨hok, hiff.trans ⟨?_, ?_⟩⟩
        · rintro ⟨x, hx, h⟩
          obtain ⟨q, w, hxs, hfin⟩ := (hsub x hx).2.1 h
          exact ⟨x.1 :: q, w, .glob hw hdeep hx hxs, hfin⟩
        · rintro ⟨q, w, hx, hfin⟩
          obtain ⟨x, hmem, q', -, hx⟩ := (expands_glob hw hdeep).1 hx
          exact ⟨x, hmem, (hsub x hmem).2.2 ⟨q', w, hx, hfin⟩⟩
    | false =>
      rw [if_neg (by simp)]
      cases ho : isOpPart part with
      | true =>
        have htrans := hn part List.mem_cons_self hw ho
        obtain rfl := (hop hw ho).resolve_left htrans
        have hends : endsOp [part] = true := by simp [endsOp, hw, ho, htrans]
        rw [if_pos rfl, if_neg htrans, if_pos rfl, hends]
        rw [hends] at hq
        obtain ⟨b, hb⟩ := hq [part] v (.op v hw ho htrans)
        rw [if_pos rfl] at hb ⊢
        rw [hb, tryMatch_ok]
        refine ⟨⟨b, rfl⟩, fun h => ⟨[part], v, .op v hw ho htrans, hb.trans h⟩, ?_⟩
        rintro ⟨q, w, hx, h⟩
        obtain ⟨-, -, rfl⟩ := (expands_op hw ho htrans).1 hx
        exact hb.symm.trans h
      | false =>
        rw [(ends_cons (.inr (.inl ho))).1] at hq ⊢
        rw [if_neg (by simp)]
        have hnone : (∀ w, child part v ≠ .ok (some w)) → ¬ ∃ q u, Expands e (part :: rest) v q u ∧
            (if endsOp rest then last else leaf) u = .ok true := by
          rintro hc ⟨q, u, hx, -⟩
          obtain ⟨w, hw', -⟩ := (expands_lit hw ho).1 hx
          exact hc w hw'
        rcases hc : child part v with x | _ | u
        · exact ⟨⟨false, rfl⟩, fun h => by simp at h, fun h => absurd h (hnone fun w => by simp [hc])⟩
        · exact ⟨⟨false, rfl⟩, fun h => by simp at h, fun h => absurd h (hnone fun w => by simp [hc])⟩
        · obtain ⟨y, hy, rfl⟩ := named_of_child hc
          obtain ⟨⟨b, hb⟩, hiff⟩ := ih (v := y.2) hrest hg' hn' (hv.child hy) fun q w hx =>
            hq (part :: q) w (.lit hw ho hc hx)
          dsimp only
          rw [hb, tryMatch_ok]
          rw [hb] at hiff
          refine ⟨⟨b, rfl⟩, hiff.trans ⟨?_, ?_⟩⟩
          · rintro ⟨q, w, hx, hfin⟩
            exact ⟨part :: q, w, .lit hw ho hc hx, hfin⟩
          · rintro ⟨q, w, hx, hfin⟩
            obtain ⟨w', hc', q', -, hx⟩ := (expands_lit hw ho).1 hx
            rw [hc] at hc'
            cases hc'
            exact ⟨q', w, hx, hfin⟩

end

/-! ## The walker for literal paths -/

section

variable {e : QueryEnv}

theorem walk_route {v w : PyVal} {segs : List (List Char)} (hv : PlainVal v) (h : Route v segs w)
    (q : List (List Char)) (rev : Bool) : e.walk (segs ++ q) v rev = e.walk q w rev := by
  induction h with
  | nil v => rfl
  | @cons v seg w segs u hx _ ih =>
    obtain ⟨hc, hk⟩ := child_of_named hv hx
    rw [List.cons_append, walk, if_neg (by simp [hk.op]), stripPart_eq hk.space, hc]
    exact ih (hv.child hx)

/-- The walker for literal paths finds the node. -/
theorem walk_of_expands {parts q : List (List Char)} {v u : PyVal} (h : Expands e parts v q u)
    (hs : Shape parts) (hn : NoTransform parts) (hv : PlainVal v) (rev : Bool) :
    e.walk q v rev = .ok (some (u, rev != endsNeg parts, endsOp parts)) := by
  induction h with
  | nil v => simp [walk, endsNeg, endsOp]
  | @op part v hw ho ht =>
    rw [walk, if_pos ho]
    dsimp only
    rw [if_neg ht, if_pos rfl]
    cases hneg : negated part <;> simp [endsNeg, endsOp, hw, ho, ht, hneg]
  | trans hw ho ht _ _ _ => exact absurd ht (hn _ List.mem_cons_self hw ho)
  | @lit part rest v w q u hw ho hc _ ih =>
    obtain ⟨y, hy, rfl⟩ := named_of_child hc
    obtain ⟨hends, hneg⟩ := @ends_cons part rest (.inr (.inl ho))
    rw [walk, if_neg (by simp [ho]), stripPart_eq hs.1, hc, hends, hneg]
    exact ih hs.2.1 (fun p hp => hn p (List.mem_cons_of_mem part hp)) (hv.child hy)
  | @glob part rest v seg w q u hw _ hx _ ih =>
    have hx := named_of_globbed hx
    obtain ⟨hc, hk⟩ := child_of_named hv hx
    obtain ⟨hends, hneg⟩ := @ends_cons part rest (.inl hw)
    rw [walk, if_neg (by simp [hk.op]), stripPart_eq hk.space, hc, hends, hneg]
    exact ih hs.2.1 (fun p hp => hn p (List.mem_cons_of_mem part hp)) (hv.child hx)
  | @deep rest v segs w q u hr _ ih =>
    obtain ⟨hends, hneg⟩ := @ends_cons ['*', '*'] rest (.inl (by decide))
    rw [walk_route hv hr, hends, hneg]
    exact ih hs.2.1 (fun p hp => hn p (List.mem_cons_of_mem _ hp))
      (hv.node ((mem_allNodes_iff_route hv).2 ⟨segs, hr⟩))

/-- What the walker finds on a path without wildcards is what the path stands for. -/
theorem expands_of_walk {parts : List (List Char)} {v u : PyVal} {rev rev' flag : Bool}
    (hs : Shape parts) (hw : ∀ part ∈ parts, wild part = false)
    (h : e.walk parts v rev = .ok (some (u, rev', flag))) : Expands e parts v parts u := by
  induction parts generalizing v rev with
  | nil =>
    cases h
    exact .nil _
  | cons part rest ih =>
    have hwp := hw part List.mem_cons_self
    have hwr : ∀ p ∈ rest, wild p = false := fun p hmem => hw p (List.mem_cons_of_mem part hmem)
    cases ho : isOpPart part with
    | true =>
      rw [walk, if_pos ho] at h
      dsimp only at h
      by_cases ht : unbang part ∈ TRANSFORM_OPS
      · rw [if_pos ht] at h
        cases htr : e.transform (unbang part) v with
        | none => simp [htr] at h
        | some w =>
          simp only [htr] at h
          exact .trans hwp ho ht htr (ih hs.2.1 hwr h)
      · obtain rfl := (hs.2.2 hwp ho).resolve_left ht
        rw [if_neg ht, if_pos rfl] at h
        cases h
        exact .op _ hwp ho ht
    | false =>
      rw [walk, if_neg (by simp [ho]), stripPart_eq hs.1] at h
      rcases hc : child part v with x | _ | w
      · simp [hc] at h
      · simp [hc] at h
      · simp only [hc] at h
        exact .lit hwp ho hc (ih hs.2.1 hwr h)

/-- A path without wildcards stands for itself. -/
theorem eq_of_expands {parts q : List (List Char)} {v u : PyVal} (h : Expands e parts v q u)
    (hw : ∀ part ∈ parts, wild part = false) : q = parts := by
  induction h with
  | nil v => rfl
  | op v _ _ _ => rfl
  | trans _ _ _ _ _ ih => rw [ih fun p hp => hw p (List.mem_cons_of_mem _ hp)]
  | lit _ _ _ _ ih => rw [ih fun p hp => hw p (List.mem_cons_of_mem _ hp)]
  | glob hw' _ _ _ _ => simp [hw _ List.mem_cons_self] at hw'
  | deep _ _ _ =>
    have := hw ['*', '*'] List.mem_cons_self
    simp [QueryEnv.wild] at this

end

/-! ## The segments of an expansion -/

section

variable {e : QueryEnv}

theorem segs_of_route {v w : PyVal} {segs : List (List Char)} (h : Route v segs w) (hv : PlainVal v) :
    ∀ seg ∈ segs, '.' ∉ seg ∧ wild seg = false := by
  induction h with
  | nil v =>
    intro seg hseg
    cases hseg
  | cons hx _ ih =>
    intro seg hseg
    have hk := (child_of_named hv hx).2
    rcases List.mem_cons.1 hseg with rfl | hseg
    · exact ⟨hk.dot, hk.wild⟩
    · exact ih (hv.child hx) seg hseg

/-- Every segment of a literal path can be spelled. -/
theorem segs_of_expands {parts q : List (List Char)} {v u : PyVal} (h : Expands e parts v q u)
    (hp : ∀ part ∈ parts, '.' ∉ part) (hn : NoTransform parts) (hv : PlainVal v) :
    ∀ seg ∈ q, '.' ∉ seg ∧ wild seg = false := by
  induction h with
  | nil v =>
    intro seg hseg
    cases hseg
  | op v hw _ _ =>
    intro seg hseg
    rw [List.mem_singleton.1 hseg]
    exact ⟨hp _ List.mem_cons_self, hw⟩
  | trans hw ho ht _ _ _ => exact absurd ht (hn _ List.mem_cons_self hw ho)
  | @lit part rest v w q u hw ho hc _ ih =>
    obtain ⟨y, hy, rfl⟩ := named_of_child hc
    intro seg hseg
    rcases List.mem_cons.1 hseg with rfl | hseg
    · exact ⟨hp seg List.mem_cons_self, hw⟩
    · exact ih (fun p hmem => hp p (List.mem_cons_of_mem part hmem))
        (fun p hmem => hn p (List.mem_cons_of_mem part hmem)) (hv.child hy) seg hseg
  | @glob part rest v seg' w q u hw _ hx _ ih =>
    have hx := named_of_globbed hx
    intro seg hseg
    rcases List.mem_cons.1 hseg with rfl | hseg
    · exact ⟨(child_of_named hv hx).2.dot, (child_of_named hv hx).2.wild⟩
    · exact ih (fun p hmem => hp p (List.mem_cons_of_mem part hmem))
        (fun p hmem => hn p (List.mem_cons_of_mem part hmem)) (hv.child hx) seg hseg
  | @deep rest v segs w q u hr _ ih =>
    intro seg hseg
    rcases List.mem_append.1 hseg with hseg | hseg
    · exact segs_of_route hr hv seg hseg
    · exact ih (fun p hmem => hp p (List.mem_cons_of_mem _ hmem)) (fun p hmem => hn p (List.mem_cons_of_mem _ hmem))
        (hv.node ((mem_allNodes_iff_route hv).2 ⟨segs, hr⟩)) seg hseg

/-- How a literal path begins. -/
theorem first_of_expands {parts q : List (List Char)} {v u : PyVal} (h : Expands e parts v q u)
    (hn : NoTransform parts) (hv : PlainVal v) :
    q = [] ∧ u = v ∨ (∃ op, q = [op] ∧ isOpPart op = true ∧ endsOp parts = true ∧ u = v) ∨
      ∃ seg qs w, q = seg :: qs ∧ child seg v = .ok (some w) ∧ isOpPart seg = false := by
  induction h with
  | nil v => exact .inl ⟨rfl, rfl⟩
  | op v hw ho ht => exact .inr (.inl ⟨_, rfl, ho, by simp [endsOp, hw, ho, ht], rfl⟩)
  | trans hw ho ht _ _ _ => exact absurd ht (hn _ List.mem_cons_self hw ho)
  | lit _ ho hc _ _ => exact .inr (.inr ⟨_, _, _, rfl, hc, ho⟩)
  | glob _ _ hx _ _ =>
    obtain ⟨hc, hk⟩ := child_of_named hv (named_of_globbed hx)
    exact .inr (.inr ⟨_, _, _, rfl, hc, hk.op⟩)
  | deep hr _ ih =>
    cases hr with
    | nil =>
      rw [(ends_cons (.inl rfl)).1]
      exact ih (fun p hmem => hn p (List.mem_cons_of_mem _ hmem)) hv
    | cons hx _ =>
      obtain ⟨hc, hk⟩ := child_of_named hv hx
      exact .inr (.inr ⟨_, _, _, rfl, hc, hk.op⟩)

/-- An operator at the end stays there. -/
theorem last_of_expands {parts q : List (List Char)} {v u : PyVal} (h : Expands e parts v q u)
    (hn : NoTransform parts) (hends : endsOp parts = true) : q.getLast? = parts.getLast? := by
  have hstep : ∀ {part : List Char} {rest q : List (List Char)} (segs : List (List Char)), (wild part = true ∨ isOpPart part = false) →
      endsOp (part :: rest) = true → (endsOp rest = true → q.getLast? = rest.getLast?) →
      (segs ++ q).getLast? = (part :: rest).getLast? := by
    intro part rest q segs hpart hends ih
    have hq := ih ((ends_cons (hpart.imp_right .inl)).1 ▸ hends)
    cases rest with
    | nil => rcases hpart with h | h <;> simp [endsOp, h] at hends
    | cons p rest =>
      have hne : q ≠ [] := by
        rintro rfl
        simp [List.getLast?_cons] at hq
      rw [List.getLast?_append_of_ne_nil _ hne, hq, List.getLast?_cons_cons]
  induction h with
  | nil v => rfl
  | op v _ _ _ => rfl
  | trans hw ho ht _ _ _ => exact absurd ht (hn _ List.mem_cons_self hw ho)
  | @lit part rest v w q u _ ho _ _ ih =>
    exact hstep [part] (.inr ho) hends (ih fun p hmem => hn p (List.mem_cons_of_mem _ hmem))
  | @glob part rest v seg w q u hw _ _ _ ih =>
    exact hstep [seg] (.inl hw) hends (ih fun p hmem => hn p (List.mem_cons_of_mem _ hmem))
  | deep _ _ ih => exact hstep _ (.inl rfl) hends (ih fun p hmem => hn p (List.mem_cons_of_mem _ hmem))

end

end OmniJsonDb
