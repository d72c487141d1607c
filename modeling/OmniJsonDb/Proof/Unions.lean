import OmniJsonDb.Proof.Wildcards

/-!
# Which paths mean their expansions

A path with wildcards that holds a transform, or ends with a negated operator whose negation does
more than reverse the answer, differs from its expansions on some value.

* `nest`, `spell`, `probe`: a value for a path, the literal path through it, and transforms that
  lead on where the path asks for them.
* `matchPATH_transform`: the walker for wildcards never passes a transform.
* `unions_iff`: the paths that mean the union of their expansions.
-/

namespace OmniJsonDb

open QueryEnv

/-! ## A value for a path -/

/-- A value in which a path leads to `tip`: a dictionary for every literal and wildcard, a mark for
every transform. -/
def nest (tip : PyVal) : List (List Char) → PyVal
  | [] => tip
  | part :: rest =>
    if wild part then .dict [(.str ['a'], nest tip rest)]
    else if isOpPart part then (if unbang part ∈ TRANSFORM_OPS then .int rest.length else tip)
    else .dict [(.str part, nest tip rest)]

/-- The literal path through it. -/
def spell (parts : List (List Char)) : List (List Char) := parts.map fun part => if wild part then ['a'] else part

theorem spell_cons (part : List Char) (rest : List (List Char)) :
    spell (part :: rest) = (if wild part then ['a'] else part) :: spell rest := rfl

/-- Every glob matches, a comparison says what its rule says, and a mark is transformed into what
the path `post` asks for there. -/
def probe (tip : PyVal) (post : List (List Char)) : QueryEnv where
  kind := fun _ => .other
  str := fun _ => []
  set := fun xs => .ok (.set xs)
  today := .date 1
  now := .datetime 0
  addDays := fun d _ => .ok d
  truncate := fun _ => .ok 0
  leafKEY := fun _ _ _ _ => .ok false
  leafVAL := fun _ _ r _ _ =>
    match r with
    | .bool b => .ok b
    | _ => .ok false
  leafDATE := fun _ _ _ _ _ => .ok false
  transform := fun _ v =>
    match v with
    | .int n => if n < 0 then none else some (nest tip (post.drop (post.length - n.toNat)))
    | _ => none
  glob := fun _ => some fun _ => true

theorem probe_transform {tip : PyVal} {pre post rest : List (List Char)} (h : pre ++ rest = post) (op : List Char) :
    (probe tip post).transform op (.int rest.length) = some (nest tip rest) := by
  have hlen : post.length - rest.length = pre.length := by
    rw [← h, List.length_append]
    omega
  have hneg : ¬ (rest.length : ℤ) < 0 := by omega
  simp only [probe, if_neg hneg, Int.toNat_natCast, hlen]
  rw [← h, List.drop_left]

section

variable {tip : PyVal} {parts post : List (List Char)}

/-- The marks of a path are transformed into what follows them. -/
def Marked (e : QueryEnv) (tip : PyVal) : List (List Char) → Prop
  | [] => True
  | part :: rest =>
    Marked e tip rest ∧ (wild part = false → isOpPart part = true → unbang part ∈ TRANSFORM_OPS →
      e.transform (unbang part) (.int rest.length) = some (nest tip rest))

/-- The path leads through the value. -/
theorem expands_nest {e : QueryEnv} (hs : Shape parts) (hm : Marked e tip parts)
    (hg : ∀ part, e.glob part = some fun _ => true) : Expands e parts (nest tip parts) (spell parts) tip := by
  induction parts with
  | nil => exact .nil tip
  | cons part rest ih =>
    have ih := ih hs.2.1 hm.1
    rw [spell_cons, nest]
    cases hw : wild part with
    | true =>
      have hmem : (['a'], nest tip rest) ∈ named (.dict [(.str ['a'], nest tip rest)]) :=
        mem_named_dict.2 List.mem_cons_self
      by_cases hdeep : part = ['*', '*']
      · subst hdeep
        exact .deep (.cons hmem (.nil _)) ih
      · refine .glob hw hdeep (List.mem_filter.2 ⟨hmem, ?_⟩) ih
        simp [hg]
    | false =>
      cases ho : isOpPart part with
      | true =>
        by_cases ht : unbang part ∈ TRANSFORM_OPS
        · rw [if_pos rfl, if_pos ht]
          exact .trans hw ho ht (hm.2 hw ho ht) ih
        · obtain rfl := (hs.2.2 hw ho).resolve_left ht
          rw [if_pos rfl, if_neg ht]
          exact .op tip hw ho ht
      | false => exact .lit hw ho (by simp [child, PyVal.lookup]) ih

/-- The walker for literal paths finds the tip. -/
theorem walk_spell {e : QueryEnv} (hs : Shape parts) (hm : Marked e tip parts) (rev : Bool) :
    ∃ rev', e.walk (spell parts) (nest tip parts) rev = .ok (some (tip, rev', endsOp parts)) := by
  induction parts generalizing rev with
  | nil => exact ⟨rev, rfl⟩
  | cons part rest ih =>
    rw [spell_cons, nest]
    cases hw : wild part with
    | true =>
      obtain ⟨rev', h⟩ := ih hs.2.1 hm.1 rev
      refine ⟨rev', ?_⟩
      rw [if_pos rfl, if_pos rfl, walk, if_neg (by decide), stripPart_eq (by decide), (ends_cons (.inl hw)).1]
      simpa [child, PyVal.lookup] using h
    | false =>
      rw [if_neg (by simp), if_neg (by simp)]
      cases ho : isOpPart part with
      | true =>
        rw [if_pos rfl, walk, if_pos ho]
        dsimp only
        by_cases ht : unbang part ∈ TRANSFORM_OPS
        · rw [if_pos ht, if_pos ht, hm.2 hw ho ht, (ends_cons (.inr (.inr ht))).1]
          exact ih hs.2.1 hm.1 _
        · obtain rfl := (hs.2.2 hw ho).resolve_left ht
          have hends : endsOp [part] = true := by simp [endsOp, hw, ho, ht]
          rw [if_neg ht, if_neg ht, if_pos (show spell [] = [] from rfl), hends]
          exact ⟨_, rfl⟩
      | false =>
        obtain ⟨rev', h⟩ := ih hs.2.1 hm.1 rev
        refine ⟨rev', ?_⟩
        rw [if_neg (by simp), walk, if_neg (by simp [ho]), stripPart_eq hs.1, (ends_cons (.inr (.inl ho))).1]
        simpa [child, PyVal.lookup] using h

/-- The keys of the value can be spelled. -/
theorem plain_nest (hs : Shape parts) (hdot : ∀ part ∈ parts, '.' ∉ part) (htip : PlainVal tip) :
    PlainVal (nest tip parts) := by
  have hone : ∀ {k : List Char} {w : PyVal}, PlainKey k → PlainVal w → PlainVal (.dict [(.str k, w)]) := by
    intro k w hk hw kvs hkvs
    simp only [allNodes, allNodesIn, List.append_nil, List.mem_cons] at hkvs
    rcases hkvs with heq | hmem
    · cases heq
      refine ⟨by simp, fun kv hkv => ⟨k, ?_, hk⟩⟩
      rw [List.mem_singleton.1 hkv]
    · exact hw kvs hmem
  induction parts with
  | nil => exact htip
  | cons part rest ih =>
    have ih := ih hs.2.1 fun p hp => hdot p (List.mem_cons_of_mem part hp)
    rw [nest]
    cases hw : wild part with
    | true => exact hone ⟨by decide, by decide, by decide, by decide⟩ ih
    | false =>
      rw [if_neg (by simp)]
      cases ho : isOpPart part with
      | true =>
        rw [if_pos rfl]
        split
        · intro kvs hkvs
          simp [allNodes] at hkvs
        · exact htip
      | false => exact hone ⟨hdot part List.mem_cons_self, hw, hs.1, ho⟩ ih

theorem marked_of_suffix {pre : List (List Char)} (h : pre ++ parts = post) : Marked (probe tip post) tip parts := by
  induction parts generalizing pre with
  | nil => exact trivial
  | cons part rest ih =>
    have hrest : (pre ++ [part]) ++ rest = post := by rw [← h, List.append_assoc, List.singleton_append]
    exact ⟨ih hrest, fun _ _ _ => probe_transform hrest _⟩

/-- The marks lead on where no transform comes before `post`. -/
theorem marked_append {e : QueryEnv} {pre : List (List Char)}
    (hpre : NoTransform pre) (h : Marked e tip parts) :
    Marked e tip (pre ++ parts) := by
  induction pre with
  | nil => exact h
  | cons part pre ih =>
    refine ⟨ih fun p hp => hpre p (List.mem_cons_of_mem part hp), fun hw ho ht => ?_⟩
    exact absurd ht (hpre part List.mem_cons_self hw ho)

end

/-! ## Transforms under a wildcard -/

section

variable {e : QueryEnv} {leaf last : PyVal → Test PyErr}

theorem any_true {α : Type} {f : α → Test PyErr} {xs : List α} (h : Test.any f xs = .ok true) :
    ∃ x ∈ xs, f x = .ok true := by
  induction xs with
  | nil => cases h
  | cons x xs ih =>
    rw [Test.any_cons] at h
    rcases hx : f x with y | b
    · simp [hx] at h
    · cases b with
      | true => exact ⟨x, List.mem_cons_self, hx⟩
      | false =>
        rw [hx, Test.orElse_false_left] at h
        obtain ⟨y, hy, hfy⟩ := ih h
        exact ⟨y, List.mem_cons_of_mem x hy, hfy⟩

theorem tryMatch_true {t : Test PyErr} (h : tryMatch t = .ok true) : t = .ok true := by
  rcases t with x | b
  · simp only [tryMatch] at h
    split at h <;> cases h
  · exact h

/-- **The walker for wildcards never passes a transform**: it says no where one is not at the end,
and there it runs it once more. -/
theorem matchPATH_transform {pre post : List (List Char)} {t : List Char} {v : PyVal} (hspace : t.head? ≠ some ' ')
    (hw : wild t = false) (ho : isOpPart t = true) (ht : unbang t ∈ TRANSFORM_OPS)
    (h : e.matchPATH leaf last (pre ++ t :: post) v = .ok true) :
    post = [] ∧ ∃ u w, e.transform (unbang t) u = some w ∧ last w = .ok true := by
  induction pre generalizing v with
  | nil =>
    rw [List.nil_append, matchPATH, stripPart_eq hspace, if_neg (by simp [hw]), if_pos ho, if_pos ht] at h
    cases htr : e.transform (unbang t) v with
    | none => simp [htr] at h
    | some w =>
      simp only [htr] at h
      split at h
      · rename_i hpost
        exact ⟨hpost, v, w, htr, tryMatch_true h⟩
      · cases h
  | cons part pre ih =>
    rw [List.cons_append, matchPATH] at h
    split at h
    · split at h
      · obtain ⟨u, -, hu⟩ := any_true h
        exact ih hu
      · obtain ⟨x, -, hx⟩ := any_true h
        rcases x with y | u
        · cases hx
        · exact ih hx
    · split at h
      · split at h
        · split at h
          · cases h
          · simp at h
        · simp at h
      · split at h
        · cases h
        · cases h
        · exact ih (tryMatch_true h)

end

/-! ## Quantifiers that raise nothing -/

/-- A test that raises nothing. -/
def Okay (t : Test PyErr) : Prop := ∃ b, t = .ok b

theorem okay_ok (b : Bool) : Okay (.ok b) := ⟨b, rfl⟩

theorem Okay.flip {t : Test PyErr} (h : Okay t) (rev : Bool) : Okay (Test.flip rev t) := by
  obtain ⟨b, rfl⟩ := h
  exact okay_ok _

theorem Okay.andThen {s t : Test PyErr} (hs : Okay s) (ht : Okay t) : Okay (Test.andThen s t) := by
  obtain ⟨b, rfl⟩ := hs
  cases b with
  | false => exact okay_ok false
  | true => exact ht

theorem Okay.orElse {s t : Test PyErr} (hs : Okay s) (ht : Okay t) : Okay (Test.orElse s t) := by
  obtain ⟨b, rfl⟩ := hs
  cases b with
  | false => exact ht
  | true => exact okay_ok true

theorem okay_bytes {f : PyVal → Test PyErr} (hf : ∀ v, Okay (f v)) (all : Bool) (b : Bytes) :
    Okay ((if all then Test.all else Test.any) (fun x => f (.int x.toNat)) b) := by
  induction b with
  | nil => cases all <;> exact okay_ok _
  | cons x b ih =>
    cases all with
    | true => exact (hf _).andThen ih
    | false => exact (hf _).orElse ih

mutual

theorem okay_deep {f : PyVal → Test PyErr} (hf : ∀ v, Okay (f v)) (all : Bool) : ∀ v, Okay (deep all f v)
  | .list xs => (okay_deepItems hf all xs).orElse (hf _)
  | .tuple xs => (okay_deepItems hf all xs).orElse (hf _)
  | .set xs => (okay_deepItems hf all xs).orElse (hf _)
  | .dict kvs => (okay_deepValues hf all kvs).orElse (hf _)
  | .bytearray b => (okay_bytes hf all b).orElse (hf _)
  | .none => hf _
  | .bool _ => hf _
  | .int _ => hf _
  | .float _ => hf _
  | .str _ => hf _
  | .bytes _ => hf _
  | .date _ => hf _
  | .datetime _ => hf _
  | .jdb _ _ => hf _
  | .obj _ => hf _

theorem okay_deepItems {f : PyVal → Test PyErr} (hf : ∀ v, Okay (f v)) (all : Bool) :
    ∀ xs, Okay (deepItems all f xs)
  | [] => okay_ok all
  | x :: xs => by
    rw [deepItems]
    split
    · exact (okay_deep hf all x).andThen (okay_deepItems hf all xs)
    · exact (okay_deep hf all x).orElse (okay_deepItems hf all xs)

theorem okay_deepValues {f : PyVal → Test PyErr} (hf : ∀ v, Okay (f v)) (all : Bool) :
    ∀ kvs, Okay (deepValues all f kvs)
  | [] => okay_ok all
  | (_, v) :: kvs => by
    rw [deepValues]
    split
    · exact (okay_deep hf all v).andThen (okay_deepValues hf all kvs)
    · exact (okay_deep hf all v).orElse (okay_deepValues hf all kvs)

end

theorem okay_quantify {f : PyVal → Test PyErr} (hf : ∀ v, Okay (f v)) (all : Bool) (v : PyVal) :
    Okay (quantify all f v) := by
  cases v with
  | list xs => exact okay_deepItems hf all xs
  | tuple xs => exact okay_deepItems hf all xs
  | set xs => exact okay_deepItems hf all xs
  | dict kvs => exact okay_deepValues hf all kvs
  | bytearray b => exact okay_bytes hf all b
  | _ => exact hf _

/-! ## Rules with a known answer -/

/-- A rule that says the same everywhere. -/
def answer (b : Bool) : PyVal := if b then .dict [] else .none

theorem matchVAL_answer (e : QueryEnv) (d : Doc) (b : Bool) (v : PyVal) : e.matchVAL d (answer b) v = .ok b := by
  cases b with
  | true =>
    show e.matchVAL d (.dict []) v = .ok true
    rw [matchVAL, valEntries]
  | false =>
    show e.matchVAL d .none v = .ok false
    rw [matchVAL.eq_def]
    rfl

/-- A value where an operator has something to say, and a rule it says `b` with. -/
def tipFor : Op → PyVal
  | .index i => .list (List.replicate (i + 1) .none)
  | .transform => .int 0
  | _ => .none

def ruleFor : Op → Bool → PyVal
  | .leaf, b => .bool b
  | .not, b => answer (!b)
  | .or neg, b | .and neg, b => .list (if b != neg then [.dict []] else [])
  | .any neg _, b => answer (b != neg)
  | _, b => answer b

section

variable {d : Doc} {cmd : List Char} {post : List (List Char)} {b : Bool}

/-- The operator says `b` at the tip. -/
theorem valCmd_ruleFor (hc : isCmd cmd = true) (hn : negated cmd = false) (hk : valOp (cmdName cmd) ≠ .path) :
    (probe (tipFor (valOp (cmdName cmd))) post).valCmd d cmd (ruleFor (valOp (cmdName cmd)) b)
      (tipFor (valOp (cmdName cmd))) = .ok b := by
  rw [valCmd.eq_def, if_pos hc, hn]
  cases hop : valOp (cmdName cmd) with
  | leaf => rfl
  | not =>
    simp only [ruleFor, matchVAL_answer]
    cases b <;> rfl
  | or neg =>
    cases b <;> cases neg <;>
      simp [ruleFor, loopOr, matchVAL_answer (probe _ _) d true, ← show answer true = .dict [] from rfl]
  | and neg =>
    cases b <;> cases neg <;>
      simp [ruleFor, loopAnd, matchVAL_answer (probe _ _) d true, ← show answer true = .dict [] from rfl]
  | any neg all =>
    simp only [ruleFor, tipFor, quantify, matchVAL_answer]
    cases b <;> cases neg <;> simp [answer]
  | index i => simp [ruleFor, tipFor, PyVal.seq, matchVAL_answer, tryIndex]
  | transform => simp [ruleFor, tipFor, probe, matchVAL_answer]
  | path => exact absurd hop hk

theorem okay_fields (e : QueryEnv) (all b : Bool) (v : PyVal) :
    Okay (match answer b, v with
      | .dict rs, .dict kvs => e.valFields d all rs false kvs
      | _, _ => .ok false) := by
  cases b with
  | false => exact okay_ok false
  | true =>
    cases v with
    | dict kvs =>
      refine ⟨false, ?_⟩
      show e.valFields d all [] false kvs = .ok false
      rw [valFields]
    | _ => exact okay_ok false

/-- It raises nothing elsewhere. -/
theorem okay_ruleFor {tip : PyVal} (hc : isCmd cmd = true) (hk : valOp (cmdName cmd) ≠ .path) (v : PyVal) :
    Okay ((probe tip post).valCmd d cmd (ruleFor (valOp (cmdName cmd)) b) v) := by
  rw [valCmd.eq_def, if_pos hc]
  cases hop : valOp (cmdName cmd) with
  | leaf => exact ⟨b, rfl⟩
  | not =>
    simp only [ruleFor, matchVAL_answer]
    exact okay_ok _
  | or neg =>
    cases b <;> cases neg <;>
      simp [ruleFor, loopOr, okay_ok, matchVAL_answer (probe _ _) d true, ← show answer true = .dict [] from rfl]
  | and neg =>
    cases b <;> cases neg <;>
      simp [ruleFor, loopAnd, okay_ok, matchVAL_answer (probe _ _) d true, ← show answer true = .dict [] from rfl]
  | any neg all =>
    have hf : ∀ v, Okay ((probe tip post).matchVAL d (answer (b != neg)) v) := fun v =>
      ⟨_, matchVAL_answer _ _ _ v⟩
    exact ((okay_quantify hf all v).orElse (okay_fields _ all _ v)).flip _
  | index i =>
    simp only [ruleFor, matchVAL_answer]
    split
    · exact okay_ok _
    · split
      · exact okay_ok _
      · simp [tryIndex, okay_ok]
  | transform =>
    simp only [ruleFor, matchVAL_answer]
    split
    · exact okay_ok _
    · exact okay_ok _
  | path => exact absurd hop hk

/-- An operator that has nothing to say of a rule says no, negated or not. -/
theorem valCmd_silent (hc : isCmd cmd = true) (hk : valOp (cmdName cmd) ≠ .path)
    (hrev : reverses (valOp (cmdName cmd)) = false) (v : PyVal) (hv : negated cmd = true ∨ v = .none) :
    (probe .none []).valCmd d cmd (answer true) v = .ok false := by
  rw [valCmd.eq_def, if_pos hc]
  cases hop : valOp (cmdName cmd) with
  | leaf => rfl
  | not => simp [hop, reverses] at hrev
  | or neg => rfl
  | and neg => rfl
  | any neg all => simp [hop, reverses] at hrev
  | index i =>
    rcases hv with hn | rfl
    · simp only [matchVAL_answer, hn]
      split
      · rfl
      · split <;> simp [tryIndex]
    · rfl
  | transform =>
    rcases hv with hn | rfl
    · simp only [matchVAL_answer, hn]
      split <;> rfl
    · rfl
  | path => exact absurd hop hk

end

/-! ## The paths that mean their expansions -/

/-- Whether a path says yes exactly where one of the literal paths it stands for does, whatever
the operators, the rule and the value: a dictionary, or a list if the path does not begin with
`**`. The rule is to raise nothing at the nodes that the path leads to. -/
def Unions (parts : List (List Char)) : Prop :=
  ∀ (e : QueryEnv) (d : Doc) (r v : PyVal), Globs e parts → Searched v →
    ((∃ kvs, v = .dict kvs) ∨ parts.head? ≠ some ['*', '*']) →
    (∀ q u, Expands e parts v q u → ∃ b, ending e d r parts u = .ok b) →
    (e.matchVAL d (.dict [(.str (dotted parts), r)]) v = .ok true ↔
      ∃ q u, Expands e parts v q u ∧ e.matchVAL d (pathRule q r) v = .ok true)

section

variable {tip : PyVal} {parts : List (List Char)}

theorem globs_probe {post : List (List Char)} : Globs (probe tip post) parts :=
  fun _ _ _ => .inr (.inr (by simp [probe]))

theorem searched_nest (hd : Dotted parts) (htip : PlainVal tip) :
    Searched (nest tip parts) ∧ ∃ k w, nest tip parts = .dict [(.str k, w)] ∧ TopName k ∧
      spell parts = k :: spell parts.tail := by
  have hplain := plain_nest hd.shape hd.dot htip
  have hdict : ∃ k w, nest tip parts = .dict [(.str k, w)] ∧ TopName k ∧
      spell parts = k :: spell parts.tail := by
    obtain ⟨p, ps, rfl⟩ := List.exists_cons_of_ne_nil hd.ne
    have htop := hd.top p (by simp)
    rw [nest, spell_cons, htop.not_op]
    cases hw : wild p with
    | true => exact ⟨['a'], _, rfl, ⟨by decide, by decide, by decide, by decide⟩, rfl⟩
    | false => exact ⟨p, _, rfl, htop, rfl⟩
  refine ⟨⟨hplain, ?_⟩, hdict⟩
  obtain ⟨k, w, hkw, htop, -⟩ := hdict
  intro kvs hkvs k' w' hmem
  rw [hkw] at hkvs
  cases hkvs
  have hk := List.mem_singleton.1 hmem
  cases hk
  exact htop

theorem segs_spell (hdot : ∀ part ∈ parts, '.' ∉ part) : ∀ s ∈ spell parts, '.' ∉ s ∧ wild s = false := by
  intro s hs
  obtain ⟨part, hp, rfl⟩ := List.mem_map.1 hs
  cases hw : wild part with
  | true =>
    rw [if_pos rfl]
    decide
  | false => exact ⟨hdot part hp, hw⟩

theorem getLastD_spell (hends : endsOp parts = true) : (spell parts).getLastD [] = parts.getLastD [] := by
  obtain ⟨part, hlast, hw, -, -⟩ := getLast?_of_endsOp hends
  rw [List.getLastD_eq_getLast?, List.getLastD_eq_getLast?, spell, List.getLast?_map, hlast]
  simp [hw]

/-- The literal path through the value says yes where the match at the tip does. -/
theorem matchVAL_spell {e : QueryEnv} {d : Doc} {r : PyVal} {rev : Bool} (hd : Dotted parts) (htip : PlainVal tip)
    (hlen : parts.tail ≠ [])
    (hwalk : e.walk (spell parts) (nest tip parts) false = .ok (some (tip, rev, endsOp parts)))
    (hok : Test.flip rev (if endsOp parts then e.valCmd d (unbang (parts.getLastD [])) r tip else e.matchVAL d r tip) =
      .ok true) :
    e.matchVAL d (pathRule (spell parts) r) (nest tip parts) = .ok true := by
  obtain ⟨hv, k, w, hkw, htop, hspell⟩ := searched_nest hd htip
  have hne : spell parts.tail ≠ [] := by simpa only [spell, ne_eq, List.map_eq_nil_iff] using hlen
  have hok' : Test.flip rev (if endsOp parts then e.valCmd d (unbang ((spell parts).getLastD [])) r tip
      else e.matchVAL d r tip) = .ok true := by
    cases hends : endsOp parts with
    | false => simpa [hends] using hok
    | true => simpa only [hends, if_true, getLastD_spell hends] using hok
  have hsegs := segs_spell hd.dot
  rw [hspell] at hwalk hok' hsegs ⊢
  rw [hkw] at hv hwalk ⊢
  rw [pathRule, if_neg (by simp), matchVAL_one]
  exact valCmd_walked hv htop hne hsegs hwalk hok'

theorem plain_tipFor (op : Op) : PlainVal (tipFor op) := by
  have hnone : ∀ n kvs, .dict kvs ∉ allNodesOf (List.replicate n PyVal.none) := by
    intro n kvs h
    obtain ⟨x, hx, hmem⟩ := mem_allNodesOf.1 h
    rw [List.eq_of_mem_replicate hx] at hmem
    simp [allNodes] at hmem
  intro kvs hkvs
  cases op with
  | index i =>
    rw [tipFor, allNodes, List.mem_cons] at hkvs
    rcases hkvs with h | h
    · cases h
    · exact absurd h (hnone _ _)
  | _ => simp [tipFor, allNodes] at hkvs

theorem plain_none : PlainVal .none := plain_tipFor .leaf

theorem valOp_transform : ∀ op ∈ TRANSFORM_OPS, valOp (op.map Char.toLower) = .transform := by decide

/-- An operator that is no transform stands at the end. -/
theorem getLast?_of_op {part : List Char} (hs : Shape parts) (hp : part ∈ parts) (hw : wild part = false)
    (ho : isOpPart part = true) (ht : unbang part ∉ TRANSFORM_OPS) : parts.getLast? = some part := by
  induction parts with
  | nil => cases hp
  | cons p rest ih =>
    rcases List.mem_cons.1 hp with rfl | hp
    · rw [(hs.2.2 hw ho).resolve_left ht]
      rfl
    · have hlast := ih hs.2.1 hp
      cases rest with
      | nil => cases hp
      | cons p' rest => rw [List.getLast?_cons_cons, hlast]

/-- A wildcard and an operator make two parts. -/
theorem tail_ne {w p : List Char} (hw : w ∈ parts) (hwild : wild w = true) (hp : p ∈ parts)
    (hlit : wild p = false) : parts.tail ≠ [] := by
  match parts with
  | [] => cases hw
  | [x] =>
    rw [List.mem_singleton.1 hw] at hwild
    rw [List.mem_singleton.1 hp] at hlit
    simp [hwild] at hlit
  | _ :: _ :: _ => simp

theorem dot_of_tail (hne : parts ≠ []) (h : parts.tail ≠ []) : '.' ∈ dotted parts := by
  obtain ⟨p, ps, rfl⟩ := List.exists_cons_of_ne_nil hne
  have hps : ps ≠ [] := h
  simp [dotted_cons p hps]

/-- The first transform of a path. -/
theorem exists_transform (h : ¬ NoTransform parts) :
    ∃ pre t post, parts = pre ++ t :: post ∧ wild t = false ∧ isOpPart t = true ∧ unbang t ∈ TRANSFORM_OPS ∧
      NoTransform pre := by
  let bad : List Char → Bool := fun part => !wild part && isOpPart part && unbang part ∈ TRANSFORM_OPS
  obtain ⟨t, ht⟩ : ∃ t, parts.find? bad = some t := by
    rw [← Option.isSome_iff_exists, List.find?_isSome]
    simpa [NoTransform, bad, and_assoc] using h
  obtain ⟨hbad, pre, post, hparts, hpre⟩ := List.find?_eq_some_iff_append.1 ht
  simp only [bad, Bool.and_eq_true, Bool.not_eq_true', decide_eq_true_eq] at hbad
  refine ⟨pre, t, post, hparts, hbad.1.1, hbad.1.2, hbad.2, ?_⟩
  intro part hp hw ho hmem
  have hnot := hpre part hp
  simp [bad, hw, ho, hmem] at hnot

/-! ### What the end of a path has something to say of -/

def tipOf (parts : List (List Char)) : PyVal :=
  if endsOp parts then tipFor (valOp (cmdName (parts.getLastD []))) else .none

def ruleOf (parts : List (List Char)) (b : Bool) : PyVal :=
  if endsOp parts then ruleFor (valOp (cmdName (parts.getLastD []))) b else answer b

theorem plain_tipOf : PlainVal (tipOf parts) := by
  unfold tipOf
  split
  · exact plain_tipFor _
  · exact plain_none

theorem getLastD_of_endsOp (hd : Dotted parts) (h : endsOp parts = true) :
    isOpPart (parts.getLastD []) = true ∧ valOp (cmdName (parts.getLastD [])) ≠ .path := by
  obtain ⟨part, hlast, hw, ho, ht⟩ := getLast?_of_endsOp h
  rw [List.getLastD_eq_getLast?, hlast, Option.getD_some]
  exact ⟨ho, hd.known part (List.mem_of_getLast? hlast) ho hw ht⟩

theorem ending_tipOf {post : List (List Char)} {d : Doc} {b : Bool} (hd : Dotted parts) :
    (if endsOp parts then (probe (tipOf parts) post).valCmd d (unbang (parts.getLastD [])) (ruleOf parts b) (tipOf parts)
      else (probe (tipOf parts) post).matchVAL d (ruleOf parts b) (tipOf parts)) = .ok b := by
  cases hends : endsOp parts with
  | false => simp only [ruleOf, hends, if_false, Bool.false_eq_true, matchVAL_answer]
  | true =>
    obtain ⟨ho, hk⟩ := getLastD_of_endsOp hd hends
    obtain ⟨-, hc, hname, hneg⟩ := cmdName_unbang ho
    have h := @valCmd_ruleFor d (unbang (parts.getLastD [])) post b hc hneg (hname.symm ▸ hk)
    rw [hname] at h
    simp only [tipOf, ruleOf, hends, if_true]
    exact h

theorem okay_ruleOf {post : List (List Char)} {d : Doc} {b : Bool} {tip : PyVal} (hd : Dotted parts) (u : PyVal) :
    Okay (ending (probe tip post) d (ruleOf parts b) parts u) := by
  unfold ending
  cases hends : endsOp parts with
  | false =>
    simp only [ruleOf, hends, if_false, Bool.false_eq_true, matchVAL_answer]
    exact okay_ok b
  | true =>
    obtain ⟨ho, hk⟩ := getLastD_of_endsOp hd hends
    simp only [ruleOf, hends, if_true]
    exact okay_ruleFor (cmdName_unbang ho).1 hk u

/-! ### The two failures -/

/-- What a rule in a dictionary under a path with wildcards runs. -/
theorem matchVAL_dotted {e : QueryEnv} {d : Doc} {r : PyVal} {kvs : List (PyVal × PyVal)} (hd : Dotted parts)
    (hv : PlainVal (.dict kvs)) {star : List Char} (hstar : star ∈ parts) (hwild : wild star = true)
    (hlen : parts.tail ≠ []) :
    e.matchVAL d (.dict [(.str (dotted parts), r)]) (.dict kvs) =
      e.matchPATH (e.matchVAL d r) (e.valCmd d (parts.getLastD []) r) parts (.dict kvs) := by
  rw [matchVAL_one, valCmd_dotted_path hd hv (wild_dotted.2 ⟨star, hstar, hwild⟩) (dot_of_tail hd.ne hlen)]

theorem valCmd_transform_none {e : QueryEnv} {d : Doc} {r v : PyVal} {t : List Char} (ho : isOpPart t = true)
    (ht : unbang t ∈ TRANSFORM_OPS) (hv : ∀ op, e.transform op v = none) : e.valCmd d t r v = .ok false := by
  have hc := (cmdName_unbang ho).1
  have hop : valOp (cmdName t) = .transform := by
    rw [cmdName, if_pos hc]
    exact valOp_transform _ ht
  rw [valCmd.eq_def, if_pos hc, hop]
  simp only [hv]

/-- **A transform under a wildcard** is either not passed or applied twice. -/
theorem not_unions_transform (hd : Dotted parts) (hw : ∃ part ∈ parts, wild part = true)
    (hn : ¬ NoTransform parts) : ¬ Unions parts := by
  intro hU
  obtain ⟨star, hstar, hwild⟩ := hw
  obtain ⟨pre, t, post, hparts, hwt, hot, htrans, hpre⟩ := exists_transform hn
  have hmem : t ∈ parts := by simp [hparts]
  have hlen := tail_ne hstar hwild hmem hwt
  have hmarked : Marked (probe (tipOf parts) post) (tipOf parts) parts := by
    have hpost := List.nil_append post
    have h : Marked (probe (tipOf parts) post) (tipOf parts) (t :: post) :=
      ⟨marked_of_suffix hpost, fun _ _ _ => probe_transform hpost _⟩
    have h := marked_append hpre h
    rwa [← hparts] at h
  -- the literal path says yes
  obtain ⟨rev, hwalk⟩ := walk_spell hd.shape hmarked false
  have hok := @ending_tipOf parts post ⟨.none, .none, .none⟩ (!rev) hd
  have hyes := matchVAL_spell hd plain_tipOf hlen hwalk (by
    rw [hok]
    cases rev <;> rfl)
  obtain ⟨hv, k, w, hkw, -⟩ := searched_nest hd (@plain_tipOf parts)
  have hpath := (hU _ _ _ _ globs_probe hv (.inl ⟨_, hkw⟩) fun q u _ => okay_ruleOf hd u).2
    ⟨spell parts, tipOf parts, expands_nest hd.shape hmarked fun _ => rfl, hyes⟩
  -- the path with wildcards does so only if the transform is at the end and answers about its own result
  rw [hkw] at hv hpath
  rw [matchVAL_dotted hd hv.plain hstar hwild hlen] at hpath
  have hspace : t.head? ≠ some ' ' := by
    intro h
    obtain ⟨cs, rfl⟩ : ∃ cs, t = ' ' :: cs := by
      cases t with
      | nil => cases h
      | cons c cs =>
        cases h
        exact ⟨cs, rfl⟩
    simp [isOpPart] at hot
  rw [hparts] at hpath
  obtain ⟨rfl, u, x, hx, hlast⟩ := matchPATH_transform hspace hwt hot htrans hpath
  have hends : endsOp parts = false := by simp [hparts, endsOp, hwt, hot, htrans]
  have hx : x = .none := by
    rw [← hparts, tipOf, hends] at hx
    simp only [probe] at hx
    split at hx
    · split at hx
      · cases hx
      · simpa [nest] using hx.symm
    · cases hx
  have hlastD : (pre ++ [t]).getLastD [] = t := by simp
  rw [hx, hlastD, valCmd_transform_none hot htrans fun op => rfl] at hlast
  cases hlast

/-- **A negated operator under a wildcard** is not reversed where it has nothing to say. -/
theorem not_unions_negated (hd : Dotted parts) (hw : ∃ part ∈ parts, wild part = true) (hn : NoTransform parts)
    {op : List Char} (hop : op ∈ parts) (hwo : wild op = false) (ho : isOpPart op = true) (hneg : negated op = true)
    (hrev : reverses (valOp (cmdName op)) = false) : ¬ Unions parts := by
  intro hU
  obtain ⟨star, hstar, hwild⟩ := hw
  have ht := hn op hop hwo ho
  have hlen := tail_ne hstar hwild hop hwo
  have hlast : parts.getLast? = some op := getLast?_of_op hd.shape hop hwo ho ht
  have hlastD : parts.getLastD [] = op := by rw [List.getLastD_eq_getLast?, hlast, Option.getD_some]
  have hends : endsOp parts = true := by simp [endsOp, hlast, hwo, ho, ht]
  have hk := hd.known op hop ho hwo ht
  obtain ⟨hc, hcu, hname, -⟩ := cmdName_unbang ho
  have hmarked : Marked (probe .none []) .none parts := by
    have h : Marked (probe .none []) .none [] := trivial
    have h := marked_append hn h
    rwa [List.append_nil] at h
  have hx : Expands (probe .none []) parts (nest .none parts) (spell parts) .none :=
    expands_nest hd.shape hmarked fun _ => rfl
  -- the operator says no of every node, negated or not
  have hno : ∀ u, ending (probe .none []) ⟨.none, .none, .none⟩ (answer true) parts u = .ok false := by
    intro u
    simp only [ending, hends, if_true, hlastD]
    exact valCmd_silent hc hk hrev u (.inl hneg)
  obtain ⟨hv, k, w, hkw, -⟩ := searched_nest hd plain_none
  have hwalk := walk_of_expands hx hd.shape hn hv.plain false
  have hendsNeg : endsNeg parts = true := by simp [endsNeg, hends, hlast, hneg]
  rw [hendsNeg, Bool.false_bne] at hwalk
  have hyes : (probe .none []).matchVAL ⟨.none, .none, .none⟩ (pathRule (spell parts) (answer true)) (nest .none parts) =
      .ok true := by
    refine matchVAL_spell hd plain_none hlen hwalk ?_
    rw [hends, if_pos rfl, hlastD, valCmd_silent hcu (hname.symm ▸ hk) (hname.symm ▸ hrev) _ (.inr rfl)]
    rfl
  have hpath := (hU _ _ _ _ globs_probe hv (.inl ⟨_, hkw⟩) fun q u _ => ⟨false, hno u⟩).2 ⟨_, _, hx, hyes⟩
  have hq : ∀ q u, Expands (probe .none []) parts (nest .none parts) q u →
      ∃ b, ending (probe .none []) ⟨.none, .none, .none⟩ (answer true) parts u = .ok b := fun q u _ => ⟨false, hno u⟩
  rw [hkw] at hv hpath hq
  rw [matchVAL_dotted hd hv.plain hstar hwild hlen] at hpath
  obtain ⟨q, u, -, hu⟩ := (matchPATH_iff hd.shape globs_probe hn hv.plain hq).2.1 hpath
  have hu : ending (probe .none []) ⟨.none, .none, .none⟩ (answer true) parts u = .ok true := hu
  rw [hno u] at hu
  cases hu

/-- **Which paths mean the union of their expansions**: those without wildcards, and those without
transforms whose last operator is not negated or reverses its answer. -/
theorem unions_iff (hd : Dotted parts) :
    Unions parts ↔ (∀ part ∈ parts, wild part = false) ∨ Steady parts := by
  constructor
  · intro hU
    by_contra hnot
    obtain ⟨hw, hst⟩ := not_or.1 hnot
    simp only [not_forall, Bool.not_eq_false] at hw
    obtain ⟨star, hstar, hwild⟩ := hw
    by_cases hn : NoTransform parts
    · refine hst ⟨hn, fun op hop hwo ho hneg => ?_⟩
      by_contra hrev
      exact not_unions_negated hd ⟨star, hstar, hwild⟩ hn hop hwo ho hneg (by simpa using hrev) hU
    · exact not_unions_transform hd ⟨star, hstar, hwild⟩ hn hU
  · intro hc e d r v hg hv hroot hq
    exact union_of_steady hd hc hg hv hroot hq

/-- **Wildcard paths**: nothing but a dictionary says yes to a path, and which paths mean the union
of their expansions. -/
theorem wildcard_union (hd : Dotted parts) :
    (∀ (e : QueryEnv) (d : Doc) (r v : PyVal), (∀ kvs, v ≠ .dict kvs) →
        e.matchVAL d (.dict [(.str (dotted parts), r)]) v = .ok false) ∧
      (Unions parts ↔ (∀ part ∈ parts, wild part = false) ∨ Steady parts) := by
  refine ⟨fun e d r v hv => ?_, unions_iff hd⟩
  rw [matchVAL_one]
  exact valCmd_scalar hd.topName hv

end

theorem dotted_star {part : List Char} (hspace : part.head? ≠ some ' ') (hseps : ∀ sep ∈ SEPS, sep ∉ part)
    (hop : isOpPart part = true → unbang part ∈ TRANSFORM_OPS) : Dotted [['*'], part] where
  ne := by simp
  shape := ⟨by decide, ⟨hspace, trivial, fun _ _ => .inr rfl⟩, fun hw _ => by simp [QueryEnv.wild] at hw⟩
  known := by
    intro p hp ho hw ht
    rcases List.mem_cons.1 hp with rfl | hp
    · simp [QueryEnv.wild] at hw
    · rw [List.mem_singleton.1 hp] at ho ht
      exact absurd (hop ho) ht
  seps := by
    intro p hp
    rcases List.mem_cons.1 hp with rfl | hp
    · simp [SEPS]
    · rw [List.mem_singleton.1 hp]
      exact hseps
  top := by
    intro p hp
    cases hp
    exact ⟨by decide, by decide, by decide, by decide⟩

theorem wildcard_union_star : Unions [['*'], ['b']] ∧ ¬ Unions [['*'], "$len".toList] := by
  constructor
  · refine (wildcard_union (dotted_star (by decide) (by simp [SEPS]) (by decide))).2.2 (.inr ⟨?_, ?_⟩)
    · intro p hp hw ho
      rcases List.mem_cons.1 hp with rfl | hp
      · simp [QueryEnv.wild] at hw
      · rw [List.mem_singleton.1 hp] at ho
        exact absurd ho (by decide)
    · intro p hp hw ho
      rcases List.mem_cons.1 hp with rfl | hp
      · simp [QueryEnv.wild] at hw
      · rw [List.mem_singleton.1 hp] at ho
        exact absurd ho (by decide)
  · intro hU
    rcases (wildcard_union (dotted_star (by decide) (by simp [SEPS]) (by decide))).2.1 hU with h | h
    · exact absurd (h ['*'] (by decide)) (by decide)
    · exact absurd (by decide : unbang "$len".toList ∈ TRANSFORM_OPS) (h.transform _ (by decide) (by decide) (by decide))

/-! ## The length of a string, once and twice -/

namespace Length

/-- `$len` of strings and `$eq` of numbers. -/
def lenEnv : QueryEnv where
  kind := fun _ => .other
  str := fun _ => []
  set := fun xs => .ok (.set xs)
  today := .date 1
  now := .datetime 0
  addDays := fun d _ => .ok d
  truncate := fun _ => .ok 0
  leafKEY := fun _ _ _ _ => .ok false
  leafVAL := fun op neg r _ v =>
    match r, v with
    | .int a, .int b => if op = "$eq".toList then .ok ((a = b) != neg) else .ok false
    | _, _ => .ok false
  leafDATE := fun _ _ _ _ _ => .ok false
  transform := fun op v =>
    match v with
    | .str s => if op = "$len".toList then some (.int s.length) else none
    | _ => none
  glob := fun _ => none

def doc : Doc := ⟨.str ['k'], .date 1, .date 1⟩

/-- `{'a': 'xyz'}`. -/
def val : PyVal := .dict [(.str ['a'], .str ['x', 'y', 'z'])]

/-- `{'a.$len': 3}` says yes and `{'*.$len': 3}` says no. -/
theorem star_len_fails :
    ¬ (lenEnv.matchVAL doc (.dict [(.str "*.$len".toList, .int 3)]) val = .ok true ↔
      ∃ q u, Expands lenEnv [['*'], "$len".toList] val q u ∧
        lenEnv.matchVAL doc (pathRule q (.int 3)) val = .ok true) := by
  have htop : TopName "*.$len".toList := ⟨by decide, by decide, by decide, by decide⟩
  have hlit : TopName (dotted [['a'], "$len".toList]) := ⟨by decide, by decide, by decide, by decide⟩
  intro h
  have hyes : lenEnv.matchVAL doc (pathRule [['a'], "$len".toList] (.int 3)) val = .ok true := by
    have hwalk : lenEnv.walk ((dotted [['a'], "$len".toList]).splitOn '.') val false = .ok (some (.int 3, false, false)) := by
      rw [splitOn_dotted (by simp) (by decide)]
      rfl
    rw [pathRule, if_neg (by simp), matchVAL_one, val, valCmd_lit hlit rfl (by decide),
      show sepsIn (dotted [['a'], "$len".toList]) = ['.'] by decide, tryEach, attempt, ← val, hwalk]
    simp only [Test.flip_false]
    rw [matchVAL.eq_def]
    rfl
  have hx : Expands lenEnv [['*'], "$len".toList] val [['a'], "$len".toList] (.int 3) :=
    .glob rfl (by decide) (List.mem_filter.2 ⟨mem_named_dict.2 List.mem_cons_self, rfl⟩)
      (.trans rfl rfl (by decide) rfl (.nil _))
  have hpath := h.2 ⟨_, _, hx, hyes⟩
  -- the walker for wildcards asks for the length of the length
  rw [matchVAL_one, val, valCmd_wild htop rfl (by decide) (by decide),
    show "*.$len".toList.splitOn '.' = [['*']] ++ "$len".toList :: [] by decide] at hpath
  obtain ⟨-, u, w, hw, hlast⟩ := matchPATH_transform (by decide) (by decide) (by decide) (by decide) hpath
  have hnone : ∀ op, lenEnv.transform op w = none := by
    intro op
    simp only [lenEnv] at hw
    split at hw
    · split at hw
      · cases hw
        rfl
      · cases hw
    · cases hw
  rw [show lastPart "*.$len".toList '.' = "$len".toList by decide,
    valCmd_transform_none (by decide) (by decide) hnone] at hlast
  cases hlast

end Length

end OmniJsonDb
