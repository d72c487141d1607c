import OmniJsonDb.Proof.Paths

/-!
# Paths with wildcards

A path with wildcards against the paths it stands for, each taken as a rule of its own.

* `valCmd_wild`, `valCmd_lit`: what a command that is a path runs.
* `wildcard_union`: a path says yes exactly where one of its literal paths does.
-/

namespace OmniJsonDb

open QueryEnv

/-! ## Commands -/

/-- A dotted path. -/
def dotted (q : List (List Char)) : List Char := ['.'].intercalate q

/-- A command that is taken for a path: not negated, no operator, and no `_id` or `_date`. -/
structure TopName (name : List Char) : Prop where
  neg : negated name = false
  cmd : name.head? ≠ some '$'
  id : name.take 3 ≠ "_id".toList
  date : name.take 5 ≠ "_date".toList

theorem take_append_dot {seg t w : List Char} {n : ℕ} (hw : '.' ∉ w) (h : (seg ++ '.' :: t).take n = w) :
    seg.take n = w := by
  rcases Nat.lt_or_ge seg.length n with hlt | hle
  · exfalso
    apply hw
    rw [← h, List.take_append]
    obtain ⟨k, hk⟩ : ∃ k, n - seg.length = k + 1 := ⟨n - seg.length - 1, by omega⟩
    simp [hk]
  · rw [List.take_append_of_le_length hle] at h
    exact h

theorem TopName.append_dot {seg : List Char} (h : TopName seg) (t : List Char) : TopName (seg ++ '.' :: t) where
  neg := by
    have hneg := h.neg
    cases seg with
    | nil => rfl
    | cons c cs => simpa [negated] using hneg
  cmd := by
    have hcmd := h.cmd
    cases seg with
    | nil => simp
    | cons c cs => simpa using hcmd
  id hid := h.id (take_append_dot (by decide) hid)
  date hdate := h.date (take_append_dot (by decide) hdate)

theorem topName_indexSeg (i : ℕ) : TopName (indexSeg i) := by
  have hne : indexSeg i ≠ [] := Nat.toDigits_ne_nil
  obtain ⟨c, cs, hcs⟩ := List.exists_cons_of_ne_nil hne
  have hdig : c.isDigit = true := isDigit_indexSeg (i := i) (by simp [hcs])
  have hbang : c ≠ '!' := by
    rintro rfl
    exact absurd hdig (by decide)
  have hdollar : c ≠ '$' := by
    rintro rfl
    exact absurd hdig (by decide)
  have hscore : c ≠ '_' := by
    rintro rfl
    exact absurd hdig (by decide)
  constructor
  · simp [negated, hcs, hbang]
  · simp [hcs, hdollar]
  · simp [hcs, hscore]
  · simp [hcs, hscore]

theorem TopName.name {name : List Char} (h : TopName name) : isCmd name = false ∧ cmdName name = name := by
  have hu : unbang name = name := by
    rw [unbang, h.neg]
    rfl
  have hc : isCmd name = false := by
    rw [isCmd, hu]
    simpa using h.cmd
  refine ⟨hc, ?_⟩
  rw [cmdName, if_neg (by simp [hc]), hu]

theorem TopName.not_op {name : List Char} (h : TopName name) : isOpPart name = false := by
  have hneg := h.neg
  have hcmd := h.cmd
  match name with
  | [] => rfl
  | [c] => simp_all [isOpPart, negated]
  | a :: b :: cs => simp_all [isOpPart, negated]

section

variable {e : QueryEnv} {d : Doc} {name : List Char} {r v : PyVal}

theorem valCmd_field (h : TopName name) {w : PyVal} (hf : field? name v = some w) :
    e.valCmd d name r v = e.matchVAL d r w := by
  have hf : field? (cmdName name) v = some w := h.name.2.symm ▸ hf
  rw [valCmd.eq_def, if_neg (by simp [h.name.1]), hf, h.neg]
  exact Test.flip_false _

theorem valCmd_scalar (h : TopName name) (hv : ∀ kvs, v ≠ .dict kvs) : e.valCmd d name r v = .ok false := by
  have hf : field? (cmdName name) v = none := by
    cases v with
    | dict kvs => exact absurd rfl (hv kvs)
    | _ => rfl
  have hid : ¬ (cmdName name).take 3 = "_id".toList := h.name.2.symm ▸ h.id
  have hdate : ¬ (cmdName name).take 5 = "_date".toList := h.name.2.symm ▸ h.date
  rw [valCmd.eq_def, if_neg (by simp [h.name.1]), hf]
  dsimp only
  rw [if_neg hid, if_neg hdate]
  cases v with
  | dict kvs => exact absurd rfl (hv kvs)
  | _ => rfl

/-- Attempts at the members, with the proofs that they are. -/
theorem tryEach_attach {α : Type} (run : α → Test PyErr) (xs : List α) :
    tryEach (fun x : { x // x ∈ xs } => run x.1) xs.attach = tryEach run xs := by
  have hmap : ∀ ys : List { x // x ∈ xs }, tryEach (fun x => run x.1) ys = tryEach run (ys.map Subtype.val) := by
    intro ys
    induction ys with
    | nil => rfl
    | cons y ys ih => simp only [tryEach, List.map_cons, ih]
  rw [hmap, List.attach_map_subtype_val]

theorem attach_head {l : List Char} {c : Char} {cs : List Char} (h : l = c :: cs) :
    ∃ hc rest, l.attach = ⟨c, hc⟩ :: rest := by
  subst h
  exact ⟨List.mem_cons_self, _, List.attach_cons⟩

theorem sepsIn_dot (h : '.' ∈ name) : ∃ rest, sepsIn name = '.' :: rest := by
  simp [sepsIn, SEPS, List.filter_cons, h]

/-- A path with wildcards, split at the first separator. -/
theorem valCmd_wild_sep (h : TopName name) {kvs : List (PyVal × PyVal)} (hf : field? name (.dict kvs) = none)
    (hw : wild name = true) {sep : Char} {seps : List Char} (hsep : sepsIn name = sep :: seps) :
    e.valCmd d name r (.dict kvs) =
      e.matchPATH (e.matchVAL d r) (e.valCmd d (lastPart name sep) r) (name.splitOn sep) (.dict kvs) := by
  have hsep : sepsIn (cmdName name) = sep :: seps := h.name.2.symm ▸ hsep
  obtain ⟨hc, rest', hatt⟩ := attach_head hsep
  have hid : ¬ (cmdName name).take 3 = "_id".toList := h.name.2.symm ▸ h.id
  have hdate : ¬ (cmdName name).take 5 = "_date".toList := h.name.2.symm ▸ h.date
  have hf : field? (cmdName name) (.dict kvs) = none := h.name.2.symm ▸ hf
  have hw : wild (cmdName name) = true := h.name.2.symm ▸ hw
  rw [valCmd.eq_def, if_neg (by simp [h.name.1]), hf]
  dsimp only
  rw [if_neg hid, if_neg hdate, if_pos hw, hatt, h.neg]
  dsimp only
  rw [Test.flip_false, h.name.2]

theorem valCmd_wild (h : TopName name) {kvs : List (PyVal × PyVal)} (hf : field? name (.dict kvs) = none)
    (hw : wild name = true) (hdot : '.' ∈ name) :
    e.valCmd d name r (.dict kvs) =
      e.matchPATH (e.matchVAL d r) (e.valCmd d (lastPart name '.') r) (name.splitOn '.') (.dict kvs) := by
  obtain ⟨seps, hsep⟩ := sepsIn_dot hdot
  exact valCmd_wild_sep h hf hw hsep

/-- A path of one wildcard. -/
theorem valCmd_wild_one (h : TopName name) {kvs : List (PyVal × PyVal)} (hf : field? name (.dict kvs) = none)
    (hw : wild name = true) (hsep : sepsIn name = []) :
    e.valCmd d name r (.dict kvs) =
      e.matchPATH (e.matchVAL d r) (fun _ => .ok false) [name] (.dict kvs) := by
  have hatt : (sepsIn (cmdName name)).attach = [] := List.attach_eq_nil_iff.2 (h.name.2.symm ▸ hsep)
  have hid : ¬ (cmdName name).take 3 = "_id".toList := h.name.2.symm ▸ h.id
  have hdate : ¬ (cmdName name).take 5 = "_date".toList := h.name.2.symm ▸ h.date
  have hf : field? (cmdName name) (.dict kvs) = none := h.name.2.symm ▸ hf
  have hw : wild (cmdName name) = true := h.name.2.symm ▸ hw
  rw [valCmd.eq_def, if_neg (by simp [h.name.1]), hf]
  dsimp only
  rw [if_neg hid, if_neg hdate, if_pos hw, hatt, h.neg]
  dsimp only
  rw [Test.flip_false, h.name.2]

/-- The attempt at a path without wildcards. -/
def attempt (e : QueryEnv) (d : Doc) (r v : PyVal) (name : List Char) (sep : Char) : Test PyErr :=
  match e.walk (name.splitOn sep) v false with
  | .error x => .error x
  | .ok none => .ok false
  | .ok (some (val, rev, true)) => Test.flip rev (e.valCmd d (unbang (lastPart name sep)) r val)
  | .ok (some (val, rev, false)) => Test.flip rev (e.matchVAL d r val)

/-- A path without wildcards. -/
theorem valCmd_lit (h : TopName name) {kvs : List (PyVal × PyVal)} (hf : field? name (.dict kvs) = none)
    (hw : wild name = false) :
    e.valCmd d name r (.dict kvs) = tryEach (attempt e d r (.dict kvs) name) (sepsIn name) := by
  have hid : ¬ (cmdName name).take 3 = "_id".toList := h.name.2.symm ▸ h.id
  have hdate : ¬ (cmdName name).take 5 = "_date".toList := h.name.2.symm ▸ h.date
  have hf : field? (cmdName name) (.dict kvs) = none := h.name.2.symm ▸ hf
  have hw : ¬ wild (cmdName name) = true := by
    rw [h.name.2, hw]
    exact Bool.false_ne_true
  rw [valCmd.eq_def, if_neg (by simp [h.name.1]), hf]
  dsimp only
  rw [if_neg hid, if_neg hdate, if_neg hw, h.neg]
  calc _ = tryEach (fun x : { x // x ∈ sepsIn (cmdName name) } => attempt e d r (.dict kvs) (cmdName name) x.1)
          (sepsIn (cmdName name)).attach := rfl
    _ = tryEach (attempt e d r (.dict kvs) name) (sepsIn name) := by rw [tryEach_attach, h.name.2]

/-- A dictionary of one rule. -/
theorem matchVAL_one : e.matchVAL d (.dict [(.str name, r)]) v = e.valCmd d name r v := by
  rw [matchVAL, valEntries, valEntries, Test.andThen_true_right]

end

/-! ## Dotted paths -/

theorem dotted_cons (seg : List Char) {qs : List (List Char)} (h : qs ≠ []) :
    dotted (seg :: qs) = seg ++ '.' :: dotted qs := by
  obtain ⟨p, ps, rfl⟩ := List.exists_cons_of_ne_nil h
  simp [dotted, List.intercalate, List.intersperse]

theorem dotted_one (seg : List Char) : dotted [seg] = seg := by
  simp [dotted, List.intercalate]

theorem mem_dotted {q : List (List Char)} {c : Char} (hc : c ≠ '.') : c ∈ dotted q ↔ ∃ seg ∈ q, c ∈ seg := by
  induction q with
  | nil => simp [dotted, List.intercalate]
  | cons seg qs ih =>
    cases qs with
    | nil => simp [dotted_one]
    | cons p ps =>
      rw [dotted_cons seg (by simp), List.mem_append, List.mem_cons, ih]
      simp [hc]

theorem wild_dotted {q : List (List Char)} : wild (dotted q) = true ↔ ∃ seg ∈ q, wild seg = true := by
  simp only [wild, Bool.or_eq_true, decide_eq_true_eq, mem_dotted (by decide : '*' ≠ '.'),
    mem_dotted (by decide : '?' ≠ '.')]
  constructor
  · rintro (⟨seg, hs, hc⟩ | ⟨seg, hs, hc⟩)
    · exact ⟨seg, hs, .inl hc⟩
    · exact ⟨seg, hs, .inr hc⟩
  · rintro ⟨seg, hs, hc | hc⟩
    · exact .inl ⟨seg, hs, hc⟩
    · exact .inr ⟨seg, hs, hc⟩

theorem splitOn_dotted {q : List (List Char)} (hne : q ≠ []) (h : ∀ seg ∈ q, '.' ∉ seg) :
    (dotted q).splitOn '.' = q := by
  rw [dotted]
  exact List.splitOn_intercalate '.' h hne

/-- The dotted paths: their first part is no command of another kind, and an operator at the end
is one of those there are. -/
structure Dotted (parts : List (List Char)) : Prop where
  ne : parts ≠ []
  shape : Shape parts
  known : ∀ part ∈ parts, isOpPart part = true → wild part = false → unbang part ∉ TRANSFORM_OPS →
    valOp (cmdName part) ≠ .path
  seps : ∀ part ∈ parts, ∀ sep ∈ SEPS, sep ∉ part
  top : ∀ part ∈ parts.head?, TopName part

/-- The operators whose negation reverses the answer, whatever the rule and the value. -/
def reverses : Op → Bool
  | .not | .any _ _ => true
  | _ => false

/-- The paths with wildcards that mean what they stand for: no transforms, and at the end no
negated operator but one that reverses the answer. -/
structure Steady (parts : List (List Char)) : Prop where
  transform : NoTransform parts
  neg : ∀ part ∈ parts, wild part = false → isOpPart part = true → negated part = true →
    reverses (valOp (cmdName part)) = true

/-- The values whose nodes a path can name. -/
structure Searched (v : PyVal) : Prop where
  plain : PlainVal v
  top : ∀ kvs, v = .dict kvs → ∀ k w, (.str k, w) ∈ kvs → TopName k

/-- The match at the end of a path. -/
def ending (e : QueryEnv) (d : Doc) (r : PyVal) (parts : List (List Char)) : PyVal → Test PyErr :=
  if endsOp parts then e.valCmd d (parts.getLastD []) r else e.matchVAL d r

/-- A rule under a literal path; the path of no segments is the value itself. -/
def pathRule (q : List (List Char)) (r : PyVal) : PyVal := if q = [] then r else .dict [(.str (dotted q), r)]

theorem Dotted.dot {parts : List (List Char)} (h : Dotted parts) : ∀ part ∈ parts, '.' ∉ part :=
  fun part hp => h.seps part hp '.' (by decide)

theorem Dotted.topName {parts : List (List Char)} (h : Dotted parts) : TopName (dotted parts) := by
  obtain ⟨p, ps, rfl⟩ := List.exists_cons_of_ne_nil h.ne
  have htop := h.top p (by simp)
  by_cases hps : ps = []
  · rw [hps, dotted_one]
    exact htop
  · rw [dotted_cons p hps]
    exact htop.append_dot _

/-- No other separator is tried on a dotted path. -/
theorem Dotted.sepsIn {parts : List (List Char)} (h : Dotted parts) :
    sepsIn (dotted parts) = if '.' ∈ dotted parts then ['.'] else [] := by
  have hnone : ∀ sep ∈ SEPS, sep ≠ '.' → sep ∉ dotted parts := by
    intro sep hsep hne hmem
    obtain ⟨part, hp, hc⟩ := (mem_dotted hne).1 hmem
    exact h.seps part hp sep hsep hc
  have h1 := hnone '/' (by decide) (by decide)
  have h2 := hnone '|' (by decide) (by decide)
  have h3 := hnone '\\' (by decide) (by decide)
  simp [QueryEnv.sepsIn, SEPS, List.filter_cons, h1, h2, h3]

/-- A path of several parts is no key of a plain dictionary, nor is one with wildcards. -/
theorem field?_dotted {kvs : List (PyVal × PyVal)} {name : List Char} (hv : PlainVal (.dict kvs))
    (h : '.' ∈ name ∨ wild name = true) : field? name (.dict kvs) = none := by
  rw [field?]
  by_contra hf
  obtain ⟨w, hw⟩ := Option.ne_none_iff_exists'.1 hf
  obtain ⟨k, hk, hplain⟩ := (hv kvs (mem_allNodes_self _)).2 _ (mem_of_lookup hw)
  cases hk
  rcases h with h | h
  · exact hplain.dot h
  · simp [hplain.wild] at h

/-- An operator and what is left of it without its negation are one command. -/
theorem cmdName_unbang {part : List Char} (ho : isOpPart part = true) :
    isCmd part = true ∧ isCmd (unbang part) = true ∧ cmdName (unbang part) = cmdName part ∧
      negated (unbang part) = false := by
  obtain ⟨cs, rfl | rfl⟩ : ∃ cs, part = '$' :: cs ∨ part = '!' :: '$' :: cs := by
    match part with
    | [] => simp [isOpPart] at ho
    | [c] => simp_all [isOpPart]
    | a :: b :: cs =>
      simp only [isOpPart, List.head?_cons, Option.some.injEq, List.take_succ_cons, List.take_zero,
        Bool.or_eq_true, decide_eq_true_eq, List.cons.injEq, and_true] at ho
      rcases ho with rfl | ⟨rfl, rfl⟩
      · exact ⟨b :: cs, .inl rfl⟩
      · exact ⟨cs, .inr rfl⟩
  · simp [isCmd, cmdName, unbang, negated]
  · simp [isCmd, cmdName, unbang, negated]

section

variable {e : QueryEnv} {d : Doc} {r v : PyVal} {parts q : List (List Char)} {u : PyVal}

/-- What the operators that reverse their answer have in common: the negation comes last. -/
theorem valCmd_reverses {cmd : List Char} (hc : isCmd cmd = true) (hrev : reverses (valOp (cmdName cmd)) = true) :
    e.valCmd d cmd r u = Test.flip (negated cmd)
      (match valOp (cmdName cmd) with
      | .any neg all => Test.flip neg (Test.orElse (quantify all (e.matchVAL d r) u)
          (match r, u with
          | .dict rs, .dict kvs => e.valFields d all rs false kvs
          | _, _ => .ok false))
      | _ => Test.flip true (e.matchVAL d r u)) := by
  rw [valCmd.eq_def, if_pos hc]
  split
  · rename_i hop
    simp [hop, reverses] at hrev
  · rename_i hop
    simp only [hop]
  · rename_i hop
    simp [hop, reverses] at hrev
  · rename_i hop
    simp [hop, reverses] at hrev
  · rename_i neg all hop
    simp only [hop]
    exact ((Test.flip_flip _ _ _).trans (congrArg (fun b => Test.flip b _) bne_comm)).symm
  · rename_i hop
    simp [hop, reverses] at hrev
  · rename_i hop
    simp [hop, reverses] at hrev
  · rename_i hop
    simp [hop, reverses] at hrev

/-- The negation of such an operator is taken off by the walker for literal paths only. -/
theorem valCmd_unbang {part : List Char} (ho : isOpPart part = true)
    (hrev : negated part = true → reverses (valOp (cmdName part)) = true) :
    e.valCmd d part r u = Test.flip (negated part) (e.valCmd d (unbang part) r u) := by
  cases hn : negated part with
  | false => rw [unbang, hn, if_neg (by simp), Test.flip_false]
  | true =>
    obtain ⟨hc, hcu, hname, hnu⟩ := cmdName_unbang ho
    have hrev := hrev hn
    rw [valCmd_reverses hc hrev, valCmd_reverses hcu (hname.symm ▸ hrev), hname, hnu, hn, Test.flip_false]

/-- The last part of a path that ends with an operator. -/
theorem getLast?_of_endsOp (h : endsOp parts = true) :
    ∃ part, parts.getLast? = some part ∧ wild part = false ∧ isOpPart part = true ∧ unbang part ∉ TRANSFORM_OPS := by
  unfold endsOp at h
  split at h
  · rename_i part hlast
    simp only [Bool.and_eq_true, Bool.not_eq_true', decide_eq_true_eq] at h
    exact ⟨part, hlast, h.1.1, h.1.2, h.2⟩
  · cases h

/-- What the walker for literal paths runs at the end is the match at the end of the path. -/
theorem ending_eq (hst : Steady parts) (hlast : endsOp parts = true → q.getLast? = parts.getLast?) :
    Test.flip (endsNeg parts) (if endsOp parts then e.valCmd d (unbang (q.getLastD [])) r u else e.matchVAL d r u) =
      ending e d r parts u := by
  unfold ending endsNeg
  cases hends : endsOp parts with
  | false => exact Test.flip_false _
  | true =>
    obtain ⟨part, hpart, hw, ho, -⟩ := getLast?_of_endsOp hends
    have hq : q.getLastD [] = part := by rw [List.getLastD_eq_getLast?, hlast hends, hpart, Option.getD_some]
    have hp : parts.getLastD [] = part := by rw [List.getLastD_eq_getLast?, hpart, Option.getD_some]
    simp only [if_true, hq, hp, hpart, Option.any_some, Bool.true_and]
    exact (valCmd_unbang ho (hst.neg part (List.mem_of_getLast? hpart) hw ho)).symm

/-- A literal path of several segments runs the match at the node it leads to. -/
theorem valCmd_walked {kvs : List (PyVal × PyVal)} {seg : List Char} {qs : List (List Char)} {rev flag b : Bool}
    (hv : Searched (.dict kvs)) (htop : TopName seg) (hqs : qs ≠ [])
    (hsegs : ∀ s ∈ seg :: qs, '.' ∉ s ∧ wild s = false)
    (hwalk : e.walk (seg :: qs) (.dict kvs) false = .ok (some (u, rev, flag)))
    (hok : Test.flip rev (if flag then e.valCmd d (unbang ((seg :: qs).getLastD [])) r u else e.matchVAL d r u) = .ok b) :
    e.valCmd d (dotted (seg :: qs)) r (.dict kvs) = .ok b := by
  have hdot : '.' ∈ dotted (seg :: qs) := by simp [dotted_cons seg hqs]
  have hwild : wild (dotted (seg :: qs)) = false := by
    by_contra hw
    obtain ⟨s, hs, hsw⟩ := wild_dotted.1 (Bool.not_eq_false _ ▸ hw)
    simp [(hsegs s hs).2] at hsw
  obtain ⟨rest, hsep⟩ := sepsIn_dot hdot
  have htop' : TopName (dotted (seg :: qs)) := by
    rw [dotted_cons seg hqs]
    exact htop.append_dot _
  have hatt : attempt e d r (.dict kvs) (dotted (seg :: qs)) '.' = .ok b := by
    unfold attempt lastPart
    rw [splitOn_dotted (by simp) fun s hs => (hsegs s hs).1, hwalk, ← hok]
    cases flag <;> simp
  rw [valCmd_lit htop' (field?_dotted hv.plain (.inl hdot)) hwild, hsep, tryEach, hatt]

/-- A literal path that a path stands for, taken as a rule of its own, asks the node it leads to. -/
theorem valCmd_expanded {kvs : List (PyVal × PyVal)} (hd : Dotted parts) (hst : Steady parts)
    (hv : Searched (.dict kvs)) (hx : Expands e parts (.dict kvs) q u) (hq : q ≠ [])
    (hok : ∃ b, ending e d r parts u = .ok b) :
    e.valCmd d (dotted q) r (.dict kvs) = ending e d r parts u := by
  have hwalk := walk_of_expands hx hd.shape hst.transform hv.plain false
  have hlast := last_of_expands hx hst.transform
  have hsegs := segs_of_expands hx hd.dot hst.transform hv.plain
  have hend := ending_eq (e := e) (d := d) (r := r) (u := u) hst hlast
  rcases first_of_expands hx hst.transform hv.plain with ⟨hnil, -⟩ | ⟨op, rfl, ho, hends, rfl⟩ | ⟨seg, qs, w, rfl, hc, ho⟩
  · exact absurd hnil hq
  · -- the operator alone
    have hp : parts.getLastD [] = op := by
      rw [List.getLastD_eq_getLast?, ← hlast hends]
      rfl
    rw [dotted_one, ending, hends, if_pos rfl, hp]
  · have hlook : PyVal.lookup kvs seg = some w := by
      simp only [child] at hc
      split at hc
      · rename_i w' hw'
        cases hc
        exact hw'
      · cases hc
    have htop : TopName seg := hv.top kvs rfl seg w (mem_of_lookup hlook)
    by_cases hqs : qs = []
    · -- a key of the value itself
      subst hqs
      rw [walk, if_neg (by simp [ho])] at hwalk
      have hspace : seg.head? ≠ some ' ' := by
        obtain ⟨k, hk, hplain⟩ := (hv.plain kvs (mem_allNodes_self _)).2 _ (mem_of_lookup hlook)
        cases hk
        exact hplain.space
      rw [stripPart_eq hspace, hc] at hwalk
      simp only [walk, Except.ok.injEq, Option.some.injEq, Prod.mk.injEq] at hwalk
      obtain ⟨rfl, hneg, hends⟩ := hwalk
      have hfield : field? seg (.dict kvs) = some w := hlook
      rw [dotted_one, valCmd_field htop hfield, ending, ← hends, if_neg (by simp)]
    · obtain ⟨b, hb⟩ := hok
      rw [hb]
      rw [Bool.false_bne] at hwalk
      exact valCmd_walked hv htop hqs hsegs hwalk (hend.trans hb)

theorem matchVAL_pathRule {kvs : List (PyVal × PyVal)} (hd : Dotted parts) (hst : Steady parts)
    (hv : Searched (.dict kvs)) (hx : Expands e parts (.dict kvs) q u)
    (hok : ∃ b, ending e d r parts u = .ok b) :
    e.matchVAL d (pathRule q r) (.dict kvs) = ending e d r parts u := by
  unfold pathRule
  by_cases hq : q = []
  · -- the value itself, which `**` stands for too
    subst hq
    have hwalk := walk_of_expands hx hd.shape hst.transform hv.plain false
    simp only [walk, Except.ok.injEq, Option.some.injEq, Prod.mk.injEq] at hwalk
    obtain ⟨rfl, -, hends⟩ := hwalk
    rw [if_pos rfl, ending, ← hends, if_neg (by simp)]
  · rw [if_neg hq, matchVAL_one, valCmd_expanded hd hst hv hx hq hok]

theorem getLastD_splitOn_dotted (hd : Dotted parts) : lastPart (dotted parts) '.' = parts.getLastD [] := by
  rw [lastPart, splitOn_dotted hd.ne hd.dot]

theorem eq_one_of_dotted (hne : parts ≠ []) (h : '.' ∉ dotted parts) : ∃ p, parts = [p] := by
  obtain ⟨p, ps, rfl⟩ := List.exists_cons_of_ne_nil hne
  by_cases hps : ps = []
  · exact ⟨p, by rw [hps]⟩
  · exact absurd (by simp [dotted_cons p hps]) h

/-- A path of several parts with wildcards runs the walker for them. -/
theorem valCmd_dotted_path {kvs : List (PyVal × PyVal)} (hd : Dotted parts) (hv : PlainVal (.dict kvs))
    (hw : wild (dotted parts) = true) (hdot : '.' ∈ dotted parts) :
    e.valCmd d (dotted parts) r (.dict kvs) =
      e.matchPATH (e.matchVAL d r) (e.valCmd d (parts.getLastD []) r) parts (.dict kvs) := by
  rw [valCmd_wild hd.topName (field?_dotted hv (.inr hw)) hw hdot, splitOn_dotted hd.ne hd.dot,
    getLastD_splitOn_dotted hd]

/-- A path with wildcards, in a dictionary. -/
theorem valCmd_dotted_wild {kvs : List (PyVal × PyVal)} (hd : Dotted parts) (hst : Steady parts)
    (hg : Globs e parts) (hv : Searched (.dict kvs)) (hw : ∃ part ∈ parts, wild part = true)
    (hq : ∀ q u, Expands e parts (.dict kvs) q u → ∃ b, ending e d r parts u = .ok b) :
    e.valCmd d (dotted parts) r (.dict kvs) = .ok true ↔
      ∃ q u, Expands e parts (.dict kvs) q u ∧ ending e d r parts u = .ok true := by
  have hwild : wild (dotted parts) = true := wild_dotted.2 hw
  have hfield := field?_dotted hv.plain (.inr hwild)
  by_cases hdot : '.' ∈ dotted parts
  · rw [valCmd_dotted_path hd hv.plain hwild hdot]
    exact (matchPATH_iff hd.shape hg hst.transform hv.plain hq).2
  · obtain ⟨p, rfl⟩ := eq_one_of_dotted hd.ne hdot
    obtain ⟨part, hp, hwp⟩ := hw
    rw [List.mem_singleton.1 hp] at hwp
    have hends : endsOp [p] = false := by simp [endsOp, hwp]
    have hsep : sepsIn (dotted [p]) = [] := by rw [hd.sepsIn, if_neg hdot]
    rw [valCmd_wild_one hd.topName hfield hwild hsep, dotted_one]
    have hiff := @matchPATH_iff e (e.matchVAL d r) (fun _ => .ok false) [p] (.dict kvs) hd.shape hg hst.transform
      hv.plain
    simp only [ending, hends] at hq hiff ⊢
    exact (hiff hq).2

/-- A path without wildcards that says yes leads to a node. -/
theorem expands_of_valCmd {kvs : List (PyVal × PyVal)} (hd : Dotted parts) (hv : Searched (.dict kvs))
    (hw : ∀ part ∈ parts, wild part = false) (h : e.valCmd d (dotted parts) r (.dict kvs) = .ok true) :
    ∃ u, Expands e parts (.dict kvs) parts u := by
  have hwild : wild (dotted parts) = false := by
    by_contra hwild
    obtain ⟨part, hp, hwp⟩ := wild_dotted.1 (Bool.not_eq_false _ ▸ hwild)
    simp [hw part hp] at hwp
  by_cases hdot : '.' ∈ dotted parts
  · rw [valCmd_lit hd.topName (field?_dotted hv.plain (.inl hdot)) hwild, hd.sepsIn, if_pos hdot, tryEach] at h
    unfold attempt at h
    rw [splitOn_dotted hd.ne hd.dot] at h
    rcases hwalk : e.walk parts (.dict kvs) false with x | _ | ⟨u, rev, flag⟩
    · simp only [hwalk, tryEach] at h
      split at h <;> cases h
    · simp [hwalk] at h
    · exact ⟨u, expands_of_walk hd.shape hw hwalk⟩
  · obtain ⟨p, rfl⟩ := eq_one_of_dotted hd.ne hdot
    have htop := hd.topName
    rw [dotted_one] at h htop hdot hwild
    have ho := htop.not_op
    cases hf : field? p (.dict kvs) with
    | some w =>
      have hc : child p (.dict kvs) = .ok (some w) := by
        have hf : PyVal.lookup kvs p = some w := hf
        simp [child, hf]
      exact ⟨w, .lit hwild ho hc (.nil w)⟩
    | none =>
      have hsep : sepsIn p = [] := by
        have := hd.sepsIn
        rwa [dotted_one, if_neg hdot] at this
      rw [valCmd_lit htop hf hwild, hsep] at h
      cases h

/-- Nothing but a dictionary has fields that a command names. -/
theorem not_matchVAL_pathRule (hd : Dotted parts) (hv : PlainVal v) (hroot : parts.head? ≠ some ['*', '*'])
    (hdict : ∀ kvs, v ≠ .dict kvs) (hx : Expands e parts v q u) :
    e.matchVAL d (pathRule q r) v ≠ .ok true := by
  have hfirst : ∃ seg qs, q = seg :: qs ∧ TopName seg := by
    obtain ⟨p, ps, rfl⟩ := List.exists_cons_of_ne_nil hd.ne
    have htop := hd.top p (by simp)
    have hdeep : p ≠ ['*', '*'] := fun h => hroot (by rw [h]; rfl)
    cases hw : wild p with
    | true =>
      obtain ⟨x, hmem, qs, rfl, -⟩ := (expands_glob hw hdeep).1 hx
      refine ⟨x.1, qs, rfl, ?_⟩
      have hnamed := named_of_globbed hmem
      cases v with
      | list xs =>
        obtain ⟨i, -, hi⟩ := (mem_namedSeq.1 hnamed : ∃ i, xs[i]? = some x.2 ∧ x.1 = indexSeg i)
        exact hi ▸ topName_indexSeg i
      | tuple xs =>
        obtain ⟨i, -, hi⟩ := (mem_namedSeq.1 hnamed : ∃ i, xs[i]? = some x.2 ∧ x.1 = indexSeg i)
        exact hi ▸ topName_indexSeg i
      | dict kvs => exact absurd rfl (hdict kvs)
      | _ => cases hnamed
    | false =>
      cases hx with
      | op _ _ _ => exact ⟨_, _, rfl, htop⟩
      | trans _ _ _ _ _ => exact ⟨_, _, rfl, htop⟩
      | lit _ _ _ _ => exact ⟨_, _, rfl, htop⟩
      | glob hw' _ _ _ => simp [hw] at hw'
      | deep _ _ => exact absurd rfl hdeep
  obtain ⟨seg, qs, rfl, htop⟩ := hfirst
  have htop' : TopName (dotted (seg :: qs)) := by
    by_cases hqs : qs = []
    · rwa [hqs, dotted_one]
    · rw [dotted_cons seg hqs]
      exact htop.append_dot _
  rw [pathRule, if_neg (by simp), matchVAL_one, valCmd_scalar htop' hdict]
  simp

/-- **A path means the union of its expansions** where it has no wildcards, or neither transforms
nor at its end an operator whose negation does more than reverse the answer. -/
theorem union_of_steady (hd : Dotted parts) (hc : (∀ part ∈ parts, wild part = false) ∨ Steady parts)
    (hg : Globs e parts) (hv : Searched v) (hroot : (∃ kvs, v = .dict kvs) ∨ parts.head? ≠ some ['*', '*'])
    (hq : ∀ q u, Expands e parts v q u → ∃ b, ending e d r parts u = .ok b) :
    e.matchVAL d (.dict [(.str (dotted parts), r)]) v = .ok true ↔
      ∃ q u, Expands e parts v q u ∧ e.matchVAL d (pathRule q r) v = .ok true := by
  rw [matchVAL_one]
  by_cases hdict : ∃ kvs, v = .dict kvs
  · obtain ⟨kvs, rfl⟩ := hdict
    by_cases hw : ∀ part ∈ parts, wild part = false
    · have hself : e.matchVAL d (pathRule parts r) (.dict kvs) = e.valCmd d (dotted parts) r (.dict kvs) := by
        rw [pathRule, if_neg hd.ne, matchVAL_one]
      constructor
      · intro h
        obtain ⟨u, hx⟩ := expands_of_valCmd hd hv hw h
        exact ⟨parts, u, hx, hself.trans h⟩
      · rintro ⟨q, u, hx, h⟩
        obtain rfl := eq_of_expands hx hw
        exact hself.symm.trans h
    · have hst := hc.resolve_left hw
      simp only [not_forall, Bool.not_eq_false] at hw
      obtain ⟨part, hp, hwp⟩ := hw
      rw [valCmd_dotted_wild hd hst hg hv ⟨part, hp, hwp⟩ hq]
      constructor
      · rintro ⟨q, u, hx, h⟩
        exact ⟨q, u, hx, (matchVAL_pathRule hd hst hv hx (hq q u hx)).trans h⟩
      · rintro ⟨q, u, hx, h⟩
        exact ⟨q, u, hx, (matchVAL_pathRule hd hst hv hx (hq q u hx)).symm.trans h⟩
  · have hnot : ∀ kvs, v ≠ .dict kvs := fun kvs h => hdict ⟨kvs, h⟩
    rw [valCmd_scalar hd.topName hnot]
    constructor
    · intro h
      simp at h
    · rintro ⟨q, u, hx, h⟩
      exact absurd h (not_matchVAL_pathRule hd hv.plain (hroot.resolve_left hdict) hnot hx)

end

end OmniJsonDb
