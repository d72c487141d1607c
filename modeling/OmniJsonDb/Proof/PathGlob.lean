import OmniJsonDb.Model.PathGlob
import OmniJsonDb.Proof.Conditions
import OmniJsonDb.Proof.Wildcards

/-!
# Globs and regular expressions

A glob is split into its letters with the number of stars behind each. The expression it becomes is
read letter by letter: a run of stars beside a word character is `.*`, any other stays and repeats
the letter in front of it. In the first case the items of the two agree on every letter but a
newline; in the second the expression has a shorter match than the glob.

* `Touching`: every run of stars is at the start or beside a word character.
* `SelectsGlob`: a segment asks about the children under the keys of the glob.
* `segment_iff`: it does just when the runs are so; and a path that is no command, no `_id` and no `_date`
  begins with its first segment.
-/

namespace OmniJsonDb

open Glob QueryEnv

/-! ## Globs -/

/-- `?` is one character, `*` any run of characters, every other character itself. -/
def globItem (c : Char) : Glob.Item Char :=
  if c = '*' then many else if c = '?' then ⟨fun _ => true, false⟩ else ⟨fun d => d = c, false⟩

/-- The key matches the glob. -/
def globMatches (pattern key : List Char) : Bool := accept List.isEmpty (pattern.map globItem) key

/-- The stars at the start, and the letters with the stars behind them. -/
def splitRuns : List Char → ℕ × List (Char × ℕ)
  | [] => (0, [])
  | c :: s => if c = '*' then ((splitRuns s).1 + 1, (splitRuns s).2) else (0, (c, (splitRuns s).1) :: (splitRuns s).2)

theorem ne_star_of_mem {s : List Char} : ∀ b ∈ (splitRuns s).2, b.1 ≠ '*' ∧ b.1 ∈ s := by
  induction s with
  | nil => exact fun b hb => absurd hb List.not_mem_nil
  | cons c s ih =>
    intro b hb
    rw [splitRuns] at hb
    split at hb
    · exact ⟨(ih b hb).1, List.mem_cons_of_mem _ (ih b hb).2⟩
    · rename_i hc
      rcases List.mem_cons.1 hb with rfl | hb
      · exact ⟨hc, List.mem_cons_self⟩
      · exact ⟨(ih b hb).1, List.mem_cons_of_mem _ (ih b hb).2⟩

/-- The items of a glob, where a run of stars is one. -/
def runItems (n : ℕ) : List (Glob.Item Char) := if n = 0 then [] else [many]

def blockItems (bs : List (Char × ℕ)) : List (Glob.Item Char) := bs.flatMap fun b => globItem b.1 :: runItems b.2

theorem accept_runItems (atEnd : List Char → Bool) (n : ℕ) {is js : List (Glob.Item Char)}
    (h : accept atEnd is = accept atEnd js) :
    accept atEnd (List.replicate n many ++ is) = accept atEnd (runItems n ++ js) := by
  funext s
  cases n with
  | zero => exact congrFun h s
  | succ n =>
    rw [accept_many, runItems, if_neg (Nat.succ_ne_zero n), List.singleton_append, accept, accept, h]

theorem accept_cons_congr (atEnd : List Char → Bool) (i : Glob.Item Char) {is js : List (Glob.Item Char)}
    (h : accept atEnd is = accept atEnd js) : accept atEnd (i :: is) = accept atEnd (i :: js) := by
  funext s
  rw [accept, accept, h]

/-- **A glob by its runs.** -/
theorem accept_splitRuns (atEnd : List Char → Bool) (s : List Char) : accept atEnd (s.map globItem) =
    accept atEnd (runItems (splitRuns s).1 ++ blockItems (splitRuns s).2) := by
  -- for any number of stars in front
  have hall : ∀ n, accept atEnd (List.replicate n many ++ s.map globItem) =
      accept atEnd (runItems (n + (splitRuns s).1) ++ blockItems (splitRuns s).2) := by
    induction s with
    | nil => exact fun n => accept_runItems atEnd n rfl
    | cons c s ih =>
      intro n
      rw [List.map_cons, splitRuns]
      split
      · rename_i hc
        have hstar : globItem c = many := if_pos hc
        rw [hstar, ← List.singleton_append, ← List.append_assoc, ← List.replicate_succ', ih]
        congr 3
        omega
      · refine accept_runItems atEnd n ?_
        have hrest := ih 0
        rw [List.replicate_zero, List.nil_append, Nat.zero_add] at hrest
        exact accept_cons_congr atEnd _ hrest
  simpa using hall 0

/-! ## Expressions -/

theorem reItems_cons {c : Char} {s : List Char} (hc : c ≠ '*') (hs : s.head? ≠ some '*') :
    reItems (c :: s) = (reItems s).map fun is => reLetter c :: is := by
  cases s with
  | nil =>
    have hone : reItems [c] = if c = '*' then none else some [reLetter c] := rfl
    rw [hone, if_neg hc]
    rfl
  | cons d s =>
    have hd : d ≠ '*' := fun h => hs (congrArg some h)
    rw [reItems, if_neg hc, if_neg hd]

theorem reItems_star {c : Char} (hc : c ≠ '*') (s : List Char) :
    reItems (c :: '*' :: s) = (reItems s).map fun is => { reLetter c with star := true } :: is := by
  rw [reItems, if_neg hc, if_pos rfl]

/-- A star behind a star has nothing to repeat. -/
theorem reItems_stars (s : List Char) : reItems ('*' :: s) = none := by
  cases s with
  | nil => rw [reItems, if_pos rfl]
  | cons d s => rw [reItems, if_pos rfl]

namespace ReEnv

variable (re : ReEnv)

/-- The expression of the letters with the stars behind them. -/
def subBlocks : List (Char × ℕ) → List Char
  | [] => []
  | b :: bs => b.1 :: re.subRun (some b.1) b.2 (bs.head?.map Prod.fst) ++ subBlocks bs

/-- **The replacement** by runs. -/
theorem pathSub_eq (prev : Option Char) (n : ℕ) (s : List Char) : re.pathSub prev n s =
    re.subRun prev (n + (splitRuns s).1) ((splitRuns s).2.head?.map Prod.fst) ++ re.subBlocks (splitRuns s).2 := by
  induction s generalizing prev n with
  | nil => exact (List.append_nil _).symm
  | cons c s ih =>
    rw [pathSub, splitRuns]
    split
    · rw [ih]
      congr 2
      omega
    · rw [ih, Nat.zero_add]
      rfl

/-- A run behind `c` and in front of `bs` is beside a word character. -/
def Beside (c : Char) (bs : List (Char × ℕ)) : Prop :=
  re.isWord c = true ∨ ∃ d ∈ bs.head?, re.isWord d.1 = true

instance (c : Char) (bs : List (Char × ℕ)) : Decidable (re.Beside c bs) := by
  unfold Beside
  cases bs.head? with
  | none => exact decidable_of_iff (re.isWord c = true) (by simp)
  | some d => exact decidable_of_iff (re.isWord c = true ∨ re.isWord d.1 = true) (by simp)

theorem subRun_some {c : Char} {n : ℕ} {bs : List (Char × ℕ)} (hn : n ≠ 0) :
    re.subRun (some c) n (bs.head?.map Prod.fst) = if re.Beside c bs then ['.', '*'] else List.replicate n '*' := by
  have hiff : (Option.all re.isWord (some c) = true ∨ (bs.head?.map Prod.fst).any re.isWord = true) ↔ re.Beside c bs := by
    unfold Beside
    cases bs.head? <;> simp
  rw [subRun, if_neg hn]
  by_cases h : re.Beside c bs
  · rw [if_pos h, if_pos (hiff.2 h)]
  · rw [if_neg h, if_neg (hiff.not.2 h)]

/-- `.*`. -/
def dots : Glob.Item Char := { reLetter '.' with star := true }

/-- The items of an expression by runs. -/
def exprItems : List (Char × ℕ) → Option (List (Glob.Item Char))
  | [] => some []
  | b :: bs =>
    if b.2 = 0 then (exprItems bs).map fun is => reLetter b.1 :: is
    else if re.Beside b.1 bs then (exprItems bs).map fun is => reLetter b.1 :: dots :: is
    else if b.2 = 1 then (exprItems bs).map fun is => { reLetter b.1 with star := true } :: is
    else none

theorem head?_subBlocks {bs : List (Char × ℕ)} (hbs : ∀ b ∈ bs, b.1 ≠ '*') : (re.subBlocks bs).head? ≠ some '*' := by
  cases bs with
  | nil => exact fun h => by cases h
  | cons b bs => exact fun h => hbs b List.mem_cons_self (Option.some.inj h)

theorem reItems_dots {bs : List (Char × ℕ)} (h : reItems (re.subBlocks bs) = re.exprItems bs) :
    reItems ('.' :: '*' :: re.subBlocks bs) = (re.exprItems bs).map fun is => dots :: is := by
  rw [reItems_star (by decide), h]
  rfl

theorem reItems_subBlocks {bs : List (Char × ℕ)} (hbs : ∀ b ∈ bs, b.1 ≠ '*') :
    reItems (re.subBlocks bs) = re.exprItems bs := by
  induction bs with
  | nil => rfl
  | cons b bs ih =>
    have hb : b.1 ≠ '*' := hbs b List.mem_cons_self
    have hrest : ∀ b ∈ bs, b.1 ≠ '*' := fun d hd => hbs d (List.mem_cons_of_mem _ hd)
    rw [subBlocks, exprItems]
    by_cases hn : b.2 = 0
    · rw [if_pos hn, hn, subRun, if_pos rfl, List.cons_append, List.nil_append,
        reItems_cons hb (re.head?_subBlocks hrest), ih hrest]
    · rw [if_neg hn, re.subRun_some hn]
      by_cases hbeside : re.Beside b.1 bs
      · rw [if_pos hbeside, if_pos hbeside, List.cons_append, List.cons_append, List.cons_append, List.nil_append,
          reItems_cons hb (by simp), re.reItems_dots (ih hrest), Option.map_map]
        rfl
      · rw [if_neg hbeside, if_neg hbeside]
        by_cases hone : b.2 = 1
        · rw [if_pos hone, hone, List.replicate_one, List.cons_append, List.singleton_append, reItems_star hb, ih hrest]
        · obtain ⟨k, hk⟩ : ∃ k, b.2 = k + 2 := ⟨b.2 - 2, by omega⟩
          rw [if_neg hone, hk, List.replicate_succ, List.cons_append, List.cons_append, reItems_star hb,
            List.replicate_succ, List.cons_append, reItems_stars]
          rfl

end ReEnv

/-! ## Runs beside word characters -/

/-- What the letters of a glob may be: nothing that means something to `re`, and no newline. -/
def PlainGlob (pattern : List Char) : Prop :=
  ∀ c ∈ pattern, c = '?' ∨ c ≠ '.' ∧ c ≠ '\n' ∧ c ∉ RE_SYNTAX

namespace ReEnv

variable (re : ReEnv)

/-- Every run behind a letter is beside a word character. -/
def BlocksTouch : List (Char × ℕ) → Prop
  | [] => True
  | b :: bs => (b.2 = 0 ∨ re.Beside b.1 bs) ∧ BlocksTouch bs

/-- **Every run of stars** is at the start or beside a word character. -/
def Touching (pattern : List Char) : Prop := re.BlocksTouch (splitRuns pattern).2

/-- `?` as `.`. -/
def dotted (c : Char) : Char := if c = '?' then '.' else c

def dottedBlocks (bs : List (Char × ℕ)) : List (Char × ℕ) := bs.map fun b => (dotted b.1, b.2)

theorem splitRuns_dotted (s : List Char) :
    splitRuns (s.map dotted) = ((splitRuns s).1, dottedBlocks (splitRuns s).2) := by
  induction s with
  | nil => rfl
  | cons c s ih =>
    have hstar : dotted c = '*' ↔ c = '*' := by
      unfold dotted
      split
      · rename_i hc
        rw [hc]
        decide
      · exact Iff.rfl
    rw [List.map_cons, splitRuns, splitRuns, ih]
    by_cases hc : c = '*'
    · rw [if_pos (hstar.2 hc), if_pos hc]
    · rw [if_neg (hstar.not.2 hc), if_neg hc]
      rfl

theorem isWord_dotted (c : Char) : re.isWord (dotted c) = re.isWord c := by
  unfold dotted
  split
  · rename_i hc
    simp only [isWord, hc, re.dot_not_alnum, re.mark_not_alnum]
    rfl
  · rfl

theorem beside_dotted (c : Char) (bs : List (Char × ℕ)) : re.Beside (dotted c) (dottedBlocks bs) ↔ re.Beside c bs := by
  unfold Beside dottedBlocks
  rw [re.isWord_dotted]
  cases bs with
  | nil => exact Iff.rfl
  | cons b bs =>
    simp only [List.map_cons, List.head?_cons, Option.mem_def, Option.some.injEq, exists_eq_left', re.isWord_dotted]

/-- A letter of the expression and of the glob, on everything but a newline. -/
theorem takes_dotted {c : Char} (hc : c = '?' ∨ c ≠ '.' ∧ c ≠ '\n' ∧ c ∉ RE_SYNTAX) (hstar : c ≠ '*') :
    (reLetter (dotted c)).star = (globItem c).star ∧
      ∀ d, d ≠ '\n' → (reLetter (dotted c)).takes d = (globItem c).takes d := by
  unfold reLetter globItem dotted
  rw [if_neg hstar]
  by_cases hq : c = '?'
  · rw [if_pos hq, if_pos hq, if_pos rfl]
    exact ⟨rfl, fun d hd => decide_eq_true hd⟩
  · have hdot := (hc.resolve_left hq).1
    rw [if_neg hq, if_neg hq, if_neg hdot]
    exact ⟨rfl, fun _ _ => rfl⟩

/-- The items agree on every letter but a newline. -/
def Agree (i j : Glob.Item Char) : Prop := i.star = j.star ∧ ∀ c, c ≠ '\n' → i.takes c = j.takes c

theorem agree_dots : Agree dots many := ⟨rfl, fun _ hd => decide_eq_true hd⟩

/-- **Where the runs touch**, the expression has the items of the glob. -/
theorem exprItems_touching {bs : List (Char × ℕ)} (htouch : re.BlocksTouch bs)
    (hbs : ∀ b ∈ bs, b.1 ≠ '*' ∧ (b.1 = '?' ∨ b.1 ≠ '.' ∧ b.1 ≠ '\n' ∧ b.1 ∉ RE_SYNTAX)) :
    ∃ is, re.exprItems (dottedBlocks bs) = some is ∧ List.Forall₂ Agree is (blockItems bs) := by
  induction bs with
  | nil => exact ⟨[], rfl, .nil⟩
  | cons b bs ih =>
    obtain ⟨is, his, hagree⟩ := ih htouch.2 fun d hd => hbs d (List.mem_cons_of_mem _ hd)
    have hletter := takes_dotted (hbs b List.mem_cons_self).2 (hbs b List.mem_cons_self).1
    have hexpr : re.exprItems (dottedBlocks (b :: bs)) =
        if b.2 = 0 then (re.exprItems (dottedBlocks bs)).map fun is => reLetter (dotted b.1) :: is
        else if re.Beside (dotted b.1) (dottedBlocks bs) then
          (re.exprItems (dottedBlocks bs)).map fun is => reLetter (dotted b.1) :: dots :: is
        else if b.2 = 1 then
          (re.exprItems (dottedBlocks bs)).map fun is => { reLetter (dotted b.1) with star := true } :: is
        else none := rfl
    have hblock : blockItems (b :: bs) = (globItem b.1 :: runItems b.2) ++ blockItems bs := List.flatMap_cons ..
    rw [hexpr, hblock, his]
    by_cases hn : b.2 = 0
    · rw [if_pos hn, runItems, if_pos hn]
      exact ⟨_, rfl, .cons hletter hagree⟩
    · rw [if_neg hn, if_pos ((re.beside_dotted b.1 bs).2 (htouch.1.resolve_left hn)), runItems, if_neg hn]
      exact ⟨_, rfl, .cons hletter (.cons agree_dots hagree)⟩

/-- A letter that the expression's takes: itself, or any for `.`. -/
def sample (c : Char) : Char := if dotted c = '.' then 'x' else dotted c

theorem takes_sample {c : Char} (hc : c = '?' ∨ c ≠ '.' ∧ c ≠ '\n' ∧ c ∉ RE_SYNTAX) :
    (reLetter (dotted c)).takes (sample c) = true ∧ sample c ≠ '\n' := by
  unfold reLetter sample
  by_cases hdot : dotted c = '.'
  · rw [if_pos hdot, if_pos hdot]
    exact ⟨by decide, by decide⟩
  · rw [if_neg hdot, if_neg hdot]
    refine ⟨decide_eq_true rfl, ?_⟩
    unfold dotted at hdot ⊢
    by_cases hq : c = '?'
    · rw [if_pos hq] at hdot
      exact absurd rfl hdot
    · rw [if_neg hq]
      exact (hc.resolve_left hq).2.1

/-- **The expression's shortest match**: a letter is missing for each run that does not touch. -/
theorem exprItems_shortest {bs : List (Char × ℕ)}
    (hbs : ∀ b ∈ bs, b.1 = '?' ∨ b.1 ≠ '.' ∧ b.1 ≠ '\n' ∧ b.1 ∉ RE_SYNTAX) {is : List (Glob.Item Char)}
    (his : re.exprItems (dottedBlocks bs) = some is) :
    ∃ s : List Char, List.Forall₂ (fun i c => i.takes c = true) (singles is) s ∧ (∀ c ∈ s, c ≠ '\n') ∧
      s.length ≤ bs.length ∧ (¬ re.BlocksTouch bs → s.length < bs.length) := by
  induction bs generalizing is with
  | nil =>
    obtain rfl : [] = is := Option.some.inj his
    exact ⟨[], .nil, fun c hc => absurd hc List.not_mem_nil, le_rfl, fun h => absurd trivial h⟩
  | cons b bs ih =>
    have hrest : ∀ d ∈ bs, d.1 = '?' ∨ d.1 ≠ '.' ∧ d.1 ≠ '\n' ∧ d.1 ∉ RE_SYNTAX :=
      fun d hd => hbs d (List.mem_cons_of_mem _ hd)
    obtain ⟨htake, hline⟩ := takes_sample (hbs b List.mem_cons_self)
    have hsingle : (reLetter (dotted b.1)).star = false := rfl
    -- a letter more, and no run that does not touch
    have hlonger : ∀ {js ks : List (Glob.Item Char)}, re.exprItems (dottedBlocks bs) = some js →
        singles ks = singles js → (b.2 = 0 ∨ re.Beside b.1 bs) →
        ∃ s : List Char, List.Forall₂ (fun i c => i.takes c = true) (singles (reLetter (dotted b.1) :: ks)) s ∧
          (∀ c ∈ s, c ≠ '\n') ∧ s.length ≤ (b :: bs).length ∧ (¬ re.BlocksTouch (b :: bs) → s.length < (b :: bs).length) := by
      intro js ks hjs hks hbeside
      obtain ⟨s, hs, hfree, hle, hlt⟩ := ih hrest hjs
      refine ⟨sample b.1 :: s, ?_, List.forall_mem_cons.2 ⟨hline, hfree⟩, Nat.succ_le_succ hle, ?_⟩
      · unfold singles at hks hs ⊢
        rw [List.filter_cons_of_pos (by rw [hsingle]; rfl), hks]
        exact .cons htake hs
      · exact fun hno => Nat.succ_lt_succ (hlt fun htouch => hno ⟨hbeside, htouch⟩)
    rw [dottedBlocks, List.map_cons, exprItems] at his
    simp only at his
    split at his
    · rename_i hn
      obtain ⟨js, hjs, rfl⟩ := Option.map_eq_some_iff.1 his
      exact hlonger hjs rfl (.inl hn)
    · split at his
      · rename_i hbeside
        obtain ⟨js, hjs, rfl⟩ := Option.map_eq_some_iff.1 his
        exact hlonger hjs rfl (.inr ((re.beside_dotted b.1 bs).1 hbeside))
      · split at his
        · obtain ⟨js, hjs, rfl⟩ := Option.map_eq_some_iff.1 his
          obtain ⟨s, hs, hfree, hle, -⟩ := ih hrest hjs
          exact ⟨s, hs, hfree, Nat.le_succ_of_le hle, fun _ => Nat.lt_succ_of_le hle⟩
        · cases his

end ReEnv

theorem singles_blockItems (n : ℕ) {bs : List (Char × ℕ)} (hbs : ∀ b ∈ bs, b.1 ≠ '*') :
    (singles (runItems n ++ blockItems bs)).length = bs.length := by
  have hrun : ∀ n, singles (runItems n) = [] := by
    intro n
    unfold runItems
    split <;> rfl
  unfold singles at hrun ⊢
  rw [List.filter_append, hrun, List.nil_append]
  induction bs with
  | nil => rfl
  | cons b bs ih =>
    have hsingle : (globItem b.1).star = false := by
      unfold globItem
      rw [if_neg (hbs b List.mem_cons_self)]
      split <;> rfl
    have hblock : blockItems (b :: bs) = globItem b.1 :: (runItems b.2 ++ blockItems bs) := List.flatMap_cons ..
    rw [hblock, List.filter_cons_of_pos (by rw [hsingle]; rfl), List.filter_append, hrun, List.nil_append,
      List.length_cons, ih fun d hd => hbs d (List.mem_cons_of_mem _ hd), List.length_cons]

namespace ReEnv

variable (re : ReEnv)

theorem mem_pathSub {c : Char} {prev : Option Char} {n : ℕ} {s : List Char} (h : c ∈ re.pathSub prev n s) :
    c = '.' ∨ c = '*' ∨ c ∈ s := by
  have hrun : ∀ {prev n next}, c ∈ re.subRun prev n next → c = '.' ∨ c = '*' := by
    intro prev n next hc
    unfold subRun at hc
    split at hc
    · cases hc
    · split at hc
      · simpa using hc
      · exact .inr (List.eq_of_mem_replicate hc)
  induction s generalizing prev n with
  | nil => exact (hrun h).imp_right .inl
  | cons d s ih =>
    rw [pathSub] at h
    split at h
    · exact (ih h).imp_right (Or.imp_right (List.mem_cons_of_mem _))
    · rcases List.mem_append.1 h with h | h
      · exact (hrun h).imp_right .inl
      · rcases List.mem_cons.1 h with rfl | h
        · exact .inr (.inr List.mem_cons_self)
        · exact (ih h).imp_right (Or.imp_right (List.mem_cons_of_mem _))

/-- **What a glob compiles to.** -/
theorem compilePathGlob_eq {pattern : List Char} (hp : PlainGlob pattern) : re.compilePathGlob pattern =
    (re.exprItems (dottedBlocks (splitRuns pattern).2)).map fun is =>
      accept reEnd (if (splitRuns pattern).1 = 0 then is else dots :: is) := by
  have hmap : (pattern.map fun c => if c = '?' then '.' else c) = pattern.map dotted := rfl
  have hplain : (re.pathSub none 0 (pattern.map dotted)).all (fun c => c ∉ RE_SYNTAX) = true := by
    rw [List.all_eq_true]
    intro c hc
    refine decide_eq_true ?_
    rcases re.mem_pathSub hc with rfl | rfl | hc
    · decide
    · decide
    · obtain ⟨d, hd, rfl⟩ := List.mem_map.1 hc
      unfold dotted
      by_cases hq : d = '?'
      · rw [if_pos hq]
        decide
      · rw [if_neg hq]
        exact ((hp d hd).resolve_left hq).2.2
  have hstar : ∀ b ∈ dottedBlocks (splitRuns pattern).2, b.1 ≠ '*' := by
    intro b hb
    have hsnd : (splitRuns (pattern.map dotted)).2 = dottedBlocks (splitRuns pattern).2 :=
      congrArg Prod.snd (splitRuns_dotted pattern)
    rw [← hsnd] at hb
    exact (ne_star_of_mem b hb).1
  rw [compilePathGlob, matchWhole, hmap, if_pos hplain, re.pathSub_eq, Nat.zero_add, splitRuns_dotted]
  simp only
  unfold subRun
  split
  · rw [List.nil_append, re.reItems_subBlocks hstar]
  · have hall : Option.all re.isWord none = true := rfl
    rw [if_pos (.inl hall), List.cons_append, List.cons_append, List.nil_append,
      re.reItems_dots (re.reItems_subBlocks hstar), Option.map_map]
    rfl

/-- The letters of a plain glob. -/
theorem plain_blocks {pattern : List Char} (hp : PlainGlob pattern) : ∀ b ∈ (splitRuns pattern).2,
    b.1 ≠ '*' ∧ (b.1 = '?' ∨ b.1 ≠ '.' ∧ b.1 ≠ '\n' ∧ b.1 ∉ RE_SYNTAX) :=
  fun b hb => ⟨(ne_star_of_mem b hb).1, hp b.1 (ne_star_of_mem b hb).2⟩

/-- **Where the runs touch**, a key without newlines matches the expression just when it matches the glob. -/
theorem compilePathGlob_touching {pattern : List Char} (hp : PlainGlob pattern) (htouch : re.Touching pattern) :
    ∃ rx, re.compilePathGlob pattern = some rx ∧ ∀ key : List Char, '\n' ∉ key → rx key = globMatches pattern key := by
  obtain ⟨is, his, hagree⟩ := re.exprItems_touching htouch (plain_blocks hp)
  refine ⟨_, by rw [re.compilePathGlob_eq hp, his]; rfl, ?_⟩
  intro key hkey
  rw [globMatches, accept_splitRuns]
  have hall : List.Forall₂ Agree (if (splitRuns pattern).1 = 0 then is else dots :: is)
      (runItems (splitRuns pattern).1 ++ blockItems (splitRuns pattern).2) := by
    unfold runItems
    split
    · exact hagree
    · exact .cons agree_dots hagree
  refine accept_congr hall ?_ key fun c hc heq => hkey (heq ▸ hc)
  intro u hu
  unfold reEnd
  cases u with
  | nil => rfl
  | cons c u =>
    have hc : c ≠ '\n' := hu c List.mem_cons_self
    simp [hc]

/-- **Where a run does not touch**, the expression does not compile or has a match that is shorter than the glob's. -/
theorem compilePathGlob_apart {pattern : List Char} (hp : PlainGlob pattern) (hapart : ¬ re.Touching pattern) :
    re.compilePathGlob pattern = none ∨ ∃ rx, re.compilePathGlob pattern = some rx ∧
      ∃ key : List Char, '\n' ∉ key ∧ rx key = true ∧ globMatches pattern key = false := by
  rw [re.compilePathGlob_eq hp]
  cases his : re.exprItems (dottedBlocks (splitRuns pattern).2) with
  | none => exact .inl rfl
  | some is =>
    obtain ⟨key, hkey, hfree, -, hlt⟩ := re.exprItems_shortest (fun b hb => (plain_blocks hp b hb).2) his
    refine .inr ⟨_, rfl, key, fun hc => hfree _ hc rfl, ?_, ?_⟩
    · refine accept_letters rfl ?_
      split
      · exact hkey
      · exact hkey
    · rw [← Bool.not_eq_true]
      intro hmatch
      rw [globMatches, accept_splitRuns] at hmatch
      have hlen := accept_length hmatch
      rw [singles_blockItems _ fun b hb => (plain_blocks hp b hb).1] at hlen
      exact absurd (hlt hapart) (by omega)

end ReEnv

/-! ## Segments -/

/-- A dictionary with strings as keys. -/
def strDict (kvs : List (List Char × PyVal)) : PyVal := .dict (kvs.map fun kv => (.str kv.1, kv.2))

/-- The values under the keys that match a glob. -/
def underGlob (pattern : List Char) (kvs : List (List Char × PyVal)) : List PyVal :=
  (kvs.filter fun kv => globMatches pattern kv.1).map Prod.snd

/-- The segments of a path. -/
def segments (name : List Char) : List (List Char) :=
  match sepsIn name with
  | [] => [name]
  | sep :: _ => name.splitOn sep

/-- What the last segment of a path asks when it is an operator. -/
def lastCmd (e : QueryEnv) (d : Doc) (r : PyVal) (name : List Char) : PyVal → Test PyErr :=
  match sepsIn name with
  | [] => fun _ => .ok false
  | sep :: _ => e.valCmd d (lastPart name sep) r

theorem mem_intercalate {segs : List (List Char)} {seg : List Char} {sep c : Char} (hseg : seg ∈ segs) (hc : c ∈ seg) :
    c ∈ [sep].intercalate segs := by
  induction segs with
  | nil => cases hseg
  | cons s segs ih =>
    cases segs with
    | nil =>
      rw [List.mem_singleton] at hseg
      simpa [List.intercalate, ← hseg] using hc
    | cons t segs =>
      rw [List.intercalate_cons_cons, List.mem_append, List.mem_append]
      rcases List.mem_cons.1 hseg with rfl | hseg
      · exact .inl (.inl hc)
      · exact .inr (ih hseg)

/-- A segment's letters are letters of the path. -/
theorem mem_of_mem_segments {name seg : List Char} {c : Char} (hseg : seg ∈ segments name) (hc : c ∈ seg) : c ∈ name := by
  unfold segments at hseg
  split at hseg
  · rwa [← List.mem_singleton.1 hseg]
  · rename_i sep seps _
    have hjoin : [sep].intercalate (name.splitOn sep) = name := List.intercalate_splitOn sep
    rw [← hjoin]
    exact mem_intercalate hseg hc

theorem matchVAL_path {e : QueryEnv} {d : Doc} {name : List Char} {r : PyVal} (h : TopName name)
    {kvs : List (PyVal × PyVal)} (hf : field? name (.dict kvs) = none) (hw : wild name = true) :
    e.matchVAL d (.dict [(.str name, r)]) (.dict kvs) =
      e.matchPATH (e.matchVAL d r) (lastCmd e d r name) (segments name) (.dict kvs) := by
  rw [matchVAL_one]
  unfold lastCmd segments
  cases hsep : sepsIn name with
  | nil => exact valCmd_wild_one h hf hw hsep
  | cons sep seps => exact valCmd_wild_sep h hf hw hsep

namespace ReEnv

variable (re : ReEnv)

/-- **A wildcard segment** asks the rest of the path of the values under the keys of the glob, whatever the
dictionary and whatever is asked. -/
def SelectsGlob (e : QueryEnv) (pattern : List Char) : Prop :=
  ∀ kvs : List (List Char × PyVal), (∀ kv ∈ kvs, '\n' ∉ kv.1) → ∀ leaf last rest,
    (re.queryEnv e).matchPATH leaf last (pattern :: rest) (strDict kvs) =
      Test.any ((re.queryEnv e).matchPATH leaf last rest) (underGlob pattern kvs)

theorem globMatches_star (key : List Char) : globMatches ['*'] key = true := by
  have hany : ∀ s : List Char, skip (fun _ => true) List.isEmpty s = true := by
    intro s
    induction s with
    | nil => rfl
    | cons c s ih => rw [skip, ih]; rfl
  exact hany key

theorem children_some {e : QueryEnv} {pattern : List Char} (hstar : pattern ≠ ['*']) {rx : List Char → Bool}
    (hrx : re.compilePathGlob pattern = some rx) (kvs : List (List Char × PyVal)) :
    (re.queryEnv e).children pattern (strDict kvs) = (kvs.filter fun kv => rx kv.1).map fun kv => .ok kv.2 := by
  have hglob : (re.queryEnv e).glob pattern = some rx := hrx
  unfold QueryEnv.children strDict
  simp only [if_neg hstar, hglob]
  induction kvs with
  | nil => rfl
  | cons kv kvs ih =>
    rw [List.map_cons, List.filterMap_cons]
    by_cases hk : rx kv.1 = true
    · simp only [List.filter_cons, hk, if_true, List.map_cons, ih]
    · simp only [List.filter_cons, hk, if_false, Bool.false_eq_true, ih]

theorem any_map_ok (f : PyVal → Test PyErr) (kvs : List (List Char × PyVal)) :
    Test.any (fun v => Except.bind v f) (kvs.map fun kv => .ok kv.2) = Test.any f (kvs.map Prod.snd) := by
  induction kvs with
  | nil => rfl
  | cons kv kvs ih =>
    rw [List.map_cons, List.map_cons, Test.any_cons, Test.any_cons, ih]
    rfl

section

variable {e : QueryEnv} {pattern : List Char} (hspace : pattern.head? ≠ some ' ') (hwild : wild pattern = true)
  (hdeep : pattern ≠ ['*', '*'])
include hspace hwild hdeep

/-- A segment other than `**` asks about its children. -/
theorem matchPATH_wild (leaf last : PyVal → Test PyErr) (rest : List (List Char)) (v : PyVal) :
    e.matchPATH leaf last (pattern :: rest) v =
      Test.any (fun v => Except.bind v (e.matchPATH leaf last rest)) (e.children pattern v) := by
  have hname : pattern.dropWhile (· = ' ') = pattern := by
    cases pattern with
    | nil => rfl
    | cons c s =>
      have hc : c ≠ ' ' := fun hc => hspace (congrArg some hc)
      rw [List.dropWhile_cons_of_neg (by simpa using hc)]
  rw [matchPATH, hname]
  simp only [hwild, if_true, if_neg hdeep]

theorem selectsGlob_iff (hp : PlainGlob pattern) : re.SelectsGlob e pattern ↔ re.Touching pattern := by
  by_cases hstar : pattern = ['*']
  · subst hstar
    refine iff_of_true ?_ trivial
    intro kvs _ leaf last rest
    have hall : ∀ kv ∈ kvs, globMatches ['*'] kv.1 = true := fun kv _ => globMatches_star kv.1
    rw [matchPATH_wild hspace hwild hdeep, underGlob, List.filter_eq_self.2 hall, ← any_map_ok]
    unfold QueryEnv.children strDict
    simp only [if_true, List.map_map]
    rfl
  · constructor
    · intro h
      by_contra hapart
      -- every child says yes
      have hask := fun kvs hkvs => h kvs hkvs (fun _ => .ok true) (fun _ => .ok true) []
      rcases re.compilePathGlob_apart hp hapart with hnone | ⟨rx, hrx, key, hfree, hmatch, hno⟩
      · have hglob : (re.queryEnv e).glob pattern = none := hnone
        have hempty := hask [] fun kv hkv => absurd hkv List.not_mem_nil
        rw [matchPATH_wild hspace hwild hdeep] at hempty
        unfold QueryEnv.children strDict at hempty
        simp only [if_neg hstar, hglob] at hempty
        cases hempty
      · have hone := hask [(key, .none)] fun kv hkv => by rw [List.mem_singleton.1 hkv]; exact hfree
        rw [matchPATH_wild hspace hwild hdeep, re.children_some hstar hrx, any_map_ok, underGlob] at hone
        simp only [List.filter_cons, List.filter_nil, hmatch, hno, if_true, List.map_cons, List.map_nil, Test.any_cons,
          Test.any_nil, matchPATH, Bool.false_eq_true, if_false] at hone
        cases hone
    · intro htouch kvs hkvs leaf last rest
      obtain ⟨rx, hrx, hagree⟩ := re.compilePathGlob_touching hp htouch
      have hsame : kvs.filter (fun kv => rx kv.1) = kvs.filter fun kv => globMatches pattern kv.1 :=
        List.filter_congr fun kv hkv => hagree kv.1 (hkvs kv hkv)
      rw [matchPATH_wild hspace hwild hdeep, re.children_some hstar hrx, any_map_ok, underGlob, hsame]

end

/-- **A wildcard selects** the keys of the glob just when every run of stars is at the start or beside a word
character; and where it stands first in a path that a dictionary of rules has, the values under these keys are
what the rest of the path is asked of. -/
theorem segment_iff (e : QueryEnv) {pattern : List Char} (hp : PlainGlob pattern) (hspace : pattern.head? ≠ some ' ')
    (hwild : wild pattern = true) (hdeep : pattern ≠ ['*', '*']) :
    (re.SelectsGlob e pattern ↔ re.Touching pattern) ∧
    (re.Touching pattern → ∀ d r name rest kvs, TopName name → segments name = pattern :: rest →
      field? name (strDict kvs) = none → (∀ kv ∈ kvs, '\n' ∉ kv.1) →
      (re.queryEnv e).matchVAL d (.dict [(.str name, r)]) (strDict kvs) =
        Test.any ((re.queryEnv e).matchPATH ((re.queryEnv e).matchVAL d r) (lastCmd (re.queryEnv e) d r name) rest)
          (underGlob pattern kvs)) := by
  have hiff := re.selectsGlob_iff (e := e) hspace hwild hdeep hp
  refine ⟨hiff, ?_⟩
  intro htouch d r name rest kvs htop hseg hf hkvs
  have hmem : ∀ c ∈ pattern, c ∈ name := fun c hc => mem_of_mem_segments (hseg ▸ List.mem_cons_self ..) hc
  have hw : wild name = true := by
    unfold wild at hwild ⊢
    simp only [Bool.or_eq_true, decide_eq_true_eq] at hwild ⊢
    exact hwild.imp (hmem _) (hmem _)
  have hpath := matchVAL_path (e := re.queryEnv e) (d := d) (r := r) htop hf hw
  rw [hseg] at hpath
  exact hpath.trans (hiff.2 htouch kvs hkvs _ _ rest)

end ReEnv

/-- Letters and digits of ASCII, and no other syntax. -/
def asciiRe : ReEnv where
  isalnum := Char.isAlphanum
  other _ := none
  dot_not_alnum := by decide
  mark_not_alnum := by decide

-- a run behind a word character
theorem segment_prefix : asciiRe.SelectsGlob Formula.mute "addr*".toList ∧
    ∀ d r kvs, (∀ kv ∈ kvs, '\n' ∉ kv.1) → field? "addr*.city".toList (strDict kvs) = none →
      (asciiRe.queryEnv Formula.mute).matchVAL d (.dict [(.str "addr*.city".toList, r)]) (strDict kvs) =
        Test.any ((asciiRe.queryEnv Formula.mute).matchPATH ((asciiRe.queryEnv Formula.mute).matchVAL d r)
          (lastCmd (asciiRe.queryEnv Formula.mute) d r "addr*.city".toList) ["city".toList])
          (underGlob "addr*".toList kvs) := by
  have hall : "addr*".toList.all (fun c => c ≠ '.' ∧ c ≠ '\n' ∧ c ∉ RE_SYNTAX) = true := by decide
  have hplain : PlainGlob "addr*".toList := fun c hc => .inr (of_decide_eq_true (List.all_eq_true.1 hall c hc))
  have htouch : asciiRe.Touching "addr*".toList := ⟨.inl rfl, .inl rfl, .inl rfl, .inr (.inl rfl), trivial⟩
  have htop : TopName "addr*.city".toList := ⟨rfl, by decide, by decide, by decide⟩
  obtain ⟨hiff, hpath⟩ := asciiRe.segment_iff Formula.mute hplain (by decide) (by decide) (by decide)
  exact ⟨hiff.2 htouch, fun d r kvs hkvs hf => hpath htouch d r _ _ kvs htop rfl hf hkvs⟩

/-- Behind a dash a star repeats the dash: who asks for `None` under the glob is not told of it. -/
theorem segment_dash :
    (asciiRe.queryEnv Formula.mute).matchPATH (fun v => .ok (PyVal.pyEq v .none)) (fun _ => .ok false) ["a-*".toList]
      (strDict [("a-b".toList, .none), ("a".toList, .str [])]) = .ok false ∧
    underGlob "a-*".toList [("a-b".toList, .none), ("a".toList, .str [])] = [.none] := by
  refine ⟨?_, rfl⟩
  have hchild : (asciiRe.queryEnv Formula.mute).children "a-*".toList
      (strDict [("a-b".toList, .none), ("a".toList, .str [])]) = [.ok (.str [])] := rfl
  rw [ReEnv.matchPATH_wild (by decide) (by decide) (by decide), hchild, Test.any_cons, Test.any_nil, Except.bind, matchPATH]
  simp [PyVal.pyEq, PyVal.atomEq, PyVal.numOf]

end OmniJsonDb
