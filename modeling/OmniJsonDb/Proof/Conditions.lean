import OmniJsonDb.Model.Query

/-!
# The algebra of conditions

`$and`, `$or`, `$not` and what the operators of a `Condition` build of them, in the three matchers.

* `Loops`: what a matcher does with a dictionary and with the lists; all three do the same.
* `RuleLaws`: a rule means what its connectives say, at every node they reach.
* `Formula.laws_iff`: it does exactly where no list of an `$and` is empty.
-/

namespace OmniJsonDb

/-- A matcher, of a fixed record. -/
abbrev Matches := PyVal → Test PyErr

/-! ## Nodes -/

/-- The connective of a command, if it is one. -/
def connective (cmd : List Char) : Option Op := if isCmd cmd then boolOp (cmdName cmd) else none

/-- The rules a connective joins. -/
def operands (cmd : List Char) (rule : PyVal) : List PyVal :=
  match connective cmd with
  | some .not => [rule]
  | some (.or _) | some (.and _) => rule.seq.getD []
  | _ => []

/-- The rules that the connectives of a rule reach. -/
inductive Node (root : PyVal) : PyVal → Prop
  | root : Node root root
  | operand {kvs cmd rule r} : Node root (.dict kvs) → (.str cmd, rule) ∈ kvs → r ∈ operands cmd rule → Node root r

/-- What a connective says. -/
def CmdLaw (m : Matches) (cmd : List Char) (rule : PyVal) : Prop :=
  match connective cmd, rule.seq with
  | some .not, _ => m (.dict [(.str cmd, rule)]) = Test.flip (negated cmd) (Test.flip true (m rule))
  | some (.or neg), some rs => m (.dict [(.str cmd, rule)]) = Test.flip (negated cmd != neg) (Test.any m rs)
  | some (.and neg), some rs => m (.dict [(.str cmd, rule)]) = Test.flip (negated cmd != neg) (Test.all m rs)
  | _, _ => True

/-- **The meaning of a rule**: a dictionary holds when its entries do, and every connective means
what it says. -/
def RuleLaws (m : Matches) (root : PyVal) : Prop :=
  ∀ kvs, Node root (.dict kvs) →
    m (.dict kvs) = Test.all (fun kv => m (.dict [kv])) kvs ∧
      ∀ cmd rule, (.str cmd, rule) ∈ kvs → CmdLaw m cmd rule

/-- No list of an `$and` or a `$nand` is empty. -/
def NoEmptyAnd (root : PyVal) : Prop :=
  ∀ kvs cmd rule neg, Node root (.dict kvs) → (.str cmd, rule) ∈ kvs → connective cmd = some (.and neg) →
    rule.seq ≠ some []

/-! ## The loops -/

/-- What a matcher does with a dictionary and with the connectives. -/
structure Loops (m : Matches) : Prop where
  dict : ∀ kvs, m (.dict kvs) = Test.all (fun kv => m (.dict [kv])) kvs
  not : ∀ cmd rule, connective cmd = some .not →
    m (.dict [(.str cmd, rule)]) = Test.flip (negated cmd) (Test.flip true (m rule))
  or : ∀ cmd rule neg rs, connective cmd = some (.or neg) → rule.seq = some rs →
    m (.dict [(.str cmd, rule)]) = Test.flip (negated cmd != neg) (Test.any m rs)
  and : ∀ cmd rule neg rs, connective cmd = some (.and neg) → rule.seq = some rs →
    m (.dict [(.str cmd, rule)]) = Test.flip (negated cmd != neg) (if rs = [] then .ok false else Test.all m rs)

theorem connective_eq {cmd : List Char} {op : Op} (h : connective cmd = some op) :
    isCmd cmd = true ∧ boolOp (cmdName cmd) = some op := by
  unfold connective at h
  split at h
  · exact ⟨‹_›, h⟩
  · cases h

/-- The connectives are none of the other operators. -/
theorem boolOp_not_leaf {name : List Char} {op : Op} (h : boolOp name = some op) :
    name ∉ LEAF_OPS ∧ name ≠ "$size".toList ∧ name ≠ "$type".toList ∧ name ≠ "$exists".toList := by
  have hname : name ∈ ["$not".toList, "$or".toList, "$nor".toList, "$and".toList, "$nand".toList] := by
    simp only [boolOp] at h
    repeat' split at h
    all_goals first | (subst name; decide) | cases h
  refine (show ∀ n ∈ ["$not".toList, "$or".toList, "$nor".toList, "$and".toList, "$nand".toList],
    n ∉ LEAF_OPS ∧ n ≠ "$size".toList ∧ n ≠ "$type".toList ∧ n ≠ "$exists".toList by decide) name hname

theorem keyOp_of {name : List Char} {op : Op} (h : boolOp name = some op) : keyOp name = op := by
  obtain ⟨h1, h2, -, -⟩ := boolOp_not_leaf h
  have hleaf : ¬ (name ∈ LEAF_OPS ∨ name = "$size".toList) := by tauto
  rw [keyOp, if_neg hleaf, h, Option.getD_some]

theorem dateOp_of {name : List Char} {op : Op} (h : boolOp name = some op) : dateOp name = op := by
  rw [dateOp, if_neg (boolOp_not_leaf h).1, h, Option.getD_some]

theorem valOp_of {name : List Char} {op : Op} (h : boolOp name = some op) : valOp name = op := by
  obtain ⟨h1, h2, h3, h4⟩ := boolOp_not_leaf h
  have hleaf : ¬ (name ∈ LEAF_OPS ∨ name = "$size".toList ∨ name = "$type".toList ∨ name = "$exists".toList) := by
    tauto
  rw [valOp, if_neg hleaf, h, Option.getD_some]

namespace QueryEnv

variable (e : QueryEnv)

/-- The loop of `$or` is `any`. -/
theorem loopOr_eq {α : Type} (run : α → Test PyErr) (rs : List α) : loopOr run rs false = Test.any run rs := by
  induction rs with
  | nil => rfl
  | cons r rs ih =>
    rw [loopOr, Test.any_cons, ← ih]
    rcases run r with x | b
    · rfl
    · cases b <;> rfl

theorem loopAnd_true {α : Type} (run : α → Test PyErr) (rs : List α) : loopAnd run rs true = Test.all run rs := by
  induction rs with
  | nil => rfl
  | cons r rs ih =>
    rw [loopAnd, Test.all_cons, ← ih]
    rcases run r with x | b
    · rfl
    · cases b <;> rfl

/-- The loop of `$and` is `all` but for the empty list. -/
theorem loopAnd_eq {α : Type} (run : α → Test PyErr) (rs : List α) :
    loopAnd run rs false = if rs = [] then .ok false else Test.all run rs := by
  cases rs with
  | nil => rfl
  | cons r rs =>
    rw [if_neg (List.cons_ne_nil r rs), ← loopAnd_true]
    rfl

theorem seq_cases {rule : PyVal} {rs : List PyVal} (h : rule.seq = some rs) : rule = .list rs ∨ rule = .tuple rs := by
  cases rule <;> simp_all [PyVal.seq]

section

variable {m : Matches} (entry : List Char → PyVal → Test PyErr)

/-- A matcher that goes through a dictionary command by command has the loops if its commands do. -/
theorem loops_of (hnil : m (.dict []) = .ok true)
    (hcons : ∀ cmd rule kvs, m (.dict ((.str cmd, rule) :: kvs)) = Test.andThen (entry cmd rule) (m (.dict kvs)))
    (hraise : ∀ k rule kvs, (∀ cmd, k ≠ .str cmd) → m (.dict ((k, rule) :: kvs)) = .error .attribute)
    (hnot : ∀ cmd rule, connective cmd = some .not →
      entry cmd rule = Test.flip (negated cmd) (Test.flip true (m rule)))
    (hor : ∀ cmd rule neg rs, connective cmd = some (.or neg) → rule.seq = some rs →
      entry cmd rule = Test.flip (negated cmd != neg) (loopOr (fun r : { r // r ∈ rs } => m r.1) rs.attach false))
    (hand : ∀ cmd rule neg rs, connective cmd = some (.and neg) → rule.seq = some rs →
      entry cmd rule = Test.flip (negated cmd != neg) (loopAnd (fun r : { r // r ∈ rs } => m r.1) rs.attach false)) :
    Loops m := by
  have hone : ∀ cmd rule, m (.dict [(.str cmd, rule)]) = entry cmd rule := by
    intro cmd rule
    rw [hcons, hnil, Test.andThen_true_right]
  refine ⟨fun kvs => ?_, fun cmd rule h => ?_, fun cmd rule neg rs h hrs => ?_, fun cmd rule neg rs h hrs => ?_⟩
  · induction kvs with
    | nil => rw [hnil, Test.all_nil]
    | cons kv kvs ih =>
      obtain ⟨k, rule⟩ := kv
      rw [Test.all_cons, ← ih]
      by_cases hk : ∃ cmd, k = .str cmd
      · obtain ⟨cmd, rfl⟩ := hk
        rw [hcons, hone]
      · have hk' : ∀ cmd, k ≠ .str cmd := fun cmd h => hk ⟨cmd, h⟩
        rw [hraise k rule kvs hk', hraise k rule [] hk', Test.andThen_error_left]
  · rw [hone, hnot cmd rule h]
  · rw [hone, hor cmd rule neg rs h hrs, loopOr_eq, Test.any_attach]
  · rw [hone, hand cmd rule neg rs h hrs, loopAnd_eq, Test.all_attach]
    simp only [List.attach_eq_nil_iff]

end

theorem loops_matchKEY (key : PyVal) : Loops fun r => e.matchKEY r key := by
  apply loops_of (fun cmd rule => e.keyCmd cmd rule key)
  · simp only [matchKEY, keyEntries]
  · intro cmd rule kvs
    simp only [matchKEY, keyEntries]
  · intro k rule kvs hk
    cases k <;> simp_all [matchKEY, keyEntries]
  · intro cmd rule h
    obtain ⟨hc, hb⟩ := connective_eq h
    rw [keyCmd, if_pos hc, keyOp_of hb]
  · intro cmd rule neg rs h hrs
    obtain ⟨hc, hb⟩ := connective_eq h
    rw [keyCmd, if_pos hc, keyOp_of hb]
    rcases seq_cases hrs with rfl | rfl <;> rfl
  · intro cmd rule neg rs h hrs
    obtain ⟨hc, hb⟩ := connective_eq h
    rw [keyCmd, if_pos hc, keyOp_of hb]
    rcases seq_cases hrs with rfl | rfl <;> rfl

theorem loops_matchDATE (cdate mdate : PyVal) : Loops fun r => e.matchDATE r cdate mdate := by
  apply loops_of (fun cmd rule => e.dateCmd cmd rule cdate mdate)
  · simp only [matchDATE, dateEntries]
  · intro cmd rule kvs
    simp only [matchDATE, dateEntries]
  · intro k rule kvs hk
    cases k <;> simp_all [matchDATE, dateEntries]
  · intro cmd rule h
    obtain ⟨hc, hb⟩ := connective_eq h
    rw [dateCmd, if_pos hc, dateOp_of hb]
  · intro cmd rule neg rs h hrs
    obtain ⟨hc, hb⟩ := connective_eq h
    rw [dateCmd, if_pos hc, dateOp_of hb]
    rcases seq_cases hrs with rfl | rfl <;> rfl
  · intro cmd rule neg rs h hrs
    obtain ⟨hc, hb⟩ := connective_eq h
    rw [dateCmd, if_pos hc, dateOp_of hb]
    rcases seq_cases hrs with rfl | rfl <;> rfl

theorem loops_matchVAL (d : Doc) (val : PyVal) : Loops fun r => e.matchVAL d r val := by
  apply loops_of (fun cmd rule => e.valCmd d cmd rule val)
  · simp only [matchVAL, valEntries]
  · intro cmd rule kvs
    simp only [matchVAL, valEntries]
  · intro k rule kvs hk
    cases k <;> simp_all [matchVAL, valEntries]
  · intro cmd rule h
    obtain ⟨hc, hb⟩ := connective_eq h
    rw [valCmd.eq_def, if_pos hc, valOp_of hb]
  · intro cmd rule neg rs h hrs
    obtain ⟨hc, hb⟩ := connective_eq h
    rw [valCmd.eq_def, if_pos hc, valOp_of hb]
    rcases seq_cases hrs with rfl | rfl <;> rfl
  · intro cmd rule neg rs h hrs
    obtain ⟨hc, hb⟩ := connective_eq h
    rw [valCmd.eq_def, if_pos hc, valOp_of hb]
    rcases seq_cases hrs with rfl | rfl <;> rfl

end QueryEnv

/-! ## Nodes and flattening -/

variable {m : Matches}

/-- **Nodes.** A rule means what its connectives say where no list of an `$and` is empty. -/
theorem ruleLaws_iff (h : Loops m) (root : PyVal) : RuleLaws m root ↔ NoEmptyAnd root := by
  constructor
  · intro hl kvs cmd rule neg hn hmem hc hrs
    have hlaw := (hl kvs hn).2 cmd rule hmem
    simp only [CmdLaw, hc, hrs] at hlaw
    rw [h.and cmd rule neg [] hc hrs] at hlaw
    -- the loop leaves what it began with
    simp at hlaw
  · intro hf kvs hn
    refine ⟨h.dict kvs, fun cmd rule hmem => ?_⟩
    unfold CmdLaw
    split
    · rename_i hc
      exact h.not cmd rule hc
    · rename_i neg rs hc hrs
      exact h.or cmd rule neg rs hc hrs
    · rename_i neg rs hc hrs
      rw [h.and cmd rule neg rs hc hrs, if_neg]
      rintro rfl
      exact hf kvs cmd rule neg hn hmem hc hrs
    · trivial

theorem connective_and : connective "$and".toList = some (.and false) := by decide
theorem connective_or : connective "$or".toList = some (.or false) := by decide
theorem connective_not : connective "$not".toList = some .not := by decide

theorem Node.trans {a b c : PyVal} (hab : Node a b) (hbc : Node b c) : Node a c := by
  induction hbc with
  | root => exact hab
  | operand _ hmem hr ih => exact .operand ih hmem hr

/-- A node is the root or one of an operand of the root. -/
theorem Node.cases_root {root r : PyVal} (h : Node root r) : r = root ∨
    ∃ kvs cmd rule r', root = .dict kvs ∧ (.str cmd, rule) ∈ kvs ∧ r' ∈ operands cmd rule ∧ Node r' r := by
  induction h with
  | root => exact .inl rfl
  | operand hn hmem hr ih =>
    right
    rcases ih with rfl | ⟨kvs', cmd', rule', r', hroot, hmem', hr', hn'⟩
    · exact ⟨_, _, _, _, rfl, hmem, hr, .root⟩
    · exact ⟨kvs', cmd', rule', r', hroot, hmem', hr', .operand hn' hmem hr⟩

/-- What is flattened is the condition itself, or what its connective joins. -/
theorem parts_cases (op : List Char) (c : Condition) :
    c.parts op = [.dict c.kvs] ∨ ∃ xs, c.kvs = [(.str op, .list xs)] ∧ c.parts op = xs := by
  unfold Condition.parts
  split
  · rename_i name xs hkvs
    split
    · rename_i hname
      subst hname
      exact .inr ⟨xs, hkvs, rfl⟩
    · exact .inl rfl
  · exact .inl rfl

/-- Flattening an `$and` does not change what it says. -/
theorem all_parts (h : Loops m) {c : Condition} (hf : NoEmptyAnd (.dict c.kvs)) :
    Test.all m (c.parts "$and".toList) = m (.dict c.kvs) ∧ c.parts "$and".toList ≠ [] := by
  rcases parts_cases "$and".toList c with hp | ⟨xs, hkvs, hp⟩
  · rw [hp]
    exact ⟨by simp, by simp⟩
  · rw [hp, hkvs]
    have hne : xs ≠ [] := by
      rintro rfl
      exact hf c.kvs "$and".toList (.list []) false .root (by simp [hkvs]) connective_and rfl
    refine ⟨?_, hne⟩
    rw [h.and _ _ _ _ connective_and rfl, if_neg hne]
    exact (Test.flip_false _).symm

theorem any_parts (h : Loops m) (c : Condition) : Test.any m (c.parts "$or".toList) = m (.dict c.kvs) := by
  rcases parts_cases "$or".toList c with hp | ⟨xs, hkvs, hp⟩
  · rw [hp]
    simp
  · rw [hp, hkvs, h.or _ _ _ _ connective_or rfl]
    exact (Test.flip_false _).symm

theorem node_of_parts {op : List Char} {c : Condition} {neg : Bool}
    (hop : connective op = some (.and neg) ∨ connective op = some (.or neg)) {r : PyVal} (h : r ∈ c.parts op) :
    Node (.dict c.kvs) r := by
  rcases parts_cases op c with hp | ⟨xs, hkvs, hp⟩
  · rw [hp, List.mem_singleton] at h
    rw [h]
    exact .root
  · rw [hp] at h
    have hmem : (PyVal.str op, PyVal.list xs) ∈ c.kvs := by simp [hkvs]
    apply Node.operand .root hmem
    rcases hop with hop | hop
    · simpa [operands, hop, PyVal.seq] using h
    · simpa [operands, hop, PyVal.seq] using h

theorem NoEmptyAnd.sub {a b : PyVal} (h : NoEmptyAnd a) (hn : Node a b) : NoEmptyAnd b :=
  fun kvs cmd rule neg hb hmem hc => h kvs cmd rule neg (hn.trans hb) hmem hc

/-- One connective over rules without empty lists. -/
theorem noEmptyAnd_one {op : List Char} {rule : PyVal} (h0 : ∀ neg, connective op = some (.and neg) → rule.seq ≠ some [])
    (hr : ∀ r ∈ operands op rule, NoEmptyAnd r) : NoEmptyAnd (.dict [(.str op, rule)]) := by
  intro kvs cmd rule' neg hn hmem hc
  rcases hn.cases_root with hroot | ⟨kvs', cmd', rule'', r, hroot, hmem', hr', hn'⟩
  · cases hroot
    cases List.mem_singleton.1 hmem
    exact h0 neg hc
  · cases hroot
    cases List.mem_singleton.1 hmem'
    exact hr r hr' kvs cmd rule' neg hn' hmem hc

/-! ## Formulas -/

/-- The rules as the operators build them from dictionaries. -/
inductive Formula where
  | cond (c : Condition)
  | and (a b : Formula)
  | or (a b : Formula)
  | invert (a : Formula)

namespace Formula

def build : Formula → Condition
  | cond c => c
  | and a b => a.build.and b.build
  | or a b => a.build.or b.build
  | invert a => a.build.invert

/-- The dictionary a formula is built to. -/
def rules (f : Formula) : PyVal := .dict f.build.kvs

/-- The meaning of a formula: of its dictionaries, and of every operator on the way; `&` and `|`
mean what the nested lists do. -/
def Laws (m : Matches) : Formula → Prop
  | cond c => RuleLaws m (.dict c.kvs)
  | and a b => a.Laws m ∧ b.Laws m ∧ m (and a b).rules = Test.andThen (m a.rules) (m b.rules) ∧
      m (and a b).rules = m (.dict [(.str "$and".toList, .list [a.rules, b.rules])])
  | or a b => a.Laws m ∧ b.Laws m ∧ m (or a b).rules = Test.orElse (m a.rules) (m b.rules) ∧
      m (or a b).rules = m (.dict [(.str "$or".toList, .list [a.rules, b.rules])])
  | invert a => a.Laws m ∧ m (invert a).rules = Test.flip true (m a.rules)

/-- No `$and` or `$nand` of its dictionaries has an empty list. -/
def Full : Formula → Prop
  | cond c => NoEmptyAnd (.dict c.kvs)
  | and a b | or a b => a.Full ∧ b.Full
  | invert a => a.Full

/-- The operators build no empty list. -/
theorem Full.noEmptyAnd {f : Formula} (hf : f.Full) : NoEmptyAnd f.rules := by
  induction f with
  | cond c => exact hf
  | and a b iha ihb =>
    have ha := iha hf.1
    have hb := ihb hf.2
    apply noEmptyAnd_one
    · intro neg _ h0
      have hnil := List.append_eq_nil_iff.1 (Option.some.inj h0)
      rcases parts_cases "$and".toList a.build with hp | ⟨xs, hkvs, hp⟩
      · exact absurd (hp.symm.trans hnil.1) (List.cons_ne_nil _ _)
      · refine ha a.build.kvs "$and".toList (.list xs) false .root (by simp [hkvs]) connective_and ?_
        rw [← hp, hnil.1]
        rfl
    · intro r hr
      have hr : r ∈ a.build.parts "$and".toList ++ b.build.parts "$and".toList := hr
      rcases List.mem_append.1 hr with hr | hr
      · exact ha.sub (node_of_parts (.inl connective_and) hr)
      · exact hb.sub (node_of_parts (.inl connective_and) hr)
  | or a b iha ihb =>
    have ha := iha hf.1
    have hb := ihb hf.2
    apply noEmptyAnd_one
    · intro neg hc
      rw [connective_or] at hc
      cases hc
    · intro r hr
      have hr : r ∈ a.build.parts "$or".toList ++ b.build.parts "$or".toList := hr
      rcases List.mem_append.1 hr with hr | hr
      · exact ha.sub (node_of_parts (.inr connective_or) hr)
      · exact hb.sub (node_of_parts (.inr connective_or) hr)
  | invert a iha =>
    apply noEmptyAnd_one
    · intro neg hc
      rw [connective_not] at hc
      cases hc
    · intro r hr
      have hr : r ∈ [a.rules] := hr
      rw [List.mem_singleton.1 hr]
      exact iha hf

/-- What `&` builds, unflattened or not. -/
theorem rules_and (h : Loops m) {a b : Formula} (ha : NoEmptyAnd a.rules) (hb : NoEmptyAnd b.rules) :
    m (and a b).rules = Test.andThen (m a.rules) (m b.rules) ∧
      m (and a b).rules = m (.dict [(.str "$and".toList, .list [a.rules, b.rules])]) := by
  have hand : m (and a b).rules = Test.andThen (m a.rules) (m b.rules) := by
    have hne : a.build.parts "$and".toList ++ b.build.parts "$and".toList ≠ [] := fun hnil =>
      (all_parts h ha).2 (List.append_eq_nil_iff.1 hnil).1
    calc m (and a b).rules
        = Test.flip false (Test.all m (a.build.parts "$and".toList ++ b.build.parts "$and".toList)) := by
          refine (h.and _ _ _ _ connective_and rfl).trans ?_
          rw [if_neg hne]
          rfl
      _ = Test.andThen (m a.rules) (m b.rules) := by
          rw [Test.flip_false, Test.all_append, (all_parts h ha).1, (all_parts h hb).1]
          rfl
  refine ⟨hand, hand.trans ?_⟩
  rw [h.and _ _ _ _ connective_and rfl, if_neg (by simp)]
  simp [negated]

theorem rules_or (h : Loops m) (a b : Formula) : m (or a b).rules = Test.orElse (m a.rules) (m b.rules) ∧
    m (or a b).rules = m (.dict [(.str "$or".toList, .list [a.rules, b.rules])]) := by
  have hor : m (or a b).rules = Test.orElse (m a.rules) (m b.rules) := by
    calc m (or a b).rules
        = Test.flip false (Test.any m (a.build.parts "$or".toList ++ b.build.parts "$or".toList)) :=
          h.or _ _ _ _ connective_or rfl
      _ = Test.orElse (m a.rules) (m b.rules) := by
          rw [Test.flip_false, Test.any_append, any_parts h, any_parts h]
          rfl
  refine ⟨hor, hor.trans ?_⟩
  rw [h.or _ _ _ _ connective_or rfl]
  simp [negated]

/-- A formula means what it says exactly where no list of an `$and` is empty. -/
theorem laws_iff_full (h : Loops m) (f : Formula) : f.Laws m ↔ f.Full := by
  induction f with
  | cond c => exact ruleLaws_iff h _
  | and a b iha ihb =>
    constructor
    · intro hl
      exact ⟨iha.1 hl.1, ihb.1 hl.2.1⟩
    · intro hf
      exact ⟨iha.2 hf.1, ihb.2 hf.2, rules_and h (Full.noEmptyAnd hf.1) (Full.noEmptyAnd hf.2)⟩
  | or a b iha ihb =>
    constructor
    · intro hl
      exact ⟨iha.1 hl.1, ihb.1 hl.2.1⟩
    · intro hf
      exact ⟨iha.2 hf.1, ihb.2 hf.2, rules_or h a b⟩
  | invert a iha =>
    constructor
    · intro hl
      exact iha.1 hl.1
    · intro hf
      refine ⟨iha.2 hf, ?_⟩
      refine (h.not _ _ connective_not).trans ?_
      exact Test.flip_false _

/-- **The algebra of conditions.** In each of the three matchers, a formula of conditions means
what its operators say exactly where none of its `$and` and `$nand` has an empty list. -/
theorem laws_iff (e : QueryEnv) (d : QueryEnv.Doc) (val : PyVal) (f : Formula) :
    (f.Laws (fun r => e.matchVAL d r val) ↔ f.Full) ∧ (f.Laws (fun r => e.matchKEY r d.key) ↔ f.Full) ∧
      (f.Laws (fun r => e.matchDATE r d.cdate d.mdate) ↔ f.Full) :=
  ⟨laws_iff_full (e.loops_matchVAL d val) f, laws_iff_full (e.loops_matchKEY d.key) f,
    laws_iff_full (e.loops_matchDATE d.cdate d.mdate) f⟩

/-- `{'$and': []}`. -/
def emptyAnd : Formula := .cond (.one "$and".toList (.list []) fun _ => ⟨[], rfl⟩)

/-- `{}`. -/
def noRules : Formula := .cond ⟨[], fun _ _ h => absurd h (by simp)⟩

/-- Operators that all say no. -/
def mute : QueryEnv where
  kind := fun _ => .other
  str := fun _ => []
  set := fun xs => .ok (.set xs)
  today := .date 1
  now := .datetime 0
  addDays := fun d _ => .ok d
  truncate := fun _ => .ok 0
  leafKEY := fun _ _ _ _ => .ok false
  leafVAL := fun _ _ _ _ _ => .ok false
  leafDATE := fun _ _ _ _ _ => .ok false
  transform := fun _ _ => none
  glob := fun _ => none

/-- An empty `$and` says no, and with a rule that says yes it says yes. -/
theorem emptyAnd_fails :
    mute.matchVAL ⟨.str ['k'], .date 1, .date 1⟩ emptyAnd.rules (.int 1) = .ok false ∧
      mute.matchVAL ⟨.str ['k'], .date 1, .date 1⟩ noRules.rules (.int 1) = .ok true ∧
      mute.matchVAL ⟨.str ['k'], .date 1, .date 1⟩ (and emptyAnd noRules).rules (.int 1) = .ok true := by
  have h := mute.loops_matchVAL ⟨.str ['k'], .date 1, .date 1⟩ (.int 1)
  have hnone := h.dict []
  have hempty := h.and "$and".toList (.list []) false [] connective_and rfl
  rw [if_pos rfl] at hempty
  refine ⟨hempty, hnone, ?_⟩
  refine (h.and "$and".toList (.list [.dict []]) false _ connective_and rfl).trans ?_
  rw [if_neg (by simp), Test.all_cons, hnone]
  rfl

end Formula

end OmniJsonDb
