import Mathlib.Data.Prod.Lex
import Mathlib.Data.List.Basic
import OmniJsonDb.Lib.Shortcut
import OmniJsonDb.Model.Value

/-!
# Queries

The rule dictionaries of a query and the three matchers that interpret them. The operators that
compare (`$gt`, `$in`, `$has`, `$re`, `$func`, …), the transforms and the globs are taken as
functions; what puts them together is here: the loops over a dictionary and over the lists of
`$and` and `$or`, the quantifiers, the paths and their wildcards.

* `matchKEY`, `matchDATE`, `matchVAL`: `match_KEY_rules`, `match_DATE_rules`, `match_VAL_rules`.
* `matchPATH`: `_match_PATH`.
* `Condition.and`, `Condition.or`, `Condition.invert`: the operators of a `Condition`.
-/

namespace OmniJsonDb

/-- What a matcher can raise. -/
inductive PyErr where
  | key
  | index
  | value
  | type
  | attribute
  | other
  deriving DecidableEq, Repr

/-- `except (KeyError, IndexError, ValueError, TypeError)`. -/
def PyErr.caught : PyErr → Bool
  | .key | .index | .value | .type => true
  | _ => false

/-- What an object is to a rule. -/
inductive ObjKind where
  | pattern
  | func
  /-- A `frozenset` or a `range`, with what it holds. -/
  | iter (xs : List PyVal)
  | other

/-- What the matchers call. -/
structure QueryEnv where
  kind : ℕ → ObjKind
  /-- `str(..)`. -/
  str : PyVal → List Char
  /-- `set(..)`; `TypeError` for what cannot be hashed. -/
  set : List PyVal → Except PyErr PyVal
  today : PyVal
  now : PyVal
  /-- `d + timedelta(days=..)`. -/
  addDays : PyVal → ℤ → Except PyErr PyVal
  /-- `int(..)` of a float. -/
  truncate : ℕ → Except PyErr ℤ
  /-- The operators that compare a key, a value or the dates with a rule, negated or not. -/
  leafKEY : List Char → Bool → PyVal → PyVal → Test PyErr
  leafVAL : List Char → Bool → PyVal → PyVal → PyVal → Test PyErr
  leafDATE : List Char → Bool → PyVal → PyVal → PyVal → Test PyErr
  /-- `_apply_transform`. -/
  transform : List Char → PyVal → Option PyVal
  /-- `_compile_path_glob(..).match(..)`; nothing where the pattern does not compile. -/
  glob : List Char → Option (List Char → Bool)

/-! ## Commands -/

/-- `cmd.startswith('!')`. -/
def negated (cmd : List Char) : Bool := cmd.head? = some '!'

/-- `cmd[1:] if reverse_it else cmd`. -/
def unbang (cmd : List Char) : List Char := if negated cmd then cmd.drop 1 else cmd

/-- `_lower_cmd`: whether the command is an operator. -/
def isCmd (cmd : List Char) : Bool := (unbang cmd).head? = some '$'

/-- `_lower_cmd`: its name. -/
def cmdName (cmd : List Char) : List Char :=
  if isCmd cmd then (unbang cmd).map Char.toLower else unbang cmd

def TRANSFORM_OPS : List (List Char) :=
  ["$abs", "$ceil", "$floor", "$round", "$float", "$int", "$neg", "$str", "$avg", "$std", "$max", "$mid", "$min",
    "$sum", "$first", "$flat", "$last", "$len", "$sort", "$unique", "$lower", "$upper", "$strip"].map String.toList

/-- The operators of `match_KEY_rules` that compare. -/
def LEAF_OPS : List (List Char) :=
  ["$gt", "$gte", "$ge", "$lt", "$lte", "$le", "$eq", "$ne", "$between", "$near", "$mod", "$sw", "$ew", "$in", "$nin",
    "$anyin", "$has", "$nhas", "$ihas", "$re", "$re2", "$regex", "$match", "$func"].map String.toList

/-- What an operator does. -/
inductive Op where
  | leaf
  | not
  /-- `$or`, `$nor`. -/
  | or (neg : Bool)
  /-- `$and`, `$nand`. -/
  | and (neg : Bool)
  /-- `$any`, `$none` and `$all`. -/
  | any (neg all : Bool)
  | index (i : ℕ)
  | transform
  /-- None of them: a path of operators. -/
  | path
  deriving DecidableEq

/-- `$not` and the lists. -/
def boolOp (name : List Char) : Option Op :=
  if name = "$not".toList then some .not
  else if name = "$or".toList then some (.or false)
  else if name = "$nor".toList then some (.or true)
  else if name = "$and".toList then some (.and false)
  else if name = "$nand".toList then some (.and true)
  else none

def keyOp (name : List Char) : Op :=
  if name ∈ LEAF_OPS ∨ name = "$size".toList then .leaf
  else (boolOp name).getD (if name ∈ TRANSFORM_OPS then .transform else .path)

def dateOp (name : List Char) : Op :=
  if name ∈ LEAF_OPS then .leaf else (boolOp name).getD .path

/-- The number after a `$`. -/
def indexOf? (name : List Char) : Option ℕ :=
  match name.drop 1 with
  | [] => none
  | ds => if ds.all Char.isDigit then some (ds.foldl (fun n d => 10 * n + (d.toNat - '0'.toNat)) 0) else none

def valOp (name : List Char) : Op :=
  if name ∈ LEAF_OPS ∨ name = "$size".toList ∨ name = "$type".toList ∨ name = "$exists".toList then .leaf
  else
    (boolOp name).getD
      (if name = "$any".toList then .any false false
      else if name = "$none".toList then .any true false
      else if name = "$all".toList then .any false true
      else
        match indexOf? name with
        | some i => .index i
        | none => if name ∈ TRANSFORM_OPS then .transform else .path)

/-! ## Values -/

namespace PyVal

mutual

/-- The nodes of a rule. -/
def weight : PyVal → ℕ
  | list xs | tuple xs | set xs => 1 + weights xs
  | dict kvs => 1 + kvWeights kvs
  | _ => 1

def weights : List PyVal → ℕ
  | [] => 0
  | x :: xs => 1 + weight x + weights xs

def kvWeights : List (PyVal × PyVal) → ℕ
  | [] => 0
  | (_, v) :: kvs => 1 + weight v + kvWeights kvs

end

/-- `d[key]` for a string. -/
def lookup (kvs : List (PyVal × PyVal)) (key : List Char) : Option PyVal :=
  match kvs with
  | [] => Option.none
  | (str s, v) :: kvs => if s = key then some v else lookup kvs key
  | _ :: kvs => lookup kvs key

/-- The items of a `list` or a `tuple`. -/
def seq : PyVal → Option (List PyVal)
  | list xs | tuple xs => some xs
  | _ => Option.none

/-- `xs[i]`. -/
def getItem (xs : List PyVal) (i : ℤ) : Option PyVal :=
  if i < 0 then (if 0 ≤ i + xs.length then xs[(i + xs.length).toNat]? else Option.none) else xs[i.toNat]?

end PyVal

/-- The digits of `int(..)`, with single underscores between them. -/
def pyDigits : Bool → ℕ → List Char → Option ℕ
  | last, n, [] => if last then some n else none
  | last, n, c :: cs =>
    if c.isDigit then pyDigits true (10 * n + (c.toNat - '0'.toNat)) cs
    else if c = '_' ∧ last = true then pyDigits false n cs
    else none

/-- `int(..)` of a string. -/
def pyInt (s : List Char) : Option ℤ :=
  match ((s.dropWhile Char.isWhitespace).reverse.dropWhile Char.isWhitespace).reverse with
  | '-' :: cs => (pyDigits false 0 cs).map fun n => -(n : ℤ)
  | '+' :: cs => (pyDigits false 0 cs).map fun n => (n : ℤ)
  | cs => (pyDigits false 0 cs).map fun n => (n : ℤ)

namespace QueryEnv

variable (e : QueryEnv)

/-! ## Rules that are no dictionary -/

/-- `x if isinstance(x, str) else str(x)`. -/
def asStr : PyVal → PyVal
  | .str s => .str s
  | v => .str (e.str v)

def normKEY : PyVal → Option (List Char × PyVal)
  | .str s => some ("$eq".toList, .str s)
  | .obj id =>
    match e.kind id with
    | .pattern => some ("$re".toList, .obj id)
    | .func => some ("$func".toList, .obj id)
    | .iter xs => some ("$in".toList, .set (xs.map e.asStr))
    | .other => none
  | .list xs | .tuple xs | .set xs => some ("$in".toList, .set (xs.map e.asStr))
  | .int i => some ("$eq".toList, e.asStr (.int i))
  | .float f => some ("$eq".toList, e.asStr (.float f))
  | .bool b => some ("$eq".toList, e.asStr (.bool b))
  | .bytes b => some ("$eq".toList, e.asStr (.bytes b))
  | .date d => some ("$eq".toList, e.asStr (.date d))
  | .datetime d => some ("$eq".toList, e.asStr (.datetime d))
  | _ => none

/-- A number of days from today on, or up to today. -/
def daySpan (today : PyVal) (zero positive : Bool) (days : ℤ) : Except PyErr (List Char × PyVal) :=
  if zero then .ok ("$eq".toList, today)
  else if positive then (e.addDays today days).map fun d => ("$between".toList, .tuple [today, d])
  else (e.addDays today days).map fun d => ("$between".toList, .tuple [d, today])

def normDATE : PyVal → Except PyErr (Option (List Char × PyVal))
  | .date d => .ok (some ("$eq".toList, .date d))
  | .datetime d => .ok (some ("$eq".toList, .datetime d))
  | .obj id =>
    match e.kind id with
    | .pattern => .ok (some ("$re".toList, .obj id))
    | .func => .ok (some ("$func".toList, .obj id))
    | .iter xs => (e.set xs).map fun s => some ("$anyin".toList, s)
    | .other => .ok none
  | .set xs => .ok (some ("$anyin".toList, .set xs))
  | .list xs => .ok (some ("$anyin".toList, .list xs))
  | .tuple xs => .ok (some ("$anyin".toList, .tuple xs))
  | .str s => .ok (some ("$has".toList, .str s))
  | .bool b => (e.daySpan e.today (!b) b (if b then 1 else 0)).map some
  | .int i => (e.daySpan e.today (i = 0) (0 < i) i).map some
  | .float f =>
    match e.truncate f with
    | .error x => .error x
    | .ok days =>
      (e.daySpan e.now (PyVal.floatNum f = .fin 0)
        (match PyVal.floatNum f with
          | .fin n => 0 < n
          | .inf neg => !neg
          | .nan => false) days).map some
  | _ => .ok none

def normVAL : PyVal → Except PyErr (Option (List Char × PyVal))
  | .str s => .ok (some ("$eq".toList, .str s))
  | .int i => .ok (some ("$eq".toList, .int i))
  | .float f => .ok (some ("$eq".toList, .float f))
  | .bool b => .ok (some ("$eq".toList, .bool b))
  | .bytes b => .ok (some ("$eq".toList, .bytes b))
  | .obj id =>
    match e.kind id with
    | .pattern => .ok (some ("$re".toList, .obj id))
    | .func => .ok (some ("$func".toList, .obj id))
    | .iter xs => (e.set xs).map fun s => some ("$in".toList, s)
    | .other => .ok none
  | .list xs | .tuple xs | .set xs => (e.set xs).map fun s => some ("$in".toList, s)
  | .date d => .ok (some ("$eq".toList, .date d))
  | .datetime d => .ok (some ("$eq".toList, .datetime d))
  | _ => .ok none

/-! ## Paths -/

def SEPS : List Char := ['.', '/', '|', '\\']

/-- The separators a command holds, in the order they are tried. -/
def sepsIn (name : List Char) : List Char := SEPS.filter fun sep => sep ∈ name

def wild (part : List Char) : Bool := '*' ∈ part || '?' ∈ part

/-- `part.startswith(('!$', '$'))`. -/
def isOpPart (part : List Char) : Bool := part.head? = some '$' || part.take 2 = ['!', '$']

/-- The last part of a path. -/
def lastPart (name : List Char) (sep : Char) : List Char := (name.splitOn sep).getLastD []

/-- A path of operators: the value after its transforms, whether it is reversed, and whether the
last part is left as a command. -/
def walkOps (parts : List (List Char)) (val : PyVal) (rev : Bool) : Option (PyVal × Bool × Bool) :=
  match parts with
  | [] => some (val, rev, false)
  | part :: rest =>
    let rev' := if negated part then !rev else rev
    if unbang part ∈ TRANSFORM_OPS then
      match e.transform (unbang part) val with
      | none => none
      | some val => walkOps rest val rev'
    else if rest = [] then some (val, rev', true)
    else none

/-- `val[part]` in a dictionary, a list or a tuple; nothing elsewhere. -/
def child (part : List Char) (val : PyVal) : Except PyErr (Option PyVal) :=
  match val with
  | .dict kvs =>
    match PyVal.lookup kvs part with
    | some v => .ok (some v)
    | none => .error .key
  | .list xs | .tuple xs =>
    match pyInt part with
    | none => .error .value
    | some i =>
      match PyVal.getItem xs i with
      | some v => .ok (some v)
      | none => .error .index
  | _ => .ok none

/-- A path without wildcards. -/
def walk (parts : List (List Char)) (val : PyVal) (rev : Bool) : Except PyErr (Option (PyVal × Bool × Bool)) :=
  match parts with
  | [] => .ok (some (val, rev, false))
  | part :: rest =>
    if isOpPart part then
      let rev' := if negated part then !rev else rev
      if unbang part ∈ TRANSFORM_OPS then
        match e.transform (unbang part) val with
        | none => .ok none
        | some val => walk rest val rev'
      else if rest = [] then .ok (some (val, rev', true))
      else .ok none
    else
      match child (part.dropWhile (· = ' ')) val with
      | .error x => .error x
      | .ok none => .ok none
      | .ok (some val) => walk rest val rev

mutual

/-- `_iter_all_node`. -/
def allNodes : PyVal → List PyVal
  | .list xs => .list xs :: allNodesOf xs
  | .tuple xs => .tuple xs :: allNodesOf xs
  | .dict kvs => .dict kvs :: allNodesIn kvs
  | v => [v]

def allNodesOf : List PyVal → List PyVal
  | [] => []
  | x :: xs => allNodes x ++ allNodesOf xs

def allNodesIn : List (PyVal × PyVal) → List PyVal
  | [] => []
  | (_, v) :: kvs => allNodes v ++ allNodesIn kvs

end

/-- The children a wildcard other than `**` stands for; a key that is no string raises. -/
def children (part : List Char) (val : PyVal) : List (Except PyErr PyVal) :=
  match val with
  | .dict kvs =>
    if part = ['*'] then kvs.map fun kv => .ok kv.2
    else
      match e.glob part with
      | none => [.error .other]
      | some rx =>
        kvs.filterMap fun kv =>
          match kv.1 with
          | .str k => if rx k then some (.ok kv.2) else none
          | _ => some (.error .type)
  | .list xs | .tuple xs =>
    if part = ['*'] ∨ part = ['?', '*'] ∨ part = ['*', '?'] then xs.map .ok
    else if part.head? = some '?' ∧ part.count '?' = part.length then
      (xs.zipIdx.filter fun x => x.2 / 10 + 1 = part.length).map fun x => .ok x.1
    else []
  | _ => []

/-- `except (KeyError, IndexError, ValueError, TypeError)` with the answer no. -/
def tryMatch (t : Test PyErr) : Test PyErr :=
  match t with
  | .error x => if x.caught then .ok false else .error x
  | t => t

/-- `_match_PATH`: `leaf` is the match at the end of the path, `last` the one of the last part as
a command. -/
def matchPATH (leaf last : PyVal → Test PyErr) (parts : List (List Char)) (val : PyVal) : Test PyErr :=
  match parts with
  | [] => leaf val
  | part :: rest =>
    let name := part.dropWhile (· = ' ')
    if wild name then
      if name = ['*', '*'] then Test.any (matchPATH leaf last rest) (allNodes val)
      else Test.any (fun v => Except.bind v (matchPATH leaf last rest)) (e.children name val)
    else if isOpPart part then
      if unbang part ∈ TRANSFORM_OPS then
        match e.transform (unbang part) val with
        | none => .ok false
        | some val => if rest = [] then tryMatch (last val) else .ok false
      else if rest = [] then tryMatch (last val)
      else .ok false
    else
      match child name val with
      | .error _ => .ok false
      | .ok none => .ok false
      | .ok (some val) => tryMatch (matchPATH leaf last rest val)

/-- `except IndexError` with the answer no. -/
def tryIndex (t : Test PyErr) : Test PyErr := if t = .error .index then .ok false else t

/-- `cmd in val` and `val[cmd]`, of a dictionary. -/
def field? (name : List Char) (val : PyVal) : Option PyVal :=
  match val with
  | .dict kvs => PyVal.lookup kvs name
  | _ => none

/-- The first of the attempts that raises none of the caught exceptions. -/
def tryEach {α : Type} (run : α → Test PyErr) : List α → Test PyErr
  | [] => .ok false
  | a :: as =>
    match run a with
    | .error x => if x.caught then tryEach run as else .error x
    | t => t

/-! ## Quantifiers -/

mutual

/-- A match with `ANY` or with `ALL`: of the items, of their items and so on, else of the value. -/
def deep (all : Bool) (f : PyVal → Test PyErr) : PyVal → Test PyErr
  | .list xs => Test.orElse (deepItems all f xs) (f (.list xs))
  | .tuple xs => Test.orElse (deepItems all f xs) (f (.tuple xs))
  | .set xs => Test.orElse (deepItems all f xs) (f (.set xs))
  | .dict kvs => Test.orElse (deepValues all f kvs) (f (.dict kvs))
  | .bytearray b =>
    Test.orElse ((if all then Test.all else Test.any) (fun x => f (.int x.toNat)) b) (f (.bytearray b))
  | v => f v

def deepItems (all : Bool) (f : PyVal → Test PyErr) : List PyVal → Test PyErr
  | [] => .ok all
  | x :: xs =>
    if all then Test.andThen (deep all f x) (deepItems all f xs)
    else Test.orElse (deep all f x) (deepItems all f xs)

def deepValues (all : Bool) (f : PyVal → Test PyErr) : List (PyVal × PyVal) → Test PyErr
  | [] => .ok all
  | (_, v) :: kvs =>
    if all then Test.andThen (deep all f v) (deepValues all f kvs)
    else Test.orElse (deep all f v) (deepValues all f kvs)

end

/-- `any(..)` or `all(..)` over what iterating over a value gives; the value itself where it
cannot be iterated over. -/
def quantify (all : Bool) (f : PyVal → Test PyErr) (val : PyVal) : Test PyErr :=
  match val with
  | .list xs | .tuple xs | .set xs => deepItems all f xs
  | .dict kvs => deepValues all f kvs
  | .bytearray b => (if all then Test.all else Test.any) (fun x => f (.int x.toNat)) b
  | v => f v

/-! ## The matchers -/

/-- What the matchers are told of a record beside its value. -/
structure Doc where
  key : PyVal
  cdate : PyVal
  mdate : PyVal

theorem length_unbang_le (cmd : List Char) : (unbang cmd).length ≤ cmd.length := by
  unfold unbang
  split
  · rw [List.length_drop]
    omega
  · exact le_rfl

theorem length_cmdName_le (cmd : List Char) : (cmdName cmd).length ≤ cmd.length := by
  unfold cmdName
  split
  · rw [List.length_map]
    exact length_unbang_le cmd
  · exact length_unbang_le cmd

theorem length_le_of_mem_splitOn {name part : List Char} {sep : Char} (h : part ∈ name.splitOn sep) :
    part.length ≤ name.length := by
  induction name generalizing part with
  | nil =>
    rw [List.splitOn_nil, List.mem_singleton] at h
    simp [h]
  | cons c name ih =>
    rw [List.splitOn_cons_eq_if_modifyHead] at h
    split at h
    · rcases List.mem_cons.1 h with rfl | h
      · simp
      · have := ih h
        simp only [List.length_cons]
        omega
    · cases hs : name.splitOn sep with
      | nil => exact absurd hs (List.splitOn_ne_nil _ _)
      | cons p ps =>
        rw [hs] at h ih
        rw [List.modifyHead_cons] at h
        rcases List.mem_cons.1 h with rfl | h
        · have := ih List.mem_cons_self
          simp only [List.length_cons]
          omega
        · have := ih (List.mem_cons_of_mem p h)
          simp only [List.length_cons]
          omega

theorem length_lastPart_lt {name : List Char} {sep : Char} (h : sep ∈ name) :
    (lastPart name sep).length < name.length := by
  obtain ⟨xs, ys, rfl⟩ := List.append_of_mem h
  have hne : ys.splitOn sep ≠ [] := List.splitOn_ne_nil _ _
  have hlast : lastPart (xs ++ sep :: ys) sep = (ys.splitOn sep).getLast hne := by
    rw [lastPart, List.splitOn_append_cons_self, List.getLastD_eq_getLast?, List.getLast?_append_of_ne_nil _ hne,
      List.getLast?_eq_some_getLast hne, Option.getD_some]
  have := length_le_of_mem_splitOn (List.getLast_mem hne)
  rw [hlast, List.length_append, List.length_cons]
  omega

theorem mem_of_mem_sepsIn {name : List Char} {sep : Char} (h : sep ∈ sepsIn name) : sep ∈ name := by
  simpa using (List.mem_filter.1 h).2

/-- `_ix == n`: where the operator of `_id.$gt` and `_date.$gt` begins. -/
def opAt (n : ℕ) (name : List Char) : Bool := name[n]? = some '$' && '$' ∉ name.take n

theorem length_drop_lt {n : ℕ} {name : List Char} (hn : 0 < n) (h : opAt n name = true) :
    (name.drop n).length < name.length := by
  have hlt : n < name.length := by
    by_contra hle
    simp [opAt, List.getElem?_eq_none (Nat.le_of_not_lt hle)] at h
  rw [List.length_drop]
  omega

/-- The loop of `$or`; `matched` is what the rule before it said. -/
def loopOr {α : Type} (run : α → Test PyErr) : List α → Bool → Test PyErr
  | [], matched => .ok matched
  | r :: rs, _ =>
    match run r with
    | .ok false => loopOr run rs false
    | t => t

/-- The loop of `$and`. -/
def loopAnd {α : Type} (run : α → Test PyErr) : List α → Bool → Test PyErr
  | [], matched => .ok matched
  | r :: rs, _ =>
    match run r with
    | .ok true => loopAnd run rs true
    | t => t

theorem weight_lt_of_mem {rs : List PyVal} {r : PyVal} (h : r ∈ rs) : r.weight < 1 + PyVal.weights rs := by
  induction rs with
  | nil => cases h
  | cons x xs ih =>
    rw [PyVal.weights]
    rcases List.mem_cons.1 h with rfl | h
    · omega
    · have := ih h
      omega

/-- What makes the recursion of the matchers end. -/
theorem length_last_lt {cmd : List Char} {sep : Char} (h : sep ∈ sepsIn (cmdName cmd)) :
    (lastPart (cmdName cmd) sep).length < cmd.length ∧ (unbang (lastPart (cmdName cmd) sep)).length < cmd.length := by
  have h1 := length_lastPart_lt (mem_of_mem_sepsIn h)
  have h2 := length_cmdName_le cmd
  have h3 := length_unbang_le (lastPart (cmdName cmd) sep)
  omega

mutual

/-- `match_KEY_rules`. -/
def matchKEY (rules key : PyVal) : Test PyErr :=
  match rules with
  | .dict kvs => keyEntries kvs key
  | rules =>
    match e.normKEY rules with
    | none => .ok false
    | some (op, rule) => e.leafKEY op false rule key
termination_by (rules.weight, 0)
decreasing_by
  simp only [PyVal.weight, Prod.lex_def]
  omega

def keyEntries (kvs : List (PyVal × PyVal)) (key : PyVal) : Test PyErr :=
  match kvs with
  | [] => .ok true
  | (.str cmd, rule) :: kvs => Test.andThen (keyCmd cmd rule key) (keyEntries kvs key)
  | _ :: _ => .error .attribute
termination_by (PyVal.kvWeights kvs, 0)
decreasing_by
  all_goals
    simp only [PyVal.kvWeights, Prod.lex_def]
    omega

/-- A command of `match_KEY_rules`. -/
def keyCmd (cmd : List Char) (rule key : PyVal) : Test PyErr :=
  if isCmd cmd then
    match keyOp (cmdName cmd) with
    | .leaf => e.leafKEY (cmdName cmd) (negated cmd) rule key
    | .not => Test.flip (negated cmd) (Test.flip true (matchKEY rule key))
    | .or neg =>
      match rule with
      | .list rs | .tuple rs => Test.flip (negated cmd != neg) (loopOr (fun ⟨r, _⟩ => matchKEY r key) rs.attach false)
      | _ => .ok false
    | .and neg =>
      match rule with
      | .list rs | .tuple rs => Test.flip (negated cmd != neg) (loopAnd (fun ⟨r, _⟩ => matchKEY r key) rs.attach false)
      | _ => .ok false
    | .transform =>
      match e.transform (cmdName cmd) key with
      | none => .ok false
      | some key => Test.flip (negated cmd) (matchKEY rule key)
    | _ =>
      match (sepsIn (cmdName cmd)).attach with
      | [] => .ok false
      | ⟨sep, _⟩ :: _ =>
        match e.walkOps ((cmdName cmd).splitOn sep) key (negated cmd) with
        | none => .ok false
        | some (key, rev, true) => Test.flip rev (keyCmd (unbang (lastPart (cmdName cmd) sep)) rule key)
        | some (key, rev, false) => Test.flip rev (matchKEY rule key)
  else if (cmdName cmd).take 3 = "_id".toList then
    if _ : opAt 4 (cmdName cmd) = true then Test.flip (negated cmd) (keyCmd ((cmdName cmd).drop 4) rule key)
    else if cmdName cmd = "_id".toList then Test.flip (negated cmd) (matchKEY rule key)
    else .ok false
  else .ok false
termination_by (rule.weight, cmd.length + 1)
decreasing_by
  all_goals
    simp only [PyVal.weight, Prod.lex_def, true_and]
    first
    | omega
    | have := weight_lt_of_mem ‹_›; omega
    | have := length_last_lt ‹_ ∈ sepsIn _›; omega
    | have := length_drop_lt (n := 4) (by decide) ‹_›; have := length_cmdName_le cmd; omega

end

mutual

/-- `match_DATE_rules`. -/
def matchDATE (rules cdate mdate : PyVal) : Test PyErr :=
  match rules with
  | .dict kvs => dateEntries kvs cdate mdate
  | rules =>
    match e.normDATE rules with
    | .error x => .error x
    | .ok none => .ok false
    | .ok (some (op, rule)) => e.leafDATE op false rule cdate mdate
termination_by (rules.weight, 0)
decreasing_by
  simp only [PyVal.weight, Prod.lex_def]
  omega

def dateEntries (kvs : List (PyVal × PyVal)) (cdate mdate : PyVal) : Test PyErr :=
  match kvs with
  | [] => .ok true
  | (.str cmd, rule) :: kvs => Test.andThen (dateCmd cmd rule cdate mdate) (dateEntries kvs cdate mdate)
  | _ :: _ => .error .attribute
termination_by (PyVal.kvWeights kvs, 0)
decreasing_by
  all_goals
    simp only [PyVal.kvWeights, Prod.lex_def]
    omega

/-- A command of `match_DATE_rules`. -/
def dateCmd (cmd : List Char) (rule cdate mdate : PyVal) : Test PyErr :=
  if isCmd cmd then
    match dateOp (cmdName cmd) with
    | .leaf => e.leafDATE (cmdName cmd) (negated cmd) rule cdate mdate
    | .not => Test.flip (negated cmd) (Test.flip true (matchDATE rule cdate mdate))
    | .or neg =>
      match rule with
      | .list rs | .tuple rs => Test.flip (negated cmd != neg) (loopOr (fun ⟨r, _⟩ => matchDATE r cdate mdate) rs.attach false)
      | _ => .ok false
    | .and neg =>
      match rule with
      | .list rs | .tuple rs => Test.flip (negated cmd != neg) (loopAnd (fun ⟨r, _⟩ => matchDATE r cdate mdate) rs.attach false)
      | _ => .ok false
    | _ => .ok false
  else if (cmdName cmd).take 5 = "_date".toList then
    if _ : opAt 6 (cmdName cmd) = true then
      Test.flip (negated cmd) (dateCmd ((cmdName cmd).drop 6) rule cdate mdate)
    else if cmdName cmd = "_date".toList then Test.flip (negated cmd) (matchDATE rule cdate mdate)
    else .ok false
  else .ok false
termination_by (rule.weight, cmd.length + 1)
decreasing_by
  all_goals
    simp only [PyVal.weight, Prod.lex_def, true_and]
    first
    | omega
    | have := weight_lt_of_mem ‹_›; omega
    | have := length_drop_lt (n := 6) (by decide) ‹_›; have := length_cmdName_le cmd; omega

end

mutual

/-- `match_VAL_rules`, with neither `ANY` nor `ALL`. -/
def matchVAL (d : Doc) (rules val : PyVal) : Test PyErr :=
  match rules with
  | .dict kvs => valEntries d kvs val
  | rules =>
    match e.normVAL rules with
    | .error x => .error x
    | .ok none => .ok false
    | .ok (some (op, rule)) => e.leafVAL op false rule d.key val
termination_by (rules.weight, 0)
decreasing_by
  simp only [PyVal.weight, Prod.lex_def]
  omega

def valEntries (d : Doc) (kvs : List (PyVal × PyVal)) (val : PyVal) : Test PyErr :=
  match kvs with
  | [] => .ok true
  | (.str cmd, rule) :: kvs => Test.andThen (valCmd d cmd rule val) (valEntries d kvs val)
  | _ :: _ => .error .attribute
termination_by (PyVal.kvWeights kvs, 0)
decreasing_by
  all_goals
    simp only [PyVal.kvWeights, Prod.lex_def]
    omega

/-- A command of `match_VAL_rules`. -/
def valCmd (d : Doc) (cmd : List Char) (rule val : PyVal) : Test PyErr :=
  if isCmd cmd then
    match valOp (cmdName cmd) with
    | .leaf => e.leafVAL (cmdName cmd) (negated cmd) rule d.key val
    | .not => Test.flip (negated cmd) (Test.flip true (matchVAL d rule val))
    | .or neg =>
      match rule with
      | .list rs | .tuple rs => Test.flip (negated cmd != neg) (loopOr (fun ⟨r, _⟩ => matchVAL d r val) rs.attach false)
      | _ => .ok false
    | .and neg =>
      match rule with
      | .list rs | .tuple rs => Test.flip (negated cmd != neg) (loopAnd (fun ⟨r, _⟩ => matchVAL d r val) rs.attach false)
      | _ => .ok false
    | .any neg all =>
      Test.flip (negated cmd != neg)
        (Test.orElse (quantify all (matchVAL d rule) val)
          (match rule, val with
            | .dict rs, .dict kvs => valFields d all rs false kvs
            | _, _ => .ok false))
    | .index i =>
      match val.seq with
      | none => .ok false
      | some xs =>
        match xs[i]? with
        | none => .ok false
        | some x => tryIndex (Test.flip (negated cmd) (matchVAL d rule x))
    | .transform =>
      match e.transform (cmdName cmd) val with
      | none => .ok false
      | some val => Test.flip (negated cmd) (matchVAL d rule val)
    | .path =>
      match (sepsIn (cmdName cmd)).attach with
      | [] => .ok false
      | ⟨sep, _⟩ :: _ =>
        match e.walkOps ((cmdName cmd).splitOn sep) val (negated cmd) with
        | none => .ok false
        | some (val, rev, true) => Test.flip rev (valCmd d (unbang (lastPart (cmdName cmd) sep)) rule val)
        | some (val, rev, false) => Test.flip rev (matchVAL d rule val)
  else
    match field? (cmdName cmd) val with
    | some v => Test.flip (negated cmd) (matchVAL d rule v)
    | none =>
      if (cmdName cmd).take 3 = "_id".toList then
        if opAt 4 (cmdName cmd) = true then
          Test.flip (negated cmd) (e.keyCmd ((cmdName cmd).drop 4) rule d.key)
        else if cmdName cmd = "_id".toList then Test.flip (negated cmd) (e.matchKEY rule d.key)
        else .ok false
      else if (cmdName cmd).take 5 = "_date".toList then
        if opAt 6 (cmdName cmd) = true then
          Test.flip (negated cmd) (e.dateCmd ((cmdName cmd).drop 6) rule d.cdate d.mdate)
        else if cmdName cmd = "_date".toList then Test.flip (negated cmd) (e.matchDATE rule d.cdate d.mdate)
        else .ok false
      else
        match val with
        | .dict _ =>
          if wild (cmdName cmd) then
            match (sepsIn (cmdName cmd)).attach with
            -- a path of one part, which is no operator
            | [] => Test.flip (negated cmd) (e.matchPATH (matchVAL d rule) (fun _ => .ok false) [cmdName cmd] val)
            | ⟨sep, _⟩ :: _ =>
              Test.flip (negated cmd) (e.matchPATH (matchVAL d rule)
                (valCmd d (lastPart (cmdName cmd) sep) rule) ((cmdName cmd).splitOn sep) val)
          else
            tryEach (fun ⟨sep, _⟩ =>
              match e.walk ((cmdName cmd).splitOn sep) val (negated cmd) with
              | .error x => .error x
              | .ok none => .ok false
              | .ok (some (val, rev, true)) =>
                Test.flip rev (valCmd d (unbang (lastPart (cmdName cmd) sep)) rule val)
              | .ok (some (val, rev, false)) => Test.flip rev (matchVAL d rule val))
              (sepsIn (cmdName cmd)).attach
        | _ => .ok false
termination_by (rule.weight, cmd.length + 1)
decreasing_by
  all_goals
    simp only [PyVal.weight, Prod.lex_def, true_and]
    first
    | omega
    | have := weight_lt_of_mem ‹_›; omega
    | have := length_last_lt ‹_ ∈ sepsIn _›; omega

/-- The loop of `$any` and `$all` over the fields that a dictionary of rules names. -/
def valFields (d : Doc) (all : Bool) (rs : List (PyVal × PyVal)) (matched : Bool) (kvs : List (PyVal × PyVal)) :
    Test PyErr :=
  match rs with
  | [] => .ok matched
  | (.str ref, rule) :: rs =>
    match PyVal.lookup kvs (cmdName ref) with
    | none => valFields d all rs matched kvs
    | some v =>
      match Test.flip (negated ref) (matchVAL d rule v) with
      | .error x => .error x
      | .ok b => if b = all then valFields d all rs b kvs else .ok b
  | _ :: _ => .error .attribute
termination_by (PyVal.kvWeights rs, 0)
decreasing_by
  all_goals
    simp only [PyVal.kvWeights, Prod.lex_def]
    omega

end

end QueryEnv

/-! ## Conditions -/

/-- A dictionary of rules; the value of a lone `$and` or `$or` is a list. -/
structure Condition where
  kvs : List (PyVal × PyVal)
  lists : ∀ op v, kvs = [(.str op, v)] → op = "$and".toList ∨ op = "$or".toList → ∃ xs, v = .list xs

namespace Condition

/-- `self[op] if op in self and len(self) == 1 else [dict(self)]`. -/
def parts (op : List Char) (c : Condition) : List PyVal :=
  match c.kvs with
  | [(.str name, .list xs)] => if name = op then xs else [.dict c.kvs]
  | kvs => [.dict kvs]

/-- One rule under an operator. -/
def one (op : List Char) (v : PyVal) (h : op = "$and".toList ∨ op = "$or".toList → ∃ xs, v = .list xs) : Condition where
  kvs := [(.str op, v)]
  lists op' v' hkvs hop := by
    cases hkvs
    exact h hop

/-- `__and__`. -/
def and (a b : Condition) : Condition :=
  one "$and".toList (.list (a.parts "$and".toList ++ b.parts "$and".toList)) fun _ => ⟨_, rfl⟩

/-- `__or__`. -/
def or (a b : Condition) : Condition :=
  one "$or".toList (.list (a.parts "$or".toList ++ b.parts "$or".toList)) fun _ => ⟨_, rfl⟩

/-- `__invert__`. -/
def invert (a : Condition) : Condition :=
  one "$not".toList (.dict a.kvs) fun h => absurd h (by decide)

end Condition

end OmniJsonDb
