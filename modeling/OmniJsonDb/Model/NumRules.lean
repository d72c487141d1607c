import OmniJsonDb.Model.SortRules
import OmniJsonDb.Model.Transform

/-!
# Rules with numbers

What `match_VAL_rules` does with the operators that compare with numbers, the transforms and the
fields of a record.

* `Leaf`, `Numerics.matchLeaf`: comparisons, `$between`, `$near`, `$mod` and membership.
* `Rule`, `Numerics.matchRule`: a rule, its commands one after the other.
-/

namespace OmniJsonDb

open QueryEnv (sepsIn wild)

/-- A number in a rule. -/
inductive Operand where
  | bool (b : Bool)
  | int (i : ℤ)
  | float (bits : ℕ)

namespace Operand

def val : Operand → PyVal
  | bool b => .bool b
  | int i => .int i
  | float f => .float f

def number : Operand → Number
  | bool b => .int (if b then 1 else 0)
  | int i => .int i
  | float f => .float f

/-- `isinstance(v, type(o))`. -/
def isType (o : Operand) (v : PyVal) : Bool :=
  match o, v with
  | bool _, .bool _ => true
  | int _, .int _ => true
  | int _, .bool _ => true
  | float _, .float _ => true
  | _, _ => false

end Operand

def Number.num : Number → PyVal.Num
  | .int i => .fin (i * FLOAT_UNITS)
  | .float f => PyVal.floatNum f

def PyVal.Num.le (m n : PyVal.Num) : Bool := m.lt n || m.eq n

/-! ## Comparisons -/

inductive Cmp where
  | gt
  | ge
  | lt
  | le
  | eq
  | ne

/-- With `!` a comparison is turned round, which is not its negation for NaN. -/
def Cmp.test (c : Cmp) (rev : Bool) (m n : PyVal.Num) : Bool :=
  match c with
  | gt => if rev then m.le n else n.lt m
  | ge => if rev then m.lt n else n.le m
  | lt => if rev then n.le m else m.lt n
  | le => if rev then n.lt m else m.le n
  | eq => if rev then !m.eq n else m.eq n
  | ne => if rev then m.eq n else !m.eq n

/-- `$in`, `$nin` and `$anyin`. -/
inductive InOp where
  | isIn
  | nin
  | anyin
  deriving DecidableEq

/-- The operators that compare with numbers. -/
inductive Leaf where
  | cmp (c : Cmp) (rule : Operand)
  | between (low high : Operand)
  | near (target tol : Operand)
  | mod (divisor remainder : Operand)
  | among (op : InOp) (rule : List Operand)

namespace Numerics

variable (e : Numerics)

/-- A number as a float. -/
def numFloat : Number → Except Exc ℕ
  | .int i => e.floatInt i
  | .float f => .ok f

/-- What two numbers compute: on integers, or on floats as soon as one of them is a float. -/
def arith (onInts : ℤ → ℤ → Except Exc Number) (onFloats : ℕ → ℕ → Except Exc Number) (a b : Number) : Except Exc Number :=
  match a, b with
  | .int i, .int j => onInts i j
  | a, b =>
    match e.numFloat a, e.numFloat b with
    | .ok f, .ok g => onFloats f g
    | .error x, _ => .error x
    | _, .error x => .error x

/-- `a - b`. -/
def minus (a b : Number) : Except Exc Number :=
  e.arith (fun i j => .ok (.int (i - j))) (fun f g => .ok (.float (e.sub f g))) a b

/-- `a % b`. -/
def modulo (a b : Number) : Except Exc Number :=
  e.arith (fun i j => if j = 0 then .error .zeroDivision else .ok (.int (i.fmod j)))
    (fun f g => if b.num = .fin 0 then .error .zeroDivision else .ok (.float (e.fmod f g))) a b

/-- `val in rule`, or, for what is no single value, `set(rule)` and `set(val)`. -/
def isAmong (op : InOp) (rev : Bool) (rule : List Operand) (v : PyVal) : Bool :=
  let single := v.hasHash && v.sequence?.isNone
  let items := v.iter?.getD []
  let test :=
    if single then rule.any fun o => PyVal.pyEq v o.val
    else if op = .anyin then rule.any fun o => items.any fun x => PyVal.pyEq x o.val
    else rule.all fun o => items.any fun x => PyVal.pyEq x o.val
  -- `TypeError` where an item cannot be hashed
  (single || items.all PyVal.hashable) && (test != (rev != decide (op = .nin)))

/-- An operator of `match_VAL_rules` that compares. -/
def matchLeaf (l : Leaf) (rev : Bool) (v : PyVal) : Test Exc :=
  match l with
  | .cmp c rule =>
    match v.number? with
    | none => .ok false
    | some n => .ok (c.test rev n.num rule.number.num)
  | .between low high =>
    match v.number? with
    | none => .ok false
    | some n =>
      if low.isType v && high.isType v || low.isType high.val then
        .ok ((low.number.num.le n.num && n.num.le high.number.num) != rev)
      else .ok false
  | .near target tol =>
    match v.number? with
    | none => .ok false
    | some n => (e.minus n target.number).map fun d => d.abs.num.le tol.number.num != rev
  | .mod divisor remainder =>
    match v.number? with
    | none => .ok false
    | some n => (e.modulo n divisor.number).map fun r => r.num.eq remainder.number.num != rev
  | .among op rule => .ok (isAmong op rev rule v)

end Numerics

/-! ## Rules -/

/-- A name that is neither an operator nor a path, nor one of the names of a record's key and dates. -/
structure FieldName where
  name : List Char
  plain : isCmd name = false ∧ negated name = false ∧ sepsIn name = [] ∧ wild name = false ∧
    name.take 3 ≠ "_id".toList ∧ name.take 5 ≠ "_date".toList

mutual

/-- A number stands for `$eq`, several for `$in`. -/
inductive Rule where
  | num (o : Operand)
  | among (os : List Operand)
  | dict (cmds : Cmds)

/-- The commands of a rule. A path of transforms has them before its rule. The flags say where `!` is. -/
inductive Cmds where
  | nil
  | leaf (rev : Bool) (l : Leaf) (rest : Cmds)
  | transform (rev : Bool) (op : TransformOp) (ops : List TransformOp) (rule : Rule) (rest : Cmds)
  | field (rev : Bool) (f : FieldName) (rule : Rule) (rest : Cmds)

end

namespace Numerics

variable (e : Numerics)

/-- Transforms one after the other; nothing where one gives `None`. -/
def applyAll : List TransformOp → PyVal → Except Exc (Option PyVal)
  | [], v => .ok (some v)
  | op :: ops, v =>
    match e.applyTransform op v with
    | .error x => .error x
    | .ok .none => .ok none
    | .ok w => applyAll ops w

/-- A call of `match_VAL_rules` at a level, `RecursionError` where it is nested too deep. -/
def entered (level : ℕ) (t : Test Exc) : Test Exc := if e.frames < level then .error .recursion else t

mutual

/-- `match_VAL_rules`. -/
def matchRule (level : ℕ) : Rule → PyVal → Test Exc
  | .num o, v => e.entered level (e.matchLeaf (.cmp .eq o) false v)
  | .among os, v => e.entered level (e.matchLeaf (.among .isIn os) false v)
  | .dict cmds, v => e.entered level (matchCmds level cmds v)

def matchCmds (level : ℕ) : Cmds → PyVal → Test Exc
  | .nil, _ => .ok true
  | .leaf rev l rest, v => Test.andThen (e.matchLeaf l rev v) (matchCmds level rest v)
  | .transform rev op ops rule rest, v =>
    Test.andThen
      (match e.applyAll (op :: ops) v with
        | .error x => .error x
        | .ok none => .ok false
        | .ok (some w) => Test.flip rev (matchRule (level + 1) rule w))
      (matchCmds level rest v)
  | .field rev f rule rest, v =>
    Test.andThen
      (match QueryEnv.field? f.name v with
        | none => .ok false
        | some w => Test.flip rev (matchRule (level + 1) rule w))
      (matchCmds level rest v)

end

end Numerics

end OmniJsonDb
