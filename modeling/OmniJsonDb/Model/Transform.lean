import Mathlib.Data.Rat.Floor
import OmniJsonDb.Lib.HalfEven
import OmniJsonDb.Model.GroupBy

/-!
# Transforms

`_apply_transform`, on the values a record may hold. How a text is read as a number, what a float
computes and how values are ordered are taken as functions; what is decided here is where Python
raises, in which case nothing is computed.

* `Numerics.toFloat`, `Numerics.toInt`: `float(..)` and `int(..)`.
* `Numerics.sum`: an integer that meets a float must fit one.
* `Numerics.applyTransform`: an operator of `TRANSFORM_OPS`, with what it catches.
-/

namespace OmniJsonDb

/-- What the operators raise. -/
inductive Exc where
  | type
  | value
  | index
  | zeroDivision
  | attribute
  | overflow
  | recursion
  deriving DecidableEq

/-- `except (TypeError, ValueError, IndexError, ZeroDivisionError, AttributeError)`. -/
def Exc.caught : Exc → Bool
  | .overflow | .recursion => false
  | _ => true

/-- `return None` for what is caught. -/
def excepted (r : Except Exc PyVal) : Except Exc PyVal :=
  match r with
  | .ok v => .ok v
  | .error x => if x.caught then .ok .none else .error x

/-- What `str(..)` and a comparison say of values they do not take: an error that is caught, or
`RecursionError` where values are nested too deep. -/
inductive Refusal where
  | refused
  | tooDeep
  deriving DecidableEq

/-- The exception, `TypeError` or `ValueError` where it is one that is caught. -/
def Refusal.exc (other : Exc) : Refusal → Exc
  | refused => other
  | tooDeep => .recursion

/-- `.lower()`, `.upper()`, `.strip()`. -/
inductive TextMethod where
  | lower
  | upper
  | strip

/-- What is computed where nothing is raised. -/
structure Numerics where
  /-- `float(..)` and `int(..)` of a text; nothing for `ValueError`. -/
  readFloat : List Char → Option ℕ
  readFloatBytes : Bytes → Option ℕ
  readInt : List Char → Option ℤ
  readIntBytes : Bytes → Option ℤ
  /-- The float for an integer. -/
  ofInt : ℤ → ℕ
  /-- The sum of numbers one of which is a float. -/
  total : List PyVal → ℕ
  /-- An integer, and a float, divided by a length. -/
  ratio : ℤ → ℕ → ℕ
  divide : ℕ → ℕ → ℕ
  sub : ℕ → ℕ → ℕ
  fmod : ℕ → ℕ → ℕ
  /-- `x ** 2` and `x ** 0.5`. -/
  square : ℕ → ℕ
  root : ℕ → ℕ
  /-- `str(..)`; an integer with too many digits is refused (`ValueError`). -/
  str : PyVal → Except Refusal (List Char)
  text : TextMethod → List Char → List Char
  textBytes : TextMethod → Bytes → Bytes
  /-- `x > y`, `x < y` and `sorted(..)`; what has no order is refused (`TypeError`). -/
  greater : PyVal → PyVal → Except Refusal Bool
  less : PyVal → PyVal → Except Refusal Bool
  sorted : List PyVal → Except Refusal (List PyVal)
  /-- How many calls of `match_VAL_rules` may be nested in the first. -/
  frames : ℕ

/-! ## Values -/

/-- A number; `True` and `False` are integers. -/
inductive Number where
  | int (i : ℤ)
  | float (bits : ℕ)

namespace PyVal

def number? : PyVal → Option Number
  | bool b => some (.int (if b then 1 else 0))
  | int i => some (.int i)
  | float f => some (.float f)
  | _ => Option.none

/-- What iterating over a value gives. -/
def iter? : PyVal → Option (List PyVal)
  | str s => some (s.map fun c => str [c])
  | bytes b | bytearray b => some (b.map fun x => int x.toNat)
  | list xs | tuple xs | set xs => some xs
  | dict kvs => some (kvs.map Prod.fst)
  | _ => Option.none

/-- `val if isinstance(val, (list, tuple, set))`. -/
def sequence? : PyVal → Option (List PyVal)
  | list xs | tuple xs | set xs => some xs
  | _ => Option.none

/-- `val.__hash__`. -/
def hasHash : PyVal → Bool
  | list _ | dict _ | set _ | bytearray _ => false
  | _ => true

/-- `val if .. else (val,) if val.__hash__ else ()`. -/
def asItems (v : PyVal) : List PyVal := v.sequence?.getD (if v.hasHash then [v] else [])

def length? : PyVal → Option ℕ
  | str s => some s.length
  | bytes b | bytearray b => some b.length
  | list xs | tuple xs | set xs => some xs.length
  | dict kvs => some kvs.length
  | _ => Option.none

end PyVal

/-- The least positive integer that is rounded to no float. -/
def FLOAT_TOP : ℤ := 2 ^ 1024 - 2 ^ 970

/-- `OverflowError: int too large to convert to float`. -/
def tooLarge (i : ℤ) : Prop := FLOAT_TOP ≤ |i|

instance (i : ℤ) : Decidable (tooLarge i) := inferInstanceAs (Decidable (_ ≤ _))

/-- The unit of finite floats, `2 ^ -1074`, in one. -/
def FLOAT_UNITS : ℤ := 2 ^ 1074

/-- The sign of a float changed, and dropped. -/
def negFloat (f : ℕ) : ℕ := if f / 2 ^ 63 % 2 = 1 then f - 2 ^ 63 else f + 2 ^ 63
def absFloat (f : ℕ) : ℕ := if f / 2 ^ 63 % 2 = 1 then f - 2 ^ 63 else f

def Number.neg : Number → Number
  | .int i => .int (-i)
  | .float f => .float (negFloat f)

def Number.abs : Number → Number
  | .int i => .int |i|
  | .float f => .float (absFloat f)

def Number.val : Number → PyVal
  | .int i => .int i
  | .float f => .float f

/-! ## Conversions -/

/-- An integer out of a finite float. -/
def roundFloat (f : ℤ → ℤ) (bits : ℕ) : Except Exc ℤ :=
  match PyVal.floatNum bits with
  | .fin n => .ok (f n)
  | .inf _ => .error .overflow
  | .nan => .error .value

def ceilUnits (n : ℤ) : ℤ := -(-n / FLOAT_UNITS)
def floorUnits (n : ℤ) : ℤ := n / FLOAT_UNITS
def nearestUnits (n : ℤ) : ℤ := halfEven ((n : ℚ) / FLOAT_UNITS)
def truncateUnits (n : ℤ) : ℤ := n.tdiv FLOAT_UNITS

namespace Numerics

variable (e : Numerics)

/-- `float(i)`. -/
def floatInt (i : ℤ) : Except Exc ℕ := if tooLarge i then .error .overflow else .ok (e.ofInt i)

/-- `float(v)`. -/
def toFloat : PyVal → Except Exc ℕ
  | .bool b => e.floatInt (if b then 1 else 0)
  | .int i => e.floatInt i
  | .float f => .ok f
  | .str s => (e.readFloat s).elim (.error .value) .ok
  | .bytes b | .bytearray b => (e.readFloatBytes b).elim (.error .value) .ok
  | _ => .error .type

/-- `int(v)`. -/
def toInt : PyVal → Except Exc ℤ
  | .bool b => .ok (if b then 1 else 0)
  | .int i => .ok i
  | .float f => roundFloat truncateUnits f
  | .str s => (e.readInt s).elim (.error .value) .ok
  | .bytes b | .bytearray b => (e.readIntBytes b).elim (.error .value) .ok
  | _ => .error .type

/-- `[f(vv) for vv in val] if hasattr(val, '__iter__') else None`. -/
def each (f : PyVal → Except Exc PyVal) (v : PyVal) : Except Exc PyVal :=
  match v.iter? with
  | some xs => (xs.mapM f).map .list
  | none => .ok .none

/-! ## Numbers -/

def abs (v : PyVal) : Except Exc PyVal :=
  match v.number? with
  | some n => .ok n.abs.val
  | none => each (fun vv =>
      match vv.number? with
      | some n => .ok n.abs.val
      | none => (e.toFloat vv).map fun f => .float (absFloat f)) v

/-- `ceil(float(vv))` and its like. -/
def roundVal (f : ℤ → ℤ) (vv : PyVal) : Except Exc PyVal :=
  match e.toFloat vv with
  | .error x => .error x
  | .ok bits => (roundFloat f bits).map .int

/-- `$ceil`, `$floor` and `$round`. -/
def rounding (f : ℤ → ℤ) (v : PyVal) : Except Exc PyVal :=
  match v with
  | .float bits => (roundFloat f bits).map .int
  | .bool _ | .int _ => .ok v
  | .str _ | .bytes _ => e.roundVal f v
  | v => each (e.roundVal f) v

def ceil (v : PyVal) : Except Exc PyVal := e.rounding ceilUnits v
def floor (v : PyVal) : Except Exc PyVal := e.rounding floorUnits v
def round (v : PyVal) : Except Exc PyVal := e.rounding nearestUnits v

def float (v : PyVal) : Except Exc PyVal :=
  match v with
  | .str _ | .bytes _ | .int _ | .bool _ | .float _ => (e.toFloat v).map .float
  | v => each (fun vv => (e.toFloat vv).map .float) v

def int (v : PyVal) : Except Exc PyVal :=
  match v with
  | .str _ | .bytes _ | .int _ | .bool _ | .float _ => (e.toInt v).map .int
  | v => each (fun vv => (e.toInt vv).map .int) v

def neg (v : PyVal) : Except Exc PyVal :=
  match v.number? with
  | some n => .ok n.neg.val
  | none =>
    match v with
    | .str s =>
      if '.' ∈ s then (e.toFloat v).map fun f => .float (negFloat f) else (e.toInt v).map fun i => .int (-i)
    | v => each (fun vv =>
        match vv with
        | .int _ | .bool _ => (e.toInt vv).map fun i => .int (-i)
        | vv => (e.toFloat vv).map fun f => .float (negFloat f)) v

/-- `str(..)`. -/
def strOf (v : PyVal) : Except Exc PyVal :=
  match e.str v with
  | .ok s => .ok (.str s)
  | .error r => .error (r.exc .value)

def strVal (v : PyVal) : Except Exc PyVal :=
  match v with
  | .str s => .ok (.str s)
  | .bytes _ | .int _ | .float _ | .bool _ => e.strOf v
  | v => each e.strOf v

/-! ## Sums -/

/-- `sum(..)` once there is a float. -/
def addFloats : List PyVal → Except Exc Unit
  | [] => .ok ()
  | x :: xs =>
    match x.number? with
    | none => .error .type
    | some (.float _) => addFloats xs
    | some (.int i) => if tooLarge i then .error .overflow else addFloats xs

/-- `sum(..)` while all are integers; nothing where a float came. -/
def addInts (acc : ℤ) : List PyVal → Except Exc (Option ℤ)
  | [] => .ok (some acc)
  | x :: xs =>
    match x.number? with
    | none => .error .type
    | some (.int i) => addInts (acc + i) xs
    | some (.float _) => if tooLarge acc then .error .overflow else (addFloats xs).map fun _ => none

/-- `sum(items)`. -/
def sumOf (xs : List PyVal) : Except Exc Number :=
  (addInts 0 xs).map fun s =>
    match s with
    | some i => .int i
    | none => .float (e.total xs)

/-- `sum(items) / n`. -/
def mean (xs : List PyVal) : Except Exc ℕ :=
  match e.sumOf xs with
  | .error x => .error x
  | .ok (.int s) => if FLOAT_TOP * xs.length ≤ |s| then .error .overflow else .ok (e.ratio s xs.length)
  | .ok (.float f) => .ok (e.divide f xs.length)

/-- `d ** 2`. -/
def squareFloat (d : ℕ) : Except Exc ℕ :=
  match PyVal.floatNum d with
  | .fin n => if FLOAT_TOP * FLOAT_UNITS ^ 2 ≤ n ^ 2 then .error .overflow else .ok (e.square d)
  | _ => .ok (e.square d)

/-- `(x - mean) ** 2`. -/
def deviation (m : ℕ) (x : PyVal) : Except Exc PyVal :=
  match e.toFloat x with
  | .error err => .error err
  | .ok f => (e.squareFloat (e.sub f m)).map .float

def sum (v : PyVal) : Except Exc PyVal :=
  match v.sequence? with
  | some xs => (e.sumOf xs).map Number.val
  | none => .ok (if v.hasHash then v else .none)

def avg (v : PyVal) : Except Exc PyVal :=
  if v.asItems = [] then .ok .none else (e.mean v.asItems).map .float

def std (v : PyVal) : Except Exc PyVal :=
  match v.asItems with
  | [] => .ok .none
  | [_] => .ok (.float 0)
  | xs =>
    match e.mean xs with
    | .error x => .error x
    | .ok m => (xs.mapM (e.deviation m)).map fun ds => .float (e.root (e.divide (e.total ds) xs.length))

/-! ## Sequences -/

/-- The loop of `max(..)` and `min(..)`. -/
def extreme (better : PyVal → PyVal → Except Refusal Bool) (best : PyVal) : List PyVal → Except Exc PyVal
  | [] => .ok best
  | x :: xs =>
    match better x best with
    | .error r => .error (r.exc .type)
    | .ok b => extreme better (if b then x else best) xs

/-- `$max` and `$min`. -/
def most (better : PyVal → PyVal → Except Refusal Bool) (v : PyVal) : Except Exc PyVal :=
  match v.sequence? with
  | some [] => .error .value
  | some (x :: xs) => extreme better x xs
  | none => .ok (if v.hasHash then v else .none)

def max (v : PyVal) : Except Exc PyVal := most e.greater v
def min (v : PyVal) : Except Exc PyVal := most e.less v

def mid (v : PyVal) : Except Exc PyVal := .ok (v.asItems[v.asItems.length / 2]?.getD .none)

def first (v : PyVal) : Except Exc PyVal :=
  match v with
  | .str s => .ok (.str (s.take 1))
  | .bytes b => .ok (.bytes (b.take 1))
  | .list xs | .tuple xs => xs.head?.elim (.error .index) .ok
  | v => .ok ((v.iter?.bind List.head?).getD .none)

def last (v : PyVal) : Except Exc PyVal :=
  match v with
  | .str s => .ok (.str (s.drop (s.length - 1)))
  | .bytes b => .ok (.bytes (b.drop (b.length - 1)))
  | v =>
    match v.iter? with
    | some xs => xs.getLast?.elim (.error .index) .ok
    | none => .ok .none

def flat (v : PyVal) : Except Exc PyVal :=
  match v with
  | .list xs | .tuple xs => .ok (.list (xs.flatMap fun item => item.seq.getD [item]))
  | _ => .ok .none

def len (v : PyVal) : Except Exc PyVal := .ok (v.length?.elim .none fun n => .int n)

def sort (v : PyVal) : Except Exc PyVal :=
  match v.sequence? with
  | some xs =>
    match e.sorted xs with
    | .ok ys => .ok (.list ys)
    | .error r => .error (r.exc .type)
  | none => .ok .none

/-- The loop of `$unique`. -/
def uniqueFrom (result : List PyVal) : List PyVal → Except Exc PyVal
  | [] => .ok (.list result)
  | v :: vs =>
    if v.hashable then uniqueFrom (if result.any (PyVal.pyEq v) then result else result ++ [v]) vs
    else .error .type

def unique (v : PyVal) : Except Exc PyVal :=
  match v with
  | .dict kvs => .ok (.dict kvs)
  | .set xs => .ok (.set xs)
  | .list xs | .tuple xs => uniqueFrom [] xs
  | _ => .ok .none

/-! ## Texts -/

/-- `vv.lower()` and its like. -/
def method (m : TextMethod) (vv : PyVal) : Except Exc PyVal :=
  match vv with
  | .str s => .ok (.str (e.text m s))
  | .bytes b => .ok (.bytes (e.textBytes m b))
  | .bytearray b => .ok (.bytearray (e.textBytes m b))
  | _ => .error .attribute

/-- `$lower`, `$upper` and `$strip`. -/
def textual (m : TextMethod) (v : PyVal) : Except Exc PyVal :=
  match v with
  | .str _ => e.method m v
  | v => each (e.method m) v

def lower (v : PyVal) : Except Exc PyVal := e.textual .lower v
def upper (v : PyVal) : Except Exc PyVal := e.textual .upper v
def strip (v : PyVal) : Except Exc PyVal := e.textual .strip v

end Numerics

/-- `TRANSFORM_OPS`. -/
inductive TransformOp where
  | abs | ceil | floor | round
  | float | int | neg | str
  | avg | std | max | mid | min | sum
  | first | flat | last | len | sort | unique
  | lower | upper | strip
  deriving DecidableEq

/-- What an operator computes. -/
def Numerics.compute (e : Numerics) : TransformOp → PyVal → Except Exc PyVal
  | .abs => e.abs
  | .ceil => e.ceil
  | .floor => e.floor
  | .round => e.round
  | .float => e.float
  | .int => e.int
  | .neg => e.neg
  | .str => e.strVal
  | .avg => e.avg
  | .std => e.std
  | .max => e.max
  | .mid => Numerics.mid
  | .min => e.min
  | .sum => e.sum
  | .first => Numerics.first
  | .flat => Numerics.flat
  | .last => Numerics.last
  | .len => Numerics.len
  | .sort => e.sort
  | .unique => Numerics.unique
  | .lower => e.lower
  | .upper => e.upper
  | .strip => e.strip

/-- `_apply_transform`. -/
def Numerics.applyTransform (e : Numerics) (op : TransformOp) (v : PyVal) : Except Exc PyVal := excepted (e.compute op v)

end OmniJsonDb
