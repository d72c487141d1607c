import Mathlib.Data.List.Lex
import OmniJsonDb.Lib.Sorting
import OmniJsonDb.Model.GroupBy

/-!
# Sorting rows

`sorted_by_rules` and `resolve_sort_value`, and `<` between values. `list.sort` is any sort that keeps to
what is said of it.

* `pyLt`: `<`; it raises for values that do not compare.
* `resolveSortValue`: what a row is sorted by, for one path.
* `sortedByRules`: the rows with a sort key in order, then the rest.
-/

namespace OmniJsonDb

namespace PyVal

/-! ## Comparison -/

/-- `<` of numbers; NaN is not less than anything, and nothing is less than it. -/
def Num.lt : Num → Num → Bool
  | .fin a, .fin b => a < b
  | .fin _, .inf neg => !neg
  | .inf neg, .fin _ => neg
  | .inf neg, .inf neg' => neg && !neg'
  | _, _ => false

/-- What `<` looks at of a value that is no container. -/
inductive Rank where
  | num (n : Num)
  | str (s : List Char)
  | bytes (b : Bytes)
  | date (ordinal : ℕ)
  | datetime (n : Num)

def rankOf : PyVal → Option Rank
  | bool b => some (.num (.fin (if b then 2 ^ 1074 else 0)))
  | int i => some (.num (.fin (i * 2 ^ 1074)))
  | float bits => some (.num (floatNum bits))
  | str s => some (.str s)
  | bytes b | bytearray b => some (.bytes b)
  | date d => some (.date d)
  | datetime ts => some (.datetime (floatNum ts))
  | _ => Option.none

/-- `TypeError` for two kinds. -/
def Rank.lt : Rank → Rank → Except PyErr Bool
  | .num m, .num n => .ok (m.lt n)
  | .str s, .str t => .ok (s < t)
  | .bytes s, .bytes t => .ok (s < t)
  | .date m, .date n => .ok (m < n)
  | .datetime m, .datetime n => .ok (m.lt n)
  | _, _ => .error .type

/-- `<` of two values that are not containers. -/
def atomLt (a b : PyVal) : Except PyErr Bool :=
  match rankOf a, rankOf b with
  | some m, some n => m.lt n
  | _, _ => .error .type

mutual

/-- Python's `<`. -/
def pyLt : PyVal → PyVal → Except PyErr Bool
  | list xs, list ys => pyLtAll xs ys
  | tuple xs, tuple ys => pyLtAll xs ys
  | set xs, set ys => .ok (xs.length < ys.length && pyAllIn xs ys)
  | a, b => atomLt a b

/-- Two sequences compare as their first elements that are not equal. -/
def pyLtAll : List PyVal → List PyVal → Except PyErr Bool
  | [], [] => .ok false
  | [], _ :: _ => .ok true
  | _ :: _, [] => .ok false
  | x :: xs, y :: ys => if pyEq x y then pyLtAll xs ys else pyLt x y

end

/-- `isinstance(v, (str, int, float, bool, bytes, dt_date, datetime))`. -/
def isScalar : PyVal → Bool
  | str _ | int _ | float _ | bool _ | bytes _ | date _ | datetime _ => true
  | _ => false

/-- A scalar or a tuple of scalars. -/
def isOrderable : PyVal → Bool
  | tuple xs => xs.all isScalar
  | v => isScalar v

end PyVal

/-! ## Rows -/

/-- `(key, (val, cdate, mdate, mod_id))`. -/
def DataRow.toTuple (row : DataRow) : PyVal :=
  .tuple [row.key, .tuple [row.val, .date row.cdate, .date row.mdate, .int row.modId]]

/-- A `rules` argument. -/
inductive SortRules where
  | none
  | int (i : ℤ)
  | list (ss : List GroupSpec)
  | spec (s : GroupSpec)

/-- The segments of a spec; a spec that is no path has none. -/
def GroupSpec.sortParts : GroupSpec → Path
  | path text => text.splitOn '.'
  | other => []

namespace SortRules

/-- `rules is None`. -/
def isNone : SortRules → Bool
  | none => true
  | _ => false

/-- `specs_parts`. An int sorts by the values themselves, or not at all. -/
def paths : SortRules → List Path
  | none => []
  | int i => if i = 0 then [] else [[[]]]
  | list ss => ss.map GroupSpec.sortParts
  | spec s => [s.sortParts]

/-- `reverse`; a negative int turns it round. -/
def reverse (rules : SortRules) (rev : Option Bool) : Bool :=
  match rules with
  | int i => if i < 0 then !rev.getD false else rev.getD false
  | _ => rev.getD false

end SortRules

namespace GroupEnv

variable (e : GroupEnv)

/-- The loop over the other segments: no wildcards. -/
def descendSort : Path → PyVal → Except PyErr (Option PyVal)
  | [], cur => .ok (some cur)
  | part :: rest, cur =>
    if '*' ∈ part ∨ '?' ∈ part then .ok none
    else if part ∈ TRANSFORM_OPS then
      match e.transform part cur with
      | .error x => .error x
      | .ok none => .ok none
      | .ok (some cur) => descendSort rest cur
    else
      match cur with
      | .dict kvs =>
        match PyVal.lookup kvs part with
        | none => .ok none
        | some cur => descendSort rest cur
      | .list xs | .tuple xs =>
        match pyInt part with
        | none => .ok none
        | some i =>
          match PyVal.getItem xs i with
          | none => .ok none
          | some cur => descendSort rest cur
      | _ => .ok none

/-- Where a path starts. -/
def sortRoot (root : List Char) (row : DataRow) : Option PyVal :=
  if root = "_id".toList then some row.key
  else if root = "_date".toList then some (.tuple [.date row.cdate, .date row.mdate, .int row.modId])
  else if root = [] then some row.val
  else
    match row.val with
    | .dict kvs => PyVal.lookup kvs root
    | _ => none

/-- `resolve_sort_value`; nothing where there is no value that can be ordered. -/
def resolveSortValue (parts : Path) (row : DataRow) : Except PyErr (Option PyVal) :=
  match parts with
  | [] => .ok none
  | root :: rest =>
    match sortRoot root row with
    | none => .ok none
    | some cur => (e.descendSort rest cur).map fun v => v.filter PyVal.isOrderable

/-- The sort key of a row: a value for each path, up to the first path without one. -/
def sortKey : List Path → DataRow → Except PyErr (Option (List PyVal))
  | [], _ => .ok (some [])
  | parts :: rest, row =>
    match e.resolveSortValue parts row with
    | .error x => .error x
    | .ok none => .ok none
    | .ok (some v) => (sortKey rest row).map fun k => k.map fun k => v :: k

/-- `orderable` and `missing`. -/
def splitRows (paths : List Path) : List DataRow → Except PyErr (List (List PyVal × DataRow) × List DataRow)
  | [] => .ok ([], [])
  | row :: rows =>
    match e.sortKey paths row with
    | .error x => .error x
    | .ok key =>
      (splitRows paths rows).map fun split =>
        match key with
        | some k => ((k, row) :: split.1, split.2)
        | none => (split.1, row :: split.2)

/-- `str(v) if not isinstance(v, str) else v`. -/
def sortText : PyVal → PyVal
  | .str s => .str s
  | v => .str (e.str v)

variable (sorter : Sorting.ListSort PyErr)

/-- `orderable.sort(..)`, by the texts where the keys do not compare. -/
def sortOrderable (desc : Bool) (orderable : List (List PyVal × DataRow)) :
    Except PyErr (List (List PyVal × DataRow)) :=
  if 1 < orderable.length then
    match sorter.sort desc (fun x y => PyVal.pyLtAll x.1 y.1) orderable with
    | .ok sorted => .ok sorted
    | .error .type =>
      sorter.sort desc (fun x y => PyVal.pyLtAll x.1 y.1) (orderable.map fun x => (x.1.map e.sortText, x.2))
    | .error x => .error x
  else .ok orderable

/-- `missing.sort(..)`. -/
def sortMissing (desc : Bool) (missing : List DataRow) : Except PyErr (List DataRow) :=
  sorter.sort desc (fun x y => PyVal.pyLt x.toTuple y.toTuple) missing

/-- `sorted_by_rules`. -/
def sortedByRules (rows : List DataRow) (rules : SortRules) (rev : Option Bool) : Except PyErr (List DataRow) :=
  if rows = [] ∨ rules.isNone ∨ rows.length = 1 then .ok rows
  else if rules.paths = [] then .ok rows
  else do
    let split ← e.splitRows rules.paths rows
    let orderable ← e.sortOrderable sorter (rules.reverse rev) split.1
    let missing ← sortMissing sorter (rules.reverse rev) split.2
    return orderable.map Prod.snd ++ missing

end GroupEnv

end OmniJsonDb
