import OmniJsonDb.Lib.Buckets
import OmniJsonDb.Lib.OrdDict
import OmniJsonDb.Model.Query

/-!
# Grouping rows

`parse_group_by` and `grouped_by_rules`. The transforms and `str` are taken as functions; a
transform may raise what `_apply_transform` does not catch.

* `parseGroupBy`: a spec as group keys, an operator and fields.
* `resolveGroupPath`: `_resolve_group_path`.
* `groupedByRules`: one row for each group.
-/

namespace OmniJsonDb

/-- A row of a search: its key, its value, its dates and its counter. -/
structure DataRow where
  key : PyVal
  val : PyVal
  cdate : ℕ
  mdate : ℕ
  modId : ℕ

/-- The segments of a path. -/
abbrev Path := List (List Char)

structure GroupEnv where
  /-- `_apply_transform`, with nothing for `None`. -/
  transform : List Char → PyVal → Except PyErr (Option PyVal)
  /-- `str(..)`. -/
  str : PyVal → List Char

def GROUP_LIST_OP : List Char := "$list".toList
def VAL_FIELD : List Char := "_val".toList

namespace PyVal

mutual

/-- `hash(..)` does not raise. -/
def hashable : PyVal → Bool
  | tuple xs => hashableAll xs
  | list _ | dict _ | set _ | bytearray _ => false
  | _ => true

def hashableAll : List PyVal → Bool
  | [] => true
  | x :: xs => hashable x && hashableAll xs

end

end PyVal

/-! ## Specs -/

/-- A spec of one path: a string or a `Query`, or something else. -/
inductive GroupSpec where
  | path (text : List Char)
  | other

/-- `_split_group_spec`. -/
def GroupSpec.split : GroupSpec → Except PyErr Path
  | path text => .ok (text.splitOn '.')
  | other => .error .type

/-- The key of a dictionary spec. -/
inductive GroupKeySpec where
  | one (s : GroupSpec)
  | tuple (ss : List GroupSpec)

/-- A `group_by` argument. The fields of a dictionary spec are one spec or several. -/
inductive GroupBy where
  | dict (pairs : List (GroupKeySpec × (GroupSpec ⊕ List GroupSpec)))
  | list (ss : List GroupSpec)
  | spec (s : GroupSpec)

/-- A field of the output: its path, its operator and its name. -/
structure FieldSpec where
  path : Path
  op : Option (List Char)
  name : List Char
  deriving DecidableEq

/-- `(key_parts_list, default_op, field_specs)`. -/
structure ParsedGroup where
  keys : List Path
  op : Option (List Char)
  fields : Option (List FieldSpec)

/-- A path without its trailing operator. -/
def cutOp (parts : Path) : Path × Option (List Char) :=
  match parts.getLast? with
  | none => (parts, none)
  | some last =>
    if last = GROUP_LIST_OP then (parts.dropLast, none)
    else if last ∈ TRANSFORM_OPS then (parts.dropLast, some last)
    else (parts, none)

/-- `'.'.join(pp for pp in parts if pp not in TRANSFORM_OPS) or '_val'`. -/
def baseName (parts : Path) : List Char :=
  match ['.'].intercalate (parts.filter fun p => p ∉ TRANSFORM_OPS) with
  | [] => VAL_FIELD
  | name => name

/-- The name with its operator. -/
def opName (parts : Path) : List Char :=
  baseName (cutOp parts).1 ++ '.' :: (cutOp parts).2.getD GROUP_LIST_OP

/-- The name of a field when some names are used already. -/
def fieldName (used : List (List Char)) (parts : Path) : List Char :=
  if baseName (cutOp parts).1 ∈ used then opName parts else baseName (cutOp parts).1

/-- The loop over the fields of a dictionary spec. -/
def nameFields : List (List Char) → List Path → List FieldSpec
  | _, [] => []
  | used, parts :: rest =>
    ⟨(cutOp parts).1, (cutOp parts).2, fieldName used parts⟩ :: nameFields (fieldName used parts :: used) rest

/-- The elements of a list spec: keys, and operators that stand alone. -/
def listSpecs : List Path → List Path × Option (List Char) → List Path × Option (List Char)
  | [], acc => acc
  | [part] :: rest, (keys, op) =>
    if part = GROUP_LIST_OP then listSpecs rest (keys, none)
    else if part ∈ TRANSFORM_OPS then listSpecs rest (keys, some part)
    else listSpecs rest (keys ++ [[part]], op)
  | parts :: rest, (keys, op) => listSpecs rest (keys ++ [parts], op)

/-- `parse_group_by`. -/
def parseGroupBy : GroupBy → Except PyErr ParsedGroup
  | .dict [(kspec, fspecs)] => do
    let keys ← (match kspec with
      | .one s => [s]
      | .tuple ss => ss).mapM GroupSpec.split
    let fields ← (match fspecs with
      | .inl s => [s]
      | .inr ss => ss).mapM GroupSpec.split
    if keys = [] then .error .value else return ⟨keys, none, some (nameFields [] fields)⟩
  | .dict _ => .error .value
  | .list ss => do
    let parts ← ss.mapM GroupSpec.split
    let (keys, op) := listSpecs parts ([], none)
    if keys = [] then .error .value else return ⟨keys, op, none⟩
  | .spec s => do
    let parts ← s.split
    let (path, op) := cutOp parts
    if path = [] ∨ path = [[]] then .error .value else return ⟨[path], op, none⟩

/-! ## Paths -/

namespace GroupEnv

variable (e : GroupEnv)

/-- A path from a value on. -/
def descend : Path → PyVal → Except PyErr (Option PyVal)
  | [], cur => .ok (some cur)
  | part :: rest, cur =>
    if part ∈ TRANSFORM_OPS then
      match e.transform part cur with
      | .error x => .error x
      | .ok none => .ok none
      | .ok (some cur) => descend rest cur
    else
      match cur with
      | .dict kvs =>
        match PyVal.lookup kvs part with
        | none => .ok none
        | some cur => descend rest cur
      | .list xs | .tuple xs =>
        match pyInt part with
        | none => .ok none
        | some i =>
          match PyVal.getItem xs i with
          | none => .ok none
          | some cur => descend rest cur
      | _ => .ok none

/-- `_resolve_group_path`; nothing where the path leads nowhere. -/
def resolveGroupPath (parts : Path) (row : DataRow) : Except PyErr (Option PyVal) :=
  match parts with
  | [] => .ok (some row.val)
  | root :: rest =>
    if root = "_id".toList then e.descend rest row.key
    else if root = "_date".toList then e.descend rest (.tuple [.date row.cdate, .date row.mdate])
    else if root = [] then e.descend rest row.val
    else if root ∈ TRANSFORM_OPS then
      match e.transform root row.val with
      | .error x => .error x
      | .ok none => .ok none
      | .ok (some cur) => e.descend rest cur
    else
      match row.val with
      | .dict kvs =>
        match PyVal.lookup kvs root with
        | none => .ok none
        | some cur => e.descend rest cur
      | _ => .ok none

/-! ## Groups -/

/-- The group key of a row: of several paths a tuple, `None` where a path leads nowhere. -/
def groupKey (keys : List Path) (row : DataRow) : Except PyErr PyVal := do
  let gkey ← keys.mapM fun parts => (e.resolveGroupPath parts row).map fun v => v.getD .none
  return match gkey with
    | [g] => g
    | gs => .tuple gs

/-- What a group is found by: a key that cannot be hashed is its text. -/
def groupIdent (g : PyVal) : PyVal := if g.hashable then g else .str (e.str g)

/-- The rows with their group keys. -/
def keyRows (keys : List Path) (rows : List DataRow) : Except PyErr (List (PyVal × DataRow)) :=
  rows.mapM fun row => (e.groupKey keys row).map fun g => (g, row)

/-- The groups, in the order they are first seen. -/
def groupRows (keyed : List (PyVal × DataRow)) : List (PyVal × List DataRow) :=
  Buckets.collect PyVal.pyEq (keyed.map fun x => (e.groupIdent x.1, x.2))

/-- The roots that are left out of the fields: group keys of a single segment. -/
def excludedRoots (keys : List Path) : List (List Char) :=
  keys.filterMap fun parts =>
    match parts with
    | [root] =>
      if root = [] ∨ root = "_id".toList ∨ root = "_date".toList ∨ root ∈ TRANSFORM_OPS then none else some root
    | _ => none

def isExcluded (excluded : List (List Char)) : PyVal → Bool
  | .str s => s ∈ excluded
  | _ => false

/-- The fields of a value, or the value itself under a name of its own. -/
def rowFields (excluded : List (List Char)) (row : DataRow) : List (PyVal × PyVal) :=
  match row.val with
  | .dict kvs => kvs.filter fun kv => !isExcluded excluded kv.1
  | v => [(.str VAL_FIELD, v)]

/-- The collected fields of a group. -/
def autoFields (excluded : List (List Char)) (rows : List DataRow) : List (PyVal × List PyVal) :=
  Buckets.collect PyVal.pyEq (rows.flatMap (rowFields excluded))

/-- `_apply_transform(op, items)` where there is an operator. -/
def aggregate (op : Option (List Char)) (items : List PyVal) : Except PyErr PyVal :=
  match op with
  | none => .ok (.list items)
  | some op => (e.transform op (.list items)).map fun v => v.getD .none

/-- The value made of collected fields: values that are no dictionaries stay on their own. -/
def wrapFields : List (PyVal × PyVal) → PyVal
  | [] => .none
  | [(.str name, v)] => if name = VAL_FIELD then v else .dict [(.str name, v)]
  | entries => .dict entries

/-- The value of a group without field specs. -/
def autoValue (excluded : List (List Char)) (op : Option (List Char)) (rows : List DataRow) : Except PyErr PyVal :=
  ((autoFields excluded rows).mapM fun f => (e.aggregate op f.2).map fun v => (f.1, v)).map wrapFields

/-- The value of a field over the rows of a group. -/
def fieldValue (f : FieldSpec) (rows : List DataRow) : Except PyErr PyVal := do
  let items ← rows.mapM (e.resolveGroupPath f.path)
  e.aggregate f.op (items.filterMap id)

/-- The fields of a group, one after the other. -/
def explicitFields (rows : List DataRow) :
    List FieldSpec → OrdDict (List Char) PyVal → Except PyErr (OrdDict (List Char) PyVal)
  | [], gout => .ok gout
  | f :: fs, gout =>
    match e.fieldValue f rows with
    | .error x => .error x
    | .ok v => explicitFields rows fs (gout.set f.name v)

/-- The value of a group with field specs. -/
def explicitValue (fs : List FieldSpec) (rows : List DataRow) : Except PyErr PyVal :=
  (e.explicitFields rows fs OrdDict.empty).map fun gout => .dict (gout.entries.map fun kv => (.str kv.1, kv.2))

/-- The row of a group: the dates are the first and the last ones of its rows. -/
def groupRow (p : ParsedGroup) (gval : PyVal) (rows : List DataRow) : Except PyErr DataRow := do
  let gout ← match p.fields with
    | none => e.autoValue (excludedRoots p.keys) p.op rows
    | some fs => e.explicitValue fs rows
  return ⟨gval, gout, (rows.map DataRow.cdate).min?.getD 0, (rows.map DataRow.mdate).max?.getD 0,
    (rows.map DataRow.modId).max?.getD 0⟩

/-- `grouped_by_rules`. -/
def groupedByRules (rows : List DataRow) (p : ParsedGroup) : Except PyErr (List DataRow) :=
  if p.keys = [] ∨ rows = [] then .ok rows
  else do
    let keyed ← e.keyRows p.keys rows
    (e.groupRows keyed).mapM fun g => e.groupRow p g.1 g.2

end GroupEnv

end OmniJsonDb
