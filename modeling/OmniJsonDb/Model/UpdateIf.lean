import OmniJsonDb.Lib.OrdDict
import OmniJsonDb.Model.JDb

/-!
# Patching the records that match

`update_if`, after the search: what `find_iter` reports are the paths of records, each through the
groups it lies in, with the values they read as. Writes and deletions go to the database itself,
under the name of the path.

* `patchDict`, `patchChanges`: a value with a patch merged, and whether that is another one.
* `fWrite`, `fDelete`: what they do to the records of a database and its groups.
* `updateIf`: the plan, the writes and the deletions.
-/

namespace OmniJsonDb

/-- The groups a record lies in, and its own key. -/
abbrev RecPath := List Key

/-- A record: its value and flags; a link has a target, and its value is that of the target. -/
structure Rec where
  val : PyVal
  flags : ℕ
  target : Option RecPath := none

/-- The records of a database and of its groups. -/
abbrev Records := OrdDict RecPath Rec

/-- `'grp:::key'`. -/
def pathName (p : RecPath) : Key := JDb.SEP_SYM.intercalate p

/-! ## Patches -/

namespace PyVal

/-- `key in d`. -/
def hasKey (d : List (PyVal × PyVal)) (key : PyVal) : Bool := d.any fun kv => pyEq kv.1 key

/-- `d.get(key)`. -/
def getKey (d : List (PyVal × PyVal)) (key : PyVal) : Option PyVal :=
  (d.find? fun kv => pyEq kv.1 key).map Prod.snd

/-- `d.pop(key, None)`. -/
def popKey (d : List (PyVal × PyVal)) (key : PyVal) : List (PyVal × PyVal) := d.filter fun kv => !pyEq kv.1 key

/-- `d[key] = v`. -/
def setKey (d : List (PyVal × PyVal)) (key v : PyVal) : List (PyVal × PyVal) :=
  if hasKey d key then d.map fun kv => if pyEq kv.1 key then (kv.1, v) else kv else d ++ [(key, v)]

end PyVal

open PyVal (pyEq hasKey getKey popKey setKey)

/-- The loop over a patch. -/
def patchDict : List (PyVal × PyVal) → List (PyVal × PyVal) → List (PyVal × PyVal)
  | [], d => d
  | (kk, .none) :: rest, d => patchDict rest (popKey d kk)
  | (kk, vv) :: rest, d => patchDict rest (setKey d kk vv)

/-- `new_val != val`: what the patch does not name is the same in both. -/
def patchChanges (patch d : List (PyVal × PyVal)) : Bool :=
  patch.any fun kv =>
    match kv.2 with
    | .none => hasKey d kv.1
    | v =>
      match getKey d kv.1 with
      | none => true
      | some old => !pyEq v old

/-- What is to be done with a record. -/
inductive Todo where
  | skip
  | del
  | chg (val : PyVal)

/-- The plan for a value and its patch. -/
def todo (patch : PyVal) (d : List (PyVal × PyVal)) : Todo :=
  if pyEq patch (.dict d) then .skip
  else
    match patch with
    | .none => .del
    | .dict kvs =>
      if kvs = [] then .skip
      else if patchChanges kvs d then .chg (.dict (patchDict kvs d)) else .skip
    | _ => .skip

/-! ## Records -/

namespace Records

variable (s : Records)

/-- The row of a record that a value is read from and written to: that of a link is its target's. -/
def holder (p : RecPath) : Option RecPath :=
  match s.get? p with
  | none => none
  | some r =>
    match r.target with
    | none => some p
    | some t =>
      match s.get? t with
      | none => none
      | some q => if q.target.isSome then none else some t

/-- The value a record reads as. -/
def read (p : RecPath) : Option PyVal := ((s.holder p).bind s.get?).map Rec.val

/-- READ_ONLY and APPEND_ONLY of a row, when `val` is written to it. -/
def refused (r : Rec) (val : PyVal) : Bool :=
  has r.flags READ_ONLY || has r.flags APPEND_ONLY && !r.val.isValueExtension val

/-- The end of `f_write`: the row takes the value, unless its flags refuse it. -/
def writeRow (p : RecPath) (val : PyVal) : Records :=
  match s.get? p with
  | none => s
  | some r => if refused r val then s else s.set p { r with val := val }

/-- `f_write`. A key that is not there is added; a link is followed, unless it is READ_ONLY itself. -/
def fWrite (key : Key) (val : PyVal) : Records :=
  match s.get? [key] with
  | none => s.set [key] ⟨val, 0, none⟩
  | some r =>
    if has r.flags READ_ONLY then s
    else
      match s.holder [key] with
      | none => s
      | some t => s.writeRow t val

/-- `f_delete`; a record that is locked stays. -/
def fDelete (key : Key) : Records :=
  match s.get? [key] with
  | none => s
  | some r => if has r.flags DELETE_LOCK_MASK then s else s.pop [key]

/-- The plans of the records that were found, under the names they were reported by. -/
def plans (found : List RecPath) (patch : Key → PyVal → PyVal) : List (Key × Todo) :=
  found.filterMap fun p =>
    match s.read p with
    | some (.dict d) => some (pathName p, todo (patch (pathName p) (.dict d)) d)
    | _ => none

/-- `chg_keys`. -/
def chgKeys (ps : List (Key × Todo)) : List (Key × PyVal) :=
  ps.filterMap fun x =>
    match x.2 with
    | .chg v => some (x.1, v)
    | _ => none

/-- `del_keys`. -/
def delKeys (ps : List (Key × Todo)) : List Key :=
  ps.filterMap fun x =>
    match x.2 with
    | .del => some x.1
    | _ => none

/-- `update_if`: every write counts, and every deletion of a key that the key table has. -/
def updateIf (found : List RecPath) (patch : Key → PyVal → PyVal) : ℕ × Records :=
  let ps := s.plans found patch
  let s₁ := (chgKeys ps).foldl (fun s x => fWrite s x.1 x.2) s
  let dels := (delKeys ps).filter fun key => s₁.contains [key]
  ((chgKeys ps).length + dels.length, dels.foldl fDelete s₁)

end Records

end OmniJsonDb
