import Mathlib.Data.Int.Notation
import Mathlib.Data.List.Defs
import OmniJsonDb.Model.Value

/-!
# Dataclasses and records

A dataclass is stored as a dictionary: its fields are encoded into what a codec accepts, and the
annotations of the class make values of them again. The field `id` becomes the key of the record.

* `encode`, `decode`: `_encode` and `_decode`.
* `dcKey`, `dcToDict`, `dcValue`, `dcFill`: the record of an instance, and back.
-/

namespace OmniJsonDb

namespace Dataclass

/-! ## Values and annotations -/

/-- The standard types that are stored as text. -/
inductive StdType where
  | date
  | datetime
  | time
  | uuid
  | decimal
  | path
  deriving DecidableEq, Repr

/-- A value of a field. A standard value is known by a number, a member of an `Enum` has its
value with it, an instance has its fields in the order of its class. -/
inductive Val where
  | none
  | bool (b : Bool)
  | int (i : ℤ)
  | float (bits : BitVec 64)
  | str (s : List Char)
  | bytes (b : Bytes)
  | std (t : StdType) (id : ℕ)
  | enum (cls member : ℕ) (value : Val)
  | inst (cls : ℕ) (fields : List Val)
  | list (xs : List Val)
  | tuple (xs : List Val)
  | set (xs : List Val)
  | frozenset (xs : List Val)
  | dict (kvs : List (Val × Val))

/-- An annotation; `any` is also a missing one, and one that does not resolve to a type. -/
inductive Hint where
  | any
  | noneType
  | bool
  | int
  | float
  | str
  | bytes
  | std (t : StdType)
  | enum (cls : ℕ)
  | inst (cls : ℕ)
  | list (h : Hint)
  /-- `Tuple[h, ...]`. -/
  | tupleOf (h : Hint)
  | tuple (hs : List Hint)
  | set (h : Hint)
  | frozenset (h : Hint)
  | dict (k v : Hint)
  | union (hs : List Hint)

/-- What is raised; `other` is what `except (TypeError, ValueError, KeyError)` lets through. -/
inductive DcErr where
  | type
  | value
  | key
  | attribute
  | other
  | recursion
  deriving DecidableEq, Repr

def DcErr.caught : DcErr → Bool
  | .type | .value | .key => true
  | _ => false

/-- A field, with what it is when nothing is stored for it. -/
structure Field where
  name : List Char
  hint : Hint
  default : Option Val := none

/-- The fields of a class that `dataclass` wrote the `__init__` of. -/
structure DcClass where
  fields : List Field
  nodup : (fields.map Field.name).Nodup

/-- The `Enum` is also a `str` or an `int`. -/
inductive Mixin where
  | plain
  | str
  | int
  deriving DecidableEq, Repr

/-- The classes, and what the types themselves do. -/
structure Env where
  classes : ℕ → DcClass
  /-- `str(..)`. -/
  str : Val → List Char
  /-- `isoformat()`. -/
  isoformat : StdType → ℕ → List Char
  /-- `fromisoformat(..)`, or the type called. -/
  parse : StdType → Val → Except DcErr Val
  toInt : Val → Except DcErr Val
  toFloat : Val → Except DcErr Val
  truthy : Val → Bool
  /-- An `Enum` class called. -/
  enum : ℕ → Val → Except DcErr Val
  mixin : ℕ → Mixin
  eq : Val → Val → Bool
  hashable : Val → Bool
  str_str : ∀ s, str (.str s) = s
  toInt_int : ∀ i, toInt (.int i) = .ok (.int i)
  isInt : ∀ v w, toInt v = .ok w → ∃ i, w = .int i
  toFloat_float : ∀ bits, toFloat (.float bits) = .ok (.float bits)
  truthy_bool : ∀ b, truthy (.bool b) = b
  truthy_str : ∀ s, truthy (.str s) = decide (s ≠ [])
  eq_str : ∀ s t, eq (.str s) (.str t) = decide (s = t)
  hashable_str : ∀ s, hashable (.str s) = true

variable (e : Env)

/-! ## Building sets and dictionaries -/

/-- `set(..)` of what is left, behind what is in it. -/
def addAll (acc : List Val) : List Val → Except DcErr (List Val)
  | [] => .ok acc
  | x :: xs =>
    if e.hashable x then addAll (if acc.any (fun y => e.eq y x) then acc else acc ++ [x]) xs
    else .error .type

/-- `d[key] = val`. -/
def setItem (key val : Val) : List (Val × Val) → List (Val × Val)
  | [] => [(key, val)]
  | (k, v) :: kvs => if e.eq k key then (k, val) :: kvs else (k, v) :: setItem key val kvs

/-- `{k: v, ..}` of what is left, behind what is in it. -/
def setItems (acc : List (Val × Val)) : List (Val × Val) → Except DcErr (List (Val × Val))
  | [] => .ok acc
  | (k, v) :: kvs => if e.hashable k then setItems (setItem e k v acc) kvs else .error .type

/-- `d.get(name)` for a text. -/
def getItem (name : List Char) (kvs : List (Val × Val)) : Option Val :=
  (kvs.find? fun kv => e.eq kv.1 (.str name)).map Prod.snd

/-! ## Encoding -/

/-- The text that a standard value is stored as. -/
def stdText (t : StdType) (id : ℕ) : List Char :=
  match t with
  | .date | .datetime | .time => e.isoformat t id
  | .uuid | .decimal | .path => e.str (.std t id)

/-- A key stays when it is a `str` or an `int`. -/
def encodeKey (k : Val) : Val :=
  match k with
  | .str _ | .int _ | .bool _ => k
  | .enum cls _ _ => if e.mixin cls = .plain then .str (e.str k) else k
  | _ => .str (e.str k)

mutual

/-- `_encode`. -/
def encode : Val → Except DcErr Val
  | .enum _ _ value => encode value
  | .inst cls fields => do
    let vals ← encodeAll fields
    return .dict ((((e.classes cls).fields.map fun f => Val.str f.name)).zip vals)
  | .dict kvs => do
    let items ← encodeItems kvs
    return .dict (← setItems e [] items)
  | .list xs => do return .list (← encodeAll xs)
  | .tuple xs => do return .list (← encodeAll xs)
  | .set xs => do
    let ys ← encodeAll xs
    return .set (← addAll e [] ys)
  | .frozenset xs => do
    let ys ← encodeAll xs
    return .set (← addAll e [] ys)
  | .std t id => .ok (.str (stdText e t id))
  | .none => .ok .none
  | .bool b => .ok (.bool b)
  | .int i => .ok (.int i)
  | .float bits => .ok (.float bits)
  | .str s => .ok (.str s)
  | .bytes b => .ok (.bytes b)

def encodeAll : List Val → Except DcErr (List Val)
  | [] => .ok []
  | x :: xs => do
    let y ← encode x
    let ys ← encodeAll xs
    return y :: ys

def encodeItems : List (Val × Val) → Except DcErr (List (Val × Val))
  | [] => .ok []
  | (k, v) :: kvs => do
    let w ← encode v
    let rest ← encodeItems kvs
    return (encodeKey e k, w) :: rest

end

/-! ## Decoding -/

/-- What iterating over a value gives. -/
def members : Val → Except DcErr (List Val)
  | .list xs | .tuple xs | .set xs | .frozenset xs => .ok xs
  | .dict kvs => .ok (kvs.map Prod.fst)
  | .str s => .ok (s.map fun c => .str [c])
  | .bytes b => .ok (b.map fun x => .int x.toNat)
  | _ => .error .type

/-- The value is an instance of the standard type; a `datetime` is also a `date`. -/
def isStd (t : StdType) : Val → Bool
  | .std t' _ => t' = t || (t = .date && t' = .datetime)
  | _ => false

/-- `int(..)` and `float(..)`, where a `bool` and what cannot be converted is left as it is. -/
def decodeNumber (convert : Val → Except DcErr Val) (v : Val) : Except DcErr Val :=
  match v with
  | .bool _ => .ok v
  | _ =>
    match convert v with
    | .ok w => .ok w
    | .error .type | .error .value => .ok v
    | .error err => .error err

/-- The annotations that name a type without parts. -/
def decodeScalar (v : Val) : Hint → Except DcErr Val
  | .enum cls => e.enum cls v
  | .bool => .ok (.bool (e.truthy v))
  | .std t => if isStd t v then .ok v else e.parse t v
  | .int => decodeNumber e.toInt v
  | .float => decodeNumber e.toFloat v
  | .str =>
    match v with
    | .str _ => .ok v
    | .enum cls _ _ => if e.mixin cls = .str then .ok v else .error .value
    | _ => .error .value
  | .bytes =>
    match v with
    | .bytes _ => .ok v
    | _ => .error .value
  | _ => .ok v

section Parts

/-! `dec` is the decoder itself, a call deeper. -/

variable (dec : Val → Hint → Except DcErr Val)

/-- The first member of a `Union` that takes the value. -/
def decodeUnion (v : Val) : List Hint → Except DcErr Val
  | [] => .ok v
  | .noneType :: hs => decodeUnion v hs
  | h :: hs =>
    match dec v h with
    | .ok w => .ok w
    | .error err => if err.caught then decodeUnion v hs else .error err

def decodeItems (kh vh : Hint) : List (Val × Val) → Except DcErr (List (Val × Val))
  | [] => .ok []
  | (k, v) :: kvs => do
    let k ← dec k kh
    let v ← dec v vh
    let rest ← decodeItems kh vh kvs
    return (k, v) :: rest

/-- One argument of `_build`. -/
def buildField (kvs : List (Val × Val)) (f : Field) : Except DcErr Val :=
  match getItem e f.name kvs with
  | none => f.default.elim (.error .value) .ok
  | some v => dec v f.hint

/-- An annotation by its origin. -/
def decodeStep (v : Val) : Hint → Except DcErr Val
  | .any | .noneType => .ok v
  | .union hs => decodeUnion dec v hs
  | .list h => do
    let xs ← members v
    return .list (← xs.mapM fun x => dec x h)
  | .tupleOf h => do
    let xs ← members v
    return .tuple (← xs.mapM fun x => dec x h)
  | .tuple [] => do
    let xs ← members v
    return .tuple (← xs.mapM fun x => dec x .any)
  | .tuple hs => do
    let xs ← members v
    return .tuple (← (xs.zip hs).mapM fun p => dec p.1 p.2)
  | .set h => do
    let xs ← members v
    let ys ← xs.mapM fun x => dec x h
    return .set (← addAll e [] ys)
  | .frozenset h => do
    let xs ← members v
    let ys ← xs.mapM fun x => dec x h
    return .frozenset (← addAll e [] ys)
  | .dict kh vh =>
    match v with
    | .dict kvs => do
      let items ← decodeItems dec kh vh kvs
      return .dict (← setItems e [] items)
    | _ => .error .attribute
  | .inst cls =>
    match v with
    | .dict kvs => do return .inst cls (← (e.classes cls).fields.mapM (buildField e dec kvs))
    | _ => .error .value
  | h => decodeScalar e v h

end Parts

/-- `_decode`; `limit` is how many calls of it may be nested. -/
def decode : ℕ → Val → Hint → Except DcErr Val
  | 0, _, _ => .error .recursion
  | limit + 1, v, h =>
    match v with
    | .none => .ok .none
    | _ => decodeStep e (decode limit) v h

/-! ## Records -/

/-- `DC_ID`. -/
def DC_ID : List Char := "id".toList

def hasId (c : DcClass) : Bool := c.fields.any fun f => f.name = DC_ID

/-- `getattr(obj, 'id')`. -/
def getId (c : DcClass) (obj : List Val) : Val :=
  ((c.fields.zip obj).find? fun p => p.1.name = DC_ID).elim .none Prod.snd

/-- The text of an `id`; empty for `None`. -/
def idText (id : Val) : List Char :=
  match id with
  | .none => []
  | _ => e.str id

/-- `dc_key`. -/
def dcKey (c : DcClass) (obj : List Val) : Except DcErr (List Char) :=
  if !hasId c then .error .value
  else if idText e (getId c obj) = [] then .error .value
  else .ok (idText e (getId c obj))

/-- `dc_to_dict`. -/
def dcToDict (c : DcClass) (obj : List Val) (withId : Bool := false) : Except DcErr (List (Val × Val)) := do
  let names := (c.fields.zip obj).filter fun p => p.1.name ≠ DC_ID
  let vals ← encodeAll e (names.map Prod.snd)
  let doc := (names.map fun p => Val.str p.1.name).zip vals
  if withId then
    if !hasId c then .error .value
    else return setItem e (.str DC_ID) (← encode e (getId c obj)) doc
  else return doc

/-- `dc_value`; the key need not be a text. -/
def dcValue (c : DcClass) (obj : List Val) (key : Val) : Except DcErr (List (Val × Val)) :=
  let id := if hasId c then getId c obj else .none
  dcToDict e c obj (idText e id ≠ [] && !e.eq (.str (idText e id)) key)

/-- A field that is not the `id`; one that is not stored stays. -/
def fillField (limit : ℕ) (doc : List (Val × Val)) (f : Field) (v : Val) : Except DcErr Val :=
  if f.name = DC_ID then .ok v
  else (getItem e f.name doc).elim (.ok v) fun w => decode e limit w f.hint

def fillFields (limit : ℕ) (doc : List (Val × Val)) : List (Field × Val) → Except DcErr (List Val)
  | [] => .ok []
  | (f, v) :: rest => do
    let w ← fillField e limit doc f v
    let ws ← fillFields limit doc rest
    return w :: ws

/-- The `id`: a stored one wins over the key. -/
def fillIdField (limit : ℕ) (doc : List (Val × Val)) (key : List Char) (f : Field) (v : Val) : Except DcErr Val :=
  if f.name = DC_ID then decode e limit ((getItem e DC_ID doc).getD (.str key)) f.hint else .ok v

def fillId (limit : ℕ) (doc : List (Val × Val)) (key : List Char) : List (Field × Val) → Except DcErr (List Val)
  | [] => .ok []
  | (f, v) :: rest => do
    let w ← fillIdField e limit doc key f v
    let ws ← fillId limit doc key rest
    return w :: ws

/-- `dc_fill` with a key. -/
def dcFill (limit : ℕ) (c : DcClass) (blank : List Val) (doc : List (Val × Val)) (key : List Char) :
    Except DcErr (List Val) := do
  let obj ← fillFields e limit doc (c.fields.zip blank)
  if !hasId c then .error .value
  else fillId e limit doc key (c.fields.zip obj)

end Dataclass

end OmniJsonDb
