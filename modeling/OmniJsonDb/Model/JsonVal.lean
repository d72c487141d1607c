import OmniJsonDb.Lib.Hex
import OmniJsonDb.Model.Value

/-!
# The JSON value codec

`JIoVAL_J`: what JSON cannot carry goes through `_json_default`, which writes bytes as a marked
hexadecimal text with a check byte; `loads` looks for the marker again. The JSON library is a
parameter, and so are its numbers.

* `JsonArg.lower`: the JSON value that the library writes for a Python value.
* `restore`: what `loads` makes of a JSON value.
-/

namespace OmniJsonDb

open Hex (Point)

variable {ν : Type}

/-- A JSON value. -/
inductive Json (ν : Type) where
  | null
  | bool (b : Bool)
  | num (n : ν)
  | str (s : List Point)
  | arr (xs : List (Json ν))
  | obj (kvs : List (List Point × Json ν))

/-- A Python value that is to be written; `obj` is of a type that JSON does not know. -/
inductive JsonArg (ν : Type) where
  | null
  | bool (b : Bool)
  | num (n : ν)
  | str (s : List Point)
  | bytes (b : Bytes)
  | bytearray (b : Bytes)
  | list (xs : List (JsonArg ν))
  | tuple (xs : List (JsonArg ν))
  | set (xs : List (JsonArg ν))
  | frozenset (xs : List (JsonArg ν))
  | dict (kvs : List (List Point × JsonArg ν))
  | obj (id : ℕ)

/-- The JSON library: writing and reading. -/
structure JsonLib (ν : Type) where
  dumps : Json ν → Except Err Bytes
  loads : Bytes → Except Err (Json ν)

/-- The library reads a value back as it was. -/
def JsonLib.Carries (lib : JsonLib ν) (j : Json ν) : Prop := ∃ b, lib.dumps j = .ok b ∧ lib.loads b = .ok j

/-! ## Bytes in JSON -/

/-- `'\0\1\0\1'`. -/
def marker : List Point := [0, 1, 0, 1]

/-- `reduce(lambda x,y: (x+y) & 0xff, bs)`: there is no initial value. -/
def reduceSum : Bytes → Except Err ℕ
  | [] => .error .type
  | b :: bs => .ok (bs.foldl (fun x y => (x + y.toNat) &&& 0xff) b.toNat)

/-- The text for bytes: marker, digits, check byte. -/
def markBytes (b : Bytes) : Except Err (List Point) :=
  match reduceSum b with
  | .error e => .error e
  | .ok chk => .ok (marker ++ Hex.encode b ++ Hex.encode [((256 - chk) &&& 0xff).toUInt8])

namespace JsonArg

mutual

/-- The JSON value that is written; what JSON does not know goes through `_json_default`. -/
def lower : JsonArg ν → Except Err (Json ν)
  | null => .ok .null
  | bool b => .ok (.bool b)
  | num n => .ok (.num n)
  | str s => .ok (.str s)
  | bytes b => (markBytes b).map .str
  | bytearray b => (markBytes b).map .str
  | list xs => (lowerAll xs).map .arr
  | tuple xs => (lowerAll xs).map .arr
  | set xs => (lowerAll xs).map .arr
  | frozenset xs => (lowerAll xs).map .arr
  | dict kvs => (lowerItems kvs).map .obj
  | obj _ => .error .type

def lowerAll : List (JsonArg ν) → Except Err (List (Json ν))
  | [] => .ok []
  | x :: xs =>
    match lower x with
    | .error e => .error e
    | .ok j => (lowerAll xs).map (j :: ·)

def lowerItems : List (List Point × JsonArg ν) → Except Err (List (List Point × Json ν))
  | [] => .ok []
  | (k, x) :: kvs =>
    match lower x with
    | .error e => .error e
    | .ok j => (lowerItems kvs).map ((k, j) :: ·)

end

mutual

/-- The Python value that the library makes of a JSON value. -/
def ofJson : Json ν → JsonArg ν
  | .null => null
  | .bool b => bool b
  | .num n => num n
  | .str s => str s
  | .arr xs => list (ofJsonAll xs)
  | .obj kvs => dict (ofJsonItems kvs)

def ofJsonAll : List (Json ν) → List (JsonArg ν)
  | [] => []
  | j :: js => ofJson j :: ofJsonAll js

def ofJsonItems : List (List Point × Json ν) → List (List Point × JsonArg ν)
  | [] => []
  | (k, j) :: kvs => (k, ofJson j) :: ofJsonItems kvs

end

end JsonArg

/-! ## The codec -/

/-- What `loads` returns for what the library has read: only a string is looked at. -/
def restore : Json ν → Except Err (JsonArg ν)
  | .str s =>
    if s.take 4 = marker then
      match Hex.decode (s.drop 4) with
      | none => .ok (.str s)
      | some bs =>
        match reduceSum bs with
        | .error _ => .error .value
        | .ok 0 => .ok (.bytes bs.dropLast)
        | .ok _ => .ok (.str s)
    else .ok (.str s)
  | j => .ok (JsonArg.ofJson j)

namespace JsonVal

variable (lib : JsonLib ν)

/-- `JIoVAL_J.dumps`; what is raised becomes a `JValueError`. -/
def dumps (v : JsonArg ν) : Except Err Bytes :=
  match v.lower with
  | .error _ => .error .value
  | .ok j =>
    match lib.dumps j with
    | .error _ => .error .value
    | .ok b => .ok b

/-- `JIoVAL_J.loads`. -/
def loads (b : Bytes) : Except Err (JsonArg ν) :=
  match lib.loads b with
  | .error _ => .error .value
  | .ok j => restore j

end JsonVal

end OmniJsonDb
