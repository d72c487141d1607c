import Mathlib.Tactic.Ring
import OmniJsonDb.Model.Row

/-!
# Values

Python values as far as the store looks at them, `==` between them, the growth
test of APPEND_ONLY records, and the packing of small values into a KEY row.

* `pyEq`: `==`; numbers compare by value, so `True == 1 == 1.0`.
* `isValueExtension`: `new` only adds to `old`.
* `encodeRow`, `decodeRow`: inline or to a VAL file.
-/

namespace OmniJsonDb

abbrev Bytes := List UInt8

/-- A value. A float and the time of a `datetime` are their 64 bits, a date is its
ordinal; `jdb` is another database (in memory or not) and its path. -/
inductive PyVal where
  | none
  | bool (b : Bool)
  | int (i : ℤ)
  | float (bits : ℕ)
  | str (s : List Char)
  | bytes (b : Bytes)
  | bytearray (b : Bytes)
  | list (xs : List PyVal)
  | tuple (xs : List PyVal)
  | set (xs : List PyVal)
  | dict (kvs : List (PyVal × PyVal))
  | date (ordinal : ℕ)
  | datetime (ts : ℕ)
  | jdb (mem : Bool) (path : Key)
  | obj (id : ℕ)

namespace PyVal

/-! ## Equality -/

/-- The value of a number; a finite one in units of `2 ^ -1074`. -/
inductive Num where
  | fin (scaled : ℤ)
  | inf (neg : Bool)
  | nan
  deriving DecidableEq

def floatNum (bits : ℕ) : Num :=
  let neg := bits / 2 ^ 63 % 2 = 1
  let e : ℕ := bits / 2 ^ 52 % 2048
  let m : ℕ := bits % 2 ^ 52
  if e = 2047 then (if m = 0 then .inf neg else .nan)
  else
    let mag : ℤ := if e = 0 then m else (m + 2 ^ 52) * 2 ^ (e - 1)
    .fin (if neg then -mag else mag)

def numOf : PyVal → Option Num
  | bool b => some (.fin (if b then 2 ^ 1074 else 0))
  | int i => some (.fin (i * 2 ^ 1074))
  | float bits => some (floatNum bits)
  | _ => Option.none

def Num.eq : Num → Num → Bool
  | .fin a, .fin b => a = b
  | .inf a, .inf b => a = b
  | _, _ => false

/-- `==` of two values that are not containers. -/
def atomEq (a b : PyVal) : Bool :=
  match numOf a, numOf b with
  | some m, some n => m.eq n
  | _, _ =>
    match a, b with
    | none, none => true
    | str s, str t => s = t
    | bytes s, bytes t => s = t
    | bytes s, bytearray t => s = t
    | bytearray s, bytes t => s = t
    | bytearray s, bytearray t => s = t
    | date m, date n => m = n
    | datetime m, datetime n => floatNum m = floatNum n
    | jdb m p, jdb n q => m = n && p = q
    | obj m, obj n => m = n
    | _, _ => false

mutual

/-- Python's `==`. -/
def pyEq : PyVal → PyVal → Bool
  | list xs, list ys => pyEqAll xs ys
  | tuple xs, tuple ys => pyEqAll xs ys
  | set xs, set ys => xs.length = ys.length && pyAllIn xs ys
  | dict xs, dict ys => xs.length = ys.length && pyItemsIn xs ys
  | a, b => atomEq a b

/-- Two sequences of equal values. -/
def pyEqAll : List PyVal → List PyVal → Bool
  | [], [] => true
  | x :: xs, y :: ys => pyEq x y && pyEqAll xs ys
  | _, _ => false

/-- Every value of the first list is `in` the second. -/
def pyAllIn : List PyVal → List PyVal → Bool
  | [], _ => true
  | x :: xs, ys => ys.any (fun y => pyEq x y) && pyAllIn xs ys

/-- Every item of the first dictionary is one of the second. -/
def pyItemsIn : List (PyVal × PyVal) → List (PyVal × PyVal) → Bool
  | [], _ => true
  | (k, v) :: xs, ys => ys.any (fun y => pyEq k y.1 && pyEq v y.2) && pyItemsIn xs ys

end

/-- **Growth.** `new` is a strict extension of `old`. -/
def isValueExtension (old new : PyVal) : Bool :=
  match old, new with
  | none, none => false
  | none, _ => true
  | str s, str t => s.length < t.length && s.isPrefixOf t
  | bytes s, bytes t => s.length < t.length && s.isPrefixOf t
  | bytearray s, bytearray t => s.length < t.length && s.isPrefixOf t
  | list xs, list ys => xs.length < ys.length && pyEqAll (ys.take xs.length) xs
  | tuple xs, tuple ys => xs.length < ys.length && pyEqAll (ys.take xs.length) xs
  | dict xs, dict ys => xs.length < ys.length && pyItemsIn xs ys
  | set xs, set ys => xs.length < ys.length && pyAllIn xs ys
  | _, _ => false

def isJDb : PyVal → Bool
  | jdb _ _ => true
  | _ => false

end PyVal

/-! ## Packing -/

/-- The VAL codec of a database: `VAL_dumps`, `VAL_loads`, and the compression on top. -/
structure ValCodec where
  dumps : PyVal → Except Err Bytes
  dumps_ne : ∀ v b, dumps v = .ok b → b ≠ []
  loads : Bytes → Except Err PyVal
  /-- `zip_type == NO_ZIP`. -/
  noZip : Bool
  /-- `zip_type_str == 'gz'`. -/
  gz : Bool
  /-- Compress, at a time: gzip puts it into its header. -/
  zip : ℕ → Bytes → Bytes
  zip_ne : ∀ ts b, b ≠ [] → zip ts b ≠ []
  /-- Undo `zip` on exactly the bytes it made. -/
  unzip : Bytes → Except Err Bytes
  /-- Undo `zip` on bytes that may be padded. -/
  unzipPad : Bytes → Except Err Bytes
  padByte : UInt8
  pad0Byte : UInt8

/-- A little-endian number. -/
def leNat : Bytes → ℕ
  | [] => 0
  | b :: bs => b.toNat + 256 * leNat bs

/-- The first `n` bytes of a little-endian number. -/
def leBytes : ℕ → ℕ → Bytes
  | 0, _ => []
  | n + 1, x => UInt8.ofNat (x % 256) :: leBytes n (x / 256)

theorem leNat_append (a b : Bytes) : leNat (a ++ b) = leNat a + 256 ^ a.length * leNat b := by
  induction a with
  | nil => simp [leNat]
  | cons x a ih =>
    rw [List.cons_append, leNat, leNat, ih, List.length_cons, pow_succ]
    ring

theorem leNat_lt (a : Bytes) : leNat a < 256 ^ a.length := by
  induction a with
  | nil => simp [leNat]
  | cons x a ih =>
    have hx := x.toNat_lt
    rw [leNat, List.length_cons, pow_succ]
    omega

/-- A number in as many bytes as it was read from. -/
theorem leBytes_leNat {n : ℕ} {bs : Bytes} (h : bs.length = n) : leBytes n (leNat bs) = bs := by
  induction bs generalizing n with
  | nil => subst h; rfl
  | cons x bs ih =>
    subst h
    have hx : x.toNat < 256 := x.toNat_lt
    have hmod : (x.toNat + 256 * leNat bs) % 256 = x.toNat := by omega
    have hdiv : (x.toNat + 256 * leNat bs) / 256 = leNat bs := by omega
    rw [List.length_cons, leBytes, leNat, hmod, hdiv, UInt8.ofNat_toNat, ih rfl]

/-- `pad(data, max_size, no_zip=True)`. -/
def ValCodec.pad0 (c : ValCodec) (data : Bytes) (size : ℕ) : Bytes :=
  data ++ List.replicate (size - data.length) c.pad0Byte

/-- How a value is stored: in the KEY row, or in a VAL file. -/
inductive Enc where
  | head (typeId typeVal typeSize : ℕ)
  | value (data : Bytes)
  deriving DecidableEq

/-- The empties `_encode_row` tells apart by a bit. -/
def emptyCode : PyVal → Option ℕ
  | .none => some 0
  | .list [] => some 0x01
  | .dict [] => some 0x02
  | .set [] => some 0x04
  | .tuple [] => some 0x08
  | .str [] => some 0x10
  | .bytes [] => some 0x20
  | .bytearray [] => some 0x40
  | _ => Option.none

/-- Bytes for the row itself when they are few and the rows are wide enough for it. -/
def encodeBytes (c : ValCodec) (wide : Bool) (ts : ℕ) (data : Bytes) : Enc :=
  if wide ∧ data.length ≤ 8 then .head 0x08 (leNat (c.pad0 data 8)) data.length
  else if wide ∧ data.length ≤ 15 then
    let bs := c.pad0 data 15 ++ [1]
    .head (leNat (bs.drop 8)) (leNat (bs.take 8)) data.length
  else .value (if c.noZip then data else c.zip ts data)

/-- `_encode_row`. `wide` is `row_bytes >= 0`; `isGroup` tells the database's own group
files from others, `ts` is the time. -/
def encodeRow (c : ValCodec) (wide : Bool) (isGroup : Key → Key → Bool) (ts : ℕ) (key : Key)
    (val : PyVal) : Except Err Enc :=
  match emptyCode val with
  | some code => .ok (.head 0 code 0)
  | Option.none =>
    match val with
    | .jdb mem path =>
      if mem ∨ isGroup path key then .ok (.head 0x10 0 0)
      else
        match c.dumps (.str path) with
        | .error e => .error e
        | .ok data => .ok (.value (if c.noZip then data else c.zip ts data))
    | .bool b => .ok (.head 0x01 (if b then 1 else 0) 0)
    | .int i =>
      if i < 0 then
        if i < -(2 ^ 63) then .error .struct else .ok (.head 0x02 (i + 2 ^ 64).toNat 0)
      else .ok (.head 0x03 i.toNat 0)
    | .float bits => .ok (.head 0x04 bits 0)
    | .date ordinal => .ok (.head 0x18 ordinal 0)
    | .datetime ts => .ok (.head 0x19 ts 0)
    | _ =>
      match c.dumps val with
      | .error e => .error e
      | .ok data => .ok (encodeBytes c wide ts data)

/-- A value that goes to a VAL file takes bytes there. -/
theorem encodeRow_value_ne {c : ValCodec} {wide : Bool} {isGroup : Key → Key → Bool} {ts : ℕ}
    {key : Key} {val : PyVal} {data : Bytes}
    (h : encodeRow c wide isGroup ts key val = .ok (.value data)) : data ≠ [] := by
  have hzip {b : Bytes} (hb : b ≠ []) : (if c.noZip then b else c.zip ts b) ≠ [] := by
    split
    exacts [hb, c.zip_ne ts b hb]
  have hbytes {v : PyVal} {b : Bytes} (hv : c.dumps v = .ok b)
      (he : encodeBytes c wide ts b = .value data) : data ≠ [] := by
    unfold encodeBytes at he
    split at he
    · cases he
    · split at he
      · cases he
      · cases he; exact hzip (c.dumps_ne v b hv)
  unfold encodeRow at h
  split at h
  · cases h
  · split at h
    · split at h
      · cases h
      · split at h
        · cases h
        · rename_i hd; cases h; exact hzip (c.dumps_ne _ _ hd)
    · cases h
    · split at h
      · split at h <;> cases h
      · cases h
    · cases h
    · cases h
    · cases h
    · split at h
      · cases h
      · rename_i hd
        exact hbytes hd (Except.ok.inj h)

/-- `_decode_row`. -/
def decodeRow (c : ValCodec) (fileId offset valSize : ℕ) : Except Err PyVal :=
  if fileId = 0 ∧ offset = 0 then .ok .none
  else if fileId = 0 ∧ offset = 0x01 then .ok (.list [])
  else if fileId = 0 ∧ offset = 0x02 then .ok (.dict [])
  else if fileId = 0 ∧ offset = 0x04 then .ok (.set [])
  else if fileId = 0 ∧ offset = 0x08 then .ok (.tuple [])
  else if fileId = 0 ∧ offset = 0x10 then .ok (.str [])
  else if fileId = 0 ∧ offset = 0x20 then .ok (.bytes [])
  else if fileId = 0 ∧ offset = 0x40 then .ok (.bytearray [])
  else if fileId = 0 ∧ offset = 0x100 then .ok (.bool false)
  else if fileId = 0 ∧ offset = 0x200 then .ok (.int 0)
  else if fileId = 0 ∧ offset = 0x400 then .ok (.float 0)
  else if fileId = 0x01 then .ok (.bool (0 < offset))
  else if fileId = 0x02 then
    .ok (.int (if offset < 2 ^ 63 then offset else (offset : ℤ) - 2 ^ 64))
  else if fileId = 0x03 then .ok (.int offset)
  else if fileId = 0x04 then .ok (.float offset)
  else if fileId = 0x08 ∨ fileId = 0x09 then
    if 0 < valSize then c.loads ((leBytes 8 offset).take valSize)
    else c.unzipPad (leBytes 8 offset) >>= c.loads
  else if has fileId 0x0100000000000000 then
    if 0 < valSize then c.loads ((leBytes 8 offset ++ leBytes 8 fileId).take valSize)
    else c.unzipPad ((leBytes 8 offset ++ leBytes 8 fileId).take 15) >>= c.loads
  else if fileId = 0x18 then .ok (.date offset)
  else if fileId = 0x19 then .ok (.datetime offset)
  else .error .value

/-- `read_value` on the bytes of a VAL extent: `data` is what was read. -/
def ValCodec.readValue (c : ValCodec) (valSize : ℕ) (data : Bytes) : Except Err PyVal :=
  if 0 < valSize then
    if c.noZip then c.loads data
    else if data = [] then .ok .none else c.unzip data >>= c.loads
  else if data = [] then .ok .none else c.unzipPad data >>= c.loads

-- `[True, 1.0] == [1, 1]`
example : PyVal.pyEq (.list [.bool true, .float 0x3FF0000000000000])
    (.list [.int 1, .int 1]) = true := by decide +kernel

end OmniJsonDb
