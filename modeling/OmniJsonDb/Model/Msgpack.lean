import OmniJsonDb.Lib.Hex
import OmniJsonDb.Model.JNet
import OmniJsonDb.Model.Value

/-!
# MessagePack in Python

The packer and unpacker that stand in for the `msgpack` package: `_msg_pack` writes to a
`JBytesIO`, a set is packed in place, read back from the buffer and written again behind an ext
header; `_msg_unpack` reads an object at an index and says where it ends.

* `msgPack`, `msgDumps`: packing.
* `msgUnpack`, `msgLoads`: unpacking, with the number of nested calls that the interpreter allows.
-/

namespace OmniJsonDb

/-! ## Values -/

/-- A code point of a Python string; it may be a surrogate. -/
abbrev CodePoint := Fin 0x110000

/-- A value that is packed. A float is its 64 bits; a set is its members as they come up. -/
inductive MsgVal where
  | none
  | bool (b : Bool)
  | int (i : ℤ)
  | float (bits : BitVec 64)
  | str (s : List CodePoint)
  | bytes (b : Bytes)
  | bytearray (b : Bytes)
  | memoryview (b : Bytes)
  | list (xs : List MsgVal)
  | tuple (xs : List MsgVal)
  | dict (kvs : List (MsgVal × MsgVal))
  | set (xs : List MsgVal)
  | frozenset (xs : List MsgVal)
  | obj (id : ℕ)

/-- What packing and unpacking raise. -/
inductive MsgErr where
  | index
  | struct
  | unicode
  | value
  | type
  | recursion
  deriving DecidableEq

namespace MsgVal

def numOf : MsgVal → Option PyVal.Num
  | bool b => some (.fin (if b then 2 ^ 1074 else 0))
  | int i => some (.fin (i * 2 ^ 1074))
  | float bits => some (PyVal.floatNum bits.toNat)
  | _ => Option.none

/-- `==` of two values that are not containers. -/
def atomEq (a b : MsgVal) : Bool :=
  match numOf a, numOf b with
  | some m, some n => m.eq n
  | _, _ =>
    match a, b with
    | none, none => true
    | str s, str t => s = t
    | bytes s, bytes t => s = t
    | obj m, obj n => m = n
    | _, _ => false

mutual

/-- `==` of two values that can be hashed. -/
def keyEq : MsgVal → MsgVal → Bool
  | tuple xs, tuple ys => keyEqAll xs ys
  | frozenset xs, frozenset ys => xs.length = ys.length && keyAllIn xs ys
  | a, b => atomEq a b

def keyEqAll : List MsgVal → List MsgVal → Bool
  | [], [] => true
  | x :: xs, y :: ys => keyEq x y && keyEqAll xs ys
  | _, _ => false

/-- Every value of the first list is `in` the second. -/
def keyAllIn : List MsgVal → List MsgVal → Bool
  | [], _ => true
  | x :: xs, ys => ys.any (fun y => keyEq x y) && keyAllIn xs ys

end

mutual

/-- `hash` does not raise. -/
def hashable : MsgVal → Bool
  | tuple xs => hashableAll xs
  | list _ | dict _ | set _ | bytearray _ | memoryview _ => false
  | _ => true

def hashableAll : List MsgVal → Bool
  | [] => true
  | x :: xs => hashable x && hashableAll xs

end

/-- `out[key] = val`. -/
def setItem (key val : MsgVal) : List (MsgVal × MsgVal) → List (MsgVal × MsgVal)
  | [] => [(key, val)]
  | (k, v) :: out => if keyEq k key then (k, val) :: out else (k, v) :: setItem key val out

/-- `set(members)` from what is already in it. -/
def addAll (acc : List MsgVal) : List MsgVal → Except MsgErr (List MsgVal)
  | [] => .ok acc
  | x :: xs =>
    if hashable x then addAll (if acc.any (fun y => keyEq y x) then acc else acc ++ [x]) xs
    else .error .type

/-- The members that iterating over a value gives. -/
def members : MsgVal → Except MsgErr (List MsgVal)
  | list xs | tuple xs | set xs | frozenset xs => .ok xs
  | dict kvs => .ok (kvs.map Prod.fst)
  | str s => .ok (s.map fun c => str [c])
  | bytes b | bytearray b | memoryview b => .ok (b.map fun x => int x.toNat)
  | _ => .error .type

end MsgVal

/-! ## Numbers and text -/

/-- The last `k` bytes of a big-endian number. -/
def beBytes (k n : ℕ) : Bytes := (leBytes k n).reverse

def beNat (bs : Bytes) : ℕ := leNat bs.reverse

/-- `struct.pack` of an unsigned number of `k` bytes behind a header byte. -/
def packNat (header : UInt8) (k : ℕ) (n : ℕ) : Except MsgErr Bytes :=
  if n < 256 ^ k then .ok (header :: beBytes k n) else .error .struct

/-- `struct.pack` of a signed number of `k` bytes behind a header byte. -/
def packInt (header : UInt8) (k : ℕ) (i : ℤ) : Except MsgErr Bytes :=
  if -(256 ^ k) ≤ 2 * i ∧ 2 * i < 256 ^ k then .ok (header :: beBytes k (i % 256 ^ k).toNat)
  else .error .struct

def isSurrogate (c : CodePoint) : Bool := 0xD800 ≤ c.val && c.val ≤ 0xDFFF

/-- `obj.encode("utf-8", "strict")`. -/
def encodeUtf8 (s : List CodePoint) : Except MsgErr Bytes :=
  if s.any isSurrogate then .error .unicode
  else .ok (s.flatMap fun c => String.utf8EncodeChar (Char.ofNat c.val))

/-- `str(bs, "utf-8")`. -/
def decodeUtf8 (bs : Bytes) : Except MsgErr (List CodePoint) :=
  match bs.toByteArray.utf8Decode? with
  | some cs => .ok (cs.toList.map fun c => Fin.ofNat 0x110000 c.toNat)
  | Option.none => .error .unicode

/-! ## The stream -/

/-- The `JBytesIO` that is packed into: its buffer and where the next byte goes. -/
structure MsgStream where
  buf : Bytes
  idx : ℕ

namespace MsgStream

def write (io : MsgStream) (b : Bytes) : ℕ × MsgStream :=
  let (n, buf, idx) := JBytesIo.write b io.buf io.idx
  (n, ⟨buf, idx⟩)

/-- `write` whose count is not used. -/
def put (io : MsgStream) (b : Bytes) : MsgStream := (io.write b).2

end MsgStream

/-! ## Packing -/

def EXT_SET : UInt8 := 123
def EXT_FROZENSET : UInt8 := 124

/-- The header of `bytes`, `bytearray` and `memoryview`. -/
def binHeader (n : ℕ) : Except MsgErr Bytes :=
  if n ≤ 0xFF then packNat 0xC4 1 n else if n ≤ 0xFFFF then packNat 0xC5 2 n else packNat 0xC6 4 n

def strHeader (n : ℕ) : Except MsgErr Bytes :=
  if n ≤ 0x1F then .ok [UInt8.ofNat (0xA0 + n)]
  else if n ≤ 0xFF then packNat 0xD9 1 n
  else if n ≤ 0xFFFF then packNat 0xDA 2 n
  else packNat 0xDB 4 n

def arrayHeader (n : ℕ) : Except MsgErr Bytes :=
  if n ≤ 0xF then .ok [UInt8.ofNat (0x90 + n)]
  else if n ≤ 0xFFFF then packNat 0xDC 2 n
  else packNat 0xDD 4 n

def mapHeader (n : ℕ) : Except MsgErr Bytes :=
  if n ≤ 0xF then .ok [UInt8.ofNat (0x80 + n)]
  else if n ≤ 0xFFFF then packNat 0xDE 2 n
  else packNat 0xDF 4 n

def extHeader (n : ℕ) : Except MsgErr Bytes :=
  if 0xFFFF < n then packNat 0xC9 4 n
  else if 0xFF < n then packNat 0xC8 2 n
  else if n = 16 then .ok [0xD8]
  else if n = 8 then .ok [0xD7]
  else if n = 4 then .ok [0xD6]
  else if n = 2 then .ok [0xD5]
  else if n = 1 then .ok [0xD4]
  else packNat 0xC7 1 n

/-- The bytes of an integer. -/
def packIntObj (i : ℤ) : Except MsgErr Bytes :=
  if 0 ≤ i ∧ i < 0x80 then .ok [UInt8.ofNat i.toNat]
  else if -0x20 ≤ i ∧ i < 0 then .ok [UInt8.ofNat (i + 0x100).toNat]
  else if 0x80 ≤ i ∧ i ≤ 0xFF then packNat 0xCC 1 i.toNat
  else if -0x80 ≤ i ∧ i < 0 then packInt 0xD0 1 i
  else if 0xFF < i ∧ i ≤ 0xFFFF then packNat 0xCD 2 i.toNat
  else if -0x8000 ≤ i ∧ i < -0x80 then packInt 0xD1 2 i
  else if 0xFFFF < i ∧ i ≤ 0xFFFFFFFF then packNat 0xCE 4 i.toNat
  else if -0x80000000 ≤ i ∧ i < -0x8000 then packInt 0xD2 4 i
  else if 0xFFFFFFFF < i ∧ i ≤ 0xFFFFFFFFFFFFFFFF then packNat 0xCF 8 i.toNat
  else if -0x8000000000000000 ≤ i ∧ i < -0x80000000 then packInt 0xD3 8 i
  else .error .value

/-- The bytes of a sequence that is not packed item by item: its header and itself. -/
def packRaw (io : MsgStream) (header : ℕ → Except MsgErr Bytes) (b : Bytes) :
    Except MsgErr (ℕ × MsgStream) := do
  if 2 ^ 32 ≤ b.length then .error .value
  else
    let h ← header b.length
    let out := (io.put h).put b
    return (out.idx - io.idx, out)

/-- An array of `n` items; with an ext code, what was written becomes its payload. -/
def packArray (io : MsgStream) (n : ℕ) (items : MsgStream → Except MsgErr MsgStream)
    (extCode : Option UInt8) : Except MsgErr (ℕ × MsgStream) := do
  if 2 ^ 32 ≤ n then .error .value
  else
    let h ← arrayHeader n
    let out ← items (io.put h)
    match extCode with
    | none => return (out.idx - io.idx, out)
    | some code =>
      let L := out.idx - io.idx
      let data := (out.buf.take (io.idx + L)).drop io.idx
      let ext ← extHeader L
      let out := ((({ out with idx := io.idx } : MsgStream).put ext).put [code]).put data
      return (out.idx - io.idx, out)

mutual

/-- `_msg_pack`: how many bytes it wrote, and the stream. -/
def msgPack (nestLimit : ℤ) (io : MsgStream) : MsgVal → Except MsgErr (ℕ × MsgStream)
  | .none => if nestLimit < 0 then .error .value else .ok (io.write [0xC0])
  | .bool b => if nestLimit < 0 then .error .value else .ok (io.write [if b then 0xC3 else 0xC2])
  | .int i => if nestLimit < 0 then .error .value else (packIntObj i).map io.write
  | .bytes b => if nestLimit < 0 then .error .value else packRaw io binHeader b
  | .bytearray b => if nestLimit < 0 then .error .value else packRaw io binHeader b
  | .memoryview b => if nestLimit < 0 then .error .value else packRaw io binHeader b
  | .str s => if nestLimit < 0 then .error .value else encodeUtf8 s >>= packRaw io strHeader
  | .float bits => if nestLimit < 0 then .error .value else (packNat 0xCB 8 bits.toNat).map io.write
  | .list xs =>
    if nestLimit < 0 then .error .value
    else packArray io xs.length (fun out => packAll (nestLimit - 1) out xs) Option.none
  | .tuple xs =>
    if nestLimit < 0 then .error .value
    else packArray io xs.length (fun out => packAll (nestLimit - 1) out xs) Option.none
  | .set xs =>
    if nestLimit < 0 then .error .value
    else packArray io xs.length (fun out => packAll (nestLimit - 1) out xs) (some EXT_SET)
  | .frozenset xs =>
    if nestLimit < 0 then .error .value
    else packArray io xs.length (fun out => packAll (nestLimit - 1) out xs) (some EXT_FROZENSET)
  | .dict kvs =>
    if nestLimit < 0 then .error .value
    else if 2 ^ 32 ≤ kvs.length then .error .value
    else do
      let h ← mapHeader kvs.length
      let out ← packItems (nestLimit - 1) (io.put h) kvs
      return (out.idx - io.idx, out)
  | .obj _ => if nestLimit < 0 then .error .value else .error .type

/-- The items of an array. -/
def packAll (nestLimit : ℤ) (io : MsgStream) : List MsgVal → Except MsgErr MsgStream
  | [] => .ok io
  | x :: xs =>
    match msgPack nestLimit io x with
    | .error e => .error e
    | .ok (_, io) => packAll nestLimit io xs

/-- The keys and values of a map. -/
def packItems (nestLimit : ℤ) (io : MsgStream) : List (MsgVal × MsgVal) → Except MsgErr MsgStream
  | [] => .ok io
  | (k, v) :: kvs =>
    match msgPack nestLimit io k with
    | .error e => .error e
    | .ok (_, io) =>
      match msgPack nestLimit io v with
      | .error e => .error e
      | .ok (_, io) => packItems nestLimit io kvs

end

/-- `_msg_dumps`. -/
def msgDumps (v : MsgVal) : Except MsgErr Bytes := (msgPack 1024 ⟨[], 0⟩ v).map (·.2.buf)

/-! ## Unpacking -/

/-- `buf[idx]`. -/
def byteAt (buf : Bytes) (idx : ℕ) : Except MsgErr ℕ :=
  match buf[idx]? with
  | some b => .ok b.toNat
  | none => .error .index

/-- `buf[idx:end]`. -/
def bytesAt (buf : Bytes) (idx n : ℕ) : Bytes := (buf.drop idx).take n

/-- `unpack_from` of an unsigned number of `k` bytes. -/
def natAt (k : ℕ) (buf : Bytes) (idx : ℕ) : Except MsgErr ℕ :=
  if idx + k ≤ buf.length then .ok (beNat (bytesAt buf idx k)) else .error .struct

/-- `unpack_from` of a signed number of `k` bytes. -/
def intAt (k : ℕ) (buf : Bytes) (idx : ℕ) : Except MsgErr ℤ :=
  (natAt k buf idx).map fun (n : ℕ) => if 2 * n < 256 ^ k then (n : ℤ) else n - 256 ^ k

/-- The double of the value of a single. -/
def widenFloat (n : ℕ) : BitVec 64 :=
  let sign := n / 2 ^ 31 % 2 * 2 ^ 63
  let e := n / 2 ^ 23 % 256
  let m := n % 2 ^ 23
  BitVec.ofNat 64 <| sign +
    if e = 255 then 2047 * 2 ^ 52 + (if m = 0 then 0 else 2 ^ 51 ||| m * 2 ^ 29)
    else if e = 0 then
      if m = 0 then 0 else (Nat.log2 m + 874) * 2 ^ 52 + (m - 2 ^ Nat.log2 m) * 2 ^ (52 - Nat.log2 m)
    else (e + 896) * 2 ^ 52 + m * 2 ^ 29

def readStr (buf : Bytes) (idx n : ℕ) : Except MsgErr (MsgVal × ℕ) :=
  (decodeUtf8 (bytesAt buf idx n)).map fun s => (.str s, idx + n)

def readBin (buf : Bytes) (idx n : ℕ) : Except MsgErr (MsgVal × ℕ) :=
  .ok (.bytes (bytesAt buf idx n), idx + n)

section Readers

/-! `unpack` is the unpacker itself, a call deeper. -/

variable (unpack : ℕ → Except MsgErr (MsgVal × ℕ))

/-- The loop of `_read_array`. -/
def readItems : ℕ → ℕ → Except MsgErr (List MsgVal × ℕ)
  | 0, idx => .ok ([], idx)
  | n + 1, idx => do
    let (x, idx) ← unpack idx
    let (xs, idx) ← readItems n idx
    return (x :: xs, idx)

def readArray (idx n : ℕ) : Except MsgErr (MsgVal × ℕ) :=
  (readItems unpack n idx).map fun r => (.list r.1, r.2)

/-- The loop of `_read_map`: the value is read before the key is hashed. -/
def readPairs (out : List (MsgVal × MsgVal)) : ℕ → ℕ → Except MsgErr (List (MsgVal × MsgVal) × ℕ)
  | 0, idx => .ok (out, idx)
  | n + 1, idx => do
    let (key, idx) ← unpack idx
    let (val, idx) ← unpack idx
    if key.hashable then readPairs (MsgVal.setItem key val out) n idx else .error .type

def readMap (idx n : ℕ) : Except MsgErr (MsgVal × ℕ) :=
  (readPairs unpack [] n idx).map fun r => (.dict r.1, r.2)

def readExt (buf : Bytes) (idx size : ℕ) : Except MsgErr (MsgVal × ℕ) := do
  let code ← byteAt buf idx
  if code = EXT_SET.toNat ∨ code = EXT_FROZENSET.toNat then
    let (payload, _) ← unpack (idx + 1)
    let xs ← payload.members
    let result ← MsgVal.addAll [] xs
    return (if code = EXT_FROZENSET.toNat then .frozenset result else .set result, idx + 1 + size)
  else .error .value

end Readers

/-- What the header byte `b` in front of `idx` says. -/
def readObject (unpack : ℕ → Except MsgErr (MsgVal × ℕ)) (buf : Bytes) (b idx : ℕ) :
    Except MsgErr (MsgVal × ℕ) :=
  if b < 0x80 then .ok (.int b, idx)
  else if b ≤ 0x8F then readMap unpack idx (b &&& 0x0F)
  else if b ≤ 0x9F then readArray unpack idx (b &&& 0x0F)
  else if b ≤ 0xBF then readStr buf idx (b &&& 0x1F)
  else if 0xE0 ≤ b then .ok (.int (b - 0x100), idx)
  else if b = 0xC0 then .ok (.none, idx)
  else if b = 0xC2 then .ok (.bool false, idx)
  else if b = 0xC3 then .ok (.bool true, idx)
  else if b = 0xCC then (byteAt buf idx).map fun (n : ℕ) => (.int n, idx + 1)
  else if b = 0xCD then (natAt 2 buf idx).map fun (n : ℕ) => (.int n, idx + 2)
  else if b = 0xCE then (natAt 4 buf idx).map fun (n : ℕ) => (.int n, idx + 4)
  else if b = 0xCF then (natAt 8 buf idx).map fun (n : ℕ) => (.int n, idx + 8)
  else if b = 0xD0 then (intAt 1 buf idx).map fun i => (.int i, idx + 1)
  else if b = 0xD1 then (intAt 2 buf idx).map fun i => (.int i, idx + 2)
  else if b = 0xD2 then (intAt 4 buf idx).map fun i => (.int i, idx + 4)
  else if b = 0xD3 then (intAt 8 buf idx).map fun i => (.int i, idx + 8)
  else if b = 0xCB then (natAt 8 buf idx).map fun n => (.float (BitVec.ofNat 64 n), idx + 8)
  else if b = 0xCA then (natAt 4 buf idx).map fun n => (.float (widenFloat n), idx + 4)
  else if b = 0xD9 then byteAt buf idx >>= readStr buf (idx + 1)
  else if b = 0xDA then natAt 2 buf idx >>= readStr buf (idx + 2)
  else if b = 0xDB then natAt 4 buf idx >>= readStr buf (idx + 4)
  else if b = 0xC4 then byteAt buf idx >>= readBin buf (idx + 1)
  else if b = 0xC5 then natAt 2 buf idx >>= readBin buf (idx + 2)
  else if b = 0xC6 then natAt 4 buf idx >>= readBin buf (idx + 4)
  else if b = 0xDC then natAt 2 buf idx >>= readArray unpack (idx + 2)
  else if b = 0xDD then natAt 4 buf idx >>= readArray unpack (idx + 4)
  else if b = 0xDE then natAt 2 buf idx >>= readMap unpack (idx + 2)
  else if b = 0xDF then natAt 4 buf idx >>= readMap unpack (idx + 4)
  else if b = 0xD4 then readExt unpack buf idx 1
  else if b = 0xD5 then readExt unpack buf idx 2
  else if b = 0xD6 then readExt unpack buf idx 4
  else if b = 0xD7 then readExt unpack buf idx 8
  else if b = 0xD8 then readExt unpack buf idx 16
  else if b = 0xC7 then byteAt buf idx >>= readExt unpack buf (idx + 1)
  else if b = 0xC8 then natAt 2 buf idx >>= readExt unpack buf (idx + 2)
  else if b = 0xC9 then natAt 4 buf idx >>= readExt unpack buf (idx + 4)
  else .error .value

/-- `_msg_unpack`; `limit` is how many calls of it may be nested. -/
def msgUnpack (buf : Bytes) : ℕ → ℕ → Except MsgErr (MsgVal × ℕ)
  | 0, _ => .error .recursion
  | limit + 1, idx => do
    let b ← byteAt buf idx
    readObject (msgUnpack buf limit) buf b (idx + 1)

/-- `UnicodeDecodeError` is a `ValueError`. -/
def MsgErr.isValueError : MsgErr → Bool
  | .value | .unicode => true
  | _ => false

/-- `_msg_loads`. -/
def msgLoads (limit : ℕ) (data : Bytes) : Except MsgErr MsgVal :=
  if data = [] then .error .value
  else
    match msgUnpack data limit 0 with
    | .ok (obj, _) => .ok obj
    | .error .index | .error .struct => .error .value
    | .error e => .error e

end OmniJsonDb
