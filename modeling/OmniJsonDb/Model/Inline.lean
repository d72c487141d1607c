import OmniJsonDb.Model.JsonVal
import OmniJsonDb.Model.KeyCodec

/-!
# Values in KEY rows

`_encode_row` and `_decode_row` over every string, also one that has no encoding, with the VAL
codecs that they call. JSON, `msgpack`, `marshal`, `pickle`, YAML and a registered codec are
parameters; what the codecs add to them is here.

* `JIoVAL`: the VAL codecs.
* `RowVal`: a value, as `_encode_row` tells values apart.
* `RowIo.encodeRow`, `RowIo.decodeRow`.
-/

namespace OmniJsonDb

/-! ## VAL codecs -/

/-- A JSON library: what it does not know goes through `default`. -/
structure JsonHook where
  dumps : (MsgVal → Except Err MsgVal) → MsgVal → Except Err Bytes
  loads : Bytes → Except Err MsgVal

/-- Another serialiser. -/
structure ValLib where
  dumps : MsgVal → Except Err Bytes
  loads : Bytes → Except Err MsgVal

/-- `_json_default`. -/
def jsonDefault : MsgVal → Except Err MsgVal
  | .set xs => .ok (.list xs)
  | .frozenset xs => .ok (.list xs)
  | .bytes b => (markBytes b).map .str
  | .bytearray b => (markBytes b).map .str
  | _ => .error .type

/-- Whatever is raised becomes a `JValueError`. -/
def caught {α : Type} : Except Err α → Except Err α
  | .ok a => .ok a
  | .error _ => .error .value

/-- Up to `n` times, with one more byte behind the data each time. -/
def retry (padByte : UInt8) (loads : Bytes → Except Err MsgVal) : ℕ → Bytes → Except Err MsgVal
  | 0, _ => .error .value
  | n + 1, data =>
    match loads data with
    | .ok v => .ok v
    | .error _ => retry padByte loads n (data ++ [padByte])

/-- A string that is the marked text of bytes is read as these. -/
def restoreBytes : MsgVal → Except Err MsgVal
  | .str s =>
    if s.take 4 = marker then
      match Hex.decode (s.drop 4) with
      | none => .ok (.str s)
      | some bs =>
        match reduceSum bs with
        | .error _ => .error .value
        | .ok 0 => .ok (.bytes bs.dropLast)
        | .ok _ => .ok (.str s)
    else .ok (.str s)
  | v => .ok v

/-- A VAL codec with its serialiser. -/
inductive JIoVAL where
  | J (json : JsonHook)
  | S (msgpack : ValLib)
  | M (marshal : ValLib)
  | P (pickle : ValLib)
  | Y (yaml : ValLib)
  | U (user : ValLib)

namespace JIoVAL

/-- `VAL_dumps`. -/
def dumps : JIoVAL → MsgVal → Except Err Bytes
  | J json, v => caught (json.dumps jsonDefault v)
  | S lib, v | M lib, v | P lib, v | Y lib, v | U lib, v => caught (lib.dumps v)

/-- `VAL_loads`. -/
def loads : JIoVAL → Bytes → Except Err MsgVal
  | J json, data => caught (json.loads data) >>= restoreBytes
  | S lib, data => retry 0xC1 lib.loads 9 data
  | M lib, data | P lib, data | Y lib, data => retry 0x0A lib.loads 9 data
  | U lib, data => caught (lib.loads data)

end JIoVAL

/-! ## Values -/

/-- The ordinals of dates: `date.min` is `1`, `date.max` is `3652059`. -/
def MAX_ORDINAL : ℕ := 3652059

structure DateOrd where
  ordinal : ℕ
  pos : 1 ≤ ordinal
  le_max : ordinal ≤ MAX_ORDINAL
  deriving DecidableEq

/-- A value. The time of a `datetime` is the 64 bits of its timestamp; `jdb` is another database, in
memory or not, and the path of its KEY file. -/
inductive RowVal where
  | val (v : MsgVal)
  | date (d : DateOrd)
  | datetime (ts : BitVec 64)
  | jdb (mem : Bool) (path : List CodePoint)

/-- The empties that have a code of their own. -/
def RowVal.emptyCode : RowVal → Option ℕ
  | .val .none => some 0
  | .val (.list []) => some 0x01
  | .val (.dict []) => some 0x02
  | .val (.set []) => some 0x04
  | .val (.tuple []) => some 0x08
  | .val (.str []) => some 0x10
  | .val (.bytes []) => some 0x20
  | .val (.bytearray []) => some 0x40
  | _ => none

/-! ## Packing -/

/-- What a handle has for packing: the codec, `row_bytes >= 0`, the byte that fills up a value, and
the compression. -/
structure RowIo where
  val : JIoVAL
  wide : Bool
  pad0Byte : UInt8
  /-- `zip_type == NO_ZIP`. -/
  noZip : Bool
  zip : Bytes → Except Err Bytes
  /-- `VAL_unzip`, which allows for padding. -/
  unzipPad : Bytes → Except Err Bytes
  /-- `files_obj.is_group(path, key)`. -/
  isGroup : List CodePoint → List CodePoint → Bool
  groups : List CodePoint → Option RowVal

namespace RowIo

variable (io : RowIo)

/-- `pad(data, max_size, no_zip=True)`. -/
def pad (data : Bytes) (size : ℕ) : Bytes := data ++ List.replicate (size - data.length) io.pad0Byte

/-- Bytes for a VAL file. -/
def zipped (data : Bytes) : Except Err Enc :=
  if io.noZip then .ok (.value data) else (caught (io.zip data)).map .value

/-- Few bytes go into the row when it is wide enough. -/
def encodeBytes (data : Bytes) : Except Err Enc :=
  if io.wide ∧ data.length ≤ 8 then .ok (.head 0x08 (leNat (io.pad data 8)) data.length)
  else if io.wide ∧ data.length ≤ 15 then
    let bs := io.pad data 15 ++ [1]
    .ok (.head (leNat (bs.drop 8)) (leNat (bs.take 8)) data.length)
  else io.zipped data

/-- `_encode_row`. -/
def encodeRow (key : List CodePoint) (val : RowVal) : Except Err Enc :=
  match val.emptyCode with
  | some code => .ok (.head 0 code 0)
  | none =>
    match val with
    | .jdb mem path =>
      if mem ∨ io.isGroup path key then .ok (.head 0x10 0 0)
      else io.val.dumps (.str path) >>= io.zipped
    | .val (.bool b) => .ok (.head 0x01 (if b then 1 else 0) 0)
    | .val (.int i) =>
      if i < 0 then
        if i < -(2 ^ 63) then .error .struct else .ok (.head 0x02 (i + 2 ^ 64).toNat 0)
      else .ok (.head 0x03 i.toNat 0)
    | .val (.float bits) => .ok (.head 0x04 bits.toNat 0)
    | .date d => .ok (.head 0x18 d.ordinal 0)
    | .datetime ts => .ok (.head 0x19 ts.toNat 0)
    | .val v =>
      match io.val.dumps v with
      | .error e => .error e
      | .ok data => io.encodeBytes data

/-- `Struct('Q').pack`. -/
def packU64 (x : ℤ) : Except Err Bytes :=
  if 0 ≤ x ∧ x < 2 ^ 64 then .ok (leBytes 8 x.toNat) else .error .struct

/-- `loads_with_unzip` of the bytes in a row, of which `valSize` are the value's when it is positive. -/
def loadsRow (bs : Bytes) (size : ℕ) (valSize : ℤ) : Except Err MsgVal :=
  if 0 < valSize then io.val.loads (bs.take valSize.toNat) else caught (io.unzipPad (bs.take size)) >>= io.val.loads

/-- A negative offset is one whose 64 bits were read with a sign. -/
def unsigned (offset : ℤ) : Except Err ℤ :=
  if offset < 0 then if offset < -(2 ^ 63) then .error .struct else .ok (offset + 2 ^ 64) else .ok offset

/-- What type id `0` stands for. -/
def emptyOf (offset : ℤ) : Option MsgVal :=
  if offset = 0 then some .none
  else if offset = 0x01 then some (.list [])
  else if offset = 0x02 then some (.dict [])
  else if offset = 0x04 then some (.set [])
  else if offset = 0x08 then some (.tuple [])
  else if offset = 0x10 then some (.str [])
  else if offset = 0x20 then some (.bytes [])
  else if offset = 0x40 then some (.bytearray [])
  else if offset = 0x100 then some (.bool false)
  else if offset = 0x200 then some (.int 0)
  else if offset = 0x400 then some (.float 0)
  else none

/-- What the other type ids stand for. -/
def payloadOf (fileId offset : ℤ) (key : List CodePoint) (valSize : ℤ) : Except Err RowVal :=
  if fileId = 0x01 then .ok (.val (.bool (0 < offset)))
  else if fileId = 0x02 then do
    let bs ← packU64 offset
    let n : ℤ := leNat bs
    .ok (.val (.int (if n < 2 ^ 63 then n else n - 2 ^ 64)))
  else if fileId = 0x03 then .ok (.val (.int offset))
  else if fileId = 0x04 then do
    let bs ← packU64 offset
    .ok (.val (.float (BitVec.ofNat 64 (leNat bs))))
  else if fileId = 0x08 ∨ fileId = 0x09 then do
    let bs ← packU64 offset
    (io.loadsRow bs 8 valSize).map .val
  else if fileId / 2 ^ 56 % 2 = 1 then do
    let lo ← packU64 offset
    let hi ← packU64 fileId
    (io.loadsRow (lo ++ hi) 15 valSize).map .val
  else if fileId = 0x10 then .ok ((io.groups key).getD (.val .none))
  else if fileId = 0x18 then
    if h : 1 ≤ offset.toNat ∧ offset.toNat ≤ MAX_ORDINAL then .ok (.date ⟨offset.toNat, h.1, h.2⟩) else .error .value
  else if fileId = 0x19 then do
    let bs ← packU64 offset
    .ok (.datetime (BitVec.ofNat 64 (leNat bs)))
  else .error .value

/-- `_decode_row`. -/
def decodeRow (fileId offset : ℤ) (key : List CodePoint) (valSize : ℤ) : Except Err RowVal := do
  let offset ← unsigned offset
  match if fileId = 0 then emptyOf offset else none with
  | some v => .ok (.val v)
  | none => io.payloadOf fileId offset key valSize

end RowIo

-- `-1` under type id `2`
example (io : RowIo) : io.encodeRow [] (.val (.int (-1))) = .ok (.head 2 (2 ^ 64 - 1) 0) := rfl

end OmniJsonDb
