import OmniJsonDb.Model.Msgpack
import OmniJsonDb.Model.Query
import OmniJsonDb.Model.Resize

/-!
# KEY rows as bytes

`KEY_dumps` and `KEY_loads` of the built-in codecs, in the three layouts of a row. What JSON,
`msgpack` and `marshal` make of a tuple is a parameter; the text codec is all here.

* `Layout.packed`, `Layout.unpacked`: the numbers behind the key.
* `TupleCodec`: a serialiser of tuples.
* `KeyCodec.dumps`, `KeyCodec.loads`: the codecs.
-/

namespace OmniJsonDb

/-- What `KEY_dumps` is given and `KEY_loads` returns: `cdays` counts days, `mdays` minutes. -/
structure KeyInfo (N : Type) where
  key : List CodePoint
  fileId : N
  offset : N
  rowSize : N
  valSize : N
  ver : N
  cdays : ℕ
  mdays : ℕ
  ttl : Ttl
  flags : N
  deriving DecidableEq

/-- The row as numbers that may be negative. -/
def KeyInfo.toInt (r : KeyInfo ℕ) : KeyInfo ℤ :=
  ⟨r.key, r.fileId, r.offset, r.rowSize, r.valSize, r.ver, r.cdays, r.mdays, r.ttl, r.flags⟩

/-- The stored layouts of a row. -/
inductive Layout where
  | v0
  | v1
  | v2
  deriving DecidableEq

def KEY_FLAG_SHIFT : ℕ := 48

/-! ## The numbers of a row -/

/-- The dates and the lifetime in the day field. -/
def unpackDays (days : ℤ) (expire : Bool) : ℕ × ℕ × Ttl :=
  if expire = false then
    let cdays := maskInt days OLD_DAY_MASK
    (cdays, (cdays + maskInt (days / 2 ^ NEW_DAY_SHIFT) MAX_DAY_DELTA) * MIN_OF_DAY, .days 0)
  else if maskInt (days / 2 ^ 22) 1 = 0 then
    let cdays := maskInt days OLD_DAY_MASK
    (cdays, (cdays + maskInt (days / 2 ^ NEW_DAY_SHIFT) MAX_EXP_DELTA) * MIN_OF_DAY,
      .days (maskInt (days / 2 ^ TTL_SHIFT) TTL_DAY_MASK))
  else
    let cdays := maskInt days SUB_DAY_MASK
    (cdays, (cdays + maskInt (days / 2 ^ SUB_DELTA_SHIFT) MAX_SUB_DELTA) * MIN_OF_DAY
      + maskInt (days / 2 ^ NEW_DAY_SHIFT) MIN_FIELD, .mins (maskInt (days / 2 ^ TTL_MIN_SHIFT) MAX_TTL_MINS))

namespace Layout

/-- The numbers that are stored behind the key. -/
def packed (l : Layout) (r : KeyInfo ℕ) : Except Err (List ℕ) :=
  (dayField r.cdays r.mdays r.ttl).map fun days =>
    let marked := days ||| ((r.flags &&& KEY_FLAG_MASK) <<< KEY_FLAG_SHIFT)
    match l with
    | v0 => [r.fileId, r.offset, r.rowSize ||| (r.valSize <<< 32), r.ver, marked]
    | v1 => [r.fileId, r.offset, r.rowSize, r.valSize, r.ver, marked]
    | v2 => [r.fileId, r.offset, r.rowSize, r.valSize, r.ver, days, r.flags]

/-- The flags above the day field, with the group bit of the type id. -/
def marks (fileId rowSize days : ℤ) : ℕ :=
  maskInt (days / 2 ^ KEY_FLAG_SHIFT) KEY_FLAG_MASK ||| (if rowSize = 0 ∧ fileId = 0x10 then GROUP else 0)

/-- A row of its stored numbers; numbers after the last are not looked at. -/
def unpacked (l : Layout) (key : List CodePoint) (ns : List ℤ) : Except Err (KeyInfo ℤ) :=
  match l, ns with
  | v0, fileId :: offset :: sizes :: ver :: days :: _ =>
    let rowSize : ℤ := maskInt sizes 0xFFFFFFFF
    let flags := marks fileId rowSize days
    let (cdays, mdays, ttl) := unpackDays days (has flags EXPIRE)
    .ok ⟨key, fileId, offset, rowSize, sizes / 2 ^ 32, ver, cdays, mdays, ttl, flags⟩
  | v1, fileId :: offset :: rowSize :: valSize :: ver :: days :: _ =>
    let flags := marks fileId rowSize days
    let (cdays, mdays, ttl) := unpackDays days (has flags EXPIRE)
    .ok ⟨key, fileId, offset, rowSize, valSize, ver, cdays, mdays, ttl, flags⟩
  | v2, fileId :: offset :: rowSize :: valSize :: ver :: days :: flags :: _ =>
    let (cdays, mdays, ttl) := unpackDays days (has (maskInt flags KEY_FLAG_MASK) EXPIRE)
    .ok ⟨key, fileId, offset, rowSize, valSize, ver, cdays, mdays, ttl, flags⟩
  | _, _ => .error .value

/-- How many fields a row has, the key counted. -/
def width : Layout → ℕ
  | v0 => 6
  | v1 => 7
  | v2 => 8

end Layout

/-! ## Tuples -/

/-- `dumps` and `loads` of tuples of a text and numbers: `json`, `msgpack` or `marshal`. -/
structure TupleCodec where
  dumps : List CodePoint → List ℕ → Except Err Bytes
  loads : Bytes → Except Err (List CodePoint × List ℤ)

def MsgVal.asInt : MsgVal → Option ℤ
  | .int i => some i
  | _ => Option.none

/-- The `msgpack` written in Python; `limit` is how many calls may be nested. -/
def msgTuples (limit : ℕ) : TupleCodec where
  dumps key ns :=
    match msgDumps (.tuple (.str key :: ns.map fun (n : ℕ) => .int n)) with
    | .ok bs => .ok bs
    | .error _ => .error .value
  loads bs :=
    match msgUnpack bs limit 0 with
    | .ok (.list (.str key :: xs), _) =>
      match xs.mapM MsgVal.asInt with
      | some ns => .ok (key, ns)
      | none => .error .value
    | _ => .error .value

/-! ## Text -/

/-- `str.isspace` of a character. -/
def isSpace (c : CodePoint) : Bool :=
  let n := c.val
  (9 ≤ n && n ≤ 13) || (28 ≤ n && n ≤ 32) || n = 0x85 || n = 0xA0 || n = 0x1680 || (0x2000 ≤ n && n ≤ 0x200A)
    || n = 0x2028 || n = 0x2029 || n = 0x202F || n = 0x205F || n = 0x3000

/-- `s.rstrip()`. -/
def rstrip (s : List CodePoint) : List CodePoint := (s.reverse.dropWhile isSpace).reverse

def toPoint (c : Char) : CodePoint := Fin.ofNat 0x110000 c.toNat

def toChars (s : List CodePoint) : List Char := s.map fun c => Char.ofNat c.val

/-- How many digits `str` and `int` take. -/
def MAX_STR_DIGITS : ℕ := 4300

/-- `str(n)`. -/
def natText (n : ℕ) : Except Err (List CodePoint) :=
  let digits := Nat.toDigits 10 n
  if MAX_STR_DIGITS < digits.length then .error .value else .ok (digits.map toPoint)

/-- `int(s)`. -/
def intText (s : List CodePoint) : Except Err ℤ :=
  if MAX_STR_DIGITS < ((toChars s).filter Char.isDigit).length then .error .value
  else
    match pyInt (toChars s) with
    | some i => .ok i
    | none => .error .value

def COMMA : CodePoint := toPoint ','
def BAR : CodePoint := toPoint '|'

/-- `data.encode('utf8')`. -/
def utf8Bytes (s : List CodePoint) : Except Err Bytes :=
  match encodeUtf8 s with
  | .ok bs => .ok bs
  | .error _ => .error .value

/-- `data.decode('utf8')`. -/
def utf8Text (bs : Bytes) : Except Err (List CodePoint) :=
  match decodeUtf8 bs with
  | .ok s => .ok s
  | .error _ => .error .value

/-! ## The codecs -/

namespace JIoKEY_J

def dumps (json : TupleCodec) (l : Layout) (r : KeyInfo ℕ) : Except Err Bytes :=
  l.packed r >>= json.dumps r.key

def loads (json : TupleCodec) (l : Layout) (data : Bytes) : Except Err (KeyInfo ℤ) := do
  let (key, ns) ← json.loads data
  l.unpacked key ns

end JIoKEY_J

namespace JIoKEY_S

/-- Behind a header of three bytes; `bytes` takes no number above 255. -/
def dumps (msgpack : TupleCodec) (l : Layout) (r : KeyInfo ℕ) : Except Err Bytes := do
  let ns ← l.packed r
  let info ← msgpack.dumps r.key ns
  if 0xFF < info.length >>> 8 then .error .value
  else return [0xCD, UInt8.ofNat (info.length >>> 8), UInt8.ofNat (info.length &&& 0xFF)] ++ info

def loads (msgpack : TupleCodec) (l : Layout) (data : Bytes) : Except Err (KeyInfo ℤ) :=
  match data with
  | prefix0 :: prefix1 :: prefix2 :: info0 :: rest =>
    if prefix0.toNat = 0xCD ∧ info0.toNat = 0x90 + l.width then do
      let infoLen := (prefix1.toNat <<< 8) ||| prefix2.toNat
      let (key, ns) ← msgpack.loads ((info0 :: rest).take infoLen)
      l.unpacked key ns
    else .error .value
  | _ => .error .value

end JIoKEY_S

namespace JIoKEY_M

def dumps (marshal : TupleCodec) (l : Layout) (r : KeyInfo ℕ) : Except Err Bytes :=
  l.packed r >>= marshal.dumps r.key

def loads (marshal : TupleCodec) (l : Layout) (data : Bytes) : Except Err (KeyInfo ℤ) := do
  let (key, ns) ← marshal.loads data
  l.unpacked key ns

end JIoKEY_M

namespace JIoKEY_L

/-- The text behind the key: in `v0` the last fields stand between bars. -/
def tail (l : Layout) (texts : List (List CodePoint)) : List CodePoint :=
  match l, texts with
  | .v0, [fileId, offset, sizes, ver, days] =>
    COMMA :: fileId ++ COMMA :: offset ++ COMMA :: sizes ++ BAR :: ver ++ BAR :: days
  | _, texts => texts.flatMap fun t => COMMA :: t

def dumps (l : Layout) (r : KeyInfo ℕ) : Except Err Bytes := do
  let ns ← l.packed r
  let texts ← ns.mapM natText
  utf8Bytes (r.key ++ tail l texts)

/-- `extra`: the sizes, the version and the day field, the last two as far as they are there. -/
def extra (text : List CodePoint) : Except Err (List ℤ) :=
  match text.splitOn BAR with
  | sizes :: ver :: days :: _ => [sizes, ver, days].mapM intText
  | [sizes, ver] => do return (← [sizes, ver].mapM intText) ++ [0]
  | sizes :: _ => do return [← intText sizes, 0, 0]
  | [] => .error .value

/-- The key: what stands in front of the last `n` fields, or the first field when there are no more
than `n + 1`. -/
def keyOf (fields : List (List CodePoint)) (n : ℕ) : List CodePoint :=
  if n + 1 < fields.length then [COMMA].intercalate (fields.take (fields.length - n)) else fields.headD []

def loads (l : Layout) (data : Bytes) : Except Err (KeyInfo ℤ) := do
  let text ← utf8Text data
  let fields := (rstrip text).splitOn COMMA
  match l with
  | .v0 =>
    match fields.drop (fields.length - 3) with
    | [fileId, offset, rest] => do
      let f ← intText fileId
      let o ← intText offset
      let ns ← extra rest
      l.unpacked (keyOf fields 3) (f :: o :: ns)
    | _ => .error .value
  | .v1 => do
    let ns ← (fields.drop (fields.length - 6)).mapM intText
    if ns.length = 6 then l.unpacked (keyOf fields 6) ns else .error .value
  | .v2 => do
    let ns ← (fields.drop (fields.length - 7)).mapM intText
    if ns.length = 7 then l.unpacked (keyOf fields 7) ns else .error .value

end JIoKEY_L

/-- A built-in codec of KEY rows with its serialiser. -/
inductive KeyCodec where
  | J (json : TupleCodec)
  | S (msgpack : TupleCodec)
  | M (marshal : TupleCodec)
  | L

namespace KeyCodec

/-- `KEY_dumps`. -/
def dumps : KeyCodec → Layout → KeyInfo ℕ → Except Err Bytes
  | J json => JIoKEY_J.dumps json
  | S msgpack => JIoKEY_S.dumps msgpack
  | M marshal => JIoKEY_M.dumps marshal
  | L => JIoKEY_L.dumps

/-- `KEY_loads`. -/
def loads : KeyCodec → Layout → Bytes → Except Err (KeyInfo ℤ)
  | J json => JIoKEY_J.loads json
  | S msgpack => JIoKEY_S.loads msgpack
  | M marshal => JIoKEY_M.loads marshal
  | L => JIoKEY_L.loads

end KeyCodec

end OmniJsonDb
