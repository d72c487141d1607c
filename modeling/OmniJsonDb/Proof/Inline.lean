import Mathlib.Data.Setoid.Basic
import Mathlib.Order.CompletePartialOrder
import OmniJsonDb.Model.Inline
import OmniJsonDb.Proof.KeyRows
import OmniJsonDb.Proof.Truncated

/-!
# Values in KEY rows round trip

A value is read back from the three numbers that are stored for it, through every KEY codec, and no
other value has the same three.

* `JIoVAL.Documented`: what the VAL codecs rely on of their serialisers.
* `RowVal.Packable`: the values whose type the row or the codec keeps.
* `KeyCodec.loads_inline`: the three numbers come back.
* `encodeRow_faithful`: so does the value.
* `encodeRow_frozenset`: the empty `frozenset` under JSON.
-/

namespace OmniJsonDb

variable {io : RowIo} {data : Bytes}

/-! ## The row -/

section Row

variable {l : Layout} {r : KeyInfo ℕ} {ns : List ℕ}

/-- Type id, payload and length come back whatever the dates are, when the value is not in a VAL file. -/
theorem Layout.unpacked_inline (hns : l.packed r = .ok ns) (hrow : r.rowSize = 0) :
    ns.length + 1 = l.width ∧ ∃ r', l.unpacked r.key (ns.map Nat.cast) = .ok r' ∧
      r'.fileId = r.fileId ∧ r'.offset = r.offset ∧ r'.rowSize = 0 ∧ r'.valSize = r.valSize := by
  unfold packed at hns
  cases hd : dayField r.cdays r.mdays r.ttl with
  | error e =>
    rw [hd] at hns
    cases hns
  | ok days =>
    rw [hd, hrow] at hns
    have hsizes : (0 : ℕ) ||| r.valSize <<< 32 = r.valSize * 2 ^ 32 := by
      rw [Nat.zero_or, Nat.shiftLeft_eq]
    cases l with
    | v0 =>
      obtain rfl := Except.ok.inj hns
      rw [hsizes]
      refine ⟨rfl, _, unpacked_v0 .., rfl, rfl, ?_, ?_⟩
      · have hlow : maskInt ((r.valSize * 2 ^ 32 : ℕ) : ℤ) 0xFFFFFFFF = 0 := by
          rw [maskInt_natCast]
          omega
        exact congrArg Nat.cast hlow
      · have hhigh : ((r.valSize * 2 ^ 32 : ℕ) : ℤ) / 2 ^ 32 = r.valSize := by omega
        exact hhigh
    | v1 =>
      obtain rfl := Except.ok.inj hns
      exact ⟨rfl, _, unpacked_v1 .., rfl, rfl, rfl, rfl⟩
    | v2 =>
      obtain rfl := Except.ok.inj hns
      exact ⟨rfl, _, unpacked_v2 .., rfl, rfl, rfl, rfl⟩

/-- **The three numbers** in a row that was written are read back. -/
theorem KeyCodec.loads_inline {k : KeyCodec} (hk : k.Sound) {bs : Bytes} (h : k.dumps l r = .ok bs)
    (hrow : r.rowSize = 0) (size : ℕ) :
    ∃ r', k.loads l (KeyFile.padRow bs size) = .ok r' ∧
      r'.fileId = r.fileId ∧ r'.offset = r.offset ∧ r'.rowSize = 0 ∧ r'.valSize = r.valSize := by
  obtain ⟨ns, hns⟩ : ∃ ns, l.packed r = .ok ns := by
    cases hp : l.packed r with
    | ok ns => exact ⟨ns, rfl⟩
    | error e =>
      cases k <;> simp [dumps, JIoKEY_J.dumps, JIoKEY_S.dumps, JIoKEY_M.dumps, JIoKEY_L.dumps, hp, bind,
        Except.bind] at h
  obtain ⟨hlen, r', hr', hsame⟩ := Layout.unpacked_inline hns hrow
  exact ⟨r', (loads_packed hk hns hlen h size).trans hr', hsame⟩

end Row

/-! ## Bytes in a row -/

namespace RowIo

theorem length_pad {size : ℕ} (h : data.length ≤ size) : (io.pad data size).length = size := by
  unfold pad
  rw [List.length_append, List.length_replicate]
  omega

theorem take_pad (rest : Bytes) (size : ℕ) : (io.pad data size ++ rest).take data.length = data := by
  unfold pad
  rw [List.append_assoc, List.take_append_of_le_length le_rfl, List.take_length]

theorem packU64_leNat {bs : Bytes} (h : bs.length = 8) : packU64 (leNat bs) = .ok bs := by
  have hlt := leNat_lt bs
  rw [h] at hlt
  have hrange : (0 : ℤ) ≤ leNat bs ∧ (leNat bs : ℤ) < 2 ^ 64 := by omega
  rw [packU64, if_pos hrange, Int.toNat_natCast, leBytes_leNat h]

theorem unsigned_natCast (n : ℕ) : unsigned n = .ok n := if_neg (by omega)

/-- A type id other than `0`. -/
theorem decodeRow_natCast {fileId : ℤ} (hf : fileId ≠ 0) (n : ℕ) (key : List CodePoint) (valSize : ℤ) :
    io.decodeRow fileId n key valSize = io.payloadOf fileId n key valSize := by
  simp only [decodeRow, unsigned_natCast, bind, Except.bind, if_neg hf]

theorem loadsRow_take {bs : Bytes} {size : ℕ} (hpos : 0 < data.length) (h : bs.take data.length = data) :
    io.loadsRow bs size data.length = io.val.loads data := by
  have hsize : (0 : ℤ) < data.length := by omega
  rw [loadsRow, if_pos hsize, Int.toNat_natCast, h]

/-- Up to eight bytes. -/
theorem decodeRow_short (hpos : 0 < data.length) (h : data.length ≤ 8) (key : List CodePoint) :
    io.decodeRow 0x08 (leNat (io.pad data 8)) key data.length = (io.val.loads data).map .val := by
  have hlen : (io.pad data 8).length = 8 := length_pad h
  have htake : (io.pad data 8).take data.length = data := by
    have hpad : (io.pad data 8 ++ []).take data.length = data := take_pad [] 8
    rwa [List.append_nil] at hpad
  rw [decodeRow_natCast (by decide), payloadOf, if_neg (by decide), if_neg (by decide), if_neg (by decide),
    if_neg (by decide), if_pos (.inl rfl), packU64_leNat hlen]
  exact congrArg (Except.map RowVal.val) (loadsRow_take hpos htake)

/-- Up to fifteen bytes; a sixteenth tells that they are there. -/
theorem decodeRow_long (hpos : 0 < data.length) (h : data.length ≤ 15) (key : List CodePoint) :
    2 ^ 56 ≤ leNat ((io.pad data 15 ++ [1]).drop 8) ∧
      io.decodeRow (leNat ((io.pad data 15 ++ [1]).drop 8)) (leNat ((io.pad data 15 ++ [1]).take 8)) key data.length =
        (io.val.loads data).map .val := by
  have hlen : (io.pad data 15).length = 15 := length_pad h
  have htake : (io.pad data 15 ++ [1]).take data.length = data := take_pad [1] 15
  obtain ⟨bs, hbs⟩ : ∃ bs, bs = io.pad data 15 := ⟨_, rfl⟩
  rw [← hbs] at hlen htake ⊢
  have hlo : ((bs ++ [1]).take 8).length = 8 := by
    rw [List.length_take, List.length_append, hlen]
    rfl
  have hhi : ((bs ++ [1]).drop 8).length = 8 := by
    rw [List.length_drop, List.length_append, hlen]
    rfl
  -- the last byte sets bit 56 and no bit above it
  have hbit : leNat ((bs ++ [1]).drop 8) / 2 ^ 56 = 1 := by
    have hdrop : (bs ++ [1]).drop 8 = bs.drop 8 ++ [1] := List.drop_append_of_le_length (by omega)
    have hseven : (bs.drop 8).length = 7 := by rw [List.length_drop, hlen]
    have hlt := leNat_lt (bs.drop 8)
    rw [hdrop, leNat_append, hseven, show leNat [1] = 1 by decide]
    rw [hseven] at hlt
    omega
  have hlo' := packU64_leNat hlo
  have hhi' := packU64_leNat hhi
  obtain ⟨hi, heq⟩ : ∃ hi, hi = leNat ((bs ++ [1]).drop 8) := ⟨_, rfl⟩
  rw [← heq] at hbit hhi' ⊢
  have hlarge : 2 ^ 56 ≤ hi := by omega
  refine ⟨hlarge, ?_⟩
  have hset : (hi : ℤ) / 2 ^ 56 % 2 = 1 := by omega
  rw [decodeRow_natCast (by omega), payloadOf, if_neg (by omega), if_neg (by omega), if_neg (by omega),
    if_neg (by omega), if_neg (by omega), if_pos hset, hlo', hhi']
  simp only [bind, Except.bind]
  rw [List.take_append_drop, loadsRow_take hpos htake]

end RowIo

/-! ## The codecs -/

/-- A character that JSON writes as `\u` and four digits. -/
def needsEscape (c : CodePoint) : Bool := c.val < 0x20 && c.val ∉ [8, 9, 10, 12, 13]

/-- JSON reads a string back and escapes what is in it; what it does not know goes through `default`. -/
structure JsonHook.Documented (json : JsonHook) : Prop where
  text : ∀ default s data, json.dumps default (.str s) = .ok data → json.loads data = .ok (.str s)
  escape : ∀ default s data, json.dumps default (.str s) = .ok data → 2 + 6 * s.countP needsEscape ≤ data.length
  hook : ∀ default b s, default (.bytes b) = .ok (.str s) → json.dumps default (.bytes b) = json.dumps default (.str s)
  refuse : ∀ default b e data, default (.bytes b) = .error e → json.dumps default (.bytes b) ≠ .ok data
  ne : ∀ default v data, json.dumps default v = .ok data → data ≠ []

/-- The others read strings and bytes back. -/
structure ValLib.Documented (lib : ValLib) : Prop where
  text : ∀ s data, lib.dumps (.str s) = .ok data → lib.loads data = .ok (.str s)
  bytes : ∀ b data, lib.dumps (.bytes b) = .ok data → lib.loads data = .ok (.bytes b)
  ne : ∀ v data, lib.dumps v = .ok data → data ≠ []

namespace JIoVAL

/-- What a codec relies on of its serialiser. -/
def Documented : JIoVAL → Prop
  | J json => json.Documented
  | S lib | M lib | P lib | Y lib | U lib => lib.Documented

variable {c : JIoVAL}

theorem caught_eq_ok {α : Type} {x : Except Err α} {a : α} : caught x = .ok a ↔ x = .ok a := by
  cases x with
  | ok b => exact Iff.rfl
  | error e => exact iff_of_false (fun h => by cases h) fun h => by cases h

theorem retry_ok {padByte : UInt8} {loads : Bytes → Except Err MsgVal} {v : MsgVal} (h : loads data = .ok v) (n : ℕ) :
    retry padByte loads (n + 1) data = .ok v := by
  rw [retry, h]

theorem dumps_ne (hc : c.Documented) {v : MsgVal} (h : c.dumps v = .ok data) : data ≠ [] := by
  cases c with
  | J json => exact hc.ne _ v data (caught_eq_ok.1 h)
  | S lib => exact hc.ne v data (caught_eq_ok.1 h)
  | M lib => exact hc.ne v data (caught_eq_ok.1 h)
  | P lib => exact hc.ne v data (caught_eq_ok.1 h)
  | Y lib => exact hc.ne v data (caught_eq_ok.1 h)
  | U lib => exact hc.ne v data (caught_eq_ok.1 h)

/-- The marker alone takes more than fifteen bytes of JSON. -/
theorem length_marked {json : JsonHook} (hc : json.Documented) {s : List CodePoint} (hs : s.take 4 = marker)
    (h : json.dumps jsonDefault (.str s) = .ok data) : 15 < data.length := by
  have hlen := hc.escape _ _ _ h
  have hsplit : s = marker ++ s.drop 4 := by
    rw [← hs, List.take_append_drop]
  have hfour : marker.countP needsEscape = 4 := by decide
  rw [hsplit, List.countP_append, hfour] at hlen
  omega

/-- **A string** of few bytes is read back. -/
theorem loads_str (hc : c.Documented) {s : List CodePoint} (h : c.dumps (.str s) = .ok data) (hlen : data.length ≤ 15) :
    c.loads data = .ok (.str s) := by
  cases c with
  | J json =>
    have hdump := caught_eq_ok.1 h
    have hplain : s.take 4 ≠ marker := by
      intro hs
      have := length_marked hc hs hdump
      omega
    rw [loads, hc.text _ s data hdump]
    exact if_neg hplain
  | S lib => exact retry_ok (hc.text s data (caught_eq_ok.1 h)) 8
  | M lib => exact retry_ok (hc.text s data (caught_eq_ok.1 h)) 8
  | P lib => exact retry_ok (hc.text s data (caught_eq_ok.1 h)) 8
  | Y lib => exact retry_ok (hc.text s data (caught_eq_ok.1 h)) 8
  | U lib => exact caught_eq_ok.2 (hc.text s data (caught_eq_ok.1 h))

/-- **Bytes** are read back; JSON never makes few bytes of them. -/
theorem loads_bytes (hc : c.Documented) {b : Bytes} (h : c.dumps (.bytes b) = .ok data) (hlen : data.length ≤ 15) :
    c.loads data = .ok (.bytes b) := by
  cases c with
  | J json =>
    have hdump := caught_eq_ok.1 h
    cases hm : markBytes b with
    | error e =>
      have hraise : jsonDefault (.bytes b) = .error e := by rw [jsonDefault, hm]; rfl
      exact absurd hdump (hc.refuse _ b e data hraise)
    | ok s =>
      have hstands : jsonDefault (.bytes b) = .ok (.str s) := by rw [jsonDefault, hm]; rfl
      rw [hc.hook _ b s hstands] at hdump
      -- what stands for the bytes begins with the marker
      have hs : s.take 4 = marker := by
        unfold markBytes at hm
        split at hm
        · cases hm
        · obtain rfl := Except.ok.inj hm
          rfl
      have := length_marked hc hs hdump
      omega
  | S lib => exact retry_ok (hc.bytes b data (caught_eq_ok.1 h)) 8
  | M lib => exact retry_ok (hc.bytes b data (caught_eq_ok.1 h)) 8
  | P lib => exact retry_ok (hc.bytes b data (caught_eq_ok.1 h)) 8
  | Y lib => exact retry_ok (hc.bytes b data (caught_eq_ok.1 h)) 8
  | U lib => exact caught_eq_ok.2 (hc.bytes b data (caught_eq_ok.1 h))

end JIoVAL

/-! ## Values -/

/-- Neither a container nor a value of another type. -/
def MsgVal.isAtom : MsgVal → Bool
  | .none | .bool _ | .int _ | .float _ | .str _ | .bytes _ => true
  | _ => false

/-- Equal and of the same type; what that means for containers is `same`. -/
def MsgVal.Alike (same : Setoid MsgVal) (v w : MsgVal) : Prop :=
  v = w ∨ v.isAtom = false ∧ w.isAtom = false ∧ same.r v w

def RowVal.Alike (same : Setoid MsgVal) : RowVal → RowVal → Prop
  | .val v, .val w => v.Alike same w
  | v, w => v = w

/-- The codec gives the value back. -/
def JIoVAL.RoundTrips (same : Setoid MsgVal) (c : JIoVAL) (v : MsgVal) : Prop :=
  ∀ data, c.dumps v = .ok data → ∃ w, c.loads data = .ok w ∧ w.Alike same v

/-- `None`, a `bool`, an `int`, a `float`, a `str`, `bytes`, a `date`, an empty with a code of its
own, or a container that the codec gives back. -/
def RowVal.Packable (same : Setoid MsgVal) (c : JIoVAL) : RowVal → Prop
  | .val v => v.isAtom = true ∨ (RowVal.val v).emptyCode ≠ none ∨ c.RoundTrips same v
  | .date _ => True
  | .datetime _ | .jdb _ _ => False

variable {same : Setoid MsgVal}

theorem MsgVal.Alike.symm {v w : MsgVal} (h : v.Alike same w) : w.Alike same v := by
  obtain h | ⟨hv, hw, h⟩ := h
  · exact .inl h.symm
  · exact .inr ⟨hw, hv, same.symm h⟩

theorem MsgVal.Alike.trans {u v w : MsgVal} (h : u.Alike same v) (h' : v.Alike same w) : u.Alike same w := by
  obtain h | ⟨hu, hv, h⟩ := h
  · exact h ▸ h'
  · obtain h' | ⟨-, hw, h'⟩ := h'
    · exact h' ▸ .inr ⟨hu, hv, h⟩
    · exact .inr ⟨hu, hw, same.trans h h'⟩

theorem RowVal.Alike.refl (v : RowVal) : v.Alike same v := by
  cases v with
  | val v => exact .inl rfl
  | date d => exact rfl
  | datetime ts => exact rfl
  | jdb mem path => exact rfl

theorem RowVal.Alike.symm {v w : RowVal} (h : v.Alike same w) : w.Alike same v := by
  cases v with
  | val v =>
    cases w with
    | val w => exact MsgVal.Alike.symm h
    | date d => exact Eq.symm h
    | datetime ts => exact Eq.symm h
    | jdb mem path => exact Eq.symm h
  | date d => exact (show RowVal.date d = w from h) ▸ .refl _
  | datetime ts => exact (show RowVal.datetime ts = w from h) ▸ .refl _
  | jdb mem path => exact (show RowVal.jdb mem path = w from h) ▸ .refl _

theorem RowVal.Alike.trans {u v w : RowVal} (h : u.Alike same v) (h' : v.Alike same w) : u.Alike same w := by
  cases u with
  | val u =>
    cases v with
    | val v =>
      cases w with
      | val w => exact MsgVal.Alike.trans h h'
      | date d => cases h'
      | datetime ts => cases h'
      | jdb mem path => cases h'
    | date d => cases h
    | datetime ts => cases h
    | jdb mem path => cases h
  | date d => exact (show RowVal.date d = v from h) ▸ h'
  | datetime ts => exact (show RowVal.datetime ts = v from h) ▸ h'
  | jdb mem path => exact (show RowVal.jdb mem path = v from h) ▸ h'

/-! ## The round trip -/

namespace RowIo

variable {key : List CodePoint} {v w : RowVal} {t p n : ℕ}

/-- An empty with a code of its own. -/
theorem decodeRow_empty {code : ℕ} (h : v.emptyCode = some code) (key : List CodePoint) :
    io.decodeRow (0 : ℕ) code key (0 : ℕ) = .ok v := by
  unfold RowVal.emptyCode at h
  split at h
  · obtain rfl := Option.some.inj h; rfl
  · obtain rfl := Option.some.inj h; rfl
  · obtain rfl := Option.some.inj h; rfl
  · obtain rfl := Option.some.inj h; rfl
  · obtain rfl := Option.some.inj h; rfl
  · obtain rfl := Option.some.inj h; rfl
  · obtain rfl := Option.some.inj h; rfl
  · obtain rfl := Option.some.inj h; rfl
  · cases h

/-- The signed reading of 64 bits undoes the unsigned one. -/
theorem decodeRow_neg {i : ℤ} (hneg : i < 0) (hmin : ¬ i < -(2 ^ 63)) (key : List CodePoint) :
    io.decodeRow 0x02 (i + 2 ^ 64).toNat key 0 = .ok (.val (.int i)) := by
  obtain ⟨m, hm⟩ : ∃ m, m = (i + 2 ^ 64).toNat := ⟨_, rfl⟩
  rw [← hm]
  have hpack : packU64 (m : ℤ) = .ok (leBytes 8 m) := by
    rw [packU64, if_pos (by omega), Int.toNat_natCast]
  have hback : leNat (leBytes 8 m) = m := leNat_leBytes (by omega)
  rw [decodeRow_natCast (by decide), payloadOf, if_neg (by decide), if_pos rfl, hpack]
  simp only [bind, Except.bind, hback]
  have hhigh : ¬ (m : ℤ) < 2 ^ 63 := by omega
  have hval : (m : ℤ) - 2 ^ 64 = i := by omega
  rw [if_neg hhigh, hval]

theorem decodeRow_nonneg {i : ℤ} (hpos : ¬ i < 0) (key : List CodePoint) :
    io.decodeRow 0x03 i.toNat key 0 = .ok (.val (.int i)) := by
  have hval : ((i.toNat : ℕ) : ℤ) = i := by omega
  rw [decodeRow_natCast (by decide), payloadOf, if_neg (by decide), if_neg (by decide), if_pos rfl, hval]

theorem decodeRow_float (bits : BitVec 64) (key : List CodePoint) :
    io.decodeRow 0x04 bits.toNat key 0 = .ok (.val (.float bits)) := by
  have hlt := bits.isLt
  have hpack : packU64 (bits.toNat : ℤ) = .ok (leBytes 8 bits.toNat) := by
    rw [packU64, if_pos (by omega), Int.toNat_natCast]
  have hback : leNat (leBytes 8 bits.toNat) = bits.toNat := leNat_leBytes (by omega)
  rw [decodeRow_natCast (by decide), payloadOf, if_neg (by decide), if_neg (by decide), if_neg (by decide), if_pos rfl,
    hpack]
  simp only [bind, Except.bind, hback, BitVec.ofNat_toNat, BitVec.setWidth_eq]

theorem decodeRow_date (d : DateOrd) (key : List CodePoint) :
    io.decodeRow 0x18 d.ordinal key 0 = .ok (.date d) := by
  have hord : 1 ≤ (d.ordinal : ℤ).toNat ∧ (d.ordinal : ℤ).toNat ≤ MAX_ORDINAL := by
    rw [Int.toNat_natCast]
    exact ⟨d.pos, d.le_max⟩
  rw [decodeRow_natCast (by decide), payloadOf, if_neg (by decide), if_neg (by decide), if_neg (by decide),
    if_neg (by decide), if_neg (by decide), if_neg (by decide), if_neg (by decide), if_pos rfl, dif_pos hord]
  rfl

theorem zipped_ne_head (t p n : ℕ) : io.zipped data ≠ .ok (.head t p n) := by
  unfold zipped
  split
  · intro h
    cases h
  · cases caught (io.zip data) with
    | error e => exact fun h => by cases h
    | ok bs => exact fun h => by cases h

/-- **Few bytes** come back from the row as they were. -/
theorem decodeRow_bytes (hne : data ≠ []) (h : io.encodeBytes data = .ok (.head t p n)) (key : List CodePoint) :
    data.length ≤ 15 ∧ io.decodeRow t p key n = (io.val.loads data).map .val := by
  have hpos : 0 < data.length := List.length_pos_of_ne_nil hne
  unfold encodeBytes at h
  split at h
  · rename_i hshort
    obtain ⟨rfl, rfl, rfl⟩ := Enc.head.inj (Except.ok.inj h)
    exact ⟨by omega, decodeRow_short hpos hshort.2 key⟩
  · split at h
    · rename_i hlong
      obtain ⟨rfl, rfl, rfl⟩ := Enc.head.inj (Except.ok.inj h)
      exact ⟨hlong.2, (decodeRow_long hpos hlong.2 key).2⟩
    · exact absurd h (zipped_ne_head t p n)

/-- Numbers are never left to the codec. -/
def isNumber : MsgVal → Bool
  | .bool _ | .int _ | .float _ => true
  | _ => false

/-- What `encodeRow` does with the bytes of the codec. -/
theorem match_eq_bind (x : Except Err Bytes) :
    (match x with
      | .error e => .error e
      | .ok data => io.encodeBytes data) = x >>= io.encodeBytes := by
  cases x with
  | error e => rfl
  | ok data => rfl

theorem encodeRow_codec {m : MsgVal} (hcode : (RowVal.val m).emptyCode = none) (hm : isNumber m = false) :
    io.encodeRow key (.val m) = io.val.dumps m >>= io.encodeBytes := by
  rw [← match_eq_bind, encodeRow.eq_def, hcode]
  cases m with
  | bool b => cases hm
  | int i => cases hm
  | float bits => cases hm
  | _ => rfl

/-- A value that the codec packs, and gives back when it makes few bytes of it. -/
theorem decodeRow_codec (hc : io.val.Documented) {m : MsgVal} (hcode : (RowVal.val m).emptyCode = none)
    (hm : isNumber m = false)
    (hback : ∀ data, io.val.dumps m = .ok data → data.length ≤ 15 →
      ∃ x, io.val.loads data = .ok x ∧ x.Alike same m)
    (h : io.encodeRow key (.val m) = .ok (.head t p n)) (key' : List CodePoint) :
    ∃ w, io.decodeRow t p key' n = .ok w ∧ w.Alike same (.val m) := by
  rw [encodeRow_codec hcode hm] at h
  cases hd : io.val.dumps m with
  | error e =>
    rw [hd] at h
    cases h
  | ok data =>
    rw [hd] at h
    obtain ⟨hlen, hdec⟩ := decodeRow_bytes (JIoVAL.dumps_ne hc hd) h key'
    obtain ⟨x, hx, hsame⟩ := hback data hd hlen
    rw [hx] at hdec
    exact ⟨.val x, hdec, hsame⟩

/-- **What is packed into a row** is unpacked. -/
theorem decodeRow_encodeRow (hc : io.val.Documented) (hv : v.Packable same io.val)
    (h : io.encodeRow key v = .ok (.head t p n)) (key' : List CodePoint) :
    ∃ w, io.decodeRow t p key' n = .ok w ∧ w.Alike same v := by
  have exact_ : io.decodeRow t p key' n = .ok v → ∃ w, io.decodeRow t p key' n = .ok w ∧ w.Alike same v :=
    fun hdec => ⟨v, hdec, .refl v⟩
  cases hcode : v.emptyCode with
  | some code =>
    rw [encodeRow.eq_def, hcode] at h
    obtain ⟨rfl, rfl, rfl⟩ := Enc.head.inj (Except.ok.inj h)
    exact exact_ (decodeRow_empty hcode key')
  | none =>
    have henc := h
    rw [encodeRow.eq_def, hcode] at henc
    cases v with
    | jdb mem path => exact hv.elim
    | datetime ts => exact hv.elim
    | date d =>
      obtain ⟨rfl, rfl, rfl⟩ := Enc.head.inj (Except.ok.inj henc)
      exact exact_ (decodeRow_date d key')
    | val m =>
      -- a value of another type than these is one that the codec gives back
      have container (hm : m.isAtom = false) (hnum : isNumber m = false) :
          ∃ w, io.decodeRow t p key' n = .ok w ∧ w.Alike same (.val m) := by
        have htrips : io.val.RoundTrips same m := by
          obtain ha | he | hr := hv
          · rw [hm] at ha
            cases ha
          · exact absurd hcode he
          · exact hr
        exact decodeRow_codec hc hcode hnum (fun data hd _ => htrips data hd) h key'
      cases m with
      | none => cases hcode
      | bool b =>
        obtain ⟨rfl, rfl, rfl⟩ := Enc.head.inj (Except.ok.inj henc)
        cases b with
        | false => exact exact_ rfl
        | true => exact exact_ rfl
      | int i =>
        dsimp only at henc
        split at henc
        · rename_i hneg
          split at henc
          · cases henc
          · rename_i hmin
            obtain ⟨rfl, rfl, rfl⟩ := Enc.head.inj (Except.ok.inj henc)
            exact exact_ (decodeRow_neg hneg hmin key')
        · rename_i hpos
          obtain ⟨rfl, rfl, rfl⟩ := Enc.head.inj (Except.ok.inj henc)
          exact exact_ (decodeRow_nonneg hpos key')
      | float bits =>
        obtain ⟨rfl, rfl, rfl⟩ := Enc.head.inj (Except.ok.inj henc)
        exact exact_ (decodeRow_float bits key')
      | str s =>
        refine decodeRow_codec hc hcode rfl (fun data hd hlen => ?_) h key'
        exact ⟨_, JIoVAL.loads_str hc hd hlen, .inl rfl⟩
      | bytes b =>
        refine decodeRow_codec hc hcode rfl (fun data hd hlen => ?_) h key'
        exact ⟨_, JIoVAL.loads_bytes hc hd hlen, .inl rfl⟩
      | _ => exact container rfl rfl

end RowIo

/-! ## Through a KEY row -/

/-- Every row that is written with the three numbers of a value is read back as the value. -/
def RowIo.Faithful (io : RowIo) (same : Setoid MsgVal) (k : KeyCodec) (v : RowVal) : Prop :=
  ∀ key t p n, io.encodeRow key v = .ok (.head t p n) →
    ∀ (l : Layout) (r : KeyInfo ℕ), r.key = key → r.fileId = t → r.offset = p → r.rowSize = 0 → r.valSize = n →
      ∀ bs size, k.dumps l r = .ok bs → bs.length < size →
        ∃ r' w, k.loads l (KeyFile.padRow bs size) = .ok r' ∧
          io.decodeRow r'.fileId r'.offset key r'.valSize = .ok w ∧ w.Alike same v

/-- Whatever else `write_key` is given, and whenever: its row is one of these. -/
theorem RowIo.Faithful.writeKey {k : KeyCodec} {v : RowVal} (h : io.Faithful same k v) {a : KeyArgs} {t p n : ℕ}
    (henc : io.encodeRow (a.key.map toPoint) v = .ok (.head t p n)) (ha : a.fileId = t ∧ a.offset = p)
    (hsize : a.rowSize = 0 ∧ a.valSize = n) (l : Layout) (now sync : ℕ) {bs : Bytes} {size : ℕ}
    (hdump : k.dumps l (normal now sync a).keyInfo = .ok bs) (hlt : bs.length < size) :
    ∃ r' w, k.loads l (KeyFile.padRow bs size) = .ok r' ∧
      io.decodeRow r'.fileId r'.offset (a.key.map toPoint) r'.valSize = .ok w ∧ w.Alike same v :=
  h _ t p n henc l _ rfl ha.1 ha.2 hsize.1 hsize.2 bs size hdump hlt

/-- Two values with the same three numbers are alike. -/
def RowIo.Told (io : RowIo) (same : Setoid MsgVal) (v w : RowVal) : Prop :=
  ∀ key key' t p n, io.encodeRow key v = .ok (.head t p n) → io.encodeRow key' w = .ok (.head t p n) → v.Alike same w

/-- **Packing is faithful**, and tells apart the values it is faithful for. -/
theorem encodeRow_faithful (io : RowIo) (hc : io.val.Documented) {k : KeyCodec} (hk : k.Sound) {v : RowVal}
    (hv : v.Packable same io.val) :
    io.Faithful same k v ∧ ∀ w : RowVal, w.Packable same io.val → io.Told same v w := by
  constructor
  · intro key t p n henc l r hkey ht hp hrow hn bs size hdump _
    obtain ⟨r', hload, hid, hoff, -, hsize⟩ := KeyCodec.loads_inline hk hdump hrow size
    obtain ⟨w, hdec, hsame⟩ := RowIo.decodeRow_encodeRow hc hv henc key
    refine ⟨r', w, hload, ?_, hsame⟩
    rw [hid, hoff, hsize, ht, hp, hn]
    exact hdec
  · intro w hw key key' t p n henc henc'
    obtain ⟨x, hdec, hsame⟩ := RowIo.decodeRow_encodeRow hc hv henc key
    obtain ⟨y, hdec', hsame'⟩ := RowIo.decodeRow_encodeRow hc hw henc' key
    obtain rfl := Except.ok.inj (hdec.symm.trans hdec')
    exact hsame.symm.trans hsame'

/-! ## `msgpack` and JSON -/

/-- The `msgpack` written in Python. -/
def msgLib (limit : ℕ) : ValLib where
  dumps v :=
    match msgDumps v with
    | .ok bs => .ok bs
    | .error _ => .error .value
  loads data :=
    match msgLoads limit data with
    | .ok v => .ok v
    | .error _ => .error .value

theorem IsHeader.ne {hd : Bytes} (h : IsHeader hd) : hd ≠ [] := by
  obtain ⟨b, rfl⟩ | ⟨b, k, n, hn, -⟩ := h
  · exact List.cons_ne_nil _ _
  · rw [(packNat_eq_ok.1 hn).2]
    exact List.cons_ne_nil _ _

theorem enc_ne {v : MsgVal} {bs : Bytes} (h : MsgVal.enc v = .ok bs) : bs ≠ [] := by
  have behind : ∀ {hd b : Bytes}, IsHeader hd → hd ++ b ≠ [] := fun hd h => hd.ne (List.append_eq_nil_iff.1 h).1
  have hraw : ∀ {header : ℕ → Except MsgErr Bytes} {b : Bytes}, (∀ {n hd}, header n = .ok hd → IsHeader hd) →
      encRaw header b = .ok bs → bs ≠ [] := by
    intro header b hh he
    obtain ⟨hd, hhd, rfl⟩ := encRaw_eq_ok he
    exact behind (hh hhd)
  have hseq : ∀ {header : ℕ → Except MsgErr Bytes} {n : ℕ} {items : Except MsgErr Bytes},
      (∀ {n hd}, header n = .ok hd → IsHeader hd) → encSeq header n items = .ok bs → bs ≠ [] := by
    intro header n items hh he
    obtain ⟨hd, b, hhd, -, rfl⟩ := encSeq_eq_ok he
    exact behind (hh hhd)
  have hext : ∀ {code : UInt8} {payload : Except MsgErr Bytes}, encExt code payload = .ok bs → bs ≠ [] := by
    intro code payload he
    obtain ⟨hd, p, -, hhd, rfl⟩ := encExt_eq_ok he
    exact behind (isHeader_ext hhd)
  cases v with
  | none => exact (isHeader_one h).ne
  | bool b => exact (isHeader_one h).ne
  | int i => exact (isHeader_int h).ne
  | float bits =>
    rw [MsgVal.enc] at h
    rw [(packNat_eq_ok.1 h).2]
    exact List.cons_ne_nil _ _
  | bytes b => exact hraw isHeader_bin h
  | bytearray b => exact hraw isHeader_bin h
  | memoryview b => exact hraw isHeader_bin h
  | str s =>
    rw [MsgVal.enc] at h
    cases hu : encodeUtf8 s with
    | error e =>
      rw [hu] at h
      cases h
    | ok b =>
      rw [hu] at h
      exact hraw isHeader_str h
  | list xs => exact hseq isHeader_array h
  | tuple xs => exact hseq isHeader_array h
  | dict kvs => exact hseq isHeader_map h
  | set xs => exact hext h
  | frozenset xs => exact hext h
  | obj id => cases h

/-- It reads strings and bytes back. -/
theorem msgLib_documented {limit : ℕ} (hl : 1 ≤ limit) : (msgLib limit).Documented := by
  have hdumps : ∀ {v bs}, (msgLib limit).dumps v = .ok bs → msgDumps v = .ok bs := by
    intro v bs h
    unfold msgLib at h
    dsimp only at h
    cases hd : msgDumps v with
    | error e =>
      rw [hd] at h
      cases h
    | ok c =>
      rw [hd] at h
      exact congrArg _ (Except.ok.inj h)
  have hback : ∀ {v : MsgVal}, v.Plain → v.depth ≤ 1024 → v.levels ≤ limit → ∀ bs, (msgLib limit).dumps v = .ok bs →
      (msgLib limit).loads bs = .ok v := by
    intro v hp hd hlv bs h
    have hread := (msgUnpack_msgDumps hp hd).2 bs (hdumps h) [] limit hlv
    rw [List.append_nil] at hread
    have hload : msgLoads limit bs = .ok v := by
      rw [msgLoads, if_neg (enc_ne (msgDumps_ok (hdumps h))), hread]
    unfold msgLib
    dsimp only
    rw [hload]
  refine ⟨fun s => hback trivial (Nat.zero_le _) hl, fun b => hback trivial (Nat.zero_le _) hl, ?_⟩
  intro v bs h
  exact enc_ne (msgDumps_ok (hdumps h))

/-- A handle over `msgpack` rows and values, without compression. -/
def msgIo (val : JIoVAL) : RowIo where
  val := val
  wide := true
  pad0Byte := 0x0A
  noZip := true
  zip := .ok
  unzipPad := .ok
  isGroup _ _ := false
  groups _ := none

theorem encodeRow_faithful_text :
    (msgIo (.S (msgLib 1))).Faithful ⊥ (.S (msgTuples 2)) (.val (.str [104, 105])) ∧
      ∀ w : RowVal, w.Packable ⊥ (.S (msgLib 1)) → (msgIo (.S (msgLib 1))).Told ⊥ (.val (.str [104, 105])) w :=
  encodeRow_faithful (msgIo (.S (msgLib 1))) (msgLib_documented le_rfl) (k := .S (msgTuples 2))
    (msgTuples_exact (by decide)) (.inl rfl)

/-- JSON of an empty list. -/
def listJson : JsonHook where
  dumps default
    | .list [] => .ok [0x5B, 0x5D]
    | .frozenset xs =>
      match default (.frozenset xs) with
      | .ok (.list []) => .ok [0x5B, 0x5D]
      | _ => .error .type
    | _ => .error .type
  loads bs := if bs = [0x5B, 0x5D] then .ok (.list []) else .error .value

theorem listJson_documented : listJson.Documented where
  text _ _ _ h := by cases h
  escape _ _ _ h := by cases h
  hook _ _ _ _ := rfl
  refuse _ _ _ _ _ h := by cases h
  ne default v data h := by
    unfold listJson at h
    dsimp only at h
    split at h
    · exact Except.ok.inj h ▸ List.cons_ne_nil _ _
    · split at h
      · exact Except.ok.inj h ▸ List.cons_ne_nil _ _
      · cases h
    · cases h

/-- The row of the two letters of `[]`. -/
def listRow : KeyInfo ℕ := { groupRow with key := [107], fileId := 0x08, offset := 0x0A0A0A0A0A0A5D5B, valSize := 2 }

/-- **The empty `frozenset`** has no code of its own: under JSON it comes back as a list. -/
theorem encodeRow_frozenset : (JIoVAL.J listJson).Documented ∧
    ¬ (msgIo (.J listJson)).Faithful ⊥ (.S (msgTuples 2)) (.val (.frozenset [])) := by
  refine ⟨listJson_documented, fun h => ?_⟩
  obtain ⟨bs, hbs, hlt⟩ : ∃ bs, (KeyCodec.S (msgTuples 2)).dumps .v2 listRow = .ok bs ∧ bs.length < 80 :=
    ⟨[205, 0, 27, 152, 161, 107, 8, 207, 10, 10, 10, 10, 10, 10, 93, 91, 0, 2, 7, 207, 0, 0, 15, 0, 0, 0, 113, 72, 204, 132],
      by decide +kernel, by decide⟩
  obtain ⟨r', w, hload, hdec, hsame⟩ := h [107] 0x08 0x0A0A0A0A0A0A5D5B 2 rfl .v2 listRow rfl rfl rfl rfl rfl bs 80 hbs hlt
  obtain ⟨r'', hload', hid, hoff, -, hsize⟩ :=
    KeyCodec.loads_inline (k := .S (msgTuples 2)) (msgTuples_exact (by decide)) hbs rfl 80
  obtain rfl := Except.ok.inj (hload.symm.trans hload')
  rw [hid, hoff, hsize] at hdec
  have hlist : (msgIo (.J listJson)).decodeRow (0x08 : ℕ) (0x0A0A0A0A0A0A5D5B : ℕ) [107] (2 : ℕ) = .ok (.val (.list [])) := by
    rfl
  obtain rfl := Except.ok.inj (hdec.symm.trans hlist)
  obtain h | ⟨-, -, h⟩ := hsame
  · cases h
  · cases h

end OmniJsonDb
