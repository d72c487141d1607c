import OmniJsonDb.Model.Msgpack
import OmniJsonDb.Proof.Values

/-!
# Packing into a stream

`enc` is the packing without the stream, and `msgPack` at the end of a stream appends exactly
that, also where a set is packed in place and its payload written a second time. `Fits` says that
every length and number has a header that holds it.

* `put_mid`, `packArray_eq`: the stream, and the payload that is written again behind a header.
* `msgPack_eq`: `msgPack` appends `enc`.
* `enc_isOk_iff`: when packing succeeds.
-/

namespace OmniJsonDb

/-! ## Numbers -/

theorem length_beBytes (k n : ℕ) : (beBytes k n).length = k := by
  have hle : ∀ k n, (leBytes k n).length = k := by
    intro k
    induction k with
    | zero => intro n; rfl
    | succ k ih => intro n; simp [leBytes, ih]
  simp [beBytes, hle]

theorem leNat_leBytes {k n : ℕ} (h : n < 256 ^ k) : leNat (leBytes k n) = n := by
  induction k generalizing n with
  | zero => simp at h; simp [leBytes, leNat, h]
  | succ k ih =>
    have hdiv : n / 256 < 256 ^ k := by
      rw [Nat.div_lt_iff_lt_mul (by norm_num)]
      rwa [pow_succ] at h
    have hbyte : (UInt8.ofNat (n % 256)).toNat = n % 256 := by
      simp [UInt8.toNat_ofNat']
    simp only [leBytes, leNat, ih hdiv, hbyte]
    omega

theorem beNat_beBytes {k n : ℕ} (h : n < 256 ^ k) : beNat (beBytes k n) = n := by
  simp [beNat, beBytes, leNat_leBytes h]

theorem packNat_eq_ok {b : UInt8} {k n : ℕ} {bs : Bytes} :
    packNat b k n = .ok bs ↔ n < 256 ^ k ∧ bs = b :: beBytes k n := by
  unfold packNat
  split <;> simp_all [eq_comm]

theorem packInt_eq_ok {b : UInt8} {k : ℕ} {i : ℤ} {bs : Bytes} :
    packInt b k i = .ok bs ↔
      (-(256 ^ k) ≤ 2 * i ∧ 2 * i < 256 ^ k) ∧ bs = b :: beBytes k (i % 256 ^ k).toNat := by
  unfold packInt
  split <;> simp_all [eq_comm]

/-! ## Text -/

theorem toNat_ofNat_of_not_surrogate {c : CodePoint} (h : isSurrogate c = false) :
    (Char.ofNat c.val).toNat = c.val := by
  have hlt : c.val < 0x110000 := c.isLt
  have hv : c.val.isValidChar := by
    simp only [isSurrogate, Bool.and_eq_false_iff, decide_eq_false_iff_not] at h
    unfold Nat.isValidChar
    omega
  rw [Char.ofNat, dif_pos hv]
  rfl

/-- **Text.** What was encoded is decoded. -/
theorem decodeUtf8_encodeUtf8 {s : List CodePoint} {bs : Bytes} (h : encodeUtf8 s = .ok bs) :
    decodeUtf8 bs = .ok s := by
  unfold encodeUtf8 at h
  split at h
  · cases h
  · rename_i hs
    have hc : ∀ c ∈ s, isSurrogate c = false := by simpa using hs
    have hbs : bs = (s.map fun c => Char.ofNat c.val).flatMap String.utf8EncodeChar := by
      rw [List.flatMap_map]
      exact (Except.ok.inj h).symm
    have hdec : bs.toByteArray.utf8Decode? = some (s.map fun c => Char.ofNat c.val).toArray := by
      rw [hbs]
      exact List.utf8Decode?_utf8Encode
    simp only [decodeUtf8, hdec, List.map_map]
    congr 1
    conv_rhs => rw [← List.map_id s]
    refine List.map_congr_left fun c hm => ?_
    simp only [Function.comp, toNat_ofNat_of_not_surrogate (hc c hm), id]
    exact Fin.ofNat_val_eq_self c

/-! ## The stream -/

namespace MsgStream

/-- Where the next byte goes is the end. -/
def AtEnd (io : MsgStream) : Prop := io.idx = io.buf.length

def append (io : MsgStream) (b : Bytes) : MsgStream := ⟨io.buf ++ b, io.buf.length + b.length⟩

variable {io : MsgStream}

theorem append_atEnd (b : Bytes) : (io.append b).AtEnd := by simp [AtEnd, append]

@[simp] theorem append_append (b c : Bytes) : (io.append b).append c = io.append (b ++ c) := by
  simp [append, Nat.add_assoc]

/-- In front of the end, a write replaces as many bytes as it writes. -/
theorem put_mid (pre rest b : Bytes) :
    (⟨pre ++ rest, pre.length⟩ : MsgStream).put b = ⟨(pre ++ b) ++ rest.drop b.length, (pre ++ b).length⟩ := by
  unfold put write JBytesIo.write
  by_cases hb : b.length ≤ 0
  · have hnil : b = [] := List.length_eq_zero_iff.1 (by omega)
    simp [hnil]
  · rw [if_neg hb]
    have hlt : ¬ (pre ++ rest).length < pre.length := by simp
    simp only [if_neg hlt]
    split
    · rename_i hle
      have hrest : rest = [] := by
        have hlen : pre.length + rest.length ≤ pre.length := by simpa using hle
        exact List.length_eq_zero_iff.1 (by omega)
      simp [hrest]
    · simp [List.drop_append]

theorem write_fst (b : Bytes) : (io.write b).1 = b.length := by
  unfold write JBytesIo.write
  by_cases hb : b.length ≤ 0
  · simp_all
  · simp only [if_neg hb]
    split
    · split <;> rfl
    · split <;> rfl

theorem write_atEnd (h : io.AtEnd) (b : Bytes) : io.write b = (b.length, io.append b) := by
  obtain ⟨buf, idx⟩ := io
  obtain rfl : idx = buf.length := h
  have hput := put_mid buf [] b
  refine Prod.ext (write_fst b) ?_
  simpa [put, append] using hput

theorem put_atEnd (h : io.AtEnd) (b : Bytes) : io.put b = io.append b := by
  rw [put, write_atEnd h]

theorem append_idx_sub (h : io.AtEnd) (b : Bytes) : (io.append b).idx - io.idx = b.length := by
  have hidx : io.idx = io.buf.length := h
  simp [append, hidx]

end MsgStream

/-! ## The packing without the stream -/

/-- A sequence that is not packed item by item. -/
def encRaw (header : ℕ → Except MsgErr Bytes) (b : Bytes) : Except MsgErr Bytes :=
  if 2 ^ 32 ≤ b.length then .error .value else (header b.length).map (· ++ b)

/-- `n` items behind a header. -/
def encSeq (header : ℕ → Except MsgErr Bytes) (n : ℕ) (items : Except MsgErr Bytes) : Except MsgErr Bytes :=
  if 2 ^ 32 ≤ n then .error .value else header n >>= fun h => items.map (h ++ ·)

/-- An array as the payload of an ext object. -/
def encExt (code : UInt8) (payload : Except MsgErr Bytes) : Except MsgErr Bytes :=
  payload >>= fun p => (extHeader p.length).map (· ++ code :: p)

namespace MsgVal

mutual

def enc : MsgVal → Except MsgErr Bytes
  | .none => .ok [0xC0]
  | .bool b => .ok [if b then 0xC3 else 0xC2]
  | .int i => packIntObj i
  | .bytes b | .bytearray b | .memoryview b => encRaw binHeader b
  | .str s => encodeUtf8 s >>= encRaw strHeader
  | .float bits => packNat 0xCB 8 bits.toNat
  | .list xs | .tuple xs => encSeq arrayHeader xs.length (encAll xs)
  | .set xs => encExt EXT_SET (encSeq arrayHeader xs.length (encAll xs))
  | .frozenset xs => encExt EXT_FROZENSET (encSeq arrayHeader xs.length (encAll xs))
  | .dict kvs => encSeq mapHeader kvs.length (encItems kvs)
  | .obj _ => .error .type

def encAll : List MsgVal → Except MsgErr Bytes
  | [] => .ok []
  | x :: xs => enc x >>= fun b => (encAll xs).map (b ++ ·)

def encItems : List (MsgVal × MsgVal) → Except MsgErr Bytes
  | [] => .ok []
  | (k, v) :: kvs => enc k >>= fun b => enc v >>= fun c => (encItems kvs).map (b ++ c ++ ·)

end

mutual

/-- How deep the containers of a value are nested. -/
def depth : MsgVal → ℕ
  | .list xs | .tuple xs | .set xs | .frozenset xs => 1 + depthAll xs
  | .dict kvs => 1 + depthItems kvs
  | _ => 0

def depthAll : List MsgVal → ℕ
  | [] => 0
  | x :: xs => max (depth x) (depthAll xs)

def depthItems : List (MsgVal × MsgVal) → ℕ
  | [] => 0
  | (k, v) :: kvs => max (max (depth k) (depth v)) (depthItems kvs)

end

end MsgVal

open MsgVal

theorem packRaw_eq {io : MsgStream} (h : io.AtEnd) (header : ℕ → Except MsgErr Bytes) (b : Bytes) :
    packRaw io header b = (encRaw header b).map fun c => (c.length, io.append c) := by
  unfold packRaw encRaw
  split
  · rfl
  · cases header b.length with
    | error e => rfl
    | ok hd =>
      have hput : (io.put hd).put b = io.append (hd ++ b) := by
        rw [MsgStream.put_atEnd h, MsgStream.put_atEnd (MsgStream.append_atEnd hd), MsgStream.append_append]
      simp only [Except.map, bind, Except.bind, pure, Except.pure, hput, MsgStream.append_idx_sub h]

/-- **Packing in place.** The payload of an ext object is written, taken back from the buffer and
written again behind the header. -/
theorem packArray_eq {io : MsgStream} (h : io.AtEnd) (n : ℕ) {items : MsgStream → Except MsgErr MsgStream}
    {body : Except MsgErr Bytes} (hitems : ∀ out : MsgStream, out.AtEnd → items out = body.map out.append) :
    packArray io n items none = (encSeq arrayHeader n body).map (fun c => (c.length, io.append c)) ∧
      ∀ code, packArray io n items (some code) =
        (encExt code (encSeq arrayHeader n body)).map fun c => (c.length, io.append c) := by
  unfold packArray encExt encSeq
  split
  · exact ⟨rfl, fun _ => rfl⟩
  · cases arrayHeader n with
    | error e => exact ⟨rfl, fun _ => rfl⟩
    | ok hd =>
      have hhd : items (io.put hd) = body.map (fun b => io.append (hd ++ b)) := by
        rw [MsgStream.put_atEnd h, hitems _ (MsgStream.append_atEnd hd)]
        cases body with
        | error e => rfl
        | ok b => simp [Except.map]
      cases body with
      | error e => exact ⟨by simp [hhd, bind, Except.bind, Except.map], by simp [hhd, bind, Except.bind, Except.map]⟩
      | ok b =>
        simp only [bind, Except.bind, hhd, Except.map, MsgStream.append_idx_sub h, pure, Except.pure, true_and]
        intro code
        set p := hd ++ b with hp
        obtain ⟨buf, idx⟩ := io
        obtain rfl : idx = buf.length := h
        -- what is taken back is the array
        have hdata : ((MsgStream.append ⟨buf, buf.length⟩ p).buf.take (buf.length + p.length)).drop buf.length = p := by
          rw [MsgStream.append, ← List.length_append, List.take_length, List.drop_left]
        simp only [hdata]
        cases extHeader p.length with
        | error e => rfl
        | ok ext =>
          have hmid : ((({ MsgStream.append ⟨buf, buf.length⟩ p with idx := buf.length } : MsgStream).put ext).put
              [code]).put p = MsgStream.append ⟨buf, buf.length⟩ (ext ++ code :: p) := by
            simp only [MsgStream.append]
            rw [MsgStream.put_mid, MsgStream.put_mid, MsgStream.put_mid]
            simp [List.drop_drop]
          simp only [hmid]
          congr 2
          simp [MsgStream.append]

mutual

/-- **The stream.** At the end of a stream, packing appends the encoding. -/
theorem msgPack_eq : ∀ (v : MsgVal) {nest : ℤ} {io : MsgStream}, io.AtEnd → v.depth ≤ nest →
    msgPack nest io v = (enc v).map fun c => (c.length, io.append c)
  | v, nest, io, h, hd => by
    have hnest : ¬ nest < 0 := by
      have := Int.natCast_nonneg v.depth
      omega
    cases v with
    | none => simp [msgPack, enc, hnest, MsgStream.write_atEnd h, Except.map]
    | bool b => simp [msgPack, enc, hnest, MsgStream.write_atEnd h, Except.map]
    | int i =>
      simp only [msgPack, enc, if_neg hnest]
      exact congrArg (fun f => Except.map f (packIntObj i)) (funext (MsgStream.write_atEnd h))
    | float bits =>
      simp only [msgPack, enc, if_neg hnest]
      exact congrArg (fun f => Except.map f (packNat 0xCB 8 bits.toNat)) (funext (MsgStream.write_atEnd h))
    | str s =>
      simp only [msgPack, enc, if_neg hnest]
      cases encodeUtf8 s with
      | error e => rfl
      | ok b => exact packRaw_eq h strHeader b
    | bytes b => simp only [msgPack, enc, if_neg hnest]; exact packRaw_eq h binHeader b
    | bytearray b => simp only [msgPack, enc, if_neg hnest]; exact packRaw_eq h binHeader b
    | memoryview b => simp only [msgPack, enc, if_neg hnest]; exact packRaw_eq h binHeader b
    | list xs =>
      simp only [msgPack, enc, if_neg hnest]
      refine (packArray_eq h xs.length fun out ho => packAll_eq xs ho ?_).1
      simp only [depth] at hd; omega
    | tuple xs =>
      simp only [msgPack, enc, if_neg hnest]
      refine (packArray_eq h xs.length fun out ho => packAll_eq xs ho ?_).1
      simp only [depth] at hd; omega
    | set xs =>
      simp only [msgPack, enc, if_neg hnest]
      refine (packArray_eq h xs.length fun out ho => packAll_eq xs ho ?_).2 EXT_SET
      simp only [depth] at hd; omega
    | frozenset xs =>
      simp only [msgPack, enc, if_neg hnest]
      refine (packArray_eq h xs.length fun out ho => packAll_eq xs ho ?_).2 EXT_FROZENSET
      simp only [depth] at hd; omega
    | dict kvs =>
      simp only [msgPack, enc, if_neg hnest, encSeq]
      split
      · rfl
      · cases mapHeader kvs.length with
        | error e => rfl
        | ok hdr =>
          have hitems := @packItems_eq kvs (nest - 1) (io.append hdr) (MsgStream.append_atEnd hdr)
            (by simp only [depth] at hd; omega)
          simp only [bind, Except.bind, MsgStream.put_atEnd h, hitems]
          cases encItems kvs with
          | error e => rfl
          | ok b => simp [Except.map, pure, Except.pure, MsgStream.append_idx_sub h]
    | obj n => simp [msgPack, enc, hnest, Except.map]

theorem packAll_eq : ∀ (xs : List MsgVal) {nest : ℤ} {io : MsgStream}, io.AtEnd → depthAll xs ≤ nest →
    packAll nest io xs = (encAll xs).map io.append
  | [], nest, io, h, hd => by
    have hidx : io.idx = io.buf.length := h
    simp [packAll, encAll, Except.map, MsgStream.append, ← hidx]
  | x :: xs, nest, io, h, hd => by
    simp only [depthAll] at hd
    rw [packAll, encAll, msgPack_eq x h (by omega)]
    cases enc x with
    | error e => rfl
    | ok b =>
      simp only [Except.map, bind, Except.bind]
      rw [packAll_eq xs (MsgStream.append_atEnd b) (by omega)]
      cases encAll xs with
      | error e => rfl
      | ok c => simp [Except.map]

theorem packItems_eq : ∀ (kvs : List (MsgVal × MsgVal)) {nest : ℤ} {io : MsgStream}, io.AtEnd →
    depthItems kvs ≤ nest → packItems nest io kvs = (encItems kvs).map io.append
  | [], nest, io, h, hd => by
    have hidx : io.idx = io.buf.length := h
    simp [packItems, encItems, Except.map, MsgStream.append, ← hidx]
  | (k, v) :: kvs, nest, io, h, hd => by
    simp only [depthItems] at hd
    rw [packItems, encItems, msgPack_eq k h (by omega)]
    cases enc k with
    | error e => rfl
    | ok b =>
      simp only [Except.map, bind, Except.bind]
      rw [msgPack_eq v (MsgStream.append_atEnd b) (by omega)]
      cases enc v with
      | error e => rfl
      | ok c =>
        simp only [Except.map]
        rw [packItems_eq kvs (MsgStream.append_atEnd c) (by omega)]
        cases encItems kvs with
        | error e => rfl
        | ok d => simp [Except.map]

end

/-! ## When it succeeds -/

/-- Packing it is not refused for a length. -/
def FitsLength (n : ℕ) : Prop := n < 2 ^ 32

theorem packNat_isOk {b : UInt8} {k n : ℕ} (h : n < 256 ^ k) : ∃ bs, packNat b k n = .ok bs :=
  ⟨_, packNat_eq_ok.2 ⟨h, rfl⟩⟩

theorem binHeader_isOk {n : ℕ} (h : FitsLength n) : ∃ bs, binHeader n = .ok bs := by
  have hn : n < 2 ^ 32 := h
  unfold binHeader
  split
  · exact packNat_isOk (by omega)
  · split
    · exact packNat_isOk (by omega)
    · exact packNat_isOk (by omega)

theorem strHeader_isOk {n : ℕ} (h : FitsLength n) : ∃ bs, strHeader n = .ok bs := by
  have hn : n < 2 ^ 32 := h
  unfold strHeader
  split
  · exact ⟨_, rfl⟩
  · split
    · exact packNat_isOk (by omega)
    · split
      · exact packNat_isOk (by omega)
      · exact packNat_isOk (by omega)

theorem arrayHeader_isOk {n : ℕ} (h : FitsLength n) : ∃ bs, arrayHeader n = .ok bs := by
  have hn : n < 2 ^ 32 := h
  unfold arrayHeader
  split
  · exact ⟨_, rfl⟩
  · split
    · exact packNat_isOk (by omega)
    · exact packNat_isOk (by omega)

theorem mapHeader_isOk {n : ℕ} (h : FitsLength n) : ∃ bs, mapHeader n = .ok bs := by
  have hn : n < 2 ^ 32 := h
  unfold mapHeader
  split
  · exact ⟨_, rfl⟩
  · split
    · exact packNat_isOk (by omega)
    · exact packNat_isOk (by omega)

theorem extHeader_isOk_iff {n : ℕ} : (∃ bs, extHeader n = .ok bs) ↔ FitsLength n := by
  unfold extHeader FitsLength
  split
  · simp only [packNat_eq_ok]
    constructor
    · rintro ⟨_, hn, -⟩; exact hn
    · intro hn; exact ⟨_, hn, rfl⟩
  · have hn : n < 2 ^ 32 := by omega
    refine ⟨fun _ => hn, fun _ => ?_⟩
    split
    · exact packNat_isOk (by omega)
    · split_ifs
      · exact ⟨_, rfl⟩
      · exact ⟨_, rfl⟩
      · exact ⟨_, rfl⟩
      · exact ⟨_, rfl⟩
      · exact ⟨_, rfl⟩
      · exact packNat_isOk (by omega)

theorem packIntObj_isOk_iff {i : ℤ} : (∃ bs, packIntObj i = .ok bs) ↔ -2 ^ 63 ≤ i ∧ i < 2 ^ 64 := by
  constructor
  · rintro ⟨bs, h⟩
    by_contra hno
    unfold packIntObj at h
    repeat rw [if_neg (by omega)] at h
    cases h
  · rintro ⟨hlo, hhi⟩
    have hint : ∀ {b k}, -(256 ^ k) ≤ 2 * i → 2 * i < 256 ^ k → ∃ bs, packInt b k i = .ok bs :=
      fun h1 h2 => ⟨_, packInt_eq_ok.2 ⟨⟨h1, h2⟩, rfl⟩⟩
    unfold packIntObj
    split_ifs
    · exact ⟨_, rfl⟩
    · exact ⟨_, rfl⟩
    · exact packNat_isOk (by omega)
    · exact hint (by omega) (by omega)
    · exact packNat_isOk (by omega)
    · exact hint (by omega) (by omega)
    · exact packNat_isOk (by omega)
    · exact hint (by omega) (by omega)
    · exact packNat_isOk (by omega)
    · exact hint (by omega) (by omega)
    · omega

/-- When a sequence is packed, for a header that takes every length that fits. -/
theorem encSeq_isOk_iff {header : ℕ → Except MsgErr Bytes} {n : ℕ} {items : Except MsgErr Bytes}
    (hh : FitsLength n → ∃ bs, header n = .ok bs) :
    (∃ bs, encSeq header n items = .ok bs) ↔ FitsLength n ∧ ∃ bs, items = .ok bs := by
  unfold encSeq FitsLength
  split
  · simp; omega
  · have hn : n < 2 ^ 32 := by omega
    obtain ⟨h, hh⟩ := hh hn
    cases items with
    | error e => simp [hh, bind, Except.bind, Except.map]
    | ok b => simpa [hh, bind, Except.bind, Except.map] using hn

theorem encRaw_isOk_iff {header : ℕ → Except MsgErr Bytes} {b : Bytes}
    (hh : FitsLength b.length → ∃ bs, header b.length = .ok bs) :
    (∃ bs, encRaw header b = .ok bs) ↔ FitsLength b.length := by
  unfold encRaw FitsLength
  split
  · simp; omega
  · have hn : b.length < 2 ^ 32 := by omega
    obtain ⟨h, hh⟩ := hh hn
    simpa [hh, Except.map] using hn

theorem encExt_isOk_iff {code : UInt8} {payload : Except MsgErr Bytes} :
    (∃ bs, encExt code payload = .ok bs) ↔ ∃ p, payload = .ok p ∧ FitsLength p.length := by
  unfold encExt
  cases payload with
  | error e => simp [bind, Except.bind]
  | ok p =>
    have hext := extHeader_isOk_iff (n := p.length)
    cases he : extHeader p.length with
    | error e => simpa [he, bind, Except.bind, Except.map] using hext
    | ok h => simpa [he, bind, Except.bind, Except.map] using hext

namespace MsgVal

/-- The members of a set fit into a payload. -/
def FitsPayload (xs : List MsgVal) : Prop :=
  ∀ p, encSeq arrayHeader xs.length (encAll xs) = .ok p → FitsLength p.length

mutual

/-- Every number and every length has a header, and every text an encoding. -/
def Fits : MsgVal → Prop
  | .int i => -2 ^ 63 ≤ i ∧ i < 2 ^ 64
  | .bytes b | .bytearray b | .memoryview b => FitsLength b.length
  | .str s => s.any isSurrogate = false ∧
      FitsLength (s.flatMap fun c => String.utf8EncodeChar (Char.ofNat c.val)).length
  | .list xs | .tuple xs => FitsLength xs.length ∧ FitsAll xs
  | .set xs | .frozenset xs => (FitsLength xs.length ∧ FitsAll xs) ∧ FitsPayload xs
  | .dict kvs => FitsLength kvs.length ∧ FitsItems kvs
  | .obj _ => False
  | _ => True

def FitsAll : List MsgVal → Prop
  | [] => True
  | x :: xs => Fits x ∧ FitsAll xs

def FitsItems : List (MsgVal × MsgVal) → Prop
  | [] => True
  | (k, v) :: kvs => Fits k ∧ Fits v ∧ FitsItems kvs

end

end MsgVal

/-- A set is packed when its array is and fits into a payload. -/
theorem encExt_array_isOk_iff {code : UInt8} {xs : List MsgVal} (hall : (∃ bs, encAll xs = .ok bs) ↔ FitsAll xs) :
    (∃ bs, encExt code (encSeq arrayHeader xs.length (encAll xs)) = .ok bs) ↔
      (FitsLength xs.length ∧ FitsAll xs) ∧ FitsPayload xs := by
  rw [encExt_isOk_iff, ← hall, ← encSeq_isOk_iff arrayHeader_isOk]
  unfold FitsPayload
  cases encSeq arrayHeader xs.length (encAll xs) with
  | error e => simp
  | ok p => simp

mutual

/-- **What can be packed.** -/
theorem enc_isOk_iff : ∀ v : MsgVal, (∃ bs, enc v = .ok bs) ↔ v.Fits
  | .none => by simp [enc, Fits]
  | .bool b => by simp [enc, Fits]
  | .int i => packIntObj_isOk_iff
  | .float bits => by
    have hlt : bits.toNat < 256 ^ 8 := bits.isLt
    simpa [enc, Fits] using packNat_isOk hlt
  | .bytes b => encRaw_isOk_iff binHeader_isOk
  | .bytearray b => encRaw_isOk_iff binHeader_isOk
  | .memoryview b => encRaw_isOk_iff binHeader_isOk
  | .str s => by
    simp only [enc, Fits, encodeUtf8]
    split
    · simp_all [bind, Except.bind]
    · rename_i hs
      rw [Bool.not_eq_true] at hs
      simp only [hs, true_and, bind, Except.bind]
      exact encRaw_isOk_iff strHeader_isOk
  | .list xs => by rw [Fits, ← encAll_isOk_iff xs]; exact encSeq_isOk_iff arrayHeader_isOk
  | .tuple xs => by rw [Fits, ← encAll_isOk_iff xs]; exact encSeq_isOk_iff arrayHeader_isOk
  | .set xs => encExt_array_isOk_iff (encAll_isOk_iff xs)
  | .frozenset xs => encExt_array_isOk_iff (encAll_isOk_iff xs)
  | .dict kvs => by rw [Fits, ← encItems_isOk_iff kvs]; exact encSeq_isOk_iff mapHeader_isOk
  | .obj n => by simp [enc, Fits]

theorem encAll_isOk_iff : ∀ xs : List MsgVal, (∃ bs, encAll xs = .ok bs) ↔ FitsAll xs
  | [] => by simp [encAll, FitsAll]
  | x :: xs => by
    rw [FitsAll, ← enc_isOk_iff x, ← encAll_isOk_iff xs, encAll]
    cases enc x with
    | error e => simp [bind, Except.bind]
    | ok b => cases encAll xs <;> simp [bind, Except.bind, Except.map]

theorem encItems_isOk_iff : ∀ kvs : List (MsgVal × MsgVal), (∃ bs, encItems kvs = .ok bs) ↔ FitsItems kvs
  | [] => by simp [encItems, FitsItems]
  | (k, v) :: kvs => by
    rw [FitsItems, ← enc_isOk_iff k, ← enc_isOk_iff v, ← encItems_isOk_iff kvs, encItems]
    cases enc k with
    | error e => simp [bind, Except.bind]
    | ok b =>
      cases enc v with
      | error e => simp [bind, Except.bind]
      | ok c => cases encItems kvs <;> simp [bind, Except.bind, Except.map]

end

/-- `_msg_dumps` is the encoding. -/
theorem msgDumps_eq {v : MsgVal} (h : v.depth ≤ 1024) : msgDumps v = enc v := by
  have hend : (⟨[], 0⟩ : MsgStream).AtEnd := rfl
  rw [msgDumps, msgPack_eq v hend (by omega)]
  cases enc v with
  | error e => rfl
  | ok bs => simp [Except.map, MsgStream.append]

end OmniJsonDb
