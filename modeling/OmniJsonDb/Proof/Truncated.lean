import OmniJsonDb.Proof.Unpack

/-!
# Cut encodings

A slice past the end of a buffer is short, not an error. So a buffer that is cut is noticed at the
next header or number that is missing, and when nothing is missing behind the text or the bytes that
are cut, it is not noticed at all.

* `Trails`: the cut is in the text or the bytes that a value ends with.
* `Clashes`: a key or a member without a hash comes up before the cut is noticed.
* `msgLoads_cut_iff`: a cut is reported just when neither is so.
-/

namespace OmniJsonDb

open MsgVal

/-! ## Cuts -/

/-- The length of what was encoded. -/
def encLen (e : Except MsgErr Bytes) : ℕ :=
  match e with
  | .ok b => b.length
  | .error _ => 0

/-- Behind a header of length `h`. -/
def Behind (h k : ℕ) (p : ℕ → Prop) : Prop := h ≤ k ∧ p (k - h)

/-- The headers of a set: of the ext object, with its code, and of the array. -/
def setHeaderLen (xs : List MsgVal) : ℕ :=
  encLen (extHeader (encLen (encSeq arrayHeader xs.length (encAll xs)))) + 1

namespace MsgVal

/-- Unpacked, it has no hash: a tuple comes back as a list. -/
def losesHash : MsgVal → Bool
  | list _ | tuple _ | dict _ | set _ => true
  | _ => false

mutual

/-- The cut at `k` is in the payload of the text or the bytes that ends the value; of a text, between
two characters. -/
def Trails : MsgVal → ℕ → Prop
  | str s, k => ∃ b, encodeUtf8 s = .ok b ∧ Behind (encLen (strHeader b.length)) k fun j =>
      ∃ t, decodeUtf8 (b.take j) = .ok t
  | bytes b, k | bytearray b, k | memoryview b, k => encLen (binHeader b.length) ≤ k
  | list xs, k | tuple xs, k => Behind (encLen (arrayHeader xs.length)) k fun j => TrailsAll xs j
  | set xs, k | frozenset xs, k => Behind (setHeaderLen xs) k fun j =>
      Behind (encLen (arrayHeader xs.length)) j fun j => TrailsAll xs j
  | dict kvs, k => Behind (encLen (mapHeader kvs.length)) k fun j => TrailsItems kvs j
  | _, _ => False

def TrailsAll : List MsgVal → ℕ → Prop
  | [], _ => False
  | x :: xs, k => (xs = [] ∧ Trails x k) ∨ Behind (encLen (enc x)) k fun j => TrailsAll xs j

def TrailsItems : List (MsgVal × MsgVal) → ℕ → Prop
  | [], _ => False
  | (key, val) :: kvs, k => Behind (encLen (enc key)) k fun j =>
      (kvs = [] ∧ Trails val j) ∨ Behind (encLen (enc val)) j fun j => TrailsItems kvs j

end

mutual

/-- Before the cut at `k` is noticed, a key is stored or a set is built whose key or member has no hash. -/
def Clashes : MsgVal → ℕ → Prop
  | list xs, k | tuple xs, k => Behind (encLen (arrayHeader xs.length)) k fun j => ClashesAll xs j
  | set xs, k | frozenset xs, k => Behind (setHeaderLen xs) k fun j =>
      Behind (encLen (arrayHeader xs.length)) j fun j => ClashesAll xs j ∨
        (encLen (encAll xs) ≤ j ∨ TrailsAll xs j) ∧ ∃ x ∈ xs, x.losesHash = true
  | dict kvs, k => Behind (encLen (mapHeader kvs.length)) k fun j => ClashesItems kvs j
  | _, _ => False

def ClashesAll : List MsgVal → ℕ → Prop
  | [], _ => False
  | x :: xs, k => Clashes x k ∨ Behind (encLen (enc x)) k fun j => ClashesAll xs j

def ClashesItems : List (MsgVal × MsgVal) → ℕ → Prop
  | [], _ => False
  | (key, val) :: kvs, k => Clashes key k ∨ Behind (encLen (enc key)) k fun j =>
      Clashes val j ∨ (encLen (enc val) ≤ j ∨ Trails val j) ∧ key.losesHash = true ∨
        Behind (encLen (enc val)) j fun j => ClashesItems kvs j

end

end MsgVal

/-! ## Cut headers -/

/-- What is raised at a cut. -/
def MsgErr.Short (e : MsgErr) : Prop := e = .index ∨ e = .struct ∨ e = .unicode

/-- The header bytes that a number of some width stands behind. -/
def WIDE : List (UInt8 × ℕ) :=
  [(0xC4, 1), (0xC5, 2), (0xC6, 4), (0xC7, 1), (0xC8, 2), (0xC9, 4), (0xCB, 8), (0xCC, 1), (0xCD, 2), (0xCE, 4),
    (0xCF, 8), (0xD0, 1), (0xD1, 2), (0xD2, 4), (0xD3, 8), (0xD9, 1), (0xDA, 2), (0xDB, 4), (0xDC, 2), (0xDD, 4),
    (0xDE, 2), (0xDF, 4)]

theorem natAt_short {k : ℕ} {buf : Bytes} {idx : ℕ} (h : buf.length < idx + k) : natAt k buf idx = .error .struct := by
  rw [natAt, if_neg (by omega)]

theorem byteAt_short {buf : Bytes} {idx : ℕ} (h : buf.length ≤ idx) : byteAt buf idx = .error .index := by
  rw [byteAt, List.getElem?_eq_none h]

/-- **A missing number** is noticed. -/
theorem readObject_short (unpack : ℕ → Except MsgErr (MsgVal × ℕ)) {buf : Bytes} {b : UInt8} {k idx : ℕ}
    (hb : (b, k) ∈ WIDE) (h : buf.length < idx + k) :
    ∃ e, readObject unpack buf b.toNat idx = .error e ∧ e.Short := by
  simp only [WIDE, List.mem_cons, Prod.mk.injEq, List.not_mem_nil, or_false] at hb
  rcases hb with ⟨rfl, rfl⟩ | ⟨rfl, rfl⟩ | ⟨rfl, rfl⟩ | ⟨rfl, rfl⟩ | ⟨rfl, rfl⟩ | ⟨rfl, rfl⟩ | ⟨rfl, rfl⟩ | ⟨rfl, rfl⟩ |
    ⟨rfl, rfl⟩ | ⟨rfl, rfl⟩ | ⟨rfl, rfl⟩ | ⟨rfl, rfl⟩ | ⟨rfl, rfl⟩ | ⟨rfl, rfl⟩ | ⟨rfl, rfl⟩ | ⟨rfl, rfl⟩ |
    ⟨rfl, rfl⟩ | ⟨rfl, rfl⟩ | ⟨rfl, rfl⟩ | ⟨rfl, rfl⟩ | ⟨rfl, rfl⟩ | ⟨rfl, rfl⟩
  all_goals
    first
    | refine ⟨.struct, ?_, .inr (.inl rfl)⟩
      simp [readObject, intAt, natAt_short h, bind, Except.bind, Except.map]
      done
    | refine ⟨.index, ?_, .inl rfl⟩
      simp [readObject, byteAt_short (Nat.lt_succ_iff.1 h), bind, Except.bind, Except.map]

/-- A header: a single byte, or a byte with a number behind it. -/
def IsHeader (hd : Bytes) : Prop := (∃ b, hd = [b]) ∨ ∃ b k n, packNat b k n = .ok hd ∧ (b, k) ∈ WIDE

/-- **A cut header** is noticed. -/
theorem msgUnpack_cut_header {hd : Bytes} (h : IsHeader hd) {j : ℕ} (hj : j < hd.length) (pre : Bytes) (limit : ℕ) :
    ∃ e, msgUnpack (pre ++ hd.take j) (limit + 1) pre.length = .error e ∧ e.Short := by
  rw [msgUnpack]
  cases j with
  | zero =>
    refine ⟨.index, ?_, .inl rfl⟩
    rw [List.take_zero, List.append_nil, byteAt_short le_rfl]
    rfl
  | succ j =>
    rcases h with ⟨b, rfl⟩ | ⟨b, k, n, hn, hwide⟩
    · simp only [List.length_cons, List.length_nil] at hj
      omega
    · obtain ⟨-, rfl⟩ := packNat_eq_ok.1 hn
      rw [List.take_succ_cons, byteAt_mid]
      refine readObject_short _ hwide ?_
      simp only [List.length_cons, length_beBytes, List.length_append, List.length_take] at hj ⊢
      omega

section Kinds

variable {n : ℕ} {hd : Bytes}

theorem isHeader_packNat {b : UInt8} {k : ℕ} (h : packNat b k n = .ok hd) (hb : (b, k) ∈ WIDE) : IsHeader hd :=
  .inr ⟨b, k, n, h, hb⟩

theorem isHeader_packInt {b : UInt8} {k : ℕ} {i : ℤ} (h : packInt b k i = .ok hd) (hb : (b, k) ∈ WIDE) :
    IsHeader hd := by
  obtain ⟨-, rfl⟩ := packInt_eq_ok.1 h
  have hpos : (0 : ℤ) < 256 ^ k := by positivity
  have hnn := Int.emod_nonneg i hpos.ne'
  have hlt := Int.emod_lt_of_pos i hpos
  exact isHeader_packNat (packNat_eq_ok.2 ⟨(Int.toNat_lt hnn).2 (by exact_mod_cast hlt), rfl⟩) hb

theorem isHeader_one {b : UInt8} (h : Except.ok [b] = (Except.ok hd : Except MsgErr Bytes)) : IsHeader hd :=
  .inl ⟨b, (Except.ok.inj h).symm⟩

theorem isHeader_bin (h : binHeader n = .ok hd) : IsHeader hd := by
  unfold binHeader at h
  split_ifs at h
  · exact isHeader_packNat h (by decide)
  · exact isHeader_packNat h (by decide)
  · exact isHeader_packNat h (by decide)

theorem isHeader_str (h : strHeader n = .ok hd) : IsHeader hd := by
  unfold strHeader at h
  split_ifs at h
  · exact isHeader_one h
  · exact isHeader_packNat h (by decide)
  · exact isHeader_packNat h (by decide)
  · exact isHeader_packNat h (by decide)

theorem isHeader_array (h : arrayHeader n = .ok hd) : IsHeader hd := by
  unfold arrayHeader at h
  split_ifs at h
  · exact isHeader_one h
  · exact isHeader_packNat h (by decide)
  · exact isHeader_packNat h (by decide)

theorem isHeader_map (h : mapHeader n = .ok hd) : IsHeader hd := by
  unfold mapHeader at h
  split_ifs at h
  · exact isHeader_one h
  · exact isHeader_packNat h (by decide)
  · exact isHeader_packNat h (by decide)

theorem isHeader_ext (h : extHeader n = .ok hd) : IsHeader hd := by
  unfold extHeader at h
  split_ifs at h
  · exact isHeader_packNat h (by decide)
  · exact isHeader_packNat h (by decide)
  · exact isHeader_one h
  · exact isHeader_one h
  · exact isHeader_one h
  · exact isHeader_one h
  · exact isHeader_one h
  · exact isHeader_packNat h (by decide)

theorem isHeader_int {i : ℤ} (h : packIntObj i = .ok hd) : IsHeader hd := by
  unfold packIntObj at h
  split_ifs at h
  · exact isHeader_one h
  · exact isHeader_one h
  · exact isHeader_packNat h (by decide)
  · exact isHeader_packInt h (by decide)
  · exact isHeader_packNat h (by decide)
  · exact isHeader_packInt h (by decide)
  · exact isHeader_packNat h (by decide)
  · exact isHeader_packInt h (by decide)
  · exact isHeader_packNat h (by decide)
  · exact isHeader_packInt h (by decide)

end Kinds

/-! ## Cut values -/

/-- What reading comes to: a clash, a value and the index where its encoding would end, or a cut that
is noticed. -/
structure Outcome {α : Type} (r : Except MsgErr (α × ℕ)) (clash reads : Prop) (good : α → Prop) (stop : ℕ) : Prop where
  type : clash → r = .error .type
  value : ¬ clash → reads → ∃ a, r = .ok (a, stop) ∧ good a
  short : ¬ clash → ¬ reads → ∃ e, r = .error e ∧ e.Short

namespace Outcome

variable {α β : Type} {r : Except MsgErr (α × ℕ)} {clash clash' reads reads' : Prop} {good : α → Prop} {stop stop' : ℕ}

theorem of_short (h : ∃ e, r = .error e ∧ e.Short) (hc : ¬ clash) (hr : ¬ reads) : Outcome r clash reads good stop where
  type h' := absurd h' hc
  value _ h' := absurd h' hr
  short _ _ := h

theorem of_ok {a : α} (h : r = .ok (a, stop)) (ha : good a) (hc : ¬ clash) (hr : reads) :
    Outcome r clash reads good stop where
  type h' := absurd h' hc
  value _ _ := ⟨a, h, ha⟩
  short _ h' := absurd hr h'

theorem congr (h : Outcome r clash reads good stop) (hc : clash' ↔ clash) (hr : reads' ↔ reads) (hs : stop' = stop) :
    Outcome r clash' reads' good stop' := by
  subst hs
  refine ⟨fun h' => h.type (hc.1 h'), ?_, ?_⟩
  · exact fun h' hr' => h.value (hc.not.1 h') (hr.1 hr')
  · exact fun h' hr' => h.short (hc.not.1 h') (hr.not.1 hr')

theorem weaken (h : Outcome r clash reads good stop) {good' : α → Prop} (hg : ∀ a, good a → good' a) :
    Outcome r clash reads good' stop := by
  refine ⟨h.type, ?_, h.short⟩
  intro h' hr
  obtain ⟨a, heq, ha⟩ := h.value h' hr
  exact ⟨a, heq, hg a ha⟩

/-- What is made of a value without a look at the buffer. -/
theorem map (h : Outcome r clash reads good stop) {f : α → β} {good' : β → Prop} (hf : ∀ a, good a → good' (f a)) :
    Outcome (r.map fun x => (f x.1, x.2)) clash reads good' stop := by
  refine ⟨?_, ?_, ?_⟩
  · intro h'
    rw [h.type h']
    rfl
  · intro h' hr
    obtain ⟨a, heq, ha⟩ := h.value h' hr
    exact ⟨f a, by rw [heq]; rfl, hf a ha⟩
  · intro h' hr
    obtain ⟨e, heq, he⟩ := h.short h' hr
    exact ⟨e, by rw [heq]; rfl, he⟩

end Outcome

/-- What a value comes to in a buffer where it is cut at `k`, or stands in full in front of `rest`. -/
def Cuts (v : MsgVal) (bs : Bytes) : Prop :=
  ∀ (pre rest : Bytes) (limit k : ℕ), v.levels ≤ limit → (k < bs.length → rest = []) →
    Outcome (msgUnpack (pre ++ (bs.take k ++ rest)) limit pre.length) (Clashes v k) (bs.length ≤ k ∨ Trails v k)
      (fun x => x.hashable = !v.losesHash) (pre.length + bs.length)

/-- The same of the items of an array. -/
def CutsAll (xs : List MsgVal) (bs : Bytes) : Prop :=
  ∀ (pre rest : Bytes) (limit k : ℕ), levelsAll xs ≤ limit → (k < bs.length → rest = []) →
    Outcome (readItems (msgUnpack (pre ++ (bs.take k ++ rest)) limit) xs.length pre.length) (ClashesAll xs k)
      (bs.length ≤ k ∨ TrailsAll xs k) (fun ys => ys.map hashable = xs.map fun x => !x.losesHash)
      (pre.length + bs.length)

/-- The same of the items of a map. -/
def CutsItems (kvs : List (MsgVal × MsgVal)) (bs : Bytes) : Prop :=
  ∀ (out : List (MsgVal × MsgVal)) (pre rest : Bytes) (limit k : ℕ), levelsItems kvs ≤ limit →
    (k < bs.length → rest = []) →
    Outcome (readPairs (msgUnpack (pre ++ (bs.take k ++ rest)) limit) out kvs.length pre.length) (ClashesItems kvs k)
      (bs.length ≤ k ∨ TrailsItems kvs k) (fun _ => True) (pre.length + bs.length)

/-- A header and what is behind it, cut inside the header. -/
theorem msgUnpack_cut_in_header {hd b : Bytes} (h : IsHeader hd) {k : ℕ} (hk : k < hd.length) {rest : Bytes}
    (hrest : k < (hd ++ b).length → rest = []) (pre : Bytes) (limit : ℕ) :
    ∃ e, msgUnpack (pre ++ ((hd ++ b).take k ++ rest)) (limit + 1) pre.length = .error e ∧ e.Short := by
  rw [hrest (by rw [List.length_append]; omega), List.append_nil, List.take_append_of_le_length hk.le]
  exact msgUnpack_cut_header h hk pre limit

/-- Cut behind the header. -/
theorem take_behind {hd b : Bytes} {k : ℕ} (hk : hd.length ≤ k) : (hd ++ b).take k = hd ++ b.take (k - hd.length) := by
  rw [List.take_append, List.take_of_length_le hk]

/-- **A number or a value of one byte.** -/
theorem cuts_header {v : MsgVal} {hd : Bytes} (h : IsHeader hd) {x : MsgVal} (hx : x.hashable = !v.losesHash)
    (hread : ∀ pre rest limit, msgUnpack (pre ++ (hd ++ rest)) (limit + 1) pre.length = .ok (x, pre.length + hd.length))
    (hno : ∀ k, ¬ Clashes v k ∧ ¬ Trails v k) : Cuts v hd := by
  intro pre rest limit k hl hrest
  obtain ⟨limit, rfl⟩ := Nat.exists_eq_add_of_le' (Nat.lt_of_lt_of_le v.levels_pos hl)
  by_cases hk : hd.length ≤ k
  · rw [List.take_of_length_le hk]
    exact .of_ok (hread pre rest limit) hx (hno k).1 (.inl hk)
  · rw [hrest (by omega), List.append_nil]
    exact .of_short (msgUnpack_cut_header h (by omega) pre limit) (hno k).1 (fun hc => hc.elim hk (hno k).2)

/-- **Text or bytes.** The slice is what there is of the payload. -/
theorem cuts_raw {v : MsgVal} {hd b : Bytes} (h : IsHeader hd)
    {read : Bytes → Except MsgErr MsgVal}
    (hread : ∀ pre rest limit, msgUnpack (pre ++ (hd ++ rest)) (limit + 1) pre.length =
      (read (rest.take b.length)).map fun x => (x, pre.length + hd.length + b.length))
    (hfull : ∃ x, read b = .ok x) (hgood : ∀ c x, read c = .ok x → x.hashable = !v.losesHash)
    (hshort : ∀ c e, read c = .error e → e.Short) (hno : ∀ k, ¬ Clashes v k)
    (htrails : ∀ k, Trails v k ↔ Behind hd.length k fun j => ∃ x, read (b.take j) = .ok x) : Cuts v (hd ++ b) := by
  intro pre rest limit k hl hrest
  obtain ⟨limit, rfl⟩ := Nat.exists_eq_add_of_le' (Nat.lt_of_lt_of_le v.levels_pos hl)
  rw [htrails]
  by_cases hk : hd.length ≤ k
  · rw [take_behind hk, List.append_assoc, hread]
    have hpay : ((b.take (k - hd.length) ++ rest).take b.length) = b.take (k - hd.length) := by
      by_cases hin : k < (hd ++ b).length
      · rw [hrest hin, List.append_nil, List.take_take, min_eq_right (by simp at hin; omega)]
      · have hall : b.take (k - hd.length) = b := List.take_of_length_le (by rw [List.length_append] at hin; omega)
        rw [hall, List.take_left' rfl]
    rw [hpay, List.length_append, ← Nat.add_assoc]
    cases hr : read (b.take (k - hd.length)) with
    | ok x => exact .of_ok rfl (hgood _ x hr) (hno k) (.inr ⟨hk, x, hr⟩)
    | error e =>
      refine .of_short ⟨e, rfl, hshort _ e hr⟩ (hno k) ?_
      rintro (hc | ⟨-, x, hx⟩)
      · rw [List.take_of_length_le (by omega)] at hr
        obtain ⟨x, hx⟩ := hfull
        rw [hx] at hr
        cases hr
      · rw [hx] at hr
        cases hr
  · refine .of_short (msgUnpack_cut_in_header h (by omega) hrest pre limit) (hno k) ?_
    rintro (hc | ⟨hc, -⟩)
    · rw [List.length_append] at hc
      omega
    · exact hk hc

theorem encLen_ok (b : Bytes) : encLen (.ok b) = b.length := rfl

/-- **An array.** -/
theorem cuts_array {xs : List MsgVal} {hd b : Bytes} (hhd : arrayHeader xs.length = .ok hd)
    (hall : CutsAll xs b) (pre rest : Bytes) {limit k : ℕ} (hl : levelsAll xs ≤ limit)
    (hrest : k < (hd ++ b).length → rest = []) :
    Outcome (msgUnpack (pre ++ ((hd ++ b).take k ++ rest)) (limit + 1) pre.length)
      (Behind (encLen (arrayHeader xs.length)) k fun j => ClashesAll xs j)
      ((hd ++ b).length ≤ k ∨ Behind (encLen (arrayHeader xs.length)) k fun j => TrailsAll xs j)
      (fun x => ∃ ys, x = .list ys ∧ ys.map hashable = xs.map fun x => !x.losesHash) (pre.length + (hd ++ b).length) := by
  rw [hhd, encLen_ok]
  by_cases hk : hd.length ≤ k
  · have hitems := hall (pre ++ hd) rest limit (k - hd.length) hl (fun hlt => hrest (by rw [List.length_append]; omega))
    have hread := msgUnpack_arrayHeader pre (b.take (k - hd.length) ++ rest) limit hhd
    rw [take_behind hk, List.append_assoc, hread, readArray]
    rw [List.append_assoc, List.length_append] at hitems
    refine (hitems.map fun ys hys => ?_).congr ?_ ?_ ?_
    · exact ⟨ys, rfl, hys⟩
    · exact and_iff_right hk
    · rw [List.length_append]
      exact or_congr (by omega) (and_iff_right hk)
    · rw [List.length_append]
      omega
  · refine .of_short (msgUnpack_cut_in_header (isHeader_array hhd) (by omega) hrest pre limit) (fun hc => hk hc.1) ?_
    rintro (hc | ⟨hc, -⟩)
    · rw [List.length_append] at hc
      omega
    · exact hk hc

theorem cuts_list {v : MsgVal} {xs : List MsgVal} (hv : v = .list xs ∨ v = .tuple xs) {hd b : Bytes}
    (hhd : arrayHeader xs.length = .ok hd) (hall : CutsAll xs b) : Cuts v (hd ++ b) := by
  intro pre rest limit k hl hrest
  have hkind : v.losesHash = true ∧ v.levels = 1 + levelsAll xs ∧
      (Clashes v k ↔ Behind (encLen (arrayHeader xs.length)) k fun j => ClashesAll xs j) ∧
      (Trails v k ↔ Behind (encLen (arrayHeader xs.length)) k fun j => TrailsAll xs j) := by
    rcases hv with rfl | rfl <;> exact ⟨rfl, rfl, by rw [Clashes], by rw [Trails]⟩
  obtain ⟨hlost, hlevels, hclash, htrails⟩ := hkind
  obtain ⟨limit, rfl⟩ := Nat.exists_eq_add_of_le' (show 1 ≤ limit by omega)
  rw [hclash, htrails, hlost]
  refine (cuts_array hhd hall pre rest (show levelsAll xs ≤ limit by omega) hrest).weaken ?_
  rintro x ⟨ys, rfl, -⟩
  rfl

/-- **A map.** -/
theorem cuts_map {kvs : List (MsgVal × MsgVal)} {hd b : Bytes} (hhd : mapHeader kvs.length = .ok hd)
    (hitems : CutsItems kvs b) : Cuts (.dict kvs) (hd ++ b) := by
  intro pre rest limit k hl hrest
  obtain ⟨limit, rfl⟩ := Nat.exists_eq_add_of_le' (show 1 ≤ limit by simp only [levels] at hl; omega)
  simp only [Clashes, Trails]
  rw [hhd, encLen_ok]
  by_cases hk : hd.length ≤ k
  · have hpairs := hitems [] (pre ++ hd) rest limit (k - hd.length) (by simp only [levels] at hl; omega)
      (fun hlt => hrest (by rw [List.length_append]; omega))
    have hread := msgUnpack_mapHeader pre (b.take (k - hd.length) ++ rest) limit hhd
    rw [take_behind hk, List.append_assoc, hread, readMap]
    rw [List.append_assoc, List.length_append] at hpairs
    refine (hpairs.map fun ys _ => ?_).congr ?_ ?_ ?_
    · rfl
    · exact and_iff_right hk
    · rw [List.length_append]
      exact or_congr (by omega) (and_iff_right hk)
    · rw [List.length_append]
      omega
  · refine .of_short (msgUnpack_cut_in_header (isHeader_map hhd) (by omega) hrest pre limit) (fun hc => hk hc.1) ?_
    rintro (hc | ⟨hc, -⟩)
    · rw [List.length_append] at hc
      omega
    · exact hk hc

theorem addAll_ok {xs : List MsgVal} (h : ∀ x ∈ xs, x.hashable = true) : ∀ acc, ∃ zs, addAll acc xs = .ok zs := by
  induction xs with
  | nil => exact fun acc => ⟨acc, rfl⟩
  | cons x xs ih =>
    intro acc
    rw [addAll, if_pos (h x List.mem_cons_self)]
    exact ih (fun y hy => h y (List.mem_cons_of_mem _ hy)) _

theorem addAll_error {xs : List MsgVal} (h : ∃ x ∈ xs, x.hashable = false) : ∀ acc, addAll acc xs = .error .type := by
  induction xs with
  | nil =>
    obtain ⟨x, hx, -⟩ := h
    cases hx
  | cons x xs ih =>
    intro acc
    rw [addAll]
    by_cases hx : x.hashable = true
    · rw [if_pos hx]
      obtain ⟨y, hy, hno⟩ := h
      rcases List.mem_cons.1 hy with rfl | hy
      · rw [hx] at hno
        cases hno
      · exact ih ⟨y, hy, hno⟩ _
    · rw [if_neg hx]

/-- Members lose their hashes as they come back. -/
theorem exists_losesHash {xs ys : List MsgVal} (h : ys.map hashable = xs.map fun x => !x.losesHash) :
    (∃ x ∈ xs, x.losesHash = true) ↔ ∃ y ∈ ys, y.hashable = false := by
  constructor
  · rintro ⟨x, hx, hlost⟩
    have hmem : false ∈ ys.map hashable := by
      rw [h]
      exact List.mem_map.2 ⟨x, hx, by rw [hlost]; rfl⟩
    exact List.mem_map.1 hmem
  · rintro ⟨y, hy, hno⟩
    have hmem : false ∈ xs.map fun x => !x.losesHash := by
      rw [← h]
      exact List.mem_map.2 ⟨y, hy, hno⟩
    obtain ⟨x, hx, hlost⟩ := List.mem_map.1 hmem
    exact ⟨x, hx, by simpa using hlost⟩

/-- What `readExt` makes of a payload. -/
theorem ext_outcome {code : UInt8} {xs : List MsgVal} {v : MsgVal}
    (hcode : code = EXT_SET ∧ v = .set xs ∨ code = EXT_FROZENSET ∧ v = .frozenset xs)
    {r : Except MsgErr (MsgVal × ℕ)} {clash reads : Prop} {mid : ℕ} (stop : ℕ)
    (h : Outcome r clash reads (fun x => ∃ ys, x = .list ys ∧ ys.map hashable = xs.map fun x => !x.losesHash) mid) :
    Outcome (do
        let (payload, _) ← r
        let ys ← payload.members
        let result ← addAll [] ys
        return (if code.toNat = EXT_FROZENSET.toNat then MsgVal.frozenset result else .set result, stop))
      (clash ∨ reads ∧ ∃ x ∈ xs, x.losesHash = true) reads (fun x => x.hashable = !v.losesHash) stop := by
  by_cases hc : clash
  · have hr := h.type hc
    refine ⟨fun _ => by rw [hr]; rfl, fun hno => absurd (.inl hc) hno, fun hno => absurd (.inl hc) hno⟩
  · by_cases hreads : reads
    · obtain ⟨-, heq, ys, rfl, hys⟩ := h.value hc hreads
      rw [heq]
      by_cases hlost : ∃ x ∈ xs, x.losesHash = true
      · refine ⟨fun _ => ?_, fun hno => absurd (.inr ⟨hreads, hlost⟩) hno, fun _ hno => absurd hreads hno⟩
        have hadd := addAll_error ((exists_losesHash hys).1 hlost) []
        simp only [bind, Except.bind, members, hadd]
      · have hall : ∀ y ∈ ys, y.hashable = true := by
          intro y hy
          by_contra hno
          exact hlost ((exists_losesHash hys).2 ⟨y, hy, by simpa using hno⟩)
        obtain ⟨zs, hadd⟩ := addAll_ok hall []
        refine .of_ok (a := if code.toNat = EXT_FROZENSET.toNat then .frozenset zs else .set zs) ?_ ?_ ?_ hreads
        · simp only [bind, Except.bind, members, hadd, pure, Except.pure]
        · rcases hcode with ⟨rfl, rfl⟩ | ⟨rfl, rfl⟩ <;> rfl
        · rintro (h' | ⟨-, h'⟩)
          · exact hc h'
          · exact hlost h'
    · obtain ⟨e, heq, he⟩ := h.short hc hreads
      refine .of_short ⟨e, by rw [heq]; rfl, he⟩ ?_ hreads
      rintro (h' | ⟨h', -⟩)
      · exact hc h'
      · exact hreads h'

theorem behind_distrib {h c f t l : Prop} : (h ∧ (c ∨ (f ∨ t) ∧ l)) ↔ (h ∧ c ∨ (h ∧ f ∨ h ∧ t) ∧ l) := by tauto

/-- **A set.** -/
theorem cuts_ext {code : UInt8} {xs : List MsgVal} {v : MsgVal}
    (hcode : code = EXT_SET ∧ v = .set xs ∨ code = EXT_FROZENSET ∧ v = .frozenset xs) {hda b hdx : Bytes}
    (hhda : arrayHeader xs.length = .ok hda) (hb : encAll xs = .ok b)
    (hp : encSeq arrayHeader xs.length (encAll xs) = .ok (hda ++ b)) (hhdx : extHeader (hda ++ b).length = .ok hdx)
    (hall : CutsAll xs b) : Cuts v (hdx ++ code :: (hda ++ b)) := by
  intro pre rest limit k hl hrest
  have hl' : 2 + levelsAll xs ≤ limit := by rcases hcode with ⟨-, rfl⟩ | ⟨-, rfl⟩ <;> exact hl
  obtain ⟨limit, rfl⟩ := Nat.exists_eq_add_of_le' (show 2 ≤ limit by omega)
  have hlen : setHeaderLen xs = hdx.length + 1 := by rw [setHeaderLen, hp, encLen_ok, hhdx, encLen_ok]
  have hclash : Clashes v k ↔ Behind (hdx.length + 1) k fun j => Behind (encLen (arrayHeader xs.length)) j fun j =>
      ClashesAll xs j ∨ (b.length ≤ j ∨ TrailsAll xs j) ∧ ∃ x ∈ xs, x.losesHash = true := by
    rcases hcode with ⟨-, rfl⟩ | ⟨-, rfl⟩ <;> rw [Clashes, hlen, hb, encLen_ok]
  have htrails : Trails v k ↔ Behind (hdx.length + 1) k fun j => Behind (encLen (arrayHeader xs.length)) j fun j =>
      TrailsAll xs j := by
    rcases hcode with ⟨-, rfl⟩ | ⟨-, rfl⟩ <;> rw [Trails, hlen]
  rw [hclash, htrails, hhda, encLen_ok]
  have hwhole : (hdx ++ code :: (hda ++ b)).length = hdx.length + 1 + (hda.length + b.length) := by
    simp only [List.length_append, List.length_cons]
    omega
  by_cases hk : hdx.length ≤ k
  · have hread := fun rest => msgUnpack_extHeader pre rest (limit + 1) hhdx
    rw [take_behind hk, List.append_assoc, hread]
    by_cases hcut : k = hdx.length
    · -- the code is missing
      rw [hcut, Nat.sub_self, List.take_zero, hrest (by omega), List.append_nil, List.append_nil, readExt,
        byteAt_short (by rw [List.length_append])]
      refine .of_short ⟨.index, rfl, .inl rfl⟩ (fun hc => absurd hc.1 (by omega)) ?_
      rintro (hc | ⟨hc, -⟩) <;> omega
    · obtain ⟨j, hj⟩ : ∃ j, k - hdx.length = j + 1 := ⟨k - hdx.length - 1, by omega⟩
      have hpay := cuts_array hhda hall (pre ++ hdx ++ [code]) rest (k := j) (show levelsAll xs ≤ limit by omega)
        (fun hlt => hrest (by rw [List.length_append] at hlt; omega))
      have hbyte := byteAt_mid (pre ++ hdx) ((hda ++ b).take j ++ rest) code
      have htn : ∀ c : UInt8, code.toNat = c.toNat ↔ code = c := fun c => UInt8.toNat_inj
      rw [hj, List.take_succ_cons]
      have hbuf : pre ++ (hdx ++ (code :: (hda ++ b).take j ++ rest)) =
          pre ++ hdx ++ [code] ++ ((hda ++ b).take j ++ rest) := by simp
      have hidx : (pre ++ hdx ++ [code]).length = pre.length + hdx.length + 1 := by simp [Nat.add_assoc]
      have hbyte' : byteAt (pre ++ hdx ++ [code] ++ ((hda ++ b).take j ++ rest)) (pre.length + hdx.length) =
          .ok code.toNat := by simpa [Nat.add_assoc] using hbyte
      rw [hbuf, readExt, hbyte']
      rw [hidx] at hpay
      have hout := ext_outcome hcode (pre.length + hdx.length + 1 + (hda ++ b).length) hpay
      have hor : code.toNat = EXT_SET.toNat ∨ code.toNat = EXT_FROZENSET.toNat := by
        rcases hcode with ⟨rfl, -⟩ | ⟨rfl, -⟩
        · exact .inl rfl
        · exact .inr rfl
      simp only [bind, Except.bind, if_pos hor] at hout ⊢
      have hsub : k - (hdx.length + 1) = j := by omega
      have hfull : (hda ++ b).length ≤ j ↔ hda.length ≤ j ∧ b.length ≤ j - hda.length := by
        rw [List.length_append]
        omega
      simp only [Behind, hhda, encLen_ok, hfull] at hout
      refine hout.congr ?_ ?_ ?_
      · simp only [Behind, hsub, show hdx.length + 1 ≤ k by omega, true_and]
        exact behind_distrib
      · simp only [Behind, hsub, show hdx.length + 1 ≤ k by omega, true_and]
        rw [hwhole, ← and_or_left, and_or_left]
        refine or_congr ?_ Iff.rfl
        omega
      · rw [hwhole, List.length_append]
        omega
  · refine .of_short (msgUnpack_cut_in_header (isHeader_ext hhdx) (by omega) hrest pre (limit + 1)) (fun hc => ?_) ?_
    · have := hc.1
      omega
    · rintro (hc | ⟨hc, -⟩) <;> omega

theorem Outcome.bind {α β : Type} {r : Except MsgErr (α × ℕ)} {f : α → ℕ → Except MsgErr (β × ℕ)}
    {clash clash' reads reads' : Prop} {good : α → Prop} {good' : β → Prop} {mid stop : ℕ}
    (h : Outcome r clash reads good mid) (hf : ∀ a, good a → Outcome (f a mid) clash' reads' good' stop) :
    Outcome (r >>= fun x => f x.1 x.2) (clash ∨ reads ∧ clash') (reads ∧ reads') good' stop := by
  by_cases hc : clash
  · have hr := h.type hc
    exact ⟨fun _ => by rw [hr]; rfl, fun hno => absurd (.inl hc) hno, fun hno => absurd (.inl hc) hno⟩
  · by_cases hreads : reads
    · obtain ⟨a, rfl, ha⟩ := h.value hc hreads
      refine (hf a ha).congr ?_ ?_ rfl
      · simp [hc, hreads]
      · simp [hreads]
    · obtain ⟨e, rfl, he⟩ := h.short hc hreads
      refine .of_short ⟨e, rfl, he⟩ ?_ (fun hr => hreads hr.1)
      rintro (h' | ⟨h', -⟩)
      · exact hc h'
      · exact hreads h'

/-- Nothing is read past the end. -/
theorem msgUnpack_past {buf : Bytes} {idx limit : ℕ} (h : buf.length ≤ idx) (hl : 0 < limit) :
    msgUnpack buf limit idx = .error .index := by
  obtain ⟨limit, rfl⟩ := Nat.exists_eq_add_of_le' hl
  rw [msgUnpack, byteAt_short h]
  rfl

theorem bytesAt_behind (pre hd rest : Bytes) (n : ℕ) :
    bytesAt (pre ++ (hd ++ rest)) (pre.length + hd.length) n = rest.take n := by
  rw [bytesAt, ← List.append_assoc, ← List.length_append, List.drop_left]

theorem decodeUtf8_short {c : Bytes} {e : MsgErr} (h : decodeUtf8 c = .error e) : e.Short := by
  unfold decodeUtf8 at h
  split at h
  · cases h
  · exact .inr (.inr (Except.error.inj h).symm)

/-- **A text.** -/
theorem cuts_str {s : List CodePoint} {b hd : Bytes} (hs : encodeUtf8 s = .ok b) (hhd : strHeader b.length = .ok hd) :
    Cuts (.str s) (hd ++ b) := by
  refine @cuts_raw _ _ _ (isHeader_str hhd) (fun c => (decodeUtf8 c).map .str) ?_ ?_ ?_ ?_ (fun _ => not_false) ?_
  · intro pre rest limit
    rw [msgUnpack_strHeader pre rest limit hhd, readStr, bytesAt_behind]
    cases decodeUtf8 (rest.take b.length) <;> rfl
  · exact ⟨.str s, by rw [decodeUtf8_encodeUtf8 hs]; rfl⟩
  · intro c x hx
    obtain ⟨t, -, rfl⟩ : ∃ t, decodeUtf8 c = .ok t ∧ MsgVal.str t = x := by
      cases hc : decodeUtf8 c with
      | error e => rw [hc] at hx; cases hx
      | ok t => rw [hc] at hx; exact ⟨t, rfl, Except.ok.inj hx⟩
    rfl
  · intro c e he
    cases hc : decodeUtf8 c with
    | error e' =>
      rw [hc] at he
      exact Except.error.inj he ▸ decodeUtf8_short hc
    | ok t => rw [hc] at he; cases he
  · intro k
    have hiff : ∀ c, (∃ x, (decodeUtf8 c).map MsgVal.str = .ok x) ↔ ∃ t, decodeUtf8 c = .ok t := by
      intro c
      cases decodeUtf8 c with
      | error e => exact iff_of_false (fun ⟨x, hx⟩ => by cases hx) (fun ⟨x, hx⟩ => by cases hx)
      | ok t => exact iff_of_true ⟨_, rfl⟩ ⟨_, rfl⟩
    simp only [Trails, hs, Except.ok.injEq, exists_eq_left', hhd, encLen_ok, hiff]

/-- **Bytes.** -/
theorem cuts_bin {v : MsgVal} {b hd : Bytes} (hv : v = .bytes b ∨ v = .bytearray b ∨ v = .memoryview b)
    (hhd : binHeader b.length = .ok hd) : Cuts v (hd ++ b) := by
  have hkind : v.losesHash = false ∧ (∀ k, ¬ Clashes v k) ∧ ∀ k, Trails v k ↔ hd.length ≤ k := by
    rcases hv with rfl | rfl | rfl <;>
      exact ⟨rfl, fun _ => not_false, fun k => by rw [Trails, hhd, encLen_ok]⟩
  refine @cuts_raw _ _ _ (isHeader_bin hhd) (fun c => .ok (.bytes c)) ?_ ⟨_, rfl⟩ ?_ ?_ hkind.2.1 ?_
  · intro pre rest limit
    rw [msgUnpack_binHeader pre rest limit hhd, readBin, bytesAt_behind]
    rfl
  · intro c x hx
    rw [← Except.ok.inj hx, hkind.1]
    rfl
  · intro c e he
    cases he
  · intro k
    rw [hkind.2.2]
    exact (and_iff_left ⟨_, rfl⟩).symm

theorem encAll_cons {x : MsgVal} {xs : List MsgVal} {bs : Bytes} (h : encAll (x :: xs) = .ok bs) :
    ∃ b c, enc x = .ok b ∧ encAll xs = .ok c ∧ bs = b ++ c := by
  cases hx : enc x with
  | error e => simp [encAll, hx, Bind.bind, Except.bind] at h
  | ok b =>
    cases hxs : encAll xs with
    | error e => simp [encAll, hx, hxs, Bind.bind, Except.bind, Except.map] at h
    | ok c => exact ⟨b, c, rfl, rfl, by simpa [encAll, hx, hxs, Bind.bind, Except.bind, Except.map] using h.symm⟩

theorem encItems_cons {key val : MsgVal} {kvs : List (MsgVal × MsgVal)} {bs : Bytes}
    (h : encItems ((key, val) :: kvs) = .ok bs) :
    ∃ b c d, enc key = .ok b ∧ enc val = .ok c ∧ encItems kvs = .ok d ∧ bs = b ++ (c ++ d) := by
  cases hk : enc key with
  | error e => simp [encItems, hk, Bind.bind, Except.bind] at h
  | ok b =>
    cases hv : enc val with
    | error e => simp [encItems, hk, hv, Bind.bind, Except.bind] at h
    | ok c =>
      cases hkvs : encItems kvs with
      | error e => simp [encItems, hk, hv, hkvs, Bind.bind, Except.bind, Except.map] at h
      | ok d =>
        exact ⟨b, c, d, rfl, rfl, rfl, by simpa [encItems, hk, hv, hkvs, Bind.bind, Except.bind, Except.map] using h.symm⟩

theorem readItems_cons (unpack : ℕ → Except MsgErr (MsgVal × ℕ)) (n idx : ℕ) : readItems unpack (n + 1) idx =
    (unpack idx >>= fun x => (readItems unpack n x.2).map fun r => (x.1 :: r.1, r.2)) := by
  rw [readItems]
  cases unpack idx with
  | error e => rfl
  | ok x =>
    simp only [Bind.bind, Except.bind]
    cases readItems unpack n x.2 <;> rfl

theorem readPairs_cons (unpack : ℕ → Except MsgErr (MsgVal × ℕ)) (out : List (MsgVal × MsgVal)) (n idx : ℕ) :
    readPairs unpack out (n + 1) idx = (unpack idx >>= fun x => unpack x.2 >>= fun y =>
      if x.1.hashable then readPairs unpack (setItem x.1 y.1 out) n y.2 else .error .type) := rfl

section Items

variable {unpack : ℕ → Except MsgErr (MsgVal × ℕ)} {n idx mid mid' stop : ℕ} {c₁ c₂ c₃ r₁ r₂ r₃ : Prop}

theorem items_outcome {x : MsgVal} {xs : List MsgVal}
    (hx : Outcome (unpack idx) c₁ r₁ (fun a => a.hashable = !x.losesHash) mid)
    (hxs : Outcome (readItems unpack n mid) c₂ r₂ (fun ys => ys.map hashable = xs.map fun x => !x.losesHash) stop) :
    Outcome (readItems unpack (n + 1) idx) (c₁ ∨ r₁ ∧ c₂) (r₁ ∧ r₂)
      (fun ys => ys.map hashable = (x :: xs).map fun x => !x.losesHash) stop := by
  rw [readItems_cons]
  refine hx.bind (f := fun a idx => (readItems unpack n idx).map fun r => (a :: r.1, r.2)) fun a ha => ?_
  refine hxs.map fun ys hys => ?_
  rw [List.map_cons, List.map_cons, hys, ha]

/-- A key is stored when its value was read: a clash where it has no hash. -/
theorem pairs_outcome {key val : MsgVal} {out : List (MsgVal × MsgVal)}
    (hkey : Outcome (unpack idx) c₁ r₁ (fun a => a.hashable = !key.losesHash) mid)
    (hval : Outcome (unpack mid) c₂ r₂ (fun a => a.hashable = !val.losesHash) mid')
    (hkvs : ∀ out, Outcome (readPairs unpack out n mid') c₃ r₃ (fun _ => True) stop) :
    Outcome (readPairs unpack out (n + 1) idx) (c₁ ∨ r₁ ∧ (c₂ ∨ r₂ ∧ (key.losesHash = true ∨ c₃))) (r₁ ∧ r₂ ∧ r₃)
      (fun _ => True) stop := by
  rw [readPairs_cons]
  refine hkey.bind (f := fun a idx => unpack idx >>= fun y =>
    if a.hashable then readPairs unpack (setItem a y.1 out) n y.2 else .error .type) fun a ha => ?_
  refine hval.bind (f := fun y idx => if a.hashable then readPairs unpack (setItem a y out) n idx else .error .type)
    fun y _ => ?_
  rw [ha]
  cases hlost : key.losesHash with
  | true => exact ⟨fun _ => rfl, fun hno => absurd (.inl rfl) hno, fun hno => absurd (.inl rfl) hno⟩
  | false => exact (hkvs _).congr (by simp) Iff.rfl rfl

end Items

/-- The items of an array, one more. -/
theorem cutsAll_cons {x : MsgVal} {xs : List MsgVal} {b c : Bytes} (hb : enc x = .ok b) (hc : encAll xs = .ok c)
    (hx : Cuts x b) (hxs : CutsAll xs c) : CutsAll (x :: xs) (b ++ c) := by
  intro pre rest limit k hl hrest
  simp only [levelsAll] at hl
  have hnil : xs = [] → c = [] := by
    rintro rfl
    exact (Except.ok.inj hc).symm
  simp only [ClashesAll, TrailsAll, hb, encLen_ok, Behind]
  by_cases hk : b.length ≤ k
  · have hone := hx pre (c.take (k - b.length) ++ rest) limit k (by omega) (fun hlt => absurd hk (by omega))
    have hmore := hxs (pre ++ b) rest limit (k - b.length) (by omega)
      (fun hlt => hrest (by rw [List.length_append]; omega))
    rw [List.take_of_length_le hk] at hone
    rw [take_behind hk, List.append_assoc]
    rw [List.append_assoc, List.length_append] at hmore
    refine (items_outcome hone hmore).congr ?_ ?_ ?_
    · simp [hk]
    · rw [List.length_append]
      simp only [hk, true_or, true_and]
      constructor
      · rintro (h | ⟨h, -⟩ | h)
        · exact .inl (by omega)
        · exact .inl (by simp [hnil h])
        · exact .inr h
      · rintro (h | h)
        · exact .inl (by omega)
        · exact .inr (.inr h)
    · rw [List.length_append]
      omega
  · -- the cut is in `x`: nothing is there to read behind it
    have hone := hx pre rest limit k (by omega) (fun hlt => hrest (by rw [List.length_append]; omega))
    rw [List.take_append_of_le_length (by omega)]
    have hpast : (pre ++ (b.take k ++ rest)).length ≤ pre.length + b.length := by
      rw [hrest (by rw [List.length_append]; omega)]
      simp only [List.append_nil, List.length_append, List.length_take]
      omega
    have hmore : Outcome (readItems (msgUnpack (pre ++ (b.take k ++ rest)) limit) xs.length (pre.length + b.length))
        False (xs = []) (fun ys => ys.map hashable = xs.map fun x => !x.losesHash) (pre.length + (b ++ c).length) := by
      cases xs with
      | nil =>
        rw [hnil rfl, List.append_nil b]
        exact .of_ok (a := []) rfl rfl not_false rfl
      | cons y ys =>
        have hpos := y.levels_pos
        refine .of_short ⟨.index, ?_, .inl rfl⟩ not_false (List.cons_ne_nil _ _)
        rw [List.length_cons, readItems_cons, msgUnpack_past hpast (by simp only [levelsAll] at hl; omega)]
        rfl
    refine (items_outcome hone hmore).congr ?_ ?_ rfl
    · simp [hk]
    · rw [List.length_append]
      simp only [hk, false_and, or_false, false_or, show ¬ b.length + c.length ≤ k by omega]
      exact and_comm

/-- The items of a map, one more. -/
theorem cutsItems_cons {key val : MsgVal} {kvs : List (MsgVal × MsgVal)} {b c d : Bytes} (hb : enc key = .ok b)
    (hc : enc val = .ok c) (hd : encItems kvs = .ok d) (hkey : Cuts key b) (hval : Cuts val c)
    (hkvs : CutsItems kvs d) : CutsItems ((key, val) :: kvs) (b ++ (c ++ d)) := by
  intro out pre rest limit k hl hrest
  simp only [levelsItems] at hl
  have hnil : kvs = [] → d = [] := by
    rintro rfl
    exact (Except.ok.inj hd).symm
  have hlen : (b ++ (c ++ d)).length = b.length + (c.length + d.length) := by simp only [List.length_append]
  simp only [ClashesItems, TrailsItems, hb, hc, encLen_ok, Behind]
  by_cases hk : b.length ≤ k
  · by_cases hj : c.length ≤ k - b.length
    · have hone := hkey pre (c ++ (d.take (k - b.length - c.length) ++ rest)) limit k (by omega)
        (fun hlt => absurd hk (by omega))
      have htwo := hval (pre ++ b) (d.take (k - b.length - c.length) ++ rest) limit (k - b.length) (by omega)
        (fun hlt => absurd hj (by omega))
      have hmore : ∀ out, Outcome (readPairs (msgUnpack (pre ++ (b ++ (c ++ (d.take (k - b.length - c.length) ++ rest))))
          limit) out kvs.length (pre.length + b.length + c.length)) (ClashesItems kvs (k - b.length - c.length))
          (d.length ≤ k - b.length - c.length ∨ TrailsItems kvs (k - b.length - c.length)) (fun _ => True)
          (pre.length + b.length + c.length + d.length) := by
        intro out
        have h := hkvs out (pre ++ b ++ c) rest limit (k - b.length - c.length) (by omega) (fun hlt => hrest (by omega))
        rw [List.append_assoc, List.append_assoc, List.length_append, List.length_append] at h
        exact h
      rw [List.take_of_length_le hk] at hone
      rw [List.take_of_length_le hj, List.append_assoc, List.length_append] at htwo
      rw [take_behind hk, take_behind hj, List.append_assoc, List.append_assoc]
      refine (pairs_outcome hone htwo hmore).congr ?_ ?_ ?_
      · simp [hk, hj]
      · rw [hlen]
        simp only [hk, hj, true_or, true_and]
        constructor
        · rintro (h | ⟨h, -⟩ | h)
          · exact .inl (by omega)
          · exact .inl (by simp [hnil h])
          · exact .inr h
        · rintro (h | h)
          · exact .inl (by omega)
          · exact .inr (.inr h)
      · rw [hlen]
        omega
    · -- the cut is in the value
      have hone := hkey pre (c.take (k - b.length) ++ rest) limit k (by omega) (fun hlt => absurd hk (by omega))
      have htwo := hval (pre ++ b) rest limit (k - b.length) (by omega) (fun hlt => hrest (by omega))
      rw [List.take_of_length_le hk] at hone
      rw [List.append_assoc, List.length_append] at htwo
      rw [take_behind hk, List.take_append_of_le_length (show k - b.length ≤ c.length by omega), List.append_assoc]
      have hpast : (pre ++ (b ++ (c.take (k - b.length) ++ rest))).length ≤ pre.length + b.length + c.length := by
        rw [hrest (by omega)]
        simp only [List.append_nil, List.length_append, List.length_take]
        omega
      have hmore : ∀ out, Outcome (readPairs (msgUnpack (pre ++ (b ++ (c.take (k - b.length) ++ rest))) limit) out kvs.length
          (pre.length + b.length + c.length)) False (kvs = []) (fun _ => True) (pre.length + (b ++ (c ++ d)).length) := by
        intro out
        cases kvs with
        | nil =>
          rw [hnil rfl, List.append_nil c, List.length_append, ← Nat.add_assoc]
          exact .of_ok (a := out) rfl trivial not_false rfl
        | cons kv kvs =>
          obtain ⟨key', val'⟩ := kv
          have hpos := key'.levels_pos
          refine .of_short ⟨.index, ?_, .inl rfl⟩ not_false (List.cons_ne_nil _ _)
          rw [List.length_cons, readPairs_cons, msgUnpack_past hpast (by simp only [levelsItems] at hl; omega)]
          rfl
      refine (pairs_outcome hone htwo hmore).congr ?_ ?_ rfl
      · simp [hk, hj]
      · rw [hlen]
        simp only [hk, hj, true_or, true_and, false_or, or_false, false_and,
          show ¬ b.length + (c.length + d.length) ≤ k by omega]
        exact and_comm
  · -- the cut is in the key
    have hone := hkey pre rest limit k (by omega) (fun hlt => hrest (by omega))
    rw [List.take_append_of_le_length (by omega)]
    have hpast : (pre ++ (b.take k ++ rest)).length ≤ pre.length + b.length := by
      rw [hrest (by omega)]
      simp only [List.append_nil, List.length_append, List.length_take]
      omega
    have hpos := val.levels_pos
    have hmore : ∀ a : MsgVal, a.hashable = !key.losesHash →
        Outcome (msgUnpack (pre ++ (b.take k ++ rest)) limit (pre.length + b.length) >>= fun y => if a.hashable then
          readPairs (msgUnpack (pre ++ (b.take k ++ rest)) limit) (setItem a y.1 out) kvs.length y.2 else .error .type)
          False False (fun _ => True) (pre.length + (b ++ (c ++ d)).length) := by
      intro a _
      refine .of_short ⟨.index, ?_, .inl rfl⟩ not_false not_false
      rw [msgUnpack_past hpast (by omega)]
      rfl
    rw [List.length_cons, readPairs_cons]
    refine (hone.bind (f := fun a idx => msgUnpack (pre ++ (b.take k ++ rest)) limit idx >>= fun y => if a.hashable then
      readPairs (msgUnpack (pre ++ (b.take k ++ rest)) limit) (setItem a y.1 out) kvs.length y.2 else .error .type)
      hmore).congr ?_ ?_ rfl
    · simp [hk]
    · rw [hlen]
      simp only [hk, false_and, and_false, or_false, show ¬ b.length + (c.length + d.length) ≤ k by omega]

mutual

/-- **Cutting an encoding.** -/
theorem cuts : ∀ (v : MsgVal) {bs : Bytes}, enc v = .ok bs → Cuts v bs
  | v, bs, h => by
    cases v with
    | none =>
      cases h
      exact cuts_header (.inl ⟨_, rfl⟩) (x := .none) rfl (fun pre rest limit => by rw [msgUnpack_one]; simp [readObject])
        fun _ => ⟨not_false, not_false⟩
    | bool b =>
      cases h
      refine cuts_header (.inl ⟨_, rfl⟩) (x := .bool b) rfl (fun pre rest limit => ?_) fun _ => ⟨not_false, not_false⟩
      rw [msgUnpack_one]
      cases b <;> simp [readObject]
    | int i =>
      exact cuts_header (isHeader_int h) (x := .int i) rfl (fun pre rest limit => msgUnpack_packIntObj pre rest limit h)
        fun _ => ⟨not_false, not_false⟩
    | float bits =>
      refine cuts_header (isHeader_packNat h (by decide)) (x := .float bits) rfl (fun pre rest limit => ?_)
        fun _ => ⟨not_false, not_false⟩
      obtain ⟨hat, hlen, hread⟩ := natAt_packNat pre rest h
      rw [hread, hlen]
      simp [readObject, hat, Except.map]
    | str s =>
      simp only [enc] at h
      cases hs : encodeUtf8 s with
      | error e => simp [hs, Bind.bind, Except.bind] at h
      | ok b =>
        obtain ⟨hd, hhd, rfl⟩ := encRaw_eq_ok (by simpa [hs, Bind.bind, Except.bind] using h)
        exact cuts_str hs hhd
    | bytes b =>
      obtain ⟨hd, hhd, rfl⟩ := encRaw_eq_ok h
      exact cuts_bin (.inl rfl) hhd
    | bytearray b =>
      obtain ⟨hd, hhd, rfl⟩ := encRaw_eq_ok h
      exact cuts_bin (.inr (.inl rfl)) hhd
    | memoryview b =>
      obtain ⟨hd, hhd, rfl⟩ := encRaw_eq_ok h
      exact cuts_bin (.inr (.inr rfl)) hhd
    | list xs =>
      obtain ⟨hd, b, hhd, hb, rfl⟩ := encSeq_eq_ok h
      exact cuts_list (.inl rfl) hhd (cutsAll xs hb)
    | tuple xs =>
      obtain ⟨hd, b, hhd, hb, rfl⟩ := encSeq_eq_ok h
      exact cuts_list (.inr rfl) hhd (cutsAll xs hb)
    | set xs =>
      obtain ⟨hdx, p, hp, hhdx, rfl⟩ := encExt_eq_ok h
      obtain ⟨hda, b, hhda, hb, rfl⟩ := encSeq_eq_ok hp
      exact cuts_ext (.inl ⟨rfl, rfl⟩) hhda hb hp hhdx (cutsAll xs hb)
    | frozenset xs =>
      obtain ⟨hdx, p, hp, hhdx, rfl⟩ := encExt_eq_ok h
      obtain ⟨hda, b, hhda, hb, rfl⟩ := encSeq_eq_ok hp
      exact cuts_ext (.inr ⟨rfl, rfl⟩) hhda hb hp hhdx (cutsAll xs hb)
    | dict kvs =>
      obtain ⟨hd, b, hhd, hb, rfl⟩ := encSeq_eq_ok h
      exact cuts_map hhd (cutsItems kvs hb)
    | obj n => cases h

theorem cutsAll : ∀ (xs : List MsgVal) {bs : Bytes}, encAll xs = .ok bs → CutsAll xs bs
  | [], bs, h => by
    intro pre rest limit k _ _
    cases h
    exact .of_ok (a := []) rfl rfl not_false (.inl (Nat.zero_le k))
  | x :: xs, bs, h => by
    obtain ⟨b, c, hb, hc, rfl⟩ := encAll_cons h
    exact cutsAll_cons hb hc (cuts x hb) (cutsAll xs hc)

theorem cutsItems : ∀ (kvs : List (MsgVal × MsgVal)) {bs : Bytes}, encItems kvs = .ok bs → CutsItems kvs bs
  | [], bs, h => by
    intro out pre rest limit k _ _
    cases h
    exact .of_ok (a := out) rfl trivial not_false (.inl (Nat.zero_le k))
  | (key, val) :: kvs, bs, h => by
    obtain ⟨b, c, d, hb, hc, hd, rfl⟩ := encItems_cons h
    exact cutsItems_cons hb hc hd (cuts key hb) (cuts val hc) (cutsItems kvs hd)

end

/-! ## Packing that succeeds -/

/-- An array that was packed had its items packed. -/
theorem packArray_ok {io : MsgStream} (h : io.AtEnd) {n : ℕ} {items : MsgStream → Except MsgErr MsgStream}
    {body : Except MsgErr Bytes} (hitems : ∀ out out' : MsgStream, out.AtEnd → items out = .ok out' →
      body.map out.append = .ok out') {ext : Option UInt8} {r : ℕ × MsgStream} (hr : packArray io n items ext = .ok r) :
    packArray io n (fun out => body.map out.append) ext = .ok r := by
  unfold packArray at hr ⊢
  split
  · rw [if_pos ‹_›] at hr
    cases hr
  · rw [if_neg ‹_›] at hr
    cases hhd : arrayHeader n with
    | error e =>
      rw [hhd] at hr
      cases hr
    | ok hd =>
      rw [hhd] at hr
      simp only [Bind.bind, Except.bind] at hr ⊢
      cases hout : items (io.put hd) with
      | error e =>
        rw [hout] at hr
        cases hr
      | ok out =>
        rw [hout] at hr
        rw [hitems _ out (MsgStream.put_atEnd h hd ▸ MsgStream.append_atEnd hd) hout]
        exact hr

theorem map_eq_ok {α β : Type} {r : Except MsgErr α} {f : α → β} {b : β} (h : r.map f = .ok b) :
    ∃ a, r = .ok a ∧ f a = b := by
  cases r with
  | error e => cases h
  | ok a => exact ⟨a, rfl, Except.ok.inj h⟩

mutual

/-- **What is packed** is the encoding, however deep. -/
theorem msgPack_ok : ∀ (v : MsgVal) {nest : ℤ} {io : MsgStream} {r : ℕ × MsgStream}, io.AtEnd →
    msgPack nest io v = .ok r → (enc v).map (fun c => (c.length, io.append c)) = .ok r
  | v, nest, io, r, h, hr => by
    have hnest : ¬ nest < 0 := by
      intro hneg
      cases v <;> simp only [msgPack, if_pos hneg, reduceCtorEq] at hr
    have hatom : v.depth = 0 → (enc v).map (fun c => (c.length, io.append c)) = .ok r :=
      fun hd => by rw [← msgPack_eq v h (show (v.depth : ℤ) ≤ nest by omega), hr]
    cases v with
    | none | bool _ | int _ | float _ | str _ | bytes _ | bytearray _ | memoryview _ | obj _ => exact hatom rfl
    | list xs =>
      simp only [msgPack, if_neg hnest] at hr
      rw [← packArray_ok h (fun out out' ho => packAll_ok xs ho) hr]
      exact (packArray_eq h xs.length fun out _ => rfl).1.symm
    | tuple xs =>
      simp only [msgPack, if_neg hnest] at hr
      rw [← packArray_ok h (fun out out' ho => packAll_ok xs ho) hr]
      exact (packArray_eq h xs.length fun out _ => rfl).1.symm
    | set xs =>
      simp only [msgPack, if_neg hnest] at hr
      rw [← packArray_ok h (fun out out' ho => packAll_ok xs ho) hr]
      exact ((packArray_eq h xs.length fun out _ => rfl).2 EXT_SET).symm
    | frozenset xs =>
      simp only [msgPack, if_neg hnest] at hr
      rw [← packArray_ok h (fun out out' ho => packAll_ok xs ho) hr]
      exact ((packArray_eq h xs.length fun out _ => rfl).2 EXT_FROZENSET).symm
    | dict kvs =>
      simp only [msgPack, if_neg hnest] at hr
      simp only [enc, encSeq]
      split
      · rw [if_pos ‹_›] at hr
        cases hr
      · rw [if_neg ‹_›] at hr
        cases hhd : mapHeader kvs.length with
        | error e =>
          rw [hhd] at hr
          cases hr
        | ok hd =>
          rw [hhd] at hr
          simp only [Bind.bind, Except.bind, MsgStream.put_atEnd h] at hr ⊢
          cases hout : packItems (nest - 1) (io.append hd) kvs with
          | error e =>
            rw [hout] at hr
            cases hr
          | ok out =>
            rw [hout] at hr
            obtain ⟨d, hd', rfl⟩ := map_eq_ok (packItems_ok kvs (MsgStream.append_atEnd hd) hout)
            rw [← Except.ok.inj hr, hd']
            simp [Except.map, MsgStream.append_idx_sub h]

theorem packAll_ok : ∀ (xs : List MsgVal) {nest : ℤ} {io out : MsgStream}, io.AtEnd →
    packAll nest io xs = .ok out → (encAll xs).map io.append = .ok out
  | [], nest, io, out, h, hr => by
    rw [← packAll_eq [] h (show (depthAll [] : ℤ) ≤ depthAll [] from le_rfl)]
    exact hr
  | x :: xs, nest, io, out, h, hr => by
    rw [packAll] at hr
    cases hx : msgPack nest io x with
    | error e =>
      rw [hx] at hr
      cases hr
    | ok r =>
      rw [hx] at hr
      obtain ⟨b, hb, rfl⟩ := map_eq_ok (msgPack_ok x h hx)
      obtain ⟨c, hc, rfl⟩ := map_eq_ok (packAll_ok xs (MsgStream.append_atEnd b) hr)
      rw [encAll, hb, hc]
      simp [Bind.bind, Except.bind, Except.map]

theorem packItems_ok : ∀ (kvs : List (MsgVal × MsgVal)) {nest : ℤ} {io out : MsgStream}, io.AtEnd →
    packItems nest io kvs = .ok out → (encItems kvs).map io.append = .ok out
  | [], nest, io, out, h, hr => by
    rw [← packItems_eq [] h (show (depthItems [] : ℤ) ≤ depthItems [] from le_rfl)]
    exact hr
  | (key, val) :: kvs, nest, io, out, h, hr => by
    rw [packItems] at hr
    cases hk : msgPack nest io key with
    | error e =>
      rw [hk] at hr
      cases hr
    | ok r =>
      rw [hk] at hr
      obtain ⟨b, hb, rfl⟩ := map_eq_ok (msgPack_ok key h hk)
      simp only at hr
      cases hv : msgPack nest (io.append b) val with
      | error e =>
        rw [hv] at hr
        cases hr
      | ok r =>
        rw [hv] at hr
        obtain ⟨c, hc, rfl⟩ := map_eq_ok (msgPack_ok val (MsgStream.append_atEnd b) hv)
        obtain ⟨d, hd, rfl⟩ := map_eq_ok (packItems_ok kvs (MsgStream.append_atEnd c) hr)
        rw [encItems, hb, hc, hd]
        simp [Bind.bind, Except.bind, Except.map]

end

theorem msgDumps_ok {v : MsgVal} {bs : Bytes} (h : msgDumps v = .ok bs) : enc v = .ok bs := by
  have hend : (⟨[], 0⟩ : MsgStream).AtEnd := rfl
  obtain ⟨r, hr, hbuf⟩ := map_eq_ok h
  obtain ⟨c, hc, rfl⟩ := map_eq_ok (msgPack_ok v hend hr)
  rw [hc, ← hbuf]
  rfl

/-! ## Loading -/

/-- What `_msg_loads` makes of a cut encoding. -/
theorem msgLoads_cut {v : MsgVal} {bs : Bytes} (h : enc v = .ok bs) {limit : ℕ} (hl : v.levels ≤ limit) {k : ℕ}
    (hk : k < bs.length) (hpos : bs.take k ≠ []) :
    (Clashes v k → msgLoads limit (bs.take k) = .error .type) ∧
      (¬ Clashes v k → Trails v k → ∃ x, msgLoads limit (bs.take k) = .ok x) ∧
      (¬ Clashes v k → ¬ Trails v k → ∃ e, msgLoads limit (bs.take k) = .error e ∧ e.isValueError = true) := by
  have hcut := cuts v h [] [] limit k hl fun _ => rfl
  rw [List.nil_append, List.append_nil, List.length_nil] at hcut
  unfold msgLoads
  rw [if_neg hpos]
  refine ⟨?_, ?_, ?_⟩
  · intro hc
    rw [hcut.type hc]
  · intro hc ht
    obtain ⟨x, hx, -⟩ := hcut.value hc (.inr ht)
    exact ⟨x, by rw [hx]⟩
  · intro hc ht
    obtain ⟨e, he, hshort⟩ := hcut.short hc (fun hr => hr.elim (fun hle => by omega) ht)
    rw [he]
    rcases hshort with rfl | rfl | rfl
    · exact ⟨.value, rfl, rfl⟩
    · exact ⟨.value, rfl, rfl⟩
    · exact ⟨.unicode, rfl, rfl⟩

/-- In front of everything a value neither ends nor clashes. -/
theorem not_trails_zero {v : MsgVal} {bs : Bytes} (h : enc v = .ok bs) : ¬ Trails v 0 ∧ ¬ Clashes v 0 := by
  have hcut := cuts v h [] [] v.levels 0 le_rfl fun _ => rfl
  rw [List.take_zero, List.nil_append, List.length_nil, msgUnpack_past (Nat.zero_le 0) v.levels_pos] at hcut
  have hc : ¬ Clashes v 0 := fun hc => by cases hcut.type hc
  refine ⟨fun ht => ?_, hc⟩
  obtain ⟨x, hx, -⟩ := hcut.value hc (.inr ht)
  cases hx

/-- **Truncation is rejected** just when the cut is not in the text or the bytes that end the value and no key or
member without a hash comes up before it is noticed. -/
theorem msgLoads_cut_iff {v : MsgVal} {bs : Bytes} (h : msgDumps v = .ok bs) {limit : ℕ} (hl : v.levels ≤ limit)
    {p rest : Bytes} (hp : bs = p ++ rest) (hrest : rest ≠ []) :
    (∃ e, msgLoads limit p = .error e ∧ e.isValueError = true) ↔ ¬ Trails v p.length ∧ ¬ Clashes v p.length := by
  have henc := msgDumps_ok h
  have hk : p.length < bs.length := by
    rw [hp, List.length_append]
    have := List.length_pos_iff.2 hrest
    omega
  have htake : bs.take p.length = p := by rw [hp, List.take_left' rfl]
  by_cases hnil : p = []
  · subst hnil
    exact iff_of_true ⟨.value, rfl, rfl⟩ (not_trails_zero henc)
  · obtain ⟨hclash, htrails, hnone⟩ := msgLoads_cut henc hl hk (htake.symm ▸ hnil)
    rw [htake] at hclash htrails hnone
    constructor
    · rintro ⟨e, he, hval⟩
      have hc : ¬ Clashes v p.length := by
        intro hc
        rw [hclash hc] at he
        obtain rfl := Except.error.inj he
        cases hval
      refine ⟨fun ht => ?_, hc⟩
      obtain ⟨x, hx⟩ := htrails hc ht
      rw [hx] at he
      cases he
    · exact fun hno => hnone hno.2 hno.1

/-- A number behind the text that is cut. -/
theorem msgLoads_cut_number : msgDumps (.list [.str [97, 98], .int 1]) = .ok [0x92, 0xA2, 97, 98, 1] ∧
    ∃ e, msgLoads 1000 [0x92, 0xA2, 97] = .error e ∧ e.isValueError = true := by
  have hdumps : msgDumps (.list [.str [97, 98], .int 1]) = .ok [0x92, 0xA2, 97, 98, 1] := rfl
  have hcut : ([0x92, 0xA2, 97, 98, 1] : Bytes) = [0x92, 0xA2, 97] ++ [98, 1] := rfl
  refine ⟨hdumps, (msgLoads_cut_iff hdumps (by decide) (p := [0x92, 0xA2, 97]) hcut (by decide)).2 ?_⟩
  constructor
  · rintro ⟨-, ⟨hc, -⟩ | ⟨-, ⟨-, hc⟩ | ⟨-, hc⟩⟩⟩
    · cases hc
    · exact hc
    · exact hc
  · rintro ⟨-, hc | ⟨-, hc | ⟨-, hc⟩⟩⟩
    · exact hc
    · exact hc
    · exact hc

/-- The last character of a text is missing, and a shorter text comes back. -/
theorem msgLoads_cut_text : msgDumps (.str [97, 98]) = .ok [0xA2, 97, 98] ∧
    msgLoads 1000 [0xA2, 97] = .ok (.str [97]) := by
  refine ⟨rfl, ?_⟩
  have henc : encodeUtf8 [97] = .ok [97] := rfl
  have hhd : strHeader 2 = .ok [0xA2] := rfl
  have hread := msgUnpack_strHeader [] [97] 999 hhd
  have hdec : decodeUtf8 [97] = .ok [97] := decodeUtf8_encodeUtf8 henc
  have hraw : readStr ([] ++ ([0xA2] ++ [97])) 1 2 = .ok (.str [97], 3) := by
    have hbytes : bytesAt ([] ++ ([0xA2] ++ [97])) 1 2 = [97] := rfl
    rw [readStr, hbytes, hdec]
    rfl
  unfold msgLoads
  rw [if_neg (by decide), show msgUnpack [0xA2, 97] 1000 0 = .ok (.str [97], 3) from hread.trans hraw]

end OmniJsonDb
