import Mathlib.Tactic.IntervalCases
import Mathlib.Tactic.Positivity
import OmniJsonDb.Proof.Msgpack

/-!
# What is packed is unpacked

Every header is read back as the kind and the length that it was written for. By induction on the
value, `_msg_unpack` at the start of an encoding returns the value and the index of its end,
whatever stands before and after it.

* `msgUnpack_strHeader` and the lemmas beside it: the headers.
* `setItem_apart`, `addAll_apart`: keys and members that differ are all kept.
* `decodes`: an encoding is read back.
* `msgUnpack_msgDumps`: the round trip, and when packing succeeds.
-/

namespace OmniJsonDb

/-! ## Reading in the middle of a buffer -/

section Mid

variable (pre rest : Bytes)

theorem byteAt_mid (b : UInt8) : byteAt (pre ++ b :: rest) pre.length = .ok b.toNat := by
  simp [byteAt]

theorem bytesAt_mid (bs : Bytes) : bytesAt (pre ++ (bs ++ rest)) pre.length bs.length = bs := by
  simp [bytesAt]

theorem natAt_mid {k : ℕ} {bs : Bytes} (h : bs.length = k) :
    natAt k (pre ++ (bs ++ rest)) pre.length = .ok (beNat bs) := by
  subst h
  have hle : pre.length + bs.length ≤ (pre ++ (bs ++ rest)).length := by simp
  rw [natAt, if_pos hle, bytesAt_mid]

variable {b : UInt8} {k : ℕ} {hd : Bytes}

/-- **A header with a number.** -/
theorem natAt_packNat {n : ℕ} (h : packNat b k n = .ok hd) :
    natAt k (pre ++ (hd ++ rest)) (pre.length + 1) = .ok n ∧ pre.length + hd.length = pre.length + 1 + k ∧
      ∀ limit, msgUnpack (pre ++ (hd ++ rest)) (limit + 1) pre.length =
        readObject (msgUnpack (pre ++ (hd ++ rest)) limit) (pre ++ (hd ++ rest)) b.toNat (pre.length + 1) := by
  obtain ⟨hn, rfl⟩ := packNat_eq_ok.1 h
  have hcut : pre ++ ((b :: beBytes k n) ++ rest) = (pre ++ [b]) ++ (beBytes k n ++ rest) := by simp
  refine ⟨?_, by simp [length_beBytes]; omega, fun limit => ?_⟩
  · have hat := natAt_mid (pre ++ [b]) rest (length_beBytes k n)
    rw [beNat_beBytes hn] at hat
    rw [hcut]
    simpa using hat
  · rw [msgUnpack, List.cons_append, byteAt_mid]
    rfl

/-- A header with a number of one byte. -/
theorem byteAt_packNat {n : ℕ} (h : packNat b 1 n = .ok hd) :
    byteAt (pre ++ (hd ++ rest)) (pre.length + 1) = .ok n := by
  obtain ⟨hn, rfl⟩ := packNat_eq_ok.1 h
  have hbyte : beBytes 1 n = [UInt8.ofNat n] := by
    simp [beBytes, leBytes, Nat.mod_eq_of_lt (show n < 256 by simpa using hn)]
  have hcut : pre ++ ((b :: beBytes 1 n) ++ rest) = (pre ++ [b]) ++ (UInt8.ofNat n :: rest) := by simp [hbyte]
  have hat := byteAt_mid (pre ++ [b]) rest (UInt8.ofNat n)
  rw [UInt8.toNat_ofNat', Nat.mod_eq_of_lt (show n < 2 ^ 8 by simpa using hn)] at hat
  rw [hcut]
  simpa using hat

/-- A header of one byte. -/
theorem msgUnpack_one (limit : ℕ) : msgUnpack (pre ++ ([b] ++ rest)) (limit + 1) pre.length =
    readObject (msgUnpack (pre ++ ([b] ++ rest)) limit) (pre ++ ([b] ++ rest)) b.toNat (pre.length + [b].length) := by
  rw [msgUnpack, List.cons_append, byteAt_mid]
  rfl

/-- **A header with a signed number.** -/
theorem intAt_packInt {i : ℤ} (h : packInt b k i = .ok hd) :
    intAt k (pre ++ (hd ++ rest)) (pre.length + 1) = .ok i ∧ pre.length + hd.length = pre.length + 1 + k ∧
      ∀ limit, msgUnpack (pre ++ (hd ++ rest)) (limit + 1) pre.length =
        readObject (msgUnpack (pre ++ (hd ++ rest)) limit) (pre ++ (hd ++ rest)) b.toNat (pre.length + 1) := by
  obtain ⟨⟨hlo, hhi⟩, rfl⟩ := packInt_eq_ok.1 h
  have hpos : (0 : ℤ) < 256 ^ k := by positivity
  have hnn := Int.emod_nonneg i hpos.ne'
  have hlt := Int.emod_lt_of_pos i hpos
  obtain ⟨m, hm⟩ := Int.eq_ofNat_of_zero_le hnn
  rw [hm] at hlt
  simp only [hm, Int.toNat_natCast] at h ⊢
  have hnat : packNat b k m = .ok (b :: beBytes k m) := packNat_eq_ok.2 ⟨by exact_mod_cast hlt, rfl⟩
  obtain ⟨hat, hlen, hread⟩ := natAt_packNat pre rest hnat
  refine ⟨?_, hlen, hread⟩
  simp only [intAt, hat, Except.map]
  have hiff : 2 * m < 256 ^ k ↔ 2 * (m : ℤ) < 256 ^ k := by exact_mod_cast Iff.rfl
  congr 1
  by_cases hneg : i < 0
  · have hrem : i % 256 ^ k = i + 256 ^ k := by
      rw [← Int.add_emod_right]
      exact Int.emod_eq_of_lt (by omega) (by omega)
    rw [if_neg (by rw [hiff]; omega)]
    omega
  · have hrem : i % 256 ^ k = i := Int.emod_eq_of_lt (by omega) (by omega)
    rw [if_pos (by rw [hiff]; omega)]
    omega

end Mid

/-! ## Headers -/

section Headers

variable {n : ℕ} {hd : Bytes} (pre rest : Bytes) (limit : ℕ)

theorem toNat_ofNat_lt {m : ℕ} (h : m < 256) : (UInt8.ofNat m).toNat = m := by
  rw [UInt8.toNat_ofNat']
  exact Nat.mod_eq_of_lt h

theorem and_0x1F {n : ℕ} (h : n ≤ 0x1F) : (0xA0 + n) &&& 0x1F = n := by
  interval_cases n <;> rfl

theorem and_0x0F {n : ℕ} (h : n ≤ 0xF) : (0x90 + n) &&& 0x0F = n ∧ (0x80 + n) &&& 0x0F = n := by
  interval_cases n <;> exact ⟨rfl, rfl⟩

theorem msgUnpack_binHeader (h : binHeader n = .ok hd) :
    msgUnpack (pre ++ (hd ++ rest)) (limit + 1) pre.length =
      readBin (pre ++ (hd ++ rest)) (pre.length + hd.length) n := by
  unfold binHeader at h
  split at h
  · obtain ⟨-, hlen, hread⟩ := natAt_packNat pre rest h
    rw [hread, hlen]
    simp [readObject, byteAt_packNat pre rest h, bind, Except.bind]
  · split at h
    · obtain ⟨hat, hlen, hread⟩ := natAt_packNat pre rest h
      rw [hread, hlen]
      simp [readObject, hat, bind, Except.bind]
    · obtain ⟨hat, hlen, hread⟩ := natAt_packNat pre rest h
      rw [hread, hlen]
      simp [readObject, hat, bind, Except.bind]

theorem msgUnpack_strHeader (h : strHeader n = .ok hd) :
    msgUnpack (pre ++ (hd ++ rest)) (limit + 1) pre.length =
      readStr (pre ++ (hd ++ rest)) (pre.length + hd.length) n := by
  unfold strHeader at h
  split at h
  · rename_i hn
    cases h
    rw [msgUnpack_one, toNat_ofNat_lt (by omega), readObject, if_neg (by omega), if_neg (by omega), if_neg (by omega),
      if_pos (by omega), and_0x1F hn]
  · split at h
    · obtain ⟨-, hlen, hread⟩ := natAt_packNat pre rest h
      rw [hread, hlen]
      simp [readObject, byteAt_packNat pre rest h, bind, Except.bind]
    · split at h
      · obtain ⟨hat, hlen, hread⟩ := natAt_packNat pre rest h
        rw [hread, hlen]
        simp [readObject, hat, bind, Except.bind]
      · obtain ⟨hat, hlen, hread⟩ := natAt_packNat pre rest h
        rw [hread, hlen]
        simp [readObject, hat, bind, Except.bind]

theorem msgUnpack_arrayHeader (h : arrayHeader n = .ok hd) :
    msgUnpack (pre ++ (hd ++ rest)) (limit + 1) pre.length =
      readArray (msgUnpack (pre ++ (hd ++ rest)) limit) (pre.length + hd.length) n := by
  unfold arrayHeader at h
  split at h
  · rename_i hn
    cases h
    rw [msgUnpack_one, toNat_ofNat_lt (by omega), readObject, if_neg (by omega), if_neg (by omega), if_pos (by omega),
      (and_0x0F hn).1]
  · split at h
    · obtain ⟨hat, hlen, hread⟩ := natAt_packNat pre rest h
      rw [hread, hlen]
      simp [readObject, hat, bind, Except.bind]
    · obtain ⟨hat, hlen, hread⟩ := natAt_packNat pre rest h
      rw [hread, hlen]
      simp [readObject, hat, bind, Except.bind]

theorem msgUnpack_mapHeader (h : mapHeader n = .ok hd) :
    msgUnpack (pre ++ (hd ++ rest)) (limit + 1) pre.length =
      readMap (msgUnpack (pre ++ (hd ++ rest)) limit) (pre.length + hd.length) n := by
  unfold mapHeader at h
  split at h
  · rename_i hn
    cases h
    rw [msgUnpack_one, toNat_ofNat_lt (by omega), readObject, if_neg (by omega), if_pos (by omega), (and_0x0F hn).2]
  · split at h
    · obtain ⟨hat, hlen, hread⟩ := natAt_packNat pre rest h
      rw [hread, hlen]
      simp [readObject, hat, bind, Except.bind]
    · obtain ⟨hat, hlen, hread⟩ := natAt_packNat pre rest h
      rw [hread, hlen]
      simp [readObject, hat, bind, Except.bind]

theorem msgUnpack_extHeader (h : extHeader n = .ok hd) :
    msgUnpack (pre ++ (hd ++ rest)) (limit + 1) pre.length =
      readExt (msgUnpack (pre ++ (hd ++ rest)) limit) (pre ++ (hd ++ rest)) (pre.length + hd.length) n := by
  unfold extHeader at h
  split at h
  · obtain ⟨hat, hlen, hread⟩ := natAt_packNat pre rest h
    rw [hread, hlen]
    simp [readObject, hat, bind, Except.bind]
  · split at h
    · obtain ⟨hat, hlen, hread⟩ := natAt_packNat pre rest h
      rw [hread, hlen]
      simp [readObject, hat, bind, Except.bind]
    · split_ifs at h with h16 h8 h4 h2 h1
      · cases h; rw [msgUnpack_one, h16]; simp [readObject]
      · cases h; rw [msgUnpack_one, h8]; simp [readObject]
      · cases h; rw [msgUnpack_one, h4]; simp [readObject]
      · cases h; rw [msgUnpack_one, h2]; simp [readObject]
      · cases h; rw [msgUnpack_one, h1]; simp [readObject]
      · obtain ⟨-, hlen, hread⟩ := natAt_packNat pre rest h
        rw [hread, hlen]
        simp [readObject, byteAt_packNat pre rest h, bind, Except.bind]

/-- **Integers.** -/
theorem msgUnpack_packIntObj {i : ℤ} (h : packIntObj i = .ok hd) :
    msgUnpack (pre ++ (hd ++ rest)) (limit + 1) pre.length = .ok (.int i, pre.length + hd.length) := by
  unfold packIntObj at h
  split_ifs at h with h1 h2 h3 h4 h5 h6 h7 h8 h9 h10
  · cases h
    rw [msgUnpack_one, toNat_ofNat_lt (by omega), readObject, if_pos (by omega), Int.toNat_of_nonneg h1.1]
  · cases h
    rw [msgUnpack_one, toNat_ofNat_lt (by omega), readObject, if_neg (by omega), if_neg (by omega), if_neg (by omega),
      if_neg (by omega), if_pos (by omega), Int.toNat_of_nonneg (by omega)]
    simp
  · obtain ⟨-, hlen, hread⟩ := natAt_packNat pre rest h
    rw [hread, hlen]
    simp [readObject, byteAt_packNat pre rest h, Except.map]
    omega
  · obtain ⟨hat, hlen, hread⟩ := intAt_packInt pre rest h
    rw [hread, hlen]
    simp [readObject, hat, Except.map]
  · obtain ⟨hat, hlen, hread⟩ := natAt_packNat pre rest h
    rw [hread, hlen]
    simp [readObject, hat, Except.map]
    omega
  · obtain ⟨hat, hlen, hread⟩ := intAt_packInt pre rest h
    rw [hread, hlen]
    simp [readObject, hat, Except.map]
  · obtain ⟨hat, hlen, hread⟩ := natAt_packNat pre rest h
    rw [hread, hlen]
    simp [readObject, hat, Except.map]
    omega
  · obtain ⟨hat, hlen, hread⟩ := intAt_packInt pre rest h
    rw [hread, hlen]
    simp [readObject, hat, Except.map]
  · obtain ⟨hat, hlen, hread⟩ := natAt_packNat pre rest h
    rw [hread, hlen]
    simp [readObject, hat, Except.map]
    omega
  · obtain ⟨hat, hlen, hread⟩ := intAt_packInt pre rest h
    rw [hread, hlen]
    simp [readObject, hat, Except.map]

end Headers

/-! ## Values -/

namespace MsgVal

/-- No two of them are the same key. -/
def KeysApart (xs : List MsgVal) : Prop := xs.Pairwise fun x y => keyEq x y = false

mutual

/-- Built from `None`, booleans, integers, floats, text, bytes, lists, dictionaries and sets, whose
keys and members can be hashed. -/
def Plain : MsgVal → Prop
  | .none | .bool _ | .float _ | .str _ | .bytes _ => True
  | .int i => -2 ^ 63 ≤ i ∧ i < 2 ^ 64
  | .list xs => PlainAll xs
  | .set xs | .frozenset xs => PlainAll xs ∧ (∀ x ∈ xs, x.hashable = true) ∧ KeysApart xs
  | .dict kvs => PlainItems kvs ∧ (∀ kv ∈ kvs, kv.1.hashable = true) ∧ KeysApart (kvs.map Prod.fst)
  | _ => False

def PlainAll : List MsgVal → Prop
  | [] => True
  | x :: xs => Plain x ∧ PlainAll xs

def PlainItems : List (MsgVal × MsgVal) → Prop
  | [] => True
  | (k, v) :: kvs => Plain k ∧ Plain v ∧ PlainItems kvs

end

mutual

/-- How many calls of `_msg_unpack` are nested to read it: a set is read as an ext object with an
array inside. -/
def levels : MsgVal → ℕ
  | .list xs | .tuple xs => 1 + levelsAll xs
  | .set xs | .frozenset xs => 2 + levelsAll xs
  | .dict kvs => 1 + levelsItems kvs
  | _ => 1

def levelsAll : List MsgVal → ℕ
  | [] => 0
  | x :: xs => max (levels x) (levelsAll xs)

def levelsItems : List (MsgVal × MsgVal) → ℕ
  | [] => 0
  | (k, v) :: kvs => max (max (levels k) (levels v)) (levelsItems kvs)

end

theorem levels_pos (v : MsgVal) : 0 < v.levels := by cases v <;> simp [levels]

theorem setItem_apart {key val : MsgVal} {out : List (MsgVal × MsgVal)}
    (h : ∀ kv ∈ out, keyEq kv.1 key = false) : setItem key val out = out ++ [(key, val)] := by
  induction out with
  | nil => rfl
  | cons kv out ih =>
    obtain ⟨k, v⟩ := kv
    have hk : keyEq k key = false := h (k, v) List.mem_cons_self
    have htail := ih fun kv hm => h kv (List.mem_cons_of_mem _ hm)
    simp [setItem, hk, htail]

theorem addAll_apart {xs : List MsgVal} (hh : ∀ x ∈ xs, x.hashable = true) :
    ∀ {acc : List MsgVal}, KeysApart (acc ++ xs) → addAll acc xs = .ok (acc ++ xs) := by
  induction xs with
  | nil => intro acc _; simp [addAll]
  | cons x xs ih =>
    intro acc ha
    have hx : acc.any (fun y => keyEq y x) = false := by
      rw [List.any_eq_false]
      intro y hy
      have hpair := (List.pairwise_append.1 ha).2.2 y hy x List.mem_cons_self
      simp [hpair]
    have happ : KeysApart ((acc ++ [x]) ++ xs) := by simpa using ha
    have hrec := ih (fun y hy => hh y (List.mem_cons_of_mem _ hy)) happ
    simp [addAll, hh x List.mem_cons_self, hx, hrec]

end MsgVal

open MsgVal

/-! ## Encodings -/

/-- What was packed behind a header is read as such. -/
theorem encSeq_eq_ok {header : ℕ → Except MsgErr Bytes} {n : ℕ} {items : Except MsgErr Bytes} {bs : Bytes}
    (h : encSeq header n items = .ok bs) : ∃ hd b, header n = .ok hd ∧ items = .ok b ∧ bs = hd ++ b := by
  unfold encSeq at h
  split at h
  · cases h
  · cases hh : header n with
    | error e => simp [hh, bind, Except.bind] at h
    | ok hd =>
      cases items with
      | error e => simp [hh, bind, Except.bind, Except.map] at h
      | ok b =>
        simp only [hh, bind, Except.bind, Except.map, Except.ok.injEq] at h
        exact ⟨hd, b, rfl, rfl, h.symm⟩

theorem encRaw_eq_ok {header : ℕ → Except MsgErr Bytes} {b bs : Bytes} (h : encRaw header b = .ok bs) :
    ∃ hd, header b.length = .ok hd ∧ bs = hd ++ b := by
  unfold encRaw at h
  split at h
  · cases h
  · cases hh : header b.length with
    | error e => simp [hh, Except.map] at h
    | ok hd =>
      simp only [hh, Except.map, Except.ok.injEq] at h
      exact ⟨hd, rfl, h.symm⟩

theorem encExt_eq_ok {code : UInt8} {payload : Except MsgErr Bytes} {bs : Bytes} (h : encExt code payload = .ok bs) :
    ∃ hd p, payload = .ok p ∧ extHeader p.length = .ok hd ∧ bs = hd ++ code :: p := by
  unfold encExt at h
  cases payload with
  | error e => simp [bind, Except.bind] at h
  | ok p =>
    cases hh : extHeader p.length with
    | error e => simp [hh, bind, Except.bind, Except.map] at h
    | ok hd =>
      simp only [hh, bind, Except.bind, Except.map, Except.ok.injEq] at h
      exact ⟨hd, p, rfl, hh, h.symm⟩

/-- **Read back.** Wherever `bs` stands, `v` is read there, and then the index is its end. -/
def Decodes (v : MsgVal) (bs : Bytes) : Prop :=
  ∀ (pre rest : Bytes) (limit : ℕ), v.levels ≤ limit →
    msgUnpack (pre ++ (bs ++ rest)) limit pre.length = .ok (v, pre.length + bs.length)

/-- The same of the items of an array. -/
def DecodesAll (xs : List MsgVal) (bs : Bytes) : Prop :=
  ∀ (pre rest : Bytes) (limit : ℕ), levelsAll xs ≤ limit →
    readItems (msgUnpack (pre ++ (bs ++ rest)) limit) xs.length pre.length = .ok (xs, pre.length + bs.length)

/-- The same of the items of a map, behind others that were read already. -/
def DecodesItems (kvs : List (MsgVal × MsgVal)) (bs : Bytes) : Prop :=
  ∀ (out : List (MsgVal × MsgVal)) (pre rest : Bytes) (limit : ℕ), levelsItems kvs ≤ limit →
    KeysApart ((out ++ kvs).map Prod.fst) →
    readPairs (msgUnpack (pre ++ (bs ++ rest)) limit) out kvs.length pre.length =
      .ok (out ++ kvs, pre.length + bs.length)

theorem decodes_array {xs : List MsgVal} {b hd : Bytes} (hhd : arrayHeader xs.length = .ok hd)
    (hall : DecodesAll xs b) (pre rest : Bytes) {limit : ℕ} (hl : levelsAll xs ≤ limit) :
    msgUnpack (pre ++ ((hd ++ b) ++ rest)) (limit + 1) pre.length = .ok (.list xs, pre.length + (hd ++ b).length) := by
  have hitems := hall (pre ++ hd) rest limit hl
  have hread := msgUnpack_arrayHeader pre (b ++ rest) limit hhd
  simp only [List.append_assoc, List.length_append] at hitems hread ⊢
  rw [hread, readArray, hitems]
  simp [Except.map, Nat.add_assoc]

theorem decodes_ext {code : UInt8} {xs : List MsgVal} {hd p : Bytes} (hcode : code = EXT_SET ∨ code = EXT_FROZENSET)
    (hhd : extHeader p.length = .ok hd) {limit : ℕ} (pre rest : Bytes)
    (hp : ∀ pre rest : Bytes, msgUnpack (pre ++ (p ++ rest)) limit pre.length = .ok (.list xs, pre.length + p.length))
    (hh : ∀ x ∈ xs, x.hashable = true) (ha : KeysApart xs) :
    msgUnpack (pre ++ ((hd ++ code :: p) ++ rest)) (limit + 1) pre.length =
      .ok (if code = EXT_FROZENSET then .frozenset xs else .set xs, pre.length + (hd ++ code :: p).length) := by
  have hread := msgUnpack_extHeader pre ((code :: p) ++ rest) limit hhd
  have hbyte := byteAt_mid (pre ++ hd) (p ++ rest) code
  have hpay := hp (pre ++ hd ++ [code]) rest
  have hadd := @addAll_apart xs hh [] (by simpa using ha)
  simp only [List.append_assoc, List.length_append, List.cons_append, List.nil_append, List.length_cons,
    List.length_nil] at hread hbyte hpay hadd ⊢
  have htn : ∀ c : UInt8, code.toNat = c.toNat ↔ code = c := fun c => UInt8.toNat_inj
  rw [hread, readExt, hbyte]
  simp only [bind, Except.bind, htn, if_pos hcode]
  rw [← Nat.add_assoc] at hpay
  simp only [hpay, members, hadd, pure, Except.pure]
  congr 2
  omega

theorem decodes_map {kvs : List (MsgVal × MsgVal)} {b hd : Bytes} (hhd : mapHeader kvs.length = .ok hd)
    (hitems : DecodesItems kvs b) (ha : KeysApart (kvs.map Prod.fst)) (pre rest : Bytes) {limit : ℕ}
    (hl : levelsItems kvs ≤ limit) :
    msgUnpack (pre ++ ((hd ++ b) ++ rest)) (limit + 1) pre.length = .ok (.dict kvs, pre.length + (hd ++ b).length) := by
  have hpairs := hitems [] (pre ++ hd) rest limit hl (by simpa using ha)
  have hread := msgUnpack_mapHeader pre (b ++ rest) limit hhd
  simp only [List.append_assoc, List.length_append] at hpairs hread ⊢
  rw [hread, readMap, hpairs]
  simp [Except.map, Nat.add_assoc]

mutual

/-- **An encoding is read back.** -/
theorem decodes : ∀ (v : MsgVal), v.Plain → ∀ {bs : Bytes}, enc v = .ok bs → Decodes v bs
  | v, hv, bs, h => by
    intro pre rest limit hl
    obtain ⟨limit, rfl⟩ := Nat.exists_eq_add_of_le' (Nat.lt_of_lt_of_le v.levels_pos hl)
    cases v with
    | none => cases h; rw [msgUnpack_one]; simp [readObject]
    | bool b => cases b <;> (cases h; rw [msgUnpack_one]; simp [readObject])
    | int i => exact msgUnpack_packIntObj pre rest limit h
    | float bits =>
      obtain ⟨hat, hlen, hread⟩ := natAt_packNat pre rest h
      rw [hread, hlen]
      simp [readObject, hat, Except.map]
    | str s =>
      simp only [enc] at h
      cases hs : encodeUtf8 s with
      | error e => simp [hs, bind, Except.bind] at h
      | ok b =>
        obtain ⟨hd, hhd, rfl⟩ := encRaw_eq_ok (by simpa [hs, bind, Except.bind] using h)
        have hread := msgUnpack_strHeader pre (b ++ rest) limit hhd
        have hbytes := bytesAt_mid (pre ++ hd) rest b
        simp only [List.append_assoc, List.length_append] at hread hbytes ⊢
        rw [hread, readStr, hbytes, decodeUtf8_encodeUtf8 hs]
        simp [Except.map, Nat.add_assoc]
    | bytes b =>
      obtain ⟨hd, hhd, rfl⟩ := encRaw_eq_ok h
      have hread := msgUnpack_binHeader pre (b ++ rest) limit hhd
      have hbytes := bytesAt_mid (pre ++ hd) rest b
      simp only [List.append_assoc, List.length_append] at hread hbytes ⊢
      rw [hread, readBin, hbytes]
      simp [Nat.add_assoc]
    | list xs =>
      obtain ⟨hd, b, hhd, hb, rfl⟩ := encSeq_eq_ok h
      exact decodes_array hhd (decodesAll xs hv hb) pre rest (by simp only [levels] at hl; omega)
    | set xs =>
      obtain ⟨hd, p, hp, hhd, rfl⟩ := encExt_eq_ok h
      obtain ⟨hdp, b, hhdp, hb, rfl⟩ := encSeq_eq_ok hp
      obtain ⟨hall, hh, ha⟩ := hv
      obtain ⟨limit, rfl⟩ := Nat.exists_eq_add_of_le' (show 1 ≤ limit by simp only [levels] at hl; omega)
      have hl' : levelsAll xs ≤ limit := by simp only [levels] at hl; omega
      exact decodes_ext (.inl rfl) hhd pre rest
        (fun pre rest => decodes_array hhdp (decodesAll xs hall hb) pre rest hl') hh ha
    | frozenset xs =>
      obtain ⟨hd, p, hp, hhd, rfl⟩ := encExt_eq_ok h
      obtain ⟨hdp, b, hhdp, hb, rfl⟩ := encSeq_eq_ok hp
      obtain ⟨hall, hh, ha⟩ := hv
      obtain ⟨limit, rfl⟩ := Nat.exists_eq_add_of_le' (show 1 ≤ limit by simp only [levels] at hl; omega)
      have hl' : levelsAll xs ≤ limit := by simp only [levels] at hl; omega
      exact decodes_ext (.inr rfl) hhd pre rest
        (fun pre rest => decodes_array hhdp (decodesAll xs hall hb) pre rest hl') hh ha
    | dict kvs =>
      obtain ⟨hd, b, hhd, hb, rfl⟩ := encSeq_eq_ok h
      obtain ⟨hitems, hh, ha⟩ := hv
      exact decodes_map hhd (decodesItems kvs hitems hh hb) ha pre rest (by simp only [levels] at hl; omega)
    | bytearray b => cases hv
    | memoryview b => cases hv
    | tuple xs => cases hv
    | obj n => cases hv

theorem decodesAll : ∀ (xs : List MsgVal), PlainAll xs → ∀ {bs : Bytes}, encAll xs = .ok bs → DecodesAll xs bs
  | [], _, bs, h => by
    intro pre rest limit _
    cases h
    simp [readItems]
  | x :: xs, hp, bs, h => by
    intro pre rest limit hl
    simp only [levelsAll] at hl
    cases hx : enc x with
    | error e => simp [encAll, hx, bind, Except.bind] at h
    | ok b =>
      cases hxs : encAll xs with
      | error e => simp [encAll, hx, hxs, bind, Except.bind, Except.map] at h
      | ok c =>
        obtain rfl : b ++ c = bs := by simpa [encAll, hx, hxs, bind, Except.bind, Except.map] using h
        have hone := decodes x hp.1 hx pre (c ++ rest) limit (by omega)
        have hrest := decodesAll xs hp.2 hxs (pre ++ b) rest limit (by omega)
        simp only [List.append_assoc, List.length_append] at hone hrest ⊢
        simp only [List.length_cons, readItems, hone, hrest, bind, Except.bind, pure, Except.pure, Nat.add_assoc]

theorem decodesItems : ∀ (kvs : List (MsgVal × MsgVal)), PlainItems kvs → (∀ kv ∈ kvs, kv.1.hashable = true) →
    ∀ {bs : Bytes}, encItems kvs = .ok bs → DecodesItems kvs bs
  | [], _, _, bs, h => by
    intro out pre rest limit _ _
    cases h
    simp [readPairs]
  | (k, v) :: kvs, hp, hh, bs, h => by
    intro out pre rest limit hl ha
    simp only [levelsItems] at hl
    cases hk : enc k with
    | error e => simp [encItems, hk, bind, Except.bind] at h
    | ok b =>
      cases hv : enc v with
      | error e => simp [encItems, hk, hv, bind, Except.bind] at h
      | ok c =>
        cases hkvs : encItems kvs with
        | error e => simp [encItems, hk, hv, hkvs, bind, Except.bind, Except.map] at h
        | ok d =>
          obtain rfl : b ++ c ++ d = bs := by
            simpa [encItems, hk, hv, hkvs, bind, Except.bind, Except.map] using h
          -- the keys before differ from this one, so it is appended
          have hset : setItem k v out = out ++ [(k, v)] := by
            refine setItem_apart fun kv hm => ?_
            rw [List.map_append] at ha
            exact (List.pairwise_append.1 ha).2.2 kv.1 (List.mem_map_of_mem hm) k (by simp)
          have hkey := decodes k hp.1 hk pre (c ++ (d ++ rest)) limit (by omega)
          have hval := decodes v hp.2.1 hv (pre ++ b) (d ++ rest) limit (by omega)
          have hrest := decodesItems kvs hp.2.2 (fun kv hm => hh kv (List.mem_cons_of_mem _ hm)) hkvs
            (out ++ [(k, v)]) (pre ++ b ++ c) rest limit (by omega) (by simpa using ha)
          have hhk : k.hashable = true := hh (k, v) List.mem_cons_self
          simp only [List.append_assoc, List.length_append, List.cons_append, List.nil_append] at hkey hval hrest ⊢
          simp only [List.length_cons, readPairs, hkey, hval, hhk, if_true, hset, bind, Except.bind, hrest, Nat.add_assoc]

end

/-! ## The round trip -/

/-- **MessagePack round trip.** A value is packed exactly when its texts have an encoding and its
lengths a header, and what it is packed to is read back in front of any `tail`, with the index of
its end. -/
theorem msgUnpack_msgDumps {v : MsgVal} (hv : v.Plain) (hd : v.depth ≤ 1024) :
    ((∃ bs, msgDumps v = .ok bs) ↔ v.Fits) ∧
      ∀ bs, msgDumps v = .ok bs → ∀ (tail : Bytes) (limit : ℕ), v.levels ≤ limit →
        msgUnpack (bs ++ tail) limit 0 = .ok (v, bs.length) := by
  rw [msgDumps_eq hd]
  refine ⟨enc_isOk_iff v, fun bs h tail limit hl => ?_⟩
  have hread := decodes v hv h [] tail limit hl
  simpa using hread

-- a set in a dictionary, in front of a zero byte
theorem msgUnpack_msgDumps_dict :
    (∃ bs, msgDumps (.dict [(.str [107], .set [.int 1, .none])]) = .ok bs) ∧
      ∀ bs, msgDumps (.dict [(.str [107], .set [.int 1, .none])]) = .ok bs →
        msgUnpack (bs ++ [0]) 4 0 = .ok (.dict [(.str [107], .set [.int 1, .none])], bs.length) := by
  have hplain : (MsgVal.dict [(.str [107], .set [.int 1, .none])]).Plain := by
    refine ⟨⟨trivial, ⟨⟨⟨by norm_num, by norm_num⟩, trivial, trivial⟩, ?_, ?_⟩, trivial⟩, ?_, ?_⟩
    · intro x hx; simp at hx; rcases hx with rfl | rfl <;> rfl
    · refine List.Pairwise.cons ?_ (List.pairwise_singleton _ _)
      intro x hx; simp at hx; subst hx; rfl
    · intro kv hkv; simp at hkv; subst hkv; rfl
    · exact List.pairwise_singleton _ _
  have hr := msgUnpack_msgDumps hplain (by decide)
  exact ⟨⟨[0x81, 0xA1, 107, 0xC7, 3, 123, 0x92, 1, 0xC0], rfl⟩, fun bs h => hr.2 bs h [0] 4 (by decide)⟩

/-- A lone surrogate cannot be encoded: there is nothing to read back. -/
theorem msgDumps_surrogate : (MsgVal.str [0xD800]).Plain ∧ (MsgVal.str [0xD800]).depth = 0 ∧
    ¬ ∃ bs, msgDumps (.str [0xD800]) = .ok bs := by
  refine ⟨trivial, rfl, ?_⟩
  rintro ⟨bs, h⟩
  have herr : msgDumps (.str [0xD800]) = .error .unicode := rfl
  rw [herr] at h
  cases h

end OmniJsonDb
