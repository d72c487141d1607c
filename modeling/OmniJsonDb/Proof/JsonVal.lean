import OmniJsonDb.Model.JsonVal

/-!
# Strings and bytes through JSON

Whether a value comes back from the JSON codec as it was, over a library that carries what it is
given. Bytes come back on their own, unless there are none of them; inside a list or a dictionary
nothing turns the marked text back. A string comes back unless it is itself a marked text whose
bytes add up to nothing.

* `restore_marked`: bytes are recovered from their text.
* `Mistaken`: the strings that are taken for bytes.
* `roundTrips_iff`: which values come back.
-/

namespace OmniJsonDb

open Hex (Point)

variable {ν : Type}

/-! ## The check byte -/

def byteSum (bs : Bytes) : ℕ := (bs.map UInt8.toNat).sum

theorem foldl_byteSum (bs : Bytes) : ∀ x : ℕ, x < 256 →
    bs.foldl (fun x y => (x + y.toNat) &&& 0xff) x = (x + byteSum bs) % 256 := by
  induction bs with
  | nil =>
    intro x hx
    exact (Nat.mod_eq_of_lt hx).symm
  | cons b bs ih =>
    intro x _
    have hand : (x + b.toNat) &&& 0xff = (x + b.toNat) % 256 := Nat.and_two_pow_sub_one_eq_mod _ 8
    rw [List.foldl_cons, hand, ih _ (Nat.mod_lt _ (by decide)), byteSum, byteSum, List.map_cons, List.sum_cons,
      Nat.mod_add_mod, Nat.add_assoc]

theorem reduceSum_of_ne {bs : Bytes} (h : bs ≠ []) : reduceSum bs = .ok (byteSum bs % 256) := by
  cases bs with
  | nil => exact absurd rfl h
  | cons b bs =>
    rw [reduceSum, foldl_byteSum bs _ b.toNat_lt]
    rfl

theorem byteSum_append (bs cs : Bytes) : byteSum (bs ++ cs) = byteSum bs + byteSum cs := by
  simp [byteSum]

/-- The check byte of bytes that sum up to `n`. -/
def checkByte (n : ℕ) : UInt8 := ((256 - n % 256) &&& 0xff).toUInt8

theorem byteSum_check (bs : Bytes) : byteSum (bs ++ [checkByte (byteSum bs)]) % 256 = 0 := by
  have hand : (256 - byteSum bs % 256) &&& 0xff = (256 - byteSum bs % 256) % 256 :=
    Nat.and_two_pow_sub_one_eq_mod _ 8
  have hbyte : (checkByte (byteSum bs)).toNat = (256 - byteSum bs % 256) % 256 := by
    rw [checkByte, hand]
    exact UInt8.toNat_ofNat_of_lt (Nat.mod_lt _ (by decide))
  have hone : byteSum [checkByte (byteSum bs)] = (256 - byteSum bs % 256) % 256 := by
    rw [← hbyte]
    exact Nat.add_zero _
  rw [byteSum_append, hone]
  omega

theorem markBytes_of_ne {bs : Bytes} (h : bs ≠ []) :
    markBytes bs = .ok (marker ++ Hex.encode (bs ++ [checkByte (byteSum bs)])) := by
  unfold markBytes
  rw [reduceSum_of_ne h, Hex.encode_append, ← List.append_assoc]
  rfl

/-! ## What `loads` makes of a string -/

/-- A string that is taken for bytes: the marker, and digits whose bytes add up to nothing. -/
def Mistaken (s : List Point) : Prop := ∃ hex bs, s = marker ++ hex ∧ Hex.Text hex bs ∧ byteSum bs % 256 = 0

theorem take_marker {s : List Point} : s.take 4 = marker ↔ ∃ hex, s = marker ++ hex := by
  constructor
  · intro h
    exact ⟨s.drop 4, by rw [← h, List.take_append_drop]⟩
  · rintro ⟨hex, rfl⟩
    rfl

/-- **Bytes come back** from their text. -/
theorem restore_marked (bs : Bytes) :
    (restore (.str (marker ++ Hex.encode (bs ++ [checkByte (byteSum bs)]))) : Except Err (JsonArg ν)) =
      .ok (.bytes bs) := by
  have hdrop : (marker ++ Hex.encode (bs ++ [checkByte (byteSum bs)])).drop 4 =
      Hex.encode (bs ++ [checkByte (byteSum bs)]) := rfl
  rw [restore]
  rw [if_pos (take_marker.2 ⟨_, rfl⟩), hdrop, Hex.decode_encode]
  simp only
  rw [reduceSum_of_ne (by simp), byteSum_check]
  simp only
  rw [List.dropLast_concat]

/-- **Strings come back** unless they are mistaken for bytes. -/
theorem restore_str (s : List Point) : (restore (.str s) : Except Err (JsonArg ν)) = .ok (.str s) ↔ ¬ Mistaken s := by
  rw [restore]
  by_cases hm : s.take 4 = marker
  · obtain ⟨hex, rfl⟩ := take_marker.1 hm
    rw [if_pos hm, show (marker ++ hex).drop 4 = hex from rfl]
    cases hd : Hex.decode hex with
    | none =>
      refine iff_of_true rfl ?_
      rintro ⟨hex', bs, heq, htext, -⟩
      obtain rfl := List.append_cancel_left heq
      rw [Hex.decode_iff.2 htext] at hd
      cases hd
    | some bs =>
      have htext := Hex.decode_iff.1 hd
      have hmis : Mistaken (marker ++ hex) ↔ byteSum bs % 256 = 0 := by
        constructor
        · rintro ⟨hex', bs', heq, htext', hsum⟩
          obtain rfl := List.append_cancel_left heq
          have := Hex.decode_iff.2 htext'
          rw [hd] at this
          obtain rfl := Option.some.inj this
          exact hsum
        · exact fun hsum => ⟨hex, bs, rfl, htext, hsum⟩
      rw [hmis]
      by_cases hne : bs = []
      · subst hne
        exact iff_of_false (by simp [reduceSum]) (by simp [byteSum])
      · simp only [reduceSum_of_ne hne]
        by_cases hsum : byteSum bs % 256 = 0
        · rw [hsum]
          exact iff_of_false (by simp) (by simp)
        · refine iff_of_true ?_ hsum
          split
          · rename_i heq
            cases heq
          · rename_i heq
            exact absurd (Except.ok.inj heq) hsum
          · rfl
  · rw [if_neg hm]
    refine iff_of_true rfl ?_
    rintro ⟨hex, -, heq, -⟩
    exact hm (take_marker.2 ⟨hex, heq⟩)

/-- A string comes back as a string or as bytes, never as anything else. -/
theorem restore_str_cases {s : List Point} {v : JsonArg ν} (h : restore (.str s) = .ok v) :
    (∃ t, v = .str t) ∨ ∃ bs, v = .bytes bs := by
  rw [restore] at h
  split at h
  · split at h
    · exact .inl ⟨_, (Except.ok.inj h).symm⟩
    · split at h
      · cases h
      · exact .inr ⟨_, (Except.ok.inj h).symm⟩
      · exact .inl ⟨_, (Except.ok.inj h).symm⟩
  · exact .inl ⟨_, (Except.ok.inj h).symm⟩

/-! ## Values of JSON -/

namespace JsonArg

mutual

/-- Nothing in it but what JSON has itself. -/
def plain : JsonArg ν → Bool
  | null | bool _ | num _ | str _ => true
  | list xs => plainAll xs
  | dict kvs => plainItems kvs
  | bytes _ | bytearray _ | tuple _ | set _ | frozenset _ | obj _ => false

def plainAll : List (JsonArg ν) → Bool
  | [] => true
  | x :: xs => plain x && plainAll xs

def plainItems : List (List Point × JsonArg ν) → Bool
  | [] => true
  | (_, x) :: kvs => plain x && plainItems kvs

end

mutual

theorem plain_ofJson : ∀ j : Json ν, plain (ofJson j) = true
  | .null | .bool _ | .num _ | .str _ => rfl
  | .arr xs => plainAll_ofJson xs
  | .obj kvs => plainItems_ofJson kvs

theorem plainAll_ofJson : ∀ js : List (Json ν), plainAll (ofJsonAll js) = true
  | [] => rfl
  | j :: js => Bool.and_eq_true_iff.2 ⟨plain_ofJson j, plainAll_ofJson js⟩

theorem plainItems_ofJson : ∀ kvs : List (List Point × Json ν), plainItems (ofJsonItems kvs) = true
  | [] => rfl
  | (_, j) :: kvs => Bool.and_eq_true_iff.2 ⟨plain_ofJson j, plainItems_ofJson kvs⟩

end

/-! ### Bytes inside a value -/

mutual

/-- Made of strings, numbers, lists, dictionaries and bytes that are not empty. -/
def writable : JsonArg ν → Bool
  | null | bool _ | num _ | str _ => true
  | bytes b => !b.isEmpty
  | list xs => writableAll xs
  | dict kvs => writableItems kvs
  | bytearray _ | tuple _ | set _ | frozenset _ | obj _ => false

def writableAll : List (JsonArg ν) → Bool
  | [] => true
  | x :: xs => writable x && writableAll xs

def writableItems : List (List Point × JsonArg ν) → Bool
  | [] => true
  | (_, x) :: kvs => writable x && writableItems kvs

end

mutual

/-- The value with every bytes in it as its marked text. -/
def weak : JsonArg ν → JsonArg ν
  | bytes b => str (marker ++ Hex.encode (b ++ [checkByte (byteSum b)]))
  | list xs => list (weakAll xs)
  | dict kvs => dict (weakItems kvs)
  | v => v

def weakAll : List (JsonArg ν) → List (JsonArg ν)
  | [] => []
  | x :: xs => weak x :: weakAll xs

def weakItems : List (List Point × JsonArg ν) → List (List Point × JsonArg ν)
  | [] => []
  | (k, x) :: kvs => (k, weak x) :: weakItems kvs

end

mutual

/-- What is written for a value reads as the value with its bytes as text. -/
theorem lower_weak : ∀ v : JsonArg ν, writable v = true → ∃ j, lower v = .ok j ∧ ofJson j = weak v
  | null, _ => ⟨.null, rfl, rfl⟩
  | bool b, _ => ⟨.bool b, rfl, rfl⟩
  | num n, _ => ⟨.num n, rfl, rfl⟩
  | str s, _ => ⟨.str s, rfl, rfl⟩
  | bytes b, h => by
    have hne : b ≠ [] := by
      rintro rfl
      cases h
    exact ⟨_, by rw [lower, markBytes_of_ne hne]; rfl, rfl⟩
  | list xs, h => by
    obtain ⟨js, hjs, hof⟩ := lowerAll_weak xs h
    exact ⟨.arr js, by rw [lower, hjs]; rfl, by rw [ofJson, hof]; rfl⟩
  | dict kvs, h => by
    obtain ⟨js, hjs, hof⟩ := lowerItems_weak kvs h
    exact ⟨.obj js, by rw [lower, hjs]; rfl, by rw [ofJson, hof]; rfl⟩

theorem lowerAll_weak : ∀ xs : List (JsonArg ν), writableAll xs = true →
    ∃ js, lowerAll xs = .ok js ∧ ofJsonAll js = weakAll xs
  | [], _ => ⟨[], rfl, rfl⟩
  | x :: xs, h => by
    obtain ⟨hx, hxs⟩ := Bool.and_eq_true_iff.1 h
    obtain ⟨j, hj, hof⟩ := lower_weak x hx
    obtain ⟨js, hjs, hofs⟩ := lowerAll_weak xs hxs
    exact ⟨j :: js, by rw [lowerAll, hj, hjs]; rfl, by rw [ofJsonAll, hof, hofs]; rfl⟩

theorem lowerItems_weak : ∀ kvs : List (List Point × JsonArg ν), writableItems kvs = true →
    ∃ js, lowerItems kvs = .ok js ∧ ofJsonItems js = weakItems kvs
  | [], _ => ⟨[], rfl, rfl⟩
  | (k, x) :: kvs, h => by
    obtain ⟨hx, hxs⟩ := Bool.and_eq_true_iff.1 h
    obtain ⟨j, hj, hof⟩ := lower_weak x hx
    obtain ⟨js, hjs, hofs⟩ := lowerItems_weak kvs hxs
    exact ⟨(k, j) :: js, by rw [lowerItems, hj, hjs]; rfl, by rw [ofJsonItems, hof, hofs]; rfl⟩

end

mutual

/-- A value of JSON's own has no bytes in it. -/
theorem weak_of_plain : ∀ v : JsonArg ν, plain v = true → writable v = true ∧ weak v = v
  | null, _ | bool _, _ | num _, _ | str _, _ => ⟨rfl, rfl⟩
  | list xs, h => by
    obtain ⟨hw, hv⟩ := weakAll_of_plain xs h
    exact ⟨hw, by rw [weak, hv]⟩
  | dict kvs, h => by
    obtain ⟨hw, hv⟩ := weakItems_of_plain kvs h
    exact ⟨hw, by rw [weak, hv]⟩

theorem weakAll_of_plain : ∀ xs : List (JsonArg ν), plainAll xs = true → writableAll xs = true ∧ weakAll xs = xs
  | [], _ => ⟨rfl, rfl⟩
  | x :: xs, h => by
    obtain ⟨hx, hxs⟩ := Bool.and_eq_true_iff.1 h
    obtain ⟨hw, hv⟩ := weak_of_plain x hx
    obtain ⟨hws, hvs⟩ := weakAll_of_plain xs hxs
    exact ⟨Bool.and_eq_true_iff.2 ⟨hw, hws⟩, by rw [weakAll, hv, hvs]⟩

theorem weakItems_of_plain : ∀ kvs : List (List Point × JsonArg ν), plainItems kvs = true →
    writableItems kvs = true ∧ weakItems kvs = kvs
  | [], _ => ⟨rfl, rfl⟩
  | (k, x) :: kvs, h => by
    obtain ⟨hx, hxs⟩ := Bool.and_eq_true_iff.1 h
    obtain ⟨hw, hv⟩ := weak_of_plain x hx
    obtain ⟨hws, hvs⟩ := weakItems_of_plain kvs hxs
    exact ⟨Bool.and_eq_true_iff.2 ⟨hw, hws⟩, by rw [weakItems, hv, hvs]⟩

end

/-- Such a value is written as the JSON value that stands for it. -/
theorem lower_of_plain (v : JsonArg ν) (h : plain v = true) : ∃ j, lower v = .ok j ∧ ofJson j = v := by
  obtain ⟨hw, hv⟩ := weak_of_plain v h
  obtain ⟨j, hj, hof⟩ := lower_weak v hw
  exact ⟨j, hj, hof.trans hv⟩

end JsonArg

/-! ## Round trip -/

namespace JsonVal

variable (lib : JsonLib ν)

/-- `dumps` succeeds, and `loads` gives the value back, with the same types. -/
def RoundTrips (v : JsonArg ν) : Prop := ∃ b, dumps lib v = .ok b ∧ loads lib b = .ok v

/-- A string that is not mistaken for bytes, bytes that there are any of, or a value of JSON's. -/
def Kept : JsonArg ν → Prop
  | .str s => ¬ Mistaken s
  | .bytes b => b ≠ []
  | v => v.plain = true

variable {lib}

/-- What is read of a value is what `loads` makes of the JSON value written for it. -/
theorem loads_dumps_iff {v w : JsonArg ν} (h : ∀ j, v.lower = .ok j → lib.Carries j) :
    (∃ b, dumps lib v = .ok b ∧ loads lib b = .ok w) ↔ ∃ j, v.lower = .ok j ∧ restore j = .ok w := by
  constructor
  · rintro ⟨b, hb, hl⟩
    unfold dumps at hb
    cases hj : v.lower with
    | error e => rw [hj] at hb; cases hb
    | ok j =>
      obtain ⟨b', hd, hr⟩ := h j hj
      rw [hj] at hb
      simp only [hd] at hb
      obtain rfl := Except.ok.inj hb
      unfold loads at hl
      rw [hr] at hl
      exact ⟨j, rfl, hl⟩
  · rintro ⟨j, hj, hr⟩
    obtain ⟨b, hd, hl⟩ := h j hj
    refine ⟨b, ?_, ?_⟩
    · unfold dumps
      rw [hj]
      simp only [hd]
    · unfold loads
      rw [hl]
      exact hr

/-- **A value that is neither a string nor bytes** comes back when it is JSON's own. -/
theorem restore_plain {v : JsonArg ν} (hs : ∀ s, v ≠ .str s) (hb : ∀ bs, v ≠ .bytes bs) :
    (∃ j, v.lower = .ok j ∧ restore j = .ok v) ↔ v.plain = true := by
  constructor
  · rintro ⟨j, -, hr⟩
    have hof : ∀ j : Json ν, (.ok (JsonArg.ofJson j) : Except Err (JsonArg ν)) = .ok v → v.plain = true := by
      intro j h
      rw [← Except.ok.inj h]
      exact JsonArg.plain_ofJson j
    cases j with
    | str s =>
      rcases restore_str_cases hr with ⟨t, ht⟩ | ⟨bs, hbs⟩
      · exact absurd ht (hs t)
      · exact absurd hbs (hb bs)
    | null => exact hof .null hr
    | bool b => exact hof (.bool b) hr
    | num n => exact hof (.num n) hr
    | arr xs => exact hof (.arr xs) hr
    | obj kvs => exact hof (.obj kvs) hr
  · intro hp
    obtain ⟨j, hj, hof⟩ := JsonArg.lower_of_plain v hp
    refine ⟨j, hj, ?_⟩
    cases j with
    | str s => exact absurd hof.symm (hs s)
    | null | bool _ | num _ | arr _ | obj _ => exact congrArg Except.ok hof

/-- **Which values come back.** Over a library that carries the JSON value written. -/
theorem roundTrips_iff (v : JsonArg ν) (h : ∀ j, v.lower = .ok j → lib.Carries j) : RoundTrips lib v ↔ Kept v := by
  rw [RoundTrips, loads_dumps_iff h]
  cases v with
  | str s =>
    constructor
    · rintro ⟨j, hj, hr⟩
      obtain rfl := Except.ok.inj hj
      exact (restore_str s).1 hr
    · exact fun hk => ⟨.str s, rfl, (restore_str s).2 hk⟩
  | bytes b =>
    constructor
    · rintro ⟨j, hj, -⟩ rfl
      cases hj
    · intro hk
      refine ⟨_, ?_, restore_marked b⟩
      rw [JsonArg.lower, markBytes_of_ne hk]
      rfl
  | null | bool _ | num _ | bytearray _ | list _ | tuple _ | set _ | frozenset _ | dict _ | obj _ =>
    exact restore_plain (fun _ hc => by cases hc) (fun _ hc => by cases hc)

/-- What comes back of a value: bytes are recovered only on their own. -/
def read : JsonArg ν → JsonArg ν
  | .bytes b => .bytes b
  | v => v.weak

/-- **What comes back.** Strings that are not mistaken, bytes that there are any of, and what is made
of such in lists and dictionaries, where bytes become their marked text. -/
theorem dumps_loads (v : JsonArg ν) (hw : v.writable = true) (hm : ∀ s, v = .str s → ¬ Mistaken s)
    (h : ∀ j, v.lower = .ok j → lib.Carries j) : ∃ b, dumps lib v = .ok b ∧ loads lib b = .ok (read v) := by
  rw [loads_dumps_iff h]
  obtain ⟨j, hj, hof⟩ := JsonArg.lower_weak v hw
  cases v with
  | str s =>
    obtain rfl := Except.ok.inj hj
    exact ⟨_, rfl, (restore_str s).2 (hm s rfl)⟩
  | bytes b =>
    refine ⟨_, ?_, restore_marked b⟩
    rw [JsonArg.lower, markBytes_of_ne (by rintro rfl; cases hw)]
    rfl
  | null | bool _ | num _ | list _ | dict _ =>
    refine ⟨j, hj, ?_⟩
    cases j with
    | str s => cases hof
    | null | bool _ | num _ | arr _ | obj _ => exact congrArg Except.ok hof
  | bytearray _ | tuple _ | set _ | frozenset _ | obj _ => cases hw

/-! ## JSON text of strings -/

/-- `\u00XX` for a control character, else the character itself. -/
def escape (c : Point) : Bytes :=
  if c.val < 32 then [92, 117, 48, 48] ++ (Hex.encode [c.val.toUInt8]).map fun d => d.val.toUInt8 else [c.val.toUInt8]

def unescape : Bytes → Except Err (List Point)
  | [34] => .ok []
  | 92 :: 117 :: 48 :: 48 :: x :: y :: rest =>
    match Hex.digit? (Fin.ofNat _ x.toNat), Hex.digit? (Fin.ofNat _ y.toNat) with
    | some m, some n => (unescape rest).map (Fin.ofNat _ (16 * m + n) :: ·)
    | _, _ => .error .value
  | b :: rest => (unescape rest).map (Fin.ofNat _ b.toNat :: ·)
  | [] => .error .value

/-- JSON of strings without quotes, backslashes and anything beyond ASCII, and of lists of one such
string. -/
def asciiJson : JsonLib ℤ where
  dumps
    | .str s => .ok ([34] ++ s.flatMap escape ++ [34])
    | .arr [.str s] => .ok ([91, 34] ++ s.flatMap escape ++ [34, 93])
    | _ => .error .type
  loads
    | 34 :: rest => (unescape rest).map .str
    | 91 :: 34 :: rest => (unescape rest.dropLast).map fun s => .arr [.str s]
    | _ => .error .value

/-- A list of one bytes is written as a list of one string. -/
theorem carries_list (j : Json ℤ) (hj : (JsonArg.list [.bytes [1]] : JsonArg ℤ).lower = .ok j) :
    asciiJson.Carries j := by
  have hlow : (JsonArg.list [.bytes [1]] : JsonArg ℤ).lower = .ok (.arr [.str (marker ++ Hex.encode [1, 255])]) := rfl
  obtain rfl := Except.ok.inj (hlow.symm.trans hj)
  exact ⟨_, rfl, rfl⟩

theorem dumps_loads_list : ∃ b, dumps asciiJson (.list [.bytes [1]]) = .ok b ∧
    loads asciiJson b = .ok (.list [.str (marker ++ Hex.encode [1, 255])]) :=
  dumps_loads (.list [.bytes [1]]) rfl (fun s hs => by cases hs) carries_list

/-- **Three values that do not come back**: bytes in a list, no bytes at all, and a string that
looks like bytes. -/
theorem roundTrips_fails : ¬ RoundTrips asciiJson (.list [.bytes [1]]) ∧ ¬ RoundTrips asciiJson (.bytes []) ∧
    ¬ RoundTrips asciiJson (.str (marker ++ Hex.encode [0])) := by
  refine ⟨?_, ?_, ?_⟩
  · rw [roundTrips_iff _ carries_list]
    exact Bool.false_ne_true
  · rintro ⟨b, hb, -⟩
    cases hb
  · rintro ⟨b, hb, hl⟩
    obtain rfl := Except.ok.inj hb
    have hback : loads asciiJson ([34] ++ (marker ++ Hex.encode [0]).flatMap escape ++ [34]) = .ok (.bytes []) := rfl
    cases hback.symm.trans hl

end JsonVal

end OmniJsonDb
