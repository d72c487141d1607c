import Mathlib.Tactic.Common

/-!
# Hexadecimal text

Bytes as pairs of hexadecimal digits. Written in lower case; read in either case, with white
space between the pairs.

* `Hex.decode_iff`: the reader accepts exactly the texts of the grammar.
* `Hex.decode_encode`: what was written is read back.
-/

namespace OmniJsonDb.Hex

/-- A code point. -/
abbrev Point := Fin 0x110000

instance instNeZeroPoints : @NeZero ℕ Zero.ofOfNat0 0x110000 := ⟨by decide⟩

/-- The digit of a number below 16. -/
def digit (n : ℕ) : Point := if n < 10 then Fin.ofNat _ (48 + n) else Fin.ofNat _ (87 + n)

/-- The number of a digit. -/
def digit? (c : Point) : Option ℕ :=
  if 48 ≤ c.val ∧ c.val ≤ 57 then some (c.val - 48)
  else if 97 ≤ c.val ∧ c.val ≤ 102 then some (c.val - 87)
  else if 65 ≤ c.val ∧ c.val ≤ 70 then some (c.val - 55)
  else none

/-- ASCII white space. -/
def isSpace (c : Point) : Bool := (9 ≤ c.val && c.val ≤ 13) || c.val = 32

/-- `bytes.hex`. -/
def encode (bs : List UInt8) : List Point := bs.flatMap fun b => [digit (b.toNat / 16), digit (b.toNat % 16)]

/-- `bytes.fromhex`. -/
def decode : List Point → Option (List UInt8)
  | [] => some []
  | c :: rest =>
    if isSpace c then decode rest
    else
      match rest with
      | [] => none
      | d :: rest' =>
        match digit? c, digit? d with
        | some x, some y => (decode rest').map ((16 * x + y).toUInt8 :: ·)
        | _, _ => none

/-- White space and pairs of digits. -/
inductive Text : List Point → List UInt8 → Prop
  | nil : Text [] []
  | space {c s bs} : isSpace c = true → Text s bs → Text (c :: s) bs
  | pair {c d x y s bs} : digit? c = some x → digit? d = some y → Text s bs →
      Text (c :: d :: s) ((16 * x + y).toUInt8 :: bs)

theorem digit?_of_space {c : Point} (h : isSpace c = true) : digit? c = none := by
  unfold isSpace at h
  rw [Bool.or_eq_true, Bool.and_eq_true, decide_eq_true_iff, decide_eq_true_iff, decide_eq_true_iff] at h
  unfold digit?
  rw [if_neg (by omega), if_neg (by omega), if_neg (by omega)]

theorem digit?_digit {n : ℕ} (h : n < 16) : digit? (digit n) = some n := by
  revert n
  decide

/-- **The grammar.** -/
theorem decode_iff {s : List Point} {bs : List UInt8} : decode s = some bs ↔ Text s bs := by
  constructor
  · intro h
    induction s using decode.induct generalizing bs with
    | case1 =>
      rw [decode] at h
      obtain rfl := Option.some.inj h
      exact .nil
    | case2 c rest hc ih =>
      unfold decode at h
      rw [if_pos hc] at h
      exact .space hc (ih h)
    | case3 c hc =>
      rw [decode, if_neg hc] at h
      cases h
    | case4 c hc d rest x y hy hx ih =>
      rw [decode, if_neg hc] at h
      simp only [hx, hy] at h
      obtain ⟨bs', hbs, rfl⟩ := Option.map_eq_some_iff.1 h
      exact .pair hx hy (ih hbs)
    | case5 c hc d rest hno =>
      rw [decode, if_neg hc] at h
      simp only at h
      cases h
  · intro h
    induction h with
    | nil => rfl
    | space hc _ ih =>
      unfold decode
      rw [if_pos hc, ih]
    | pair hx hy _ ih =>
      rw [decode, if_neg]
      · simp only [hx, hy, ih]
        rfl
      · intro hc
        rw [digit?_of_space hc] at hx
        cases hx

theorem text_encode (bs : List UInt8) : Text (encode bs) bs := by
  induction bs with
  | nil => exact .nil
  | cons b bs ih =>
    have hlt := b.toNat_lt
    have hbyte : (16 * (b.toNat / 16) + b.toNat % 16).toUInt8 = b := by
      rw [Nat.div_add_mod]
      exact UInt8.ofNat_toNat
    have hpair := Text.pair (digit?_digit (n := b.toNat / 16) (by omega))
      (digit?_digit (n := b.toNat % 16) (by omega)) ih
    rw [hbyte] at hpair
    exact hpair

/-- **Round trip.** -/
theorem decode_encode (bs : List UInt8) : decode (encode bs) = some bs := decode_iff.2 (text_encode bs)

theorem encode_append (bs cs : List UInt8) : encode (bs ++ cs) = encode bs ++ encode cs := List.flatMap_append

end OmniJsonDb.Hex
