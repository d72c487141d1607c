import Mathlib.Data.Nat.Bitwise
import Mathlib.Tactic.Common

/-!
# Record flags

The `JKeyFlag` bits of a KEY row, the masks the writers apply to them, and the
`chmod`-style strings callers pass.

* `testBit_clear`: `a & ~m`, bit by bit.
* `popTransientFlags`, `convToKeyFlags`: the two passes over a caller's `key_flags`.
* `popTransientFlags_rest`: what the first pass leaves has no bit for this call alone.
-/

namespace OmniJsonDb

/-- A record key, or any other text: its characters. -/
abbrev Key := List Char

instance instLawfulBEqKey : LawfulBEq Key := List.instLawfulBEq

/-! ## Bits -/

def READ_ONLY : ℕ := 0x01
def APPEND_ONLY : ℕ := 0x02
def GROUP : ℕ := 0x04
def LINK : ℕ := 0x08
def HIDDEN : ℕ := 0x10
def NO_CACHE : ℕ := 0x20
def NO_REVERT : ℕ := 0x40
def EXPIRE : ℕ := 0x80
def NO_DELETE : ℕ := 0x100
def USER0 : ℕ := 0x1000
def USER1 : ℕ := 0x2000
def USER2 : ℕ := 0x4000
def USER3 : ℕ := 0x8000
def UNLOCK : ℕ := 0x10000
def NO_FOLLOW : ℕ := 0x20000
def EXCL : ℕ := 0x40000
def NO_ATIME : ℕ := 0x80000
def MUST_EXIST : ℕ := 0x100000

/-- `a & ~m`. -/
def clear (a m : ℕ) : ℕ := a ^^^ (a &&& m)

/-- Some bit of `m` is set in `a`: the truth of Python's `a & m`. -/
def has (a m : ℕ) : Bool := a &&& m != 0

def KEY_FLAG_MASK : ℕ := 0xFFFF
def TRANSIENT_FLAG_MASK : ℕ := UNLOCK ||| NO_FOLLOW ||| EXCL ||| NO_ATIME ||| MUST_EXIST
def WRITE_LOCK_MASK : ℕ := READ_ONLY ||| APPEND_ONLY
def DELETE_LOCK_MASK : ℕ := WRITE_LOCK_MASK ||| NO_DELETE
def DERIVED_FLAG_MASK : ℕ := GROUP ||| LINK ||| EXPIRE
def REDERIVED_FLAG_MASK : ℕ := GROUP ||| EXPIRE
def PAYLOAD_FLAG_MASK : ℕ := clear DERIVED_FLAG_MASK REDERIVED_FLAG_MASK
def WRITABLE_FLAG_MASK : ℕ := clear KEY_FLAG_MASK DERIVED_FLAG_MASK
def USER_FLAG_MASK : ℕ := clear KEY_FLAG_MASK GROUP

theorem testBit_clear (a m i : ℕ) : (clear a m).testBit i = (a.testBit i && !m.testBit i) := by
  unfold clear
  rw [Nat.testBit_xor, Nat.testBit_and]
  cases a.testBit i <;> cases m.testBit i <;> rfl

/-! ## Flag arguments -/

def KEY_FLAG_BY_LETTER : List (Char × ℕ) :=
  [('r', READ_ONLY), ('g', GROUP), ('a', APPEND_ONLY), ('c', NO_CACHE), ('v', NO_REVERT),
   ('l', LINK), ('h', HIDDEN), ('e', EXPIRE), ('p', NO_DELETE), ('0', USER0), ('1', USER1),
   ('2', USER2), ('3', USER3), ('u', UNLOCK), ('n', NO_FOLLOW), ('w', EXCL), ('y', NO_ATIME),
   ('m', MUST_EXIST)]

def flagOfLetter (c : Char) : Option ℕ := KEY_FLAG_BY_LETTER.lookup c

/-- A token of a flag string: an optional sign and a letter or digit. -/
structure FlagTok where
  sign : Option Char
  letter : Char
  deriving DecidableEq, Repr

def FlagTok.text (t : FlagTok) : List Char := t.sign.toList ++ [t.letter]

/-- The characters `[a-z0-9]`. -/
def isFlagChar (c : Char) : Bool := ('a' ≤ c && c ≤ 'z') || ('0' ≤ c && c ≤ '9')

/-- `re_findall('[+\\-]?[a-z0-9]', s)`, left to right; `sign` is a sign just read. -/
def flagToks (sign : Option Char) : List Char → List FlagTok
  | [] => []
  | c :: cs =>
    if isFlagChar c then ⟨sign, c⟩ :: flagToks none cs
    else flagToks (if c = '+' ∨ c = '-' then some c else none) cs

/-- A caller's `key_flags`: nothing, a letter string, or a number. -/
inductive FlagArg where
  | none
  | str (s : List Char)
  | int (n : ℕ)
  deriving DecidableEq, Repr

/-- The masks a flag string sets and clears. -/
def convToKeyFlags (s : List Char) : ℕ × ℕ :=
  (flagToks .none (s.map Char.toLower)).foldl (fun (setMask, clrMask) t =>
    match flagOfLetter t.letter with
    | some v => if t.sign = some '-' then (setMask, clrMask ||| v) else (setMask ||| v, clrMask)
    | .none => (setMask, clrMask)) (0, 0)

/-- Split the call-scoped bits off a caller's `key_flags`. -/
def popTransientFlags : FlagArg → ℕ × FlagArg
  | .none => (0, .none)
  | .str s =>
    let (bits, rest) := (flagToks .none (s.map Char.toLower)).foldl
      (fun ((bits, rest) : ℕ × List Char) t =>
        match flagOfLetter t.letter with
        | some v =>
          if has v TRANSIENT_FLAG_MASK then
            (if t.sign = some '-' then bits else bits ||| v, rest)
          else (bits, rest ++ t.text)
        | .none => (bits, rest)) (0, [])
    (bits, if rest = [] then .none else .str rest)
  | .int n =>
    let bits := n &&& TRANSIENT_FLAG_MASK
    let rest := clear n TRANSIENT_FLAG_MASK
    (bits, if bits ≠ 0 ∧ rest = 0 then .none else .int rest)

/-- A flag argument applied to the flags `old` a row has. -/
def FlagArg.apply (arg : FlagArg) (old : ℕ) : ℕ :=
  match arg with
  | .str s => let (setMask, clrMask) := convToKeyFlags s; clear (old ||| setMask) clrMask
  | .int n => n
  | .none => old

/-- Bits that decide what `JFlag` lets a call do. -/
def REVERT : ℕ := 1
def SPLIT : ℕ := 2

/-! ## Single bits -/

theorem has_eq_testBit {a i : ℕ} : has a (2 ^ i) = a.testBit i := by
  unfold has
  rw [Nat.and_two_pow]
  cases a.testBit i <;> simp

/-! ## Call-scoped bits -/

/-- A token is kept for the row: its letter names a flag, and not one for this call alone. -/
def FlagTok.lasts (t : FlagTok) : Bool :=
  match flagOfLetter t.letter with
  | some v => !has v TRANSIENT_FLAG_MASK
  | none => false

/-- A token as the parser reads it. -/
def FlagTok.Plain (t : FlagTok) : Prop :=
  isFlagChar t.letter = true ∧ (t.sign = none ∨ t.sign = some '+' ∨ t.sign = some '-')

theorem flagToks_plain {sign : Option Char} (hs : sign = none ∨ sign = some '+' ∨ sign = some '-') (s : List Char) :
    ∀ t ∈ flagToks sign s, t.Plain := by
  induction s generalizing sign with
  | nil => intro t ht; cases ht
  | cons c cs ih =>
    unfold flagToks
    split
    · rename_i hc
      intro t ht
      rcases List.mem_cons.1 ht with rfl | ht
      · exact ⟨hc, hs⟩
      · exact ih (.inl rfl) t ht
    · refine ih ?_
      split
      · rename_i hc
        rcases hc with rfl | rfl
        · exact .inr (.inl rfl)
        · exact .inr (.inr rfl)
      · exact .inl rfl

/-- Tokens that are written out are read again. -/
theorem flagToks_text {ts : List FlagTok} (h : ∀ t ∈ ts, t.Plain) :
    flagToks none (ts.flatMap FlagTok.text) = ts := by
  induction ts with
  | nil => rfl
  | cons t ts ih =>
    obtain ⟨sign, c⟩ := t
    have ih := ih fun t ht => h t (List.mem_cons_of_mem _ ht)
    obtain ⟨hc, hs⟩ := h _ (List.mem_cons_self ..)
    have hc : isFlagChar c = true := hc
    rw [List.flatMap_cons]
    -- a sign is no flag character, and is taken up with the letter behind it
    have hplus : isFlagChar '+' = false ∧ isFlagChar '-' = false := by decide
    rcases hs with hs | hs | hs
    all_goals
      obtain rfl : sign = _ := hs
      simp [FlagTok.text, flagToks, hc, hplus, ih]

theorem toLower_flagChar {c : Char} (h : isFlagChar c = true) : c.toLower = c := by
  unfold isFlagChar at h
  unfold Char.toLower
  rw [dif_neg]
  simp only [Bool.or_eq_true, Bool.and_eq_true, decide_eq_true_eq, Char.le_def, UInt32.le_iff_toNat_le] at h
  rintro ⟨h₁, h₂⟩
  simp only [UInt32.le_iff_toNat_le, ge_iff_le] at h₁ h₂
  have ha : 'a'.val.toNat = 97 ∧ 'A'.val.toNat = 65 ∧ 'Z'.val.toNat = 90 ∧ '9'.val.toNat = 57 := by decide
  omega

theorem toLower_text {ts : List FlagTok} (h : ∀ t ∈ ts, t.Plain) :
    (ts.flatMap FlagTok.text).map Char.toLower = ts.flatMap FlagTok.text := by
  refine (List.map_congr_left fun c hc => ?_).trans (List.map_id _)
  obtain ⟨t, ht, hc⟩ := List.mem_flatMap.1 hc
  obtain ⟨hl, hs⟩ := h t ht
  unfold FlagTok.text at hc
  rcases List.mem_append.1 hc with hc | hc
  · rcases hs with hs | hs | hs <;> rw [hs] at hc
    · cases hc
    · obtain rfl := List.mem_singleton.1 hc
      rfl
    · obtain rfl := List.mem_singleton.1 hc
      rfl
  · obtain rfl := List.mem_singleton.1 hc
    exact toLower_flagChar hl

/-- One step of the pass that takes the call-scoped bits out. -/
def popStep (acc : ℕ × List Char) (t : FlagTok) : ℕ × List Char :=
  match flagOfLetter t.letter with
  | some v =>
    if has v TRANSIENT_FLAG_MASK then
      (if t.sign = some '-' then acc.1 else acc.1 ||| v, acc.2)
    else (acc.1, acc.2 ++ t.text)
  | none => acc

/-- What the pass leaves, and that it finds no bit in what is kept. -/
theorem popStep_foldl (ts : List FlagTok) (acc : ℕ × List Char) :
    (ts.foldl popStep acc).2 = acc.2 ++ (ts.filter FlagTok.lasts).flatMap FlagTok.text ∧
      ((∀ t ∈ ts, t.lasts = true) → (ts.foldl popStep acc).1 = acc.1) := by
  induction ts generalizing acc with
  | nil => exact ⟨by simp, fun _ => rfl⟩
  | cons t ts ih =>
    obtain ⟨h₂, h₁⟩ := ih (popStep acc t)
    have hstep : (popStep acc t).2 = acc.2 ++ (if t.lasts then t.text else []) ∧
        (t.lasts = true → (popStep acc t).1 = acc.1) := by
      unfold popStep FlagTok.lasts
      cases flagOfLetter t.letter with
      | none => simp
      | some v => cases hv : has v TRANSIENT_FLAG_MASK <;> simp [hv]
    rw [List.foldl_cons, h₂, hstep.1]
    constructor
    · cases ht : t.lasts <;> simp [ht]
    · intro hall
      rw [h₁ fun t ht => hall t (List.mem_cons_of_mem _ ht)]
      exact hstep.2 (hall t (List.mem_cons_self ..))

/-- **Once the call-scoped bits are out**, there are none. -/
theorem popTransientFlags_rest (arg : FlagArg) : (popTransientFlags (popTransientFlags arg).2).1 = 0 := by
  have hstr : ∀ s, popTransientFlags (.str s) =
      (((flagToks none (s.map Char.toLower)).foldl popStep (0, [])).1,
        if ((flagToks none (s.map Char.toLower)).foldl popStep (0, [])).2 = [] then FlagArg.none
        else .str ((flagToks none (s.map Char.toLower)).foldl popStep (0, [])).2) := fun _ => rfl
  cases arg with
  | none => rfl
  | int n =>
    have hrest : (popTransientFlags (.int n)).2 = .none ∨
        (popTransientFlags (.int n)).2 = .int (clear n TRANSIENT_FLAG_MASK) := by
      unfold popTransientFlags
      simp only
      split
      · exact .inl rfl
      · exact .inr rfl
    rcases hrest with hrest | hrest <;> rw [hrest]
    · rfl
    · change clear n TRANSIENT_FLAG_MASK &&& TRANSIENT_FLAG_MASK = 0
      refine Nat.eq_of_testBit_eq fun i => ?_
      rw [Nat.testBit_and, testBit_clear, Nat.zero_testBit]
      cases TRANSIENT_FLAG_MASK.testBit i <;> simp
  | str s =>
    obtain ⟨ts, hts⟩ : ∃ ts, ts = flagToks none (s.map Char.toLower) := ⟨_, rfl⟩
    have hplain : ∀ t ∈ ts.filter FlagTok.lasts, t.Plain := by
      intro t ht
      rw [hts] at ht
      exact flagToks_plain (.inl rfl) _ t (List.mem_filter.1 ht).1
    have hrest := (popStep_foldl ts (0, [])).1
    rw [List.nil_append] at hrest
    rw [hstr s, ← hts, hrest]
    dsimp only
    split
    · rfl
    · rw [hstr, toLower_text hplain, flagToks_text hplain]
      exact (popStep_foldl _ _).2 fun t ht => (List.mem_filter.1 ht).2

example : popTransientFlags (.str "+u+r".toList) = (UNLOCK, .str "+r".toList) := by decide

end OmniJsonDb
