import Mathlib
import OmniJsonDb.Proof.KeyFlags

/-!
# What a flag string means

A flag string passes two tokenisers: `pop_transient_flags` writes the tokens it keeps into a new
string, and `conv_to_key_flags` reads that one. What comes out is told by places of the string alone:
a letter counts as cleared when the character right in front of it is a `-`, and as set otherwise.
Outside ASCII `str.lower` makes `k` and `i` of two signs; neither names a flag, so the ASCII
`Char.toLower` reads every string alike.

* `NamesBit`: a place of the string that names a bit.
* `mem_flagToks`: the tokens are the places.
* `flagString_spec`: the bits that the two passes turn on, set, clear and leave.
-/

namespace OmniJsonDb

/-- Somewhere in `s` stands a letter of the flag with bit `i`, right behind a `-` or not. -/
def NamesBit (s : List Char) (i : ℕ) (minus : Prop) : Prop :=
  ∃ pre c post v, s = pre ++ c :: post ∧ flagOfLetter c.toLower = some v ∧ v.testBit i = true ∧
    (pre.getLast? = some '-' ↔ minus)

/-! ## The letters -/

/-- Every flag is one bit, and its letter can stand in a token. -/
theorem letter_mem : ∀ e ∈ KEY_FLAG_BY_LETTER, isFlagChar e.1 = true ∧ ∃ k < 21, e.2 = 2 ^ k := by decide

theorem flagOfLetter_eq_some {c : Char} {v : ℕ} (h : flagOfLetter c = some v) :
    isFlagChar c = true ∧ ∃ k, v = 2 ^ k := by
  have hmem : ∀ l : List (Char × ℕ), l.lookup c = some v → (c, v) ∈ l := by
    intro l hl
    induction l with
    | nil => simp at hl
    | cons e l ih =>
      obtain ⟨d, u⟩ := e
      rw [List.lookup_cons] at hl
      by_cases hd : c = d
      · subst hd
        simp only [beq_self_eq_true] at hl
        rw [Option.some.inj hl]
        exact List.mem_cons_self
      · have hne : (c == d) = false := by simpa using hd
        simp only [hne] at hl
        exact List.mem_cons_of_mem _ (ih hl)
  obtain ⟨hc, k, -, hk⟩ := letter_mem (c, v) (hmem _ h)
  exact ⟨hc, k, hk⟩

/-- A flag is for this call alone when its bit is. -/
theorem has_transient {c : Char} {v i : ℕ} (h : flagOfLetter c = some v) (hi : v.testBit i = true) :
    has v TRANSIENT_FLAG_MASK = TRANSIENT_FLAG_MASK.testBit i := by
  obtain ⟨-, k, rfl⟩ := flagOfLetter_eq_some h
  obtain rfl : k = i := by simpa [Nat.testBit_two_pow] using hi
  rw [← has_eq_testBit]
  unfold has
  rw [Nat.land_comm]

/-! ## The tokens -/

/-- The sign in front of what follows `pre`. -/
def signBehind (sign : Option Char) (pre : List Char) : Option Char :=
  match pre.getLast? with
  | none => sign
  | some d => if d = '+' ∨ d = '-' then some d else none

/-- **The tokens are the places**: each letter or digit, with the sign right in front of it. -/
theorem mem_flagToks {sign : Option Char} {cs : List Char} {t : FlagTok} :
    t ∈ flagToks sign cs ↔
      ∃ pre c post, cs = pre ++ c :: post ∧ isFlagChar c = true ∧ t = ⟨signBehind sign pre, c⟩ := by
  induction cs generalizing sign with
  | nil => simp [flagToks]
  | cons d cs ih =>
    -- a place of `d :: cs` is `d` itself, or a place of `cs` behind `d`
    have hcut : (∃ pre c post, d :: cs = pre ++ c :: post ∧ isFlagChar c = true ∧ t = ⟨signBehind sign pre, c⟩) ↔
        (isFlagChar d = true ∧ t = ⟨sign, d⟩) ∨
          ∃ pre c post, cs = pre ++ c :: post ∧ isFlagChar c = true ∧ t = ⟨signBehind sign (d :: pre), c⟩ := by
      constructor
      · rintro ⟨pre, c, post, heq, hc, ht⟩
        cases pre with
        | nil =>
          obtain ⟨rfl, rfl⟩ := List.cons.inj heq
          exact .inl ⟨hc, ht⟩
        | cons e pre =>
          obtain ⟨rfl, hcs⟩ := List.cons.inj heq
          exact .inr ⟨pre, c, post, hcs, hc, ht⟩
      · rintro (⟨hd, ht⟩ | ⟨pre, c, post, heq, hc, ht⟩)
        · exact ⟨[], d, cs, rfl, hd, ht⟩
        · exact ⟨d :: pre, c, post, by rw [heq]; rfl, hc, ht⟩
    have hlast : ∀ pre : List Char, signBehind sign (d :: pre) =
        signBehind (if d = '+' ∨ d = '-' then some d else none) pre := by
      intro pre
      unfold signBehind
      cases h : pre.getLast? with
      | none =>
        obtain rfl : pre = [] := List.getLast?_eq_none_iff.1 h
        rfl
      | some e => rw [List.getLast?_cons, h]; rfl
    rw [hcut]
    unfold flagToks
    by_cases hd : isFlagChar d = true
    · have hsign : ¬ (d = '+' ∨ d = '-') := by
        rintro (rfl | rfl) <;> exact absurd hd (by decide)
      rw [if_pos hd, List.mem_cons, ih]
      simp only [hlast, if_neg hsign, hd, true_and]
    · rw [if_neg hd, ih]
      simp only [hlast, hd, Bool.false_eq_true, false_and, false_or]

/-- A token names bit `i`, cleared or not. -/
def FlagTok.NamesBit (t : FlagTok) (i : ℕ) (minus : Prop) : Prop :=
  ∃ v, flagOfLetter t.letter = some v ∧ v.testBit i = true ∧ (t.sign = some '-' ↔ minus)

theorem toLower_eq_minus {d : Char} : d.toLower = '-' ↔ d = '-' := by
  constructor
  · intro h
    unfold Char.toLower at h
    split at h
    · rename_i hr
      have hv := congrArg (fun c => c.val.toNat) h
      have hm : '-'.val.toNat = 45 := rfl
      have ha : 'A'.val.toNat = 65 := rfl
      have hz : 'Z'.val.toNat = 90 := rfl
      simp only [ge_iff_le, UInt32.le_iff_toNat_le, UInt32.toNat_add] at hr hv
      have hs : ('a'.val - 'A'.val).toNat = 32 := rfl
      omega
    · exact h
  · rintro rfl
    rfl

/-- **Places and tokens** name the same bits. -/
theorem namesBit_iff {s : List Char} {i : ℕ} {minus : Prop} :
    NamesBit s i minus ↔ ∃ t ∈ flagToks none (s.map Char.toLower), t.NamesBit i minus := by
  have hsign : ∀ pre : List Char, signBehind none (pre.map Char.toLower) = some '-' ↔ pre.getLast? = some '-' := by
    intro pre
    unfold signBehind
    rw [List.getLast?_map]
    cases pre.getLast? with
    | none => simp
    | some d =>
      simp only [Option.map_some]
      split
      · simp [toLower_eq_minus]
      · rename_i hne
        have hd : d ≠ '-' := by
          rintro rfl
          exact hne (.inr rfl)
        simp [hd]
  constructor
  · rintro ⟨pre, c, post, v, rfl, hc, hv, hm⟩
    have hflag : isFlagChar c.toLower = true := (flagOfLetter_eq_some hc).1
    have hmem : ⟨signBehind none (pre.map Char.toLower), c.toLower⟩ ∈
        flagToks none ((pre ++ c :: post).map Char.toLower) :=
      mem_flagToks.2 ⟨_, _, post.map Char.toLower, by simp, hflag, rfl⟩
    exact ⟨_, hmem, v, hc, hv, (hsign pre).trans hm⟩
  · rintro ⟨t, ht, v, hc, hv, hm⟩
    obtain ⟨pre', c', post', heq, hflag, rfl⟩ := mem_flagToks.1 ht
    obtain ⟨pre, rest, rfl, rfl, hrest⟩ := List.map_eq_append_iff.1 heq
    obtain ⟨c, post, rfl, rfl, rfl⟩ := List.map_eq_cons_iff.1 hrest
    exact ⟨pre, c, post, v, rfl, hc, hv, (hsign pre).symm.trans hm⟩

/-! ## The two passes -/

/-- One step of `conv_to_key_flags`. -/
def convStep (acc : ℕ × ℕ) (t : FlagTok) : ℕ × ℕ :=
  match flagOfLetter t.letter with
  | some v => if t.sign = some '-' then (acc.1, acc.2 ||| v) else (acc.1 ||| v, acc.2)
  | none => acc

theorem convStep_foldl (ts : List FlagTok) (acc : ℕ × ℕ) (i : ℕ) :
    ((ts.foldl convStep acc).1.testBit i = true ↔ acc.1.testBit i = true ∨ ∃ t ∈ ts, t.NamesBit i False) ∧
      ((ts.foldl convStep acc).2.testBit i = true ↔ acc.2.testBit i = true ∨ ∃ t ∈ ts, t.NamesBit i True) := by
  induction ts generalizing acc with
  | nil => simp
  | cons t ts ih =>
    obtain ⟨h₁, h₂⟩ := ih (convStep acc t)
    have hstep : ((convStep acc t).1.testBit i = true ↔ acc.1.testBit i = true ∨ t.NamesBit i False) ∧
        ((convStep acc t).2.testBit i = true ↔ acc.2.testBit i = true ∨ t.NamesBit i True) := by
      unfold convStep FlagTok.NamesBit
      cases flagOfLetter t.letter with
      | none => simp
      | some v => by_cases hs : t.sign = some '-' <;> simp [hs]
    rw [List.foldl_cons, h₁, h₂, hstep.1, hstep.2]
    simp only [List.mem_cons, exists_eq_or_imp, or_assoc, and_self]

/-- What the first pass turns on. -/
theorem popStep_bits (ts : List FlagTok) (acc : ℕ × List Char) (i : ℕ) :
    (ts.foldl popStep acc).1.testBit i = true ↔
      acc.1.testBit i = true ∨ ∃ t ∈ ts, t.NamesBit i False ∧ TRANSIENT_FLAG_MASK.testBit i = true := by
  induction ts generalizing acc with
  | nil => simp
  | cons t ts ih =>
    have hstep : (popStep acc t).1.testBit i = true ↔
        acc.1.testBit i = true ∨ t.NamesBit i False ∧ TRANSIENT_FLAG_MASK.testBit i = true := by
      unfold popStep FlagTok.NamesBit
      cases hl : flagOfLetter t.letter with
      | none => simp
      | some v =>
        have hv : v.testBit i = true → has v TRANSIENT_FLAG_MASK = TRANSIENT_FLAG_MASK.testBit i := has_transient hl
        cases ht : has v TRANSIENT_FLAG_MASK with
        | true =>
          rw [ht] at hv
          by_cases hs : t.sign = some '-'
          · simp [ht, hs]
          · have hand : v.testBit i = true ↔ v.testBit i = true ∧ TRANSIENT_FLAG_MASK.testBit i = true :=
              ⟨fun h => ⟨h, (hv h).symm⟩, fun h => h.1⟩
            simp only [ht, hs, if_true, if_false, Nat.testBit_or, Bool.or_eq_true, Option.some.injEq, exists_eq_left',
              iff_self, and_true]
            exact or_congr_right hand
        | false =>
          rw [ht] at hv
          have hno : ¬ (v.testBit i = true ∧ TRANSIENT_FLAG_MASK.testBit i = true) := by
            rintro ⟨h, hm⟩
            rw [← hv h] at hm
            cases hm
          simp only [ht, Bool.false_eq_true, if_false, Option.some.injEq, exists_eq_left']
          tauto
    rw [List.foldl_cons, ih, hstep]
    simp only [List.mem_cons, exists_eq_or_imp, or_assoc]

theorem popTransientFlags_str (s : List Char) {ts : List FlagTok} (hts : flagToks none (s.map Char.toLower) = ts) :
    popTransientFlags (.str s) = ((ts.foldl popStep (0, [])).1,
      if (ts.filter FlagTok.lasts).flatMap FlagTok.text = [] then .none
      else .str ((ts.filter FlagTok.lasts).flatMap FlagTok.text)) := by
  have hrest := (popStep_foldl ts (0, [])).1
  rw [List.nil_append] at hrest
  rw [← hrest, ← hts]
  rfl

/-- **The two passes in a row**: what the first one writes, the second reads as the same tokens. -/
theorem apply_rest (s : List Char) (old i : ℕ) {ts : List FlagTok} (hts : flagToks none (s.map Char.toLower) = ts) :
    ((popTransientFlags (.str s)).2.apply old).testBit i = true ↔
      (old.testBit i = true ∨ ∃ t ∈ ts.filter FlagTok.lasts, t.NamesBit i False) ∧
        ¬ ∃ t ∈ ts.filter FlagTok.lasts, t.NamesBit i True := by
  have hplain : ∀ t ∈ ts.filter FlagTok.lasts, t.Plain := by
    intro t ht
    rw [← hts] at ht
    exact flagToks_plain (.inl rfl) _ t (List.mem_filter.1 ht).1
  rw [popTransientFlags_str s hts]
  dsimp only
  split
  · rename_i hnil
    have hempty : ts.filter FlagTok.lasts = [] := by
      have hback := flagToks_text hplain
      rw [hnil] at hback
      exact hback.symm
    simp [hempty, FlagArg.apply]
  · have hconv : convToKeyFlags ((ts.filter FlagTok.lasts).flatMap FlagTok.text) =
        (ts.filter FlagTok.lasts).foldl convStep (0, 0) := by
      unfold convToKeyFlags
      rw [toLower_text hplain, flagToks_text hplain]
      rfl
    obtain ⟨hset, hclr⟩ := convStep_foldl (ts.filter FlagTok.lasts) (0, 0) i
    simp only [Nat.zero_testBit, Bool.false_eq_true, false_or] at hset hclr
    change (clear (old ||| (convToKeyFlags ((ts.filter FlagTok.lasts).flatMap FlagTok.text)).1)
      (convToKeyFlags ((ts.filter FlagTok.lasts).flatMap FlagTok.text)).2).testBit i = true ↔ _
    rw [hconv, testBit_clear, Nat.testBit_or, Bool.and_eq_true, Bool.or_eq_true, hset, ← hclr]
    simp only [Bool.not_eq_true', Bool.not_eq_true]

/-- The tokens that last name the stored bits. -/
theorem lasts_namesBit (ts : List FlagTok) (i : ℕ) (minus : Prop) :
    (∃ t ∈ ts.filter FlagTok.lasts, t.NamesBit i minus) ↔
      TRANSIENT_FLAG_MASK.testBit i = false ∧ ∃ t ∈ ts, t.NamesBit i minus := by
  have hone : ∀ t : FlagTok, t.NamesBit i minus → t.lasts = !TRANSIENT_FLAG_MASK.testBit i := by
    rintro t ⟨v, hl, hv, -⟩
    unfold FlagTok.lasts
    rw [hl, ← has_transient hl hv]
  constructor
  · rintro ⟨t, ht, hn⟩
    obtain ⟨ht, hlasts⟩ := List.mem_filter.1 ht
    rw [hone t hn] at hlasts
    exact ⟨by simpa using hlasts, t, ht, hn⟩
  · rintro ⟨hi, t, ht, hn⟩
    refine ⟨t, List.mem_filter.2 ⟨ht, ?_⟩, hn⟩
    rw [hone t hn, hi]
    rfl

/-! ## Neighbours -/

/-- A character that is no `-` and names no flag cuts a string in two that mean what they mean alone. -/
theorem namesBit_cut {pre post : List Char} {x : Char} (hx : flagOfLetter x.toLower = none) (hm : x ≠ '-') (i : ℕ)
    (minus : Prop) : NamesBit (pre ++ x :: post) i minus ↔ NamesBit pre i minus ∨ NamesBit post i minus := by
  have hlast : ∀ l : List Char, (pre ++ x :: l).getLast? = some '-' ↔ l.getLast? = some '-' := by
    intro l
    cases l with
    | nil => simp [hm]
    | cons d l => simp [List.getLast?_append, List.getLast?_cons]
  constructor
  · rintro ⟨a, c, b, v, heq, hc, hv, hmin⟩
    rcases List.append_eq_append_iff.1 heq with ⟨mid, rfl, hmid⟩ | ⟨mid, rfl, hmid⟩
    · -- the place is in `x :: post`
      cases mid with
      | nil =>
        obtain ⟨rfl, -⟩ := List.cons.inj (hmid.trans (List.nil_append _))
        rw [hx] at hc
        cases hc
      | cons d mid =>
        obtain ⟨rfl, rfl⟩ := List.cons.inj (hmid.trans (List.cons_append ..))
        exact .inr ⟨mid, c, b, v, rfl, hc, hv, (hlast mid).symm.trans hmin⟩
    · cases mid with
      | nil =>
        obtain ⟨rfl, -⟩ := List.cons.inj ((List.nil_append _).symm.trans hmid.symm)
        rw [hx] at hc
        cases hc
      | cons d mid =>
        obtain ⟨rfl, -⟩ := List.cons.inj hmid
        exact .inl ⟨a, c, mid, v, rfl, hc, hv, hmin⟩
  · rintro (⟨a, c, b, v, rfl, hc, hv, hmin⟩ | ⟨a, c, b, v, rfl, hc, hv, hmin⟩)
    · exact ⟨a, c, b ++ x :: post, v, by simp, hc, hv, hmin⟩
    · exact ⟨pre ++ x :: a, c, b, v, by simp, hc, hv, (hlast a).trans hmin⟩

/-- No bit for this call alone and no derived one is written. -/
theorem writable_rest (f : ℕ) : f &&& WRITABLE_FLAG_MASK &&& (TRANSIENT_FLAG_MASK ||| DERIVED_FLAG_MASK) = 0 := by
  rw [Nat.land_assoc, show WRITABLE_FLAG_MASK &&& (TRANSIENT_FLAG_MASK ||| DERIVED_FLAG_MASK) = 0 by decide,
    Nat.and_zero]

/-- **Flag strings.** For every string: the call-scoped bits turned on are those named without a `-`;
of the others, those named with a `-` are cleared, those only named without are set, and the rest are
as they were; a word keeps its own bits apart from the call-scoped ones; what is written has neither a
call-scoped nor a derived bit; and letters that name no flag, other characters and case change
nothing of what the rest of the string means. -/
theorem flagString_spec (s : List Char) (old i : ℕ) :
    ((popTransientFlags (.str s)).1.testBit i = true ↔
        TRANSIENT_FLAG_MASK.testBit i = true ∧ NamesBit s i False) ∧
      (((popTransientFlags (.str s)).2.apply old).testBit i = true ↔
        if TRANSIENT_FLAG_MASK.testBit i = true then old.testBit i = true
        else (old.testBit i = true ∨ NamesBit s i False) ∧ ¬ NamesBit s i True) ∧
      (∀ word, (popTransientFlags (.int word)).1 = word &&& TRANSIENT_FLAG_MASK ∧
        (popTransientFlags (.int word)).2.apply old =
          if word &&& TRANSIENT_FLAG_MASK ≠ 0 ∧ clear word TRANSIENT_FLAG_MASK = 0 then old
          else clear word TRANSIENT_FLAG_MASK) ∧
      (∀ arg : FlagArg, (popTransientFlags arg).2.apply old &&& WRITABLE_FLAG_MASK &&&
        (TRANSIENT_FLAG_MASK ||| DERIVED_FLAG_MASK) = 0) ∧
      (∀ pre x post, s = pre ++ x :: post → flagOfLetter x.toLower = none → x ≠ '-' →
        ∀ minus, NamesBit s i minus ↔ NamesBit pre i minus ∨ NamesBit post i minus) ∧
      popTransientFlags (.str (s.map Char.toLower)) = popTransientFlags (.str s) := by
  obtain ⟨ts, hts⟩ : ∃ ts, flagToks none (s.map Char.toLower) = ts := ⟨_, rfl⟩
  have hnames : ∀ minus, NamesBit s i minus ↔ ∃ t ∈ ts, t.NamesBit i minus := by
    intro minus
    rw [← hts]
    exact namesBit_iff
  refine ⟨?_, ?_, fun word => ⟨rfl, ?_⟩, fun arg => writable_rest _, ?_, ?_⟩
  · have hbits := popStep_bits ts (0, []) i
    rw [Nat.zero_testBit] at hbits
    rw [popTransientFlags_str s hts, hnames, hbits]
    constructor
    · rintro (h | ⟨t, ht, hn, hm⟩)
      · cases h
      · exact ⟨hm, t, ht, hn⟩
    · rintro ⟨hm, t, ht, hn⟩
      exact .inr ⟨t, ht, hn, hm⟩
  · rw [apply_rest s old i hts, lasts_namesBit, lasts_namesBit, ← hnames, ← hnames]
    cases TRANSIENT_FLAG_MASK.testBit i <;> simp
  · unfold popTransientFlags
    dsimp only
    split <;> rfl
  · rintro pre x post rfl hx hm minus
    exact namesBit_cut hx hm i minus
  · have hlower : (s.map Char.toLower).map Char.toLower = s.map Char.toLower := by
      rw [List.map_map]
      refine List.map_congr_left fun c _ => ?_
      exact Char.toLower_toLower_eq_toLower c
    rw [popTransientFlags_str s rfl, popTransientFlags_str (s.map Char.toLower) rfl, hlower]

end OmniJsonDb
