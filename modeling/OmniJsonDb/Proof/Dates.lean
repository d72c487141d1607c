import OmniJsonDb.Proof.Engine

/-!
# Dates that survive

The three dates of a row share 48 bits in one of three layouts. Here are the rows that
`write_key` would not change and whose dates every layout gives back.

* `unpackRow_packRow`: packing such a row and unpacking it.
* `rowView`: whole rows, as a row view.
-/

namespace OmniJsonDb

/-! ## Bit fields -/

theorem or_shiftLeft {a k : ℕ} (b : ℕ) (h : a < 2 ^ k) : a ||| (b <<< k) = a + b * 2 ^ k := by
  rw [Nat.or_comm, ← Nat.shiftLeft_add_eq_or_of_lt h, Nat.shiftLeft_eq, Nat.add_comm]

theorem and_mask (a : ℕ) {m : ℕ} (k : ℕ) (hm : m = 2 ^ k - 1) : a &&& m = a % 2 ^ k := by
  rw [hm, Nat.and_two_pow_sub_one_eq_mod]

theorem and_mask_of_le {a m : ℕ} (k : ℕ) (hm : m = 2 ^ k - 1) (h : a ≤ m) : a &&& m = a := by
  have := Nat.two_pow_pos k
  rw [and_mask a k hm, Nat.mod_eq_of_lt (by omega)]

theorem has_subDayBit (a : ℕ) : has a SUB_DAY_BIT = decide (a / 2 ^ 22 % 2 = 1) := by
  rw [show SUB_DAY_BIT = 2 ^ 22 by decide, has_eq_testBit, Nat.testBit_eq_decide_div_mod_eq]

theorem maskInt_of_le {d : ℤ} {w : ℕ} (h₀ : 0 ≤ d) (h : d ≤ w) : maskInt d w = d.toNat := by
  unfold maskInt
  rw [Int.emod_eq_of_lt h₀ (by omega)]

/-! ## Rows that survive -/

/-- `write_key` would not change the row. -/
def Row.Settled (r : Row) : Prop := normal 0 0 r.args = r

instance : DecidablePred Row.Settled := fun r => inferInstanceAs (Decidable (normal 0 0 r.args = r))

/-- The day of the last change. -/
def Row.mday (r : Row) : ℕ := r.mdays / MIN_OF_DAY

/-- **The dates fit their layout**: the modification day is at most so many days after the
creation day, and a lifetime in minutes is on a date of `datetime`. -/
def Row.DatesFit (r : Row) : Prop :=
  r.mday ≤ r.cdays + (if r.ttl.len = 0 then MAX_DAY_DELTA else if r.ttl.subDay then MAX_SUB_DELTA
    else MAX_EXP_DELTA) ∧ (r.ttl.subDay = true → r.mday ≤ SUB_DAY_MASK)

instance : DecidablePred Row.DatesFit := fun r => by unfold Row.DatesFit; infer_instance

variable {r : Row} {k : KeyRec}

/-- The expire bit follows the lifetime. -/
theorem has_normalFlags (a : KeyArgs) : has (normalFlags a) EXPIRE = a.ttl.clamp.pos := by
  unfold normalFlags
  rw [show EXPIRE = 2 ^ 7 by decide, has_eq_testBit]
  dsimp only
  split
  · rename_i hp
    rw [hp, Nat.testBit_or, Nat.testBit_two_pow_self, Bool.or_true]
  · rename_i hp
    rw [testBit_clear, Nat.testBit_two_pow_self, Bool.not_true, Bool.and_false]
    exact ((Bool.not_eq_true _).mp hp).symm

/-- What is known of a row that `write_key` would not change. -/
theorem Row.Settled.spec (h : r.Settled) :
    r.ttl.clamp = r.ttl ∧ r.cdays ≤ SUB_DAY_MASK ∧ r.cdays * MIN_OF_DAY ≤ r.mdays ∧
      (r.ttl.subDay = false → r.mdays % MIN_OF_DAY = 0) ∧ has r.flags EXPIRE = r.ttl.pos := by
  have hc : r.cdays &&& SUB_DAY_MASK = r.cdays := congrArg Row.cdays h
  have ht : r.ttl.clamp = r.ttl := congrArg Row.ttl h
  have hm : max ((r.cdays &&& SUB_DAY_MASK) * MIN_OF_DAY)
      (if r.ttl.clamp.subDay then r.mdays else r.mdays / MIN_OF_DAY * MIN_OF_DAY) = r.mdays :=
    congrArg Row.mdays h
  have hf : normalFlags r.args = r.flags := congrArg (fun r : Row => r.flags) h
  rw [hc, ht] at hm
  refine ⟨ht, ?_, ?_, fun hs => ?_, ?_⟩
  · rw [← hc]; exact Nat.and_le_right
  · rw [← hm]; exact le_max_left _ _
  · rw [hs, if_neg (by simp)] at hm
    rw [← hm]
    unfold MIN_OF_DAY
    omega
  · rw [← hf, has_normalFlags]
    exact congrArg Ttl.pos ht

@[simp] theorem Ttl.len_days (n : ℕ) : (Ttl.days n).len = n * 1440 := rfl
@[simp] theorem Ttl.len_mins (n : ℕ) : (Ttl.mins n).len = n := rfl

theorem Ttl.len_of_not_pos {t : Ttl} (h : t.clamp = t) (h0 : t.len = 0) : t = .days 0 := by
  rw [← h]; unfold Ttl.clamp; rw [if_pos h0]

/-- Dates and lifetime, from the packed field. -/
def unpackDates (d : ℕ) (expire : Bool) : ℕ × ℕ × Ttl :=
  (if expire && has d SUB_DAY_BIT then d &&& SUB_DAY_MASK else d &&& OLD_DAY_MASK,
    if expire then
      if has d SUB_DAY_BIT then
        ((d &&& SUB_DAY_MASK) + ((d >>> SUB_DELTA_SHIFT) &&& MAX_SUB_DELTA)) * MIN_OF_DAY
          + ((d >>> NEW_DAY_SHIFT) &&& MIN_FIELD)
      else ((d &&& OLD_DAY_MASK) + ((d >>> NEW_DAY_SHIFT) &&& MAX_EXP_DELTA)) * MIN_OF_DAY
    else ((d &&& OLD_DAY_MASK) + ((d >>> NEW_DAY_SHIFT) &&& MAX_DAY_DELTA)) * MIN_OF_DAY,
    if expire then
      if has d SUB_DAY_BIT then .mins ((d >>> TTL_MIN_SHIFT) &&& MAX_TTL_MINS)
      else .days ((d >>> TTL_SHIFT) &&& TTL_DAY_MASK)
    else .days 0)

theorem unpackRow_dates (k : KeyRec) :
    ((unpackRow k).cdays, (unpackRow k).mdays, (unpackRow k).ttl) = unpackDates k.days (has k.flags EXPIRE) := rfl

private theorem split_day {m c : ℕ} (h : m % MIN_OF_DAY = 0) (hc : c * MIN_OF_DAY ≤ m) :
    (c + (m / MIN_OF_DAY - c)) * MIN_OF_DAY = m := by
  unfold MIN_OF_DAY at *; omega

/-- A row without a lifetime. -/
theorem dates_none {c m : ℕ} (hc : c ≤ SUB_DAY_MASK) (hm : m % MIN_OF_DAY = 0) (hcm : c * MIN_OF_DAY ≤ m)
    (hd : m / MIN_OF_DAY ≤ c + MAX_DAY_DELTA) :
    ∃ d, dayField c m (.days 0) = .ok d ∧ unpackDates d false = (c, m, .days 0) := by
  have hsplit := split_day hm hcm
  have hc' : c < 2 ^ 26 := lt_of_le_of_lt hc (by decide)
  have hcm' : c &&& OLD_DAY_MASK = c := and_mask_of_le 26 (by decide) (by unfold OLD_DAY_MASK; omega)
  have hdm : (m / MIN_OF_DAY - c) &&& MAX_DAY_DELTA = m / MIN_OF_DAY - c :=
    and_mask_of_le 22 (by decide) (by omega)
  refine ⟨c + (m / MIN_OF_DAY - c) * 2 ^ 26, ?_, ?_⟩
  · unfold dayField
    rw [if_pos (by simp [Ttl.len]), hcm', hdm, NEW_DAY_SHIFT, or_shiftLeft _ hc']
    split
    · rfl
    · rename_i hle
      rw [show m / MIN_OF_DAY - c = 0 by unfold MIN_OF_DAY at *; omega]
      simp
  · unfold unpackDates
    simp only [Bool.false_eq_true, if_false, Bool.false_and, Prod.mk.injEq, and_true]
    rw [and_mask _ 26 (by decide : OLD_DAY_MASK = 2 ^ 26 - 1), Nat.shiftRight_eq_div_pow, NEW_DAY_SHIFT,
      Nat.add_mul_mod_self_right, Nat.mod_eq_of_lt hc', Nat.add_mul_div_right _ _ (by decide),
      Nat.div_eq_of_lt hc', Nat.zero_add, hdm]
    exact ⟨rfl, hsplit⟩

/-- A row with a lifetime in days. -/
theorem dates_days {c m n : ℕ} (hc : c ≤ SUB_DAY_MASK) (hm : m % MIN_OF_DAY = 0) (hcm : c * MIN_OF_DAY ≤ m)
    (hd : m / MIN_OF_DAY ≤ c + MAX_EXP_DELTA) (hn : 0 < n) (hn' : (Ttl.days n).clamp = .days n) :
    ∃ d, dayField c m (.days n) = .ok d ∧ unpackDates d true = (c, m, .days n) := by
  have hsplit := split_day hm hcm
  have hn511 : n ≤ 511 := by
    by_contra h
    have : (Ttl.days n).clamp = .days MAX_TTL_DAYS := by
      unfold Ttl.clamp MAX_TTL_DAYS MIN_OF_DAY
      rw [Ttl.len_days, if_neg (by omega), if_neg (by omega)]
    rw [hn'] at this
    cases this
    exact h (by decide)
  obtain ⟨e, he⟩ : ∃ e, m / MIN_OF_DAY = c + e := ⟨m / MIN_OF_DAY - c, by unfold MIN_OF_DAY at *; omega⟩
  have hc' : c < 2 ^ 22 := lt_of_le_of_lt hc (by decide)
  have hec : e ≤ 8191 := by unfold MAX_EXP_DELTA at hd; omega
  refine ⟨c + e * 2 ^ 26 + n * 2 ^ 39, ?_, ?_⟩
  · unfold dayField
    have hsub : (Ttl.days n).subDay = false := by
      unfold Ttl.subDay MIN_OF_DAY
      rw [Ttl.len_days, Bool.and_eq_false_iff, decide_eq_false_iff_not, decide_eq_false_iff_not]
      omega
    rw [Ttl.len_days, if_neg (by omega), hsub, if_neg (by decide), hn', he]
    simp only
    rw [if_neg (by unfold MAX_EXP_DELTA; omega), maskInt_of_le (by omega) (by unfold MAX_EXP_DELTA; omega),
      show (((c + e : ℕ) : ℤ) - c).toNat = e by omega, NEW_DAY_SHIFT, TTL_SHIFT,
      or_shiftLeft e (by omega), or_shiftLeft n (by omega)]
  · unfold unpackDates
    have hbit : has (c + e * 2 ^ 26 + n * 2 ^ 39) SUB_DAY_BIT = false := by
      rw [has_subDayBit, decide_eq_false_iff_not]; omega
    simp only [if_true, hbit, Bool.and_false, Bool.false_eq_true, if_false, Prod.mk.injEq]
    rw [and_mask _ 26 (by decide : OLD_DAY_MASK = 2 ^ 26 - 1), and_mask _ 13 (by decide : MAX_EXP_DELTA = 2 ^ 13 - 1),
      and_mask _ 9 (by decide : TTL_DAY_MASK = 2 ^ 9 - 1), Nat.shiftRight_eq_div_pow, Nat.shiftRight_eq_div_pow,
      NEW_DAY_SHIFT, TTL_SHIFT, show (c + e * 2 ^ 26 + n * 2 ^ 39) % 2 ^ 26 = c by omega,
      show (c + e * 2 ^ 26 + n * 2 ^ 39) / 2 ^ 26 % 2 ^ 13 = e by omega,
      show (c + e * 2 ^ 26 + n * 2 ^ 39) / 2 ^ 39 % 2 ^ 9 = n by omega]
    refine ⟨rfl, ?_, rfl⟩
    rw [← hsplit, he, Nat.add_sub_cancel_left]

/-- A row with a lifetime in minutes. -/
theorem dates_mins {c m n : ℕ} (hc : c ≤ SUB_DAY_MASK) (hcm : c * MIN_OF_DAY ≤ m)
    (hd : m / MIN_OF_DAY ≤ c + MAX_SUB_DELTA) (hn : 0 < n) (hn' : n < MIN_OF_DAY) (hm : m / MIN_OF_DAY ≤ SUB_DAY_MASK) :
    ∃ d, dayField c m (.mins n) = .ok d ∧ unpackDates d true = (c, m, .mins n) := by
  obtain ⟨e, he⟩ : ∃ e, m / MIN_OF_DAY = c + e := ⟨m / MIN_OF_DAY - c, by unfold MIN_OF_DAY at *; omega⟩
  have hc' : c < 2 ^ 22 := lt_of_le_of_lt hc (by decide)
  have hec : e ≤ 7 := by unfold MAX_SUB_DELTA at hd; omega
  have hmin : m % MIN_OF_DAY < 1440 := Nat.mod_lt _ (by decide)
  have hn1440 : n < 1440 := hn'
  refine ⟨c + e * 2 ^ 23 + 2 ^ 22 + m % MIN_OF_DAY * 2 ^ 26 + n * 2 ^ 37, ?_, ?_⟩
  · unfold dayField
    have hsub : (Ttl.mins n).subDay = true := by
      unfold Ttl.subDay
      rw [Ttl.len_mins, Bool.and_eq_true, decide_eq_true_eq, decide_eq_true_eq]
      exact ⟨hn, hn'⟩
    rw [Ttl.len_mins, if_neg (by omega), if_pos hsub]
    unfold packDays
    simp only
    rw [if_neg (Nat.not_lt.2 hm), he, show min n MAX_TTL_MINS = n by unfold MAX_TTL_MINS; omega,
      show max 1 n = n by omega, if_pos (by unfold MAX_SUB_DELTA; omega)]
    simp only
    rw [show (((c + e : ℕ) : ℤ) - c).toNat = e by omega, and_mask_of_le 22 (by decide) hc, SUB_DELTA_SHIFT,
      NEW_DAY_SHIFT, TTL_MIN_SHIFT, or_shiftLeft e (by omega)]
    have hbit : c + e * 2 ^ 23 ||| SUB_DAY_BIT = c + e * 2 ^ 23 + 2 ^ 22 := by
      have h₁ := or_shiftLeft (a := c) (k := 22) (2 * e) hc'
      have h₂ := or_shiftLeft (a := c) (k := 22) (2 * e + 1) hc'
      have h₃ : (2 * e) ||| 1 = 2 * e + 1 := by
        have := or_shiftLeft (a := 1) (k := 1) e (by decide)
        rw [Nat.or_comm, Nat.shiftLeft_eq, pow_one, Nat.mul_comm] at this
        omega
      rw [show c + e * 2 ^ 23 = c + 2 * e * 2 ^ 22 by omega, ← h₁, Nat.or_assoc,
        show SUB_DAY_BIT = 1 <<< 22 by decide, ← Nat.shiftLeft_or_distrib, h₃, h₂]
      omega
    rw [hbit, or_shiftLeft (m % MIN_OF_DAY) (by omega), or_shiftLeft n (by omega)]
  · generalize hd' : c + e * 2 ^ 23 + 2 ^ 22 + m % MIN_OF_DAY * 2 ^ 26 + n * 2 ^ 37 = d
    unfold unpackDates
    have hbit : has d SUB_DAY_BIT = true := by
      rw [has_subDayBit, decide_eq_true_eq]; omega
    simp only [if_true, hbit, Bool.and_true, Prod.mk.injEq]
    rw [and_mask d 22 (by decide : SUB_DAY_MASK = 2 ^ 22 - 1), and_mask _ 3 (by decide : MAX_SUB_DELTA = 2 ^ 3 - 1),
      and_mask _ 11 (by decide : MIN_FIELD = 2 ^ 11 - 1), and_mask _ 11 (by decide : MAX_TTL_MINS = 2 ^ 11 - 1),
      Nat.shiftRight_eq_div_pow, Nat.shiftRight_eq_div_pow, Nat.shiftRight_eq_div_pow, SUB_DELTA_SHIFT,
      NEW_DAY_SHIFT, TTL_MIN_SHIFT, show d % 2 ^ 22 = c by omega, show d / 2 ^ 23 % 2 ^ 3 = e by omega,
      show d / 2 ^ 26 % 2 ^ 11 = m % MIN_OF_DAY by omega, show d / 2 ^ 37 % 2 ^ 11 = n by omega]
    refine ⟨rfl, ?_, rfl⟩
    rw [← he]
    exact Nat.div_add_mod' m MIN_OF_DAY

/-- **Packing and unpacking** a settled row whose dates fit. -/
theorem unpackRow_packRow (hs : r.Settled) (hd : r.DatesFit) (hk : packRow r = .ok k) : unpackRow k = r := by
  obtain ⟨ht, hc, hcm, hm, he⟩ := hs.spec
  obtain ⟨hd, hsub⟩ := hd
  have hdays : dayField r.cdays r.mdays r.ttl = .ok k.days ∧ k.flags = r.flags := by
    unfold packRow at hk
    split at hk
    · cases hk
    · rename_i d hd'; cases hk; exact ⟨hd', rfl⟩
  -- one layout for each kind of lifetime
  have hdates : unpackDates k.days r.ttl.pos = (r.cdays, r.mdays, r.ttl) := by
    unfold Ttl.pos
    unfold Row.mday at hd hsub
    obtain ⟨hdays, -⟩ := hdays
    by_cases h0 : r.ttl.len = 0
    · have hm := hm (by simp [Ttl.subDay, h0])
      rw [if_pos h0] at hd
      rw [Ttl.len_of_not_pos ht h0] at hdays ⊢
      obtain ⟨d, hd₁, hd₂⟩ := dates_none hc hm hcm hd
      rw [hdays] at hd₁
      cases hd₁
      exact hd₂
    · rw [if_neg h0] at hd
      rw [decide_eq_true (Nat.pos_of_ne_zero h0)]
      cases htt : r.ttl with
      | days n =>
        rw [htt] at hdays ht h0 hd hm
        rw [Ttl.len_days] at h0
        have hns : (Ttl.days n).subDay = false := by
          unfold Ttl.subDay MIN_OF_DAY
          rw [Ttl.len_days, Bool.and_eq_false_iff, decide_eq_false_iff_not, decide_eq_false_iff_not]
          omega
        rw [hns, if_neg (by decide)] at hd
        obtain ⟨d, hd₁, hd₂⟩ := dates_days hc (hm hns) hcm hd (by omega) ht
        rw [hdays] at hd₁
        cases hd₁
        exact hd₂
      | mins n =>
        rw [htt] at hdays h0 hd hsub
        rw [Ttl.len_mins] at h0
        by_cases hn : n < MIN_OF_DAY
        · have hs : (Ttl.mins n).subDay = true := by
            unfold Ttl.subDay
            rw [Ttl.len_mins, Bool.and_eq_true, decide_eq_true_eq, decide_eq_true_eq]
            exact ⟨Nat.pos_of_ne_zero h0, hn⟩
          rw [hs, if_pos rfl] at hd
          obtain ⟨d, hd₁, hd₂⟩ := dates_mins hc hcm hd (Nat.pos_of_ne_zero h0) hn (hsub hs)
          rw [hdays] at hd₁
          cases hd₁
          exact hd₂
        · -- a lifetime of a day and more that is not whole days cannot be packed
          exfalso
          have hs : (Ttl.mins n).subDay = false := by
            unfold Ttl.subDay
            rw [Ttl.len_mins, Bool.and_eq_false_iff, decide_eq_false_iff_not, decide_eq_false_iff_not]
            exact .inr hn
          rw [htt] at ht
          unfold dayField at hdays
          rw [Ttl.len_mins, if_neg h0, hs, if_neg (by decide), ht] at hdays
          cases hdays
  have hcore := unpackRow_core hk
  have h₃ := unpackRow_dates k
  rw [hdays.2, he, hdates, Prod.mk.injEq, Prod.mk.injEq] at h₃
  exact Row.ext (congrArg (fun c : Core => c.key) hcore) (congrArg (fun c : Core => c.fileId) hcore)
    (congrArg (fun c : Core => c.offset) hcore) (congrArg (fun c : Core => c.rowSize) hcore)
    (congrArg (fun c : Core => c.valSize) hcore) (congrArg (fun c : Core => c.ver) hcore)
    (congrArg (fun c : Core => c.flags) hcore) h₃.1 h₃.2.1 h₃.2.2

/-! ## Whole rows -/

/-- A row, whole. -/
def rowView : RowView Row where
  proj r := r
  slot r := r.toSlot
  slot_proj _ := rfl
  fixed r := r.Settled
  fixed_empty := by decide +kernel
  normal_fixed _ _ h := h

/-- A row that fits, that `write_key` would not change, and whose dates fit. -/
def surviving (cfg : Config) (r : Row) (_ : KeyRec) (n : ℕ) : Bool :=
  decide (n + 1 ≤ max MAX_INDEX_SIZE cfg.initIndexSize ∧ r.Settled ∧ r.DatesFit)

end OmniJsonDb
