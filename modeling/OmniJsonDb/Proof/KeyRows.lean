import OmniJsonDb.Model.KeyCodec
import OmniJsonDb.Proof.Dates
import OmniJsonDb.Proof.Routes
import OmniJsonDb.Proof.Unpack

/-!
# KEY rows read back

A row as `write_key` passes it on is read back from its bytes, padded to the width of the rows, in
every layout and by every codec. The creation day gives way to the day of the last change when the
two lie further apart than the layout can say.

* `unpackDays_dayField`: the dates and the lifetime.
* `Layout.unpacked_packed`: the numbers of a row.
* `JIoKEY_L.loads_text`: the text codec, whatever separators the key has.
* `KeyCodec.loads_dumps`: the round trip, and which rows are taken.
-/

namespace OmniJsonDb

/-! ## The day field -/

theorem maskInt_natCast (n w : ℕ) : maskInt n w = n % (w + 1) := by
  rw [maskInt, ← Int.natCast_mod, Int.toNat_natCast]

theorem maskInt_div (n k w : ℕ) : maskInt ((n : ℤ) / 2 ^ k) w = n / 2 ^ k % (w + 1) := by
  have hdiv : (n : ℤ) / 2 ^ k = ((n / 2 ^ k : ℕ) : ℤ) := by push_cast; rfl
  rw [hdiv, maskInt_natCast]

/-- The day field and the flags above it. -/
def withFlags (days flags : ℕ) : ℕ := days + flags * 2 ^ 48

/-- What stands above the day field is not looked at. -/
theorem unpackDays_withFlags (d f : ℕ) (expire : Bool) :
    unpackDays (withFlags d f) expire = unpackDays d expire := by
  unfold unpackDays withFlags
  simp only [maskInt_natCast, maskInt_div, OLD_DAY_MASK, NEW_DAY_SHIFT, MAX_DAY_DELTA, SUB_DAY_MASK, TTL_SHIFT,
    TTL_DAY_MASK, MAX_EXP_DELTA, TTL_MIN_SHIFT, MIN_FIELD, SUB_DELTA_SHIFT, MAX_SUB_DELTA, MAX_TTL_MINS]
  have h26 : (d + f * 2 ^ 48) % (0x3FFFFFF + 1) = d % (0x3FFFFFF + 1) := by omega
  have hd : (d + f * 2 ^ 48) / 2 ^ 26 % (0x3FFFFF + 1) = d / 2 ^ 26 % (0x3FFFFF + 1) := by omega
  have hs : (d + f * 2 ^ 48) / 2 ^ 22 % (1 + 1) = d / 2 ^ 22 % (1 + 1) := by omega
  have he : (d + f * 2 ^ 48) / 2 ^ 26 % (0x1FFF + 1) = d / 2 ^ 26 % (0x1FFF + 1) := by omega
  have ht : (d + f * 2 ^ 48) / 2 ^ 39 % (0x1FF + 1) = d / 2 ^ 39 % (0x1FF + 1) := by omega
  have h22 : (d + f * 2 ^ 48) % (0x3FFFFF + 1) = d % (0x3FFFFF + 1) := by omega
  have hsd : (d + f * 2 ^ 48) / 2 ^ 23 % (7 + 1) = d / 2 ^ 23 % (7 + 1) := by omega
  have hm : (d + f * 2 ^ 48) / 2 ^ 26 % (0x7FF + 1) = d / 2 ^ 26 % (0x7FF + 1) := by omega
  have htm : (d + f * 2 ^ 48) / 2 ^ 37 % (2047 + 1) = d / 2 ^ 37 % (2047 + 1) := by omega
  rw [h26, hd, hs, he, ht, h22, hsd, hm, htm]

theorem unpackDays_eq (d : ℕ) (expire : Bool) : unpackDays d expire = unpackDates d expire := by
  unfold unpackDays unpackDates
  simp only [maskInt_natCast, maskInt_div, has_subDayBit, Nat.shiftRight_eq_div_pow,
    and_mask _ 26 (show OLD_DAY_MASK = 2 ^ 26 - 1 by decide), and_mask _ 22 (show MAX_DAY_DELTA = 2 ^ 22 - 1 by decide),
    and_mask _ 22 (show SUB_DAY_MASK = 2 ^ 22 - 1 by decide), and_mask _ 13 (show MAX_EXP_DELTA = 2 ^ 13 - 1 by decide),
    and_mask _ 9 (show TTL_DAY_MASK = 2 ^ 9 - 1 by decide), and_mask _ 3 (show MAX_SUB_DELTA = 2 ^ 3 - 1 by decide),
    and_mask _ 11 (show MIN_FIELD = 2 ^ 11 - 1 by decide), and_mask _ 11 (show MAX_TTL_MINS = 2 ^ 11 - 1 by decide)]
  have hone : d / 2 ^ 22 % (1 + 1) = 0 ↔ ¬ d / 2 ^ 22 % 2 = 1 := by omega
  cases expire with
  | false => rfl
  | true =>
    by_cases hbit : d / 2 ^ 22 % 2 = 1
    · rw [if_neg (by decide), if_neg (by rw [hone]; omega)]
      simp only [hbit, decide_true, Bool.and_self, if_true]
      rfl
    · rw [if_neg (by decide), if_pos (by rw [hone]; omega)]
      simp only [hbit, decide_false, Bool.and_false, Bool.false_eq_true, if_false, if_true]
      rfl

/-- How many days the last change may lie after the creation, by the kind of lifetime. -/
def deltaRange (ttl : Ttl) : ℕ :=
  if ttl.len = 0 then MAX_DAY_DELTA else if ttl.subDay then MAX_SUB_DELTA else MAX_EXP_DELTA

/-- The creation day that is kept. -/
def keptDay (cdays mdays : ℕ) (ttl : Ttl) : ℕ :=
  if mdays / MIN_OF_DAY ≤ cdays + deltaRange ttl then cdays else mdays / MIN_OF_DAY

/-- A lifetime as `conv_ttl` returns it. -/
inductive Ttl.Conv : Ttl → Prop
  | days {n : ℕ} : n ≤ MAX_TTL_DAYS → Conv (.days n)
  | mins {m : ℕ} : 0 < m → m < MIN_OF_DAY → Conv (.mins m)

theorem Ttl.Conv.clamp {ttl : Ttl} (h : ttl.Conv) : ttl.clamp = ttl := by
  cases h with
  | @days n hn =>
    unfold MAX_TTL_DAYS at hn
    rw [Ttl.clamp, Ttl.len_days]
    split
    · rw [show n = 0 by omega]
    · split
      · rfl
      · rename_i hge
        unfold MAX_TTL_DAYS MIN_OF_DAY at hge
        rw [show n = MAX_TTL_DAYS by unfold MAX_TTL_DAYS; omega]
  | @mins n h0 h1 =>
    unfold MIN_OF_DAY at h1
    rw [Ttl.clamp, Ttl.len_mins, if_neg (by omega), if_pos (by unfold MAX_TTL_DAYS MIN_OF_DAY; omega)]

theorem subDay_days (n : ℕ) : (Ttl.days n).subDay = false := by
  unfold Ttl.subDay MIN_OF_DAY
  rw [Ttl.len_days, Bool.and_eq_false_iff, decide_eq_false_iff_not, decide_eq_false_iff_not]
  omega

theorem subDay_mins {m : ℕ} (h0 : 0 < m) (h1 : m < MIN_OF_DAY) : (Ttl.mins m).subDay = true := by
  unfold Ttl.subDay
  rw [Ttl.len_mins, Bool.and_eq_true, decide_eq_true_eq, decide_eq_true_eq]
  exact ⟨h0, h1⟩

theorem dayField_mins (c m : ℕ) {n : ℕ} (h0 : 0 < n) (h1 : n < MIN_OF_DAY) :
    dayField c m (.mins n) = .ok (packDays c m n) := by
  rw [dayField, Ttl.len_mins, if_neg (by omega), if_pos (subDay_mins h0 h1)]

theorem dayField_days (c m : ℕ) {n : ℕ} (h0 : n ≠ 0) (hn : n ≤ MAX_TTL_DAYS) :
    dayField c m (.days n) =
      let delta : ℤ := (m / MIN_OF_DAY : ℕ) - c
      if delta > MAX_EXP_DELTA then .ok (((c + delta.toNat) &&& OLD_DAY_MASK) ||| (n <<< TTL_SHIFT))
      else .ok (c ||| (maskInt delta MAX_EXP_DELTA <<< NEW_DAY_SHIFT) ||| (n <<< TTL_SHIFT)) := by
  rw [dayField, Ttl.len_days, if_neg (by omega), subDay_days, if_neg (by decide), (Ttl.Conv.days hn).clamp]

theorem shiftLeft_lt {a b n : ℕ} (ha : a < 2 ^ b) (hn : b + n ≤ 48) : a <<< n < 2 ^ 48 := by
  rw [Nat.shiftLeft_eq]
  calc a * 2 ^ n < 2 ^ b * 2 ^ n := (Nat.mul_lt_mul_right (Nat.two_pow_pos n)).2 ha
    _ = 2 ^ (b + n) := (Nat.pow_add 2 b n).symm
    _ ≤ 2 ^ 48 := Nat.pow_le_pow_right (by decide) hn

theorem maskInt_lt (d : ℤ) (w : ℕ) : maskInt d w < w + 1 := by
  unfold maskInt
  have hlt := Int.emod_lt_of_pos d (show (0 : ℤ) < (w + 1 : ℕ) by omega)
  omega

/-- The field has 48 bits. -/
theorem dayField_lt {c m : ℕ} {ttl : Ttl} (hc : c ≤ SUB_DAY_MASK)
    (hm : ttl.subDay = true → m / MIN_OF_DAY ≤ SUB_DAY_MASK) (h : ttl.Conv) {d : ℕ} (hd : dayField c m ttl = .ok d) :
    d < 2 ^ 48 := by
  have hand : ∀ {x w k : ℕ}, w + 1 = 2 ^ k → x &&& w < 2 ^ k := by
    intro x w k hw
    have hle : x &&& w ≤ w := Nat.and_le_right
    omega
  have hold : ∀ x, x &&& OLD_DAY_MASK < 2 ^ 48 := by
    intro x
    have hx : x &&& OLD_DAY_MASK < 2 ^ 26 := hand (by decide)
    omega
  cases h with
  | @days n hn =>
    have hn' : n <<< TTL_SHIFT < 2 ^ 48 := by
      refine @shiftLeft_lt n 9 39 ?_ (by decide)
      unfold MAX_TTL_DAYS at hn
      omega
    by_cases h0 : n = 0
    · subst h0
      rw [dayField, if_pos (by rfl)] at hd
      split at hd
      · cases hd
        exact Nat.or_lt_two_pow (hold c) (@shiftLeft_lt _ 22 26 (hand (by decide)) (by decide))
      · cases hd
        exact hold c
    · rw [dayField_days _ _ h0 hn] at hd
      simp only at hd
      split at hd
      · cases hd
        exact Nat.or_lt_two_pow (hold _) hn'
      · cases hd
        have hmask : maskInt ((m / MIN_OF_DAY : ℕ) - c) MAX_EXP_DELTA < 2 ^ 13 := maskInt_lt _ _
        have hc' : c < 2 ^ 48 := Nat.lt_of_le_of_lt hc (by decide)
        exact Nat.or_lt_two_pow (Nat.or_lt_two_pow hc' (@shiftLeft_lt _ 13 26 hmask (by decide))) hn'
  | @mins n h0 h1 =>
    rw [dayField_mins _ _ h0 h1] at hd
    cases hd
    unfold packDays
    simp only
    have hday := hm (subDay_mins h0 h1)
    rw [if_neg (by omega)]
    have hbody : ∀ {x y : ℕ}, y ≤ MAX_SUB_DELTA →
        (x &&& SUB_DAY_MASK) ||| y <<< SUB_DELTA_SHIFT ||| SUB_DAY_BIT ||| (m % MIN_OF_DAY) <<< NEW_DAY_SHIFT |||
          max 1 (min n MAX_TTL_MINS) <<< TTL_MIN_SHIFT < 2 ^ 48 := by
      intro x y hy
      have hx : x &&& SUB_DAY_MASK < 2 ^ 22 := hand (by decide)
      have hmin : m % MIN_OF_DAY < MIN_OF_DAY := Nat.mod_lt _ (by decide)
      unfold MIN_OF_DAY at hmin h1
      refine Nat.or_lt_two_pow (Nat.or_lt_two_pow (Nat.or_lt_two_pow (Nat.or_lt_two_pow (by omega) ?_) (by decide)) ?_) ?_
      · exact @shiftLeft_lt _ 3 23 (by unfold MAX_SUB_DELTA at hy; omega) (by decide)
      · exact @shiftLeft_lt _ 11 26 (by unfold MIN_OF_DAY; omega) (by decide)
      · exact @shiftLeft_lt _ 11 37 (by unfold MAX_TTL_MINS; omega) (by decide)
    split
    · exact hbody (by omega)
    · exact hbody (by omega)

section Dates

variable {c m : ℕ} {ttl : Ttl} (hcm : c * MIN_OF_DAY ≤ m) (hm : m < 2 ^ 22 * MIN_OF_DAY)

include hcm hm

theorem dates_bounds : c ≤ m / MIN_OF_DAY ∧ m / MIN_OF_DAY < 2 ^ 22 ∧ c < 2 ^ 22 := by
  unfold MIN_OF_DAY at *
  omega

/-- **Too far apart.** The field is that of a row created when it was changed. -/
theorem dayField_keptDay (h : ttl.Conv) : dayField c m ttl = dayField (keptDay c m ttl) m ttl := by
  obtain ⟨hc, hday, hcs⟩ := dates_bounds hcm hm
  unfold keptDay
  split
  · rfl
  · rename_i hfar
    generalize hd : m / MIN_OF_DAY = day at hc hday hfar
    cases h with
    | @days n hn =>
      unfold deltaRange at hfar
      rw [Ttl.len_days, subDay_days] at hfar
      by_cases h0 : n = 0
      · rw [if_pos (by omega)] at hfar
        unfold MAX_DAY_DELTA at hfar
        omega
      · rw [if_neg (by omega), if_neg (by decide)] at hfar
        rw [dayField_days _ _ h0 hn, dayField_days _ _ h0 hn, hd]
        simp only
        rw [if_pos (by omega), if_neg (by unfold MAX_EXP_DELTA; omega)]
        have hday' : (c + ((day : ℤ) - c).toNat) &&& OLD_DAY_MASK = day := by
          rw [show c + ((day : ℤ) - c).toNat = day by omega]
          exact and_mask_of_le 26 (by decide) (by unfold OLD_DAY_MASK; omega)
        have hzero : maskInt ((day : ℤ) - day) MAX_EXP_DELTA = 0 := by
          rw [Int.sub_self]
          exact maskInt_natCast 0 _
        rw [hday', hzero, Nat.zero_shiftLeft, Nat.or_zero]
    | @mins n h0 h1 =>
      unfold deltaRange at hfar
      rw [Ttl.len_mins, if_neg (by omega), if_pos (subDay_mins h0 h1)] at hfar
      rw [dayField_mins _ _ h0 h1, dayField_mins _ _ h0 h1]
      congr 1
      unfold packDays
      rw [hd]
      simp only
      rw [if_neg (by unfold SUB_DAY_MASK; omega), if_neg (by omega), if_neg (by unfold SUB_DAY_MASK; omega),
        if_pos (by unfold MAX_SUB_DELTA; omega)]
      simp

/-- **The day field** gives the dates and the lifetime back. -/
theorem unpackDays_dayField (h : ttl.Conv) (hwhole : ttl.subDay = false → m % MIN_OF_DAY = 0) :
    ∃ d, dayField c m ttl = .ok d ∧ d < 2 ^ 48 ∧ unpackDays d ttl.pos = (keptDay c m ttl, m, ttl) := by
  obtain ⟨hc, hday, hcs⟩ := dates_bounds hcm hm
  have hk : keptDay c m ttl ≤ m / MIN_OF_DAY ∧ m / MIN_OF_DAY ≤ keptDay c m ttl + deltaRange ttl := by
    unfold keptDay
    split
    · exact ⟨hc, ‹_›⟩
    · omega
  have hks : keptDay c m ttl ≤ SUB_DAY_MASK := by unfold SUB_DAY_MASK; omega
  have hkm : keptDay c m ttl * MIN_OF_DAY ≤ m := by
    have hmul := Nat.mul_le_mul_right MIN_OF_DAY hk.1
    have hdiv := Nat.div_mul_le_self m MIN_OF_DAY
    omega
  obtain ⟨hk0, hk1⟩ := hk
  have hex : ∃ d, dayField (keptDay c m ttl) m ttl = .ok d ∧ unpackDates d ttl.pos = (keptDay c m ttl, m, ttl) := by
    generalize keptDay c m ttl = k at hk0 hk1 hks hkm
    unfold deltaRange at hk1
    cases h with
    | @days n hn =>
      have hmod := hwhole (subDay_days n)
      rw [Ttl.len_days, subDay_days] at hk1
      by_cases h0 : n = 0
      · subst h0
        exact dates_none hks hmod hkm (by simpa using hk1)
      · rw [if_neg (by omega), if_neg (by decide)] at hk1
        have hpos : (Ttl.days n).pos = true := by simp [Ttl.pos]; omega
        rw [hpos]
        exact dates_days hks hmod hkm hk1 (by omega) (Ttl.Conv.days hn).clamp
    | @mins n h0 h1 =>
      rw [Ttl.len_mins, if_neg (by omega), if_pos (subDay_mins h0 h1)] at hk1
      have hpos : (Ttl.mins n).pos = true := decide_eq_true h0
      rw [hpos]
      exact dates_mins hks hkm hk1 h0 h1 (by unfold SUB_DAY_MASK; omega)
  obtain ⟨d, hd, hu⟩ := hex
  rw [← dayField_keptDay hcm hm h] at hd
  have hlt : d < 2 ^ 48 := by
    refine dayField_lt ?_ (fun _ => ?_) h hd
    · unfold SUB_DAY_MASK
      omega
    · unfold SUB_DAY_MASK
      omega
  exact ⟨d, hd, hlt, by rw [unpackDays_eq, hu]⟩

end Dates

/-! ## The numbers of a row -/

namespace KeyInfo

/-- What `write_key` passes on. -/
structure Passed (r : KeyInfo ℕ) : Prop where
  rowSize : r.rowSize < 2 ^ 32
  valSize : r.valSize < 2 ^ 32
  created : r.cdays * MIN_OF_DAY ≤ r.mdays
  changed : r.mdays < 2 ^ 22 * MIN_OF_DAY
  ttl : r.ttl.Conv
  whole : r.ttl.subDay = false → r.mdays % MIN_OF_DAY = 0
  flags : r.flags ≤ KEY_FLAG_MASK
  expire : has r.flags EXPIRE = r.ttl.pos
  group : r.key ≠ [] → r.fileId = 0x10 → r.rowSize = 0 → has r.flags GROUP = true

/-- A row without a key that looks like a group and is not marked as one. -/
def Nameless (r : KeyInfo ℕ) : Prop := r.key = [] ∧ r.fileId = 0x10 ∧ r.rowSize = 0 ∧ has r.flags GROUP = false

/-- What comes back. -/
def readBack (r : KeyInfo ℕ) : KeyInfo ℤ := { r with cdays := keptDay r.cdays r.mdays r.ttl }.toInt

end KeyInfo

theorem or_group {f : ℕ} (h : has f GROUP = true) : f ||| GROUP = f := by
  have hg : GROUP = 2 ^ 2 := by decide
  rw [hg, has_eq_testBit] at h
  rw [hg]
  refine Nat.eq_of_testBit_eq fun i => ?_
  rw [Nat.testBit_or, Nat.testBit_two_pow]
  by_cases hi : 2 = i
  · subst hi; simp [h]
  · simp [hi]

variable {l : Layout} {r : KeyInfo ℕ}

theorem marks_withFlags {d f : ℕ} (hd : d < 2 ^ 48) (hf : f ≤ KEY_FLAG_MASK) (fileId rowSize : ℤ) :
    Layout.marks fileId rowSize (withFlags d f) = f ||| (if rowSize = 0 ∧ fileId = 0x10 then GROUP else 0) := by
  unfold Layout.marks
  have hmask : maskInt ((withFlags d f : ℤ) / 2 ^ KEY_FLAG_SHIFT) KEY_FLAG_MASK = f := by
    rw [maskInt_div]
    unfold withFlags KEY_FLAG_SHIFT KEY_FLAG_MASK at *
    omega
  rw [hmask]

/-- The numbers of a row, of its day field. -/
def Layout.numbers (l : Layout) (r : KeyInfo ℕ) (days : ℕ) : List ℕ :=
  match l with
  | v0 => [r.fileId, r.offset, r.rowSize + r.valSize * 2 ^ 32, r.ver, withFlags days r.flags]
  | v1 => [r.fileId, r.offset, r.rowSize, r.valSize, r.ver, withFlags days r.flags]
  | v2 => [r.fileId, r.offset, r.rowSize, r.valSize, r.ver, days, r.flags]

theorem Layout.packed_eq (hr : r.Passed) {d : ℕ} (hd : dayField r.cdays r.mdays r.ttl = .ok d) (hlt : d < 2 ^ 48) :
    l.packed r = .ok (l.numbers r d) := by
  have hmark : d ||| ((r.flags &&& KEY_FLAG_MASK) <<< KEY_FLAG_SHIFT) = withFlags d r.flags := by
    rw [and_mask_of_le 16 (by decide) hr.flags, KEY_FLAG_SHIFT, or_shiftLeft _ hlt, withFlags]
  have hsizes : r.rowSize ||| (r.valSize <<< 32) = r.rowSize + r.valSize * 2 ^ 32 := or_shiftLeft _ hr.rowSize
  unfold packed
  rw [hd]
  cases l <;> simp only [Except.map, numbers, hmark, hsizes]

/-- A row of its fields, with the dates and the lifetime as they were unpacked. -/
def KeyInfo.dated (key : List CodePoint) (fileId offset rowSize valSize ver flags : ℤ) (dates : ℕ × ℕ × Ttl) : KeyInfo ℤ :=
  ⟨key, fileId, offset, rowSize, valSize, ver, dates.1, dates.2.1, dates.2.2, flags⟩

section Unpacked

variable (key : List CodePoint) (fileId offset sizes rowSize valSize ver days flags : ℤ)

theorem Layout.unpacked_v0 : Layout.unpacked .v0 key [fileId, offset, sizes, ver, days] =
    let rowSize : ℤ := maskInt sizes 0xFFFFFFFF
    let flags := marks fileId rowSize days
    .ok (.dated key fileId offset rowSize (sizes / 2 ^ 32) ver flags (unpackDays days (has flags EXPIRE))) := rfl

theorem Layout.unpacked_v1 : Layout.unpacked .v1 key [fileId, offset, rowSize, valSize, ver, days] =
    let flags := marks fileId rowSize days
    .ok (.dated key fileId offset rowSize valSize ver flags (unpackDays days (has flags EXPIRE))) := rfl

theorem Layout.unpacked_v2 : Layout.unpacked .v2 key [fileId, offset, rowSize, valSize, ver, days, flags] =
    .ok (.dated key fileId offset rowSize valSize ver flags
      (unpackDays days (has (maskInt flags KEY_FLAG_MASK) EXPIRE))) := rfl

end Unpacked

/-- The group bit that is derived on reading would not change the row. -/
def KeyInfo.Marked (r : KeyInfo ℕ) : Prop := r.fileId = 0x10 → r.rowSize = 0 → has r.flags GROUP = true

theorem KeyInfo.Marked.or_marks (h : r.Marked) :
    r.flags ||| (if (r.rowSize : ℤ) = 0 ∧ (r.fileId : ℤ) = 0x10 then GROUP else 0) = r.flags := by
  split
  · rename_i hgroup
    have hsize : r.rowSize = 0 := by omega
    have hid : r.fileId = 0x10 := by omega
    exact or_group (h hid hsize)
  · exact Nat.or_zero _

theorem KeyInfo.Passed.marked (hr : r.Passed) (hn : ¬ r.Nameless) : r.Marked := by
  intro hid hsize
  by_cases hkey : r.key = []
  · by_contra hg
    exact hn ⟨hkey, hid, hsize, by simpa using hg⟩
  · exact hr.group hkey hid hsize

/-- **The stored numbers** give the row back, with the dates of the day field. -/
theorem Layout.unpacked_numbers {d cday : ℕ} (hrow : l = .v0 → r.rowSize < 2 ^ 32) (hflags : r.flags ≤ KEY_FLAG_MASK)
    (hmarked : l ≠ .v2 → r.Marked) (hlt : d < 2 ^ 48)
    (hdates : unpackDays d (has r.flags EXPIRE) = (cday, r.mdays, r.ttl)) :
    l.unpacked r.key ((l.numbers r d).map Nat.cast) = .ok { r with cdays := cday }.toInt := by
  cases l with
  | v0 =>
    have hor := (hmarked (by decide)).or_marks
    have hsize : r.rowSize < 2 ^ 32 := hrow rfl
    have hlow : maskInt ((r.rowSize + r.valSize * 2 ^ 32 : ℕ) : ℤ) 0xFFFFFFFF = r.rowSize := by
      rw [maskInt_natCast]
      omega
    have hhigh : ((r.rowSize + r.valSize * 2 ^ 32 : ℕ) : ℤ) / 2 ^ 32 = r.valSize := by omega
    rw [numbers, List.map_cons, List.map_cons, List.map_cons, List.map_cons, List.map_cons, List.map_nil, unpacked_v0]
    simp only
    rw [hlow, hhigh, marks_withFlags hlt hflags, hor, unpackDays_withFlags, hdates]
    rfl
  | v1 =>
    have hor := (hmarked (by decide)).or_marks
    rw [numbers, List.map_cons, List.map_cons, List.map_cons, List.map_cons, List.map_cons, List.map_cons, List.map_nil,
      unpacked_v1]
    simp only
    rw [marks_withFlags hlt hflags, hor, unpackDays_withFlags, hdates]
    rfl
  | v2 =>
    have hkept : maskInt (r.flags : ℤ) KEY_FLAG_MASK = r.flags := by
      rw [maskInt_natCast]
      exact Nat.mod_eq_of_lt (Nat.lt_succ_of_le hflags)
    rw [numbers, List.map_cons, List.map_cons, List.map_cons, List.map_cons, List.map_cons, List.map_cons, List.map_cons,
      List.map_nil, unpacked_v2, hkept, hdates]
    rfl

theorem Layout.length_numbers (d : ℕ) : (l.numbers r d).length + 1 = l.width := by cases l <;> rfl

/-- **The numbers of a row** give it back in every layout. -/
theorem Layout.unpacked_packed (hr : r.Passed) (hn : l ≠ .v2 → ¬ r.Nameless) :
    ∃ ns, l.packed r = .ok ns ∧ ns.length + 1 = l.width ∧ l.unpacked r.key (ns.map Nat.cast) = .ok r.readBack := by
  obtain ⟨d, hd, hlt, hdates⟩ := unpackDays_dayField hr.created hr.changed hr.ttl hr.whole
  rw [← hr.expire] at hdates
  exact ⟨l.numbers r d, packed_eq hr hd hlt, length_numbers d,
    unpacked_numbers (fun _ => hr.rowSize) hr.flags (fun hl => hr.marked (hn hl)) hlt hdates⟩

/-- **Derived on reading.** In the layouts that keep the flags above the day field, a row without a key
that looks like a group comes back marked as one. -/
theorem Layout.unpacked_nameless (hr : r.Passed) (hn : r.Nameless) (hl : l ≠ .v2) :
    ∃ ns r', l.packed r = .ok ns ∧ l.unpacked r.key (ns.map Nat.cast) = .ok r' ∧
      r'.flags = ((r.flags ||| GROUP : ℕ) : ℤ) := by
  obtain ⟨d, hd, hlt, -⟩ := unpackDays_dayField hr.created hr.changed hr.ttl hr.whole
  obtain ⟨-, hid, hsize, -⟩ := hn
  have hmarks : Layout.marks (r.fileId : ℤ) 0 (withFlags d r.flags) = r.flags ||| GROUP := by
    rw [marks_withFlags hlt hr.flags, if_pos ⟨rfl, by rw [hid]; rfl⟩]
  cases l with
  | v0 =>
    have hlow : maskInt ((r.rowSize + r.valSize * 2 ^ 32 : ℕ) : ℤ) 0xFFFFFFFF = 0 := by
      rw [maskInt_natCast]
      omega
    refine ⟨_, _, packed_eq hr hd hlt, unpacked_v0 .., ?_⟩
    rw [hlow]
    exact congrArg Nat.cast hmarks
  | v1 =>
    refine ⟨_, _, packed_eq hr hd hlt, unpacked_v1 .., ?_⟩
    rw [hsize]
    exact congrArg Nat.cast hmarks
  | v2 => exact absurd rfl hl

/-! ## Text -/

/-- The digits of a number. -/
def IsNum (t : List CodePoint) : Prop := t ≠ [] ∧ ∀ c ∈ t, 48 ≤ c.val ∧ c.val ≤ 57

theorem toPoint_val (c : Char) : (toPoint c).val = c.toNat := by
  have hv := c.valid
  simp only [UInt32.isValidChar, Nat.isValidChar] at hv
  have hlt : c.toNat < 0x110000 := by
    unfold Char.toNat
    omega
  exact Nat.mod_eq_of_lt hlt

theorem toChars_toPoint (s : List Char) : toChars (s.map toPoint) = s := by
  unfold toChars
  rw [List.map_map]
  conv_rhs => rw [← List.map_id s]
  refine List.map_congr_left fun c _ => ?_
  simp only [Function.comp, toPoint_val, Char.ofNat_toNat, id]

theorem natText_eq_ok {n : ℕ} {t : List CodePoint} :
    natText n = .ok t ↔ (Nat.toDigits 10 n).length ≤ MAX_STR_DIGITS ∧ t = (Nat.toDigits 10 n).map toPoint := by
  unfold natText
  simp only
  split
  · simp; omega
  · simp [eq_comm]; omega

theorem intText_natText {n : ℕ} {t : List CodePoint} (h : natText n = .ok t) : intText t = .ok (n : ℤ) := by
  obtain ⟨hlen, rfl⟩ := natText_eq_ok.1 h
  have hfil := List.length_filter_le Char.isDigit (Nat.toDigits 10 n)
  have hint : pyInt (Nat.toDigits 10 n) = some (n : ℤ) := pyInt_indexSeg n
  rw [intText, toChars_toPoint, if_neg (by omega), hint]

theorem isNum_natText {n : ℕ} {t : List CodePoint} (h : natText n = .ok t) : IsNum t := by
  obtain ⟨-, rfl⟩ := natText_eq_ok.1 h
  refine ⟨by simp [Nat.toDigits_ne_nil], ?_⟩
  intro c hc
  obtain ⟨d, hd, rfl⟩ := List.mem_map.1 hc
  have hdig : d.isDigit = true := Nat.isDigit_of_mem_toDigits (by decide) (by decide) hd
  rw [toPoint_val]
  simp only [Char.isDigit, Bool.and_eq_true, decide_eq_true_eq] at hdig
  exact ⟨UInt32.le_iff_toNat_le.1 hdig.1, UInt32.le_iff_toNat_le.1 hdig.2⟩

theorem mapM_natText {ns : List ℕ} : ∀ {texts : List (List CodePoint)}, ns.mapM natText = .ok texts →
    texts.mapM intText = .ok (ns.map Nat.cast) ∧ (∀ t ∈ texts, IsNum t) ∧ texts.length = ns.length := by
  induction ns with
  | nil => intro texts h; cases h; exact ⟨rfl, by simp, rfl⟩
  | cons n ns ih =>
    intro texts h
    rw [List.mapM_cons] at h
    cases hn : natText n with
    | error e => simp [hn, bind, Except.bind] at h
    | ok t =>
      cases hns : ns.mapM natText with
      | error e => simp [hn, hns, bind, Except.bind] at h
      | ok ts =>
        obtain rfl : t :: ts = texts := by simpa [hn, hns, bind, Except.bind, pure, Except.pure] using h
        obtain ⟨hints, hnum, hlen⟩ := ih hns
        refine ⟨?_, ?_, by simp [hlen]⟩
        · simp [List.mapM_cons, intText_natText hn, hints, bind, Except.bind, pure, Except.pure]
        · intro u hu
          rcases List.mem_cons.1 hu with rfl | hu
          · exact isNum_natText hn
          · exact hnum u hu

/-- Every number is short enough for `str`. -/
theorem mapM_natText_isOk {ns : List ℕ} :
    (∃ texts, ns.mapM natText = .ok texts) ↔ ∀ n ∈ ns, (Nat.toDigits 10 n).length ≤ MAX_STR_DIGITS := by
  induction ns with
  | nil => simp [pure, Except.pure]
  | cons n ns ih =>
    rw [List.forall_mem_cons, ← ih, List.mapM_cons]
    cases hn : natText n with
    | error e =>
      have hno : ¬ (Nat.toDigits 10 n).length ≤ MAX_STR_DIGITS := by
        intro hle
        have hok := natText_eq_ok.2 ⟨hle, rfl⟩
        rw [hn] at hok
        cases hok
      simp [hno, bind, Except.bind]
    | ok t =>
      have hyes := (natText_eq_ok.1 hn).1
      cases hns : ns.mapM natText with
      | error e => simp [hyes, bind, Except.bind]
      | ok ts => simp [hyes, bind, Except.bind, pure, Except.pure]

theorem IsNum.comma {t : List CodePoint} (h : IsNum t) : COMMA ∉ t := by
  intro hc
  have hge := (h.2 COMMA hc).1
  exact absurd hge (by decide)

theorem IsNum.bar {t : List CodePoint} (h : IsNum t) : BAR ∉ t := by
  intro hc
  have hle := (h.2 BAR hc).2
  exact absurd hle (by decide)

/-- The text ends in a digit. -/
def EndsInDigit (t : List CodePoint) : Prop := ∃ s c, t = s ++ [c] ∧ 48 ≤ c.val ∧ c.val ≤ 57

theorem IsNum.ends {t : List CodePoint} (h : IsNum t) : EndsInDigit t := by
  obtain ⟨s, c, rfl⟩ := (List.eq_nil_or_concat' t).resolve_left h.1
  exact ⟨s, c, rfl, h.2 c (by simp)⟩

theorem EndsInDigit.append {t : List CodePoint} (h : EndsInDigit t) (s : List CodePoint) : EndsInDigit (s ++ t) := by
  obtain ⟨u, c, rfl, hc⟩ := h
  exact ⟨s ++ u, c, (List.append_assoc s u [c]).symm, hc⟩

namespace JIoKEY_L

/-- The fields between the commas. -/
def cols (l : Layout) (texts : List (List CodePoint)) : List (List CodePoint) :=
  match l, texts with
  | .v0, [fileId, offset, sizes, ver, days] => [fileId, offset, sizes ++ BAR :: ver ++ BAR :: days]
  | _, texts => texts

theorem tail_eq (l : Layout) (texts : List (List CodePoint)) : tail l texts = (cols l texts).flatMap (COMMA :: ·) := by
  unfold tail cols
  split <;> simp

theorem splitOn_cols {cs : List (List CodePoint)} (h : ∀ t ∈ cs, COMMA ∉ t) (key : List CodePoint) :
    (key ++ cs.flatMap (COMMA :: ·)).splitOn COMMA = key.splitOn COMMA ++ cs := by
  induction cs generalizing key with
  | nil => simp
  | cons t cs ih =>
    have hrec := ih (fun u hu => h u (List.mem_cons_of_mem _ hu)) t
    have hone := List.splitOn_eq_singleton (h t List.mem_cons_self)
    rw [List.flatMap_cons, List.cons_append, List.splitOn_append_cons_self, hrec, hone]
    rfl

/-- **Separators in a key** are put back. -/
theorem keyOf_splitOn (key : List CodePoint) (cs : List (List CodePoint)) :
    keyOf (key.splitOn COMMA ++ cs) cs.length = key := by
  have hjoin := @List.intercalate_splitOn CodePoint key _ _ COMMA
  unfold keyOf
  rw [List.length_append]
  split
  · rw [Nat.add_sub_cancel, List.take_left' rfl, hjoin]
  · have hne : key.splitOn COMMA ≠ [] := List.splitOn_ne_nil _ _
    have hpos := List.length_pos_iff.2 hne
    obtain ⟨x, hx⟩ := List.length_eq_one_iff.1 (show (key.splitOn COMMA).length = 1 by omega)
    rw [hx] at hjoin ⊢
    simpa using hjoin

theorem ends_flatMap {cs : List (List CodePoint)} (hne : cs ≠ []) (h : ∀ t ∈ cs, EndsInDigit t) :
    EndsInDigit (cs.flatMap (COMMA :: ·)) := by
  obtain ⟨ds, t, rfl⟩ := (List.eq_nil_or_concat' cs).resolve_left hne
  have hlast := (h t (by simp)).append (ds.flatMap (COMMA :: ·) ++ [COMMA])
  simpa using hlast

theorem not_isSpace_digit {c : CodePoint} (h : 48 ≤ c.val ∧ c.val ≤ 57) : isSpace c = false := by
  unfold isSpace
  simp only [Bool.or_eq_false_iff, Bool.and_eq_false_iff, decide_eq_false_iff_not]
  omega

/-- The padding is stripped, and nothing else. -/
theorem rstrip_pad {text pad : List CodePoint} (h : EndsInDigit text) (hpad : ∀ c ∈ pad, isSpace c = true) :
    rstrip (text ++ pad) = text := by
  obtain ⟨s, c, rfl, hc⟩ := h
  have hrev : ∀ d ∈ pad.reverse, isSpace d = true := fun d hd => hpad d (List.mem_reverse.1 hd)
  unfold rstrip
  rw [List.reverse_append, List.dropWhile_append_of_pos hrev, List.reverse_append]
  simp [not_isSpace_digit hc]

end JIoKEY_L

/-! ## Padding -/

/-- What `write_key` puts behind a row. -/
def padding (n : ℕ) : Bytes := List.replicate n 32 ++ [10]

theorem padRow_eq (data : Bytes) (size : ℕ) : KeyFile.padRow data size = data ++ padding (size - data.length - 1) := by
  rw [KeyFile.padRow, padding, List.append_assoc]

/-- The same as text. -/
def padText (n : ℕ) : List CodePoint := List.replicate n 32 ++ [10]

theorem isSpace_padText {n : ℕ} : ∀ c ∈ padText n, isSpace c = true := by
  intro c hc
  rcases List.mem_append.1 hc with hc | hc
  · rw [List.eq_of_mem_replicate hc]; decide
  · rw [List.mem_singleton.1 hc]; decide

theorem encodeUtf8_pad {s : List CodePoint} {bs : Bytes} (h : encodeUtf8 s = .ok bs) (n : ℕ) :
    encodeUtf8 (s ++ padText n) = .ok (bs ++ padding n) := by
  have hany : (padText n).any isSurrogate = false := by
    rw [List.any_eq_false]
    intro c hc
    rcases List.mem_append.1 hc with hc | hc
    · rw [List.eq_of_mem_replicate hc]; decide
    · rw [List.mem_singleton.1 hc]; decide
  have hpad : (padText n).flatMap (fun c => String.utf8EncodeChar (Char.ofNat c.val)) = padding n := by
    rw [padText, padding, List.flatMap_append]
    congr 1
    induction n with
    | zero => rfl
    | succ n ih => rw [List.replicate_succ, List.flatMap_cons, ih (by simp_all [padText]), List.replicate_succ]; rfl
  unfold encodeUtf8 at h ⊢
  rw [List.any_append, hany, Bool.or_false, List.flatMap_append, hpad]
  split at h
  · cases h
  · rename_i hs
    cases h
    rw [if_neg hs]

theorem utf8Bytes_eq_ok {s : List CodePoint} {bs : Bytes} : utf8Bytes s = .ok bs ↔ encodeUtf8 s = .ok bs := by
  unfold utf8Bytes
  cases encodeUtf8 s <;> simp

theorem utf8Text_pad {s : List CodePoint} {bs : Bytes} (h : utf8Bytes s = .ok bs) (n : ℕ) :
    utf8Text (bs ++ padding n) = .ok (s ++ padText n) := by
  have henc := encodeUtf8_pad (utf8Bytes_eq_ok.1 h) n
  rw [utf8Text, decodeUtf8_encodeUtf8 henc]

/-! ## The text codec -/

namespace JIoKEY_L

theorem extra_bars {sizes ver days : List CodePoint} (hs : BAR ∉ sizes) (hv : BAR ∉ ver) (hd : BAR ∉ days) :
    extra (sizes ++ BAR :: ver ++ BAR :: days) = [sizes, ver, days].mapM intText := by
  have hsplit : (sizes ++ BAR :: ver ++ BAR :: days).splitOn BAR = [sizes, ver, days] := by
    rw [List.append_assoc, List.cons_append, List.splitOn_append_cons_self_of_not_mem hs,
      List.splitOn_append_cons_self_of_not_mem hv, List.splitOn_eq_singleton hd]
  rw [extra, hsplit]

/-- The fields that a padded row is split into. -/
theorem splitOn_padded {key : List CodePoint} {cs : List (List CodePoint)} (hne : cs ≠ [])
    (hc : ∀ t ∈ cs, COMMA ∉ t) (hd : ∀ t ∈ cs, EndsInDigit t) {bs : Bytes}
    (hbs : utf8Bytes (key ++ cs.flatMap (COMMA :: ·)) = .ok bs) (n : ℕ) :
    ∃ text, utf8Text (bs ++ padding n) = .ok text ∧ (rstrip text).splitOn COMMA = key.splitOn COMMA ++ cs := by
  refine ⟨_, utf8Text_pad hbs n, ?_⟩
  rw [rstrip_pad ((ends_flatMap hne hd).append key) isSpace_padText, splitOn_cols hc]

theorem bind_mapM {α β γ : Type} {f : α → Except Err β} (g : List β → Except Err γ) (a b : α) (xs : List α) :
    (do let x ← f a; let y ← f b; let ys ← xs.mapM f; g (x :: y :: ys)) = (a :: b :: xs).mapM f >>= g := by
  simp [List.mapM_cons]

/-- **Text.** The numbers of a row behind its key, whatever the key is. -/
theorem loads_text {ns : List ℕ} (hlen : ns.length + 1 = l.width) {key : List CodePoint}
    {texts : List (List CodePoint)} (htexts : ns.mapM natText = .ok texts) {bs : Bytes}
    (hbs : utf8Bytes (key ++ tail l texts) = .ok bs) (n : ℕ) :
    loads l (bs ++ padding n) = l.unpacked key (ns.map Nat.cast) := by
  obtain ⟨hints, hnum, hcount⟩ := mapM_natText htexts
  rw [tail_eq] at hbs
  cases l with
  | v0 =>
    simp only [Layout.width] at hlen
    match texts, hcount with
    | [fileId, offset, sizes, ver, days], _ =>
      simp only [List.forall_mem_cons] at hnum
      obtain ⟨hf, ho, hs, hv, hd, -⟩ := hnum
      have hrest : COMMA ∉ sizes ++ BAR :: ver ++ BAR :: days := by
        have hne : COMMA ≠ BAR := by decide
        simp [hs.comma, hv.comma, hd.comma, hne]
      obtain ⟨text, htext, hsplit⟩ := splitOn_padded (by simp [cols])
        (by simp only [cols, List.forall_mem_cons]; exact ⟨hf.comma, ho.comma, hrest, by simp⟩)
        (by simp only [cols, List.forall_mem_cons]; exact ⟨hf.ends, ho.ends, (hd.ends.append [BAR]).append _, by simp⟩)
        hbs n
      have hkey := keyOf_splitOn key (cols .v0 [fileId, offset, sizes, ver, days])
      simp only [cols, List.length_cons, List.length_nil] at hsplit hkey
      simp only [loads, htext, hsplit, bind, Except.bind, List.length_append, List.length_cons, List.length_nil,
        Nat.add_sub_cancel, List.drop_left, extra_bars hs.bar hv.bar hd.bar, hkey]
      have hbind := bind_mapM (Layout.unpacked .v0 key) fileId offset [sizes, ver, days] (f := intText)
      rw [hints] at hbind
      exact hbind
    | [], h | [_], h | [_, _], h | [_, _, _], h | [_, _, _, _], h => simp at h; omega
    | _ :: _ :: _ :: _ :: _ :: _ :: _, h => simp at h; omega
  | v1 =>
    simp only [Layout.width] at hlen
    have hsix : texts.length = 6 := by omega
    have hne : texts ≠ [] := by intro h; simp [h] at hsix
    obtain ⟨text, htext, hsplit⟩ := splitOn_padded hne (fun t ht => (hnum t ht).comma) (fun t ht => (hnum t ht).ends)
      hbs n
    have hkey := keyOf_splitOn key texts
    rw [hsix] at hkey
    simp only [loads, htext, hsplit, bind, Except.bind, List.length_append, hsix, Nat.add_sub_cancel, List.drop_left,
      hints, hkey, List.length_map]
    rw [if_pos (by omega)]
  | v2 =>
    simp only [Layout.width] at hlen
    have hseven : texts.length = 7 := by omega
    have hne : texts ≠ [] := by intro h; simp [h] at hseven
    obtain ⟨text, htext, hsplit⟩ := splitOn_padded hne (fun t ht => (hnum t ht).comma) (fun t ht => (hnum t ht).ends)
      hbs n
    have hkey := keyOf_splitOn key texts
    rw [hseven] at hkey
    simp only [loads, htext, hsplit, bind, Except.bind, List.length_append, hseven, Nat.add_sub_cancel, List.drop_left,
      hints, hkey, List.length_map]
    rw [if_pos (by omega)]

end JIoKEY_L

/-! ## Tuples -/

namespace TupleCodec

variable (t : TupleCodec)

/-- `json` and `marshal`: a tuple is read back, and what stands behind it is not looked at. -/
def Padded : Prop :=
  ∀ key ns bs, t.dumps key ns = .ok bs → ∀ n, t.loads (bs ++ padding n) = .ok (key, ns.map Nat.cast)

/-- `msgpack`: a tuple is read back, and its first byte says how many fields it has. -/
def Exact : Prop :=
  ∀ key ns bs, ns.length < 15 → t.dumps key ns = .ok bs →
    t.loads bs = .ok (key, ns.map Nat.cast) ∧ ∃ b rest, bs = b :: rest ∧ b.toNat = 0x90 + (ns.length + 1)

end TupleCodec

/-- The `msgpack` written in Python is one. -/
theorem msgTuples_exact {limit : ℕ} (hl : 2 ≤ limit) : (msgTuples limit).Exact := by
  intro key ns bs hlen h
  set xs : List MsgVal := .str key :: ns.map fun (n : ℕ) => .int n with hxs
  have hdump : msgDumps (.tuple xs) = .ok bs := by
    simp only [msgTuples] at h
    cases hd : msgDumps (.tuple xs) with
    | error e => simp [← hxs, hd] at h
    | ok c => simpa [← hxs, hd] using h
  have hdepth : ∀ ns : List ℕ, MsgVal.depthAll (ns.map fun (n : ℕ) => .int n) = 0 := by
    intro ns
    induction ns with
    | nil => rfl
    | cons n ns ih => simp [MsgVal.depthAll, MsgVal.depth, ih]
  have henc : MsgVal.enc (.list xs) = .ok bs := by
    rw [← hdump, msgDumps_eq (by simp [MsgVal.depth, MsgVal.depthAll, hxs, hdepth]), MsgVal.enc, MsgVal.enc]
  -- what could be packed is in range
  have hfits := (enc_isOk_iff (.list xs)).1 ⟨bs, henc⟩
  have hplainAll : ∀ ns : List ℕ, MsgVal.FitsAll (ns.map fun (n : ℕ) => .int n) →
      MsgVal.PlainAll (ns.map fun (n : ℕ) => .int n) ∧ MsgVal.levelsAll (ns.map fun (n : ℕ) => .int n) ≤ 1 := by
    intro ns
    induction ns with
    | nil => intro _; exact ⟨trivial, Nat.zero_le _⟩
    | cons n ns ih =>
      intro hf
      obtain ⟨hp, hlv⟩ := ih hf.2
      exact ⟨⟨hf.1, hp⟩, by simp only [List.map_cons, MsgVal.levelsAll, MsgVal.levels]; omega⟩
  obtain ⟨hp, hlv⟩ := hplainAll ns hfits.2.2
  have hplain : (MsgVal.list xs).Plain := ⟨trivial, hp⟩
  have hlevels : (MsgVal.list xs).levels ≤ limit := by
    simp only [hxs, MsgVal.levels, MsgVal.levelsAll]
    omega
  have hread := decodes (.list xs) hplain henc [] [] limit hlevels
  simp only [List.nil_append, List.append_nil, List.length_nil, Nat.zero_add] at hread
  have hnums : ∀ ns : List ℕ, (ns.map fun (n : ℕ) => MsgVal.int n).mapM
      MsgVal.asInt = some (ns.map Nat.cast) := by
    intro ns
    induction ns with
    | nil => rfl
    | cons n ns ih => simp [List.mapM_cons, MsgVal.asInt, ih]
  refine ⟨?_, ?_⟩
  · simp only [msgTuples, hread, hxs, hnums]
  · obtain ⟨hd, b, hhd, -, rfl⟩ := encSeq_eq_ok henc
    have hcount : xs.length = ns.length + 1 := by simp [hxs]
    rw [hcount, arrayHeader, if_pos (by omega)] at hhd
    cases hhd
    exact ⟨_, b, rfl, toNat_ofNat_lt (by omega)⟩

/-! ## The codecs -/

namespace KeyCodec

/-- What the codec relies on of its serialiser. -/
def Sound : KeyCodec → Prop
  | J json => json.Padded
  | S msgpack => msgpack.Exact
  | M marshal => marshal.Padded
  | L => True

/-- Which rows are taken: those whose tuple the serialiser takes, in 64 KiB for `msgpack`; as text,
those whose key has an encoding and whose numbers are short enough for `str`. -/
def Takes : KeyCodec → List CodePoint → List ℕ → Prop
  | J json, key, ns => ∃ bs, json.dumps key ns = .ok bs
  | S msgpack, key, ns => ∃ bs, msgpack.dumps key ns = .ok bs ∧ bs.length < 0x10000
  | M marshal, key, ns => ∃ bs, marshal.dumps key ns = .ok bs
  | L, key, ns => key.any isSurrogate = false ∧ ∀ n ∈ ns, (Nat.toDigits 10 n).length ≤ MAX_STR_DIGITS

end KeyCodec

namespace JIoKEY_S

theorem loads_packed {t : TupleCodec} (ht : t.Exact) {ns : List ℕ} (hlen : ns.length + 1 = l.width)
    (hns : l.packed r = .ok ns) {bs : Bytes} (h : dumps t l r = .ok bs) (n : ℕ) :
    loads t l (bs ++ padding n) = l.unpacked r.key (ns.map Nat.cast) := by
  cases hi : t.dumps r.key ns with
  | error e => simp [dumps, hns, hi, bind, Except.bind] at h
  | ok info =>
    obtain ⟨hback, b, rest, rfl, hb⟩ := ht r.key ns info (by cases l <;> simp [Layout.width] at hlen <;> omega) hi
    simp only [dumps, hns, hi, bind, Except.bind] at h
    split at h
    · cases h
    · rename_i hshort
      cases h
      set m := (b :: rest).length with hm
      rw [Nat.shiftRight_eq_div_pow] at hshort ⊢
      have hhi : (UInt8.ofNat (m / 2 ^ 8)).toNat = m / 2 ^ 8 := toNat_ofNat_lt (by omega)
      have hmask : m &&& 0xFF = m % 2 ^ 8 := Nat.and_two_pow_sub_one_eq_mod m 8
      have hlo : (UInt8.ofNat (m % 2 ^ 8)).toNat = m % 2 ^ 8 := toNat_ofNat_lt (by omega)
      have hjoin : ((m / 2 ^ 8) <<< 8) ||| (m % 2 ^ 8) = m := by
        rw [Nat.or_comm, or_shiftLeft _ (by omega)]
        omega
      have htake : ((b :: (rest ++ padding n)).take m) = b :: rest := by
        rw [← List.cons_append, List.take_left' hm.symm]
      rw [hlen] at hb
      simp only [List.cons_append, List.nil_append, loads, hmask, hhi, hlo, hjoin, htake, hb, hback, bind, Except.bind]
      rw [if_pos ⟨by decide, trivial⟩]

end JIoKEY_S

namespace JIoKEY_L

theorem mem_tail {texts : List (List CodePoint)} {c : CodePoint} (h : c ∈ tail l texts) :
    c = COMMA ∨ c = BAR ∨ ∃ t ∈ texts, c ∈ t := by
  unfold tail at h
  split at h
  · simp only [List.mem_append, List.mem_cons, List.cons_append] at h ⊢
    grind
  · obtain ⟨t, ht, hc⟩ := List.mem_flatMap.1 h
    rcases List.mem_cons.1 hc with rfl | hc
    · exact .inl rfl
    · exact .inr (.inr ⟨t, ht, hc⟩)

/-- What stands behind the key has an encoding. -/
theorem tail_isSurrogate {texts : List (List CodePoint)} (hnum : ∀ t ∈ texts, IsNum t) :
    (tail l texts).any isSurrogate = false := by
  rw [List.any_eq_false]
  intro c hc
  rcases mem_tail hc with rfl | rfl | ⟨t, ht, hct⟩
  · decide
  · decide
  · have hrange := (hnum t ht).2 c hct
    simp only [isSurrogate, Bool.and_eq_true, decide_eq_true_eq, not_and]
    omega

end JIoKEY_L

theorem KeyCodec.dumps_isOk_iff (c : KeyCodec) {ns : List ℕ} (hns : l.packed r = .ok ns) :
    (∃ bs, c.dumps l r = .ok bs) ↔ c.Takes r.key ns := by
  cases c with
  | J json => simp [KeyCodec.dumps, JIoKEY_J.dumps, hns, KeyCodec.Takes, bind, Except.bind]
  | M marshal => simp [KeyCodec.dumps, JIoKEY_M.dumps, hns, KeyCodec.Takes, bind, Except.bind]
  | S msgpack =>
    simp only [KeyCodec.dumps, JIoKEY_S.dumps, hns, KeyCodec.Takes, bind, Except.bind]
    cases msgpack.dumps r.key ns with
    | error e => simp
    | ok info =>
      simp only [Except.ok.injEq, exists_eq_left', Nat.shiftRight_eq_div_pow]
      split
      · simp; omega
      · simp [pure, Except.pure]; omega
  | L =>
    simp only [KeyCodec.dumps, JIoKEY_L.dumps, hns, KeyCodec.Takes, bind, Except.bind]
    rw [← mapM_natText_isOk]
    cases hm : ns.mapM natText with
    | error e => simp
    | ok texts =>
      obtain ⟨-, hnum, -⟩ := mapM_natText hm
      have htail := @JIoKEY_L.tail_isSurrogate l texts hnum
      simp only [utf8Bytes, encodeUtf8, List.any_append, htail, Bool.or_false]
      cases r.key.any isSurrogate <;> simp

/-- **What was dumped is loaded**, behind any padding: the numbers that were stored. -/
theorem KeyCodec.loads_packed {c : KeyCodec} (hc : c.Sound) {r : KeyInfo ℕ} {ns : List ℕ} (hns : l.packed r = .ok ns)
    (hlen : ns.length + 1 = l.width) {bs : Bytes} (h : c.dumps l r = .ok bs) (size : ℕ) :
    c.loads l (KeyFile.padRow bs size) = l.unpacked r.key (ns.map Nat.cast) := by
  rw [padRow_eq]
  generalize size - bs.length - 1 = n
  cases c with
  | J json =>
    simp only [KeyCodec.dumps, JIoKEY_J.dumps, hns, bind, Except.bind] at h
    simp only [KeyCodec.loads, JIoKEY_J.loads, hc r.key ns bs h n, bind, Except.bind]
  | M marshal =>
    simp only [KeyCodec.dumps, JIoKEY_M.dumps, hns, bind, Except.bind] at h
    simp only [KeyCodec.loads, JIoKEY_M.loads, hc r.key ns bs h n, bind, Except.bind]
  | S msgpack => exact JIoKEY_S.loads_packed hc hlen hns h n
  | L =>
    simp only [KeyCodec.dumps, JIoKEY_L.dumps, hns, bind, Except.bind] at h
    cases hm : ns.mapM natText with
    | error e => simp [hm] at h
    | ok texts => exact JIoKEY_L.loads_text hlen hm (by simpa [hm] using h) n

/-- **KEY rows round trip.** -/
theorem KeyCodec.loads_dumps {c : KeyCodec} (hc : c.Sound) (l : Layout) {r : KeyInfo ℕ} (hr : r.Passed)
    (hn : l ≠ .v2 → ¬ r.Nameless) :
    ∃ ns, l.packed r = .ok ns ∧ ((∃ bs, c.dumps l r = .ok bs) ↔ c.Takes r.key ns) ∧
      ∀ bs, c.dumps l r = .ok bs → ∀ size, bs.length < size →
        c.loads l (KeyFile.padRow bs size) = .ok r.readBack := by
  obtain ⟨ns, hns, hlen, hback⟩ := Layout.unpacked_packed hr hn
  refine ⟨ns, hns, c.dumps_isOk_iff hns, fun bs h size _ => ?_⟩
  rw [KeyCodec.loads_packed hc hns hlen h, hback]

/-- A `msgpack` row of a group, on day 20000, in the first layout. -/
def groupRow : KeyInfo ℕ where
  key := [97, 44, 0xE9]
  fileId := 0x10
  offset := 0
  rowSize := 0
  valSize := 9
  ver := 7
  cdays := 20000
  mdays := 29000 * 1440
  ttl := .days 30
  flags := 0x84

theorem passed_groupRow : groupRow.Passed where
  rowSize := by decide
  valSize := by decide
  created := by decide
  changed := by decide
  ttl := .days (by decide)
  whole := by decide
  flags := by decide
  expire := by decide
  group _ _ _ := by decide

theorem loads_dumps_group : ∃ bs, (KeyCodec.S (msgTuples 2)).dumps .v0 groupRow = .ok bs ∧
    (KeyCodec.S (msgTuples 2)).loads .v0 (KeyFile.padRow bs 80) = .ok groupRow.readBack := by
  have hnamed : ¬ groupRow.Nameless := fun h => absurd h.1 (by decide)
  obtain ⟨ns, -, -, hback⟩ := KeyCodec.loads_dumps (c := .S (msgTuples 2)) (msgTuples_exact (by decide)) .v0
    passed_groupRow fun _ => hnamed
  obtain ⟨bs, hbs, hlt⟩ : ∃ bs, (KeyCodec.S (msgTuples 2)).dumps .v0 groupRow = .ok bs ∧ bs.length < 80 :=
    ⟨[205, 0, 27, 150, 164, 97, 44, 195, 169, 16, 0, 207, 0, 0, 0, 9, 0, 0, 0, 0, 7, 207, 0, 132, 15, 0, 0, 0, 113, 72],
      by decide +kernel, by decide⟩
  exact ⟨bs, hbs, hback bs hbs 80 hlt⟩

/-- The same row under a key that has no encoding. -/
def surrogateRow : KeyInfo ℕ := { groupRow with key := [0xD800] }

theorem passed_surrogateRow : surrogateRow.Passed :=
  ⟨passed_groupRow.rowSize, passed_groupRow.valSize, passed_groupRow.created, passed_groupRow.changed,
    passed_groupRow.ttl, passed_groupRow.whole, passed_groupRow.flags, passed_groupRow.expire, fun _ _ _ => by decide⟩

/-- A key that has no encoding makes no row of text. -/
theorem dumps_surrogate : surrogateRow.Passed ∧ ¬ surrogateRow.Nameless ∧
    ¬ ∃ bs, KeyCodec.L.dumps .v1 surrogateRow = .ok bs := by
  have hnamed : ¬ surrogateRow.Nameless := fun h => absurd h.1 (by decide)
  refine ⟨passed_surrogateRow, hnamed, ?_⟩
  obtain ⟨ns, hns, -, -⟩ := Layout.unpacked_packed (l := .v1) passed_surrogateRow fun _ => hnamed
  rw [KeyCodec.dumps_isOk_iff .L hns]
  intro h
  exact absurd h.1 (by decide)

/-! ## The rows of `write_key` -/

def Row.keyInfo (r : Row) : KeyInfo ℕ :=
  ⟨r.key.map toPoint, r.fileId, r.offset, r.rowSize, r.valSize, r.ver, r.cdays, r.mdays, r.ttl, r.flags⟩

theorem has_group_normalFlags {a : KeyArgs} (hk : a.key ≠ []) (hi : a.fileId = 0x10) (hz : a.rowSize = 0) :
    has (normalFlags a) GROUP = true := by
  have hexp : EXPIRE.testBit 2 = false := by decide
  have hand : a.key ≠ [] ∧ a.fileId = 0x10 ∧ a.rowSize = 0 := ⟨hk, hi, hz⟩
  rw [show GROUP = 2 ^ 2 by decide, has_eq_testBit]
  simp only [normalFlags, if_pos hand, show GROUP = 2 ^ 2 by decide]
  split
  · rw [Nat.testBit_or, Nat.testBit_or, Nat.testBit_two_pow_self, Bool.or_true, Bool.true_or]
  · rw [testBit_clear, Nat.testBit_or, Nat.testBit_two_pow_self, Bool.or_true, hexp, Bool.not_false, Bool.and_true]

/-- **What `write_key` passes on** is a row that is read back, when its arguments are in range and it
was not created after it was changed. -/
theorem passed_normal {now sync : ℕ} {a : KeyArgs} (hrow : a.rowSize < 2 ^ 32) (hval : a.valSize < 2 ^ 32)
    (ht : a.ttl.Conv) (hnow : now < 2 ^ 22 * MIN_OF_DAY) (hm : ∀ m ∈ a.mdays, m < 2 ^ 22 * MIN_OF_DAY)
    (hc : a.mdays = none → ∀ c ∈ a.cdays, c ≤ now / MIN_OF_DAY) : (normal now sync a).keyInfo.Passed := by
  have hclamp : a.ttl.clamp = a.ttl := ht.clamp
  have hmask : ∀ c, c &&& SUB_DAY_MASK ≤ SUB_DAY_MASK ∧ c &&& SUB_DAY_MASK ≤ c := fun c =>
    ⟨Nat.and_le_right, Nat.and_le_left⟩
  have hmod : ∀ x, x / MIN_OF_DAY * MIN_OF_DAY ≤ x ∧ x / MIN_OF_DAY * MIN_OF_DAY % MIN_OF_DAY = 0 := fun x =>
    ⟨Nat.div_mul_le_self x MIN_OF_DAY, Nat.mul_mod_left _ _⟩
  refine ⟨hrow, hval, ?_, ?_, ?_, ?_, normalFlags_le a, ?_, ?_⟩
  · simp only [Row.keyInfo, normal, hclamp]
    cases hmd : a.mdays with
    | none =>
      have hfloor : ∀ (b : Bool) (c : ℕ), c ≤ now / MIN_OF_DAY →
          c * MIN_OF_DAY ≤ if b = true then now else now / MIN_OF_DAY * MIN_OF_DAY := by
        intro b c hle
        have hmul := Nat.mul_le_mul_right MIN_OF_DAY hle
        split
        · exact le_trans hmul (hmod now).1
        · exact hmul
      cases hcd : a.cdays with
      | none => exact hfloor _ _ le_rfl
      | some c => exact hfloor _ _ (le_trans (hmask c).2 (hc hmd c hcd))
    | some m => exact le_max_left _ _
  · simp only [Row.keyInfo, normal, hclamp]
    have hdown : ∀ x, x < 2 ^ 22 * MIN_OF_DAY → ∀ b : Bool,
        (if b = true then x else x / MIN_OF_DAY * MIN_OF_DAY) < 2 ^ 22 * MIN_OF_DAY := by
      intro x hx b
      split
      · exact hx
      · exact lt_of_le_of_lt (hmod x).1 hx
    cases hmd : a.mdays with
    | none => exact hdown now hnow _
    | some m =>
      refine max_lt ?_ (hdown m (hm m hmd) _)
      refine (Nat.mul_lt_mul_right (by decide)).2 ?_
      cases a.cdays with
      | none => exact (Nat.div_lt_iff_lt_mul (by decide)).2 hnow
      | some c => exact Nat.lt_of_le_of_lt (hmask c).1 (by decide)
  · simpa only [Row.keyInfo, normal, hclamp] using ht
  · simp only [Row.keyInfo, normal, hclamp]
    intro hsub
    rw [hsub]
    cases a.mdays with
    | none => exact (hmod now).2
    | some m =>
      simp only [Bool.false_eq_true, if_false]
      rcases max_choice (_ * MIN_OF_DAY) (m / MIN_OF_DAY * MIN_OF_DAY) with h | h <;> rw [h] <;> exact Nat.mul_mod_left _ _
  · exact has_normalFlags a
  · intro hk hi hz
    refine has_group_normalFlags ?_ hi hz
    intro hnil
    simp [Row.keyInfo, normal, hnil] at hk

end OmniJsonDb
