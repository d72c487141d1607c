import OmniJsonDb.Model.ConvTtl
import OmniJsonDb.Proof.KeyRows

/-!
# Lifetimes that can be stored

A request goes through a rounding to whole seconds, a division that rounds up and two bounds
before a KEY row takes it. Between 1439 minutes and a day the minutes come to a whole day as a
`float`, which no codec takes; a request just above a whole number of minutes or days is rounded
down to it.

* `convSecs_mono`: a longer request gives no shorter lifetime.
* `Fits`: the requests that are stored and covered.
* `conv_storable`: which those are.
-/

namespace OmniJsonDb

/-! ## The seconds -/

/-- `max(1, round(secs))`. -/
def wholeSecs (s : ℚ) : ℕ := (max 1 (halfEven s)).toNat

theorem wholeSecs_cast (s : ℚ) : (wholeSecs s : ℤ) = max 1 (halfEven s) := by
  unfold wholeSecs
  omega

theorem wholeSecs_pos (s : ℚ) : 0 < wholeSecs s := by
  unfold wholeSecs
  omega

theorem wholeSecs_mono {s t : ℚ} (h : s ≤ t) : wholeSecs s ≤ wholeSecs t := by
  have := halfEven_mono h
  unfold wholeSecs
  omega

/-- The seconds are at most half a second off, save that there is at least one. -/
theorem wholeSecs_near (s : ℚ) :
    s - 1 / 2 ≤ wholeSecs s ∧ ((wholeSecs s : ℚ) ≤ s + 1 / 2 ∨ wholeSecs s = 1) := by
  obtain ⟨h₁, h₂⟩ := halfEven_near s
  have hcast := wholeSecs_cast s
  rcases le_or_gt 1 (halfEven s) with h | h
  · have heq : (wholeSecs s : ℤ) = halfEven s := by omega
    have heq' : (wholeSecs s : ℚ) = halfEven s := by exact_mod_cast heq
    exact ⟨heq' ▸ h₁, .inl (heq' ▸ h₂)⟩
  · have heq : wholeSecs s = 1 := by omega
    have hle : (halfEven s : ℚ) ≤ 0 := by exact_mod_cast (by omega : halfEven s ≤ 0)
    rw [heq]
    exact ⟨by push_cast; linarith, .inr rfl⟩

/-- A request up to half a second above an even number of seconds is rounded down to it. -/
theorem wholeSecs_eq_of_even {s : ℚ} {w : ℕ} (h0 : 0 < w) (heven : w % 2 = 0) (h₁ : (w : ℚ) < s)
    (h₂ : s ≤ w + 1 / 2) : wholeSecs s = w := by
  have hround : halfEven s = (w : ℤ) := by
    rw [halfEven_eq_iff]
    push_cast
    rcases lt_or_eq_of_le h₂ with h | h
    · exact .inl ⟨by linarith, h⟩
    · exact .inr ⟨.inl h, by omega⟩
  unfold wholeSecs
  omega

/-! ## From seconds to a lifetime -/

/-- The lifetime of a whole number of seconds. -/
def ttlOf (n : ℕ) : Ttl :=
  if n < DAY_SEC then .mins (min ((n + 59) / 60) MAX_TTL_MINS)
  else .days (min ((n + (DAY_SEC - 1)) / DAY_SEC) MAX_TTL_DAYS)

theorem convSecs_pos {s : ℚ} (h : 0 < s) : convSecs s = some (ttlOf (wholeSecs s)) := by
  unfold convSecs
  rw [if_neg (not_le.2 h)]
  simp only
  unfold ttlOf wholeSecs
  split <;> rfl

theorem convSecs_zero : convSecs 0 = some (.days 0) := rfl

/-- Its length in seconds. -/
def Ttl.secs (t : Ttl) : ℕ := t.len * 60

theorem secs_ttlOf (n : ℕ) : (ttlOf n).secs =
    if n < DAY_SEC then (n + 59) / 60 * 60 else min ((n + 86399) / 86400) 511 * 86400 := by
  unfold ttlOf Ttl.secs DAY_SEC MAX_TTL_DAYS MAX_TTL_MINS
  split
  · rw [Ttl.len_mins]
    omega
  · rw [Ttl.len_days]
    omega

theorem secs_ttlOf_mono {m n : ℕ} (h : m ≤ n) : (ttlOf m).secs ≤ (ttlOf n).secs := by
  rw [secs_ttlOf, secs_ttlOf]
  unfold DAY_SEC
  split <;> split <;> omega

/-- The value that `conv_ttl` returns, in days. -/
def ttlValue : Option Ttl → ℚ
  | none => -1
  | some t => t.len / MIN_OF_DAY

theorem ttlValue_nonneg (t : Ttl) : 0 ≤ ttlValue (some t) := by
  unfold ttlValue
  positivity

theorem ttlValue_le {t u : Ttl} (h : t.secs ≤ u.secs) : ttlValue (some t) ≤ ttlValue (some u) := by
  unfold Ttl.secs at h
  have hle : (t.len : ℚ) ≤ u.len := by exact_mod_cast Nat.le_of_mul_le_mul_right h (by decide)
  unfold ttlValue MIN_OF_DAY
  push_cast
  linarith

/-- **A longer request** gives no shorter lifetime. -/
theorem convSecs_mono {s t : ℚ} (h : s ≤ t) : ttlValue (convSecs s) ≤ ttlValue (convSecs t) := by
  rcases lt_trichotomy s 0 with hs | rfl | hs
  · have hneg : convSecs s = none := by
      unfold convSecs
      rw [if_pos hs.le, if_pos hs]
    rw [hneg]
    cases hu : convSecs t with
    | none => exact le_rfl
    | some u => exact le_trans (by unfold ttlValue; norm_num) (ttlValue_nonneg u)
  · rw [convSecs_zero]
    rcases eq_or_lt_of_le h with rfl | ht
    · exact le_rfl
    · rw [convSecs_pos ht]
      refine ttlValue_le ?_
      unfold Ttl.secs
      rw [Ttl.len_days]
      omega
  · rw [convSecs_pos hs, convSecs_pos (hs.trans_le h)]
    exact ttlValue_le (secs_ttlOf_mono (wholeSecs_mono h))

/-! ### The spans of the engine -/

theorem halfEven_micros (n : ℕ) : halfEven ((n : ℚ) / 1000000) = roundSecs n := by
  have hdiv : (n : ℚ) = 1000000 * (n / 1000000 : ℕ) + (n % 1000000 : ℕ) := by
    exact_mod_cast (Nat.div_add_mod n 1000000).symm
  have hlt := Nat.mod_lt n (show 0 < 1000000 by decide)
  rw [halfEven_eq_iff, roundSecs]
  generalize n / 1000000 = q at *
  generalize n % 1000000 = r at *
  have h0 : (0 : ℚ) ≤ r := Nat.cast_nonneg r
  have hlt' : (r : ℚ) < 1000000 := by exact_mod_cast hlt
  split
  · rename_i h
    rcases h with h | ⟨h, heven⟩
    · have h' : (r : ℚ) < 500000 := by exact_mod_cast h
      exact .inl ⟨by push_cast; linarith, by push_cast; linarith⟩
    · have h' : (r : ℚ) = 500000 := by exact_mod_cast h
      exact .inr ⟨.inl (by push_cast; linarith), by omega⟩
  · rename_i h
    rcases Nat.lt_trichotomy r 500000 with hr | hr | hr
    · exact absurd (.inl hr) h
    · have h' : (r : ℚ) = 500000 := by exact_mod_cast hr
      exact .inr ⟨.inr (by push_cast; linarith), by omega⟩
    · have h' : (500000 : ℚ) < r := by exact_mod_cast hr
      exact .inl ⟨by push_cast; linarith, by push_cast; linarith⟩

/-- What the engine is given as a span of time is what `conv_ttl` makes of it. -/
theorem convTtl_eq (micros : ℤ) : convTtl micros = convSecs (micros / 1000000) := by
  rcases lt_trichotomy micros 0 with h | rfl | h
  · have hq : (micros : ℚ) / 1000000 < 0 := by
      have : (micros : ℚ) < 0 := by exact_mod_cast h
      linarith
    unfold convTtl convSecs
    rw [if_pos h, if_pos hq.le, if_pos hq]
  · rw [Int.cast_zero, zero_div]
    rfl
  · obtain ⟨n, rfl⟩ := Int.eq_ofNat_of_zero_le h.le
    have hq : (0 : ℚ) < (n : ℤ) / 1000000 := by
      have : (0 : ℚ) < (n : ℤ) := by exact_mod_cast h
      linarith
    rw [convSecs_pos hq]
    unfold convTtl ttlOf wholeSecs
    rw [if_neg (by omega), if_neg (by omega), Int.cast_natCast, halfEven_micros]
    simp only [Int.toNat_natCast]
    rw [show (max 1 (roundSecs n : ℤ)).toNat = max 1 (roundSecs n) by omega]
    split <;> rfl

/-! ## Storing it -/

/-- `Passed`, of a row with any lifetime. -/
structure KeyInfo.Given (r : KeyInfo ℕ) : Prop where
  rowSize : r.rowSize < 2 ^ 32
  valSize : r.valSize < 2 ^ 32
  created : r.cdays * MIN_OF_DAY ≤ r.mdays
  changed : r.mdays < 2 ^ 22 * MIN_OF_DAY
  whole : r.ttl.subDay = false → r.mdays % MIN_OF_DAY = 0
  flags : r.flags ≤ KEY_FLAG_MASK
  expire : has r.flags EXPIRE = r.ttl.pos
  group : r.key ≠ [] → r.fileId = 0x10 → r.rowSize = 0 → has r.flags GROUP = true

/-- Every built-in codec takes a row with this lifetime as far as it takes its key and its numbers, and
gives the lifetime back. -/
def Stores (t : Ttl) : Prop :=
  ∀ (c : KeyCodec) (l : Layout) (r : KeyInfo ℕ), c.Sound → r.Given → (l ≠ .v2 → ¬ r.Nameless) → r.ttl = t →
    ∃ ns, l.packed r = .ok ns ∧ ((∃ bs, c.dumps l r = .ok bs) ↔ c.Takes r.key ns) ∧
      ∀ bs, c.dumps l r = .ok bs → ∀ size, bs.length < size →
        ∃ r', c.loads l (KeyFile.padRow bs size) = .ok r' ∧ r'.ttl = t

theorem stores_of_conv {t : Ttl} (h : t.Conv) : Stores t := by
  intro c l r hc hr hn ht
  have hpassed : r.Passed :=
    ⟨hr.rowSize, hr.valSize, hr.created, hr.changed, ht ▸ h, hr.whole, hr.flags, hr.expire, hr.group⟩
  obtain ⟨ns, hns, htakes, hback⟩ := KeyCodec.loads_dumps hc l hpassed hn
  exact ⟨ns, hns, htakes, fun bs hbs size hlt => ⟨_, hback bs hbs size hlt, ht⟩⟩

/-- **A whole day in minutes** is taken by no codec: it is a `float` that is not below 1. -/
theorem not_stores_day : ¬ Stores (.mins MIN_OF_DAY) := by
  intro h
  have hgiven : ({ groupRow with ttl := .mins MIN_OF_DAY } : KeyInfo ℕ).Given :=
    ⟨by decide, by decide, by decide, by decide, fun _ => by decide, by decide, by decide, fun _ _ _ => by decide⟩
  obtain ⟨ns, hns, -⟩ := h .L .v2 _ trivial hgiven (fun hc => absurd rfl hc) rfl
  cases hns

theorem stores_ttlOf {n : ℕ} (h0 : 0 < n) : Stores (ttlOf n) ↔ ¬ (86340 < n ∧ n < 86400) := by
  constructor
  · rintro h ⟨h₁, h₂⟩
    have hday : ttlOf n = .mins MIN_OF_DAY := by
      unfold ttlOf DAY_SEC
      rw [if_pos h₂]
      unfold MAX_TTL_MINS MIN_OF_DAY
      congr 1
      omega
    exact not_stores_day (hday ▸ h)
  · intro h
    refine stores_of_conv ?_
    unfold ttlOf DAY_SEC
    split
    · refine .mins ?_ ?_ <;> unfold MAX_TTL_MINS <;> try unfold MIN_OF_DAY
      all_goals omega
    · exact .days (Nat.min_le_right _ _)

/-! ## Covering the request -/

/-- The lifetime is no shorter than the request, up to the longest one, and longer by less than a
minute, or by less than a day. -/
structure Covers (s : ℚ) (t : Ttl) : Prop where
  enough : min s (511 * 86400) ≤ t.secs
  minute : s < 86400 → t.secs - s < 60
  day : 86400 ≤ s → t.secs - s < 86400

/-- The lifetimes, in seconds, that a longer request may be rounded down to. -/
def Whole (w : ℕ) : Prop := 0 < w ∧ (w < 86400 ∧ w % 60 = 0 ∨ w < 511 * 86400 ∧ w % 86400 = 0)

/-- **Requests that fit**: not between 1439 minutes and a day, and not up to half a second above a
whole number of minutes or of days. -/
def Fits (s : ℚ) : Prop :=
  ¬ (86340 + 1 / 2 < s ∧ s < 86400 - 1 / 2) ∧ ∀ w : ℕ, Whole w → ¬ (w < s ∧ s ≤ w + 1 / 2)

theorem wholeSecs_between {s : ℚ} :
    86340 < wholeSecs s ∧ wholeSecs s < 86400 ↔ 86340 + 1 / 2 < s ∧ s < 86400 - 1 / 2 := by
  obtain ⟨hlo, hhi⟩ := wholeSecs_near s
  constructor
  · rintro ⟨h₁, h₂⟩
    have h₁' : (86341 : ℚ) ≤ wholeSecs s := by exact_mod_cast h₁
    have h₂' : (wholeSecs s : ℚ) ≤ 86399 := by exact_mod_cast (by omega : wholeSecs s ≤ 86399)
    have hup : (wholeSecs s : ℚ) ≤ s + 1 / 2 := hhi.resolve_right (by omega)
    refine ⟨lt_of_le_of_ne (by linarith) ?_, lt_of_le_of_ne (by linarith) ?_⟩
    · intro heq
      have := wholeSecs_eq_of_even (w := 86340) (by decide) (by decide) (by push_cast; linarith) (by push_cast; linarith)
      omega
    · intro heq
      have hround : halfEven s = 86400 := halfEven_eq_iff.2 (.inr ⟨.inr (by push_cast; linarith), by decide⟩)
      have := wholeSecs_cast s
      omega
  · rintro ⟨h₁, h₂⟩
    have hlt : (86340 : ℚ) < wholeSecs s := by linarith
    have hlt' : 86340 < wholeSecs s := by exact_mod_cast hlt
    refine ⟨hlt', ?_⟩
    have hup : (wholeSecs s : ℚ) ≤ s + 1 / 2 := hhi.resolve_right (by omega)
    have : (wholeSecs s : ℚ) < 86400 := by linarith
    exact_mod_cast this

/-- **Rounded down.** The lifetime is shorter than the request just where the seconds were rounded down
to a lifetime. -/
theorem short_iff {s : ℚ} : ¬ min s (511 * 86400) ≤ (ttlOf (wholeSecs s)).secs ↔
    ∃ w : ℕ, Whole w ∧ w < s ∧ s ≤ w + 1 / 2 := by
  obtain ⟨hlo, -⟩ := wholeSecs_near s
  have hpos := wholeSecs_pos s
  have hsecs := secs_ttlOf (wholeSecs s)
  unfold DAY_SEC at hsecs
  rw [not_le, lt_min_iff]
  constructor
  · rintro ⟨h₁, h₂⟩
    have h₂' : (ttlOf (wholeSecs s)).secs < 511 * 86400 := by exact_mod_cast h₂
    have hlt : ((ttlOf (wholeSecs s)).secs : ℚ) < wholeSecs s + 1 := by linarith
    have hlt' : (ttlOf (wholeSecs s)).secs < wholeSecs s + 1 := by exact_mod_cast hlt
    have heq : (ttlOf (wholeSecs s)).secs = wholeSecs s := by
      split at hsecs <;> omega
    refine ⟨wholeSecs s, ⟨hpos, ?_⟩, heq ▸ h₁, by linarith⟩
    split at hsecs <;> omega
  · rintro ⟨w, ⟨h0, hw⟩, h₁, h₂⟩
    have hn : wholeSecs s = w := wholeSecs_eq_of_even h0 (by omega) h₁ h₂
    rw [hn] at hsecs ⊢
    have heq : (ttlOf w).secs = w ∧ w < 511 * 86400 := by
      split at hsecs <;> omega
    rw [heq.1]
    exact ⟨h₁, by exact_mod_cast heq.2⟩

/-- A lifetime is never too long. -/
theorem not_long {s : ℚ} (h0 : 0 < s) : (s < 86400 → (ttlOf (wholeSecs s)).secs - s < 60) ∧
    (86400 ≤ s → (ttlOf (wholeSecs s)).secs - s < 86400) := by
  obtain ⟨hlo, hhi⟩ := wholeSecs_near s
  have hsecs := secs_ttlOf (wholeSecs s)
  unfold DAY_SEC at hsecs
  constructor
  · intro hs
    rcases hhi with hhi | hone
    · by_cases hn : wholeSecs s < 86400
      · rw [if_pos hn] at hsecs
        have hle : ((ttlOf (wholeSecs s)).secs : ℚ) ≤ wholeSecs s + 59 := by
          exact_mod_cast (by omega : (ttlOf (wholeSecs s)).secs ≤ wholeSecs s + 59)
        linarith
      · have hle : (wholeSecs s : ℚ) < 86401 := by linarith
        have hle' : wholeSecs s < 86401 := by exact_mod_cast hle
        have heq : (ttlOf (wholeSecs s)).secs = wholeSecs s := by
          rw [if_neg hn] at hsecs
          omega
        rw [heq]
        linarith
    · rw [hone] at hsecs ⊢
      have heq : (ttlOf 1).secs = 60 := hsecs
      rw [heq]
      push_cast
      linarith
  · intro hs
    have hge : (86399 : ℚ) < wholeSecs s := by linarith
    have hge' : 86399 < wholeSecs s := by exact_mod_cast hge
    have hhi' : (wholeSecs s : ℚ) ≤ s + 1 / 2 := hhi.resolve_right (by omega)
    have hle : ((ttlOf (wholeSecs s)).secs : ℚ) ≤ wholeSecs s + 86399 := by
      have : (ttlOf (wholeSecs s)).secs ≤ wholeSecs s + 86399 := by
        rw [if_neg (by omega)] at hsecs
        omega
      exact_mod_cast this
    linarith

/-- **Lifetimes that can be stored.** A request that is not negative is stored by every codec and
covered precisely when it fits; and a longer request never gives a shorter lifetime. -/
theorem conv_storable (ttl : TtlReq) (s : ℚ) (hs : ttl.secs = some s) (h0 : 0 ≤ s) :
    ((∃ t, ttl.conv = .ok (some t) ∧ Stores t ∧ Covers s t) ↔ Fits s) ∧
      ∀ (ttl' : TtlReq) (s' : ℚ), ttl'.secs = some s' → s ≤ s' →
        ∃ t t', ttl.conv = .ok t ∧ ttl'.conv = .ok t' ∧ ttlValue t ≤ ttlValue t' := by
  have hconv : ∀ (ttl : TtlReq) (s : ℚ), ttl.secs = some s → ttl.conv = .ok (convSecs s) := by
    intro ttl s hs
    cases ttl with
    | none | other => cases hs
    | int n | float q | delta micros =>
      obtain rfl := Option.some.inj hs
      rfl
  refine ⟨?_, fun ttl' s' hs' hle => ⟨_, _, hconv ttl s hs, hconv ttl' s' hs', convSecs_mono hle⟩⟩
  rw [hconv ttl s hs]
  rcases eq_or_lt_of_le h0 with rfl | hpos
  · refine iff_of_true ⟨.days 0, rfl, stores_of_conv (.days (Nat.zero_le _)), ?_⟩ ?_
    · exact ⟨by simp [Ttl.secs, Ttl.len_days], by simp [Ttl.secs, Ttl.len_days], fun h => by norm_num at h⟩
    · refine ⟨fun h => by norm_num at h, fun w _ hw => ?_⟩
      have := hw.1
      exact absurd this (not_lt.2 (Nat.cast_nonneg w))
  · rw [convSecs_pos hpos]
    have hcov : Covers s (ttlOf (wholeSecs s)) ↔ ∀ w : ℕ, Whole w → ¬ (w < s ∧ s ≤ w + 1 / 2) := by
      obtain ⟨hmin, hday⟩ := not_long hpos
      have hshort := not_iff_comm.1 (short_iff (s := s))
      constructor
      · intro hc w hw hlt
        exact hshort.2 hc.enough ⟨w, hw, hlt⟩
      · intro h
        exact ⟨hshort.1 (fun ⟨w, hw, hlt⟩ => h w hw hlt), hmin, hday⟩
    have hst := stores_ttlOf (wholeSecs_pos s)
    rw [wholeSecs_between] at hst
    constructor
    · rintro ⟨t, ht, hstore, hc⟩
      obtain rfl := Option.some.inj (Except.ok.inj ht)
      exact ⟨hst.1 hstore, hcov.1 hc⟩
    · rintro ⟨hday, hw⟩
      exact ⟨_, rfl, hst.2 hday, hcov.2 hw⟩

/-- A span of 61 seconds. -/
theorem conv_storable_minute : ∃ t, (TtlReq.delta 61000000).conv = .ok (some t) ∧ Stores t ∧ Covers 61 t := by
  have hs : (TtlReq.delta 61000000).secs = some 61 := by
    unfold TtlReq.secs
    norm_num
  refine (conv_storable (.delta 61000000) 61 hs (by norm_num)).1.2 ⟨fun h => ?_, fun w _ hw => ?_⟩
  · norm_num at h
  · have h₁ : w < 61 := by exact_mod_cast hw.1
    have h₂ : (w : ℚ) ≤ 60 := by exact_mod_cast (by omega : w ≤ 60)
    linarith [hw.2]

/-- **Half a minute less than a day** is stored by no codec. -/
theorem conv_fails : ¬ ∃ t, (TtlReq.delta 86370000000).conv = .ok (some t) ∧ Stores t := by
  rintro ⟨t, ht, hstore⟩
  have hconv : (TtlReq.delta 86370000000).conv = .ok (some (.mins MIN_OF_DAY)) := by
    have hround : halfEven (86370 : ℚ) = 86370 := by exact_mod_cast halfEven_intCast (86370 : ℤ)
    have hsecs : ((86370000000 : ℤ) : ℚ) / 1000000 = 86370 := by norm_num
    simp only [TtlReq.conv]
    rw [hsecs, convSecs_pos (by norm_num), wholeSecs, hround]
    rfl
  rw [hconv] at ht
  obtain rfl := Option.some.inj (Except.ok.inj ht)
  exact not_stores_day hstore

end OmniJsonDb
