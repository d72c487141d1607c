import OmniJsonDb.Model.Flags

/-!
# KEY rows

A KEY row as the engine hands it around (`Row`), as it is stored (`KeyRec`, with
the three dates packed into one number), and the normalisation `write_key` does
before it encodes. Dates with a minute are counted in minutes, creation dates in
days.

* `packRow`, `unpackRow`: the row codec of format 2.
* `normal`: what `write_key` makes of its arguments.
* `normal_core`: which of them it leaves alone.
-/

namespace OmniJsonDb

/-- What a call can raise. `hang` is a loop that never ends. -/
inductive Err where
  | key
  | type
  | value
  | struct
  | overflow
  | hang
  deriving DecidableEq, Repr

/-! ## Lifetimes -/

def MIN_OF_DAY : ℕ := 1440
def DAY_SEC : ℕ := 86400
def MAX_TTL_DAYS : ℕ := 511
def MAX_TTL_MINS : ℕ := 2047

/-- A lifetime: whole days (an `int`), or minutes (a `float` number of days). -/
inductive Ttl where
  | days (n : ℕ)
  | mins (m : ℕ)
  deriving DecidableEq, Repr

namespace Ttl

/-- The length in minutes: two lifetimes are `==` when their lengths are. -/
def len : Ttl → ℕ
  | days n => n * MIN_OF_DAY
  | mins m => m

/-- `0 < ttl`. -/
def pos (t : Ttl) : Bool := 0 < t.len

/-- `0 < ttl < 1`. -/
def subDay (t : Ttl) : Bool := 0 < t.len && t.len < MIN_OF_DAY

/-- `0 if ttl <= 0 else min(ttl, MAX_TTL_DAYS)`. -/
def clamp (t : Ttl) : Ttl :=
  if t.len = 0 then days 0 else if t.len < MAX_TTL_DAYS * MIN_OF_DAY then t else days MAX_TTL_DAYS

end Ttl

/-- A caller's `ttl`: an `int`, or a span of time in microseconds. -/
inductive TtlArg where
  | int (n : ℤ)
  | span (micros : ℤ)
  deriving DecidableEq, Repr

/-- `round`: to the nearest whole second, ties to even. -/
def roundSecs (micros : ℕ) : ℕ :=
  let q := micros / 1000000
  let r := micros % 1000000
  if r < 500000 ∨ (r = 500000 ∧ q % 2 = 0) then q else q + 1

/-- `conv_ttl` of a span; `none` is `-1`, leave it as it is. -/
def convTtl (micros : ℤ) : Option Ttl :=
  if micros < 0 then none
  else if micros = 0 then some (.days 0)
  else
    let secs := max 1 (roundSecs micros.toNat)
    if secs < DAY_SEC then some (.mins (min ((secs + 59) / 60) MAX_TTL_MINS))
    else some (.days (min ((secs + (DAY_SEC - 1)) / DAY_SEC) MAX_TTL_DAYS))

/-- A caller's `ttl` in days; `none` when it is negative. -/
def TtlArg.toTtl : TtlArg → Option Ttl
  | int n => if n < 0 then none else some (.days (min n.toNat MAX_TTL_DAYS))
  | span micros => convTtl micros

/-! ## Rows -/

/-- The fields of a row that say whose value it is and where that value lies. -/
@[ext] structure Slot where
  key : Key
  fileId : ℕ
  offset : ℕ
  rowSize : ℕ
  valSize : ℕ
  ver : ℕ
  deriving DecidableEq, Repr

/-- A slot with the flags of its record: what a value is decoded from. -/
@[ext] structure Core extends Slot where
  flags : ℕ
  deriving DecidableEq, Repr

/-- A row as `read_key` returns it: `cdays` counts days, `mdays` minutes. -/
@[ext] structure Row extends Core where
  cdays : ℕ
  mdays : ℕ
  ttl : Ttl
  deriving DecidableEq, Repr

/-- The last day a `date` has, counted from its first: the end of the year 9999. -/
def MAX_DATE_DAY : ℕ := 3652058

/-- Both dates of a row are dates that `date` has. -/
def Row.Dated (r : Row) : Prop := r.cdays ≤ MAX_DATE_DAY ∧ r.mdays / MIN_OF_DAY ≤ MAX_DATE_DAY

instance (r : Row) : Decidable r.Dated := inferInstanceAs (Decidable (_ ∧ _))

/-- A row as it is stored. -/
structure KeyRec where
  key : Key
  fileId : ℕ
  offset : ℕ
  rowSize : ℕ
  valSize : ℕ
  ver : ℕ
  days : ℕ
  flags : ℕ
  deriving DecidableEq, Repr

def OLD_DAY_MASK : ℕ := 0x3FFFFFF
def NEW_DAY_SHIFT : ℕ := 26
def MAX_DAY_DELTA : ℕ := 0x3FFFFF
def SUB_DAY_BIT : ℕ := 0x400000
def SUB_DAY_MASK : ℕ := 0x3FFFFF
def TTL_SHIFT : ℕ := 39
def TTL_DAY_MASK : ℕ := 0x1FF
def MAX_EXP_DELTA : ℕ := 0x1FFF
def TTL_MIN_SHIFT : ℕ := 37
def MIN_FIELD : ℕ := 0x7FF
def SUB_DELTA_SHIFT : ℕ := 23
def MAX_SUB_DELTA : ℕ := 7

/-- The low `w + 1` bits of a number that may be negative, `w` all ones. -/
def maskInt (d : ℤ) (w : ℕ) : ℕ := (d % (w + 1 : ℕ)).toNat

/-- The minute layout of the day field. -/
def packDays (cdays mdays ttl : ℕ) : ℕ :=
  let mday := mdays / MIN_OF_DAY
  let delta : ℤ := mday - cdays
  if mday > SUB_DAY_MASK then
    let (cday, delta) := if delta > MAX_EXP_DELTA then (mday, 0) else (cdays, delta)
    (cday &&& OLD_DAY_MASK) ||| (maskInt delta MAX_EXP_DELTA <<< NEW_DAY_SHIFT)
  else
    let ttl := max 1 (min ttl MAX_TTL_MINS)
    let (cday, delta) := if 0 ≤ delta ∧ delta ≤ MAX_SUB_DELTA then (cdays, delta.toNat) else (mday, 0)
    (cday &&& SUB_DAY_MASK) ||| (delta <<< SUB_DELTA_SHIFT) ||| SUB_DAY_BIT
      ||| ((mdays % MIN_OF_DAY) <<< NEW_DAY_SHIFT) ||| (ttl <<< TTL_MIN_SHIFT)

/-- The day field of a row; a whole-day lifetime that is not an `int` cannot be shifted. -/
def dayField (cdays mdays : ℕ) (ttl : Ttl) : Except Err ℕ :=
  if ttl.len = 0 then
    if mdays > cdays * MIN_OF_DAY then
      .ok ((cdays &&& OLD_DAY_MASK) |||
        (((mdays / MIN_OF_DAY - cdays) &&& MAX_DAY_DELTA) <<< NEW_DAY_SHIFT))
    else .ok (cdays &&& OLD_DAY_MASK)
  else if ttl.subDay then .ok (packDays cdays mdays ttl.len)
  else
    match ttl.clamp with
    | .mins _ => .error .value
    | .days n =>
      let delta : ℤ := (mdays / MIN_OF_DAY : ℕ) - cdays
      if delta > MAX_EXP_DELTA then
        .ok (((cdays + delta.toNat) &&& OLD_DAY_MASK) ||| (n <<< TTL_SHIFT))
      else .ok (cdays ||| (maskInt delta MAX_EXP_DELTA <<< NEW_DAY_SHIFT) ||| (n <<< TTL_SHIFT))

/-- `KEY_dumps`, up to the bytes: the fields it stores. -/
def packRow (r : Row) : Except Err KeyRec :=
  match dayField r.cdays r.mdays r.ttl with
  | .error e => .error e
  | .ok days => .ok
    { key := r.key, fileId := r.fileId, offset := r.offset, rowSize := r.rowSize,
      valSize := r.valSize, ver := r.ver, days := days, flags := r.flags }

/-- `KEY_loads`, from the stored fields. -/
def unpackRow (k : KeyRec) : Row where
  key := k.key
  fileId := k.fileId
  offset := k.offset
  rowSize := k.rowSize
  valSize := k.valSize
  ver := k.ver
  flags := k.flags
  cdays := if has k.flags EXPIRE && has k.days SUB_DAY_BIT then k.days &&& SUB_DAY_MASK
    else k.days &&& OLD_DAY_MASK
  mdays :=
    if has k.flags EXPIRE then
      if has k.days SUB_DAY_BIT then
        ((k.days &&& SUB_DAY_MASK) + ((k.days >>> SUB_DELTA_SHIFT) &&& MAX_SUB_DELTA)) * MIN_OF_DAY
          + ((k.days >>> NEW_DAY_SHIFT) &&& MIN_FIELD)
      else ((k.days &&& OLD_DAY_MASK) + ((k.days >>> NEW_DAY_SHIFT) &&& MAX_EXP_DELTA)) * MIN_OF_DAY
    else ((k.days &&& OLD_DAY_MASK) + ((k.days >>> NEW_DAY_SHIFT) &&& MAX_DAY_DELTA)) * MIN_OF_DAY
  ttl :=
    if has k.flags EXPIRE then
      if has k.days SUB_DAY_BIT then .mins ((k.days >>> TTL_MIN_SHIFT) &&& MAX_TTL_MINS)
      else .days ((k.days >>> TTL_SHIFT) &&& TTL_DAY_MASK)
    else .days 0

/-! ## Normalisation -/

/-- The arguments of `write_key`: a date or a version left out is `none`. -/
structure KeyArgs where
  key : Key
  fileId : ℕ
  offset : ℕ
  rowSize : ℕ
  valSize : ℕ := 0
  ver : Option ℕ := none
  cdays : Option ℕ := none
  mdays : Option ℕ := none
  ttl : Ttl := .days 0
  flags : ℕ := 0
  deriving DecidableEq, Repr

/-- The flags of a row: the group bit follows its type id, the expire bit its lifetime. -/
def normalFlags (a : KeyArgs) : ℕ :=
  let flags := (a.flags &&& KEY_FLAG_MASK) |||
    (if a.key ≠ [] ∧ a.fileId = 0x10 ∧ a.rowSize = 0 then GROUP else 0)
  if a.ttl.clamp.pos then flags ||| EXPIRE else clear flags EXPIRE

theorem normalFlags_le (a : KeyArgs) : normalFlags a ≤ KEY_FLAG_MASK := by
  have hmask : a.flags &&& KEY_FLAG_MASK < 2 ^ 16 := by
    have hle : a.flags &&& KEY_FLAG_MASK ≤ KEY_FLAG_MASK := Nat.and_le_right
    unfold KEY_FLAG_MASK at *
    omega
  have hgroup : (a.flags &&& KEY_FLAG_MASK) ||| (if a.key ≠ [] ∧ a.fileId = 0x10 ∧ a.rowSize = 0 then GROUP else 0)
      < 2 ^ 16 := by
    refine Nat.or_lt_two_pow hmask ?_
    split <;> decide
  have hall : normalFlags a < 2 ^ 16 := by
    unfold normalFlags
    dsimp only
    split
    · exact Nat.or_lt_two_pow hgroup (by decide)
    · exact Nat.xor_lt_two_pow hgroup (lt_of_le_of_lt Nat.and_le_left hgroup)
  unfold KEY_FLAG_MASK
  omega

/-- The row `write_key` encodes, at minute `now` and session counter `sync`. -/
def normal (now sync : ℕ) (a : KeyArgs) : Row :=
  let ttl := a.ttl.clamp
  let cdays := match a.cdays with
    | none => now / MIN_OF_DAY
    | some c => c &&& SUB_DAY_MASK
  { key := a.key, fileId := a.fileId, offset := a.offset, rowSize := a.rowSize,
    valSize := a.valSize, ver := a.ver.getD sync, flags := normalFlags a, ttl := ttl, cdays := cdays
    mdays := match a.mdays with
      | none => if ttl.subDay then now else now / MIN_OF_DAY * MIN_OF_DAY
      | some m => max (cdays * MIN_OF_DAY)
          (if ttl.subDay then m else m / MIN_OF_DAY * MIN_OF_DAY) }

/-- A row as arguments: what `write_key(fp, dst, *read_key(fp, src))` passes. -/
def Row.args (r : Row) : KeyArgs where
  key := r.key
  fileId := r.fileId
  offset := r.offset
  rowSize := r.rowSize
  valSize := r.valSize
  ver := some r.ver
  cdays := some r.cdays
  mdays := some r.mdays
  ttl := r.ttl
  flags := r.flags

/-! ## What is kept -/

/-- Encoding and decoding a row keeps everything but its dates. -/
theorem unpackRow_core {r : Row} {k : KeyRec} (h : packRow r = .ok k) :
    (unpackRow k).toCore = r.toCore := by
  unfold packRow at h
  split at h
  · cases h
  · cases h; rfl

/-- A row that cannot be packed has a lifetime that cannot. -/
theorem packRow_error {r : Row} {e : Err} (h : packRow r = .error e) : e = .value := by
  unfold packRow at h
  split at h
  · rename_i hd
    cases h
    unfold dayField at hd
    grind
  · cases h

end OmniJsonDb
