import Mathlib.Data.Rat.Floor
import OmniJsonDb.Lib.HalfEven
import OmniJsonDb.Model.Row

/-!
# What a caller asks for as a lifetime

`conv_ttl` of every type it takes, on exact numbers: a `float` is the rational that it stands for.

* `TtlReq.conv`: `conv_ttl`.
-/

namespace OmniJsonDb

/-- A caller's `ttl`: `delta` is a `timedelta` in microseconds, `other` any type that is refused. -/
inductive TtlReq where
  | none
  | int (n : ℤ)
  | float (q : ℚ)
  | delta (micros : ℤ)
  | other
  deriving DecidableEq

namespace TtlReq

/-- The request in seconds. -/
def secs : TtlReq → Option ℚ
  | int n => some (n * DAY_SEC)
  | float q => some (q * DAY_SEC)
  | delta micros => some (micros / 1000000)
  | none | other => Option.none

end TtlReq

/-- `conv_ttl` from the seconds on; `none` is `-1`. -/
def convSecs (secs : ℚ) : Option Ttl :=
  if secs ≤ 0 then if secs < 0 then none else some (.days 0)
  else
    let n := (max 1 (halfEven secs)).toNat
    if n < DAY_SEC then some (.mins (min ((n + 59) / 60) MAX_TTL_MINS))
    else some (.days (min ((n + (DAY_SEC - 1)) / DAY_SEC) MAX_TTL_DAYS))

/-- `conv_ttl`. -/
def TtlReq.conv : TtlReq → Except Err (Option Ttl)
  | none => .ok Option.none
  | other => .error .value
  | int n => .ok (convSecs (n * DAY_SEC))
  | float q => .ok (convSecs (q * DAY_SEC))
  | delta micros => .ok (convSecs (micros / 1000000))

end OmniJsonDb
