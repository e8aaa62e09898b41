import CeIam.Library.Numerals
import CeIam.Library.Words

/-! # Timestamps

The instant of a record as a text, from the milliseconds since the first of January 1970. -/

namespace CeIam.Timestamps

open Numerals Words

/-- The date of a day since the first of January 1970, computed in signed words: nothing comes
out when one of the steps overflows, which panics. -/
def civilFromDays (z : Int64) : Option (ℤ × UInt32 × UInt32) := do
  let z ← checked (z.toInt + 719468)
  let eraStart ← (if 0 ≤ z then some z else checked (z - 146096) : Option ℤ)
  let era := eraStart.tdiv 146097
  let eraDays ← checked (era * 146097)
  let doe ← checked (z - eraDays)
  let leapDays ← checked (doe - doe.tdiv 1460)
  let leapDays ← checked (leapDays + doe.tdiv 36524)
  let leapDays ← checked (leapDays - doe.tdiv 146096)
  let yoe := leapDays.tdiv 365
  let eraYears ← checked (era * 400)
  let y ← checked (yoe + eraYears)
  let yearDays ← checked (365 * yoe)
  let yearDays ← checked (yearDays + yoe.tdiv 4)
  let yearDays ← checked (yearDays - yoe.tdiv 100)
  let doy ← checked (doe - yearDays)
  let fifths ← checked (5 * doy)
  let fifths ← checked (fifths + 2)
  let mp := fifths.tdiv 153
  let monthDays ← checked (153 * mp)
  let monthDays ← checked (monthDays + 2)
  let d ← checked (doy - monthDays.tdiv 5)
  let d ← checked (d + 1)
  let m ← (if mp < 10 then checked (mp + 3) else checked (mp - 9) : Option ℤ)
  let d := UInt32.ofInt d
  let m := UInt32.ofInt m
  let y ← (if m ≤ 2 then checked (y + 1) else some y : Option ℤ)
  return (y, m, d)

def isoFromUnixMs (ms : UInt64) : Option String := do
  let totalSecs := ms / 1000
  let millis := ms % 1000
  let days := (totalSecs / 86400).toInt64
  let secsOfDay := totalSecs % 86400
  let (y, m, d) ← civilFromDays days
  let hh := secsOfDay / 3600
  let mm := secsOfDay % 3600 / 60
  let ss := secsOfDay % 60
  return paddedInt 4 y ++ "-" ++ padded 2 m.toNat ++ "-" ++ padded 2 d.toNat ++ "T" ++
    padded 2 hh.toNat ++ ":" ++ padded 2 mm.toNat ++ ":" ++ padded 2 ss.toNat ++ "." ++
    padded 3 millis.toNat ++ "Z"

end CeIam.Timestamps
