import Mathlib.Algebra.Order.Ring.Int
import QuicTls.Theory.CTypes

/-!
# Times with offsets (crypto/o_time.c)

A `long` has 64 bits and an `int` 32, so the conversion of a `long` to an `int` may lose something.
The sums and products stay inside their types and are those of the integers; the divisions truncate.
-/

namespace QuicTls.Time

/-- The part of `struct tm` that is used. -/
structure Tm where
  tmSec : Int
  tmMin : Int
  tmHour : Int
  tmMday : Int
  tmMon : Int
  tmYear : Int
  deriving DecidableEq, Repr

def secsPerDay : Int := 24 * 60 * 60

def dateToJulian (y m d : Int) : Int :=
  (1461 * (y + 4800 + (m - 14).tdiv 12)).tdiv 4
    + (367 * (m - 2 - 12 * (m - 14).tdiv 12)).tdiv 12
    - (3 * (y + 4900 + (m - 14).tdiv 12).tdiv 100).tdiv 4 + d - 32075

/-- `julian_to_date`: year, month and day -/
def julianToDate (jd : Int) : Int × Int × Int :=
  let L := jd + 68569
  let n := (4 * L).tdiv 146097
  let L := L - (146097 * n + 3).tdiv 4
  let i := (4000 * (L + 1)).tdiv 1461001
  let L := L - (1461 * i).tdiv 4 + 31
  let j := (80 * L).tdiv 2447
  let d := toInt32 (L - (2447 * j).tdiv 80)
  let L := j.tdiv 11
  let m := toInt32 (j + 2 - 12 * L)
  let y := toInt32 (100 * (n - 49) + i + L)
  (y, m, d)

/-- `julian_adj`: the Julian day and the second of the day -/
def julianAdj (tm : Tm) (offDay offsetSec : Int) : Option (Int × Int) :=
  let offsetDay := offsetSec.tdiv secsPerDay
  let offsetHms := toInt32 (offsetSec - offsetDay * secsPerDay)
  let offsetDay := offsetDay + offDay
  let offsetHms := offsetHms + (tm.tmHour * 3600 + tm.tmMin * 60 + tm.tmSec)
  let (offsetDay, offsetHms) :=
    if offsetHms ≥ secsPerDay then (offsetDay + 1, offsetHms - secsPerDay)
    else if offsetHms < 0 then (offsetDay - 1, offsetHms + secsPerDay)
    else (offsetDay, offsetHms)
  let timeJd := dateToJulian (tm.tmYear + 1900) (tm.tmMon + 1) tm.tmMday + offsetDay
  if timeJd < 0 then none else some (timeJd, offsetHms)

/-- The time of a Julian day and a second of the day, if its year is in the range. -/
def updateTm (timeJd timeSec : Int) : Option Tm :=
  let date := julianToDate timeJd
  if date.1 < 1900 ∨ date.1 > 9999 then none
  else
    some ⟨timeSec.tmod 60, (timeSec.tdiv 60).tmod 60, timeSec.tdiv 3600, date.2.2, date.2.1 - 1,
      date.1 - 1900⟩

/-- `OPENSSL_gmtime_adj`; a failure leaves the time as it was -/
def opensslGmtimeAdj (tm : Tm) (offDay offsetSec : Int) : Option Tm :=
  (julianAdj tm offDay offsetSec).bind fun time => updateTm time.1 time.2

/-- The differences of days and of seconds with the same sign. -/
def sameSign (diffDay diffSec : Int) : Int × Int :=
  let (diffDay, diffSec) :=
    if diffDay > 0 ∧ diffSec < 0 then (diffDay - 1, diffSec + secsPerDay) else (diffDay, diffSec)
  if diffDay < 0 ∧ diffSec > 0 then (diffDay + 1, diffSec - secsPerDay) else (diffDay, diffSec)

/-- `OPENSSL_gmtime_diff`: days and seconds -/
def opensslGmtimeDiff (fromTm toTm : Tm) : Option (Int × Int) :=
  (julianAdj fromTm 0 0).bind fun start =>
    (julianAdj toTm 0 0).map fun time =>
      let diff := sameSign (time.1 - start.1) (time.2 - start.2)
      (toInt32 diff.1, diff.2)

end QuicTls.Time
