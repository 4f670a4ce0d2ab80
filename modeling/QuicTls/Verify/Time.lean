import QuicTls.Theory.Gregorian
import QuicTls.Crypto.Time
import Mathlib.Tactic.IntervalCases

/-!
# Times with offsets are exact

The Julian day is the number of the day in the calendar, up to a constant. The offset is added
exactly, but the year is narrowed to an `int` before it is compared with 9999 (`gmtime_exact_iff`).
-/

namespace QuicTls.Time

open Gregorian Int

theorem daysOfMonths_eq (y : Int) {m : Nat} (hpos : 1 ≤ m) (hle : m ≤ 12) :
    daysOfMonths y (m - 1) =
      if m ≤ 2 then 31 * ((m : Int) - 1)
      else (367 * m - 362) / 12 - 2 + if IsLeap y then 1 else 0 := by
  have hfeb : monthLength y 2 = 28 + if IsLeap y then 1 else 0 := by
    rw [monthLength, if_pos rfl]
    split <;> rfl
  have hlong : monthLength y 1 = 31 ∧ monthLength y 3 = 31 ∧ monthLength y 5 = 31 ∧
      monthLength y 7 = 31 ∧ monthLength y 8 = 31 ∧ monthLength y 10 = 31 :=
    ⟨rfl, rfl, rfl, rfl, rfl, rfl⟩
  have hshort : monthLength y 4 = 30 ∧ monthLength y 6 = 30 ∧ monthLength y 9 = 30 ∧
      monthLength y 11 = 30 := ⟨rfl, rfl, rfl, rfl⟩
  interval_cases m <;>
    simp only [daysOfMonths, Nat.reduceSub, hlong] <;> norm_num <;>
    omega

/-- The number of a day counted in years that begin in March, so that the leap day comes last. -/
theorem number_march (t : Date) : t.number =
    if t.month ≤ 2 then
      365 * (t.year - 1) + (t.year - 1) / 4 - (t.year - 1) / 100 + (t.year - 1) / 400
        + 31 * (t.month - 1) + t.day
    else
      365 * (t.year - 1) + t.year / 4 - t.year / 100 + t.year / 400
        + (367 * t.month - 362) / 12 - 2 + t.day := by
  have hleap : daysBeforeYear t.year + (if IsLeap t.year then 1 else 0) =
      365 * (t.year - 1) + t.year / 4 - t.year / 100 + t.year / 400 := by
    rw [daysBeforeYear]
    split <;> rename_i h <;> rw [IsLeap] at h <;> omega
  rw [Date.number, daysOfMonths_eq t.year t.month_pos t.month_le]
  split
  · rw [daysBeforeYear]
  · omega

/-- The first and the last term of the Julian day, for a year that begins in March. -/
theorem julian_year {y : Int} (hy : -4701 ≤ y) :
    (1461 * (y + 4800)).tdiv 4 - (3 * (y + 4900).tdiv 100).tdiv 4 =
      365 * y + y / 4 - y / 100 + y / 400 + 1753164 := by
  have hcentury : (y + 4900).tdiv 100 = y / 100 + 49 := by
    rw [tdiv_eq_ediv_of_nonneg (by omega)]
    omega
  have hfour : y / 400 = y / 100 / 4 := by omega
  rw [tdiv_eq_ediv_of_nonneg (by omega), tdiv_eq_ediv_of_nonneg (by omega)]
  omega

/-- `date_to_julian` counts the days of the calendar. -/
theorem dateToJulian_eq (t : Date) (hy : -4700 ≤ t.year) :
    dateToJulian t.year t.month t.day = t.number + 1721425 := by
  have hpos := t.month_pos
  have hle := t.month_le
  have hmarch : ((t.month : Int) - 14).tdiv 12 = if t.month ≤ 2 then -1 else 0 := by
    generalize t.month = m at hpos hle
    interval_cases m <;> rfl
  rw [number_march, dateToJulian, hmarch]
  split
  · have hyear := julian_year (show -4701 ≤ t.year - 1 by omega)
    have hfirst : t.year + 4800 + -1 = t.year - 1 + 4800 := by omega
    have hlast : t.year + 4900 + -1 = t.year - 1 + 4900 := by omega
    rw [hfirst, hlast, tdiv_eq_ediv_of_nonneg (show 0 ≤ 367 * ((t.month : Int) - 2 - 12 * -1) by
      omega)]
    omega
  · have hyear := julian_year (show -4701 ≤ t.year by omega)
    rw [add_zero, add_zero, mul_zero, sub_zero,
      tdiv_eq_ediv_of_nonneg (show 0 ≤ 367 * ((t.month : Int) - 2) by omega)]
    omega

/-- The centuries and years that begin in March of the day `L`, and the day in its year; the last
day of a leap year is the leap day. -/
theorem march_year {L n L₁ i k : Int} (hn : n = 4 * L / 146097)
    (hL₁ : L₁ = L - (36524 * n + (n + 3) / 4)) (hi : i = 4000 * (L₁ + 1) / 1461001)
    (hk : k = L₁ - (365 * i + i / 4)) :
    (0 ≤ i ∧ i ≤ 99) ∧ (0 ≤ k ∧ k ≤ 365) ∧ (k = 365 → IsLeap (100 * (n - 49) + i + 1)) := by
  have hcenturies : 0 ≤ L₁ ∧ L₁ ≤ 36524 ∧ (L₁ = 36524 → n % 4 = 0) := by omega
  have hyear : 0 ≤ i ∧ i ≤ 99 := by omega
  have hday : 0 ≤ k ∧ k ≤ 365 := by omega
  refine ⟨hyear, hday, fun hlast => ?_⟩
  have hfour : i % 4 = 3 := by omega
  have hcentury : i = 99 → n % 4 = 0 := by omega
  rw [IsLeap]
  omega

/-- The month and the day of the day `k` of a year `y` that begins in March. -/
theorem march_month {y k j : Int} (hk : 0 ≤ k ∧ k ≤ 365) (hleap : k = 365 → IsLeap (y + 1))
    (hj : j = 80 * (k + 31) / 2447) :
    ∃ t : Date, t.year = y + j / 11 ∧ (t.month : Int) = j + 2 - 12 * (j / 11) ∧
      t.day = k + 31 - 2447 * j / 80 ∧
      t.number = 365 * y + y / 4 - y / 100 + y / 400 + k - 305 := by
  have hbounds : 2447 * j ≤ 80 * (k + 31) ∧ 80 * (k + 31) < 2447 * (j + 1) := by omega
  have hrange : 1 ≤ j ∧ j ≤ 12 := by omega
  obtain hspring | rfl | rfl : j ≤ 10 ∨ j = 11 ∨ j = 12 := by omega
  · -- from March to December
    have hlen : k + 31 - 2447 * j / 80 ≤ monthLength y (j + 2).toNat := by
      obtain ⟨hlow, -⟩ := hrange
      interval_cases j <;> simp [monthLength] <;> omega
    have htable : (367 * (j + 2) - 362) / 12 = 2447 * j / 80 + 31 := by
      obtain ⟨hlow, -⟩ := hrange
      interval_cases j <;> rfl
    have hmonth : ((j + 2).toNat : Int) = j + 2 := toNat_of_nonneg (by omega)
    refine ⟨⟨y, (j + 2).toNat, _, by omega, by omega, by omega, hlen⟩, by dsimp only; omega,
      by dsimp only; omega, rfl, ?_⟩
    rw [number_march]
    dsimp only
    omega
  · refine ⟨⟨y + 1, 1, k - 305, by decide, by decide, by omega, ?_⟩, rfl, rfl, by dsimp only; omega,
      ?_⟩
    · simp [monthLength]
      omega
    · rw [number_march]
      simp
      omega
  · refine ⟨⟨y + 1, 2, k - 336, by decide, by decide, by omega, ?_⟩, rfl, rfl, by dsimp only; omega,
      ?_⟩
    · rw [monthLength, if_pos rfl]
      split
      · omega
      · rename_i hnot
        have : k ≠ 365 := fun h => hnot (hleap h)
        omega
    · rw [number_march]
      simp
      omega

/-- The date of a Julian day; only the year may be too large for its type. -/
theorem julianToDate_eq {jd : Int} (h : 0 ≤ jd) :
    ∃ t : Date, t.number + 1721425 = jd ∧
      julianToDate jd = (toInt32 t.year, (t.month : Int), t.day) := by
  obtain ⟨n, hn⟩ : ∃ n, n = 4 * (jd + 68569) / 146097 := ⟨_, rfl⟩
  obtain ⟨L, hL⟩ : ∃ L, L = jd + 68569 - (36524 * n + (n + 3) / 4) := ⟨_, rfl⟩
  obtain ⟨i, hi⟩ : ∃ i, i = 4000 * (L + 1) / 1461001 := ⟨_, rfl⟩
  obtain ⟨k, hk⟩ : ∃ k, k = L - (365 * i + i / 4) := ⟨_, rfl⟩
  obtain ⟨j, hj⟩ : ∃ j, j = 80 * (k + 31) / 2447 := ⟨_, rfl⟩
  obtain ⟨hyear, hday, hleap⟩ := march_year hn hL hi hk
  obtain ⟨t, hy, hm, hd, hnumber⟩ := march_month hday hleap hj
  refine ⟨t, ?_, ?_⟩
  · have hfour : (100 * (n - 49) + i) / 4 = 25 * (n - 49) + i / 4 := by omega
    have hcentury : (100 * (n - 49) + i) / 100 = n - 49 := by omega
    have hfourth : (100 * (n - 49) + i) / 400 = (n - 49) / 4 := by omega
    omega
  have hn' : (4 * (jd + 68569)).tdiv 146097 = n := by
    rw [tdiv_eq_ediv_of_nonneg (by omega), hn]
  have hL' : jd + 68569 - (146097 * n + 3).tdiv 4 = L := by
    rw [tdiv_eq_ediv_of_nonneg (by omega)]
    omega
  have hi' : (4000 * (L + 1)).tdiv 1461001 = i := by
    rw [tdiv_eq_ediv_of_nonneg (by omega), hi]
  have hk' : L - (1461 * i).tdiv 4 + 31 = k + 31 := by
    rw [tdiv_eq_ediv_of_nonneg (by omega)]
    omega
  have hj' : (80 * (k + 31)).tdiv 2447 = j := by
    rw [tdiv_eq_ediv_of_nonneg (by omega), hj]
  have hd' : (2447 * j).tdiv 80 = 2447 * j / 80 := tdiv_eq_ediv_of_nonneg (by omega)
  have hm' : j.tdiv 11 = j / 11 := tdiv_eq_ediv_of_nonneg (by omega)
  rw [julianToDate, hn', hL', hi', hk', hj', hd', hm', ← hy, ← hm, ← hd,
    toInt32_of_bounds (x := t.day), toInt32_of_bounds (x := t.month)]
  all_goals omega

/-- The fields of a time. -/
def tm (t : Gregorian.Time) : Tm :=
  ⟨t.sec, t.min, t.hour, t.day, (t.month : Int) - 1, t.year - 1900⟩

/-- The offset in seconds is split into days and seconds with the same sign. -/
theorem offset_split (s : Int) :
    s.tdiv secsPerDay * 86400 + toInt32 (s - s.tdiv secsPerDay * secsPerDay) = s ∧
    -86400 < toInt32 (s - s.tdiv secsPerDay * secsPerDay) ∧
    toInt32 (s - s.tdiv secsPerDay * secsPerDay) < 86400 := by
  have hday : secsPerDay = 86400 := rfl
  have hsplit := mul_tdiv_add_tmod s 86400
  have hup : s.tmod 86400 < 86400 := tmod_lt_of_pos s (by decide)
  have hlow : -86400 < s.tmod 86400 := lt_tmod_of_pos s (by decide)
  rw [hday]
  have hrest : s - s.tdiv 86400 * 86400 = s.tmod 86400 := by omega
  rw [toInt32_of_bounds (by omega) (by omega)]
  omega

/-- An adjusted time is a number of days and the seconds of a day. -/
theorem julianAdj_eq (t : Gregorian.Time) (hy : -4700 ≤ t.year) (d s x : Int)
    (hx : x = t.seconds + 86400 * d + s) :
    julianAdj (tm t) d s =
      if x / 86400 + 1721425 < 0 then none else some (x / 86400 + 1721425, x % 86400) := by
  obtain ⟨hsplit, hlow, hup⟩ := offset_split s
  have hsec := t.ofDay_bounds
  have hday : secsPerDay = 86400 := rfl
  have hjulian := dateToJulian_eq t.toDate hy
  have htime : t.hour * 3600 + t.min * 60 + t.sec = t.ofDay := by
    rw [Gregorian.Time.ofDay]
    omega
  rw [Gregorian.Time.seconds] at hx
  rw [julianAdj, tm]
  dsimp only
  rw [htime, sub_add_cancel, sub_add_cancel, hjulian]
  generalize toInt32 (s - s.tdiv secsPerDay * secsPerDay) = hms at hsplit hlow hup
  generalize s.tdiv secsPerDay = days at hsplit
  rw [hday]
  split
  · have hjd : t.number + 1721425 + (days + d + 1) = x / 86400 + 1721425 := by omega
    have hrest : hms + t.ofDay - 86400 = x % 86400 := by omega
    rw [hjd, hrest]
  split
  · have hjd : t.number + 1721425 + (days + d - 1) = x / 86400 + 1721425 := by omega
    have hrest : hms + t.ofDay + 86400 = x % 86400 := by omega
    rw [hjd, hrest]
  · have hjd : t.number + 1721425 + (days + d) = x / 86400 + 1721425 := by omega
    have hrest : hms + t.ofDay = x % 86400 := by omega
    rw [hjd, hrest]

/-- `OPENSSL_gmtime_adj` gives the time at the instant, with its year narrowed. -/
theorem opensslGmtimeAdj_eq (t T : Gregorian.Time) (hy : -4700 ≤ t.year) (d s : Int)
    (hT : T.seconds = t.seconds + 86400 * d + s) :
    opensslGmtimeAdj (tm t) d s =
      if T.number + 1721425 < 0 ∨ toInt32 T.year < 1900 ∨ toInt32 T.year > 9999 then none
      else some { tm T with tmYear := toInt32 T.year - 1900 } := by
  have hsec := T.ofDay_bounds
  have hnumber : T.seconds / 86400 = T.number := by
    rw [Gregorian.Time.seconds]
    omega
  have hofDay : T.seconds % 86400 = T.ofDay := by
    rw [Gregorian.Time.seconds]
    omega
  rw [opensslGmtimeAdj, julianAdj_eq t hy d s _ hT, hnumber, hofDay]
  by_cases hneg : T.number + 1721425 < 0
  · rw [if_pos hneg, if_pos (.inl hneg)]
    rfl
  obtain ⟨u, hu, hdate⟩ := julianToDate_eq (not_lt.1 hneg)
  have huT : u = T.toDate := Date.number_injective (by omega)
  have hmin := T.min_bounds
  have hsecs := T.sec_bounds
  rw [if_neg hneg, Option.bind_some, updateTm]
  rw [hdate, huT]
  simp only [hneg, false_or]
  split
  · rfl
  have h₁ : T.ofDay.tmod 60 = T.sec := by
    rw [tmod_eq_emod_of_nonneg hsec.1, Gregorian.Time.ofDay]
    omega
  have h₂ : (T.ofDay.tdiv 60).tmod 60 = T.min := by
    rw [tdiv_eq_ediv_of_nonneg hsec.1, tmod_eq_emod_of_nonneg (by omega), Gregorian.Time.ofDay]
    omega
  have h₃ : T.ofDay.tdiv 3600 = T.hour := by
    rw [tdiv_eq_ediv_of_nonneg hsec.1, Gregorian.Time.ofDay]
    omega
  rw [h₁, h₂, h₃]
  rfl

/-- The years that a result may have. -/
def InYears (y : Int) : Prop := 1900 ≤ y ∧ y ≤ 9999

instance (y : Int) : Decidable (InYears y) := inferInstanceAs (Decidable (_ ∧ _))

theorem number_of_inYears {t : Date} (hy : InYears t.year) :
    693595 < t.number ∧ t.number ≤ 3652059 := by
  have hnumber := t.number_le_year
  have hfirst := daysBeforeYear_mono hy.1
  have hlast := daysBeforeYear_mono (show t.year + 1 ≤ 10000 by have := hy.2; omega)
  have hlow : daysBeforeYear 1900 = 693595 := by decide
  have hup : daysBeforeYear 10000 = 3652059 := by decide
  omega

/-- A year that is not narrowed is compared as it is. -/
theorem opensslGmtimeAdj_of_inYears (t T : Gregorian.Time) (hy : -4700 ≤ t.year) (d s : Int)
    (hT : T.seconds = t.seconds + 86400 * d + s) (hyears : InYears T.year) :
    opensslGmtimeAdj (tm t) d s = some (tm T) := by
  have hnumber := number_of_inYears hyears
  obtain ⟨hlow, hup⟩ := hyears
  have hyear : toInt32 T.year = T.year := toInt32_of_bounds (by omega) (by omega)
  rw [opensslGmtimeAdj_eq t T hy d s hT, hyear, if_neg (by omega)]
  rfl

theorem sameSign_spec (day sec : Int) (hlow : -86400 < sec) (hup : sec < 86400) :
    ∃ d s, sameSign day sec = (d, s) ∧ 86400 * d + s = 86400 * day + sec ∧
      (0 ≤ d ∧ 0 ≤ s ∨ d ≤ 0 ∧ s ≤ 0) ∧ |s| < 86400 := by
  have hday : secsPerDay = 86400 := rfl
  simp only [abs_lt]
  rw [sameSign]
  by_cases hdown : day > 0 ∧ sec < 0
  · rw [if_pos hdown]
    dsimp only
    rw [if_neg (by omega)]
    exact ⟨_, _, rfl, by omega, by omega, by omega⟩
  rw [if_neg hdown]
  dsimp only
  by_cases hupward : day < 0 ∧ sec > 0
  · rw [if_pos hupward]
    exact ⟨_, _, rfl, by omega, by omega, by omega⟩
  · rw [if_neg hupward]
    exact ⟨_, _, rfl, by omega, by omega, by omega⟩

/-- The difference of two times, with days and seconds of the same sign. -/
theorem opensslGmtimeDiff_eq (t u : Gregorian.Time) (ht : InYears t.year) (hu : InYears u.year) :
    opensslGmtimeDiff (tm t) (tm u) =
      some (sameSign (u.number - t.number) (u.ofDay - t.ofDay)) := by
  have hjulian (v : Gregorian.Time) (hv : InYears v.year) :
      julianAdj (tm v) 0 0 = some (v.number + 1721425, v.ofDay) := by
    have hnumber := number_of_inYears hv
    have hsec := v.ofDay_bounds
    have hseconds : v.seconds = 86400 * v.number + v.ofDay := rfl
    have hdiv : v.seconds / 86400 = v.number := by omega
    have hmod : v.seconds % 86400 = v.ofDay := by omega
    rw [julianAdj_eq v (by have := hv.1; omega) 0 0 v.seconds (by omega), hdiv, hmod,
      if_neg (by omega)]
  have hnumber := number_of_inYears ht
  have hnumber' := number_of_inYears hu
  have hsec := t.ofDay_bounds
  have hsec' := u.ofDay_bounds
  have hdiff : u.number + 1721425 - (t.number + 1721425) = u.number - t.number := by omega
  obtain ⟨d, s, hsame, hsum, -, habs⟩ :=
    sameSign_spec (u.number - t.number) (u.ofDay - t.ofDay) (by omega) (by omega)
  rw [abs_lt] at habs
  rw [opensslGmtimeDiff, hjulian t ht, hjulian u hu, Option.bind_some, Option.map_some]
  dsimp only
  rw [hdiff, hsame, toInt32_of_bounds (by omega) (by omega)]

theorem inYears_toInt32_iff (y : Int) : InYears (toInt32 y) ↔ InYears (y % 2 ^ 32) := by
  have hdef : toInt32 y = if y % 2 ^ 32 < 2 ^ 31 then y % 2 ^ 32 else y % 2 ^ 32 - 2 ^ 32 := by
    rfl
  rw [hdef, InYears, InYears]
  split <;> omega

/-- A year outside the range is rejected, unless it is narrowed to one in the range. -/
theorem rejected_iff {t : Date} (hy : ¬ InYears t.year) :
    (t.number + 1721425 < 0 ∨ toInt32 t.year < 1900 ∨ toInt32 t.year > 9999) ↔
      ¬ (9999 < t.year ∧ InYears (t.year % 2 ^ 32)) := by
  have hnumber := t.number_le_year
  have hinside : ¬ (toInt32 t.year < 1900 ∨ toInt32 t.year > 9999) ↔ InYears (toInt32 t.year) := by
    rw [InYears]
    omega
  rw [← inYears_toInt32_iff, ← not_iff_not, not_not, not_or, hinside]
  constructor
  · rintro ⟨hpos, hyears⟩
    refine ⟨?_, hyears⟩
    by_contra hsmall
    -- a year before 1900 with a Julian day is not narrowed
    have hearly : -4714 ≤ t.year := by
      by_contra hlt
      have hmono := daysBeforeYear_mono (show t.year + 1 ≤ -4714 by omega)
      have hval : daysBeforeYear (-4714) < -1721425 := by decide
      omega
    rw [toInt32_of_bounds (by omega) (by omega)] at hyears
    exact hy hyears
  · rintro ⟨hlarge, hyears⟩
    have hmono := daysBeforeYear_mono (show 1 ≤ t.year by omega)
    have hval : daysBeforeYear 1 = 0 := by decide
    exact ⟨by omega, hyears⟩

/-- **Calendar arithmetic is exact, except where the year of the result is narrowed.** The
difference of two times leads from the one to the other. A time with an offset, at the instant of
the time `T`, gives `T` exactly if the year of `T` is in the range, unless that year is a year in
the range and a multiple of `2 ^ 32` more. -/
theorem gmtime_exact_iff (t : Gregorian.Time) :
    (InYears t.year → ∀ u : Gregorian.Time, InYears u.year →
      ∃ d s, opensslGmtimeDiff (tm t) (tm u) = some (d, s) ∧
        (0 ≤ d ∧ 0 ≤ s ∨ d ≤ 0 ∧ s ≤ 0) ∧ |s| < 86400 ∧
        opensslGmtimeAdj (tm t) d s = some (tm u)) ∧
    (-4700 ≤ t.year → t.year ≤ 1465000 → ∀ d s : Int,
      (∃! T : Gregorian.Time, T.seconds = t.seconds + 86400 * d + s) ∧
      ∀ T : Gregorian.Time, T.seconds = t.seconds + 86400 * d + s →
        (((opensslGmtimeAdj (tm t) d s).isSome ↔ InYears T.year) ∧
          (∀ r, opensslGmtimeAdj (tm t) d s = some r → r = tm T) ↔
          ¬ (9999 < T.year ∧ InYears (T.year % 2 ^ 32)))) := by
  constructor
  · intro ht u hu
    have hsec := t.ofDay_bounds
    have hsec' := u.ofDay_bounds
    obtain ⟨d, s, hsame, hsum, hsign, habs⟩ :=
      sameSign_spec (u.number - t.number) (u.ofDay - t.ofDay) (by omega) (by omega)
    have hdiff := opensslGmtimeDiff_eq t u ht hu
    rw [hsame] at hdiff
    refine ⟨d, s, hdiff, hsign, habs, ?_⟩
    apply opensslGmtimeAdj_of_inYears t u (by have := ht.1; omega) d s _ hu
    rw [Gregorian.Time.seconds, Gregorian.Time.seconds]
    omega
  · intro hlow _ d s
    refine ⟨Gregorian.Time.seconds_bijective.existsUnique _, fun T hT => ?_⟩
    by_cases hyears : InYears T.year
    · have hadj := opensslGmtimeAdj_of_inYears t T hlow d s hT hyears
      have hle := hyears.2
      rw [hadj]
      simp [hyears]
      omega
    · have hrejected := rejected_iff hyears
      rw [opensslGmtimeAdj_eq t T hlow d s hT]
      split_ifs with hnone
      · exact ⟨fun _ => hrejected.1 hnone, fun _ => ⟨by simp [hyears], by rintro _ ⟨⟩⟩⟩
      · exact ⟨fun h => absurd (h.1.1 rfl) hyears, fun h => absurd (hrejected.2 h) hnone⟩

/-- Midnight of the first of January of a year. -/
def newYear (y : Int) : Gregorian.Time :=
  ⟨.first y 1 (Nat.le_refl 1) (Nat.le_add_left 1 11), 0, 0, 0, by decide, by decide, by decide⟩

/-- From 1970 to 2000, and from 2000 on by 366 days to 2001. -/
theorem gmtime_exact_2000 :
    (∃ d s, opensslGmtimeDiff (tm (newYear 1970)) (tm (newYear 2000)) = some (d, s) ∧
      (0 ≤ d ∧ 0 ≤ s ∨ d ≤ 0 ∧ s ≤ 0) ∧ |s| < 86400 ∧
      opensslGmtimeAdj (tm (newYear 1970)) d s = some (tm (newYear 2000))) ∧
    ((opensslGmtimeAdj (tm (newYear 2000)) 366 0).isSome ↔ InYears (newYear 2001).year) ∧
    ∀ r, opensslGmtimeAdj (tm (newYear 2000)) 366 0 = some r → r = tm (newYear 2001) := by
  refine ⟨(gmtime_exact_iff (newYear 1970)).1 (by decide) (newYear 2000) (by decide), ?_⟩
  decide

/-- The instant that is taken for the beginning of the year 2000. -/
theorem gmtime_year_narrowed :
    (newYear 4294969296).seconds = (newYear 1970).seconds + 86400 * 0 + 135536077748188800 ∧
    ¬ InYears (newYear 4294969296).year ∧
    opensslGmtimeAdj (tm (newYear 1970)) 0 135536077748188800 = some (tm (newYear 2000)) := by
  decide +kernel

end QuicTls.Time
