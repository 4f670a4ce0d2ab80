import QuicTls.Crypto.Asn1Time
import QuicTls.Verify.Time

/-!
# The text of times is read as written

What is read are the fields of a date and a time of the day, and an offset (`converted_iff`). With
the offset the time is that of UTC, but the day of the week and of the year stay those of the date
in the text (`parsed_days_iff`).
-/

namespace QuicTls.Asn1

open Gregorian Time

/-- A number in two digits. -/
def text (n : Int) : Bytes :=
  [UInt8.ofNat (0x30 + n.toNat / 10), UInt8.ofNat (0x30 + n.toNat % 10)]

/-- The year of a text of the given type. -/
inductive YearText : TimeType → Int → Bytes → Prop
  | utc {y : Int} : 1950 ≤ y → y < 2050 → YearText .utctime y (text (y % 100))
  | general {y : Int} : 0 ≤ y → y < 10000 →
    YearText .generalizedtime y (text (y / 100) ++ text (y % 100))

inductive SecondText (strict : Bool) : Int → Bytes → Prop
  | some (s : Int) : SecondText strict s (text s)
  | none : strict = false → SecondText strict 0 []

inductive FractionText (d : Asn1Time) : Bytes → Prop
  | none : FractionText d []
  | some {a : Bytes} : d.type = .generalizedtime → d.strict = false → a ≠ [] →
    a.all isdigit → FractionText d (0x2e :: a)

/-- The zones with their distance from UTC in seconds. -/
inductive ZoneText (strict : Bool) : Int → Bytes → Prop
  | utc : ZoneText strict 0 [0x5a]
  | offset {h m : Int} (east : Bool) : strict = false → 0 ≤ h ∧ h ≤ 12 → 0 ≤ m ∧ m ≤ 59 →
    ZoneText strict ((if east then 1 else -1) * (3600 * h + 60 * m))
      ((if east then 0x2b else 0x2d) :: (text h ++ text m))

/-- The text says the time `t` in a zone at the distance `off` from UTC. -/
def Denotes (d : Asn1Time) (t : Gregorian.Time) (off : Int) : Prop :=
  ∃ year sec fraction zone, YearText d.type t.year year ∧ SecondText d.strict t.sec sec ∧
    FractionText d fraction ∧ ZoneText d.strict off zone ∧
    d.data = year ++ (text t.month ++ (text t.day ++ (text t.hour ++ (text t.min ++
      (sec ++ (fraction ++ zone))))))

/-! ### Fields -/

variable {a rest : Bytes}

theorem readField_some {i : Nat} {n : Int} (h : readField i a = some (n, rest)) :
    a = text n ++ rest ∧ (limits.getD i 0).1 ≤ n ∧ n ≤ (limits.getD i 0).2 := by
  obtain _ | ⟨c, _ | ⟨c', a⟩⟩ := a
  · cases h
  · cases h
  rw [readField, Option.ite_none_right_eq_some, Option.ite_none_left_eq_some] at h
  obtain ⟨hdigit, hlim, ⟨⟩⟩ := h
  simp [isdigit, UInt8.le_iff_toNat_le] at hdigit
  simp only [text, List.cons_append, List.nil_append, List.cons.injEq, and_true, ← UInt8.toNat_inj,
    UInt8.toNat_ofNat']
  omega

variable {d : Asn1Time} {r : DayTm × Bytes}

theorem readFields_succ {k : Nat} {tm : DayTm} (h : readFields d (k + 1) tm a = some r) :
    d.strict = false ∧ k = 0 ∧ r = (tm, a) ∨
    ∃ n rest tm', a = text n ++ rest ∧
      ((limits.getD (6 - k) 0).1 ≤ n ∧ n ≤ (limits.getD (6 - k) 0).2) ∧
      setField d.type tm n (6 - k) = some tm' ∧ readFields d k tm' rest = some r := by
  rw [readFields] at h
  split at h
  · rename_i hend
    exact .inl ⟨hend.1, hend.2.1, (Option.some.inj h).symm⟩
  · obtain ⟨⟨n, rest⟩, hfield, h⟩ := Option.bind_eq_some_iff.1 h
    obtain ⟨tm', hset, h⟩ := Option.bind_eq_some_iff.1 (Option.ite_none_left_eq_some.1 h).2
    obtain ⟨ha, hlim⟩ := readField_some hfield
    exact .inr ⟨n, rest, tm', ha, hlim, hset, h⟩

variable {y : Int}

theorem leapYear_eq (hy : 0 ≤ y) : leapYear y = if IsLeap y then 1 else 0 := by
  rw [leapYear, Int.tmod_eq_emod_of_nonneg hy, Int.tmod_eq_emod_of_nonneg hy,
    Int.tmod_eq_emod_of_nonneg hy]
  refine if_congr ?_ rfl rfl
  rw [IsLeap]
  omega

variable {m : Nat}

/-- The day is one of the month. -/
theorem setField_day {type : TimeType} {tm tm' : DayTm} {n : Int} (hy : 0 ≤ y)
    (hyear : tm.tmYear + 1900 = y) (hpos : 1 ≤ m) (hle : m ≤ 12) (hmon : tm.tmMon = m - 1)
    (h : setField type tm n 3 = some tm') :
    n ≤ monthLength y m ∧ tm' = determineDays { tm with tmMday := n } := by
  have hlength : (if tm.tmMon = 1 then mdays.getD 1 0 + leapYear (tm.tmYear + 1900)
      else mdays.getD tm.tmMon.toNat 0) = monthLength y m := by
    rw [hyear, hmon, leapYear_eq hy, monthLength]
    interval_cases m <;> simp [mdays]
    split <;> rfl
  rw [setField, hlength, Option.ite_none_left_eq_some] at h
  exact ⟨Int.not_lt.1 h.1, (Option.some.inj h.2).symm⟩

/-- The result of the loop: the fields of a time. -/
def dayTm (t : Gregorian.Time) : DayTm := determineDays ⟨tm t, 0, 0⟩

/-- What is read after the year. -/
theorem readFields_five (hy : 0 ≤ y)
    (h : readFields d 5 ⟨⟨0, 0, 0, 0, 0, y - 1900⟩, 0, 0⟩ a = some r) :
    ∃ t : Gregorian.Time, t.year = y ∧ r.1 = dayTm t ∧ ∃ sec, SecondText d.strict t.sec sec ∧
      a = text t.month ++ (text t.day ++ (text t.hour ++ (text t.min ++ (sec ++ r.2)))) := by
  obtain ⟨month, a, _, rfl, hmonth, ⟨⟩, h⟩ := (readFields_succ h).resolve_left (by simp)
  obtain ⟨day, a, _, rfl, hday, hset, h⟩ := (readFields_succ h).resolve_left (by simp)
  obtain ⟨month, rfl⟩ := Int.eq_ofNat_of_zero_le (Int.le_trans (by decide) hmonth.1)
  have hpos : 1 ≤ month := Int.ofNat_le.1 hmonth.1
  have hle : month ≤ 12 := Int.ofNat_le.1 hmonth.2
  obtain ⟨hlength, rfl⟩ := setField_day hy (Int.sub_add_cancel y 1900) hpos hle rfl hset
  obtain ⟨hour, a, _, rfl, hhour, ⟨⟩, h⟩ := (readFields_succ h).resolve_left (by simp)
  obtain ⟨min, a, _, rfl, hmin, ⟨⟩, h⟩ := (readFields_succ h).resolve_left (by simp)
  have hhour : 0 ≤ hour ∧ hour < 24 := ⟨hhour.1, Int.lt_add_one_of_le hhour.2⟩
  have hmin : 0 ≤ min ∧ min < 60 := ⟨hmin.1, Int.lt_add_one_of_le hmin.2⟩
  let t : Date := ⟨y, month, day, hpos, hle, hday.1, hlength⟩
  obtain ⟨hstrict, -, rfl⟩ | ⟨sec, a, _, rfl, hsec, ⟨⟩, h⟩ := readFields_succ h
  · exact ⟨⟨t, hour, min, 0, hhour, hmin, by decide⟩, rfl, rfl, [], .none hstrict, rfl⟩
  · have hsec : 0 ≤ sec ∧ sec < 60 := ⟨hsec.1, Int.lt_add_one_of_le hsec.2⟩
    cases h
    exact ⟨⟨t, hour, min, sec, hhour, hmin, hsec⟩, rfl, rfl, _, .some sec, rfl⟩

/-- The year is read first, and the other fields after it. -/
theorem readFields_year (htype : d.type ≠ .other)
    (h : readFields d (if d.type = .utctime then 6 else 7) ⟨⟨0, 0, 0, 0, 0, 0⟩, 0, 0⟩ a = some r) :
    ∃ y year rest, 0 ≤ y ∧ y < 10000 ∧ YearText d.type y year ∧ a = year ++ rest ∧
      readFields d 5 ⟨⟨0, 0, 0, 0, 0, y - 1900⟩, 0, 0⟩ rest = some r := by
  cases hd : d.type with
  | other => exact absurd hd htype
  | utctime =>
    rw [if_pos hd] at h
    obtain ⟨n, a, _, rfl, hn, hset, h⟩ := (readFields_succ h).resolve_left (by simp)
    rw [setField, if_pos hd] at hset
    cases hset
    have hn : 0 ≤ n ∧ n ≤ 99 := hn
    generalize hy : (if n < 50 then n + 100 else n) = y at h
    have hbounds : 50 ≤ y ∧ y < 150 ∧ (y + 1900) % 100 = n := by
      split at hy <;> omega
    have hyear := YearText.utc (y := y + 1900) (by omega) (by omega)
    rw [hbounds.2.2] at hyear
    refine ⟨y + 1900, _, a, by omega, by omega, hyear, rfl, ?_⟩
    rw [Int.add_sub_cancel]
    exact h
  | generalizedtime =>
    rw [if_neg (by rw [hd]; decide)] at h
    obtain ⟨c, a, _, rfl, hc, ⟨⟩, h⟩ := (readFields_succ h).resolve_left (by simp)
    obtain ⟨n, a, _, rfl, hn, hset, h⟩ := (readFields_succ h).resolve_left (by simp)
    rw [setField, if_neg (by rw [hd]; decide)] at hset
    cases hset
    have hc : 0 ≤ c ∧ c ≤ 99 := hc
    have hn : 0 ≤ n ∧ n ≤ 99 := hn
    have hyear := YearText.general (y := c * 100 + n) (by omega) (by omega)
    rw [show (c * 100 + n) / 100 = c by omega, show (c * 100 + n) % 100 = n by omega] at hyear
    refine ⟨c * 100 + n, _, a, by omega, by omega, hyear, (List.append_assoc ..).symm, ?_⟩
    rw [show c * 100 + n - 1900 = c * 100 - 1900 + n by omega]
    exact h

theorem readFraction_some (h : readFraction d a = some rest) : ∃ fraction, FractionText d fraction ∧
      a = fraction ++ rest := by
  rw [readFraction] at h
  split at h
  · rename_i hdot
    simp only [Option.ite_none_left_eq_some, not_or, Bool.not_eq_true] at h
    obtain ⟨a, rfl⟩ := List.head?_eq_some_iff.1 hdot.2
    obtain ⟨⟨hstrict, hne, -⟩, ⟨⟩⟩ := h
    have hsplit := @List.takeWhile_append_dropWhile _ isdigit a
    refine ⟨0x2e :: a.takeWhile isdigit, .some hdot.1 hstrict ?_ List.all_takeWhile,
      congrArg _ hsplit.symm⟩
    intro hnil
    rw [hnil] at hsplit
    exact hne hsplit
  · cases h
    exact ⟨[], .none, rfl⟩

theorem readZone_some {strict : Bool} {s : Int} (h : readZone strict a = some s) :
    ∃ off, ZoneText strict off a ∧ s = -off := by
  obtain _ | ⟨c, a⟩ := a
  · cases h
  rw [readZone] at h
  split at h
  · rename_i hc
    rw [Option.ite_none_right_eq_some] at h
    obtain ⟨rfl, ⟨⟩⟩ := h
    rw [hc]
    exact ⟨0, .utc, rfl⟩
  rw [Option.ite_none_right_eq_some, Option.ite_none_left_eq_some] at h
  obtain ⟨⟨hstrict, hsign⟩, hlen, h⟩ := h
  obtain ⟨⟨hour, a⟩, hhour, h⟩ := Option.bind_eq_some_iff.1 h
  obtain ⟨⟨min, a⟩, hmin, rfl⟩ := Option.map_eq_some_iff.1 h
  obtain ⟨rfl, hhour'⟩ := readField_some hhour
  obtain ⟨rfl, hmin'⟩ := readField_some hmin
  obtain rfl : a = [] := by simpa [text] using hlen
  obtain rfl | rfl := hsign
  · exact ⟨_, .offset true hstrict hhour' hmin', by simp; omega⟩
  · exact ⟨_, .offset false hstrict hhour' hmin', by simp; omega⟩

/-- What is read are the fields of a time. -/
theorem readTime_some {r : DayTm × Int} (h : readTime d = some r) :
    ∃ t : Gregorian.Time, ∃ off, 0 ≤ t.year ∧ t.year < 10000 ∧ Denotes d t off ∧
      r = (dayTm t, -off) := by
  rw [readTime, Option.ite_none_left_eq_some, Option.ite_none_left_eq_some] at h
  obtain ⟨htype, -, h⟩ := h
  obtain ⟨⟨r, a⟩, hfields, h⟩ := Option.bind_eq_some_iff.1 h
  obtain ⟨a', hfraction, h⟩ := Option.bind_eq_some_iff.1 h
  obtain ⟨s, hzone, rfl⟩ := Option.map_eq_some_iff.1 h
  obtain ⟨y, year, rest, hy, hlt, hyear, hdata, hfields⟩ := readFields_year htype hfields
  obtain ⟨t, rfl, rfl, sec, hsec, rfl⟩ := readFields_five hy hfields
  obtain ⟨fraction, htext, rfl⟩ := readFraction_some hfraction
  obtain ⟨off, hoff, rfl⟩ := readZone_some hzone
  exact ⟨t, off, hy, hlt, ⟨year, sec, fraction, a', hyear, hsec, htext, hoff, hdata⟩, rfl⟩

theorem Denotes.bounds {t : Gregorian.Time} {off : Int} (h : Denotes d t off) :
    -86400 < off ∧ off < 86400 := by
  obtain ⟨_, _, _, _, -, -, -, hzone, -⟩ := h
  cases hzone with
  | utc => decide
  | offset east _ hh hm => cases east <;> dsimp <;> omega

/-- The offset moves the year by one at most, so that it is not narrowed. -/
theorem opensslGmtimeAdj_iff {t T : Gregorian.Time} {s : Int} (hy : 0 ≤ t.year)
    (hlt : t.year < 10000) (hs : s < 86400) (hT : T.seconds = t.seconds + s) :
    opensslGmtimeAdj (tm t) 0 s = if InYears T.year then some (tm T) else none := by
  have hT : T.seconds = t.seconds + 86400 * 0 + s := by omega
  split_ifs with hyears
  · exact opensslGmtimeAdj_of_inYears t T (by omega) 0 s hT hyears
  have hyear : T.year ≤ 10000 := by
    by_contra hlarge
    have ht := t.ofDay_bounds
    have ht' := T.ofDay_bounds
    have hnumber := t.number_le_year
    have hnumber' := T.number_le_year
    have hlast := daysBeforeYear_mono (show t.year + 1 ≤ 10000 by omega)
    have hfirst := daysBeforeYear_mono (show 10001 ≤ T.year by omega)
    have hmore : daysBeforeYear 10000 + 1 < daysBeforeYear 10001 := by decide
    rw [Gregorian.Time.seconds, Gregorian.Time.seconds] at hT
    omega
  rw [opensslGmtimeAdj_eq t T (by omega) 0 s hT, if_pos]
  rw [rejected_iff hyears]
  rintro ⟨hlarge, hyears⟩
  rw [InYears] at hyears
  omega

/-- The conversion of a text that is read. -/
theorem asn1TimeToTm_eq {r : DayTm × Int} (h : readTime d = some r) :
    ∃ t T : Gregorian.Time, ∃ off, Denotes d t off ∧ T.seconds = t.seconds - off ∧ 0 ≤ t.year ∧
      asn1TimeToTm true d =
        if off = 0 ∨ InYears T.year then some ⟨tm T, (dayTm t).tmWday, (dayTm t).tmYday⟩
        else none := by
  obtain ⟨t, off, hy, hlt, hdenotes, rfl⟩ := readTime_some h
  obtain ⟨T, hT⟩ := Gregorian.Time.seconds_surjective (t.seconds - off)
  refine ⟨t, T, off, hdenotes, hT, hy, ?_⟩
  have hs := hdenotes.bounds
  rw [asn1TimeToTm, h, Option.bind_some]
  by_cases hzero : off = 0
  · rw [if_pos (.inr (by omega)), if_pos (.inl hzero)]
    rw [hzero, Int.sub_zero] at hT
    rw [Gregorian.Time.seconds_injective hT]
    rfl
  rw [if_neg (by simp [hzero])]
  show (opensslGmtimeAdj (tm t) 0 (-off)).map _ = _
  rw [opensslGmtimeAdj_iff hy hlt (by omega) hT]
  by_cases hyears : InYears T.year
  · rw [if_pos hyears, if_pos (.inr hyears)]
    rfl
  · rw [if_neg hyears, if_neg (not_or.2 ⟨hzero, hyears⟩)]
    rfl

/-- **A text that passes the check is converted, unless its year leaves the range in UTC.** -/
theorem converted_iff (d : Asn1Time) :
    (asn1TimeCheck d ↔ (asn1TimeToTm false d).isSome) ∧
    ((asn1TimeToTm true d).isSome → (asn1TimeToTm false d).isSome) ∧
    ((asn1TimeToTm false d).isSome → ∃ t T : Gregorian.Time, ∃ off,
      Denotes d t off ∧ T.seconds = t.seconds - off ∧
        ((asn1TimeToTm true d).isSome ↔ off = 0 ∨ InYears T.year)) := by
  cases h : readTime d with
  | none => simp [asn1TimeCheck, asn1TimeToTm, h]
  | some r =>
    obtain ⟨t, T, off, hdenotes, hT, -, heq⟩ := asn1TimeToTm_eq h
    have htype : d.type ≠ .other := fun ho => by simp [readTime, ho] at h
    have hcheck : asn1TimeToTm false d = some r.1 := by simp [asn1TimeToTm, h]
    rw [asn1TimeCheck, hcheck, heq]
    refine ⟨by simp [htype], fun _ => rfl, fun _ => ⟨t, T, off, hdenotes, hT, ?_⟩⟩
    split <;> simp_all

/-- The text `00000101010000+0100`: the beginning of the year 0. -/
theorem checked_not_converted :
    let d : Asn1Time := ⟨.generalizedtime, false, "00000101010000+0100".toUTF8.data.toList⟩
    asn1TimeCheck d ∧ asn1TimeToTm true d = none := by
  decide +kernel

/-! ### Days -/

/-- The fields of a time with the day of the week and of the year. -/
def fullTm (t : Gregorian.Time) : DayTm :=
  ⟨tm t, t.number % 7, t.number - daysBeforeYear t.year - 1⟩

theorem ydays_eq (hpos : 1 ≤ m) (hle : m ≤ 12) : ydays.getD ((m : Int) - 1).toNat 0 =
    if m ≤ 2 then 31 * ((m : Int) - 1) else (367 * m - 362) / 12 - 2 := by
  interval_cases m <;> rfl

/-- The congruence for a year that begins in March. -/
theorem zeller {x : Int} (hx : 0 ≤ x) (hy : 0 ≤ y) :
    (x + y.tmod 100 + (y.tmod 100).tdiv 4 + (y.tdiv 100).tdiv 4 + 5 * y.tdiv 100 + 6).tmod 7 =
      (x + 365 * y + y / 4 - y / 100 + y / 400 + 6) % 7 := by
  rw [Int.tmod_eq_emod_of_nonneg hy, Int.tdiv_eq_ediv_of_nonneg hy,
    Int.tdiv_eq_ediv_of_nonneg (by omega), Int.tdiv_eq_ediv_of_nonneg (by omega),
    Int.tmod_eq_emod_of_nonneg (by omega)]
  have hfour : y / 4 = 25 * (y / 100) + y % 100 / 4 := by omega
  have hcentury : y / 400 = y / 100 / 4 := by omega
  omega

theorem dayTm_yday (t : Gregorian.Time) (hy : 0 ≤ t.year) :
    (dayTm t).tmYday = (fullTm t).tmYday := by
  have hmonth := ydays_eq t.month_pos t.month_le
  have hdays := daysOfMonths_eq t.year t.month_pos t.month_le
  show (determineDays ⟨tm t, 0, 0⟩).tmYday = t.number - daysBeforeYear t.year - 1
  simp only [determineDays, tm, Int.sub_add_cancel, leapYear_eq hy, Date.number, hdays]
  split_ifs <;> dsimp only <;> omega

theorem zeller_month (hpos : 3 ≤ m) (hle : m ≤ 12) :
    (13 * ((m : Int) - 1 + 2)).tdiv 5 % 7 = ((367 * m - 362) / 12 - 2) % 7 := by
  interval_cases m <;> rfl

/-- The day of the week is right, except before March of the year 0. -/
theorem dayTm_wday (t : Gregorian.Time) (hy : 0 ≤ t.year) :
    (dayTm t).tmWday = t.number % 7 ↔ ¬ (t.year = 0 ∧ t.month ≤ 2) := by
  have hday := t.day_pos
  have hle := t.month_le
  have hmarch := number_march t.toDate
  show (determineDays ⟨tm t, 0, 0⟩).tmWday = _ ↔ _
  simp only [determineDays, tm, Int.sub_add_cancel]
  by_cases hm : t.month ≤ 2
  · rw [if_neg (by omega)]
    have hmonth : (13 * ((t.month : Int) - 1 + 14)).tdiv 5 = 3 * t.month + 33 := by
      rw [Int.tdiv_eq_ediv_of_nonneg (by omega)]
      omega
    rw [hmonth]
    obtain hzero | hyear : t.year = 0 ∨ 0 ≤ t.year - 1 := by omega
    · -- the quotients of the year -1 are those of 0
      rw [hzero] at hmarch ⊢
      show (t.day + (3 * (t.month : Int) + 33) + -1 + 0 + 0 + 5 * 0 + 6).tmod 7 = _ ↔ _
      rw [Int.tmod_eq_emod_of_nonneg (by omega)]
      omega
    · rw [zeller (by omega) hyear]
      omega
  · rw [if_pos (by omega)]
    dsimp only
    have hmonth := zeller_month (by omega) hle
    have hnonneg : 0 ≤ (13 * ((t.month : Int) - 1 + 2)).tdiv 5 :=
      Int.tdiv_nonneg (by omega) (by decide)
    rw [zeller (by omega) hy]
    omega

/-- The days of the year of two dates next to each other differ. -/
theorem date_eq_of_yday {t u : Date} (hle : |t.number - u.number| ≤ 1)
    (h : t.number - daysBeforeYear t.year = u.number - daysBeforeYear u.year) : t = u := by
  have hgap {y y' : Int} (hlt : y < y') : daysBeforeYear y + 365 ≤ daysBeforeYear y' := by
    have hmono := daysBeforeYear_mono (show y + 1 ≤ y' from hlt)
    have hlength : 365 ≤ yearLength y := by
      rw [yearLength]
      split <;> omega
    rw [daysBeforeYear_succ] at hmono
    omega
  rw [abs_le] at hle
  apply Date.number_injective
  obtain hlt | heq | hlt := lt_trichotomy t.year u.year
  · have := hgap hlt
    omega
  · rw [heq] at h
    omega
  · have := hgap hlt
    omega

/-- **The fields are those of the time in UTC; the days are right if its date is the one in the
text.** Before March of the year 0 the day of the week is wrong as well. -/
theorem parsed_days_iff (d : Asn1Time) (r : DayTm) (h : asn1TimeToTm true d = some r) :
    ∃ t T : Gregorian.Time, ∃ off, Denotes d t off ∧ T.seconds = t.seconds - off ∧ r.toTm = tm T ∧
      (r = fullTm T ↔ T.toDate = t.toDate ∧ ¬ (t.year = 0 ∧ t.month ≤ 2)) := by
  obtain ⟨x, hread, -⟩ := Option.bind_eq_some_iff.1 h
  obtain ⟨t, T, off, hdenotes, hT, hy, heq⟩ := asn1TimeToTm_eq hread
  rw [h, eq_comm, Option.ite_none_right_eq_some] at heq
  obtain ⟨-, ⟨⟩⟩ := heq
  refine ⟨t, T, off, hdenotes, hT, rfl, ?_⟩
  have hdays : (⟨tm T, (dayTm t).tmWday, (dayTm t).tmYday⟩ : DayTm) = fullTm T ↔
      (dayTm t).tmWday = T.number % 7 ∧ (fullTm t).tmYday = (fullTm T).tmYday := by
    rw [← dayTm_yday t hy, fullTm]
    simp
  have hwday := dayTm_wday t hy
  rw [hdays]
  constructor
  · rintro ⟨hw, hyday⟩
    have hbounds := hdenotes.bounds
    have ht := t.ofDay_bounds
    have hT' := T.ofDay_bounds
    have hdate : T.toDate = t.toDate := by
      apply date_eq_of_yday
      · rw [Gregorian.Time.seconds, Gregorian.Time.seconds] at hT
        rw [abs_le]
        omega
      · exact sub_left_inj.1 hyday.symm
    rw [hdate] at hw
    exact ⟨hdate, hwday.1 hw⟩
  · rintro ⟨hdate, hyear⟩
    rw [fullTm, fullTm, hdate]
    exact ⟨hwday.2 hyear, rfl⟩

/-- A leap day in UTC. -/
theorem parsed_days_leap : ∃ t T : Gregorian.Time, ∃ off,
    Denotes ⟨.utctime, true, "240229120000Z".toUTF8.data.toList⟩ t off ∧
      T.seconds = t.seconds - off ∧ (⟨0, 0, 12, 29, 1, 124⟩ : Tm) = tm T ∧
      (⟨⟨0, 0, 12, 29, 1, 124⟩, 4, 59⟩ = fullTm T ↔
        T.toDate = t.toDate ∧ ¬ (t.year = 0 ∧ t.month ≤ 2)) :=
  parsed_days_iff _ ⟨⟨0, 0, 12, 29, 1, 124⟩, 4, 59⟩ (by decide +kernel)

/-- The first hour of 2024 in a zone east of UTC is one of the last day of 2023, which is a Sunday
and not the first day of a year. -/
theorem parsed_days_stale :
    asn1TimeToTm true ⟨.generalizedtime, false, "20240101003000+0100".toUTF8.data.toList⟩ =
      some ⟨⟨0, 30, 23, 31, 11, 123⟩, 1, 0⟩ ∧
    fullTm ⟨.last 2023 12 (by decide) (by decide), 23, 30, 0, by decide, by decide, by decide⟩ =
      ⟨⟨0, 30, 23, 31, 11, 123⟩, 0, 364⟩ := by
  decide +kernel

end QuicTls.Asn1
