import Mathlib.Tactic.Linarith

/-!
# The proleptic Gregorian calendar

Dates of any year and the number of their day; day 1 is the first of January of the year 1. The
numbering is a bijection, since the day after a date has the next number.
-/

namespace QuicTls.Gregorian

def IsLeap (y : Int) : Prop := y % 4 = 0 ∧ (y % 100 ≠ 0 ∨ y % 400 = 0)

instance (y : Int) : Decidable (IsLeap y) := inferInstanceAs (Decidable (_ ∧ _))

def yearLength (y : Int) : Int := if IsLeap y then 366 else 365

def monthLength (y : Int) (m : Nat) : Int :=
  if m = 2 then if IsLeap y then 29 else 28
  else if m = 4 ∨ m = 6 ∨ m = 9 ∨ m = 11 then 30
  else 31

/-- The days from the first of January of the year 1 to the beginning of a year. -/
def daysBeforeYear (y : Int) : Int := 365 * (y - 1) + (y - 1) / 4 - (y - 1) / 100 + (y - 1) / 400

/-- The days of the first months of a year. -/
def daysOfMonths (y : Int) : Nat → Int
  | 0 => 0
  | m + 1 => daysOfMonths y m + monthLength y (m + 1)

@[ext] structure Date where
  year : Int
  month : Nat
  day : Int
  month_pos : 1 ≤ month
  month_le : month ≤ 12
  day_pos : 1 ≤ day
  day_le : day ≤ monthLength year month

def Date.number (t : Date) : Int :=
  daysBeforeYear t.year + daysOfMonths t.year (t.month - 1) + t.day

theorem monthLength_bounds (y : Int) (m : Nat) : 28 ≤ monthLength y m ∧ monthLength y m ≤ 31 := by
  rw [monthLength]
  split
  · split <;> omega
  · split <;> omega

theorem daysOfMonths_zero (y : Int) : daysOfMonths y 0 = 0 := rfl

theorem daysOfMonths_twelve (y : Int) : daysOfMonths y 12 = yearLength y := by
  by_cases h : IsLeap y <;> simp [daysOfMonths, monthLength, yearLength, h]

theorem daysBeforeYear_succ (y : Int) :
    daysBeforeYear (y + 1) = daysBeforeYear y + yearLength y := by
  rw [daysBeforeYear, daysBeforeYear, yearLength]
  split <;> rename_i hleap <;> rw [IsLeap] at hleap <;> omega

theorem daysBeforeYear_mono {y y' : Int} (h : y ≤ y') : daysBeforeYear y ≤ daysBeforeYear y' := by
  rw [daysBeforeYear, daysBeforeYear]
  omega

theorem daysOfMonths_mono (y : Int) {m n : Nat} (h : m ≤ n) :
    daysOfMonths y m ≤ daysOfMonths y n := by
  revert m n
  apply monotone_nat_of_le_succ
  intro m
  have := monthLength_bounds y (m + 1)
  rw [daysOfMonths]
  omega

namespace Date

variable (t u : Date)

/-- The number without the day, of the month and of the one after it. -/
theorem daysOfMonths_month :
    daysOfMonths t.year t.month =
      daysOfMonths t.year (t.month - 1) + monthLength t.year t.month := by
  obtain ⟨m, hm⟩ : ∃ m, t.month = m + 1 := ⟨t.month - 1, by have := t.month_pos; omega⟩
  rw [hm, Nat.add_sub_cancel, daysOfMonths]

theorem number_le_year : daysBeforeYear t.year < t.number ∧
    t.number ≤ daysBeforeYear (t.year + 1) := by
  have hday := t.day_pos
  have hle := t.day_le
  have hmonth := t.daysOfMonths_month
  have hlow := daysOfMonths_mono t.year (Nat.zero_le (t.month - 1))
  have hup := daysOfMonths_mono t.year t.month_le
  rw [daysOfMonths_twelve] at hup
  rw [daysOfMonths_zero] at hlow
  rw [number, daysBeforeYear_succ]
  omega

/-- **Different dates have different numbers.** -/
theorem number_injective : Function.Injective number := by
  intro t u h
  have ht := t.number_le_year
  have hu := u.number_le_year
  have hyear : t.year = u.year := by
    apply le_antisymm
    · by_contra hlt
      have := daysBeforeYear_mono (show u.year + 1 ≤ t.year by omega)
      omega
    · by_contra hlt
      have := daysBeforeYear_mono (show t.year + 1 ≤ u.year by omega)
      omega
  have hmonth : t.month = u.month := by
    have htm := t.daysOfMonths_month
    have hum := u.daysOfMonths_month
    have htd := t.day_pos
    have hud := u.day_pos
    have htl := t.day_le
    have hul := u.day_le
    rw [number, number, hyear] at h
    rw [hyear] at htm htl
    apply le_antisymm
    · by_contra hlt
      have := daysOfMonths_mono u.year (show u.month ≤ t.month - 1 by omega)
      omega
    · by_contra hlt
      have := daysOfMonths_mono u.year (show t.month ≤ u.month - 1 by omega)
      omega
  have hday : t.day = u.day := by
    rw [number, number, hyear, hmonth] at h
    omega
  exact Date.ext hyear hmonth hday

/-- The first day of a month. -/
def first (y : Int) (m : Nat) (hpos : 1 ≤ m) (hle : m ≤ 12) : Date :=
  ⟨y, m, 1, hpos, hle, le_refl 1, by have := monthLength_bounds y m; omega⟩

/-- The last day of a month. -/
def last (y : Int) (m : Nat) (hpos : 1 ≤ m) (hle : m ≤ 12) : Date :=
  ⟨y, m, monthLength y m, hpos, hle, by have := monthLength_bounds y m; omega, le_refl _⟩

def next : Date :=
  if h : t.day < monthLength t.year t.month then
    ⟨t.year, t.month, t.day + 1, t.month_pos, t.month_le, by have := t.day_pos; omega, by omega⟩
  else if h : t.month < 12 then first t.year (t.month + 1) (Nat.le_add_left ..) h
  else first (t.year + 1) 1 (le_refl 1) (by decide)

def prev : Date :=
  if h : 1 < t.day then
    ⟨t.year, t.month, t.day - 1, t.month_pos, t.month_le, by omega, by have := t.day_le; omega⟩
  else if h : 1 < t.month then
    last t.year (t.month - 1) (by omega) (by have := t.month_le; omega)
  else last (t.year - 1) 12 (by decide) (le_refl 12)

theorem number_next : t.next.number = t.number + 1 := by
  have hle := t.day_le
  have hmonth := t.daysOfMonths_month
  rw [next]
  split
  · simp only [number]
    omega
  split
  · simp only [first, number, Nat.add_sub_cancel]
    omega
  have htwelve : t.month = 12 := by
    have := t.month_le
    omega
  have hend : daysOfMonths t.year t.month = yearLength t.year := by
    rw [htwelve, daysOfMonths_twelve]
  simp only [first, number, daysBeforeYear_succ, Nat.sub_self, daysOfMonths_zero]
  omega

theorem number_prev : t.prev.number = t.number - 1 := by
  have hpos := t.day_pos
  have hlast {y : Int} {m : Nat} (hm : 1 ≤ m) (hm' : m ≤ 12) :
      (last y m hm hm').number = daysBeforeYear y + daysOfMonths y m := by
    have h := (last y m hm hm').daysOfMonths_month
    simp only [last] at h
    simp only [last, number]
    omega
  rw [prev]
  split
  · simp only [number]
    omega
  split
  · rw [hlast, number]
    omega
  have hone : t.month = 1 := by
    have := t.month_pos
    omega
  have hsucc := daysBeforeYear_succ (t.year - 1)
  rw [Int.sub_add_cancel] at hsucc
  rw [hlast, daysOfMonths_twelve, number, hone, daysOfMonths_zero]
  omega

/-- **Every number is the number of a date.** -/
theorem number_surjective : Function.Surjective number := by
  intro n
  induction n using Int.inductionOn' (b := 1) with
  | zero => exact ⟨first 1 1 (le_refl 1) (by decide), by decide⟩
  | succ k _ ih =>
    obtain ⟨t, rfl⟩ := ih
    exact ⟨t.next, t.number_next⟩
  | pred k _ ih =>
    obtain ⟨t, rfl⟩ := ih
    exact ⟨t.prev, t.number_prev⟩

end Date

/-- A time of a day. -/
@[ext] structure Time extends Date where
  hour : Int
  min : Int
  sec : Int
  hour_bounds : 0 ≤ hour ∧ hour < 24
  min_bounds : 0 ≤ min ∧ min < 60
  sec_bounds : 0 ≤ sec ∧ sec < 60

namespace Time

/-- The second of the day. -/
def ofDay (t : Time) : Int := 3600 * t.hour + 60 * t.min + t.sec

/-- The instant, in seconds. -/
def seconds (t : Time) : Int := 86400 * t.number + t.ofDay

theorem ofDay_bounds (t : Time) : 0 ≤ t.ofDay ∧ t.ofDay < 86400 := by
  have hhour := t.hour_bounds
  have hmin := t.min_bounds
  have hsec := t.sec_bounds
  rw [ofDay]
  omega

/-- The time of a day with the given second. -/
def ofSecond (t : Date) (s : Int) (hpos : 0 ≤ s) (hlt : s < 86400) : Time :=
  ⟨t, s / 3600, s / 60 % 60, s % 60, by omega, by omega, by omega⟩

theorem ofDay_ofSecond (t : Date) (s : Int) (hpos : 0 ≤ s) (hlt : s < 86400) :
    (ofSecond t s hpos hlt).ofDay = s := by
  simp only [ofSecond, ofDay]
  omega

theorem seconds_injective : Function.Injective seconds := by
  intro t u h
  have ht := t.ofDay_bounds
  have hu := u.ofDay_bounds
  rw [seconds, seconds] at h
  have hdate : t.toDate = u.toDate := Date.number_injective (by omega)
  have hday : t.ofDay = u.ofDay := by omega
  rw [ofDay, ofDay] at hday
  have ht₁ := t.min_bounds
  have ht₂ := t.sec_bounds
  have hu₁ := u.min_bounds
  have hu₂ := u.sec_bounds
  rw [Date.ext_iff] at hdate
  exact Time.ext hdate.1 hdate.2.1 hdate.2.2 (by omega) (by omega) (by omega)

theorem seconds_surjective : Function.Surjective seconds := by
  intro n
  obtain ⟨t, ht⟩ := Date.number_surjective (n / 86400)
  refine ⟨ofSecond t (n % 86400) (by omega) (by omega), ?_⟩
  rw [seconds, ofDay_ofSecond]
  show 86400 * t.number + n % 86400 = n
  omega

/-- **Every instant is the instant of exactly one time.** -/
theorem seconds_bijective : Function.Bijective seconds := ⟨seconds_injective, seconds_surjective⟩

end Time
end QuicTls.Gregorian
