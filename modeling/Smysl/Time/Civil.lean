import Smysl.Lib.Reckoning
import Smysl.Time.Interval

/-!
The two calendars' arithmetic: the number of a day in closed form, and the civil
date of a day as the inverse of it.
-/
namespace Smysl
namespace Calendar


/-- Days before a month of a year begun in March. -/
def monthDays (mp : Int) : Int := (153 * mp + 2) / 5

/-- Days before a year begun in March. -/
def yearDays (y : Int) : Int := 365 * y + y / 4 - y / 100 + y / 400

theorem unchecked_eq (year : Int) (month day : Nat) :
    daysFromCivilUnchecked year month day =
      yearDays (year - (if month ≤ 2 then 1 else 0)) +
        monthDays (if month > 2 then month - 3 else month + 9) + day - 719469 := by
  rw [daysFromCivilUnchecked, yearDays, monthDays]
  generalize year - (if month ≤ 2 then 1 else 0) = y
  generalize (153 * (if month > 2 then (month : Int) - 3 else month + 9) + 2) / 5 = m
  omega

theorem is_leap_iff (year : Int) :
    Edtf.isLeap year = true ↔ year % 4 = 0 ∧ (year % 100 ≠ 0 ∨ year % 400 = 0) := by
  rw [Edtf.isLeap, Bool.or_eq_true, Bool.and_eq_true, beq_iff_eq, beq_iff_eq, bne_iff_ne]
  omega

/-- A year begun in March has a leap day when the year it ends in is a leap year. -/
theorem year_days_succ (y : Int) :
    yearDays (y + 1) = yearDays y + 365 + if Edtf.isLeap (y + 1) = true then 1 else 0 := by
  have four : (y + 1) / 4 = y / 4 + if (y + 1) % 4 = 0 then 1 else 0 := by split <;> omega
  have hundred : (y + 1) / 100 = y / 100 + if (y + 1) % 100 = 0 then 1 else 0 := by
    split <;> omega
  have fours : (y + 1) / 400 = y / 400 + if (y + 1) % 400 = 0 then 1 else 0 := by split <;> omega
  rw [yearDays, yearDays, four, hundred, fours]
  simp only [is_leap_iff]
  split <;> split <;> split <;> split <;> omega

theorem year_days_era (y era : Int) : yearDays (y + era * 400) = yearDays y + 146097 * era := by
  have four : (y + era * 400) / 4 = y / 4 + era * 100 := by omega
  have hundred : (y + era * 400) / 100 = y / 100 + era * 4 := by omega
  have fours : (y + era * 400) / 400 = y / 400 + era := by omega
  rw [yearDays, yearDays, four, hundred, fours]
  ring

/-! The year of a day of an era. -/

/-- The year of an era a day of it is in. -/
def yearOf (doe : Int) : Int := (doe - doe / 1460 + doe / 36524 - doe / 146096) / 365

theorem year_of_mono {a b : Int} (le : a ≤ b) : yearOf a ≤ yearOf b := by
  have step (d : Int) : yearOf d ≤ yearOf (d + 1) := by
    have atMost : (d + 1) / 1460 ≤ d / 1460 + 1 := by omega
    have least : d / 36524 ≤ (d + 1) / 36524 := by omega
    have four : d / 146096 = d / 36524 / 4 := by omega
    have four' : (d + 1) / 146096 = (d + 1) / 36524 / 4 := by omega
    rw [yearOf, yearOf, four, four']
    apply Int.ediv_le_ediv (by norm_num)
    omega
  obtain ⟨n, rfl⟩ := Int.le.dest le
  induction n with
  | zero => simp
  | succ n ih =>
    have next := step (a + n)
    rw [Nat.cast_succ, ← add_assoc]
    exact (ih (by omega)).trans next

/-- A year's first day, and the last. -/
theorem year_of_ends : ∀ y : Fin 400, yearOf (yearDays y) = y ∧
    yearOf (yearDays (y + 1) - 1) = y := by
  decide +kernel

theorem year_of_era {doe : Int} (low : 0 ≤ doe) (high : doe < 146097) :
    (0 ≤ yearOf doe ∧ yearOf doe < 400) ∧
      yearDays (yearOf doe) ≤ doe ∧ doe < yearDays (yearOf doe + 1) := by
  have first : yearOf 0 = 0 := by decide
  have last : yearOf 146096 = 399 := by decide
  have least := year_of_mono low
  have greatest := year_of_mono (show doe ≤ 146096 by omega)
  rw [first] at least
  rw [last] at greatest
  refine ⟨⟨least, by omega⟩, ?_, ?_⟩
  · by_contra early
    by_cases zero : yearOf doe = 0
    · rw [zero] at early
      exact early low
    · have before := (year_of_ends ⟨(yearOf doe - 1).toNat, by omega⟩).2
      have cast : (((yearOf doe - 1).toNat : Nat) : Int) = yearOf doe - 1 := by omega
      dsimp only at before
      rw [cast, sub_add_cancel] at before
      have above := year_of_mono (show doe ≤ yearDays (yearOf doe) - 1 by omega)
      omega
  · by_contra late
    by_cases top : yearOf doe = 399
    · have all : yearDays 400 = 146097 := by decide
      rw [top] at late
      exact late (all ▸ high)
    · have after := (year_of_ends ⟨(yearOf doe + 1).toNat, by omega⟩).1
      have cast : (((yearOf doe + 1).toNat : Nat) : Int) = yearOf doe + 1 := by omega
      dsimp only at after
      rw [cast] at after
      have below := year_of_mono (not_lt.mp late)
      omega

/-! The month of a day of a year. -/

/-- The month and the day of it that a day of a year begun in March is. -/
theorem month_of_day : ∀ doy : Fin 366,
    let mp := (5 * (doy : Int) + 2) / 153
    let m := (if mp < 10 then mp + 3 else mp - 9).toNat
    let d := ((doy : Int) - (153 * mp + 2) / 5 + 1).toNat
    ((1 ≤ m ∧ m ≤ 12) ∧ 1 ≤ d ∧ monthDays (if m > 2 then m - 3 else m + 9) + d - 1 = doy) ∧
      (if m = 2 then d ≤ 28 ∨ (doy : Nat) = 365 ∧ d = 29 else d ≤ Edtf.daysInMonth 1 m) := by
  decide +kernel

theorem days_in_month_plain {year : Int} {month : Nat} (plain : month ≠ 2) :
    Edtf.daysInMonth year month = Edtf.daysInMonth 1 month := by
  unfold Edtf.daysInMonth
  split <;> first | rfl | exact absurd rfl plain

theorem days_in_february (year : Int) :
    Edtf.daysInMonth year 2 = if Edtf.isLeap year then 29 else 28 := rfl

/-- The civil date of a day is a real one, and is numbered by that day. -/
theorem civil_from_days_spec (days : Int) :
    let c := civilFromDays days
    (1 ≤ c.month ∧ c.month ≤ 12) ∧ (1 ≤ c.day ∧ c.day ≤ Edtf.daysInMonth c.year c.month) ∧
      daysFromCivilUnchecked c.year c.month c.day = days := by
  have low : 0 ≤ (days + 719468) % 146097 := Int.emod_nonneg _ (by norm_num)
  have high : (days + 719468) % 146097 < 146097 := Int.emod_lt_of_pos _ (by norm_num)
  have whole := Int.emod_add_mul_ediv (days + 719468) 146097
  rw [civilFromDays]
  dsimp only
  generalize (days + 719468) / 146097 = era at whole ⊢
  generalize (days + 719468) % 146097 = doe at low high whole ⊢
  obtain ⟨⟨first, last⟩, begun, over_⟩ := year_of_era low high
  rw [← yearOf]
  generalize yearOf doe = y at first last begun over_ ⊢
  have flat : y / 400 = 0 := by omega
  rw [yearDays, flat, add_zero] at begun
  have day : doe - (365 * y + y / 4 - y / 100) < 366 := by
    rw [yearDays] at over_
    omega
  have cast : (((doe - (365 * y + y / 4 - y / 100)).toNat : Nat) : Int) =
      doe - (365 * y + y / 4 - y / 100) := Int.toNat_of_nonneg (by omega)
  have month := month_of_day ⟨(doe - (365 * y + y / 4 - y / 100)).toNat, by omega⟩
  dsimp only at month
  rw [cast] at month
  generalize doy : doe - (365 * y + y / 4 - y / 100) = n at month day ⊢
  generalize (if (5 * n + 2) / 153 < 10 then (5 * n + 2) / 153 + 3
    else (5 * n + 2) / 153 - 9) = mi at month ⊢
  generalize (n - (153 * ((5 * n + 2) / 153) + 2) / 5 + 1).toNat = d at month ⊢
  obtain ⟨⟨within, some_, number⟩, real⟩ := month
  obtain ⟨m, rfl⟩ : ∃ m : Nat, mi = m := ⟨mi.toNat, by omega⟩
  rw [Int.toNat_natCast] at real within number ⊢
  have early : ((m : Int) ≤ 2) ↔ m ≤ 2 := by omega
  simp only [early]
  refine ⟨within, ⟨some_, ?_⟩, ?_⟩
  · by_cases february : m = 2
    · rw [if_pos february] at real
      rw [february, if_pos le_rfl, days_in_february]
      rcases real with short | ⟨last_, leap⟩
      · split <;> omega
      · -- The last day of a year begun in March is the leap day of the next.
        have long := year_days_succ y
        rw [yearDays, yearDays, flat] at long
        rw [yearDays] at over_
        have leap_ : Edtf.isLeap (y + 1) = true := by
          by_contra plain
          rw [if_neg plain] at long
          omega
        rw [if_pos, leap]
        rw [is_leap_iff] at leap_ ⊢
        omega
    · rw [if_neg february] at real
      rw [days_in_month_plain february]
      exact real
  · rw [unchecked_eq, add_sub_cancel_right, year_days_era, yearDays, flat]
    omega

/-! The two calendars. -/

theorem unchecked_first (year : Int) (month day : Nat) :
    daysFromCivilUnchecked year month day = daysFromCivilUnchecked year month 1 + day - 1 := by
  rw [unchecked_eq, unchecked_eq]
  omega

theorem year_days_lt {y z : Int} (lt : y < z) : yearDays y + 365 ≤ yearDays z := by
  obtain ⟨n, rfl⟩ := Int.le.dest (show y + 1 ≤ z by omega)
  induction n with
  | zero =>
    have next := year_days_succ y
    rw [Nat.cast_zero, add_zero]
    split at next <;> omega
  | succ n ih =>
    have before := ih (by omega)
    have next := year_days_succ (y + 1 + n)
    rw [Nat.cast_succ, ← add_assoc]
    split at next <;> omega

def gregorianDays : Reckoning where
  first y m := daysFromCivilUnchecked y m 1
  length y m := Edtf.daysInMonth y m
  long y m low high := by
    interval_cases m <;> simp only [Edtf.daysInMonth] <;> first | omega | (split <;> omega)
  within y m low high := by
    have next := year_days_lt (show y - 1 < y by omega)
    rw [unchecked_eq, unchecked_eq, unchecked_eq]
    simp only [monthDays]
    interval_cases m <;> norm_num <;> omega
  newYear y z lt := by
    have gap := year_days_lt (show y - 1 < z - 1 by omega)
    have after := year_days_lt (show y - 1 < y by omega)
    rw [unchecked_eq, unchecked_eq]
    simp only [monthDays]
    norm_num
    rcases (show y ≤ z - 1 by omega).lt_or_eq with lt' | same
    · have more := year_days_lt lt'
      omega
    · rw [← same]
      omega

theorem gregorian_number (y : Int) (m d : Nat) :
    gregorianDays.number y m d = daysFromCivilUnchecked y m d := (unchecked_first y m d).symm

def julianDays : Reckoning where
  first y m := julianDayNumber y m 1 - 2440588
  length y m := julianDaysInMonth y m
  long y m low high := by
    interval_cases m <;> simp only [julianDaysInMonth] <;> first | omega | (split <;> omega)
  within y m low high := by
    simp only [julianDayNumber]
    interval_cases m <;> norm_num <;> omega
  newYear y z lt := by
    simp only [julianDayNumber]
    norm_num
    omega

theorem julian_number (y : Int) (m d : Nat) :
    julianDays.number y m d = julianDayNumber y m d - 2440588 := by
  rw [Reckoning.number]
  simp only [julianDays, julianDayNumber]
  omega

/-- The days of a value's calendar. -/
def daysOf : Option Calendar → Reckoning
  | none => gregorianDays
  | some .julian => julianDays

section
variable {cal : Option Calendar} {y : Int} {m d : Nat}

/-- No month of either calendar is shorter than the Gregorian one. -/
theorem length_cases (month : 1 ≤ m ∧ m ≤ 12) :
    (daysOf cal).length y m = Edtf.daysInMonth y m ∨
      (cal = some .julian ∧ m = 2 ∧ y % 100 = 0 ∧ y % 400 ≠ 0) ∧ Edtf.daysInMonth y m = 28 ∧
        (daysOf cal).length y m = 29 := by
  cases cal with
  | none => exact Or.inl rfl
  | some c =>
    cases c
    by_cases february : m = 2
    · subst february
      have gregorian := is_leap_iff y
      rw [days_in_february]
      change (if y % 4 = 0 then 29 else 28) = _ ∨ _ ∧ _ ∧ (if y % 4 = 0 then 29 else 28) = 29
      by_cases leap : Edtf.isLeap y = true
      · rw [gregorian] at leap
        rw [if_pos leap.1, if_pos (gregorian.mpr leap)]
        exact Or.inl rfl
      · rw [if_neg leap]
        rw [gregorian] at leap
        by_cases four : y % 4 = 0
        · rw [if_pos four]
          exact Or.inr ⟨⟨rfl, rfl, by omega, by omega⟩, rfl, rfl⟩
        · rw [if_neg four]
          exact Or.inl rfl
    · apply Or.inl
      rw [days_in_month_plain february]
      obtain ⟨low, high⟩ := month
      change julianDaysInMonth y m = _
      interval_cases m <;> first | rfl | exact absurd rfl february

theorem days_le_length (month : 1 ≤ m ∧ m ≤ 12) :
    Edtf.daysInMonth y m ≤ (daysOf cal).length y m := by
  rcases @length_cases cal y m month with same | ⟨_, short, long⟩ <;> omega

theorem days_in_month_long (month : 1 ≤ m ∧ m ≤ 12) :
    28 ≤ Edtf.daysInMonth y m ∧ Edtf.daysInMonth y m ≤ 31 :=
  gregorianDays.long y m month.1 month.2

/-- A leap year of both calendars has every day of a month that another year has. -/
theorem length_leap {z : Int} (four : z % 4 = 0) (century : z % 100 ≠ 0)
    (month : 1 ≤ m ∧ m ≤ 12) : (daysOf cal).length y m ≤ (daysOf cal).length z m := by
  have leap : Edtf.isLeap z = true := (is_leap_iff z).mpr ⟨four, Or.inl century⟩
  have least := @days_le_length cal z m month
  by_cases february : m = 2
  · subst february
    rw [days_in_february, leap, if_pos rfl] at least
    refine le_trans ?_ least
    rcases @length_cases cal y 2 month with same | ⟨_, _, long⟩
    · rw [same, days_in_february]
      split <;> omega
    · omega
  · rcases @length_cases cal y m month with same | ⟨⟨_, two, _⟩, _⟩
    · rw [same, days_in_month_plain february, ← @days_in_month_plain z m february]
      exact least
    · exact absurd two february

/-- The years four digits hold are far from the ends of the instants. -/
theorem number_near (low : -10000 ≤ y) (high : y ≤ 10000) (month : 1 ≤ m ∧ m ≤ 12) (day : d ≤ 31) :
    -5000000 ≤ (daysOf cal).number y m d ∧ (daysOf cal).number y m d ≤ 5000000 := by
  obtain ⟨first, last⟩ := month
  cases cal with
  | none =>
    change -5000000 ≤ gregorianDays.number y m d ∧ gregorianDays.number y m d ≤ 5000000
    rw [gregorian_number, unchecked_eq]
    simp only [yearDays, monthDays]
    split <;> split <;> omega
  | some c =>
    cases c
    change -5000000 ≤ julianDays.number y m d ∧ julianDays.number y m d ≤ 5000000
    rw [julian_number]
    simp only [julianDayNumber]
    split <;> omega

/-- A date as the extents take it: the day clamped into its month, in the civil calendar. -/
theorem shifted_days (month : 1 ≤ m ∧ m ≤ 12) (day : 1 ≤ d) :
    ∃ c : Civil, Edtf.shiftCalendar y m d cal = some (c.year, c.month, c.day) ∧
      daysFromCivil c.year c.month (min c.day (Edtf.daysInMonth c.year c.month)) =
        some ((daysOf cal).number y m (min d (Edtf.daysInMonth y m))) ∧
      (d ≤ Edtf.daysInMonth y m → c.day ≤ Edtf.daysInMonth c.year c.month) := by
  have long := @days_in_month_long y m month
  cases cal with
  | none =>
    refine ⟨⟨y, m, d⟩, rfl, ?_, fun real => real⟩
    change _ = some (gregorianDays.number y m (min d (Edtf.daysInMonth y m)))
    rw [gregorian_number, daysFromCivil, if_neg (by dsimp only; omega)]
  | some c =>
    cases c
    have fits := @days_le_length (some .julian) y m month
    change Edtf.daysInMonth y m ≤ julianDaysInMonth y m at fits
    obtain ⟨within, some_, number⟩ :=
      civil_from_days_spec (julianDayNumber y m (min d (Edtf.daysInMonth y m)) - 2440588)
    refine ⟨civilFromDays (julianDayNumber y m (min d (Edtf.daysInMonth y m)) - 2440588), ?_, ?_,
      fun _ => some_.2⟩
    · rw [Edtf.shiftCalendar, max_eq_left long.1, julianToGregorian, if_neg (by omega)]
      rfl
    · change _ = some (julianDays.number y m (min d (Edtf.daysInMonth y m)))
      rw [min_eq_left some_.2, daysFromCivil, if_neg (by omega), number, julian_number]

end

end Calendar
end Smysl
