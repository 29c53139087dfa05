import Smysl.Time.Civil

/-!
Day after day: the civil dates and the day numbers are in bijection, and what follows a
date is numbered one more, in both calendars and for every year.
-/
namespace Smysl
namespace Calendar

theorem gregorian_gapless : gregorianDays.Gapless where
  month y m low high := by
    have leap := year_days_succ (y - 1)
    rw [sub_add_cancel] at leap
    simp only [gregorianDays, unchecked_eq, monthDays]
    interval_cases m <;> norm_num [Edtf.daysInMonth] <;>
      first | omega | (split at leap <;> rename_i given <;> simp [given] <;> omega)
  year y := by
    simp only [gregorianDays, unchecked_eq, monthDays]
    norm_num [Edtf.daysInMonth]
    omega

theorem julian_gapless : julianDays.Gapless where
  month y m low high := by
    have quarter : y % 4 = 0 ∨ y % 4 = 1 ∨ y % 4 = 2 ∨ y % 4 = 3 := by omega
    simp only [julianDays, julianDayNumber]
    interval_cases m <;> norm_num [julianDaysInMonth] <;> omega
  year y := by
    simp only [julianDays, julianDayNumber]
    norm_num [julianDaysInMonth]
    omega

/-! The civil dates. -/

/-- The civil date of a day is one the calendar has. -/
theorem civil_real (days : Int) : gregorianDays.Real (civilFromDays days).year
    (civilFromDays days).month (civilFromDays days).day :=
  ⟨(civil_from_days_spec days).1, (civil_from_days_spec days).2.1⟩

theorem civil_number (days : Int) : gregorianDays.number (civilFromDays days).year
    (civilFromDays days).month (civilFromDays days).day = days := by
  rw [gregorian_number]
  exact (civil_from_days_spec days).2.2

/-- A date the calendar has is the civil date of its own number. -/
theorem civil_of_number {y : Int} {m d : Nat} (real : gregorianDays.Real y m d) :
    civilFromDays (gregorianDays.number y m d) = ⟨y, m, d⟩ := by
  obtain ⟨year, month, day⟩ := gregorian_gapless.number_inj (civil_real _) real (civil_number _)
  generalize civilFromDays (gregorianDays.number y m d) = c at year month day ⊢
  cases c
  cases year
  cases month
  cases day
  rfl

theorem days_from_civil_iff (y : Int) (m d : Nat) (days : Int) :
    daysFromCivil y m d = some days ↔
      gregorianDays.Real y m d ∧ gregorianDays.number y m d = days := by
  rw [daysFromCivil, gregorian_number]
  split
  · rename_i outside
    refine iff_of_false (Option.some_ne_none days).symm ?_
    rintro ⟨⟨month, day⟩, _⟩
    have last : d ≤ Edtf.daysInMonth y m := day.2
    omega
  · rename_i inside
    have real : gregorianDays.Real y m d := by
      refine ⟨by omega, ?_⟩
      change 1 ≤ d ∧ d ≤ Edtf.daysInMonth y m
      omega
    rw [Option.some_inj]
    exact (and_iff_right real).symm

/-- The Gregorian date of a date of the Julian calendar is numbered by the same day. -/
theorem julian_converted {y : Int} {m d : Nat} (real : julianDays.Real y m d) :
    ∃ c, julianToGregorian y m d = some c ∧
      daysFromCivil c.year c.month c.day = some (julianDayNumber y m d - 2440588) := by
  obtain ⟨month, day⟩ := real
  have last : d ≤ julianDaysInMonth y m := day.2
  refine ⟨civilFromDays (julianDayNumber y m d - 2440588), if_neg (by omega), ?_⟩
  rw [days_from_civil_iff]
  exact ⟨civil_real _, civil_number _⟩

/-- Days and civil dates are one to one, each date's successor is the next day's, and the Julian
calendar numbers its dates one after another as well, in whatever Gregorian dates they become. -/
theorem conversion_successive :
    (∀ days, daysFromCivil (civilFromDays days).year (civilFromDays days).month
      (civilFromDays days).day = some days) ∧
    (∀ y m d days, daysFromCivil y m d = some days → civilFromDays days = ⟨y, m, d⟩) ∧
    (∀ y m d, gregorianDays.Real y m d → ∃ days, daysFromCivil y m d = some days) ∧
    (∀ days, gregorianDays.Real (civilFromDays days).year (civilFromDays days).month
        (civilFromDays days).day ∧
      ((civilFromDays (days + 1)).year, (civilFromDays (days + 1)).month,
        (civilFromDays (days + 1)).day) =
          gregorianDays.next (civilFromDays days).year (civilFromDays days).month
            (civilFromDays days).day) ∧
    ∀ y m d, julianDays.Real y m d →
      julianDays.Real (julianDays.next y m d).1 (julianDays.next y m d).2.1
        (julianDays.next y m d).2.2 ∧
      julianDayNumber (julianDays.next y m d).1 (julianDays.next y m d).2.1
        (julianDays.next y m d).2.2 = julianDayNumber y m d + 1 ∧
      ∃ c c' days, julianToGregorian y m d = some c ∧
        julianToGregorian (julianDays.next y m d).1 (julianDays.next y m d).2.1
          (julianDays.next y m d).2.2 = some c' ∧
        daysFromCivil c.year c.month c.day = some days ∧
        daysFromCivil c'.year c'.month c'.day = some (days + 1) := by
  refine ⟨fun days => ?_, fun y m d days given => ?_, fun y m d real => ?_, fun days => ?_,
    fun y m d real => ?_⟩
  · exact (days_from_civil_iff _ _ _ _).mpr ⟨civil_real days, civil_number days⟩
  · obtain ⟨real, rfl⟩ := (days_from_civil_iff _ _ _ _).mp given
    exact civil_of_number real
  · exact ⟨_, (days_from_civil_iff _ _ _ _).mpr ⟨real, rfl⟩⟩
  · refine ⟨civil_real days, ?_⟩
    have real := (civil_real days).next
    have number := gregorian_gapless.number_next (civil_real days)
    rw [civil_number] at number
    have date := civil_of_number real
    rw [number] at date
    rw [date]
  · have number := julian_gapless.number_next real
    rw [julian_number, julian_number] at number
    obtain ⟨c, converted, days⟩ := julian_converted real
    obtain ⟨c', converted', days'⟩ := julian_converted real.next
    refine ⟨real.next, by omega, c, c', _, converted, converted', days, ?_⟩
    rw [days']
    exact congrArg some number

end Calendar
end Smysl
