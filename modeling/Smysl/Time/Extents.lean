import Smysl.Core.Edtf.Values
import Smysl.Time.Civil

/-!
What an EDTF value admits, and when its extent has all of it. A masked year stands
for every year with the digits it gives, a season for its year, and a date-time
without a zone for every offset in use.
-/
namespace Smysl
open ByteString
open Calendar (daysOf msPerDay)

/-- A lower bound leaves an instant in. -/
def TimeBound.AtMost (b : TimeBound) (t : Instant) : Prop := ∀ a, b = .at_ a → a ≤ t

/-- An upper bound leaves an instant in. -/
def TimeBound.After (b : TimeBound) (t : Instant) : Prop := ∀ a, b = .at_ a → t < a

structure TimeInterval.Has (i : TimeInterval) (t : Instant) : Prop where
  lo : i.lo.AtMost t
  hi : i.hi.After t

namespace Edtf

/-- The years that have the sign and the digits a year gives. -/
def Year.Admits (y : Year) (n : Int) : Prop :=
  (n < 0 ↔ y.value < 0) ∧ n.natAbs / 10 ^ y.unspecified = y.value.natAbs / 10 ^ y.unspecified

/-- The months a month admits: a season fixes none. -/
def monthAdmits : Option Part → Nat → Prop
  | some (.num k), m => 21 ≤ k ∨ m = k
  | _, _ => True

def dayAdmits : Option Part → Nat → Prop
  | some (.num k), d => d = k
  | _, _ => True

/-- The instants of the days of the calendar that a date admits. -/
def Date.Admits (cal : Option Calendar) (d : Date) (t : Instant) : Prop :=
  ∃ y m e, d.year.Admits y ∧ monthAdmits d.month m ∧ dayAdmits d.day e ∧ (daysOf cal).Real y m e ∧
    (daysOf cal).number y m e * msPerDay ≤ t ∧ t < ((daysOf cal).number y m e + 1) * msPerDay

/-- The minutes that a local time may be ahead of UTC. -/
def zoneAdmits : Option Zone → Int → Prop
  | some .utc, m => m = 0
  | some (.offset k), m => m = k
  | none, m => -(12 * 60) ≤ m ∧ m ≤ 14 * 60

/-- The second of a date-time, in each zone it may be in. -/
def DateTime.Admits (cal : Option Calendar) (t : DateTime) (i : Instant) : Prop :=
  (daysOf cal).Real t.year t.month t.day ∧ ∃ m, zoneAdmits t.zone m ∧
    ∃ ms : Int, 0 ≤ ms ∧ ms < 1000 ∧ i =
      (daysOf cal).number t.year t.month t.day * msPerDay +
        (t.hour * 3600 + t.minute * 60 + t.second) * 1000 - m * 60000 + ms

/-- An interval admits what is not before its first date and not after its last. -/
def Admits (cal : Option Calendar) (v : Edtf) (t : Instant) : Prop :=
  match v with
  | .date d => d.Admits cal t
  | .dateTime s => s.Admits cal t
  | .interval lo hi =>
    (∀ d, lo = .date d → ∃ s ≤ t, d.Admits cal s) ∧ ∀ d, hi = .date d → ∃ s ≥ t, d.Admits cal s

/-- The condition on the first date: no year before zero is masked. -/
def Date.LowKept (d : Date) : Prop := 0 ≤ d.year.value ∨ d.year.unspecified = 0

/-- The condition on the last: no whole February of a year that only the Julian calendar has as a
leap year. -/
def Date.HighKept (cal : Option Calendar) (d : Date) : Prop :=
  ¬ (cal = some .julian ∧ d.month = some (.num 2) ∧ (∀ k, d.day ≠ some (.num k)) ∧
    d.year.unspecified = 0 ∧ d.year.value % 100 = 0 ∧ d.year.value % 400 ≠ 0)

def Kept (cal : Option Calendar) (v : Edtf) : Prop :=
  match v with
  | .date d => d.LowKept ∧ d.HighKept cal
  | .dateTime _ => True
  | .interval lo hi =>
    (∀ d, lo = .date d → d.LowKept) ∧ ∀ d, hi = .date d → d.HighKept cal

/-! The two ends of a day. -/

theorem checked_some {n a : Int} (fits : checked n = some a) : a = n := by
  rw [checked] at fits
  split at fits
  · exact (Option.some.inj fits).symm
  · cases fits

theorem checked_near {n : Int} (low : minInstant ≤ n) (high : n ≤ maxInstant) :
    checked n = some n := if_pos ⟨low, high⟩

theorem bound_of_at {ms : Option Int} {a : Int} (bound : boundOf ms = .at_ a) : ms = some a := by
  cases ms with
  | none => cases bound
  | some b =>
    cases bound
    rfl

theorem bound_at_most {n t : Int} (le : n ≤ t) : (boundOf (checked n)).AtMost t := by
  intro a bound
  rw [checked_some (bound_of_at bound)]
  exact le

theorem bound_after {n t : Int} (lt : t < n) : (boundOf (checked n)).After t := by
  intro a bound
  rw [checked_some (bound_of_at bound)]
  exact lt

section
variable {cal : Option Calendar} {y : Int} {m d : Nat} (month : 1 ≤ m ∧ m ≤ 12) (day : 1 ≤ d)
include month day

theorem start_of_eq : startOf y m d cal =
    checked ((daysOf cal).number y m (min d (daysInMonth y m)) * msPerDay) := by
  obtain ⟨c, shifted, number, _⟩ := @Calendar.shifted_days cal y m d month day
  rw [startOf, shifted]
  change (Calendar.daysFromCivil c.year c.month _).bind _ = _
  rw [number]
  rfl

theorem end_of_eq : endOf y m d cal =
    checked (((daysOf cal).number y m (min d (daysInMonth y m)) + 1) * msPerDay) := by
  obtain ⟨c, shifted, number, _⟩ := @Calendar.shifted_days cal y m d month day
  rw [endOf, shifted]
  change (Calendar.daysFromCivil c.year c.month _).bind _ = _
  rw [number]
  change (checked _).bind _ = _
  generalize (daysOf cal).number y m (min d (daysInMonth y m)) + 1 = next
  rw [msPerDay]
  by_cases fits : minInstant ≤ next ∧ next ≤ maxInstant
  · rw [checked_near fits.1 fits.2]
    rfl
  · rw [checked, if_neg fits, checked, if_neg]
    · rfl
    · rw [minInstant, maxInstant] at fits ⊢
      omega

end

/-! The years and days a date admits. -/

theorem Year.unspecified_le (y : Year) : y.unspecified ≤ 4 := by
  rcases y.valid with ⟨_, short, _⟩ | ⟨_, none, _⟩ <;> omega

theorem Year.admits_between {y : Year} {n : Int} (admits : y.Admits n) :
    (0 ≤ y.value ∨ y.unspecified = 0 → y.value ≤ n) ∧
      n ≤ y.value + 10 ^ y.unspecified - 1 := by
  obtain ⟨sign, digits⟩ := admits
  have short := y.unspecified_le
  have valid := y.valid
  generalize y.unspecified = u at *
  generalize y.value = v at *
  interval_cases u <;> norm_num at * <;> omega

theorem date_extent_eq {d : Date} {lo hi : Nat × Nat} (cal : Option Calendar)
    (span : dateSpan d.month d.day = (lo, hi)) : dateExtent d cal =
      ⟨boundOf (startOf d.year.value lo.1 lo.2 cal),
        boundOf (endOf (d.year.value + 10 ^ d.year.unspecified - 1) hi.1 hi.2 cal)⟩ := by
  rw [dateExtent, span]

/-- A date's months and days: of a whole year, or within one month. -/
theorem Date.Proper.span {d : Date} (proper : d.Proper) :
    dateSpan d.month d.day = ((1, 1), (12, 31)) ∨
      ∃ m lo hi, d.month = some (.num m) ∧ (1 ≤ m ∧ m ≤ 12) ∧ 1 ≤ lo ∧ 1 ≤ hi ∧
        dateSpan d.month d.day = ((m, lo), (m, hi)) ∧
        ∀ e, 1 ≤ e → e ≤ 31 → dayAdmits d.day e → lo ≤ e ∧ e ≤ hi := by
  cases month : d.month with
  | none => exact Or.inl rfl
  | some part =>
    cases part with
    | unspecified => exact Or.inl rfl
    | num m =>
      have fits : Component.takes .month m = true := proper.month _ month
      have range : 1 ≤ m ∧ m ≤ 12 ∨ 21 ≤ m := by
        simp only [Component.takes, Bool.or_eq_true, Bool.and_eq_true, decide_eq_true_eq] at fits
        omega
      by_cases season : 21 ≤ m
      · exact Or.inl (if_pos season)
      · apply Or.inr
        have within : 1 ≤ m ∧ m ≤ 12 := by omega
        cases day : d.day with
        | none =>
          exact ⟨m, 1, 31, rfl, within, le_rfl, by omega, if_neg season,
            fun e low high _ => ⟨low, high⟩⟩
        | some part =>
          cases part with
          | unspecified =>
            exact ⟨m, 1, 31, rfl, within, le_rfl, by omega, if_neg season,
              fun e low high _ => ⟨low, high⟩⟩
          | num k =>
            have fits' : Component.takes .day k = true := proper.day _ day
            simp only [Component.takes, Bool.and_eq_true, decide_eq_true_eq] at fits'
            refine ⟨m, k, k, rfl, within, fits'.1, fits'.1, if_neg season, fun e _ _ same => ?_⟩
            have here : e = k := same
            omega

theorem month_admits_num {k m : Nat} (admits : monthAdmits (some (.num k)) m) (month : k ≤ 12) :
    m = k := by
  rcases admits with season | same
  · omega
  · exact same

/-! The extent of a date. -/

section
variable {cal : Option Calendar} {d : Date} {t : Instant}

theorem day_lt (n : Int) : n * msPerDay < (n + 1) * msPerDay := by
  rw [msPerDay]
  omega

theorem days_scale {a b : Int} (le : a ≤ b) : a * msPerDay ≤ b * msPerDay := by
  rw [msPerDay]
  omega

/-- Nothing a date admits is before its extent, unless a year before zero is masked. -/
theorem Date.Proper.low (proper : d.Proper) (kept : d.LowKept) (admits : d.Admits cal t) :
    (dateExtent d cal).lo.AtMost t := by
  obtain ⟨y, m, e, year, month, day, real, begins, _⟩ := admits
  have from_ := (Year.admits_between year).1 kept
  rcases proper.span with span | ⟨k, lo, hi, same, within, some_, _, span, days⟩
  · rw [date_extent_eq cal span]
    dsimp only
    rw [start_of_eq (by decide) le_rfl]
    have january := (@Calendar.days_in_month_long d.year.value 1 (by decide)).1
    rw [min_eq_left (by omega)]
    apply bound_at_most
    refine le_trans (days_scale ?_) begins
    exact (Reckoning.years from_).1.trans (Reckoning.year_least real)
  · rw [same] at month
    have here := month_admits_num month within.2
    subst here
    have low := (days e real.day.1 real.short day).1
    rw [date_extent_eq cal span]
    dsimp only
    rw [start_of_eq within some_]
    apply bound_at_most
    refine le_trans (days_scale ?_) begins
    exact Reckoning.month_least real from_ ((min_le_left _ _).trans low)

/-- The last day a date admits in the last year is not beyond the Gregorian month. -/
theorem Date.Proper.last_day (proper : d.Proper) (kept : d.HighKept cal) {m e : Nat}
    (month : d.month = some (.num m)) (day : dayAdmits d.day e)
    (real : (daysOf cal).Real (d.year.value + 10 ^ d.year.unspecified - 1) m e) :
    e ≤ daysInMonth (d.year.value + 10 ^ d.year.unspecified - 1) m := by
  have within := real.day.2
  rcases @Calendar.length_cases cal (d.year.value + 10 ^ d.year.unspecified - 1) m real.month with
    same | ⟨⟨julian, february, century, plain⟩, short, long⟩
  · rwa [same] at within
  · -- The last year of a masked one is no century.
    have unmasked : d.year.unspecified = 0 := by
      have short := d.year.unspecified_le
      have valid := d.year.valid
      generalize d.year.unspecified = u at *
      generalize d.year.value = v at *
      interval_cases u <;> norm_num at * <;> omega
    rw [unmasked, pow_zero, add_sub_cancel_right] at century plain short long within ⊢
    subst february
    by_contra beyond
    refine kept ⟨julian, month, fun k given => ?_, unmasked, century, plain⟩
    rw [given] at day
    have here : e = k := day
    have exists_ := proper.exists'
    rw [month, given, noSuchDay, unmasked, Bool.and_eq_false_iff] at exists_
    rcases exists_ with masked | fits
    · cases masked
    · rw [decide_eq_false_iff_not] at fits
      omega

/-- Nothing a date admits is after its extent, unless it is the whole of a February that only the
Julian calendar has so long. -/
theorem Date.Proper.high (proper : d.Proper) (kept : d.HighKept cal) (admits : d.Admits cal t) :
    (dateExtent d cal).hi.After t := by
  obtain ⟨y, m, e, year, month, day, real, _, ends⟩ := admits
  have to_ := (Year.admits_between year).2
  rcases proper.span with span | ⟨k, lo, hi, same, within, _, some_, span, days⟩
  · rw [date_extent_eq cal span]
    dsimp only
    rw [end_of_eq (by decide) (by decide)]
    have december : min 31 (daysInMonth (d.year.value + 10 ^ d.year.unspecified - 1) 12) = 31 := rfl
    rw [december]
    apply bound_after
    refine lt_of_lt_of_le ends (days_scale ?_)
    have last := (Reckoning.year_greatest real).trans (Reckoning.years to_).2
    omega
  · rw [same] at month
    have here := month_admits_num month within.2
    subst here
    have high := (days e real.day.1 real.short day).2
    have long := @Calendar.days_in_month_long (d.year.value + 10 ^ d.year.unspecified - 1) m within
    rw [date_extent_eq cal span]
    dsimp only
    rw [end_of_eq within some_]
    apply bound_after
    refine lt_of_lt_of_le ends (days_scale ?_)
    refine Int.add_le_add_right (Reckoning.month_greatest real to_ (by omega) fun last => ?_) 1
    subst last
    exact le_min high (proper.last_day kept same day real)

end

/-! Where the extent of a date falls short. -/

section
variable {cal : Option Calendar} {d : Date} {t : Instant}

theorem bound_near {n : Int} (low : -5000001 ≤ n) (high : n ≤ 5000001) :
    boundOf (checked (n * msPerDay)) = .at_ (n * msPerDay) := by
  have fits : checked (n * msPerDay) = some (n * msPerDay) := by
    rw [msPerDay]
    apply checked_near
    · rw [minInstant]
      omega
    · rw [maxInstant]
      omega
  rw [fits]
  rfl

/-- A masked year before zero has a leap year before the one its extent begins with. -/
theorem Year.earlier (y : Year) (falls : ¬ (0 ≤ y.value ∨ y.unspecified = 0)) :
    -9999 ≤ y.value ∧ ∃ z, y.Admits z ∧ z < y.value ∧ -10000 ≤ z ∧ z % 4 = 0 ∧ z % 100 ≠ 0 := by
  have short := y.unspecified_le
  have valid := y.valid
  refine ⟨by omega, if y.value % 4 = 0 then y.value - 4 else y.value - 2, ?_⟩
  rw [Year.Admits]
  generalize y.unspecified = u at *
  generalize y.value = v at *
  interval_cases u <;> norm_num at * <;> split <;> omega

theorem Date.Proper.low_falls (proper : d.Proper) (falls : ¬ d.LowKept) (admits : d.Admits cal t) :
    ∃ s a, d.Admits cal s ∧ (dateExtent d cal).lo = .at_ a ∧ s < a := by
  obtain ⟨y, m, e, _, month, day, real, _⟩ := admits
  obtain ⟨near, z, year, before, far, four, century⟩ := d.year.earlier falls
  have negative : d.year.value < 0 := by
    rw [Date.LowKept] at falls
    omega
  have real' : (daysOf cal).Real z m e :=
    ⟨real.month, real.day.1, real.day.2.trans (Calendar.length_leap four century real.month)⟩
  have admits' : d.Admits cal ((daysOf cal).number z m e * msPerDay) :=
    ⟨z, m, e, year, month, day, real', le_rfl, day_lt _⟩
  have scale {a b : Int} (lt : a < b) : a * msPerDay < b * msPerDay := by
    rw [msPerDay]
    omega
  rcases proper.span with span | ⟨k, lo, hi, same, within, some_, _, span, _⟩
  · refine ⟨_, _, admits', ?_, scale (Reckoning.number_lt_year real' before)⟩
    rw [date_extent_eq cal span]
    dsimp only
    have january := (@Calendar.days_in_month_long d.year.value 1 (by decide)).1
    rw [start_of_eq (by decide) le_rfl, min_eq_left (by omega)]
    have bounds := @Calendar.number_near cal d.year.value 1 1 (by omega) (by omega) (by decide)
      (by decide)
    exact bound_near (by omega) (by omega)
  · rw [same] at month
    have here := month_admits_num month within.2
    subst here
    have long := @Calendar.days_in_month_long d.year.value m within
    have first : 1 ≤ min lo (daysInMonth d.year.value m) := by omega
    refine ⟨_, _, admits', ?_, scale (Reckoning.number_lt_later real' before first)⟩
    rw [date_extent_eq cal span]
    dsimp only
    rw [start_of_eq within some_]
    have bounds := @Calendar.number_near cal d.year.value m (min lo (daysInMonth d.year.value m))
      (by omega) (by omega) within (by omega)
    exact bound_near (by omega) (by omega)

theorem Date.Proper.high_falls (proper : d.Proper) (falls : ¬ d.HighKept cal) :
    ∃ s b, d.Admits cal s ∧ (dateExtent d cal).hi = .at_ b ∧ b ≤ s := by
  obtain ⟨julian, month, open_, unmasked, century, plain⟩ := not_not.mp falls
  have whole : dateSpan d.month d.day = ((2, 1), (2, 31)) := by
    rw [month]
    cases day : d.day with
    | none => rfl
    | some part =>
      cases part with
      | unspecified => rfl
      | num k => exact absurd day (open_ k)
  have short : d.year.long = false := by
    by_contra long
    rw [Bool.not_eq_false] at long
    rw [(proper.alone long).1] at month
    cases month
  have near : -9999 ≤ d.year.value ∧ d.year.value ≤ 9999 := by
    rcases d.year.valid with ⟨_, _, low, high, _⟩ | ⟨long, _⟩
    · exact ⟨low, high⟩
    · rw [short] at long
      cases long
  have four : d.year.value % 4 = 0 := by omega
  have leap : Calendar.julianDaysInMonth d.year.value 2 = 29 := if_pos four
  have real : (daysOf cal).Real d.year.value 2 29 := by
    subst julian
    exact ⟨by decide, by decide, leap.ge⟩
  have day : dayAdmits d.day 29 := by
    cases given : d.day with
    | none => trivial
    | some part =>
      cases part with
      | unspecified => trivial
      | num k => exact absurd given (open_ k)
  have last : daysInMonth d.year.value 2 = 28 := by
    rw [Calendar.days_in_february, if_neg]
    rw [Calendar.is_leap_iff]
    omega
  refine ⟨(daysOf cal).number d.year.value 2 29 * msPerDay, _, ?_, ?_, le_rfl⟩
  · refine ⟨d.year.value, 2, 29, ⟨Iff.rfl, rfl⟩, ?_, day, real, le_rfl, day_lt _⟩
    rw [month]
    exact Or.inr rfl
  · rw [date_extent_eq cal whole]
    dsimp only
    rw [unmasked, pow_zero, add_sub_cancel_right, end_of_eq (by decide) (by decide), last]
    have next : (daysOf cal).number d.year.value 2 (min 31 28) + 1 =
        (daysOf cal).number d.year.value 2 29 := by
      rw [Reckoning.number, Reckoning.number]
      norm_num
      omega
    have bounds := @Calendar.number_near cal d.year.value 2 29 (by omega) (by omega) (by decide)
      (by decide)
    rw [next]
    exact bound_near (by omega) (by omega)

end

/-! Date-times. -/

theorem undated_has (t : Instant) : TimeInterval.undated.Has t :=
  ⟨fun _ none => (nomatch none), fun _ none => nomatch none⟩

theorem of_has {lo hi t : Int} (low : lo ≤ t) (high : t < hi) : (TimeInterval.of lo hi).Has t := by
  refine ⟨fun a bound => ?_, fun b bound => ?_⟩
  · cases bound
    exact low
  · cases bound
    exact high

theorem ms_from_civil_some {y days : Int} {m d h mi s : Nat} {ms : Int}
    (number : Calendar.daysFromCivil y m d = some days)
    (timed : Calendar.msFromCivil y m d h mi s = some ms) :
    ms = (days * 86400 + (h * 3600 + mi * 60 + s)) * 1000 := by
  rw [Calendar.msFromCivil] at timed
  split at timed
  · cases timed
  · rw [number] at timed
    change (checked (days * 86400)).bind _ = some ms at timed
    obtain ⟨secs, first, timed⟩ := Option.bind_eq_some_iff.mp timed
    obtain ⟨secs', second, timed⟩ := Option.bind_eq_some_iff.mp timed
    rw [checked_some timed, checked_some second, checked_some first]

theorem DateTime.Proper.has {cal : Option Calendar} {t : DateTime} {i : Instant}
    (proper : t.Proper) (admits : t.Admits cal i) : (dateTimeExtent t cal).Has i := by
  obtain ⟨real, m, zone, ms, low, high, rfl⟩ := admits
  obtain ⟨d, on⟩ := proper.date
  have day : t.day ≤ daysInMonth t.year t.month := by
    have exists_ := on.proper.exists'
    rw [on.month, on.day, noSuchDay, on.unmasked, on.year, Bool.and_eq_false_iff] at exists_
    rcases exists_ with masked | fits
    · cases masked
    · rw [decide_eq_false_iff_not] at fits
      omega
  obtain ⟨c, shifted, number, within⟩ :=
    @Calendar.shifted_days cal t.year t.month t.day real.month real.day.1
  rw [min_eq_left day, min_eq_left (within day)] at number
  rw [dateTimeExtent, shifted]
  dsimp only
  cases timed : Calendar.msFromCivil c.year c.month c.day t.hour t.minute t.second with
  | none => exact undated_has _
  | some start =>
    have value := ms_from_civil_some number timed
    rw [msPerDay]
    dsimp only
    cases named : t.zone with
    | none =>
      rw [named] at zone
      have range : -(12 * 60) ≤ m ∧ m ≤ 14 * 60 := zone
      apply of_has
      · rw [maxWestMs]
        omega
      · rw [maxEastMs]
        omega
    | some z =>
      rw [named] at zone
      cases z with
      | utc =>
        have same : m = 0 := zone
        apply of_has <;> omega
      | offset k =>
        have same : m = k := zone
        apply of_has <;> omega

/-! Values. -/

/-- What the parser makes. -/
def Proper (v : Edtf) : Prop :=
  match v with
  | .date d => d.Proper
  | .dateTime t => t.Proper
  | .interval lo hi => (∀ d, lo = .date d → d.Proper) ∧ ∀ d, hi = .date d → d.Proper

theorem Date.Spelt.proper {d : Date} {txt : Bytes} (spelt : d.Spelt txt) : d.Proper := by
  rcases spelt with plain | zero
  · exact plain.1
  · exact zero.1

theorem End.Spelt.proper {e : End} {txt : Bytes} (spelt : e.Spelt txt) :
    ∀ d, e = .date d → d.Proper := by
  rintro d rfl
  exact Date.Spelt.proper spelt

theorem proper_of_parse {txt : Bytes} {v : Edtf} (read : parse txt = .ok v) : v.Proper := by
  have spelt := parse_ok_iff.mp read
  cases v with
  | date d => exact Date.Spelt.proper spelt
  | dateTime t =>
    rcases spelt with plain | zero
    · exact plain.1
    · exact zero.1
  | interval lo hi =>
    obtain ⟨_, a, b, _, first, last⟩ := spelt
    exact ⟨End.Spelt.proper first, End.Spelt.proper last⟩

section
variable {cal : Option Calendar} {d : Date} {t : Instant}

theorem at_most_mono {b : TimeBound} {s : Instant} (most : b.AtMost s) (le : s ≤ t) : b.AtMost t :=
  fun a bound => le_trans (most a bound) le

theorem after_mono {b : TimeBound} {s : Instant} (after : b.After s) (le : t ≤ s) : b.After t :=
  fun a bound => lt_of_le_of_lt le (after a bound)

theorem interval_eq (lo hi : End) : toIntervalIn (.interval lo hi) cal =
    ⟨match lo with
      | .date d => (dateExtent d cal).lo
      | _ => .unbounded,
    match hi with
      | .date d => (dateExtent d cal).hi
      | _ => .unbounded⟩ := rfl

/-- Where the conditions hold the extent has all that is admitted. -/
theorem Kept.has {v : Edtf} (kept : v.Kept cal) (proper : v.Proper) (admits : v.Admits cal t) :
    (toIntervalIn v cal).Has t := by
  cases v with
  | date d => exact ⟨proper.low kept.1 admits, proper.high kept.2 admits⟩
  | dateTime s => exact proper.has admits
  | interval lo hi =>
    rw [interval_eq]
    constructor
    · cases lo with
      | date d =>
        obtain ⟨s, le, held⟩ := admits.1 d rfl
        exact at_most_mono ((proper.1 d rfl).low (kept.1 d rfl) held) le
      | _ => exact fun a bound => nomatch bound
    · cases hi with
      | date d =>
        obtain ⟨s, le, held⟩ := admits.2 d rfl
        exact after_mono ((proper.2 d rfl).high (kept.2 d rfl) held) le
      | _ => exact fun a bound => nomatch bound

/-- Where one fails, and anything is admitted, something is that the extent leaves out. -/
theorem Proper.falls {v : Edtf} (proper : v.Proper) (falls : ¬ v.Kept cal)
    (admits : v.Admits cal t) : ∃ s, v.Admits cal s ∧ ¬ (toIntervalIn v cal).Has s := by
  cases v with
  | date d =>
    by_cases low : d.LowKept
    · obtain ⟨s, b, held, bound, le⟩ :=
        Date.Proper.high_falls proper (fun high => falls ⟨low, high⟩)
      exact ⟨s, held, fun has => absurd (has.hi b bound) (not_lt.mpr le)⟩
    · obtain ⟨s, a, held, bound, lt⟩ := Date.Proper.low_falls proper low admits
      exact ⟨s, held, fun has => absurd (has.lo a bound) (not_le.mpr lt)⟩
  | dateTime s => exact absurd trivial falls
  | interval lo hi =>
    rw [Kept, not_and_or] at falls
    rcases falls with low | high
    · rw [not_forall] at low
      obtain ⟨d, low⟩ := low
      rw [Classical.not_imp] at low
      obtain ⟨rfl, low⟩ := low
      obtain ⟨s, le, held⟩ := admits.1 d rfl
      obtain ⟨s', a, held', bound, lt⟩ := (proper.1 d rfl).low_falls low held
      -- The earlier of the two is admitted: whatever is after the last date is after both.
      refine ⟨min s s', ⟨fun d' same => ?_, fun d' same => ?_⟩, fun has => ?_⟩
      · cases same
        rcases min_choice s s' with first | second
        · exact ⟨s, first.ge, held⟩
        · exact ⟨s', second.ge, held'⟩
      · obtain ⟨r, ge, last⟩ := admits.2 d' same
        exact ⟨r, (min_le_left s s').trans (le_trans le ge), last⟩
      · have most := has.lo a bound
        exact absurd (most.trans (min_le_right s s')) (not_le.mpr lt)
    · rw [not_forall] at high
      obtain ⟨d, high⟩ := high
      rw [Classical.not_imp] at high
      obtain ⟨rfl, high⟩ := high
      obtain ⟨s, ge, held⟩ := admits.2 d rfl
      obtain ⟨s', b, held', bound, le⟩ := (proper.2 d rfl).high_falls high
      refine ⟨max s s', ⟨fun d' same => ?_, fun d' same => ?_⟩, fun has => ?_⟩
      · obtain ⟨r, before, first⟩ := admits.1 d' same
        exact ⟨r, le_trans before (ge.trans (le_max_left s s')), first⟩
      · cases same
        rcases max_choice s s' with first | second
        · exact ⟨s, first.le, held⟩
        · exact ⟨s', second.le, held'⟩
      · have after := has.hi b bound
        exact absurd (lt_of_le_of_lt (le_max_right s s') after) (not_lt.mpr le)

end

/-- The extent of a value that is read has every instant it admits exactly when it admits none, or
its first date masks no year before zero and its last is no whole February that only the Julian
calendar has so long. -/
theorem extent_has_iff {txt : Bytes} {v : Edtf} (read : parse txt = .ok v)
    (cal : Option Calendar) :
    (∀ t, v.Admits cal t → (toIntervalIn v cal).Has t) ↔ ((∃ t, v.Admits cal t) → v.Kept cal) := by
  have proper := proper_of_parse read
  constructor
  · rintro sound ⟨t, admits⟩
    by_contra falls
    obtain ⟨s, held, outside⟩ := proper.falls falls admits
    exact outside (sound s held)
  · intro kept t admits
    exact (kept ⟨t, admits⟩).has proper admits

/-- A decade. -/
theorem extent_has_decade :
    ∃ v, parse (utf8 "192X") = .ok v ∧ ∀ t, v.Admits none t → (toIntervalIn v none).Has t := by
  have read : parse (utf8 "192X") =
      .ok (.date ⟨⟨1920, 1, false, by decide⟩, none, none, none⟩) := by decide +kernel
  refine ⟨_, read, (extent_has_iff read none).mpr fun _ => ⟨Or.inl (by decide), ?_⟩⟩
  rintro ⟨julian, _⟩
  cases julian

/-- A century before zero is given the hundred years after its last. -/
theorem masked_year_lost : ∃ v t, parse (utf8 "-19XX") = .ok v ∧ v.Admits none t ∧
    ¬ (toIntervalIn v none).Has t := by
  have read : parse (utf8 "-19XX") =
      .ok (.date ⟨⟨-1900, 2, false, by decide⟩, none, none, none⟩) := by decide +kernel
  refine ⟨_, (daysOf none).number (-1950) 1 1 * msPerDay, read, ?_, fun has => ?_⟩
  · exact ⟨-1950, 1, 1, ⟨by decide, by decide⟩, trivial, trivial,
      ⟨by decide, by decide, by decide⟩, le_rfl, day_lt _⟩
  · have begins := has.lo (-122125363200000) (by decide +kernel)
    revert begins
    decide +kernel

end Edtf
end Smysl
