import Smysl.Time.Extents
import Smysl.Time.Engine

/-!
The bounds of a seed. Those a record gives are never at the least instant there is,
so that the instant before an end is one too.
-/
namespace Smysl
open Edtf (bound_of_at)
open Calendar (msPerDay)

/-- Whether an instant and its negation are both instants. -/
def TimeBound.Near (b : TimeBound) : Prop :=
  ∀ a : Int, b = .at_ a → -maxInstant ≤ a ∧ a ≤ maxInstant

structure TimeInterval.Near (i : TimeInterval) : Prop where
  lo : i.lo.Near
  hi : i.hi.Near

theorem undated_near : TimeInterval.undated.Near :=
  ⟨fun _ none_ => (nomatch none_), fun _ none_ => nomatch none_⟩

/-- A whole number of days is not the least instant, which is no multiple of a day. -/
theorem days_near (n : Int) : (Edtf.boundOf (checked (n * msPerDay))).Near := by
  intro a bound
  have given := bound_of_at bound
  rw [checked] at given
  split at given
  · rename_i fits
    have same := Option.some.inj given
    rw [msPerDay] at same fits
    rw [minInstant, maxInstant] at fits
    rw [maxInstant]
    omega
  · cases given

namespace Edtf
variable {cal : Option Calendar}

theorem Date.Proper.near {d : Date} (proper : d.Proper) : (dateExtent d cal).Near := by
  rcases proper.span with whole | ⟨m, lo, hi, _, month, some_, some_', part, _⟩
  · rw [date_extent_eq cal whole]
    dsimp only
    rw [start_of_eq (by decide) (by decide), end_of_eq (by decide) (by decide)]
    exact ⟨days_near _, days_near _⟩
  · rw [date_extent_eq cal part]
    dsimp only
    rw [start_of_eq month some_, end_of_eq month some_']
    exact ⟨days_near _, days_near _⟩

theorem DateTime.Proper.near {t : DateTime} (proper : t.Proper) :
    (dateTimeExtent t cal).Near := by
  obtain ⟨d, on⟩ := proper.date
  have span := on.proper.span
  rw [on.month, on.day] at span
  have short : -9999 ≤ t.year ∧ t.year ≤ 9999 := by
    rw [← on.year]
    rcases d.year.valid with ⟨_, _, low, high, _⟩ | ⟨long, _⟩
    · exact ⟨low, high⟩
    · rw [on.plain] at long
      cases long
  have season := on.proper.season
  rw [on.month, on.day, seasonDay, decide_eq_false_iff_not] at season
  have fits : Component.takes .month t.month = true := on.proper.month _ on.month
  have fits' : Component.takes .day t.day = true := on.proper.day _ on.day
  simp only [Component.takes, Bool.or_eq_true, Bool.and_eq_true, decide_eq_true_eq] at fits fits'
  have month : 1 ≤ t.month ∧ t.month ≤ 12 := by omega
  have day : t.day ≤ daysInMonth t.year t.month := by
    have exists_ := on.proper.exists'
    rw [on.month, on.day, noSuchDay, on.unmasked, on.year, Bool.and_eq_false_iff] at exists_
    rcases exists_ with masked | fits
    · cases masked
    · rw [decide_eq_false_iff_not] at fits
      omega
  obtain ⟨c, shifted, number, within⟩ :=
    @Calendar.shifted_days cal t.year t.month t.day month fits'.1
  rw [min_eq_left day, min_eq_left (within day)] at number
  have long := @Calendar.days_in_month_long t.year t.month month
  have bounds := @Calendar.number_near cal t.year t.month t.day (by omega) (by omega) month
    (by omega)
  rw [dateTimeExtent, shifted]
  dsimp only
  cases timed : Calendar.msFromCivil c.year c.month c.day t.hour t.minute t.second with
  | none => exact undated_near
  | some start =>
    have value := ms_from_civil_some number timed
    have hour := proper.hour
    have minute := proper.minute
    have second := proper.second
    have near {a b : Int} (low : -600000000000000 ≤ a) (high : b ≤ 600000000000000)
        (le : a ≤ b) : (TimeInterval.of a b).Near := by
      constructor
      · intro x same
        have same : a = x := TimeBound.at_.inj same
        rw [maxInstant]
        omega
      · intro x same
        have same : b = x := TimeBound.at_.inj same
        rw [maxInstant]
        omega
    dsimp only
    cases named : t.zone with
    | none =>
      refine near ?_ ?_ ?_ <;> dsimp only [maxWestMs, maxEastMs] <;> omega
    | some z =>
      cases z with
      | utc => refine near ?_ ?_ ?_ <;> omega
      | offset k =>
        have zone : k.natAbs ≤ 23 * 60 + 59 := proper.zone _ named
        refine near ?_ ?_ ?_ <;> omega

theorem Proper.near {v : Edtf} (proper : v.Proper) : (toIntervalIn v cal).Near := by
  cases v with
  | date d => exact Date.Proper.near proper
  | dateTime t => exact DateTime.Proper.near proper
  | interval lo hi =>
    rw [interval_eq]
    constructor
    · cases lo with
      | date d => exact (proper.1 d rfl).near.lo
      | _ => exact fun a bound => nomatch bound
    · cases hi with
      | date d => exact (proper.2 d rfl).near.hi
      | _ => exact fun a bound => nomatch bound

theorem value_near {text : String} {v : Edtf} (read : valueOf text = some v) :
    (toIntervalIn v cal).Near := by
  rw [valueOf] at read
  split at read
  · rename_i parsed
    cases read
    exact (proper_of_parse parsed).near
  · cases read

end Edtf

/-- Every bound of a seed is near. -/
theorem seed_near (c : Corpus) (s : Subject) (axis : Axis) : (seed c s axis).interval.Near := by
  unfold seed
  split
  · exact undated_near
  · cases s with
    | unit uid =>
      dsimp only
      cases (c.coreOf uid).bind UnitCore.source with
      | none => exact undated_near
      | some source =>
        dsimp only
        cases given : source.published.bind Edtf.valueOf with
        | some v =>
          obtain ⟨text, _, read⟩ := Option.bind_eq_some_iff.mp given
          exact Edtf.value_near read
        | none =>
          dsimp only
          cases seen : source.observed.filter
              (fun ms => decide ((ms.toNat : Int) ≤ maxInstant)) with
          | none => exact undated_near
          | some ms =>
            have fits := of_decide_eq_true (Option.filter_eq_some_iff.mp seen).2
            constructor
            · intro a same
              have same : (ms.toNat : Int) = a := TimeBound.at_.inj same
              rw [maxInstant] at *
              omega
            · intro a same
              have same : saturatingAdd ms.toNat 1 = a := TimeBound.at_.inj same
              rw [saturatingAdd, minInstant] at same
              rw [maxInstant] at *
              omega
    | manifest mid =>
      dsimp only
      cases c.library.manifests.get mid with
      | none => exact undated_near
      | some m =>
        dsimp only
        cases given : m.published.bind Edtf.valueOf with
        | none => exact undated_near
        | some v =>
          obtain ⟨text, _, read⟩ := Option.bind_eq_some_iff.mp given
          exact Edtf.value_near read

end Smysl
