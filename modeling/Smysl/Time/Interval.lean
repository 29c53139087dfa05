import Smysl.Core.Edtf.Syntax
import Smysl.Core.Types.Library

/-!
Instants, the half-open intervals of them, and the extent of an EDTF value: the
calendar arithmetic, the conversion of a Julian date, and each form's earliest
and latest instant. An instant is an `i64` of milliseconds; where the source
saturates or checks, so do the functions here.
-/
namespace Smysl
open Edtf (Part Zone End)

/-- A millisecond instant. -/
abbrev Instant := Int

def minInstant : Int := -2 ^ 63
def maxInstant : Int := 2 ^ 63 - 1

/-- `i64::saturating_add`. -/
def saturatingAdd (a b : Int) : Int := max minInstant (min (a + b) maxInstant)

/-- A result of checked arithmetic. -/
def checked (n : Int) : Option Int := if minInstant ≤ n ∧ n ≤ maxInstant then some n else none

/-- A thing rule E assigns a time to. -/
inductive Subject
  | unit (uid : Uid)
  | manifest (mid : Mid)
  deriving DecidableEq

namespace Subject

/-- The derived order: units before manifests. -/
def rank : Subject → ℕ ×ₗ Bytes32
  | unit uid => toLex (0, uid.raw)
  | manifest mid => toLex (1, mid.raw)

theorem rank_injective : Function.Injective rank := by
  intro a b same
  cases a <;> cases b <;> simp [rank] at same ⊢ <;> exact Digest.ext_raw same

instance : LinearOrder Subject := LinearOrder.lift' rank rank_injective

end Subject

/-- One end of an interval. -/
inductive TimeBound
  | unbounded
  | at_ (i : Instant)
  deriving DecidableEq, Repr

/-- `[lo, hi)`. -/
structure TimeInterval where
  lo : TimeBound
  hi : TimeBound
  deriving DecidableEq, Repr

namespace TimeInterval

def undated : TimeInterval := ⟨.unbounded, .unbounded⟩

/-- The one millisecond an instant denotes. -/
def at_ (i : Instant) : TimeInterval := ⟨.at_ i, .at_ (saturatingAdd i 1)⟩

def of (lo hi : Int) : TimeInterval := ⟨.at_ lo, .at_ hi⟩

def isUndated (i : TimeInterval) : Bool := i.lo == .unbounded && i.hi == .unbounded

/-- Whether it contains no instant at all. -/
def isEmpty (i : TimeInterval) : Bool :=
  match i.lo, i.hi with
  | .at_ a, .at_ b => b ≤ a
  | _, _ => false

def shift (i : TimeInterval) (ms : Int) : TimeInterval :=
  let m := fun b => match b with
    | .at_ i => .at_ (saturatingAdd i ms)
    | .unbounded => TimeBound.unbounded
  ⟨m i.lo, m i.hi⟩

end TimeInterval

/-! Civil dates. -/

namespace Calendar

def msPerDay : Int := 86400000

structure Civil where
  year : Int
  month : Nat
  day : Nat
  deriving DecidableEq, Repr

def civilFromDays (days : Int) : Civil :=
  let z := days + 719468
  let era := z / 146097
  let doe := z % 146097
  let yoe := (doe - doe / 1460 + doe / 36524 - doe / 146096) / 365
  let y := yoe + era * 400
  let doy := doe - (365 * yoe + yoe / 4 - yoe / 100)
  let mp := (5 * doy + 2) / 153
  let d := doy - (153 * mp + 2) / 5 + 1
  let m := if mp < 10 then mp + 3 else mp - 9
  ⟨y + (if m ≤ 2 then 1 else 0), m.toNat, d.toNat⟩

def daysFromCivilUnchecked (year : Int) (month day : Nat) : Int :=
  let y := year - (if month ≤ 2 then 1 else 0)
  let era := y / 400
  let yoe := y - era * 400
  let mp : Int := if month > 2 then month - 3 else month + 9
  let doy := (153 * mp + 2) / 5 + day - 1
  let doe := yoe * 365 + yoe / 4 - yoe / 100 + doy
  era * 146097 + doe - 719468

/-- None for a date the calendar does not have. -/
def daysFromCivil (year : Int) (month day : Nat) : Option Int :=
  if ¬ (1 ≤ month ∧ month ≤ 12) ∨ day = 0 ∨ day > Edtf.daysInMonth year month then none
  else some (daysFromCivilUnchecked year month day)

def msFromCivil (year : Int) (month day hour minute second : Nat) : Option Int :=
  if hour > 23 ∨ minute > 59 ∨ second > 59 then none
  else do
    let days ← daysFromCivil year month day
    let secs ← checked (days * 86400)
    let secs ← checked (secs + (hour * 3600 + minute * 60 + second))
    checked (secs * 1000)

def julianDaysInMonth (year : Int) (month : Nat) : Nat :=
  match month with
  | 1 | 3 | 5 | 7 | 8 | 10 | 12 => 31
  | 4 | 6 | 9 | 11 => 30
  | 2 => if year % 4 = 0 then 29 else 28
  | _ => 0

/-- The Julian Day Number of a Julian date. The source takes the floors of two products in
`f64`, `365.25 * (y + 4716)` and `30.6001 * (m + 1)`; these are those floors. -/
def julianDayNumber (year : Int) (month day : Nat) : Int :=
  let y := if month > 2 then year else year - 1
  let m : Int := if month > 2 then month else month + 12
  1461 * (y + 4716) / 4 + 306001 * (m + 1) / 10000 + day - 1524

def julianToGregorian (year : Int) (month day : Nat) : Option Civil :=
  if ¬ (1 ≤ month ∧ month ≤ 12) ∨ day = 0 ∨ day > julianDaysInMonth year month then none
  else some (civilFromDays (julianDayNumber year month day - 2440588))

end Calendar

/-! The extent of an EDTF value. -/

namespace Edtf
open Smysl.Calendar

def maxWestMs : Int := 14 * 3600000
def maxEastMs : Int := 12 * 3600000

/-- Convert a Julian date, or pass a Gregorian one through. -/
def shiftCalendar (year : Int) (month day : Nat) (cal : Option Calendar) :
    Option (Int × Nat × Nat) :=
  match cal with
  | some .julian =>
    (julianToGregorian year month (min day (max (daysInMonth year month) 28))).map
      (fun c => (c.year, c.month, c.day))
  | none => some (year, month, day)

/-- The first instant of a day, the day clamped into its month. -/
def startOf (year : Int) (month day : Nat) (cal : Option Calendar) : Option Int := do
  let (year, month, day) ← shiftCalendar year month day cal
  let days ← daysFromCivil year month (min day (daysInMonth year month))
  checked (days * msPerDay)

/-- The first instant after a day. -/
def endOf (year : Int) (month day : Nat) (cal : Option Calendar) : Option Int := do
  let (year, month, day) ← shiftCalendar year month day cal
  let days ← daysFromCivil year month (min day (daysInMonth year month))
  let next ← checked (days + 1)
  checked (next * msPerDay)

def boundOf (ms : Option Int) : TimeBound := ms.elim .unbounded .at_

/-- The first and last month and day a date admits: a season, or a month not given, is the
whole year, and a day not given is the whole month. -/
def dateSpan (month day : Option Part) : (Nat × Nat) × (Nat × Nat) :=
  match month, day with
  | none, _ => ((1, 1), (12, 31))
  | some .unspecified, _ => ((1, 1), (12, 31))
  | some (.num m), day =>
    if 21 ≤ m then ((1, 1), (12, 31))
    else
      match day with
      | none => ((m, 1), (m, 31))
      | some .unspecified => ((m, 1), (m, 31))
      | some (.num d) => ((m, d), (m, d))

def dateExtent (d : Date) (cal : Option Calendar) : TimeInterval :=
  let span := 10 ^ d.year.unspecified
  let firstYear := d.year.value
  let lastYear := firstYear + span - 1
  let ((loM, loD), (hiM, hiD)) := dateSpan d.month d.day
  ⟨boundOf (startOf firstYear loM loD cal), boundOf (endOf lastYear hiM hiD cal)⟩

def dateTimeExtent (t : DateTime) (cal : Option Calendar) : TimeInterval :=
  match shiftCalendar t.year t.month t.day cal with
  | none => .undated
  | some (year, month, day) =>
    match msFromCivil year month day t.hour t.minute t.second with
    | none => .undated
    | some ms =>
      match t.zone with
      | some .utc => .of ms (ms + 1000)
      | some (.offset minutes) => .of (ms - minutes * 60000) (ms - minutes * 60000 + 1000)
      | none => .of (ms - maxWestMs) (ms + maxEastMs + 1000)

def toIntervalIn (v : Edtf) (cal : Option Calendar) : TimeInterval :=
  match v with
  | .date d => dateExtent d cal
  | .dateTime t => dateTimeExtent t cal
  | .interval lo hi =>
    { lo := match lo with
        | .date d => (dateExtent d cal).lo
        | _ => .unbounded
      hi := match hi with
        | .date d => (dateExtent d cal).hi
        | _ => .unbounded }

def toInterval (v : Edtf) : TimeInterval := toIntervalIn v none

/-- The value of a text, where it has one. -/
def valueOf (text : String) : Option Edtf :=
  match parse (utf8 text) with
  | .ok v => some v
  | .error _ => none

end Edtf
end Smysl
