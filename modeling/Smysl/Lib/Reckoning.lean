import Mathlib

/-!
A calendar as a numbering of days: months of twelve to a year, each with a first
day and a length. What is earlier in the calendar has the smaller number.
-/

/-- The number of the first day of each month of each year, and the month's length. -/
structure Reckoning where
  first : Int → Nat → Int
  length : Int → Nat → Nat
  long : ∀ y m, 1 ≤ m → m ≤ 12 → 28 ≤ length y m ∧ length y m ≤ 31
  within : ∀ y m, 1 ≤ m → m ≤ 12 → first y 1 ≤ first y m ∧ first y m ≤ first y 12
  newYear : ∀ y z, y < z → first y 12 + 31 ≤ first z 1

namespace Reckoning
variable (r : Reckoning)

/-- The days the calendar has. -/
structure Real (y : Int) (m d : Nat) : Prop where
  month : 1 ≤ m ∧ m ≤ 12
  day : 1 ≤ d ∧ d ≤ r.length y m

def number (y : Int) (m d : Nat) : Int := r.first y m + d - 1

variable {r} {y z : Int} {m d e : Nat}

theorem Real.short (real : r.Real y m d) : d ≤ 31 :=
  real.day.2.trans (r.long y m real.month.1 real.month.2).2

/-- A month is over before that month of a later year. -/
theorem later (month : 1 ≤ m ∧ m ≤ 12) (lt : y < z) : r.first y m + 31 ≤ r.first z m := by
  have ends := (r.within y m month.1 month.2).2
  have turns := r.newYear y z lt
  have begins := (r.within z m month.1 month.2).1
  omega

theorem number_lt_later (real : r.Real y m d) (lt : y < z) (some_ : 1 ≤ e) :
    r.number y m d < r.number z m e := by
  have gap := later (r := r) real.month lt
  have short := real.short
  rw [number, number]
  omega

theorem month_least (real : r.Real z m e) (le : y ≤ z) (low : d ≤ e) :
    r.number y m d ≤ r.number z m e := by
  rcases le.lt_or_eq with lt | rfl
  · have gap := later (r := r) real.month lt
    have short := real.short
    have some_ := real.day.1
    rw [number, number]
    omega
  · rw [number, number]
    omega

theorem month_greatest (real : r.Real z m e) (le : z ≤ y) (some_ : 1 ≤ d)
    (high : z = y → e ≤ d) : r.number z m e ≤ r.number y m d := by
  rcases le.lt_or_eq with lt | rfl
  · exact (number_lt_later real lt some_).le
  · have last := high rfl
    rw [number, number]
    omega

theorem year_greatest (real : r.Real z m e) : r.number z m e ≤ r.number z 12 31 := by
  have ends := (r.within z m real.month.1 real.month.2).2
  have short := real.short
  rw [number, number]
  omega

theorem year_least (real : r.Real z m e) : r.number z 1 1 ≤ r.number z m e := by
  have begins := (r.within z m real.month.1 real.month.2).1
  have some_ := real.day.1
  rw [number, number]
  omega

theorem years (le : y ≤ z) : r.number y 1 1 ≤ r.number z 1 1 ∧
    r.number y 12 31 ≤ r.number z 12 31 := by
  rcases le.lt_or_eq with lt | rfl
  · have turns := r.newYear y z lt
    have from_ := (r.within y 12 (by decide) (by decide)).1
    have to_ := (r.within z 12 (by decide) (by decide)).1
    rw [number, number, number, number]
    omega
  · exact ⟨le_rfl, le_rfl⟩

theorem number_lt_year (real : r.Real y m d) (lt : y < z) : r.number y m d < r.number z 1 1 := by
  have last := year_greatest real
  have turns := r.newYear y z lt
  rw [number] at last ⊢
  rw [number] at last ⊢
  omega

/-! Consecutive days. -/

variable (r) in
/-- The date after. -/
def next (y : Int) (m d : Nat) : Int × Nat × Nat :=
  if d < r.length y m then (y, m, d + 1)
  else if m < 12 then (y, m + 1, 1)
  else (y + 1, 1, 1)

variable (r) in
/-- Whether each month begins where the one before it ends. -/
structure Gapless : Prop where
  month : ∀ y m, 1 ≤ m → m < 12 → r.first y (m + 1) = r.first y m + r.length y m
  year : ∀ y, r.first (y + 1) 1 = r.first y 12 + r.length y 12

theorem Real.next (real : r.Real y m d) :
    r.Real (r.next y m d).1 (r.next y m d).2.1 (r.next y m d).2.2 := by
  obtain ⟨month, day⟩ := real
  rw [Reckoning.next]
  split
  · exact ⟨month, by dsimp only; omega⟩
  · split
    · have long := (r.long y (m + 1) (by omega) (by omega)).1
      exact ⟨by dsimp only; omega, by dsimp only; omega⟩
    · have long := (r.long (y + 1) 1 le_rfl (by decide)).1
      exact ⟨⟨le_rfl, by dsimp only; omega⟩, by dsimp only; omega⟩

theorem Gapless.number_next (gapless : r.Gapless) (real : r.Real y m d) :
    r.number (r.next y m d).1 (r.next y m d).2.1 (r.next y m d).2.2 = r.number y m d + 1 := by
  obtain ⟨month, day⟩ := real
  rw [Reckoning.next]
  split
  · rw [number, number]
    push_cast
    omega
  · have last : d = r.length y m := by omega
    split
    · have begins := gapless.month y m month.1 (by omega)
      rw [number, number]
      dsimp only
      rw [begins]
      omega
    · have begins := gapless.year y
      have december : m = 12 := by omega
      subst december
      rw [number, number]
      dsimp only
      rw [begins]
      omega

/-- A month is over before a later one of its year. -/
theorem Gapless.month_lt (gapless : r.Gapless) {n : Nat} (month : 1 ≤ m) (lt : m < n)
    (last : n ≤ 12) : r.first y m + r.length y m ≤ r.first y n := by
  induction n with
  | zero => omega
  | succ n ih =>
    have begins := gapless.month y n (by omega) (by omega)
    rcases (show m ≤ n by omega).lt_or_eq with earlier | rfl
    · have before := ih earlier (by omega)
      omega
    · rw [begins]

/-- No two dates have one number. -/
theorem Gapless.number_inj (gapless : r.Gapless) {n : Nat} (real : r.Real y m d)
    (real' : r.Real z n e) (same : r.number y m d = r.number z n e) : y = z ∧ m = n ∧ d = e := by
  rcases lt_trichotomy y z with lt | rfl | lt
  · have before := number_lt_year real lt
    have after := year_least real'
    omega
  · rw [number, number] at same
    rcases lt_trichotomy m n with lt | rfl | lt
    · have ends := @Gapless.month_lt r y m gapless n real.month.1 lt real'.month.2
      have first := real'.day.1
      have last := real.day.2
      omega
    · exact ⟨rfl, rfl, by omega⟩
    · have ends := @Gapless.month_lt r y n gapless m real'.month.1 lt real.month.2
      have first := real.day.1
      have last := real'.day.2
      omega
  · have before := number_lt_year real' lt
    have after := year_least real
    omega

end Reckoning
