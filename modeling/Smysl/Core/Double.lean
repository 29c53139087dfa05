import Smysl.Core.Quantise

/-!
`binary64` values, and the two casts between them and `binary32`. A magnitude is
counted in units of 2^-1074, of which a unit of `binary32` has 2^925.
-/
namespace Smysl

/-- A `binary64` value by its three fields. -/
structure F64 where
  negative : Bool
  exponent : Fin 2048
  mantissa : Fin (2 ^ 52)
  deriving Repr, DecidableEq

instance neZeroDoubleExponents : NeZero 2048 := ⟨by decide⟩

instance neZeroDoubleMantissas : NeZero (2 ^ 52) := ⟨by decide⟩

/-- The nearest whole number of `d`s in `u`, the even one of two. -/
def roundHalfEven (u d : Nat) : Nat :=
  if 2 * (u % d) < d then u / d
  else if d < 2 * (u % d) then u / d + 1
  else u / d + u / d % 2

theorem round_exact {d : Nat} (positive : 0 < d) (q : Nat) : roundHalfEven (q * d) d = q := by
  rw [roundHalfEven, Nat.mul_mod_left, if_pos (by omega), Nat.mul_div_cancel q positive]

namespace F64

/-- The magnitude of a finite value, in units of 2^-1074. -/
def units (v : F64) : Nat :=
  if v.exponent.val = 0 then v.mantissa.val
  else (v.mantissa.val + 2 ^ 52) * 2 ^ (v.exponent.val - 1)

/-- The value with a magnitude of `u` units, where `binary64` has one. -/
def ofUnits (negative : Bool) (u : Nat) : F64 :=
  if u < 2 ^ 52 then ⟨negative, 0, Fin.ofNat (2 ^ 52) u⟩
  else
    let exponent := Nat.log2 u - 51
    ⟨negative, Fin.ofNat 2048 exponent, Fin.ofNat (2 ^ 52) (u / 2 ^ (exponent - 1))⟩

/-- `as f32`: to the nearest of 24 bits, and to an infinity past the last one. -/
def toF32 (v : F64) : F32 :=
  if v.exponent.val = 2047 then ⟨v.negative, 255, if v.mantissa.val = 0 then 0 else 2 ^ 22⟩
  else
    let spare := Nat.log2 (v.units / 2 ^ 925) - 23
    let u := roundHalfEven v.units (2 ^ (925 + spare)) * 2 ^ spare
    if u < 2 ^ 277 then F32.ofUnits v.negative u else ⟨v.negative, 255, 0⟩

end F64

/-- `as f64`, which is exact. -/
def F32.toF64 (v : F32) : F64 :=
  if v.exponent.val = 255 then ⟨v.negative, 2047, Fin.ofNat (2 ^ 52) (v.mantissa.val * 2 ^ 29)⟩
  else F64.ofUnits v.negative (v.units * 2 ^ 925)

/-- A number of at most `p + 1` significant bits, shifted down to all of them. -/
theorem significand {p k u : Nat} (large : 2 ^ p ≤ u) (fits : u < 2 ^ (p + 1 + k))
    (divides : 2 ^ k ∣ u) : u / 2 ^ (Nat.log2 u - p) * 2 ^ (Nat.log2 u - p) = u ∧
      2 ^ p ≤ u / 2 ^ (Nat.log2 u - p) ∧ u / 2 ^ (Nat.log2 u - p) < 2 ^ (p + 1) := by
  have nonzero : u ≠ 0 := by
    intro zero
    rw [zero] at large
    exact absurd large (Nat.not_le.mpr (Nat.two_pow_pos p))
  have least := Nat.log2_self_le nonzero
  have most := Nat.lt_log2_self (n := u)
  have above : p ≤ Nat.log2 u := (Nat.le_log2 nonzero).mpr large
  have below : Nat.log2 u < p + 1 + k := (Nat.log2_lt nonzero).mpr fits
  have positive : 0 < 2 ^ (Nat.log2 u - p) := Nat.two_pow_pos _
  have whole : 2 ^ (Nat.log2 u - p) ∣ u := (Nat.pow_dvd_pow 2 (by omega)).trans divides
  constructor
  · exact Nat.div_mul_cancel whole
  · constructor
    · apply (Nat.le_div_iff_mul_le positive).mpr
      rw [← pow_add]
      convert least using 2
      omega
    · apply (Nat.div_lt_iff_lt_mul positive).mpr
      rw [← pow_add]
      convert most using 2
      omega

theorem scaled_lt {a n k : Nat} (small : a < 2 ^ n) : a * 2 ^ k < 2 ^ (n + k) := by
  rw [pow_add]
  exact Nat.mul_lt_mul_of_pos_right small (Nat.two_pow_pos k)

theorem raised {a n m : Nat} (small : a < 2 ^ n) (above : n ≤ m) : a < 2 ^ m :=
  small.trans_le (Nat.pow_le_pow_right (by omega) above)

/-- What is below `2 ^ n` and not below `2 ^ p` has its leading bit in between. -/
theorem log_between {p n u : Nat} (large : 2 ^ p ≤ u) (small : u < 2 ^ n) :
    p ≤ Nat.log2 u ∧ Nat.log2 u < n := by
  have nonzero : u ≠ 0 := by
    intro zero
    rw [zero] at large
    exact absurd large (Nat.not_le.mpr (Nat.two_pow_pos p))
  exact ⟨(Nat.le_log2 nonzero).mpr large, (Nat.log2_lt nonzero).mpr small⟩

namespace F32

theorem units_of_units {negative : Bool} {u k : Nat} (fits : u < 2 ^ (24 + k))
    (divides : 2 ^ k ∣ u) (small : u < 2 ^ 277) : (ofUnits negative u).units = u := by
  by_cases subnormal : u < 2 ^ 23
  · simp only [ofUnits, units, if_pos subnormal, Fin.val_zero, if_true, Fin.val_ofNat]
    exact Nat.mod_eq_of_lt subnormal
  · have large : 2 ^ 23 ≤ u := Nat.not_lt.mp subnormal
    obtain ⟨whole, least, most⟩ := significand large fits divides
    obtain ⟨above, below⟩ := log_between large small
    have shift : Nat.log2 u - 22 - 1 = Nat.log2 u - 23 := by omega
    have held : (Nat.log2 u - 22) % 256 = Nat.log2 u - 22 := Nat.mod_eq_of_lt (by omega)
    simp only [ofUnits, units, if_neg subnormal, Fin.val_ofNat, held, shift]
    rw [if_neg (by omega)]
    have bits : u / 2 ^ (Nat.log2 u - 23) % 2 ^ 23 + 2 ^ 23 = u / 2 ^ (Nat.log2 u - 23) := by
      omega
    rw [bits, whole]

theorem exponent_of_units {negative : Bool} {u n : Nat} (small : u < 2 ^ n) (fits : n ≤ 277) :
    (ofUnits negative u).exponent.val ≤ n - 23 := by
  by_cases subnormal : u < 2 ^ 23
  · simp only [ofUnits, if_pos subnormal, Fin.val_zero]
    omega
  · obtain ⟨above, below⟩ := log_between (Nat.not_lt.mp subnormal) small
    simp only [ofUnits, if_neg subnormal, Fin.val_ofNat]
    rw [Nat.mod_eq_of_lt (by omega)]
    omega

theorem units_lt (v : F32) : v.units < 2 ^ (24 + (v.exponent.val - 1)) := by
  have manSmall := v.mantissa.isLt
  have positive : 0 < 2 ^ (v.exponent.val - 1) := Nat.two_pow_pos _
  rw [units, pow_add]
  split
  · exact lt_of_lt_of_le (by omega) (Nat.le_mul_of_pos_right _ positive)
  · exact Nat.mul_lt_mul_of_pos_right (by omega) positive

theorem units_below (v : F32) {n : Nat} (fits : 24 + (v.exponent.val - 1) ≤ n) :
    v.units < 2 ^ n :=
  raised v.units_lt fits

theorem units_divides (v : F32) : 2 ^ (v.exponent.val - 1) ∣ v.units := by
  rw [units]
  split
  · rename_i subnormal
    rw [subnormal]
    exact one_dvd _
  · exact Nat.dvd_mul_left _ _

/-- Quantising always gives a multiple of 1/1024 that scales without overflow. -/
theorem quantise_is_quantised (v : F32) : v.quantise.isQuantised = true := by
  rw [quantise]
  split
  · decide
  · split
    · cases v.negative <;> decide +kernel
    · rename_i finite
      have exponent : v.exponent.val ≤ 244 := by
        simp only [scalesFinitely, Bool.not_eq_true', decide_eq_false_iff_not, not_not] at finite
        omega
      generalize counted : (v.units * 2 ^ 10 + 2 ^ 148) / 2 ^ 149 = n
      have small : n * 2 ^ 139 < 2 ^ 267 ∧
          ∃ k, n * 2 ^ 139 < 2 ^ (24 + k) ∧ 2 ^ k ∣ n * 2 ^ 139 := by
        by_cases whole : 139 ≤ v.exponent.val - 1
        · have divides : 2 ^ 139 ∣ v.units := (Nat.pow_dvd_pow 2 whole).trans v.units_divides
          have same : n * 2 ^ 139 = v.units := by omega
          rw [same]
          constructor
          · exact v.units_below (by omega)
          · exact ⟨_, v.units_lt, v.units_divides⟩
        · have low : v.units < 2 ^ 162 := v.units_below (by omega)
          have few : n < 2 ^ 24 := by omega
          have bound : n * 2 ^ 139 < 2 ^ (24 + 139) := scaled_lt few
          constructor
          · exact raised bound (by omega)
          · exact ⟨139, bound, Nat.dvd_mul_left _ _⟩
      obtain ⟨small, k, fits, divides⟩ := small
      have low := @exponent_of_units v.negative _ _ small (by omega)
      rw [isQuantised, units_of_units fits divides (raised small (by omega)), scalesFinitely,
        Nat.mul_mod_left, Bool.and_eq_true]
      constructor
      · exact decide_eq_true (by omega)
      · rfl

theorem quantise_quantise (v : F32) : v.quantise.quantise = v.quantise :=
  quantise_of_quantised v.quantise_is_quantised

end F32

theorem F64.units_of_units {negative : Bool} {u k : Nat} (fits : u < 2 ^ (53 + k))
    (divides : 2 ^ k ∣ u) (small : u < 2 ^ 2098) : (ofUnits negative u).units = u := by
  by_cases subnormal : u < 2 ^ 52
  · simp only [ofUnits, units, if_pos subnormal, Fin.val_zero, if_true, Fin.val_ofNat]
    exact Nat.mod_eq_of_lt subnormal
  · have large : 2 ^ 52 ≤ u := Nat.not_lt.mp subnormal
    obtain ⟨whole, least, most⟩ := significand large fits divides
    obtain ⟨above, below⟩ := log_between large small
    have shift : Nat.log2 u - 51 - 1 = Nat.log2 u - 52 := by omega
    have held : (Nat.log2 u - 51) % 2048 = Nat.log2 u - 51 := Nat.mod_eq_of_lt (by omega)
    simp only [ofUnits, units, if_neg subnormal, Fin.val_ofNat, held, shift]
    rw [if_neg (by omega)]
    have bits : u / 2 ^ (Nat.log2 u - 52) % 2 ^ 52 + 2 ^ 52 = u / 2 ^ (Nat.log2 u - 52) := by
      omega
    rw [bits, whole]

theorem F64.exponent_of_units {negative : Bool} {u : Nat} (small : u < 2 ^ 2098) :
    (ofUnits negative u).exponent.val ≠ 2047 := by
  by_cases subnormal : u < 2 ^ 52
  · simp only [ofUnits, if_pos subnormal, Fin.val_zero]
    omega
  · obtain ⟨above, below⟩ := log_between (Nat.not_lt.mp subnormal) small
    simp only [ofUnits, if_neg subnormal, Fin.val_ofNat]
    rw [Nat.mod_eq_of_lt (by omega)]
    omega

theorem F64.negative_of_units (negative : Bool) (u : Nat) :
    (ofUnits negative u).negative = negative := by
  rw [ofUnits]
  split
  · rfl
  · rfl

/-- A finite `f32` made an `f64` and back is itself. -/
theorem F32.to_f64_to_f32 {v : F32} (finite : v.exponent.val ≠ 255) : v.toF64.toF32 = v := by
  have expSmall := v.exponent.isLt
  have small : v.units * 2 ^ 925 < 2 ^ (24 + (v.exponent.val - 1) + 925) :=
    scaled_lt v.units_lt
  have fits : v.units * 2 ^ 925 < 2 ^ (53 + (v.exponent.val - 1 + 925)) :=
    raised small (by omega)
  have divides : 2 ^ (v.exponent.val - 1 + 925) ∣ v.units * 2 ^ 925 := by
    rw [pow_add]
    exact Nat.mul_dvd_mul_right v.units_divides _
  have held : v.units * 2 ^ 925 < 2 ^ 2098 := raised small (by omega)
  rw [F32.toF64, if_neg finite, F64.toF32, if_neg (F64.exponent_of_units held),
    F64.units_of_units fits divides held, F64.negative_of_units,
    Nat.mul_div_cancel _ (Nat.two_pow_pos 925)]
  generalize spares : Nat.log2 v.units - 23 = spare
  have whole : 2 ^ spare ∣ v.units := by
    by_cases zero : v.units = 0
    · rw [zero]
      exact Nat.dvd_zero _
    · have below : Nat.log2 v.units < 24 + (v.exponent.val - 1) :=
        (Nat.log2_lt zero).mpr v.units_lt
      exact (Nat.pow_dvd_pow 2 (by omega)).trans v.units_divides
  obtain ⟨q, split⟩ := whole
  have shifted : v.units * 2 ^ 925 = q * 2 ^ (925 + spare) := by
    rw [split, pow_add, Nat.mul_comm (2 ^ spare) q, Nat.mul_assoc, Nat.mul_comm (2 ^ spare)]
  have back : q * 2 ^ spare = v.units := by rw [split, Nat.mul_comm]
  have last : v.units < 2 ^ 277 := v.units_below (by omega)
  simp only [shifted, round_exact (Nat.two_pow_pos _), back, if_pos last]
  exact F32.of_units_units v

theorem F32.finite_of_quantised {v : F32} (quantised : v.isQuantised = true) :
    v.exponent.val ≠ 255 := by
  simp only [isQuantised, Bool.and_eq_true, scalesFinitely, decide_eq_true_eq] at quantised
  omega

end Smysl
