import Smysl.Lib.Bytes

/-!
`binary32` values and their quantisation to 1/1024. A magnitude is counted in
units of 2^-149, the smallest subnormal, so that scaling by 1024, rounding and
scaling back are exact on natural numbers, as they are in `binary32` here.
-/
namespace Smysl
open ByteString

/-- A `binary32` value by its three fields. -/
structure F32 where
  negative : Bool
  exponent : Fin 256
  mantissa : Fin (2 ^ 23)
  deriving Repr, DecidableEq

instance neZeroExponents : NeZero 256 := ⟨by decide⟩

instance neZeroMantissas : NeZero (2 ^ 23) := ⟨by decide⟩

namespace F32

def toBits (v : F32) : Nat := v.negative.toNat * 2 ^ 31 + v.exponent * 2 ^ 23 + v.mantissa

def ofBits (n : Nat) : F32 :=
  ⟨n / 2 ^ 31 % 2 == 1, Fin.ofNat 256 (n / 2 ^ 23), Fin.ofNat (2 ^ 23) n⟩

def toBeBytes (v : F32) : Bytes := bigEndian 4 v.toBits

def fromBeBytes (bs : Bytes) : F32 := ofBits (fromBigEndian bs)

def isFinite (v : F32) : Bool := v.exponent != 255

def isNan (v : F32) : Bool := v.exponent == 255 && v.mantissa != 0

/-- The magnitude of a finite value, in units of 2^-149. -/
def units (v : F32) : Nat :=
  if v.exponent.val = 0 then v.mantissa.val
  else (v.mantissa.val + 2 ^ 23) * 2 ^ (v.exponent.val - 1)

/-- The value with a magnitude of `u` units, where `binary32` has one. -/
def ofUnits (negative : Bool) (u : Nat) : F32 :=
  if u < 2 ^ 23 then ⟨negative, 0, Fin.ofNat (2 ^ 23) u⟩
  else
    let exponent := Nat.log2 u - 22
    ⟨negative, Fin.ofNat 256 exponent, Fin.ofNat (2 ^ 23) (u / 2 ^ (exponent - 1))⟩

/-- Whether `v * 1024.0` is finite: a power of two only moves the exponent. -/
def scalesFinitely (v : F32) : Bool := v.exponent.val + 10 < 255

/-- `MAX_QUANTISED`: `f32::MAX / 1024.0`. -/
def maxQuantised (negative : Bool) : F32 := ⟨negative, 244, Fin.ofNat (2 ^ 23) (2 ^ 23 - 1)⟩

def isQuantised (v : F32) : Bool := v.scalesFinitely && v.units % 2 ^ 139 == 0

/-- Rounding is half away from zero, as `f32::round` does. -/
def quantise (v : F32) : F32 :=
  if v.isNan then ⟨false, 0, 0⟩
  else if !v.scalesFinitely then maxQuantised v.negative
  else ofUnits v.negative ((v.units * 2 ^ 10 + 2 ^ 148) / 2 ^ 149 * 2 ^ 139)

theorem of_bits_to_bits (v : F32) : ofBits v.toBits = v := by
  obtain ⟨negative, exponent, mantissa⟩ := v
  have expSmall := exponent.isLt
  have manSmall := mantissa.isLt
  have sign : ((negative.toNat * 2 ^ 31 + exponent * 2 ^ 23 + mantissa) / 2 ^ 31 % 2 == 1) =
      negative := by
    cases negative
    · simp only [Bool.toNat_false, beq_eq_false_iff_ne, ne_eq]
      omega
    · simp only [Bool.toNat_true, beq_iff_eq]
      omega
  simp only [ofBits, toBits, F32.mk.injEq, sign, true_and, Fin.ext_iff, Fin.val_ofNat]
  have bit : negative.toNat ≤ 1 := Bool.toNat_le negative
  omega

theorem to_bits_lt (v : F32) : v.toBits < 256 ^ 4 := by
  have expSmall := v.exponent.isLt
  have manSmall := v.mantissa.isLt
  have bit : v.negative.toNat ≤ 1 := Bool.toNat_le _
  simp only [toBits]
  omega

theorem to_bits_of_bits (n : Nat) (small : n < 256 ^ 4) : (ofBits n).toBits = n := by
  have sign : ∀ m : Nat, (m % 2 == 1 : Bool).toNat = m % 2 := by
    intro m
    rcases Nat.mod_two_eq_zero_or_one m with even | odd
    · rw [even]
      rfl
    · rw [odd]
      rfl
  simp only [ofBits, toBits, sign, Fin.val_ofNat]
  omega

theorem from_be_bytes_to_be_bytes (v : F32) : fromBeBytes v.toBeBytes = v := by
  rw [fromBeBytes, toBeBytes, from_big_endian_of_number, Nat.mod_eq_of_lt v.to_bits_lt,
    of_bits_to_bits]

theorem to_be_bytes_from_be_bytes (bs : Bytes) (four : bs.length = 4) :
    (fromBeBytes bs).toBeBytes = bs := by
  have small := from_big_endian_lt bs
  rw [four] at small
  rw [fromBeBytes, toBeBytes, to_bits_of_bits _ small, ← four, big_endian_of_bytes]

theorem of_units_units (v : F32) : ofUnits v.negative v.units = v := by
  obtain ⟨negative, exponent, mantissa⟩ := v
  have expSmall := exponent.isLt
  have manSmall := mantissa.isLt
  by_cases subnormal : exponent.val = 0
  · have zero : exponent = 0 := Fin.ext subnormal
    subst zero
    simp only [ofUnits, units, Fin.val_zero, if_true, if_pos manSmall, F32.mk.injEq, true_and]
    exact Fin.ext (Nat.mod_eq_of_lt manSmall)
  · have positive : 0 < 2 ^ (exponent.val - 1) := Nat.two_pow_pos _
    have large : 2 ^ 23 ≤ (mantissa.val + 2 ^ 23) * 2 ^ (exponent.val - 1) :=
      (Nat.le_add_left _ _).trans (Nat.le_mul_of_pos_right _ positive)
    have nonzero : (mantissa.val + 2 ^ 23) * 2 ^ (exponent.val - 1) ≠ 0 := by omega
    have top : Nat.log2 ((mantissa.val + 2 ^ 23) * 2 ^ (exponent.val - 1)) =
        exponent.val + 22 := by
      rw [Nat.log2_eq_iff nonzero]
      have split : exponent.val + 22 = 23 + (exponent.val - 1) := by omega
      have above : exponent.val + 22 + 1 = 24 + (exponent.val - 1) := by omega
      rw [above, split, pow_add, pow_add]
      exact ⟨Nat.mul_le_mul_right _ (by omega), Nat.mul_lt_mul_of_pos_right (by omega) positive⟩
    simp only [ofUnits, units, if_neg subnormal, if_neg (Nat.not_lt.mpr large), top,
      Nat.add_sub_cancel, Nat.mul_div_cancel _ positive, F32.mk.injEq, true_and, Fin.ext_iff,
      Fin.val_ofNat]
    omega

/-- Quantising leaves a quantised value exactly where it was. -/
theorem quantise_of_quantised {v : F32} (quantised : v.isQuantised = true) : v.quantise = v := by
  simp only [isQuantised, Bool.and_eq_true, beq_iff_eq] at quantised
  obtain ⟨finite, divides⟩ := quantised
  have notNan : v.isNan = false := by
    simp only [scalesFinitely, decide_eq_true_eq] at finite
    simp only [isNan, Bool.and_eq_false_iff, beq_eq_false_iff_ne, ne_eq, Fin.ext_iff]
    left
    show v.exponent.val ≠ 255
    omega
  have rounded : (v.units * 2 ^ 10 + 2 ^ 148) / 2 ^ 149 * 2 ^ 139 = v.units := by omega
  rw [quantise, notNan, if_neg Bool.false_ne_true, finite, rounded, of_units_units]
  rfl

end F32
end Smysl
