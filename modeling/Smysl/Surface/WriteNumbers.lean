import Smysl.Surface.Write

/-!
Numbers in a header read back. A whole number does always. A float is written to six places
after it is cast to 24 bits, and a multiple of 1/1024 reads back where neither loses any of it.
-/

/-!
The nearest floats to a ratio: rounding is by at most half of a last place, scaling both parts
changes nothing, and a ratio that is a float is that float.
-/
namespace Smysl

/-! Rounding to a whole number. -/

theorem round_scaled {c : Nat} (positive : 0 < c) (u d : Nat) :
    roundHalfEven (u * c) (d * c) = roundHalfEven u d := by
  have scale : ∀ {a b : Nat}, a * c < b * c ↔ a < b := Nat.mul_lt_mul_right positive
  rw [roundHalfEven, roundHalfEven, Nat.mul_div_mul_right _ _ positive, Nat.mul_mod_mul_right,
    ← Nat.mul_assoc]
  simp only [scale]

/-- Rounding moves a number by at most half a place. -/
theorem round_error {d : Nat} (positive : 0 < d) (u : Nat) :
    2 * u ≤ 2 * (roundHalfEven u d * d) + d ∧ 2 * (roundHalfEven u d * d) ≤ 2 * u + d := by
  have parts := Nat.div_add_mod' u d
  have below := Nat.mod_lt u positive
  have up : (u / d + 1) * d = u / d * d + d := Nat.succ_mul _ _
  rw [roundHalfEven]
  split
  · omega
  · split
    · omega
    · rcases Nat.mod_two_eq_zero_or_one (u / d) with even | odd
      · rw [even, Nat.add_zero]
        omega
      · rw [odd]
        omega

theorem round_error_scaled {d c q : Nat} (positive : 0 < d) (scale : d * c = q) (u : Nat) :
    2 * (u * c) ≤ 2 * (roundHalfEven u d * q) + q ∧
      2 * (roundHalfEven u d * q) ≤ 2 * (u * c) + q := by
  obtain ⟨up, down⟩ := round_error positive u
  have up' := Nat.mul_le_mul_right c up
  have down' := Nat.mul_le_mul_right c down
  rw [Nat.add_mul, scale, Nat.mul_assoc, Nat.mul_assoc, Nat.mul_assoc, scale] at up' down'
  exact ⟨up', down'⟩

theorem round_least (u d : Nat) : u / d ≤ roundHalfEven u d := by
  rw [roundHalfEven]
  split
  · exact le_refl _
  · split
    · exact Nat.le_succ _
    · exact Nat.le_add_right _ _

theorem round_most (u d : Nat) : roundHalfEven u d ≤ u / d + 1 := by
  rw [roundHalfEven]
  split
  · exact Nat.le_succ _
  · split
    · exact le_refl _
    · omega

/-! Rounding to some leading bits. -/

/-- How many places of `u / d` are below its first `p + 1` bits. -/
def spareBits (p u d : Nat) : Nat := Nat.log2 (u / d) - p

/-- `u / d`, with all but its first `p + 1` bits rounded away. -/
def roundBits (p u d : Nat) : Nat :=
  roundHalfEven u (d * 2 ^ spareBits p u d) * 2 ^ spareBits p u d

theorem div_spare_lt (p u d : Nat) : u / (d * 2 ^ spareBits p u d) < 2 ^ (p + 1) := by
  rw [← Nat.div_div_eq_div_mul]
  refine Nat.div_lt_of_lt_mul ?_
  rw [← pow_add]
  by_cases zero : u / d = 0
  · rw [zero]
    exact Nat.two_pow_pos _
  · refine (Nat.lt_log2_self (n := u / d)).trans_le (Nat.pow_le_pow_right (by norm_num) ?_)
    rw [spareBits]
    omega

theorem round_bits_fits (p u d : Nat) :
    ∃ k, roundBits p u d < 2 ^ (p + 1 + k) ∧ 2 ^ k ∣ roundBits p u d := by
  have most := round_most u (d * 2 ^ spareBits p u d)
  have below := div_spare_lt p u d
  rcases Nat.lt_or_ge (roundHalfEven u (d * 2 ^ spareBits p u d)) (2 ^ (p + 1)) with lt | ge
  · exact ⟨spareBits p u d, scaled_lt lt, Nat.dvd_mul_left _ _⟩
  · have same : roundHalfEven u (d * 2 ^ spareBits p u d) = 2 ^ (p + 1) := by omega
    refine ⟨spareBits p u d + 1, ?_, ?_⟩
    · rw [roundBits, same, ← pow_add]
      exact Nat.pow_lt_pow_right (by norm_num) (by omega)
    · rw [roundBits, same, ← pow_add]
      exact Nat.pow_dvd_pow 2 (by omega)

/-- The places rounded away are few next to the number that is left. -/
theorem spare_bits_small {p u d : Nat} (some' : spareBits p u d ≠ 0) :
    2 ^ (p + spareBits p u d) ≤ roundBits p u d := by
  have large : p < Nat.log2 (u / d) := by
    rw [spareBits] at some'
    omega
  have nonzero : u / d ≠ 0 := by
    intro zero
    rw [zero, Nat.log2_zero] at large
    omega
  have least : 2 ^ p ≤ u / (d * 2 ^ spareBits p u d) := by
    rw [← Nat.div_div_eq_div_mul]
    refine (Nat.le_div_iff_mul_le (Nat.two_pow_pos _)).mpr ?_
    rw [← pow_add]
    refine le_trans (Nat.pow_le_pow_right (by norm_num) ?_) (Nat.log2_self_le nonzero)
    rw [spareBits]
    omega
  rw [roundBits, pow_add]
  exact Nat.mul_le_mul_right _ (least.trans (round_least _ _))

theorem round_bits_error {p u d : Nat} (positive : 0 < d) :
    2 * u ≤ 2 * (roundBits p u d * d) + d * 2 ^ spareBits p u d ∧
      2 * (roundBits p u d * d) ≤ 2 * u + d * 2 ^ spareBits p u d := by
  have error := round_error (Nat.mul_pos positive (Nat.two_pow_pos (spareBits p u d))) u
  have same : roundHalfEven u (d * 2 ^ spareBits p u d) * (d * 2 ^ spareBits p u d) =
      roundBits p u d * d := by
    rw [roundBits, Nat.mul_comm d, Nat.mul_assoc]
  rwa [same] at error

/-- A number of few bits is left as it is. -/
theorem round_bits_exact {p k v d : Nat} (positive : 0 < d) (fits : v < 2 ^ (p + 1 + k))
    (divides : 2 ^ k ∣ v) : roundBits p (v * d) d = v := by
  have spare : spareBits p (v * d) d = Nat.log2 v - p := by
    rw [spareBits, Nat.mul_div_cancel _ positive]
  have whole : 2 ^ (Nat.log2 v - p) ∣ v := by
    by_cases zero : v = 0
    · rw [zero]
      exact Nat.dvd_zero _
    · have below := (Nat.log2_lt zero).mpr fits
      exact (Nat.pow_dvd_pow 2 (by omega)).trans divides
  obtain ⟨q, split⟩ := whole
  rw [roundBits, spare]
  have shifted : v * d = q * (d * 2 ^ (Nat.log2 v - p)) := by
    conv_lhs => rw [split]
    rw [Nat.mul_comm d, ← Nat.mul_assoc, Nat.mul_comm q]
  rw [shifted, round_exact (Nat.mul_pos positive (Nat.two_pow_pos _)), Nat.mul_comm]
  exact split.symm

theorem round_bits_scaled {c : Nat} (positive : 0 < c) (p u d : Nat) :
    roundBits p (u * c) (d * c) = roundBits p u d := by
  have spare : spareBits p (u * c) (d * c) = spareBits p u d := by
    rw [spareBits, spareBits, Nat.mul_div_mul_right _ _ positive]
  rw [roundBits, roundBits, spare, Nat.mul_right_comm d, round_scaled positive]

/-! `binary64` -/

namespace F64

theorem units_lt (v : F64) : v.units < 2 ^ (53 + (v.exponent.val - 1)) := by
  have manSmall := v.mantissa.isLt
  have positive : 0 < 2 ^ (v.exponent.val - 1) := Nat.two_pow_pos _
  rw [units, pow_add]
  split
  · exact lt_of_lt_of_le (by omega) (Nat.le_mul_of_pos_right _ positive)
  · exact Nat.mul_lt_mul_of_pos_right (by omega) positive

theorem units_divides (v : F64) : 2 ^ (v.exponent.val - 1) ∣ v.units := by
  rw [units]
  split
  · rename_i subnormal
    rw [subnormal]
    exact one_dvd _
  · exact Nat.dvd_mul_left _ _

theorem units_last {v : F64} (finite : v.exponent.val ≠ 2047) : v.units < 2 ^ 2098 :=
  raised v.units_lt (by omega)

theorem of_units_units (v : F64) : ofUnits v.negative v.units = v := by
  obtain ⟨negative, exponent, mantissa⟩ := v
  have expSmall := exponent.isLt
  have manSmall := mantissa.isLt
  by_cases subnormal : exponent.val = 0
  · have zero : exponent = 0 := Fin.ext subnormal
    subst zero
    simp only [ofUnits, units, Fin.val_zero, if_true, if_pos manSmall, F64.mk.injEq, true_and]
    exact Fin.ext (Nat.mod_eq_of_lt manSmall)
  · have positive : 0 < 2 ^ (exponent.val - 1) := Nat.two_pow_pos _
    have large : 2 ^ 52 ≤ (mantissa.val + 2 ^ 52) * 2 ^ (exponent.val - 1) :=
      (Nat.le_add_left _ _).trans (Nat.le_mul_of_pos_right _ positive)
    have nonzero : (mantissa.val + 2 ^ 52) * 2 ^ (exponent.val - 1) ≠ 0 := by omega
    have top : Nat.log2 ((mantissa.val + 2 ^ 52) * 2 ^ (exponent.val - 1)) =
        exponent.val + 51 := by
      rw [Nat.log2_eq_iff nonzero]
      have split : exponent.val + 51 = 52 + (exponent.val - 1) := by omega
      have above : exponent.val + 51 + 1 = 53 + (exponent.val - 1) := by omega
      rw [above, split, pow_add, pow_add]
      exact ⟨Nat.mul_le_mul_right _ (by omega), Nat.mul_lt_mul_of_pos_right (by omega) positive⟩
    simp only [ofUnits, units, if_neg subnormal, if_neg (Nat.not_lt.mpr large), top,
      Nat.add_sub_cancel, Nat.mul_div_cancel _ positive, F64.mk.injEq, true_and, Fin.ext_iff,
      Fin.val_ofNat]
    omega

theorem of_ratio_eq (negative : Bool) (num den : Nat) : ofRatio negative num den =
    if roundBits 52 (num * 2 ^ 1074) den < 2 ^ 2098 then
      ofUnits negative (roundBits 52 (num * 2 ^ 1074) den)
    else ⟨negative, 2047, 0⟩ := rfl

theorem of_ratio_scaled {c : Nat} (positive : 0 < c) (negative : Bool) (num den : Nat) :
    ofRatio negative (num * c) (den * c) = ofRatio negative num den := by
  rw [of_ratio_eq, of_ratio_eq, Nat.mul_right_comm, round_bits_scaled positive]

/-- A ratio that is a float is read as it. -/
theorem of_ratio_exact {v : F64} {num den : Nat} (finite : v.exponent.val ≠ 2047)
    (positive : 0 < den) (same : num * 2 ^ 1074 = v.units * den) :
    ofRatio v.negative num den = v := by
  have exact' := round_bits_exact (p := 52) positive v.units_lt v.units_divides
  rw [of_ratio_eq, same, exact', if_pos (units_last finite), of_units_units]

/-- What a ratio is read as has the units it rounds to. -/
theorem units_of_ratio {v : F64} {negative : Bool} {num den : Nat}
    (finite : v.exponent.val ≠ 2047) (read : ofRatio negative num den = v) :
    v.negative = negative ∧ v.units = roundBits 52 (num * 2 ^ 1074) den := by
  rw [of_ratio_eq] at read
  split at read
  · rename_i small
    obtain ⟨k, fits, divides⟩ := round_bits_fits 52 (num * 2 ^ 1074) den
    rw [← read]
    exact ⟨negative_of_units _ _, units_of_units fits divides small⟩
  · rw [← read] at finite
    exact absurd rfl finite

/-! To `binary32`. -/

theorem to_f32_eq {v : F64} (finite : v.exponent.val ≠ 2047) : v.toF32 =
    if roundBits 23 v.units (2 ^ 925) < 2 ^ 277 then
      F32.ofUnits v.negative (roundBits 23 v.units (2 ^ 925))
    else ⟨v.negative, 255, 0⟩ := by
  rw [toF32, if_neg finite]
  simp only [roundBits, spareBits, pow_add]
  rfl

end F64

theorem F32.negative_of_units (negative : Bool) (u : Nat) :
    (ofUnits negative u).negative = negative := by
  rw [ofUnits]
  split
  · rfl
  · rfl

/-- A finite float is cast to one of its sign and of the units it rounds to, or to an
infinity. -/
theorem F64.to_f32_cases {v : F64} (finite : v.exponent.val ≠ 2047) :
    (v.toF32.exponent.val ≠ 255 ∧ v.toF32.negative = v.negative ∧
      v.toF32.units = roundBits 23 v.units (2 ^ 925)) ∨
    v.toF32 = ⟨v.negative, 255, 0⟩ := by
  rw [to_f32_eq finite]
  split
  · rename_i small
    left
    obtain ⟨k, fits, divides⟩ := round_bits_fits 23 v.units (2 ^ 925)
    have low := @F32.exponent_of_units v.negative _ _ small (le_refl _)
    exact ⟨by omega, F32.negative_of_units _ _, F32.units_of_units fits divides small⟩
  · exact .inr rfl

end Smysl

/-! Text of numbers. -/

namespace Smysl
open ByteString Utf8 Date

theorem bytes_append (xs ys : List Char) : bytes (xs ++ ys) = bytes xs ++ bytes ys :=
  List.flatMap_append

/-! Digits. -/

theorem digits_value_split (xs ys : Bytes) : digitsValue (xs ++ ys) =
    (digitsValue xs).bind fun a => (digitsValue ys).map fun b => a * 10 ^ ys.length + b := by
  induction ys using List.reverseRecOn with
  | nil =>
    rw [List.append_nil]
    cases digitsValue xs <;> simp [digitsValue]
  | append_singleton ys b ih =>
    rw [← List.append_assoc, digits_value_append, digits_value_append, ih]
    cases digitsValue xs with
    | none => rfl
    | some a =>
      cases digitsValue ys with
      | none => rfl
      | some n =>
        simp only [Option.bind_some, Option.map_some]
        split
        · rw [Option.map_some, List.length_append, List.length_singleton, pow_succ]
          congr 1
          ring
        · rfl

theorem digits_value_zeros (k : Nat) : digitsValue (List.replicate k 0x30) = some 0 := by
  induction k with
  | zero => rfl
  | succ k ih =>
    rw [List.replicate_succ', digits_value_append, ih]
    rfl

theorem padded_value (n : Nat) : digitsValue (padded 1 n) = some n := by
  have fits := Nat.lt_pow_succ_log_self (show 1 < 10 by norm_num) n
  rw [padded]
  exact value_of_digits (fits.trans_le (Nat.pow_le_pow_right (by norm_num) (le_max_right _ _)))

theorem padded_digits {n : Nat} {b : UInt8} (mem : b ∈ padded 1 n) : isAsciiDigit b = true :=
  digits_are_digits mem

theorem padded_cons (n : Nat) : ∃ d ds, padded 1 n = d :: ds := by
  refine List.exists_cons_of_length_pos ?_
  rw [padded, digits_length]
  omega

theorem value_digits {bs : Bytes} {n : Nat} (value : digitsValue bs = some n) {b : UInt8}
    (mem : b ∈ bs) : isAsciiDigit b = true := by
  rw [← (digits_of_value value).2] at mem
  exact digits_are_digits mem

theorem digit_low {b : UInt8} (digit : isAsciiDigit b = true) : 48 ≤ b.toNat ∧ b.toNat ≤ 57 := by
  simp only [isAsciiDigit, Bool.and_eq_true, decide_eq_true_eq, UInt8.le_iff_toNat_le] at digit
  exact digit

namespace Write

theorem bytes_ascii {bs : Bytes} (low : ∀ b ∈ bs, b.toNat < 128) : bytes (ascii bs) = bs := by
  have same := utf8_ascii_text low
  rwa [utf8, asciiText, String.toByteArray_ofList, List.utf8Encode,
    List.toList_data_toByteArray] at same

theorem bytes_digits {ds : Bytes} (digits : ∀ d ∈ ds, isAsciiDigit d = true) :
    bytes (ascii ds) = ds :=
  bytes_ascii fun d mem => by
    have := digit_low (digits d mem)
    omega

/-- The bytes of a sign. -/
def sign (negative : Bool) : Bytes := if negative then [0x2D] else []

theorem bytes_minus (negative : Bool) : bytes (minus negative) = sign negative := by
  cases negative <;> rfl

theorem digit_no_sign {d : UInt8} (digit : isAsciiDigit d = true) : d ≠ 0x2D ∧ d ≠ 0x2B := by
  have low := digit_low digit
  constructor <;> rintro rfl <;> exact absurd low.1 (by decide)

/-! Whole numbers. -/

theorem parse_int_digits (negative : Bool) {d : UInt8} {ds : Bytes}
    (digit : isAsciiDigit d = true) : Hjson.parseInt (sign negative ++ d :: ds) =
      (digitsValue (d :: ds)).bind fun n =>
        let value : Int := if negative then -n else n
        if -2 ^ 63 ≤ value ∧ value < 2 ^ 63 then some (Int64.ofInt value) else none := by
  obtain ⟨no_minus, no_plus⟩ := digit_no_sign digit
  cases negative with
  | false => simp [sign, Hjson.parseInt, no_minus, no_plus]
  | true => simp [sign, Hjson.parseInt]

/-- What parses as a whole number is an optional sign and digits. -/
theorem parse_int_none {negative : Bool} {d : UInt8} {ds : Bytes} (digit : isAsciiDigit d = true)
    {b : UInt8} (mem : b ∈ ds) (other : isAsciiDigit b = false) :
    Hjson.parseInt (sign negative ++ d :: ds) = none := by
  rw [parse_int_digits negative digit]
  cases value : digitsValue (d :: ds) with
  | none => rfl
  | some n =>
    have is_digit := value_digits value (List.mem_cons_of_mem d mem)
    rw [other] at is_digit
    cases is_digit

theorem span_digits {ds rest : Bytes} (digits : ∀ d ∈ ds, isAsciiDigit d = true)
    (stops : ∀ b ∈ rest.head?, isAsciiDigit b = false) :
    Hjson.leadingDigits (ds ++ rest) = (ds, rest) := by
  rw [Hjson.leadingDigits, List.span_eq_takeWhile_dropWhile,
    List.takeWhile_append_of_pos digits, List.dropWhile_append_of_pos digits]
  cases rest with
  | nil => simp
  | cons b rest => simp [stops b rfl]

/-- A sign, digits, a point and digits are a decimal. -/
theorem parse_decimal_point (negative : Bool) {d : UInt8} {ds fraction : Bytes} {n : Nat}
    (whole : ∀ b ∈ d :: ds, isAsciiDigit b = true) (after : ∀ b ∈ fraction, isAsciiDigit b = true)
    (value : digitsValue (d :: ds ++ fraction) = some n) :
    Hjson.parseDecimal (sign negative ++ (d :: ds ++ 0x2E :: fraction)) =
      some (F64.ofRatio negative n (10 ^ fraction.length)) := by
  obtain ⟨no_minus, no_plus⟩ := digit_no_sign (whole d List.mem_cons_self)
  have first : Hjson.leadingDigits (d :: (ds ++ 0x2E :: fraction)) = (d :: ds, 0x2E :: fraction) :=
    span_digits whole fun b here => by
      cases here
      rfl
  have second : Hjson.leadingDigits fraction = (fraction, []) := by
    have all := @span_digits fraction [] after fun b here => by cases here
    rwa [List.append_nil] at all
  have value' : digitsValue (d :: (ds ++ fraction)) = some n := value
  cases negative with
  | false =>
    simp [sign, Hjson.parseDecimal, no_minus, no_plus, first, second, Hjson.parseExponent, value']
  | true => simp [sign, Hjson.parseDecimal, first, second, Hjson.parseExponent, value']

/-- What begins with a sign or a digit is no word. -/
theorem classify_number {raw : List Char} {negative : Bool} {d : UInt8} {ds : Bytes}
    (same : bytes raw = sign negative ++ d :: ds) (digit : isAsciiDigit d = true) :
    (∀ i, Hjson.parseInt (bytes raw) = some i → Hjson.classify raw = .int i) ∧
      ∀ f, Hjson.parseInt (bytes raw) = none →
        ((bytes raw).all fun c => isAsciiDigit c || c == 0x2E || c == 0x2D || c == 0x2B ||
          c == 0x65 || c == 0x45) = true →
        Hjson.parseDecimal (bytes raw) = some f → Hjson.classify raw = .float f := by
  have other : ∀ word : String, (∀ b ∈ (bytes word.toList).head?, 0x66 ≤ b.toNat) →
      String.ofList raw ≠ word := by
    intro word high spelled
    rw [show raw = word.toList by rw [← spelled, String.toList_ofList]] at same
    rw [same] at high
    have low := digit_low digit
    cases negative with
    | false =>
      have := high d rfl
      omega
    | true => exact absurd (high 0x2D rfl) (by decide)
  rw [Hjson.classify]
  dsimp only
  rw [if_neg (other "true" (by rintro b ⟨rfl⟩; decide)),
    if_neg (other "false" (by rintro b ⟨rfl⟩; decide)),
    if_neg (other "null" (by rintro b ⟨rfl⟩; decide))]
  constructor
  · intro i value
    rw [value]
  · intro f none' numeric value
    rw [none', numeric, if_pos rfl, value]

theorem bytes_int (i : Int64) :
    bytes (int i) = sign (decide (i.toInt < 0)) ++ padded 1 i.toInt.natAbs := by
  rw [int, bytes_append, bytes_minus, bytes_digits fun d mem => padded_digits mem]

/-- A whole number reads back. -/
theorem classify_int (i : Int64) : Hjson.classify (int i) = .int i := by
  obtain ⟨d, ds, spelled⟩ := padded_cons i.toInt.natAbs
  have digit : isAsciiDigit d = true := padded_digits (spelled ▸ List.mem_cons_self)
  have same := bytes_int i
  have value := padded_value i.toInt.natAbs
  rw [spelled] at same value
  have low := Int64.le_toInt i
  have high := Int64.toInt_lt i
  have back : (if decide (i.toInt < 0) then -(i.toInt.natAbs : Int) else i.toInt.natAbs) =
      i.toInt := by
    by_cases negative : i.toInt < 0
    · rw [decide_eq_true negative, if_pos rfl]
      omega
    · rw [decide_eq_false negative, if_neg Bool.false_ne_true]
      omega
  refine (classify_number same digit).1 i ?_
  rw [same, parse_int_digits _ digit, value, Option.bind_some]
  dsimp only
  rw [back, if_pos ⟨low, high⟩, Int64.ofInt_toInt]

/-! Floats as they are written. -/

theorem trim_zeros_zero (s : List Char) : trimZeros (s ++ ['0']) = trimZeros s := by
  simp [trimZeros]

theorem trim_zeros_other (s : List Char) {c : Char} (other : c ≠ '0') :
    trimZeros (s ++ [c]) = s ++ [c] := by
  simp [trimZeros, other]

theorem ascii_append (a b : Bytes) : ascii (a ++ b) = ascii a ++ ascii b := List.map_append

/-- The zeros after the last other digit are dropped. -/
theorem trim_zeros_digits (front : List Char) {ds : Bytes}
    (digits : ∀ d ∈ ds, isAsciiDigit d = true) :
    ∃ kept k, ds = kept ++ List.replicate k 0x30 ∧
      trimZeros (front ++ '.' :: ascii ds) = front ++ '.' :: ascii kept := by
  induction ds using List.reverseRecOn with
  | nil => exact ⟨[], 0, rfl, trim_zeros_other front (by decide)⟩
  | append_singleton ds d ih =>
    have moved : front ++ '.' :: ascii (ds ++ [d]) =
        (front ++ '.' :: ascii ds) ++ [Char.ofNat d.toNat] := by
      rw [ascii_append, List.append_assoc]
      rfl
    rw [moved]
    by_cases zero : d = 0x30
    · obtain ⟨kept, k, rfl, trimmed⟩ := ih fun e mem => digits e (List.mem_append_left _ mem)
      refine ⟨kept, k + 1, ?_, ?_⟩
      · rw [List.replicate_succ', zero, List.append_assoc]
      · rw [zero]
        exact (trim_zeros_zero _).trans trimmed
    · have low := digit_low (digits d (by simp))
      have other : Char.ofNat d.toNat ≠ '0' := by
        intro same
        have code := congrArg Char.toNat same
        rw [char_of_ascii (by omega)] at code
        exact zero (UInt8.toNat_inj.mp code)
      exact ⟨ds ++ [d], 0, by simp, by rw [trim_zeros_other _ other, moved]⟩

theorem last_of_digits (front : List Char) {ds : Bytes}
    (digits : ∀ d ∈ ds, isAsciiDigit d = true) (some' : ds ≠ []) :
    (front ++ '.' :: ascii ds).getLast? ≠ some '.' := by
  obtain ⟨init, d, rfl⟩ := List.eq_nil_or_concat ds |>.resolve_left some'
  rw [List.concat_eq_append, ascii_append, ← List.cons_append, ← List.append_assoc]
  intro same
  have low := digit_low (digits d (by simp))
  rw [show ascii [d] = [Char.ofNat d.toNat] from rfl, List.getLast?_concat] at same
  have moved := congrArg Char.toNat (Option.some.inj same)
  rw [char_of_ascii (by omega)] at moved
  change d.toNat = 46 at moved
  omega

/-- A finite float is written as its millionths, in all their digits that count. -/
theorem trim_float_shape {f : F32} (finite : f.exponent.val ≠ 255) :
    ∃ places D, trimFloat f = minus f.negative ++
        (ascii (padded 1 (millionths f / 10 ^ 6)) ++ '.' :: ascii places) ∧
      (∀ b ∈ places, isAsciiDigit b = true) ∧
      digitsValue (padded 1 (millionths f / 10 ^ 6) ++ places) = some D ∧
      ∃ k, places.length + k = 6 ∧ D * 10 ^ k = millionths f := by
  have is_finite : f.isFinite = true := by
    simpa [F32.isFinite, Fin.ext_iff] using finite
  have number : f.isNan = false := by
    simp only [F32.isNan, Bool.and_eq_false_iff, beq_eq_false_iff_ne, ne_eq, Fin.ext_iff]
    exact .inl finite
  generalize counted : millionths f = n
  have bound : n % 10 ^ 6 < 10 ^ 6 := Nat.mod_lt _ (by norm_num)
  obtain ⟨kept, k, split, trimmed⟩ := @trim_zeros_digits
    (minus f.negative ++ ascii (padded 1 (n / 10 ^ 6)))
    (digits 6 (n % 10 ^ 6)) fun d mem => digits_are_digits mem
  have long := congrArg List.length split
  rw [digits_length, List.length_append, List.length_replicate] at long
  have kept_digits : ∀ b ∈ kept, isAsciiDigit b = true := fun b mem =>
    digits_are_digits (split ▸ List.mem_append_left _ mem)
  have places := value_of_digits bound
  rw [split, digits_value_split, digits_value_zeros] at places
  obtain ⟨p, value, scaled⟩ : ∃ p, digitsValue kept = some p ∧ p * 10 ^ k = n % 10 ^ 6 := by
    cases value : digitsValue kept with
    | none =>
      rw [value] at places
      cases places
    | some p =>
      rw [value] at places
      exact ⟨p, rfl, by simpa using places⟩
  have whole : trimFloat f =
      if (minus f.negative ++ ascii (padded 1 (n / 10 ^ 6)) ++ '.' :: ascii kept).getLast? =
          some '.' then
        minus f.negative ++ ascii (padded 1 (n / 10 ^ 6)) ++ '.' :: ascii kept ++ ['0']
      else minus f.negative ++ ascii (padded 1 (n / 10 ^ 6)) ++ '.' :: ascii kept := by
    rw [trimFloat, fixed, number, is_finite, if_neg Bool.false_ne_true, if_pos rfl, counted,
      trimmed]
  rw [whole]
  by_cases none' : kept = []
  · subst none'
    rw [if_pos (by simp [ascii])]
    refine ⟨[0x30], n / 10 ^ 6 * 10, by simp [ascii], ?_, ?_, 5, by simp, ?_⟩
    · intro b mem
      rw [List.mem_singleton.mp mem]
      rfl
    · rw [digits_value_split, padded_value, show digitsValue [0x30] = some 0 from rfl,
        Option.bind_some, Option.map_some, Nat.add_zero, List.length_singleton, pow_one]
    · cases value
      rw [Nat.zero_mul] at scaled
      have parts := Nat.div_add_mod' n (10 ^ 6)
      rw [← scaled, Nat.add_zero] at parts
      rw [Nat.mul_assoc, ← pow_succ', show 5 + 1 = 6 from rfl, parts]
  · rw [if_neg (last_of_digits _ kept_digits none')]
    refine ⟨kept, n / 10 ^ 6 * 10 ^ kept.length + p, by rw [List.append_assoc], kept_digits, ?_,
      k, long.symm, ?_⟩
    · rw [digits_value_split, padded_value, value]
      rfl
    · rw [add_mul, Nat.mul_assoc, ← pow_add, ← long, scaled]
      exact Nat.div_add_mod' n (10 ^ 6)

/-- What a finite float is read as. -/
theorem classify_trimmed {f : F32} (finite : f.exponent.val ≠ 255) :
    Hjson.classify (trimFloat f) =
      .float (F64.ofRatio f.negative (millionths f) (10 ^ 6)) := by
  obtain ⟨places, D, shape, digits, value, k, long, scaled⟩ := trim_float_shape finite
  obtain ⟨d, ds, spelled⟩ := padded_cons (millionths f / 10 ^ 6)
  have whole : ∀ b ∈ d :: ds, isAsciiDigit b = true := fun b mem =>
    padded_digits (spelled ▸ mem)
  rw [spelled] at shape value
  have same : bytes (trimFloat f) = sign f.negative ++ (d :: ds ++ 0x2E :: places) := by
    rw [shape, bytes_append, bytes_minus, bytes_append, bytes_digits whole, bytes_cons,
      bytes_digits digits]
    rfl
  have numeric : ((bytes (trimFloat f)).all fun c => isAsciiDigit c || c == 0x2E || c == 0x2D ||
      c == 0x2B || c == 0x65 || c == 0x45) = true := by
    rw [same]
    refine List.all_eq_true.mpr fun b mem => ?_
    rcases List.mem_append.mp mem with signed | mem
    · have minus' : b = 0x2D := by
        cases negative : f.negative with
        | false =>
          rw [negative] at signed
          cases signed
        | true =>
          rw [negative] at signed
          exact List.mem_singleton.mp signed
      rw [minus']
      rfl
    · rcases List.mem_append.mp mem with first | mem
      · rw [whole b first]
        rfl
      · rcases List.mem_cons.mp mem with rfl | last
        · rfl
        · rw [digits b last]
          rfl
  have ratio := F64.of_ratio_scaled (show 0 < 10 ^ k by positivity) f.negative D
    (10 ^ places.length)
  rw [scaled, ← pow_add, long] at ratio
  refine (classify_number same (whole d List.mem_cons_self)).2 _ ?_ numeric ?_
  · rw [same, List.cons_append]
    exact parse_int_none (whole d List.mem_cons_self)
      (List.mem_append_right _ List.mem_cons_self) rfl
  · rw [same, parse_decimal_point _ whole digits value, ratio]

/-- An infinity is read as a word. -/
theorem classify_infinite (negative : Bool) (f : F64) :
    Hjson.classify (trimFloat ⟨negative, 255, 0⟩) ≠ .float f := by
  cases negative with
  | false =>
    have word : Hjson.classify (trimFloat ⟨false, 255, 0⟩) = .str "inf" := by rfl
    rw [word]
    exact fun same => by cases same
  | true =>
    have word : Hjson.classify (trimFloat ⟨true, 255, 0⟩) = .str "-inf" := by rfl
    rw [word]
    exact fun same => by cases same

end Write

/-! Floats that survive being written. -/

/-- A finite multiple of 1/1024. -/
def F64.isThousandths (f : F64) : Bool := f.exponent.val != 2047 && f.units % 2 ^ 1064 == 0

/-- Whether `as f32` loses nothing, and six places hold the rest: it is a multiple of 1/64. -/
def F64.isSixPlaces (f : F64) : Bool := decide (f.toF32.toF64 = f) && f.units % 2 ^ 1068 == 0

section
variable {f : F64}

theorem F32.to_f64_units {g : F32} (finite : g.exponent.val ≠ 255) :
    g.toF64.units = g.units * 2 ^ 925 ∧ g.toF64.negative = g.negative := by
  have expSmall := g.exponent.isLt
  have small : g.units * 2 ^ 925 < 2 ^ (24 + (g.exponent.val - 1) + 925) := scaled_lt g.units_lt
  rw [F32.toF64, if_neg finite]
  refine ⟨F64.units_of_units (k := g.exponent.val - 1 + 925) (raised small (by omega)) ?_
    (raised small (by omega)), F64.negative_of_units _ _⟩
  rw [pow_add]
  exact Nat.mul_dvd_mul_right g.units_divides _

/-- A cast that keeps the units loses nothing. -/
theorem cast_back_iff (small : f.toF32.exponent.val ≠ 255) (sign : f.toF32.negative = f.negative) :
    f.toF32.toF64 = f ↔ f.toF32.units * 2 ^ 925 = f.units := by
  obtain ⟨units, negative⟩ := F32.to_f64_units small
  constructor
  · intro same
    rw [← units, same]
  · intro same
    rw [F32.toF64, if_neg small, same, sign, F64.of_units_units]

/-- Multiples of 1/64 have six places. -/
theorem millionths_exact {g : F32} (whole : 2 ^ 143 ∣ g.units) :
    Write.millionths g * 2 ^ 1074 = g.units * 2 ^ 925 * 10 ^ 6 := by
  obtain ⟨m, split⟩ := whole
  have scaled : g.units * 10 ^ 6 = m * 15625 * 2 ^ 149 := by
    rw [split, Nat.mul_comm (2 ^ 143), Nat.mul_assoc, Nat.mul_assoc]
    norm_num
  rw [Write.millionths, scaled, round_exact (Nat.two_pow_pos 149), Nat.mul_right_comm g.units,
    scaled, Nat.mul_assoc (m * 15625), ← pow_add]

theorem scaled_near {x y e P : Nat} (little : e < 2 * P) (le : x * P ≤ y * P + e) :
    x ≤ y + 1 := by
  by_contra more
  have two := Nat.mul_le_mul_right P (show y + 2 ≤ x by omega)
  rw [Nat.add_mul] at two
  omega

/-- Millionths that are read as a number of `P`s are millionths of it. -/
theorem millionths_of_near {N a e P : Nat} (little : e < 2 * P)
    (low : 2 * (N * (1024 * P)) ≤ 2 * (a * P * 10 ^ 6) + e)
    (high : 2 * (a * P * 10 ^ 6) ≤ 2 * (N * (1024 * P)) + e) : 16 * N = 15625 * a := by
  have left' : 2 * (N * (1024 * P)) = 2048 * N * P := by ring
  have right' : 2 * (a * P * 10 ^ 6) = 2000000 * a * P := by ring
  rw [left', right'] at low high
  have above := scaled_near little low
  have below := scaled_near little high
  omega

theorem divides_of_millionths {N a : Nat} (same : 16 * N = 15625 * a) : 16 ∣ a := by
  omega

/-- The nearest millionths of a number of `P`s are those of no other. -/
theorem units_of_millionths {N a b G A P : Nat} (positive : 0 < P) (same : 16 * N = 15625 * a)
    (units : G * A = b * P) (low : 2 * (G * 10 ^ 6 * A) ≤ 2 * (N * (1024 * P)) + 1024 * P)
    (high : 2 * (N * (1024 * P)) ≤ 2 * (G * 10 ^ 6 * A) + 1024 * P) : b = a := by
  have left' : 2 * (N * (1024 * P)) = 2048 * N * P := by ring
  have right' : 2 * (G * 10 ^ 6 * A) = 2000000 * b * P := by
    rw [Nat.mul_right_comm G, units]
    ring
  rw [left', right', ← Nat.add_mul] at low high
  have above := Nat.le_of_mul_le_mul_right low positive
  have below := Nat.le_of_mul_le_mul_right high positive
  omega

/-- A cast to 24 bits keeps a multiple of 1/1024, or gives one. -/
theorem cast_thousandths (thousandths : 2 ^ 1064 ∣ f.units) :
    roundBits 23 f.units (2 ^ 925) * 2 ^ 925 = f.units ∨
      2 ^ 1064 ∣ roundBits 23 f.units (2 ^ 925) * 2 ^ 925 := by
  generalize spare : spareBits 23 f.units (2 ^ 925) = s
  rcases Nat.lt_or_ge s 139 with few | many
  · left
    obtain ⟨q, split⟩ := (pow_dvd_pow 2 (show 925 + s ≤ 1064 by omega)).trans thousandths
    have rounded : roundHalfEven f.units (2 ^ 925 * 2 ^ s) = q := by
      rw [split, pow_add 2 925 s, Nat.mul_comm]
      exact round_exact (by positivity) q
    rw [roundBits, spare, rounded, Nat.mul_assoc, ← pow_add, Nat.add_comm s, Nat.mul_comm]
    exact split.symm
  · right
    rw [roundBits, spare, Nat.mul_assoc, ← pow_add 2 s]
    exact Dvd.dvd.mul_left (pow_dvd_pow 2 (show 1064 ≤ s + 925 by omega)) _

theorem places_small {s : Nat} (little : s ≤ 1045) : 10 ^ 6 * 2 ^ s < 2 * 2 ^ 1064 := by
  calc 10 ^ 6 * 2 ^ s < 2 ^ 20 * 2 ^ s :=
        Nat.mul_lt_mul_of_pos_right (by norm_num) (Nat.two_pow_pos s)
    _ = 2 ^ (20 + s) := (pow_add 2 20 s).symm
    _ ≤ 2 ^ (1064 + 1) := pow_le_pow_right₀ (by norm_num) (by omega)
    _ = 2 * 2 ^ 1064 := by rw [pow_succ']

/-- A large float is cast to a whole number. -/
theorem cast_large (large : 2 ^ 1098 ≤ f.units) :
    2 ^ 150 ∣ roundBits 23 f.units (2 ^ 925) := by
  have least : 2 ^ 173 ≤ f.units / 2 ^ 925 := by
    refine (Nat.le_div_iff_mul_le (by positivity)).mpr ?_
    rw [← pow_add, show 173 + 925 = 1098 from rfl]
    exact large
  have nonzero : f.units / 2 ^ 925 ≠ 0 := by
    intro zero
    rw [zero] at least
    exact absurd least (by norm_num)
  have log := (Nat.le_log2 nonzero).mpr least
  have spare : 150 ≤ spareBits 23 f.units (2 ^ 925) := by
    rw [spareBits]
    omega
  exact Dvd.dvd.mul_left (pow_dvd_pow 2 spare) _

/-- A multiple of 1/1024 that reads back lost nothing on the way. -/
theorem six_places_of_read {g : F32} {negative : Bool} (finite : f.exponent.val ≠ 2047)
    (thousandths : 2 ^ 1064 ∣ f.units) (cast : g.units = roundBits 23 f.units (2 ^ 925))
    (read : F64.ofRatio negative (Write.millionths g) (10 ^ 6) = f) :
    g.units * 2 ^ 925 = f.units ∧ 2 ^ 1068 ∣ f.units := by
  have rounded := (F64.units_of_ratio finite read).2
  have units : (2 : Nat) ^ 1074 = 1024 * 2 ^ 1064 := by
    rw [show 1074 = 10 + 1064 from rfl, pow_add, show (2 : Nat) ^ 10 = 1024 from rfl]
  have keeps := cast_thousandths thousandths
  rcases Nat.lt_or_ge f.units (2 ^ 1098) with moderate | large
  · obtain ⟨a, whole⟩ := thousandths
    rw [Nat.mul_comm] at whole
    generalize spare : spareBits 52 (Write.millionths g * 2 ^ 1074) (10 ^ 6) = s
    obtain ⟨low, high⟩ :=
      @round_bits_error 52 (Write.millionths g * 2 ^ 1074) (10 ^ 6) (by norm_num)
    rw [← rounded, whole, spare, units] at low high
    have little : s ≤ 1045 := by
      by_contra more
      have least := @spare_bits_small 52 (Write.millionths g * 2 ^ 1074) (10 ^ 6) (by omega)
      rw [← rounded, spare] at least
      have between := (Nat.pow_lt_pow_iff_right (show 1 < 2 by norm_num)).mp
        (least.trans_lt moderate)
      omega
    have same := millionths_of_near (places_small little) low high
    have kept : g.units * 2 ^ 925 = f.units := by
      rcases keeps with kept | ⟨b, other⟩
      · rw [cast, kept]
      · rw [← cast, Nat.mul_comm (2 ^ 1064)] at other
        have scale := units
        rw [show 1074 = 149 + 925 from rfl, pow_add] at scale
        obtain ⟨up, down⟩ := round_error_scaled (by positivity) scale (g.units * 10 ^ 6)
        have only := units_of_millionths (by positivity) same other up down
        rw [other, only]
        exact whole.symm
    obtain ⟨c, rfl⟩ := divides_of_millionths same
    refine ⟨kept, c, ?_⟩
    rw [whole, show (16 : Nat) = 2 ^ 4 from rfl, Nat.mul_right_comm, ← pow_add]
  · have whole := cast_large large
    rw [← cast] at whole
    have scaled := millionths_exact ((pow_dvd_pow 2 (show 143 ≤ 150 by norm_num)).trans whole)
    obtain ⟨k, fits, divides⟩ := round_bits_fits 23 f.units (2 ^ 925)
    rw [← cast] at fits divides
    have held : g.units * 2 ^ 925 < 2 ^ (52 + 1 + (k + 925)) :=
      raised (scaled_lt fits) (by omega)
    have few : 2 ^ (k + 925) ∣ g.units * 2 ^ 925 := by
      rw [pow_add]
      exact Nat.mul_dvd_mul_right divides _
    rw [scaled, round_bits_exact (by norm_num) held few] at rounded
    refine ⟨rounded.symm, ?_⟩
    rw [rounded]
    refine (pow_dvd_pow 2 (show 1068 ≤ 150 + 925 by norm_num)).trans ?_
    rw [pow_add 2 150]
    exact Nat.mul_dvd_mul_right whole _

/-- A multiple of 1/1024 reads back just where neither 24 bits nor six places lose any of it. -/
theorem float_reads_iff (thousandths : f.isThousandths = true) :
    Hjson.classify (Write.trimFloat f.toF32) = .float f ↔ f.isSixPlaces = true := by
  simp only [F64.isThousandths, Bool.and_eq_true, bne_iff_ne, ne_eq, beq_iff_eq] at thousandths
  obtain ⟨finite, divides⟩ := thousandths
  have divides := Nat.dvd_of_mod_eq_zero divides
  rw [F64.isSixPlaces, Bool.and_eq_true, decide_eq_true_eq, beq_iff_eq, ← Nat.dvd_iff_mod_eq_zero]
  rcases F64.to_f32_cases finite with ⟨small, negative, cast⟩ | infinite
  · rw [Write.classify_trimmed small, cast_back_iff small negative, negative]
    constructor
    · intro read
      exact six_places_of_read finite divides cast (HValue.float.inj read)
    · rintro ⟨kept, six⟩
      have whole : 2 ^ 143 ∣ f.toF32.units := by
        rw [← kept] at six
        refine Nat.dvd_of_mul_dvd_mul_right (k := 2 ^ 925) (by positivity) ?_
        rw [← pow_add, show 143 + 925 = 1068 from rfl]
        exact six
      have scaled := millionths_exact whole
      rw [kept] at scaled
      rw [F64.of_ratio_exact finite (by norm_num) scaled]
  · rw [infinite]
    constructor
    · intro read
      exact absurd read (Write.classify_infinite f.negative f)
    · rintro ⟨kept, _⟩
      rw [← kept] at finite
      exact absurd rfl finite

end

end Smysl
