import Smysl.Lib.Bytes

/-!
Bits of byte strings, the highest bit of the first byte first. A byte string is its bits, its
bits are set one at a time, and the strings with given first bits are an interval of the
bytewise order.
-/
namespace ByteString

/-- A bit of a byte string; past the end are zeros. -/
def bitAt (bs : Bytes) (n : Nat) : Bool := (bs.getD (n / 8) 0).toNat.testBit (7 - n % 8)

/-- A byte string with one bit set. -/
def setBit (bs : Bytes) (n : Nat) : Bytes :=
  bs.set (n / 8) (bs.getD (n / 8) 0 ||| 1 <<< (UInt8.ofNat (7 - n % 8)))

@[simp] theorem set_bit_length (bs : Bytes) (n : Nat) : (setBit bs n).length = bs.length :=
  List.length_set

theorem byte_ext {a b : UInt8} (same : ∀ i < 8, a.toNat.testBit i = b.toNat.testBit i) :
    a = b := by
  apply UInt8.toNat_inj.mp
  apply Nat.eq_of_testBit_eq
  intro i
  by_cases low : i < 8
  · exact same i low
  · have high : 2 ^ 8 ≤ 2 ^ i := Nat.pow_le_pow_right (by decide) (by omega)
    rw [Nat.testBit_lt_two_pow (lt_of_lt_of_le a.toNat_lt high),
      Nat.testBit_lt_two_pow (lt_of_lt_of_le b.toNat_lt high)]

theorem ext_bits {a b : Bytes} (width : a.length = b.length)
    (same : ∀ n < 8 * a.length, bitAt a n = bitAt b n) : a = b := by
  refine List.ext_getElem width fun j left right => byte_ext fun i low => ?_
  have bit := same (8 * j + (7 - i)) (by omega)
  rw [bitAt, bitAt, show (8 * j + (7 - i)) / 8 = j by omega,
    show 7 - (8 * j + (7 - i)) % 8 = i by omega] at bit
  rwa [List.getD_eq_getElem _ _ left, List.getD_eq_getElem _ _ right] at bit

theorem test_single_bit (x : UInt8) {i : Nat} (j : Nat) (low : i < 8) :
    (x ||| 1 <<< UInt8.ofNat i).toNat.testBit j = (x.toNat.testBit j || decide (j = i)) := by
  have single : (1 <<< UInt8.ofNat i : UInt8).toNat = 2 ^ i := by
    revert i
    decide
  rw [UInt8.toNat_or, Nat.testBit_or, single, Nat.testBit_two_pow]
  congr 1
  exact decide_eq_decide.mpr eq_comm

theorem bit_set_bit {bs : Bytes} {n : Nat} (inside : n < 8 * bs.length) (m : Nat) :
    bitAt (setBit bs n) m = (bitAt bs m || decide (m = n)) := by
  rw [bitAt, bitAt, setBit, List.getD_eq_getElem?_getD, List.getElem?_set]
  by_cases same : n / 8 = m / 8
  · rw [if_pos same, if_pos (by omega), Option.getD_some, same,
      test_single_bit _ _ (by omega)]
    congr 1
    exact decide_eq_decide.mpr (by omega)
  · rw [if_neg same, ← List.getD_eq_getElem?_getD,
      decide_eq_false (fun here : m = n => same (by rw [here])), Bool.or_false]

theorem bit_zeros (width n : Nat) : bitAt (List.replicate width 0) n = false := by
  rw [bitAt, List.getD_eq_getElem?_getD, List.getElem?_replicate]
  split
  · exact Nat.zero_testBit _
  · exact Nat.zero_testBit _

/-- The bits of a big-endian number. -/
theorem bit_big_endian (width N : Nat) {n : Nat} (inside : n < 8 * width) :
    bitAt (bigEndian width N) n = N.testBit (8 * width - 1 - n) := by
  induction width generalizing N with
  | zero => omega
  | succ width ih =>
    rw [bigEndian, bitAt, List.getD_eq_getElem?_getD]
    by_cases before : n / 8 < width
    · rw [List.getElem?_append_left (by rw [big_endian_length]; exact before),
        ← List.getD_eq_getElem?_getD]
      have upper := ih (N / 2 ^ 8) (by omega)
      rw [Nat.testBit_div_two_pow,
        show 8 * width - 1 - n + 8 = 8 * (width + 1) - 1 - n by omega] at upper
      exact upper
    · rw [List.getElem?_append_right (by rw [big_endian_length]; omega), big_endian_length,
        show n / 8 - width = 0 by omega, List.getElem?_cons_zero, Option.getD_some,
        UInt8.toNat_ofNat', Nat.testBit_mod_two_pow, decide_eq_true (by omega), Bool.true_and]
      congr 1
      omega

/-- The first `k` bits are the whole bytes among them and the high part of the next byte. -/
theorem first_bits_iff {a b : Bytes} {k : Nat} (width : a.length = b.length)
    (within : k ≤ 8 * a.length) :
    (∀ n < k, bitAt a n = bitAt b n) ↔ a.take (k / 8) = b.take (k / 8) ∧
      (a.getD (k / 8) 0).toNat / 2 ^ (8 - k % 8) = (b.getD (k / 8) 0).toNat / 2 ^ (8 - k % 8) := by
  constructor
  · intro same
    constructor
    · refine ext_bits (by simp [width]) fun n inside => ?_
      rw [List.length_take] at inside
      have bit := same n (by omega)
      rwa [bitAt, bitAt, List.getD_eq_getElem?_getD, List.getD_eq_getElem?_getD,
        List.getElem?_take_of_lt (by omega), List.getElem?_take_of_lt (by omega),
        ← List.getD_eq_getElem?_getD, ← List.getD_eq_getElem?_getD]
    · apply Nat.eq_of_testBit_eq
      intro i
      rw [Nat.testBit_div_two_pow, Nat.testBit_div_two_pow]
      by_cases low : i + (8 - k % 8) < 8
      · have bit := same (8 * (k / 8) + (7 - (i + (8 - k % 8)))) (by omega)
        rwa [bitAt, bitAt, show (8 * (k / 8) + (7 - (i + (8 - k % 8)))) / 8 = k / 8 by omega,
          show 7 - (8 * (k / 8) + (7 - (i + (8 - k % 8)))) % 8 = i + (8 - k % 8) by omega] at bit
      · have high : 2 ^ 8 ≤ 2 ^ (i + (8 - k % 8)) := Nat.pow_le_pow_right (by decide) (by omega)
        rw [Nat.testBit_lt_two_pow (lt_of_lt_of_le (UInt8.toNat_lt _) high),
          Nat.testBit_lt_two_pow (lt_of_lt_of_le (UInt8.toNat_lt _) high)]
  · rintro ⟨whole, part⟩ n inside
    by_cases full : n / 8 < k / 8
    · have byte := congrArg (fun l : Bytes => l[n / 8]?) whole
      simp only [List.getElem?_take_of_lt full] at byte
      rw [bitAt, bitAt, List.getD_eq_getElem?_getD, List.getD_eq_getElem?_getD, byte]
    · have bit := congrArg (fun v : Nat => v.testBit (7 - n % 8 - (8 - k % 8))) part
      simp only [Nat.testBit_div_two_pow] at bit
      rw [show 7 - n % 8 - (8 - k % 8) + (8 - k % 8) = 7 - n % 8 by omega,
        show k / 8 = n / 8 by omega] at bit
      exact bit

/-! Masks. -/

theorem masked (x : UInt8) {s : Nat} (some' : 0 < s) (low : s < 8) :
    (x &&& 0xFF <<< UInt8.ofNat s).toNat = x.toNat / 2 ^ s * 2 ^ s ∧
    (x &&& 0xFF <<< UInt8.ofNat s ||| ~~~(0xFF <<< UInt8.ofNat s)).toNat =
      x.toNat / 2 ^ s * 2 ^ s + (2 ^ s - 1) := by
  have table : ∀ n < 256, ∀ s < 8, 0 < s →
      (UInt8.ofNat n &&& 0xFF <<< UInt8.ofNat s).toNat = n / 2 ^ s * 2 ^ s ∧
      (UInt8.ofNat n &&& 0xFF <<< UInt8.ofNat s ||| ~~~(0xFF <<< UInt8.ofNat s)).toNat =
        n / 2 ^ s * 2 ^ s + (2 ^ s - 1) := by
    decide +kernel
  have byte := table x.toNat x.toNat_lt s low some'
  rwa [UInt8.ofNat_toNat] at byte

theorem masked_eq_iff (x y : UInt8) {s : Nat} (some' : 0 < s) (low : s < 8) :
    x &&& 0xFF <<< UInt8.ofNat s = y &&& 0xFF <<< UInt8.ofNat s ↔
      x.toNat / 2 ^ s = y.toNat / 2 ^ s := by
  rw [← UInt8.toNat_inj, (masked x some' low).1, (masked y some' low).1]
  exact Nat.mul_left_inj (by positivity)

/-- The bytes with given high bits are those between the masked byte and the same with the
rest of its bits set. -/
theorem masked_between (x y : UInt8) {s : Nat} (some' : 0 < s) (low : s < 8) :
    (y &&& 0xFF <<< UInt8.ofNat s ≤ x ∧
      x ≤ y &&& 0xFF <<< UInt8.ofNat s ||| ~~~(0xFF <<< UInt8.ofNat s)) ↔
      x.toNat / 2 ^ s = y.toNat / 2 ^ s := by
  rw [UInt8.le_iff_toNat_le, UInt8.le_iff_toNat_le, (masked y some' low).1,
    (masked y some' low).2]
  have positive : 0 < 2 ^ s := by positivity
  rw [Nat.div_eq_iff positive]
  omega

/-! Intervals of the lexicographic order. -/

theorem cons_le_iff {α : Type} [LinearOrder α] {x y : α} {l m : List α} :
    x :: l ≤ y :: m ↔ x < y ∨ x = y ∧ l ≤ m := by
  rw [le_iff_lt_or_eq, List.cons_lt_cons_iff, le_iff_lt_or_eq, List.cons.injEq]
  tauto

/-- Between two lists with one beginning are the lists with that beginning, the rest between
the rests. -/
theorem between_append {α : Type} [LinearOrder α] {p a b u : List α} :
    (p ++ a ≤ u ∧ u ≤ p ++ b) ↔
      u.take p.length = p ∧ a ≤ u.drop p.length ∧ u.drop p.length ≤ b := by
  induction p generalizing u with
  | nil => simp
  | cons x p ih =>
    cases u with
    | nil => simp
    | cons y u =>
      rw [List.cons_append, List.cons_append, cons_le_iff, cons_le_iff, List.length_cons,
        List.take_succ_cons, List.drop_succ_cons, List.cons.injEq, and_assoc, ← ih]
      constructor
      · rintro ⟨less | ⟨rfl, low⟩, less' | ⟨same, high⟩⟩
        · exact absurd less' (not_lt_of_gt less)
        · exact absurd less (by rw [same]; exact lt_irrefl x)
        · exact absurd less' (lt_irrefl x)
        · exact ⟨rfl, low, high⟩
      · rintro ⟨rfl, low, high⟩
        exact ⟨Or.inr ⟨rfl, low⟩, Or.inr ⟨rfl, high⟩⟩

theorem zeros_le (bs : Bytes) : List.replicate bs.length 0 ≤ bs := by
  induction bs with
  | nil => exact le_refl _
  | cons b bs ih =>
    rw [List.length_cons, List.replicate_succ, cons_le_iff]
    have least : (0 : UInt8) ≤ b := UInt8.le_iff_toNat_le.mpr (Nat.zero_le _)
    rcases lt_or_eq_of_le least with less | same
    · exact Or.inl less
    · exact Or.inr ⟨same, ih⟩

theorem le_ones (bs : Bytes) : bs ≤ List.replicate bs.length 0xFF := by
  induction bs with
  | nil => exact le_refl _
  | cons b bs ih =>
    rw [List.length_cons, List.replicate_succ, cons_le_iff]
    have most : b ≤ 0xFF := UInt8.le_iff_toNat_le.mpr (Nat.le_of_lt_succ b.toNat_lt)
    rcases lt_or_eq_of_le most with less | same
    · exact Or.inl less
    · exact Or.inr ⟨same, ih⟩

/-- With any byte after it that is not past its ends, the rests may be the least and the
greatest. -/
theorem between_cons {x m M : UInt8} {ds : Bytes} :
    (m :: List.replicate ds.length 0 ≤ x :: ds ∧ x :: ds ≤ M :: List.replicate ds.length 0xFF) ↔
      m ≤ x ∧ x ≤ M := by
  rw [cons_le_iff, cons_le_iff, and_iff_left (zeros_le ds), and_iff_left (le_ones ds),
    ← le_iff_lt_or_eq, ← le_iff_lt_or_eq]

end ByteString
