import Smysl.Core.Edtf.Syntax

/-!
The fields of a date: splitting and joining, numbers, components and years. Each
field is read exactly from its one spelling; a year zero is read with either sign.
-/
namespace Smysl
open ByteString

namespace Edtf
open Smysl.Date

/-! Splitting and joining. -/

/-- The parts with the byte between them. -/
def joinWith (c : UInt8) : List Bytes → Bytes
  | [] => []
  | [part] => part
  | part :: parts => part ++ c :: joinWith c parts

theorem split_all_ne_nil (c : UInt8) (bs : Bytes) : splitAll c bs ≠ [] := by
  induction bs with
  | nil => simp [splitAll]
  | cons b bs ih =>
    rw [splitAll]
    split
    · simp
    · split <;> simp

theorem split_all_apart {c : UInt8} {part : Bytes} (apart : c ∉ part) (bs : Bytes) :
    splitAll c (part ++ c :: bs) = part :: splitAll c bs ∧ splitAll c part = [part] := by
  induction part with
  | nil =>
    refine ⟨?_, rfl⟩
    rw [List.nil_append, splitAll]
    cases rest : splitAll c bs with
    | nil => exact absurd rest (split_all_ne_nil c bs)
    | cons p ps => simp
  | cons b part ih =>
    obtain ⟨other, apart⟩ := not_or.mp (fun h => apart (List.mem_cons.mpr h))
    obtain ⟨whole, single⟩ := ih apart
    constructor
    · rw [List.cons_append, splitAll, whole]
      dsimp only
      rw [if_neg (Ne.symm other)]
    · rw [splitAll, single]
      dsimp only
      rw [if_neg (Ne.symm other)]

/-- Splitting undoes joining, and the parts lack the byte. -/
theorem split_all_iff {c : UInt8} {bs : Bytes} {parts : List Bytes} :
    splitAll c bs = parts ↔ parts ≠ [] ∧ (∀ part ∈ parts, c ∉ part) ∧ bs = joinWith c parts := by
  constructor
  · rintro rfl
    refine ⟨split_all_ne_nil c bs, ?_⟩
    induction bs with
    | nil => simp [splitAll, joinWith]
    | cons b bs ih =>
      rw [splitAll]
      cases rest : splitAll c bs with
      | nil => exact absurd rest (split_all_ne_nil c bs)
      | cons p ps =>
        rw [rest] at ih
        obtain ⟨apart, joined⟩ := ih
        dsimp only
        split
        · rename_i same
          refine ⟨fun part mem => ?_, ?_⟩
          · rcases List.mem_cons.mp mem with rfl | mem
            · exact List.not_mem_nil
            · exact apart part mem
          · rw [joinWith, ← joined, same, List.nil_append]
            exact List.cons_ne_nil _ _
        · rename_i other
          refine ⟨fun part mem => ?_, ?_⟩
          · rcases List.mem_cons.mp mem with rfl | mem
            · intro held
              rcases List.mem_cons.mp held with rfl | held
              · exact other rfl
              · exact apart p List.mem_cons_self held
            · exact apart part (List.mem_cons_of_mem _ mem)
          · rw [joined]
            cases ps <;> rfl
  · rintro ⟨some, apart, rfl⟩
    induction parts with
    | nil => exact absurd rfl some
    | cons p ps ih =>
      have first := apart p List.mem_cons_self
      cases ps with
      | nil => exact (split_all_apart first []).2
      | cons q qs =>
        rw [joinWith, (split_all_apart first _).1,
          ih (by simp) fun part mem => apart part (List.mem_cons_of_mem _ mem)]
        exact List.cons_ne_nil _ _

theorem split_once_iff {c : UInt8} {bs a b : Bytes} :
    splitOnce c bs = some (a, b) ↔ bs = a ++ c :: b ∧ c ∉ a := by
  induction bs generalizing a with
  | nil => simp [splitOnce]
  | cons d bs ih =>
    rw [splitOnce]
    split
    · rename_i same
      subst same
      constructor
      · intro found
        cases found
        exact ⟨rfl, List.not_mem_nil⟩
      · rintro ⟨whole, apart⟩
        cases a with
        | nil =>
          cases whole
          rfl
        | cons x a =>
          cases whole
          exact absurd List.mem_cons_self apart
    · rename_i other
      rw [Option.map_eq_some_iff]
      constructor
      · rintro ⟨⟨a', b'⟩, found, made⟩
        cases made
        obtain ⟨whole, apart⟩ := ih.mp found
        refine ⟨by rw [whole]; rfl, fun held => ?_⟩
        rcases List.mem_cons.mp held with rfl | held
        · exact other rfl
        · exact apart held
      · rintro ⟨whole, apart⟩
        cases a with
        | nil =>
          cases whole
          exact absurd rfl other
        | cons x a =>
          cases whole
          exact ⟨(a, b), ih.mpr ⟨rfl, fun held => apart (List.mem_cons_of_mem _ held)⟩, rfl⟩

/-! Digits. -/

theorem digits_shift (width zeros n : Nat) :
    digits (width + zeros) (n * 10 ^ zeros) = digits width n ++ List.replicate zeros 0x30 := by
  induction zeros with
  | zero => simp
  | succ zeros ih =>
    have tens : n * 10 ^ (zeros + 1) / 10 = n * 10 ^ zeros := by
      rw [pow_succ, ← mul_assoc, Nat.mul_div_cancel _ (by norm_num)]
    have ones : n * 10 ^ (zeros + 1) % 10 = 0 := by
      rw [pow_succ, ← mul_assoc, Nat.mul_mod_left]
    rw [← Nat.add_assoc, digits, tens, ones, ih, List.replicate_succ', List.append_assoc]
    rfl

/-- The first of the digits. -/
theorem digits_first (width n : Nat) :
    digits (width + 1) n = UInt8.ofNat (0x30 + n / 10 ^ width % 10) :: digits width n := by
  induction width generalizing n with
  | zero => simp [digits]
  | succ width ih =>
    rw [digits, ih (n / 10), Nat.div_div_eq_div_mul, ← Nat.pow_succ', digits, List.cons_append]

theorem digit_not {b c : UInt8} (digit : isAsciiDigit b = true) (other : isAsciiDigit c = false) :
    b ≠ c := by
  rintro rfl
  rw [digit] at other
  cases other

theorem digits_lack {width n : Nat} {c : UInt8} (other : isAsciiDigit c = false) :
    c ∉ digits width n := by
  intro mem
  rw [digits_are_digits mem] at other
  cases other

/-- A digit string of a number, at its width. -/
theorem padded_of_value {bs : Bytes} {n : Nat} (value : digitsValue bs = some n)
    (some' : 0 < bs.length) : padded bs.length n = bs := by
  obtain ⟨bound, same⟩ := digits_of_value value
  rw [padded_eq_digits some' bound, same]

theorem padded_two {n : Nat} (bound : n < 100) : padded 2 n = digits 2 n :=
  padded_eq_digits (by norm_num) bound

theorem value_of_all_digits {bs : Bytes} (all : bs.all isAsciiDigit = true) :
    ∃ n, digitsValue bs = some n := by
  induction bs using List.reverseRecOn with
  | nil => exact ⟨0, rfl⟩
  | append_singleton bs b ih =>
    rw [List.all_append, Bool.and_eq_true] at all
    obtain ⟨n, value⟩ := ih all.1
    have last : isAsciiDigit b = true := by simpa using all.2
    exact ⟨_, by rw [digits_value_append, value, Option.bind_some, if_pos last]⟩

theorem digits_all {width n : Nat} : (digits width n).all isAsciiDigit = true :=
  List.all_eq_true.mpr fun _ mem => digits_are_digits mem

/-! Components. -/

def Part.Fits (p : Part) (which : Component) : Prop :=
  match p with
  | .num n => which.takes n = true
  | .unspecified => True

theorem takes_bound {which : Component} {n : Nat} (takes : which.takes n = true) : n < 100 := by
  cases which <;> simp [Component.takes] at takes <;> omega

theorem two_ok_iff {whole txt : Bytes} {which : Component} {p : Part} :
    two whole txt which = .ok p ↔ txt = p.text ∧ p.Fits which := by
  constructor
  · intro run
    rw [two] at run
    split at run
    · rename_i masked
      cases run
      exact ⟨masked, trivial⟩
    · split at run
      · cases run
      · rename_i shaped
        simp only [ne_eq, not_or, not_not] at shaped
        split at run
        · cases run
        · rename_i n value
          split at run
          · rename_i takes
            cases run
            refine ⟨?_, takes⟩
            have width := padded_of_value value (by omega)
            rw [shaped.1] at width
            exact width.symm
          · cases run
  · rintro ⟨rfl, fits⟩
    cases p with
    | unspecified => rfl
    | num n =>
      have bound := takes_bound fits
      have value := @value_of_digits 2 n bound
      have first : digits 2 n ≠ [0x58, 0x58] := by
        intro same
        have mem : (0x58 : UInt8) ∈ digits 2 n := by simp [same]
        exact digits_lack (by decide) mem
      rw [Part.text, padded_two bound, two, if_neg first, if_neg (by
        simp only [digits_length, digits_all]; simp), value]
      exact if_pos fits

/-! Years. -/

/-- The digits of a plain year are those of its leading part, and the mask. -/
theorem digits_text_eq {y : Year} (plain : y.long = false) :
    ∃ n, y.value.natAbs = n * 10 ^ y.unspecified ∧ n < 10 ^ (4 - y.unspecified) ∧
      y.unspecified ≤ 4 ∧ y.digitsText = digits (4 - y.unspecified) n ++
        List.replicate y.unspecified 0x58 := by
  rcases y.valid with ⟨_, mask, low, high, zeros⟩ | ⟨long, _⟩
  · have bound : y.value.natAbs < 10 ^ 4 := by norm_num; omega
    have whole : y.value.natAbs % 10 ^ y.unspecified = 0 := by
      have divides : ((10 ^ y.unspecified : Nat) : Int) ∣ y.value := by
        push_cast
        exact Int.dvd_of_emod_eq_zero zeros
      exact Nat.mod_eq_zero_of_dvd (Int.natCast_dvd.mp divides)
    have split : y.value.natAbs = y.value.natAbs / 10 ^ y.unspecified * 10 ^ y.unspecified :=
      (Nat.div_mul_cancel (Nat.dvd_of_mod_eq_zero whole)).symm
    refine ⟨_, split, ?_, mask, ?_⟩
    · rw [Nat.div_lt_iff_lt_mul (by positivity), ← pow_add, Nat.sub_add_cancel mask]
      exact bound
    · have four : 4 - y.unspecified + y.unspecified = 4 := Nat.sub_add_cancel mask
      have shifted := digits_shift (4 - y.unspecified) y.unspecified
        (y.value.natAbs / 10 ^ y.unspecified)
      rw [four, ← split] at shifted
      rw [Year.digitsText, padded_eq_digits (by norm_num) bound, digits_length, shifted,
        List.take_left' (digits_length _ _)]
  · rw [plain] at long
    cases long

theorem mask_of_text (width n mask : Nat) :
    maskOf (digits width n ++ List.replicate mask 0x58) = mask := by
  have none : (digits width n).countP (fun b => b == 0x58) = 0 := by
    rw [List.countP_eq_zero]
    intro b mem same
    rw [beq_iff_eq] at same
    exact digits_lack (by decide) (same ▸ mem)
  rw [maskOf, List.countP_append, none, List.countP_replicate]
  simp

theorem all_masked {bs : Bytes} (all : bs.all (fun b => b == 0x58) = true) :
    bs = List.replicate bs.length 0x58 :=
  List.eq_replicate_iff.mpr ⟨rfl, fun b mem => by simpa using List.all_eq_true.mp all b mem⟩

theorem Year.new_some {value : Int} {y : Year} (made : Year.new value = some y) :
    y.long = false ∧ y.unspecified = 0 ∧ y.value = value := by
  unfold Year.new at made
  split at made
  · cases made
    exact ⟨rfl, rfl, rfl⟩
  · cases made

theorem Year.masked_some {value : Int} {mask : Nat} {y : Year}
    (made : Year.masked value mask = some y) :
    y.long = false ∧ y.unspecified = mask ∧ y.value = value := by
  unfold Year.masked at made
  split at made
  · cases made
    exact ⟨rfl, rfl, rfl⟩
  · cases made

theorem Year.of_long_some {value : Int} {y : Year} (made : Year.ofLong value = some y) :
    y.long = true ∧ y.value = value := by
  unfold Year.ofLong at made
  split at made
  · cases made
    exact ⟨rfl, rfl⟩
  · cases made

/-- The sign a plain year is read with. -/
def Year.Signed (y : Year) (neg : Bool) : Prop := if neg then y.value ≤ 0 else 0 ≤ y.value

theorem plain_year_ok_iff {whole fs : Bytes} {neg : Bool} {y : Year} :
    plainYear whole neg fs = .ok y ↔
      y.long = false ∧ fs = y.digitsText ∧ y.Signed neg := by
  constructor
  · intro run
    rw [plainYear] at run
    split at run
    · cases run
    · rename_i four
      rw [not_not] at four
      dsimp only at run
      cases parted : splitAt fs (fs.length - maskOf fs) with
      | error e =>
        rw [parted] at run
        cases run
      | ok halves =>
        rw [parted] at run
        unfold splitAt at parted
        split at parted
        swap
        · cases parted
        cases parted
        dsimp only [bind, Except.bind] at run
        split at run
        · cases run
        · rename_i masked
          split at run
          · cases run
          · rename_i known
            split at run
            · cases run
            · rename_i n value
              simp only [Bool.not_eq_true', Bool.not_eq_false] at masked known
              split at run
              · rename_i made
                cases run
                have short : maskOf fs ≤ 4 := by
                  rw [← four]
                  exact List.countP_le_length
                obtain ⟨bound, same⟩ := digits_of_value value
                rw [List.length_take, four, min_eq_left (by omega)] at bound same
                have tail := all_masked masked
                rw [List.length_drop, four] at tail
                have width : 4 - (4 - maskOf fs) = maskOf fs := by omega
                rw [width] at tail
                have whole' := (List.take_append_drop (4 - maskOf fs) fs).symm
                rw [← same, tail] at whole'
                -- the year that was made, whichever constructor made it
                have fields : y.long = false ∧ y.unspecified = maskOf fs ∧
                    y.value = (if neg then -((n : Int) * 10 ^ maskOf fs)
                      else (n : Int) * 10 ^ maskOf fs) := by
                  by_cases zero : maskOf fs = 0
                  · rw [if_pos zero] at made
                    obtain ⟨plain, mask, valued⟩ := Year.new_some made
                    exact ⟨plain, mask.trans zero.symm, valued⟩
                  · rw [if_neg zero] at made
                    exact Year.masked_some made
                obtain ⟨plain, mask, valued⟩ := fields
                obtain ⟨m, abs, _, _, text⟩ := digits_text_eq plain
                have positive : (0 : Int) ≤ (n : Int) * 10 ^ maskOf fs := by positivity
                have abs' : y.value.natAbs = n * 10 ^ maskOf fs := by
                  rw [valued]
                  split <;> simp [Int.natAbs_mul, Int.natAbs_pow]
                have same' : m = n := by
                  rw [abs', mask] at abs
                  exact (Nat.eq_of_mul_eq_mul_right (by positivity) abs).symm
                refine ⟨plain, ?_, ?_⟩
                · rw [text, same', mask]
                  exact whole'
                · rw [Year.Signed, valued]
                  cases neg <;> simp
              · cases run
  · rintro ⟨plain, rfl, signed⟩
    obtain ⟨n, abs, bound, mask, text⟩ := digits_text_eq plain
    have len : y.digitsText.length = 4 := by
      rw [text, List.length_append, digits_length, List.length_replicate]
      omega
    have masked : maskOf y.digitsText = y.unspecified := by rw [text, mask_of_text]
    have take : y.digitsText.take (4 - y.unspecified) = digits (4 - y.unspecified) n := by
      rw [text, List.take_left' (digits_length _ _)]
    have drop : y.digitsText.drop (4 - y.unspecified) = List.replicate y.unspecified 0x58 := by
      rw [text, List.drop_left' (digits_length _ _)]
    have boundary : isCharBoundary y.digitsText (4 - y.unspecified) = true := by
      rw [isCharBoundary, len]
      by_cases zero : y.unspecified = 0
      · simp [zero]
      · have first : y.digitsText[4 - y.unspecified]? = some 0x58 := by
          rw [text, List.getElem?_append_right (by rw [digits_length]), digits_length, Nat.sub_self,
            List.getElem?_replicate, if_pos (Nat.pos_of_ne_zero zero)]
        rw [first]
        simp
    have parted : splitAt y.digitsText (4 - y.unspecified) =
        .ok (digits (4 - y.unspecified) n, List.replicate y.unspecified 0x58) := by
      unfold splitAt
      rw [if_pos boundary, take, drop]
    have value : (if neg then -((n : Int) * 10 ^ y.unspecified) else (n : Int) * 10 ^ y.unspecified) =
        y.value := by
      have cast : (y.value.natAbs : Int) = (n : Int) * 10 ^ y.unspecified := by
        rw [abs]
        push_cast
        rfl
      rw [← cast]
      cases neg with
      | true =>
        have low : y.value ≤ 0 := signed
        show -(y.value.natAbs : Int) = y.value
        omega
      | false =>
        have high : 0 ≤ y.value := signed
        show (y.value.natAbs : Int) = y.value
        omega
    have made : (if y.unspecified = 0 then Year.new y.value else Year.masked y.value y.unspecified) =
        some y := by
      rcases y.valid with ⟨_, _, low, high, zeros⟩ | ⟨long, _⟩
      · obtain ⟨v, u, l, valid⟩ := y
        dsimp only at *
        subst plain
        split
        · rename_i zero
          subst zero
          rw [Year.new, dif_pos ⟨low, high⟩]
        · rename_i some'
          rw [Year.masked, dif_pos ⟨⟨by omega, mask⟩, ⟨low, high⟩, zeros⟩]
      · rw [plain] at long
        cases long
    rw [plainYear, if_neg (by rw [len]; simp), len, masked]
    dsimp only
    rw [parted]
    dsimp only [bind, Except.bind]
    rw [if_neg (by simp), if_neg (by rw [digits_all]; simp), value_of_digits bound]
    dsimp only
    rw [value, made]

/-- A number of some digits without a leading zero is written with them. -/
theorem padded_one_of_value {ds : Bytes} {n : Nat} (value : digitsValue ds = some n)
    (lead : ds.head? ≠ some 0x30) (some' : ds ≠ []) : padded 1 n = ds := by
  obtain ⟨bound, same⟩ := digits_of_value value
  obtain ⟨width, len⟩ := Nat.exists_eq_succ_of_ne_zero (List.length_pos_of_ne_nil some').ne'
  rw [Nat.succ_eq_add_one] at len
  rw [len] at bound same
  have low : 10 ^ width ≤ n := by
    by_contra small
    have zero : n / 10 ^ width = 0 := Nat.div_eq_of_lt (by omega)
    have first := digits_first width n
    rw [same, zero] at first
    exact lead (by rw [first]; rfl)
  have log : Nat.log 10 n = width := (Nat.log_eq_iff (Or.inr ⟨by norm_num, by
    have : 0 < 10 ^ width := by positivity
    omega⟩)).mpr ⟨low, bound⟩
  rw [padded, log, max_eq_right (by omega), same]

theorem padded_one_digits {n : Nat} (large : 10000 ≤ n) :
    5 ≤ (padded 1 n).length ∧ (padded 1 n).all isAsciiDigit = true ∧
      (padded 1 n).head? ≠ some 0x30 ∧ digitsValue (padded 1 n) = some n := by
  have width : padded 1 n = digits (Nat.log 10 n + 1) n := by
    rw [padded, max_eq_right (by omega)]
  have log : 4 ≤ Nat.log 10 n := by
    refine Nat.le_log_of_pow_le (by norm_num) ?_
    norm_num
    exact large
  rw [width]
  refine ⟨by rw [digits_length]; omega, digits_all, ?_, value_of_digits ?_⟩
  · rw [digits_first, List.head?_cons]
    intro same
    have low := Nat.pow_log_le_self 10 (show n ≠ 0 by omega)
    have high := Nat.lt_pow_succ_log_self (show 1 < 10 by norm_num) n
    rw [pow_succ] at high
    have positive : 0 < 10 ^ Nat.log 10 n := by positivity
    have first : 1 ≤ n / 10 ^ Nat.log 10 n := (Nat.one_le_div_iff positive).mpr low
    have last : n / 10 ^ Nat.log 10 n < 10 := Nat.div_lt_of_lt_mul (by omega)
    have byte := congrArg UInt8.toNat (Option.some.inj same)
    rw [UInt8.toNat_ofNat'] at byte
    simp at byte
    omega
  · exact Nat.lt_pow_succ_log_self (by norm_num) n

/-- The byte of a minus sign, or none. -/
def minus (neg : Bool) : Bytes := if neg then [0x2D] else []

theorem sign_of_iff {txt digits : Bytes} {neg : Bool} :
    signOf txt = (neg, digits) ↔
      txt = minus neg ++ digits ∧ (neg = false → digits.head? ≠ some 0x2D) := by
  unfold signOf
  constructor
  · intro same
    by_cases signed : txt.head? = some 0x2D
    · rw [if_pos signed] at same
      cases same
      cases txt with
      | nil => cases signed
      | cons b rest =>
        cases signed
        exact ⟨rfl, by intro h; cases h⟩
    · rw [if_neg signed] at same
      cases same
      exact ⟨rfl, fun _ => signed⟩
  · intro ⟨text, unsigned⟩
    cases neg with
    | true =>
      subst text
      rfl
    | false =>
      change txt = digits at text
      rw [text, if_neg (unsigned rfl)]

theorem long_digits_ok_iff {whole digits : Bytes} {neg : Bool} {y : Year} :
    longDigits whole neg digits = .ok y ↔
      y.long = true ∧ neg = decide (y.value < 0) ∧ digits = padded 1 y.value.natAbs := by
  unfold longDigits
  constructor
  · intro run
    split at run
    · cases run
    · rename_i shaped
      rw [not_or] at shaped
      split at run
      · cases run
      · rename_i lead
        split at run
        · cases run
        · rename_i n value
          dsimp only at run
          generalize signed : (if neg = true then -(n : Int) else (n : Int)) = year at run
          split at run
          · cases run
          · split at run
            · rename_i made
              cases run
              obtain ⟨long, valued⟩ := Year.of_long_some made
              rw [← signed] at valued
              have same := padded_one_of_value value lead (by
                intro none
                rw [none] at shaped
                simp at shaped)
              have large : y.value < -9999 ∨ 9999 < y.value := by
                rcases y.valid with ⟨plain, _⟩ | ⟨_, _, _, _, beyond⟩
                · rw [long] at plain
                  cases plain
                · exact beyond
              have abs : y.value.natAbs = n := by
                rw [valued]
                split <;> omega
              refine ⟨long, ?_, by rw [abs, same]⟩
              cases neg with
              | true =>
                rw [if_pos rfl] at valued
                exact (decide_eq_true (by omega)).symm
              | false =>
                rw [if_neg (by simp)] at valued
                exact (decide_eq_false (by omega)).symm
            · cases run
  · intro ⟨long, signed, text⟩
    rcases y.valid with ⟨plain, _⟩ | ⟨_, mask, low, high, beyond⟩
    · rw [long] at plain
      cases plain
    · obtain ⟨five, all, lead, value⟩ := @padded_one_digits y.value.natAbs (by omega)
      have made : Year.ofLong y.value = some y := by
        obtain ⟨v, u, l, valid⟩ := y
        dsimp only at *
        subst long
        subst mask
        rw [Year.ofLong, dif_pos ⟨⟨low, high⟩, beyond⟩]
      have fits : fitsI32 y.value = true := by
        rw [fitsI32, decide_eq_true low, decide_eq_true high]
        rfl
      have valued : (if neg then -((y.value.natAbs : Nat) : Int)
          else ((y.value.natAbs : Nat) : Int)) = y.value := by
        rw [signed]
        by_cases low : y.value < 0
        · rw [decide_eq_true low, if_pos rfl]
          omega
        · rw [decide_eq_false low, if_neg (by simp)]
          omega
      rw [text, if_neg (by rw [all]; simp; omega), if_neg lead, value]
      dsimp only
      rw [valued, fits, made]
      rfl

theorem long_year_ok_iff {whole body : Bytes} {y : Year} :
    longYear whole (0x59 :: body) = .ok y ↔ y.long = true ∧ 0x59 :: body = y.text := by
  have drop : (0x59 :: body).drop 1 = body := by rw [List.drop_one, List.tail_cons]
  unfold longYear
  rw [drop]
  rcases parts : signOf body with ⟨neg, digits⟩
  dsimp only
  rw [long_digits_ok_iff]
  obtain ⟨text, unsigned⟩ := sign_of_iff.mp parts
  constructor
  · intro ⟨long, signed, same⟩
    refine ⟨long, ?_⟩
    rw [Year.text, if_pos long, numberText, text, ← same, minus, signed]
    simp only [decide_eq_true_eq]
  · intro ⟨long, same⟩
    rw [Year.text, if_pos long] at same
    have rest := (List.cons.inj same).2
    have large : y.value < -9999 ∨ 9999 < y.value := by
      rcases y.valid with ⟨plain, _⟩ | ⟨_, _, _, _, beyond⟩
      · rw [long] at plain
        cases plain
      · exact beyond
    obtain ⟨five, all, _, _⟩ := @padded_one_digits y.value.natAbs (by omega)
    have lead : (padded 1 y.value.natAbs).head? ≠ some 0x2D := by
      intro first
      obtain ⟨b, bs, split⟩ := List.exists_cons_of_length_pos
        (show 0 < (padded 1 y.value.natAbs).length by omega)
      rw [split] at first all
      cases first
      simp [isAsciiDigit] at all
    have again : signOf body = (decide (y.value < 0), padded 1 y.value.natAbs) := by
      apply sign_of_iff.mpr
      refine ⟨?_, fun _ => lead⟩
      rw [rest, numberText, minus]
      simp only [decide_eq_true_eq]
    rw [parts] at again
    exact ⟨long, congrArg Prod.fst again, congrArg Prod.snd again⟩

end Edtf
end Smysl
