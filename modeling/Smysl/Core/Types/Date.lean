import Smysl.Core.Text

/-!
Calendar dates and their text. The text is written zero-padded; it is read
with the integer parser of the standard library, which also takes a plus sign.
-/
namespace Smysl
open ByteString

def isLeap (y : Nat) : Bool := (y % 4 == 0 && y % 100 != 0) || y % 400 == 0

def daysInMonth (year month : Nat) : Nat :=
  match month with
  | 1 | 3 | 5 | 7 | 8 | 10 | 12 => 31
  | 4 | 6 | 9 | 11 => 30
  | 2 => if isLeap year then 29 else 28
  | _ => 0

/-- A calendar date: `Date::is_valid` holds of every value. -/
structure Date where
  year : UInt16
  month : UInt8
  day : UInt8
  year_positive : year.toNat ≠ 0
  month_valid : 1 ≤ month.toNat ∧ month.toNat ≤ 12
  day_valid : 1 ≤ day.toNat ∧ day.toNat ≤ daysInMonth year.toNat month.toNat
  deriving DecidableEq

namespace Date

def new (year : UInt16) (month day : UInt8) : Option Date :=
  if valid : year.toNat ≠ 0 ∧ (1 ≤ month.toNat ∧ month.toNat ≤ 12) ∧
      1 ≤ day.toNat ∧ day.toNat ≤ daysInMonth year.toNat month.toNat then
    some ⟨year, month, day, valid.1, valid.2.1, valid.2.2⟩
  else none

/-- A decimal digit string, most significant first. -/
def digitsValue (bs : Bytes) : Option Nat :=
  bs.foldl (fun acc b => do
    let n ← acc
    if isAsciiDigit b then some (n * 10 + (b.toNat - 0x30)) else none) (some 0)

/-- `str::parse::<u16>`, which takes a leading plus sign. -/
def parseU16 (bs : Bytes) : Option UInt16 := do
  let digits := if bs.head? = some 0x2B then bs.drop 1 else bs
  if digits.isEmpty then none
  else
    let n ← digitsValue digits
    if n < 2 ^ 16 then some (UInt16.ofNat n) else none

def parse (s : String) : Option Date := do
  let b := utf8 s
  if b.length ≠ 10 ∨ b[4]? ≠ some 0x2D ∨ b[7]? ≠ some 0x2D then none
  else
    let year ← parseU16 (b.take 4)
    let month ← parseU16 ((b.drop 5).take 2)
    let day ← parseU16 ((b.drop 8).take 2)
    new year month.toUInt8 day.toUInt8

/-- The `width` low decimal digits of `n`. -/
def digits : Nat → Nat → Bytes
  | 0, _ => []
  | width + 1, n => digits width (n / 10) ++ [UInt8.ofNat (0x30 + n % 10)]

/-- `{:0width}`: at least `width` digits. -/
def padded (width n : Nat) : Bytes := digits (max width (Nat.log 10 n + 1)) n

def toText (d : Date) : String :=
  asciiText (padded 4 d.year.toNat ++ [0x2D] ++ padded 2 d.month.toNat ++ [0x2D] ++
    padded 2 d.day.toNat)

theorem digits_length (width n : Nat) : (digits width n).length = width := by
  induction width generalizing n with
  | zero => rfl
  | succ width ih => rw [digits, List.length_append, ih, List.length_singleton]

theorem digits_are_digits {width n : Nat} {b : UInt8} (mem : b ∈ digits width n) :
    isAsciiDigit b = true := by
  induction width generalizing n with
  | zero => cases mem
  | succ width ih =>
    rcases List.mem_append.mp mem with early | last
    · exact ih early
    · rw [List.mem_singleton.mp last]
      simp only [isAsciiDigit, Bool.and_eq_true, decide_eq_true_eq, UInt8.le_iff_toNat_le,
        UInt8.toNat_ofNat']
      have below : n % 10 < 10 := Nat.mod_lt _ (by norm_num)
      constructor <;> simp <;> omega

theorem digits_value_append (bs : Bytes) (b : UInt8) : digitsValue (bs ++ [b]) =
    (digitsValue bs).bind fun n =>
      if isAsciiDigit b then some (n * 10 + (b.toNat - 0x30)) else none := by
  rw [digitsValue, List.foldl_append]
  rfl

/-- A digit string is the digits of its value. -/
theorem digits_of_value {bs : Bytes} {n : Nat} (value : digitsValue bs = some n) :
    n < 10 ^ bs.length ∧ digits bs.length n = bs := by
  induction bs using List.reverseRecOn generalizing n with
  | nil =>
    cases value
    exact ⟨by norm_num, rfl⟩
  | append_singleton bs b ih =>
    rw [digits_value_append, Option.bind_eq_some_iff] at value
    obtain ⟨m, early, last⟩ := value
    obtain ⟨bound, same⟩ := ih early
    split at last
    · rename_i digit
      cases last
      simp only [isAsciiDigit, Bool.and_eq_true, decide_eq_true_eq, UInt8.le_iff_toNat_le]
        at digit
      obtain ⟨low, high⟩ : 48 ≤ b.toNat ∧ b.toNat ≤ 57 := digit
      rw [List.length_append, List.length_singleton, pow_succ, digits]
      refine ⟨by omega, ?_⟩
      have tens : (m * 10 + (b.toNat - 0x30)) / 10 = m := by omega
      have ones : 0x30 + (m * 10 + (b.toNat - 0x30)) % 10 = b.toNat := by omega
      rw [tens, ones, same, UInt8.ofNat_toNat]
    · cases last

theorem value_of_digits {width n : Nat} (bound : n < 10 ^ width) :
    digitsValue (digits width n) = some n := by
  induction width generalizing n with
  | zero =>
    have zero : n = 0 := by simpa using bound
    rw [zero]
    rfl
  | succ width ih =>
    have lastMem : UInt8.ofNat (0x30 + n % 10) ∈ digits 1 n := by simp [digits]
    have last : isAsciiDigit (UInt8.ofNat (0x30 + n % 10)) = true := digits_are_digits lastMem
    have back : (UInt8.ofNat (0x30 + n % 10)).toNat = 0x30 + n % 10 := by
      rw [UInt8.toNat_ofNat']
      omega
    rw [digits, digits_value_append, ih (by rw [pow_succ] at bound; omega), Option.bind_some,
      if_pos last, back]
    congr 1
    omega

theorem padded_eq_digits {width n : Nat} (positive : 0 < width) (bound : n < 10 ^ width) :
    padded width n = digits width n := by
  have fits : Nat.log 10 n < width := by
    by_cases zero : n = 0
    · rw [zero, Nat.log_zero_right]
      exact positive
    · exact (Nat.log_lt_iff_lt_pow (by norm_num) zero).mpr bound
  rw [padded, max_eq_left fits]

theorem digit_not_plus {b : UInt8} (digit : isAsciiDigit b = true) : b ≠ 0x2B := by
  rintro rfl
  cases digit

/-- A number is written as it was read unless it was read with a plus sign. -/
theorem parse_u16_exact {bs : Bytes} {v : UInt16} (parsed : parseU16 bs = some v) :
    v.toNat < 10 ^ bs.length ∧ (padded bs.length v.toNat = bs ↔ 0x2B ∉ bs) := by
  cases bs with
  | nil => cases parsed
  | cons b bs =>
    by_cases plus : b = 0x2B
    · subst plus
      simp only [parseU16, List.head?_cons, if_true, List.drop_one, List.tail_cons] at parsed
      split at parsed
      · cases parsed
      · obtain ⟨n, value, fits⟩ := Option.bind_eq_some_iff.mp parsed
        split at fits
        · rename_i small
          cases fits
          have bound := (digits_of_value value).1
          have back : (UInt16.ofNat n).toNat = n := by
            rw [UInt16.toNat_ofNat']
            exact Nat.mod_eq_of_lt small
          have wide : n < 10 ^ (bs.length + 1) :=
            lt_of_lt_of_le bound (Nat.pow_le_pow_right (by norm_num) (by omega))
          rw [back, List.length_cons, padded_eq_digits (by omega) wide]
          refine ⟨wide, ?_⟩
          simp only [List.mem_cons, true_or, not_true, iff_false]
          intro same
          have first : (0x2B : UInt8) ∈ digits (bs.length + 1) n := same ▸ List.mem_cons_self
          exact digit_not_plus (digits_are_digits first) rfl
        · cases fits
    · simp only [parseU16, List.head?_cons, Option.some.injEq, plus, if_false,
        List.isEmpty_cons] at parsed
      obtain ⟨n, value, fits⟩ := Option.bind_eq_some_iff.mp parsed
      split at fits
      · rename_i small
        cases fits
        obtain ⟨bound, same⟩ := digits_of_value value
        have back : (UInt16.ofNat n).toNat = n := by
          rw [UInt16.toNat_ofNat']
          exact Nat.mod_eq_of_lt small
        rw [back, padded_eq_digits (by simp) bound]
        refine ⟨bound, fun _ mem => ?_, fun _ => same⟩
        exact digit_not_plus (digits_are_digits (same ▸ mem)) rfl
      · cases fits

theorem digit_ascii {b : UInt8} (digit : isAsciiDigit b = true) : b.toNat < 128 := by
  simp only [isAsciiDigit, Bool.and_eq_true, decide_eq_true_eq, UInt8.le_iff_toNat_le] at digit
  have high : b.toNat ≤ 57 := digit.2
  omega

theorem padded_ascii (d : Date) : ∀ b ∈ padded 4 d.year.toNat ++ [0x2D] ++
    padded 2 d.month.toNat ++ [0x2D] ++ padded 2 d.day.toNat, b.toNat < 128 := by
  intro b mem
  simp only [List.mem_append, List.mem_singleton] at mem
  rcases mem with (((digit | rfl) | digit) | rfl) | digit
  · exact digit_ascii (digits_are_digits digit)
  · decide
  · exact digit_ascii (digits_are_digits digit)
  · decide
  · exact digit_ascii (digits_are_digits digit)

theorem to_text_bytes (d : Date) : utf8 d.toText = padded 4 d.year.toNat ++ [0x2D] ++
    padded 2 d.month.toNat ++ [0x2D] ++ padded 2 d.day.toNat :=
  utf8_ascii_text d.padded_ascii

theorem to_text_ascii (d : Date) : ∀ b ∈ utf8 d.toText, b.toNat < 128 := by
  rw [to_text_bytes]
  exact d.padded_ascii

theorem byte_of_two_digits {v : UInt16} (bound : v.toNat < 100) : v.toUInt8.toNat = v.toNat := by
  rw [UInt16.toNat_toUInt8]
  omega

theorem new_some {year : UInt16} {month day : UInt8} {d : Date}
    (made : new year month day = some d) : d.year = year ∧ d.month = month ∧ d.day = day := by
  rw [new] at made
  split at made
  · cases made
    exact ⟨rfl, rfl, rfl⟩
  · cases made

/-- A date is written as it was read unless a number in it has a plus sign. -/
theorem parse_exact {s : String} {d : Date} (parsed : parse s = some d) :
    (utf8 s).length = 10 ∧ (utf8 d.toText).length = 10 ∧
      (d.toText = s ↔ (0x2B : UInt8) ∉ utf8 s) := by
  simp only [parse] at parsed
  split at parsed
  · cases parsed
  rename_i shape
  simp only [not_or, not_not] at shape
  obtain ⟨len, dash₁, dash₂⟩ := shape
  obtain ⟨y, year, parsed⟩ := Option.bind_eq_some_iff.mp parsed
  obtain ⟨m, month, parsed⟩ := Option.bind_eq_some_iff.mp parsed
  obtain ⟨a, day, parsed⟩ := Option.bind_eq_some_iff.mp parsed
  obtain ⟨rfl, sameMonth, sameDay⟩ := new_some parsed
  have parts : ((utf8 s).take 4).length = 4 ∧ (((utf8 s).drop 5).take 2).length = 2 ∧
      (((utf8 s).drop 8).take 2).length = 2 := by
    simp [len]
  have whole : utf8 s = (utf8 s).take 4 ++ [0x2D] ++ ((utf8 s).drop 5).take 2 ++ [0x2D] ++
      ((utf8 s).drop 8).take 2 := by
    generalize utf8 s = bs at len dash₁ dash₂
    match bs, len with
    | [b0, b1, b2, b3, b4, b5, b6, b7, b8, b9], _ =>
      cases dash₁
      cases dash₂
      rfl
  obtain ⟨yBound, yExact⟩ := parse_u16_exact year
  obtain ⟨mBound, mExact⟩ := parse_u16_exact month
  obtain ⟨aBound, aExact⟩ := parse_u16_exact day
  rw [parts.1] at yBound yExact
  rw [parts.2.1] at mBound mExact
  rw [parts.2.2] at aBound aExact
  have written := to_text_bytes d
  rw [sameMonth, sameDay, byte_of_two_digits mBound, byte_of_two_digits aBound] at written
  have widths : (padded 4 d.year.toNat).length = 4 ∧ (padded 2 m.toNat).length = 2 ∧
      (padded 2 a.toNat).length = 2 := by
    rw [padded_eq_digits (by norm_num) yBound, padded_eq_digits (by norm_num) mBound,
      padded_eq_digits (by norm_num) aBound]
    simp [digits_length]
  refine ⟨len, by simp [written, widths], ?_⟩
  rw [← utf8_injective.eq_iff, written, whole]
  simp only [List.append_assoc, List.mem_append, not_or]
  rw [← yExact, ← mExact, ← aExact]
  constructor
  · intro same
    obtain ⟨years, same⟩ := List.append_inj same (by rw [widths.1, parts.1])
    obtain ⟨_, same⟩ := List.append_inj same rfl
    obtain ⟨months, same⟩ := List.append_inj same (by rw [widths.2.1, parts.2.1])
    obtain ⟨_, days⟩ := List.append_inj same rfl
    exact ⟨years, by decide, months, by decide, days⟩
  · rintro ⟨years, _, months, _, days⟩
    rw [years, months, days]

theorem parse_digits {width n : Nat} (positive : 0 < width) (bound : n < 10 ^ width)
    (small : n < 2 ^ 16) : parseU16 (digits width n) = some (UInt16.ofNat n) := by
  have filled : digits width n ≠ [] := by
    intro empty
    have len := digits_length width n
    rw [empty] at len
    exact absurd len (by simp; omega)
  obtain ⟨b, bs, split⟩ := List.exists_cons_of_ne_nil filled
  have first : b ≠ 0x2B := digit_not_plus (digits_are_digits (split ▸ List.mem_cons_self))
  have value := value_of_digits bound
  rw [split] at value ⊢
  have held : n < 65536 := small
  simp [parseU16, first, value, held]

/-- A date of a four-digit year is read back from its text. -/
theorem parse_to_text {d : Date} (year : d.year.toNat < 10000) :
    parse d.toText = some d := by
  have months := d.month_valid
  have days := d.day_valid
  have longest : daysInMonth d.year.toNat d.month.toNat ≤ 31 := by
    unfold daysInMonth
    split_ifs <;> split <;> omega
  have bytes := to_text_bytes d
  have wide : d.year.toNat < 10 ^ 4 := by omega
  have monthWide : d.month.toNat < 10 ^ 2 := by omega
  have dayWide : d.day.toNat < 10 ^ 2 := by omega
  rw [padded_eq_digits (by norm_num) wide, padded_eq_digits (by norm_num) monthWide,
    padded_eq_digits (by norm_num) dayWide] at bytes
  have y := digits_length 4 d.year.toNat
  have m := digits_length 2 d.month.toNat
  have a := digits_length 2 d.day.toNat
  have yearRead := parse_digits (by norm_num) wide (by omega)
  have monthRead := parse_digits (by norm_num) monthWide (by omega)
  have dayRead := parse_digits (by norm_num) dayWide (by omega)
  generalize digits 4 d.year.toNat = ys at bytes y yearRead
  generalize digits 2 d.month.toNat = ms at bytes m monthRead
  generalize digits 2 d.day.toNat = ds at bytes a dayRead
  match ys, ms, ds, y, m, a with
  | [y₁, y₂, y₃, y₄], [m₁, m₂], [d₁, d₂], _, _, _ =>
    have made : new d.year d.month d.day = some d := by
      rw [new, dif_pos ⟨d.year_positive, d.month_valid, d.day_valid⟩]
    simp [parse, bytes, yearRead, monthRead, dayRead, made]

end Date

end Smysl
