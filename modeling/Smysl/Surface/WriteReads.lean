import Smysl.Surface.Slices
import Smysl.Surface.WriteNumbers

/-!
The tokens of the writer read back where they stand: what is between values is passed, a text
in quotes is the text, and one without them ends where it does.
-/
namespace Smysl
open ByteString Utf8

namespace Hjson

/-! What is passed. -/

/-- Text at whose start there is nothing to pass up to the end of the line. -/
def StaysInline (bs : Bytes) : Prop :=
  ∀ b ∈ bs.head?, b ≠ 0x20 ∧ b ≠ 0x09 ∧ b ≠ 0x0D ∧ b ≠ 0x23 ∧ (b = 0x2F → bs[1]? ≠ some 0x2F)

/-- Text at whose start there is nothing to pass. -/
def Stays (bs : Bytes) : Prop :=
  ∀ b ∈ bs.head?, isAsciiWhitespace b = false ∧ b ≠ 0x23 ∧
    (b = 0x2F → bs[1]? ≠ some 0x2F ∧ bs[1]? ≠ some 0x2A)

section
variable {src r : List Char} {i steps : Nat}

theorem skip_trivia_stays (rest : Rest src i r) (stays : Stays (bytes r)) (some' : 0 < steps) :
    skipTrivia (bytes src) steps i = .ok i := by
  obtain ⟨n, rfl⟩ := Nat.exists_eq_succ_of_ne_zero some'.ne'
  rw [skipTrivia, rest.head]
  cases head : (bytes r).head? with
  | none => rfl
  | some b =>
    obtain ⟨solid, no_hash, no_slash⟩ := stays b head
    rw [rest.byte 1]
    dsimp only
    rw [if_neg (by rw [solid]; exact Bool.false_ne_true), if_neg no_hash,
      if_neg fun both => (no_slash both.1).1 both.2, if_neg fun both => (no_slash both.1).2 both.2]

theorem skip_inline_stays (rest : Rest src i r) (stays : StaysInline (bytes r))
    (some' : 0 < steps) : skipInlineTrivia (bytes src) steps i = .ok i := by
  obtain ⟨n, rfl⟩ := Nat.exists_eq_succ_of_ne_zero some'.ne'
  rw [skipInlineTrivia, rest.head]
  cases head : (bytes r).head? with
  | none => rfl
  | some b =>
    obtain ⟨no_space, no_tab, no_return, no_hash, no_slash⟩ := stays b head
    rw [rest.byte 1]
    dsimp only
    rw [if_neg (by simp [no_space, no_tab, no_return]), if_neg no_hash,
      if_neg fun both => no_slash both.1 both.2]

/-- Spaces are passed. -/
theorem skip_trivia_spaces {blank : List Char} (spaces : ∀ c ∈ blank, c = ' ')
    (rest : Rest src i (blank ++ r)) (stays : Stays (bytes r)) (enough : width blank < steps) :
    skipTrivia (bytes src) steps i = .ok (i + width blank) := by
  induction blank generalizing i steps with
  | nil => exact skip_trivia_stays rest stays enough
  | cons c blank ih =>
    obtain rfl : c = ' ' := spaces c List.mem_cons_self
    obtain ⟨n, rfl⟩ := Nat.exists_eq_succ_of_ne_zero (show steps ≠ 0 by omega)
    have head : (bytes src)[i]? = some 0x20 := rest.head
    have one : ' '.utf8Size = 1 := rfl
    rw [width_cons, one] at enough ⊢
    rw [skipTrivia, head]
    dsimp only
    rw [if_pos (by decide), ← Nat.add_assoc]
    exact ih (fun d mem => spaces d (List.mem_cons_of_mem _ mem)) rest.next (by omega)

/-- One space is passed up to the end of the line. -/
theorem skip_inline_space (rest : Rest src i (' ' :: r)) (stays : StaysInline (bytes r))
    (some' : 1 < steps) : skipInlineTrivia (bytes src) steps i = .ok (i + 1) := by
  obtain ⟨n, rfl⟩ := Nat.exists_eq_succ_of_ne_zero (show steps ≠ 0 by omega)
  have head : (bytes src)[i]? = some 0x20 := rest.head
  rw [skipInlineTrivia, head]
  dsimp only
  rw [if_pos (.inl rfl)]
  exact skip_inline_stays rest.next stays (by omega)

theorem stays_of_head {bs : Bytes} {b : UInt8} (head : bs.head? = some b)
    (plain : isAsciiWhitespace b = false ∧ b ≠ 0x23 ∧ b ≠ 0x2F) : Stays bs := by
  intro b' head'
  rw [head] at head'
  cases head'
  exact ⟨plain.1, plain.2.1, fun slash => absurd slash plain.2.2⟩

theorem Stays.inline {bs : Bytes} (stays : Stays bs) : StaysInline bs := by
  intro b head
  obtain ⟨solid, no_hash, no_slash⟩ := stays b head
  simp only [isAsciiWhitespace, Bool.or_eq_false_iff, beq_eq_false_iff_ne] at solid
  exact ⟨solid.1.1.1.1, solid.1.1.1.2, solid.2, no_hash, fun slash => (no_slash slash).1⟩

end

end Hjson

namespace Write
open Hjson

/-! Text in quotes. -/

section
variable {src r : List Char} {i steps : Nat}

theorem escaped_byte {c : Char} (short : escape c ≠ [c]) :
    ∃ e : UInt8, bytes (escape c) = [0x5C, e] ∧ escaped e = some c := by
  rw [escape] at short ⊢
  split
  · rename_i quote
    exact ⟨0x22, rfl, by rw [quote]; rfl⟩
  · split
    · rename_i back
      exact ⟨0x5C, rfl, by rw [back]; rfl⟩
    · split
      · rename_i line
        exact ⟨0x6E, rfl, by rw [line]; rfl⟩
      · split
        · rename_i carriage
          exact ⟨0x72, rfl, by rw [carriage]; rfl⟩
        · split
          · rename_i tab
            exact ⟨0x74, rfl, by rw [tab]; rfl⟩
          · simp_all

theorem escape_plain {c : Char} (plain : escape c = [c]) : c ≠ '"' ∧ c ≠ '\\' := by
  constructor <;> rintro rfl <;> exact absurd plain (by decide)

/-- The rest of a text in quotes is read back. -/
theorem quoted_from_reads_back (t : List Char) {out : List Char}
    (rest : Rest src i (t.flatMap escape ++ '"' :: r)) (enough : width src - i < steps) :
    quotedFrom src (bytes src) steps i out =
      .ok (String.ofList (out ++ t), i + width (t.flatMap escape) + 1) := by
  induction t generalizing i out steps with
  | nil =>
    obtain ⟨n, rfl⟩ := Nat.exists_eq_succ_of_ne_zero (show steps ≠ 0 by omega)
    have head : (bytes src)[i]? = some 0x22 := rest.head
    rw [quotedFrom, head]
    dsimp only
    rw [if_pos rfl, List.append_nil]
    rfl
  | cons c t ih =>
    obtain ⟨n, rfl⟩ := Nat.exists_eq_succ_of_ne_zero (show steps ≠ 0 by omega)
    rw [List.flatMap_cons, List.append_assoc] at rest
    have long := rest.length
    rw [width_append] at long
    have positive := c.utf8Size_pos
    by_cases plain : escape c = [c]
    · obtain ⟨no_quote, no_back⟩ := escape_plain plain
      rw [plain, List.singleton_append] at rest
      rw [plain, width_cons] at long
      obtain ⟨b, head, same⟩ := head_bytes c (t.flatMap escape ++ '"' :: r)
      have quote : b ≠ 0x22 := by
        rintro rfl
        exact no_quote (Char.toNat_inj.mp (same (by decide)))
      have back : b ≠ 0x5C := by
        rintro rfl
        exact no_back (Char.toNat_inj.mp (same (by decide)))
      rw [quotedFrom, rest.head, head]
      dsimp only
      rw [if_neg quote, if_neg back, rest.slice_from]
      dsimp only
      rw [ih rest.next (by omega), List.append_assoc, List.flatMap_cons, width_append, plain,
        width_cons, width_nil, Nat.add_zero, Nat.add_assoc i]
      rfl
    · obtain ⟨e, spelled, known⟩ := escaped_byte plain
      have two : width (escape c) = 2 := by
        rw [← length_bytes, spelled]
        rfl
      rw [two] at long
      have first : (bytes src)[i]? = some 0x5C := by
        rw [rest.head, bytes_append, spelled]
        rfl
      have second : (bytes src)[i + 1]? = some e := by
        rw [rest.byte 1, bytes_append, spelled]
        rfl
      have later := rest.later
      rw [two] at later
      rw [quotedFrom, first]
      dsimp only
      rw [if_neg (by decide), if_pos rfl, second]
      dsimp only
      rw [known]
      dsimp only
      rw [ih later (by omega), List.append_assoc, List.flatMap_cons, width_append, two,
        Nat.add_assoc i]
      rfl

theorem quoted_reads_back {t : List Char} (rest : Rest src i (quoted t ++ r)) :
    Hjson.quoted src (bytes src) i = .ok (String.ofList t, i + width (quoted t)) := by
  have inside : Rest src (i + 1) (t.flatMap escape ++ '"' :: r) := by
    have moved := Rest.next (c := '"') (by
      simpa only [quoted, List.cons_append, List.append_assoc, List.singleton_append] using rest)
    exact moved
  have long := rest.length
  rw [Hjson.quoted, quoted_from_reads_back t inside (by rw [length_bytes]; omega), List.nil_append]
  congr 2
  rw [quoted, List.cons_append, width_cons, width_append]
  change _ = i + (1 + (width (t.flatMap escape) + 1))
  omega

end

/-! Text without them. -/

/-- What may follow a value: spaces, and then nothing or what ends a value. -/
def Closes (r : List Char) : Prop :=
  ∃ blank rest, r = blank ++ rest ∧ (∀ c ∈ blank, c = ' ') ∧
    ∀ b ∈ (bytes rest).head?, isQuotelessByte b = false

theorem quoteless_bytes {t : List Char} (plain : ∀ c ∈ t, c ≠ ',' ∧ c ≠ '\x7d' ∧ c ≠ ']' ∧
    c ≠ '\n' ∧ c ≠ '\r') : ∀ b ∈ bytes t, isQuotelessByte b = true := by
  intro b mem
  by_contra stops
  simp only [isQuotelessByte, Bool.not_eq_true', Bool.or_eq_true, beq_iff_eq,
    Bool.not_eq_false] at stops
  have same : ∀ {b' : UInt8}, b = b' → b'.toNat < 128 → ∃ c ∈ t, c.toNat = b'.toNat :=
    fun same low => char_of_byte (same ▸ mem) low
  rcases stops with (((h | h) | h) | h) | h
  · obtain ⟨c, mem, code⟩ := same h (by decide)
    exact (plain c mem).1 (Char.toNat_inj.mp code)
  · obtain ⟨c, mem, code⟩ := same h (by decide)
    exact (plain c mem).2.1 (Char.toNat_inj.mp code)
  · obtain ⟨c, mem, code⟩ := same h (by decide)
    exact (plain c mem).2.2.1 (Char.toNat_inj.mp code)
  · obtain ⟨c, mem, code⟩ := same h (by decide)
    exact (plain c mem).2.2.2.1 (Char.toNat_inj.mp code)
  · obtain ⟨c, mem, code⟩ := same h (by decide)
    exact (plain c mem).2.2.2.2 (Char.toNat_inj.mp code)

section
variable {src r t : List Char} {i : Nat}

theorem space_goes {blank : List Char} (spaces : ∀ c ∈ blank, c = ' ') :
    ∀ b ∈ bytes blank, isQuotelessByte b = true :=
  quoteless_bytes fun c mem => by
    rw [spaces c mem]
    decide

theorem trim_end_blank {blank : List Char} (spaces : ∀ c ∈ blank, c = ' ')
    (solid : ∀ c ∈ t.getLast?, isWhitespace c = false) : trimEnd (t ++ blank) = t := by
  have dropped : (blank.reverse ++ t.reverse).dropWhile isWhitespace =
      t.reverse.dropWhile isWhitespace := List.dropWhile_append_of_pos fun c mem => by
    rw [spaces c (List.mem_reverse.mp mem)]
    rfl
  have kept : t.reverse.dropWhile isWhitespace = t.reverse := by
    cases back : t.reverse with
    | nil => rfl
    | cons c more =>
      have last : t.getLast? = some c := by rw [← List.head?_reverse, back]; rfl
      rw [List.dropWhile_cons_of_neg (by rw [solid c last]; exact Bool.false_ne_true)]
  rw [trimEnd, List.reverse_append, dropped, kept, List.reverse_reverse]

/-- A value without quotes is read to its end. -/
theorem quoteless_reads_back (rest : Rest src i (t ++ r)) (closes : Closes r) (some' : t ≠ [])
    (goes : ∀ b ∈ bytes t, isQuotelessByte b = true)
    (solid : ∀ c ∈ t.getLast?, isWhitespace c = false) :
    quoteless src (bytes src) i = .ok (classify t, i + width t) := by
  obtain ⟨blank, left, rfl, spaces, stops⟩ := closes
  rw [← List.append_assoc] at rest
  have taken : ((bytes (t ++ blank ++ left)).takeWhile isQuotelessByte).length =
      width (t ++ blank) := take_bytes (fun b mem => by
    rw [bytes_append, List.mem_append] at mem
    exact mem.elim (goes b) (space_goes spaces b)) stops
  rw [quoteless, rest.drop, taken]
  dsimp only
  rw [rest.slice]
  change (if (trimEnd (t ++ blank)).isEmpty then Except.error (Halt.refused i)
    else .ok (classify (trimEnd (t ++ blank)), i + width (trimEnd (t ++ blank)))) = _
  rw [trim_end_blank spaces solid, if_neg (by simpa using some')]

end

/-! Text as a value. -/

/-- A text that does not need quotes is none of the words, has no mark and no space around it,
and parses as no number. -/
theorem value_plain {s : List Char} (plain : valueNeedsQuotes s = false) :
    s ≠ [] ∧ trim s = s ∧ (∀ c ∈ s, isValueMark c = false) ∧
      (s ≠ "true".toList ∧ s ≠ "false".toList ∧ s ≠ "null".toList) ∧
      ¬ "#".toList <+: s ∧ ¬ "//".toList <+: s ∧ parsesFloat s = false := by
  simp only [valueNeedsQuotes, Bool.or_eq_false_iff] at plain
  obtain ⟨⟨⟨⟨⟨⟨filled, trimmed⟩, unmarked⟩, words⟩, hash⟩, slashes⟩, number⟩ := plain
  refine ⟨by simpa using filled, by simpa using trimmed, by simpa using unmarked,
    by simpa [and_assoc] using words, ?_, ?_, number⟩
  · rw [← List.isPrefixOf_iff_prefix, hash]
    exact Bool.false_ne_true
  · rw [← List.isPrefixOf_iff_prefix, slashes]
    exact Bool.false_ne_true

theorem trim_start_of_trimmed {s : List Char} (trimmed : trim s = s) : trimStart s = s := by
  have suffix : trimStart s <:+ s := List.dropWhile_suffix _
  have front := trim_end_prefix (trimStart s)
  have short := front.length_le
  rw [← trim, trimmed] at short
  exact suffix.eq_of_length_le short

theorem trimmed_first {c : Char} {s : List Char} (trimmed : trim (c :: s) = c :: s) :
    isWhitespace c = false := by
  have first := List.head?_dropWhile_not isWhitespace (c :: s)
  rw [← trimStart, trim_start_of_trimmed trimmed] at first
  simpa using first

theorem trimmed_last {s : List Char} (trimmed : trim s = s) :
    ∀ c ∈ s.getLast?, isWhitespace c = false := by
  intro c last
  obtain ⟨init, rfl⟩ := List.getLast?_eq_some_iff.mp last
  rw [trim, trim_start_of_trimmed trimmed] at trimmed
  by_contra space
  rw [trimEnd, List.reverse_append, List.reverse_singleton, List.singleton_append,
    List.dropWhile_cons_of_pos (by simpa using space)] at trimmed
  have short := (List.dropWhile_suffix isWhitespace (l := init.reverse)).length_le
  have long := congrArg List.length trimmed
  rw [List.length_reverse, List.length_append, List.length_singleton] at long
  rw [List.length_reverse] at short
  omega

/-! What a text begins with. -/

/-- What does not go on from a slash to a comment. -/
def NoComment (r : List Char) : Prop := ∀ b ∈ (bytes r).head?, b ≠ 0x2F ∧ b ≠ 0x2A

theorem Closes.no_comment {r : List Char} (closes : Closes r) : NoComment r := by
  obtain ⟨blank, rest, rfl, spaces, stops⟩ := closes
  intro b head
  cases blank with
  | nil =>
    have stop := stops b head
    constructor <;> rintro rfl <;> exact absurd stop (by decide)
  | cons c blank =>
    rw [spaces c List.mem_cons_self] at head
    cases head
    decide

theorem ascii_white_char {c : Char} {b : UInt8} (same : b.toNat < 128 → c.toNat = b.toNat)
    (solid : isWhitespace c = false) : isAsciiWhitespace b = false := by
  by_contra white
  rw [Bool.not_eq_false] at white
  have code := same (ascii_white white)
  simp only [isAsciiWhitespace, Bool.or_eq_true, beq_iff_eq] at white
  rw [isWhitespace, code] at solid
  rcases white with (((rfl | rfl) | rfl) | rfl) | rfl <;> exact absurd solid (by decide)

/-- After a slash, what begins a comment is in the text. -/
theorem second_byte {c : Char} {s r : List Char} {b : UInt8} (slash : c = '/')
    (after : NoComment r) (second : (bytes (c :: s ++ r))[1]? = some b)
    (mark : b = 0x2F ∨ b = 0x2A) : ∃ d more, s = d :: more ∧ d.toNat = b.toNat := by
  have head : (bytes (s ++ r)).head? = some b := by
    rw [slash, List.cons_append] at second
    rw [List.head?_eq_getElem?]
    exact second
  cases s with
  | nil =>
    have no_mark := after b head
    rcases mark with same | same
    · exact absurd same no_mark.1
    · exact absurd same no_mark.2
  | cons d more =>
    obtain ⟨b', head', code⟩ := head_bytes d (more ++ r)
    rw [List.cons_append, head'] at head
    cases head
    refine ⟨d, more, rfl, code ?_⟩
    rcases mark with rfl | rfl <;> decide

theorem text_stays_inline {c : Char} {s r : List Char} (solid : isWhitespace c = false)
    (hash : ¬ "#".toList <+: c :: s) (slashes : ¬ "//".toList <+: c :: s) (after : NoComment r) :
    StaysInline (bytes (c :: s ++ r)) := by
  obtain ⟨b, head, code⟩ := head_bytes c (s ++ r)
  intro b' head'
  rw [List.cons_append, head] at head'
  cases head'
  have plain := ascii_white_char code solid
  simp only [isAsciiWhitespace, Bool.or_eq_false_iff, beq_eq_false_iff_ne] at plain
  refine ⟨plain.1.1.1.1, plain.1.1.1.2, plain.2, ?_, ?_⟩
  · rintro rfl
    have same : c = '#' := Char.toNat_inj.mp (code (by decide))
    exact hash ⟨s, by rw [same]; rfl⟩
  · rintro rfl second
    have same : c = '/' := Char.toNat_inj.mp (code (by decide))
    obtain ⟨d, more, rfl, code'⟩ := second_byte same after second (.inl rfl)
    have same' : d = '/' := Char.toNat_inj.mp code'
    exact slashes ⟨more, by rw [same, same']; rfl⟩

theorem text_stays {c : Char} {s r : List Char} (solid : isWhitespace c = false)
    (hash : ¬ "#".toList <+: c :: s) (slashes : ¬ "//".toList <+: c :: s)
    (block : ¬ "/*".toList <+: c :: s) (after : NoComment r) : Stays (bytes (c :: s ++ r)) := by
  have inline := text_stays_inline solid hash slashes after
  obtain ⟨b, head, code⟩ := head_bytes c (s ++ r)
  intro b' head'
  obtain ⟨_, _, _, no_hash, no_slash⟩ := inline b' head'
  rw [List.cons_append, head] at head'
  cases head'
  refine ⟨ascii_white_char code solid, no_hash, ?_⟩
  rintro rfl
  refine ⟨no_slash rfl, fun second => ?_⟩
  have same : c = '/' := Char.toNat_inj.mp (code (by decide))
  obtain ⟨d, more, rfl, code'⟩ := second_byte same after second (.inr rfl)
  have same' : d = '*' := Char.toNat_inj.mp code'
  exact block ⟨more, by rw [same, same']; rfl⟩

/-! What a text is taken for. -/

theorem digits_led {ds : Bytes} {n : Nat} (value : Date.digitsValue ds = some n) :
    leadingDigits ds = (ds, []) := by
  have taken := @span_digits ds [] (fun b mem => value_digits value mem) fun b here => by cases here
  rwa [List.append_nil] at taken

/-- Whatever is a whole number is a decimal. -/
theorem decimal_of_int {bs : Bytes} {i : Int64} (whole : parseInt bs = some i) :
    (parseDecimal bs).isSome = true := by
  cases bs with
  | nil => cases whole
  | cons b rest =>
    by_cases minus : b = 0x2D
    · subst minus
      cases rest with
      | nil => cases whole
      | cons d ds =>
        cases value : Date.digitsValue (d :: ds) with
        | none => simp [parseInt, value] at whole
        | some n => simp [parseDecimal, digits_led value, parseExponent, value]
    · by_cases plus : b = 0x2B
      · subst plus
        cases rest with
        | nil => cases whole
        | cons d ds =>
          cases value : Date.digitsValue (d :: ds) with
          | none => simp [parseInt, value] at whole
          | some n => simp [parseDecimal, digits_led value, parseExponent, value]
      · cases value : Date.digitsValue (b :: rest) with
        | none => simp [parseInt, minus, plus, value] at whole
        | some n => simp [parseDecimal, minus, plus, digits_led value, parseExponent, value]

/-- A text that needs no quotes is taken for the text it is. -/
theorem classify_plain {s : List Char} (plain : valueNeedsQuotes s = false) :
    classify s = .str (String.ofList s) := by
  obtain ⟨_, _, _, ⟨no_true, no_false, no_null⟩, _, _, no_float⟩ := value_plain plain
  have other : ∀ word : String, s ≠ word.toList → String.ofList s ≠ word := by
    intro word differs same
    exact differs (by rw [← same, String.toList_ofList])
  rw [parsesFloat, Bool.or_eq_false_iff] at no_float
  have no_decimal : parseDecimal (bytes s) = none := by simpa using no_float.1
  have no_int : parseInt (bytes s) = none := by
    cases whole : parseInt (bytes s) with
    | none => rfl
    | some i =>
      have decimal := decimal_of_int whole
      rw [no_decimal] at decimal
      cases decimal
  rw [classify]
  dsimp only
  rw [if_neg (other "true" no_true), if_neg (other "false" no_false),
    if_neg (other "null" no_null), no_int, no_decimal, ite_self]

/-! Words and numbers. -/

/-- The characters of words and numbers. -/
def isWordChar (c : Char) : Bool :=
  let n := c.toNat
  (0x30 ≤ n && n ≤ 0x39) || (0x41 ≤ n && n ≤ 0x5A) || (0x61 ≤ n && n ≤ 0x7A) || n == 0x2D ||
    n == 0x2E

theorem word_char_solid {c : Char} (word : isWordChar c = true) : isWhitespace c = false := by
  simp only [isWordChar, isWhitespace, Bool.or_eq_true, Bool.and_eq_true, decide_eq_true_eq,
    beq_iff_eq, Bool.or_eq_false_iff, Bool.and_eq_false_iff, decide_eq_false_iff_not,
    beq_eq_false_iff_ne] at word ⊢
  omega

theorem word_char_ne {c d : Char} (word : isWordChar c = true) (other : isWordChar d = false) :
    c ≠ d := by
  rintro rfl
  rw [word] at other
  cases other

theorem digits_words {ds : Bytes} (digits : ∀ d ∈ ds, isAsciiDigit d = true) :
    ∀ c ∈ ascii ds, isWordChar c = true := by
  intro c mem
  obtain ⟨d, inside, rfl⟩ := List.mem_map.mp mem
  have low := digit_low (digits d inside)
  rw [isWordChar, char_of_ascii (by omega)]
  simp only [Bool.or_eq_true, Bool.and_eq_true, decide_eq_true_eq]
  omega

theorem minus_words (negative : Bool) : ∀ c ∈ minus negative, isWordChar c = true := by
  cases negative with
  | false => exact List.all_eq_true.mp rfl
  | true => exact List.all_eq_true.mp rfl

theorem int_words (i : Int64) : int i ≠ [] ∧ ∀ c ∈ int i, isWordChar c = true := by
  constructor
  · obtain ⟨d, ds, spelled⟩ := padded_cons i.toInt.natAbs
    rw [int, spelled]
    exact List.append_ne_nil_of_right_ne_nil _ (List.cons_ne_nil _ _)
  · intro c mem
    rcases List.mem_append.mp mem with signed | digits
    · exact minus_words _ c signed
    · exact digits_words (fun d => padded_digits) c digits

theorem trim_float_words (f : F32) :
    trimFloat f ≠ [] ∧ ∀ c ∈ trimFloat f, isWordChar c = true := by
  by_cases finite : f.exponent.val = 255
  · have infinite : f.isFinite = false := by
      simpa [F32.isFinite, Fin.ext_iff] using finite
    rw [trimFloat, fixed, infinite]
    by_cases number : f.isNan = true
    · rw [if_pos number]
      exact ⟨List.cons_ne_nil _ _, List.all_eq_true.mp rfl⟩
    · rw [if_neg number, if_neg Bool.false_ne_true]
      cases f.negative with
      | false => exact ⟨List.cons_ne_nil _ _, List.all_eq_true.mp rfl⟩
      | true => exact ⟨List.cons_ne_nil _ _, List.all_eq_true.mp rfl⟩
  · obtain ⟨places, _, shape, digits, _⟩ := trim_float_shape finite
    rw [shape]
    constructor
    · exact List.append_ne_nil_of_right_ne_nil _
        (List.append_ne_nil_of_right_ne_nil _ (List.cons_ne_nil _ _))
    · intro c mem
      rcases List.mem_append.mp mem with signed | mem
      · exact minus_words _ c signed
      · rcases List.mem_append.mp mem with whole | mem
        · exact digits_words (fun d => padded_digits) c whole
        · rcases List.mem_cons.mp mem with rfl | last
          · rfl
          · exact digits_words digits c last

/-! Values that hold no others, and keys. -/

section
variable {src r : List Char} {i levels depth : Nat}

/-- A value without quotes or brackets. -/
theorem bare_reads_back {c : Char} {t : List Char} (rest : Rest src i (c :: t ++ r))
    (stays : StaysInline (bytes (c :: t ++ r))) (closes : Closes r)
    (marks : c ≠ '\x7b' ∧ c ≠ '[' ∧ c ≠ '"')
    (goes : ∀ b ∈ bytes (c :: t), isQuotelessByte b = true)
    (solid : ∀ d ∈ (c :: t).getLast?, isWhitespace d = false) :
    Hjson.value src (bytes src) (levels + 1) depth i =
      .ok (classify (c :: t), i + width (c :: t)) := by
  obtain ⟨b, head, code⟩ := head_bytes c (t ++ r)
  have no_brace : b ≠ 0x7B := by
    rintro rfl
    exact marks.1 (Char.toNat_inj.mp (code (by decide)))
  have no_bracket : b ≠ 0x5B := by
    rintro rfl
    exact marks.2.1 (Char.toNat_inj.mp (code (by decide)))
  have no_quote : b ≠ 0x22 := by
    rintro rfl
    exact marks.2.2 (Char.toNat_inj.mp (code (by decide)))
  have read := quoteless_reads_back rest closes (List.cons_ne_nil c t) goes solid
  rw [Hjson.value, skip_inline_stays rest stays (Nat.succ_pos _)]
  dsimp only [bind, Except.bind]
  rw [rest.head, List.cons_append, head]
  dsimp only
  rw [if_neg no_brace, if_neg no_bracket, if_neg no_quote, read]

theorem word_stays {t : List Char} (some' : t ≠ []) (words : ∀ c ∈ t, isWordChar c = true)
    (r : List Char) : Stays (bytes (t ++ r)) := by
  obtain ⟨c, t, rfl⟩ := List.exists_cons_of_ne_nil some'
  have word := words c List.mem_cons_self
  obtain ⟨b, head, code⟩ := head_bytes c (t ++ r)
  intro b' head'
  rw [List.cons_append, head] at head'
  cases head'
  refine ⟨ascii_white_char code (word_char_solid word), ?_, ?_⟩
  · rintro rfl
    exact word_char_ne word (d := '#') rfl (Char.toNat_inj.mp (code (by decide)))
  · rintro rfl
    exact absurd (Char.toNat_inj.mp (code (by decide))) (word_char_ne word (d := '/') rfl)

/-- A word or a number is read to its end. -/
theorem word_reads_back {t : List Char} (some' : t ≠ []) (words : ∀ c ∈ t, isWordChar c = true)
    (rest : Rest src i (t ++ r)) (closes : Closes r) :
    Hjson.value src (bytes src) (levels + 1) depth i = .ok (classify t, i + width t) := by
  have stays := (word_stays some' words r).inline
  obtain ⟨c, t, rfl⟩ := List.exists_cons_of_ne_nil some'
  have word := words c List.mem_cons_self
  refine bare_reads_back rest stays closes ⟨word_char_ne word rfl, word_char_ne word rfl,
    word_char_ne word rfl⟩ (quoteless_bytes fun d mem => ?_) fun d last => ?_
  · have word' := words d mem
    exact ⟨word_char_ne word' rfl, word_char_ne word' rfl, word_char_ne word' rfl,
      word_char_ne word' rfl, word_char_ne word' rfl⟩
  · exact word_char_solid (words d (List.mem_of_mem_getLast? last))

/-- A text in quotes is read to its end, as a value. -/
theorem quoted_value_reads_back {t : List Char} (rest : Rest src i (quoted t ++ r)) :
    Hjson.value src (bytes src) (levels + 1) depth i =
      .ok (.str (String.ofList t), i + width (quoted t)) := by
  have head : (bytes src)[i]? = some 0x22 := by
    rw [rest.head, quoted]
    rfl
  have stays : Stays (bytes (quoted t ++ r)) :=
    stays_of_head (rest.head.symm.trans head) (by decide)
  rw [Hjson.value, skip_inline_stays rest stays.inline (Nat.succ_pos _)]
  dsimp only [bind, Except.bind]
  rw [head]
  dsimp only
  rw [if_neg (by decide), if_neg (by decide), if_pos rfl, quoted_reads_back rest]

/-- A text is read back as a value, in quotes or without. -/
theorem text_reads_back {s : List Char} (rest : Rest src i (quotelessOrQuoted s ++ r))
    (closes : Closes r) : Hjson.value src (bytes src) (levels + 1) depth i =
      .ok (.str (String.ofList s), i + width (quotelessOrQuoted s)) := by
  rw [quotelessOrQuoted] at rest ⊢
  cases plain : valueNeedsQuotes s with
  | true =>
    rw [plain, if_pos rfl] at rest
    rw [if_pos rfl]
    exact quoted_value_reads_back rest
  | false =>
    rw [plain, if_neg Bool.false_ne_true] at rest
    rw [if_neg Bool.false_ne_true]
    obtain ⟨some', trimmed, unmarked, _, hash, slashes, _⟩ := value_plain plain
    obtain ⟨c, s, rfl⟩ := List.exists_cons_of_ne_nil some'
    have mark_ne : ∀ {d : Char}, d ∈ c :: s → ∀ {m : Char}, isValueMark m = true → d ≠ m := by
      rintro d mem m mark rfl
      rw [unmarked d mem] at mark
      cases mark
    have stays := text_stays_inline (trimmed_first trimmed) hash slashes closes.no_comment
    rw [bare_reads_back rest stays closes ⟨mark_ne List.mem_cons_self rfl,
      mark_ne List.mem_cons_self rfl, mark_ne List.mem_cons_self rfl⟩
      (quoteless_bytes fun d mem => ⟨mark_ne mem rfl, mark_ne mem rfl, mark_ne mem rfl,
        mark_ne mem rfl, mark_ne mem rfl⟩) (trimmed_last trimmed), classify_plain plain]

/-- A text that begins no block comment, where it is without quotes. -/
def startsPlainly (needsQuotes : List Char → Bool) (s : List Char) : Bool :=
  needsQuotes s || !"/*".toList.isPrefixOf s

theorem quoted_stays (t : List Char) : Stays (bytes (quoted t ++ r)) :=
  stays_of_head (b := 0x22) (by rw [quoted]; rfl) (by decide)

theorem text_value_stays {s : List Char} (starts : startsPlainly valueNeedsQuotes s = true)
    (closes : Closes r) : Stays (bytes (quotelessOrQuoted s ++ r)) := by
  rw [quotelessOrQuoted]
  cases plain : valueNeedsQuotes s with
  | true =>
    rw [if_pos rfl]
    exact quoted_stays s
  | false =>
    rw [if_neg Bool.false_ne_true]
    obtain ⟨some', trimmed, _, _, hash, slashes, _⟩ := value_plain plain
    rw [startsPlainly, plain, Bool.false_or, Bool.not_eq_true', ← Bool.not_eq_true,
      List.isPrefixOf_iff_prefix] at starts
    obtain ⟨c, s, rfl⟩ := List.exists_cons_of_ne_nil some'
    exact text_stays (trimmed_first trimmed) hash slashes starts closes.no_comment

theorem text_value_stays_inline (s : List Char) (closes : Closes r) :
    StaysInline (bytes (quotelessOrQuoted s ++ r)) := by
  rw [quotelessOrQuoted]
  cases plain : valueNeedsQuotes s with
  | true =>
    rw [if_pos rfl]
    exact (quoted_stays s).inline
  | false =>
    rw [if_neg Bool.false_ne_true]
    obtain ⟨some', trimmed, _, _, hash, slashes, _⟩ := value_plain plain
    obtain ⟨c, s, rfl⟩ := List.exists_cons_of_ne_nil some'
    exact text_stays_inline (trimmed_first trimmed) hash slashes closes.no_comment

/-- A text without quotes as a key holds nothing that ends one. -/
theorem key_plain {k : List Char} (plain : keyNeedsQuotes k = false) :
    k ≠ [] ∧ ¬ "#".toList <+: k ∧ ¬ "//".toList <+: k ∧ ∀ c ∈ k, isKeyMark c = false := by
  simp only [keyNeedsQuotes, Bool.or_eq_false_iff] at plain
  obtain ⟨⟨⟨⟨filled, hash⟩, slashes⟩, _⟩, unmarked⟩ := plain
  refine ⟨by simpa using filled, ?_, ?_, by simpa using unmarked⟩
  · rw [← List.isPrefixOf_iff_prefix, hash]
    exact Bool.false_ne_true
  · rw [← List.isPrefixOf_iff_prefix, slashes]
    exact Bool.false_ne_true

theorem key_stays {k : List Char} (starts : startsPlainly keyNeedsQuotes k = true)
    (r : List Char) : Stays (bytes (quotedKey k ++ ':' :: r)) := by
  rw [quotedKey]
  cases plain : keyNeedsQuotes k with
  | true =>
    rw [if_pos rfl]
    exact quoted_stays k
  | false =>
    rw [if_neg Bool.false_ne_true]
    obtain ⟨some', hash, slashes, unmarked⟩ := key_plain plain
    rw [startsPlainly, plain, Bool.false_or, Bool.not_eq_true', ← Bool.not_eq_true,
      List.isPrefixOf_iff_prefix] at starts
    obtain ⟨c, k, rfl⟩ := List.exists_cons_of_ne_nil some'
    have mark := unmarked c List.mem_cons_self
    simp only [isKeyMark, Bool.or_eq_false_iff] at mark
    refine text_stays mark.1.1.1.1.1.1 hash slashes starts fun b head => ?_
    cases head
    decide

/-- A key is read back, in quotes or without. -/
theorem key_reads_back {k : List Char} (rest : Rest src i (quotedKey k ++ ':' :: r)) :
    key src (bytes src) i = .ok (⟨String.ofList k, i⟩, i + width (quotedKey k)) := by
  rw [quotedKey] at rest ⊢
  cases plain : keyNeedsQuotes k with
  | true =>
    rw [plain, if_pos rfl] at rest
    have head : (bytes src)[i]? = some 0x22 := by
      rw [rest.head, quoted]
      rfl
    rw [if_pos rfl, key, if_pos head, quoted_reads_back rest]
    rfl
  | false =>
    rw [plain, if_neg Bool.false_ne_true] at rest
    obtain ⟨some', _, _, unmarked⟩ := key_plain plain
    have mark_ne : ∀ {d : Char}, d ∈ k → ∀ {m : Char}, isKeyMark m = true → d ≠ m := by
      rintro d mem m mark rfl
      rw [unmarked d mem] at mark
      cases mark
    have goes : ∀ b ∈ bytes k, isKeyByte b = true := by
      intro b mem
      by_contra stops
      simp only [isKeyByte, Bool.not_eq_true', Bool.or_eq_true, beq_iff_eq,
        Bool.not_eq_false] at stops
      have same : ∀ {b' : UInt8}, b = b' → b'.toNat < 128 → ∃ c ∈ k, c.toNat = b'.toNat :=
        fun same low => char_of_byte (same ▸ mem) low
      rcases stops with (((h | white) | h) | h) | h
      · obtain ⟨c, inside, code⟩ := same h (by decide)
        exact mark_ne inside (m := ':') rfl (Char.toNat_inj.mp code)
      · obtain ⟨c, inside, code⟩ := char_of_byte mem (ascii_white white)
        have mark := unmarked c inside
        simp only [isKeyMark, Bool.or_eq_false_iff] at mark
        rw [ascii_white_char (fun _ => code) mark.1.1.1.1.1.1] at white
        cases white
      · obtain ⟨c, inside, code⟩ := same h (by decide)
        exact mark_ne inside (m := ',') rfl (Char.toNat_inj.mp code)
      · obtain ⟨c, inside, code⟩ := same h (by decide)
        exact mark_ne inside (m := '\x7b') rfl (Char.toNat_inj.mp code)
      · obtain ⟨c, inside, code⟩ := same h (by decide)
        exact mark_ne inside (m := '\x7d') rfl (Char.toNat_inj.mp code)
    have taken : ((bytes (k ++ ':' :: r)).takeWhile isKeyByte).length = width k :=
      take_bytes goes fun b head => by
        cases head
        rfl
    have long := width_pos some'
    have no_quote : (bytes src)[i]? ≠ some 0x22 := by
      obtain ⟨c, k, rfl⟩ := List.exists_cons_of_ne_nil some'
      obtain ⟨b, head, code⟩ := head_bytes c (k ++ ':' :: r)
      rw [rest.head, List.cons_append, head]
      rintro ⟨rfl⟩
      exact mark_ne List.mem_cons_self (m := '"') rfl (Char.toNat_inj.mp (code (by decide)))
    rw [if_neg Bool.false_ne_true, key, if_neg no_quote, rest.drop, taken]
    dsimp only
    rw [if_neg (by omega), rest.slice]
    rfl

end

end Write
end Smysl
