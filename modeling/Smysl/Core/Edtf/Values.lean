import Smysl.Core.Edtf.Dates

/-!
Date-times, intervals and whole values: the parser reads a value from its
spelling and, where it holds a year zero, also from those with a minus sign
before that year.
-/
namespace Smysl
open ByteString

namespace Edtf
open Smysl.Date

/-! Date-times. -/

theorem two_digits_iff {txt : Bytes} {n : Nat} :
    twoDigits txt = some n ↔ n < 100 ∧ txt = padded 2 n := by
  unfold twoDigits
  constructor
  · intro found
    split at found
    · rename_i shaped
      obtain ⟨bound, same⟩ := digits_of_value found
      rw [shaped.1] at bound same
      refine ⟨bound, ?_⟩
      rw [padded_two bound, same]
    · cases found
  · intro ⟨bound, text⟩
    rw [text, padded_two bound, if_pos ⟨digits_length _ _, digits_all⟩]
    exact value_of_digits bound

def Zone.Proper : Zone → Prop
  | .utc => True
  | .offset m => m.natAbs ≤ 23 * 60 + 59

def zoneText : Option Zone → Bytes
  | some z => z.text
  | none => []

theorem span_at {p : UInt8 → Bool} {l r : Bytes} {c : UInt8} (before : ∀ b ∈ l, p b = true)
    (stop : p c = false) : (l ++ c :: r).span p = (l, c :: r) := by
  rw [List.span_eq_takeWhile_dropWhile, List.takeWhile_append_of_pos before,
    List.dropWhile_append_of_pos before, List.takeWhile_cons, List.dropWhile_cons, stop]
  simp

theorem span_all {p : UInt8 → Bool} {l : Bytes} (all : ∀ b ∈ l, p b = true) :
    l.span p = (l, []) := by
  rw [List.span_eq_takeWhile_dropWhile, List.takeWhile_eq_self_iff.mpr all,
    List.dropWhile_eq_nil_iff.mpr all]

theorem span_parts {p : UInt8 → Bool} {l a r : Bytes} {c : UInt8} (parted : l.span p = (a, c :: r)) :
    l = a ++ c :: r ∧ p c = false := by
  rw [List.span_eq_takeWhile_dropWhile] at parted
  have before := congrArg Prod.fst parted
  have after := congrArg Prod.snd parted
  dsimp only at before after
  constructor
  · rw [← before, ← after, List.takeWhile_append_dropWhile]
  · have stop := List.head?_dropWhile_not p l
    rw [after] at stop
    exact stop

theorem sign_cases {b : UInt8} (sign : isSign b = true) : b = 0x2B ∨ b = 0x2D := by
  rw [isSign, Bool.or_eq_true, beq_iff_eq, beq_iff_eq] at sign
  exact sign

theorem split_zone_sound {whole t clock : Bytes} {zone : Option Zone}
    (run : splitZone whole t = .ok (clock, zone)) :
    t = clock ++ zoneText zone ∧ ∀ z, zone = some z → z.Proper := by
  unfold splitZone at run
  split at run
  · rename_i last
    cases run
    refine ⟨(List.dropLast_append_getLast? _ last).symm, fun z same => ?_⟩
    cases same
    trivial
  · split at run
    · cases run
      exact ⟨(List.append_nil _).symm, fun z none' => nomatch none'⟩
    · rename_i offset sign before parted
      obtain ⟨whole', stop⟩ := span_parts parted
      have text : t = before.reverse ++ sign :: offset.reverse := by
        rw [← List.reverse_reverse t, whole', List.reverse_append, List.reverse_cons,
          List.append_assoc]
        rfl
      dsimp only at run
      split at run
      · exact absurd run refused_not_ok
      · rename_i h m halves
        split at run
        · rename_i hour minute hours minutes
          obtain ⟨_, hourText⟩ := two_digits_iff.mp hours
          obtain ⟨_, minuteText⟩ := two_digits_iff.mp minutes
          split at run
          · exact absurd run refused_not_ok
          · rename_i fits
            split at run
            · exact absurd run refused_not_ok
            · rename_i zero
              cases run
              have off := (split_once_iff.mp halves).1
              have signed : sign = 0x2B ∨ sign = 0x2D := by
                apply sign_cases
                simpa using stop
              rcases signed with same | same
              · subst same
                refine ⟨?_, fun z same => ?_⟩
                · rw [text, off, hourText, minuteText, zoneText, Zone.text]
                  simp only [beq_self_eq_true, if_true]
                  have abs : ((hour : Int) * 60 + minute).natAbs = hour * 60 + minute := by omega
                  rw [if_neg (by omega), abs]
                  have high : (hour * 60 + minute) / 60 = hour := by omega
                  have low : (hour * 60 + minute) % 60 = minute := by omega
                  rw [high, low]
                · cases same
                  simp only [beq_self_eq_true, if_true, Zone.Proper]
                  omega
              · subst same
                have west : ((0x2D : UInt8) == 0x2B) = false := rfl
                simp only [west] at zero ⊢
                refine ⟨?_, fun z same => ?_⟩
                · rw [text, off, hourText, minuteText, zoneText, Zone.text]
                  have some' : hour * 60 + minute ≠ 0 := by
                    intro none'
                    exact zero ⟨none', rfl⟩
                  have abs : (-((hour : Int) * 60 + minute)).natAbs = hour * 60 + minute := by omega
                  rw [if_neg (show ¬ (false = true) by simp), if_pos (by omega), abs]
                  have high : (hour * 60 + minute) / 60 = hour := by omega
                  have low : (hour * 60 + minute) % 60 = minute := by omega
                  rw [high, low]
                · cases same
                  rw [if_neg (show ¬ (false = true) by simp), Zone.Proper]
                  omega
        · exact absurd run refused_not_ok

/-- A byte of a time of day. -/
def isClockByte (b : UInt8) : Bool := isAsciiDigit b || b == 0x3A

theorem clock_not_sign {b : UInt8} (clock : isClockByte b = true) : isSign b = false := by
  apply Bool.eq_false_of_not_eq_true
  intro sign
  rcases sign_cases sign with same | same
  · subst same
    revert clock
    decide
  · subst same
    revert clock
    decide

theorem padded_clock {n : Nat} (bound : n < 100) {b : UInt8} (mem : b ∈ padded 2 n) :
    isClockByte b = true := by
  rw [padded_two bound] at mem
  rw [isClockByte, digits_are_digits mem]
  rfl

/-- An offset without its sign. -/
theorem offset_clock {h m : Nat} (hours : h < 100) (minutes : m < 100) {b : UInt8}
    (mem : b ∈ padded 2 h ++ 0x3A :: padded 2 m) : isClockByte b = true := by
  rcases List.mem_append.mp mem with mem | mem
  · exact padded_clock hours mem
  · rcases List.mem_cons.mp mem with same | mem
    · rw [same]
      rfl
    · exact padded_clock minutes mem

theorem last_of_clock {t : Bytes} (all : ∀ b ∈ t, isClockByte b = true) :
    t.getLast? ≠ some 0x5A := by
  intro last
  have byte := all _ (List.mem_of_getLast? last)
  revert byte
  decide

theorem split_zone_complete {whole clock : Bytes} {zone : Option Zone}
    (plain : ∀ b ∈ clock, isClockByte b = true) (proper : ∀ z, zone = some z → z.Proper) :
    splitZone whole (clock ++ zoneText zone) = .ok (clock, zone) := by
  cases zone with
  | none =>
    rw [zoneText, List.append_nil, splitZone, if_neg (last_of_clock plain), span_all]
    intro b mem
    rw [clock_not_sign (plain b (List.mem_reverse.mp mem))]
    rfl
  | some zone =>
    cases zone with
    | utc =>
      rw [zoneText, Zone.text, splitZone, if_pos List.getLast?_concat, List.dropLast_concat]
    | offset m =>
      have bound : m.natAbs ≤ 23 * 60 + 59 := proper _ rfl
      have hours : m.natAbs / 60 < 100 := by omega
      have minutes : m.natAbs % 60 < 100 := by omega
      rw [zoneText, Zone.text]
      generalize signed : (if m < 0 then (0x2D : UInt8) else 0x2B) = sign
      generalize off : padded 2 (m.natAbs / 60) ++ 0x3A :: padded 2 (m.natAbs % 60) = offset
      have offPlain : ∀ b ∈ offset, isClockByte b = true := by
        intro b mem
        rw [← off] at mem
        exact offset_clock hours minutes mem
      have last : (clock ++ sign :: offset).getLast? ≠ some 0x5A := by
        have some' : offset ≠ [] := by
          rw [← off]
          simp
        rw [List.getLast?_append, List.getLast?_cons, Option.some_or]
        rw [List.getLast?_eq_some_getLast some', Option.getD_some]
        intro same
        have byte := offPlain _ (List.getLast_mem some')
        rw [Option.some.inj same] at byte
        revert byte
        decide
      have stop : isSign sign = true := by
        rw [← signed]
        split <;> rfl
      have parted : (clock ++ sign :: offset).reverse.span (fun b => !isSign b) =
          (offset.reverse, sign :: clock.reverse) := by
        rw [List.reverse_append, List.reverse_cons, List.append_assoc, List.singleton_append]
        apply span_at
        · intro b mem
          rw [clock_not_sign (offPlain b (List.mem_reverse.mp mem))]
          rfl
        · rw [stop]
          rfl
      have halves : splitOnce 0x3A offset =
          some (padded 2 (m.natAbs / 60), padded 2 (m.natAbs % 60)) := by
        apply split_once_iff.mpr
        refine ⟨off.symm, ?_⟩
        rw [padded_two hours]
        exact digits_lack (by decide)
      have hour := two_digits_iff.mpr ⟨hours, rfl⟩
      have minute := two_digits_iff.mpr ⟨minutes, rfl⟩
      have whole' : m.natAbs / 60 * 60 + m.natAbs % 60 = m.natAbs := Nat.div_add_mod' _ _
      rw [splitZone, if_neg last, parted]
      dsimp only
      rw [List.reverse_reverse, halves]
      dsimp only
      rw [hour, minute]
      dsimp only
      rw [if_neg (by omega)]
      by_cases west : m < 0
      · rw [if_pos west] at signed
        subst signed
        rw [if_neg (by
          intro zero
          omega), List.reverse_reverse]
        have value : -(((m.natAbs / 60 : Nat) : Int) * 60 + ((m.natAbs % 60 : Nat) : Int)) = m := by
          omega
        exact congrArg (fun v => Except.ok (clock, some (Zone.offset v))) value
      · rw [if_neg west] at signed
        subst signed
        rw [if_neg (by
          intro zero
          cases zero.2), List.reverse_reverse]
        have value : ((m.natAbs / 60 : Nat) : Int) * 60 + ((m.natAbs % 60 : Nat) : Int) = m := by
          omega
        exact congrArg (fun v => Except.ok (clock, some (Zone.offset v))) value

/-- A time of day. -/
def clockText (h m s : Nat) : Bytes := joinWith 0x3A [padded 2 h, padded 2 m, padded 2 s]

theorem clock_ok_iff {clock : Bytes} {h m s : Nat} :
    (splitAll 0x3A clock).map twoDigits = [some h, some m, some s] ↔
      (h < 100 ∧ m < 100 ∧ s < 100) ∧ clock = clockText h m s := by
  constructor
  · intro read
    have three := congrArg List.length read
    rw [List.length_map] at three
    obtain ⟨a, b, c, parts⟩ := List.length_eq_three.mp three
    rw [parts] at read
    obtain ⟨hour, rest⟩ := List.cons.inj read
    obtain ⟨minute, rest⟩ := List.cons.inj rest
    obtain ⟨second, _⟩ := List.cons.inj rest
    obtain ⟨hours, hourText⟩ := two_digits_iff.mp hour
    obtain ⟨minutes, minuteText⟩ := two_digits_iff.mp minute
    obtain ⟨seconds, secondText⟩ := two_digits_iff.mp second
    refine ⟨⟨hours, minutes, seconds⟩, ?_⟩
    rw [(split_all_iff.mp parts).2.2, hourText, minuteText, secondText, clockText]
  · intro ⟨⟨hours, minutes, seconds⟩, text⟩
    have parts : splitAll 0x3A clock = [padded 2 h, padded 2 m, padded 2 s] := by
      apply split_all_iff.mpr
      refine ⟨by simp, ?_, text⟩
      intro part mem
      rw [List.mem_cons, List.mem_cons, List.mem_singleton] at mem
      rcases mem with same | same | same
      · rw [same, padded_two hours]
        exact digits_lack (by decide)
      · rw [same, padded_two minutes]
        exact digits_lack (by decide)
      · rw [same, padded_two seconds]
        exact digits_lack (by decide)
    rw [parts, List.map_cons, List.map_cons, List.map_cons, List.map_nil,
      two_digits_iff.mpr ⟨hours, rfl⟩, two_digits_iff.mpr ⟨minutes, rfl⟩,
      two_digits_iff.mpr ⟨seconds, rfl⟩]

theorem clock_bytes {h m s : Nat} (hours : h < 100) (minutes : m < 100) (seconds : s < 100)
    {b : UInt8} (mem : b ∈ clockText h m s) : isClockByte b = true := by
  rcases join_bytes mem with same | ⟨part, inside, held⟩
  · rw [same]
    rfl
  · rw [List.mem_cons, List.mem_cons, List.mem_singleton] at inside
    rcases inside with same | same | same
    · rw [same] at held
      exact padded_clock hours held
    · rw [same] at held
      exact padded_clock minutes held
    · rw [same] at held
      exact padded_clock seconds held

/-- The date of a date-time. -/
structure DateTime.On (t : DateTime) (d : Date) : Prop where
  proper : d.Proper
  plain : d.year.long = false
  unmasked : d.year.unspecified = 0
  year : d.year.value = t.year
  month : d.month = some (.num t.month)
  day : d.day = some (.num t.day)
  bare : d.qualifier = none

/-- What the parts of a date-time the parser makes have to do with each other. -/
structure DateTime.Proper (t : DateTime) : Prop where
  date : ∃ d, t.On d
  hour : t.hour ≤ 23
  minute : t.minute ≤ 59
  second : t.second ≤ 59
  zone : ∀ z, t.zone = some z → z.Proper

/-- The time of a date-time. -/
def DateTime.timeText (t : DateTime) : Bytes :=
  clockText t.hour t.minute t.second ++ zoneText t.zone

theorem date_time_text {t : DateTime} {d : Date} (on : t.On d) :
    t.text = d.text ++ 0x54 :: t.timeText := by
  have year : d.year.digitsText = padded 4 t.year.natAbs := by
    rw [Year.digitsText, on.unmasked, on.year, Nat.sub_zero, List.take_length,
      List.replicate_zero, List.append_nil]
  rw [Date.text, year_text_plain on.plain, Date.restText, on.month, on.day, on.bare, year, on.year,
    DateTime.text, DateTime.restText, DateTime.timeText, clockText, minus]
  cases t.zone <;> simp [joinWith, Part.text, zoneText]

def DateTime.SignedZero (t : DateTime) (txt : Bytes) : Prop :=
  t.Proper ∧ t.year = 0 ∧ txt = 0x2D :: t.text

/-- The spellings a date-time is read from. -/
def DateTime.Spelt (t : DateTime) (txt : Bytes) : Prop :=
  t.Proper ∧ txt = t.text ∨ t.SignedZero txt

theorem date_time_spelt_iff {t : DateTime} {txt : Bytes} :
    t.Spelt txt ↔ t.Proper ∧ ∃ d on, t.On d ∧ d.Spelt on ∧ txt = on ++ 0x54 :: t.timeText := by
  constructor
  · intro spelt
    rcases spelt with ⟨proper, text⟩ | ⟨proper, zero, text⟩
    · obtain ⟨d, on⟩ := proper.date
      exact ⟨proper, d, d.text, on, Or.inl ⟨on.proper, rfl⟩, text.trans (date_time_text on)⟩
    · obtain ⟨d, on⟩ := proper.date
      refine ⟨proper, d, 0x2D :: d.text, on, Or.inr ⟨on.proper, on.plain, ?_, rfl⟩, ?_⟩
      · rw [on.year, zero]
      · rw [text, date_time_text on]
        rfl
  · intro ⟨proper, d, txt', on, spelt, text⟩
    rcases spelt with ⟨_, same⟩ | ⟨_, _, zero, same⟩
    · apply Or.inl
      rw [text, same, date_time_text on]
      exact ⟨proper, rfl⟩
    · apply Or.inr
      rw [text, same]
      refine ⟨proper, on.year.symm.trans zero, ?_⟩
      rw [date_time_text on]
      rfl

theorem date_time_ok_iff {txt : Bytes} {t : DateTime} :
    parseDateTime txt = .ok t ↔ t.Spelt txt := by
  rw [date_time_spelt_iff]
  unfold parseDateTime
  constructor
  · intro run
    split at run
    · exact absurd run refused_not_ok
    · rename_i dTxt tTxt halves
      obtain ⟨d, dated, run⟩ := res_bind_ok.mp run
      have spelt := date_ok_iff.mp dated
      dsimp only at run
      split at run
      · exact absurd run refused_not_ok
      · rename_i bare
        split at run
        · rename_i month day monthed dayed
          split at run
          · exact absurd run refused_not_ok
          · rename_i plain
            rw [not_or, not_not] at plain
            obtain ⟨⟨clock, zone⟩, zoned, run⟩ := res_bind_ok.mp run
            dsimp only at run
            split at run
            · rename_i hour minute second clocked
              split at run
              · exact absurd run refused_not_ok
              · rename_i fits
                cases run
                obtain ⟨time, zoneFits⟩ := split_zone_sound zoned
                have proper : d.Proper := by
                  rcases spelt with ⟨proper, _⟩ | ⟨proper, _⟩
                  · exact proper
                  · exact proper
                have on : DateTime.On ⟨d.year.value, month, day, hour, minute, second, zone⟩ d :=
                  ⟨proper, Bool.eq_false_of_not_eq_true plain.2, plain.1, rfl, monthed, dayed,
                    by simpa using bare⟩
                refine ⟨⟨⟨d, on⟩, by dsimp only; omega, by dsimp only; omega,
                  by dsimp only; omega, zoneFits⟩, d, dTxt, on, spelt, ?_⟩
                rw [(split_once_iff.mp halves).1, time, (clock_ok_iff.mp clocked).2]
                rfl
            · exact absurd run refused_not_ok
        · exact absurd run refused_not_ok
  · intro ⟨proper, d, dTxt, on, spelt, text⟩
    have halves : splitOnce 0x54 txt = some (dTxt, t.timeText) :=
      split_once_iff.mpr ⟨text, spelt_lacks spelt (by decide)⟩
    have hours := proper.hour
    have minutes := proper.minute
    have seconds := proper.second
    have zoned := @split_zone_complete txt (clockText t.hour t.minute t.second) t.zone
      (fun b mem => clock_bytes (by omega) (by omega) (by omega) mem) proper.zone
    have clocked := clock_ok_iff.mpr ⟨⟨show t.hour < 100 by omega, show t.minute < 100 by omega,
      show t.second < 100 by omega⟩, rfl⟩
    rw [halves]
    dsimp only
    rw [date_ok_iff.mpr spelt]
    dsimp only [bind, Except.bind]
    rw [on.bare, on.month, on.day]
    dsimp only
    rw [if_neg (by simp), if_neg (by rw [on.plain, on.unmasked]; simp), DateTime.timeText, zoned]
    dsimp only
    rw [clocked]
    dsimp only
    rw [if_neg (by omega), on.year]

/-! Intervals. -/

def End.SignedZero : End → Bytes → Prop
  | .date d, txt => d.SignedZero txt
  | _, _ => False

/-- The spellings an end is read from. -/
def End.Spelt : End → Bytes → Prop
  | .date d, txt => d.Spelt txt
  | .opened, txt => txt = [0x2E, 0x2E]
  | .unknown, txt => txt = []

theorem end_ok_iff {whole txt : Bytes} {e : End} : parseEnd whole txt = .ok e ↔ e.Spelt txt := by
  unfold parseEnd
  constructor
  · intro run
    split at run
    · rename_i none'
      cases run
      exact none'
    · split at run
      · rename_i dots
        cases run
        exact dots
      · split at run
        · exact absurd run refused_not_ok
        · obtain ⟨d, dated, made⟩ := res_map_ok.mp run
          cases made
          exact date_ok_iff.mp dated
  · intro spelt
    cases e with
    | date d =>
      change d.Spelt txt at spelt
      have dots : txt ≠ [0x2E, 0x2E] := by
        intro same
        exact spelt_lacks spelt (show isDateByte 0x2E = false by decide) (by rw [same]; simp)
      have time : ¬ txt.contains 0x54 = true := by
        intro held
        exact spelt_lacks spelt (show isDateByte 0x54 = false by decide)
          (List.contains_iff_mem.mp held)
      rw [if_neg (spelt_bytes spelt).1, if_neg dots, if_neg time, date_ok_iff.mpr spelt]
      rfl
    | opened =>
      change txt = _ at spelt
      subst spelt
      rfl
    | unknown =>
      change txt = _ at spelt
      subst spelt
      rfl

theorem end_lacks {e : End} {txt : Bytes} (spelt : e.Spelt txt) : 0x2F ∉ txt := by
  cases e with
  | date d => exact spelt_lacks spelt (by decide)
  | opened =>
    change txt = _ at spelt
    subst spelt
    decide
  | unknown =>
    change txt = _ at spelt
    subst spelt
    decide

/-! Whole values. -/

/-- A value spelled with a minus sign before a year zero. -/
def SignedZero : Edtf → Bytes → Prop
  | .date d, txt => d.SignedZero txt
  | .dateTime t, txt => t.SignedZero txt
  | .interval lo hi, txt => (lo.isDate || hi.isDate) = true ∧ ∃ a b, txt = a ++ 0x2F :: b ∧
      lo.Spelt a ∧ hi.Spelt b ∧ (lo.SignedZero a ∨ hi.SignedZero b)

/-- The spellings a value is read from. -/
def Spelt : Edtf → Bytes → Prop
  | .date d, txt => d.Spelt txt
  | .dateTime t, txt => t.Spelt txt
  | .interval lo hi, txt => (lo.isDate || hi.isDate) = true ∧ ∃ a b, txt = a ++ 0x2F :: b ∧
      lo.Spelt a ∧ hi.Spelt b

theorem time_lacks {t : DateTime} (proper : t.Proper) : 0x2F ∉ t.timeText := by
  have clock : ∀ {b : UInt8}, isClockByte b = true → b ≠ 0x2F := by
    intro b plain same
    subst same
    revert plain
    decide
  have hours := proper.hour
  have minutes := proper.minute
  have seconds := proper.second
  intro mem
  rcases List.mem_append.mp mem with mem | mem
  · exact clock (clock_bytes (by omega) (by omega) (by omega) mem) rfl
  · cases zone : t.zone with
    | none =>
      rw [zone] at mem
      cases mem
    | some z =>
      rw [zone] at mem
      cases z with
      | utc =>
        rw [zoneText, Zone.text] at mem
        revert mem
        decide
      | offset m =>
        have bound : m.natAbs ≤ 23 * 60 + 59 := proper.zone _ zone
        rw [zoneText, Zone.text, List.mem_cons] at mem
        rcases mem with same | mem
        · split at same <;> cases same
        · exact clock (offset_clock (by omega) (by omega) mem) rfl

theorem split_single {txt : Bytes} (lacks : 0x2F ∉ txt) : splitAll 0x2F txt = [txt] := by
  apply split_all_iff.mpr
  refine ⟨by simp, fun part mem => ?_, rfl⟩
  rw [List.mem_singleton.mp mem]
  exact lacks

theorem parse_single {txt : Bytes} (some' : txt ≠ []) (lacks : 0x2F ∉ txt) :
    parse txt = if txt.contains 0x54 then .dateTime <$> parseDateTime txt
      else .date <$> parseDate txt := by
  rw [parse, if_neg some', split_single lacks]

theorem parse_pair {lo hi : Bytes} (loLacks : 0x2F ∉ lo) (hiLacks : 0x2F ∉ hi) :
    parse (lo ++ 0x2F :: hi) = (do
      let low ← parseEnd (lo ++ 0x2F :: hi) lo
      let high ← parseEnd (lo ++ 0x2F :: hi) hi
      if low.isDate || high.isDate then .ok (.interval low high)
      else err (lo ++ 0x2F :: hi) "an interval needs a date at one end") := by
  have parts : splitAll 0x2F (lo ++ 0x2F :: hi) = [lo, hi] := by
    apply split_all_iff.mpr
    refine ⟨by simp, fun part mem => ?_, rfl⟩
    rw [List.mem_cons, List.mem_singleton] at mem
    rcases mem with same | same
    · rw [same]
      exact loLacks
    · rw [same]
      exact hiLacks
  rw [parse, if_neg (by simp), parts]

/-- The texts by the number of their slashes. -/
theorem slash_cases (txt : Bytes) :
    (0x2F ∉ txt) ∨ (∃ lo hi, txt = lo ++ 0x2F :: hi ∧ 0x2F ∉ lo ∧ 0x2F ∉ hi) ∨
      ∃ a b c rest, splitAll 0x2F txt = a :: b :: c :: rest := by
  match parts : splitAll 0x2F txt with
  | [] => exact absurd parts (split_all_ne_nil _ _)
  | [a] =>
    obtain ⟨_, lacks, text⟩ := split_all_iff.mp parts
    apply Or.inl
    rw [text]
    exact lacks a List.mem_cons_self
  | [a, b] =>
    obtain ⟨_, lacks, text⟩ := split_all_iff.mp parts
    exact Or.inr (Or.inl ⟨a, b, text, lacks a (by simp), lacks b (by simp)⟩)
  | a :: b :: c :: rest => exact Or.inr (Or.inr ⟨a, b, c, rest, rfl⟩)

theorem parse_many {txt a b c : Bytes} {rest : List Bytes}
    (parts : splitAll 0x2F txt = a :: b :: c :: rest) :
    parse txt = if txt = [] then err txt "the value is empty"
      else err txt "an interval has two ends, so one `/`" := by
  rw [parse, parts]

theorem parse_ok_iff {txt : Bytes} {v : Edtf} : parse txt = .ok v ↔ v.Spelt txt := by
  constructor
  · intro run
    rcases slash_cases txt with lacks | ⟨lo, hi, text, loLacks, hiLacks⟩ | ⟨a, b, c, rest, parts⟩
    · by_cases none' : txt = []
      · rw [none'] at run
        cases run
      · rw [parse_single none' lacks] at run
        split at run
        · obtain ⟨t, made, same⟩ := res_map_ok.mp run
          subst same
          exact date_time_ok_iff.mp made
        · obtain ⟨d, made, same⟩ := res_map_ok.mp run
          subst same
          exact date_ok_iff.mp made
    · rw [text, parse_pair loLacks hiLacks] at run
      obtain ⟨low, lowRead, run⟩ := res_bind_ok.mp run
      obtain ⟨high, highRead, run⟩ := res_bind_ok.mp run
      split at run
      · rename_i dated
        cases run
        exact ⟨dated, lo, hi, text, end_ok_iff.mp lowRead, end_ok_iff.mp highRead⟩
      · exact absurd run refused_not_ok
    · rw [parse_many parts] at run
      split at run
      · exact absurd run refused_not_ok
      · exact absurd run refused_not_ok
  · intro spelt
    cases v with
    | date d =>
      change d.Spelt txt at spelt
      have time : ¬ txt.contains 0x54 = true := by
        intro held
        exact spelt_lacks spelt (show isDateByte 0x54 = false by decide)
          (List.contains_iff_mem.mp held)
      rw [parse_single (spelt_bytes spelt).1 (spelt_lacks spelt (by decide)), if_neg time,
        date_ok_iff.mpr spelt]
      rfl
    | dateTime t =>
      change t.Spelt txt at spelt
      obtain ⟨proper, d, dTxt, on, dated, text⟩ := date_time_spelt_iff.mp spelt
      have some' : txt ≠ [] := by
        rw [text]
        simp
      have lacks : 0x2F ∉ txt := by
        rw [text, List.mem_append, List.mem_cons]
        intro mem
        rcases mem with mem | same | mem
        · exact spelt_lacks dated (by decide) mem
        · cases same
        · exact time_lacks proper mem
      have time : txt.contains 0x54 = true := by
        rw [List.contains_iff_mem, text]
        simp
      rw [parse_single some' lacks, if_pos time, date_time_ok_iff.mpr spelt]
      rfl
    | interval lo hi =>
      obtain ⟨dated, a, b, text, low, high⟩ := spelt
      rw [text, parse_pair (end_lacks low) (end_lacks high), end_ok_iff.mpr low]
      dsimp only [bind, Except.bind]
      rw [end_ok_iff.mpr high]
      dsimp only
      rw [if_pos dated]

end Edtf
end Smysl
