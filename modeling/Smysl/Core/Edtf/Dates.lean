import Smysl.Core.Edtf.Fields

/-!
The dates that are read: those whose fields go together, each from its spelling
and, when its year is zero, also from that with a minus sign before it.
-/
namespace Smysl
open ByteString

namespace Edtf
open Smysl.Date

theorem res_bind_ok {α β : Type} {x : Res α} {f : α → Res β} {b : β} :
    (x >>= f) = .ok b ↔ ∃ a, x = .ok a ∧ f a = .ok b := by
  cases x with
  | error e =>
    constructor
    · intro run
      cases run
    · intro ⟨a, run, _⟩
      cases run
  | ok a =>
    constructor
    · intro run
      exact ⟨a, rfl, run⟩
    · intro ⟨a', same, run⟩
      cases same
      exact run

theorem res_map_ok {α β : Type} {x : Res α} {f : α → β} {b : β} :
    (f <$> x) = .ok b ↔ ∃ a, x = .ok a ∧ f a = b := by
  cases x with
  | error e =>
    constructor
    · intro run
      cases run
    · intro ⟨a, run, _⟩
      cases run
  | ok a =>
    constructor
    · intro run
      cases run
      exact ⟨a, rfl, rfl⟩
    · intro ⟨a', same, made⟩
      cases same
      rw [← made]
      rfl

theorem refused_not_ok {α : Type} {found : Bytes} {why : String} {a : α} :
    (err found why : Res α) ≠ .ok a := by
  intro run
  cases run

/-! The bytes of a date. -/

/-- A byte of a date before its qualifier. -/
def isBodyByte (b : UInt8) : Bool := isAsciiDigit b || b == 0x58 || b == 0x2D || b == 0x59

def Qualifier.text : Option Qualifier → Bytes
  | some q => [q.asChar]
  | none => []

theorem from_char_of_body {b : UInt8} (body : isBodyByte b = true) :
    Qualifier.fromChar b = none := by
  unfold Qualifier.fromChar
  rw [if_neg, if_neg, if_neg]
  all_goals
    intro same
    subst same
    revert body
    decide

theorem from_char_iff {b : UInt8} {q : Qualifier} :
    Qualifier.fromChar b = some q ↔ b = q.asChar := by
  unfold Qualifier.fromChar
  constructor
  · intro found
    split at found
    · cases found
      assumption
    · split at found
      · cases found
        assumption
      · split at found
        · cases found
          assumption
        · cases found
  · intro same
    subst same
    cases q <;> rfl

theorem body_of_split {txt body : Bytes} {q : Option Qualifier} (split : bodyOf txt = (body, q)) :
    txt = body ++ Qualifier.text q := by
  unfold bodyOf at split
  cases last : txt.getLast? with
  | none =>
    rw [last] at split
    cases split
    rw [List.getLast?_eq_none_iff.mp last]
    rfl
  | some b =>
    rw [last] at split
    cases found : Qualifier.fromChar b with
    | none =>
      rw [Option.bind_some, found] at split
      cases split
      exact (List.append_nil _).symm
    | some q' =>
      rw [Option.bind_some, found] at split
      cases split
      rw [Qualifier.text, ← from_char_iff.mp found]
      exact (List.dropLast_append_getLast? b last).symm

theorem body_of_text {body : Bytes} (q : Option Qualifier)
    (plain : ∀ b ∈ body, isBodyByte b = true) : bodyOf (body ++ Qualifier.text q) = (body, q) := by
  unfold bodyOf
  cases q with
  | some q =>
    rw [Qualifier.text, List.getLast?_concat, Option.bind_some, from_char_iff.mpr rfl,
      List.dropLast_concat]
  | none =>
    rw [Qualifier.text, List.append_nil]
    cases last : body.getLast? with
    | none => rfl
    | some b => rw [Option.bind_some, from_char_of_body (plain b (List.mem_of_getLast? last))]

theorem part_bytes {p : Part} {which : Component} (fits : p.Fits which) {b : UInt8}
    (mem : b ∈ p.text) : isAsciiDigit b = true ∨ b = 0x58 := by
  cases p with
  | num n =>
    rw [Part.text, padded_two (takes_bound fits)] at mem
    exact Or.inl (digits_are_digits mem)
  | unspecified =>
    apply Or.inr
    simpa [Part.text] using mem

theorem digits_text_bytes {y : Year} (plain : y.long = false) {b : UInt8}
    (mem : b ∈ y.digitsText) : isAsciiDigit b = true ∨ b = 0x58 := by
  obtain ⟨n, _, _, _, text⟩ := digits_text_eq plain
  rw [text, List.mem_append] at mem
  rcases mem with mem | mem
  · exact Or.inl (digits_are_digits mem)
  · exact Or.inr (List.eq_of_mem_replicate mem)

theorem field_not {b c : UInt8} (field : isAsciiDigit b = true ∨ b = 0x58)
    (other : isAsciiDigit c = false) (notX : c ≠ 0x58) : b ≠ c := by
  rcases field with digit | mask
  · exact digit_not digit other
  · rw [mask]
    exact notX.symm

theorem field_body {b : UInt8} (field : isAsciiDigit b = true ∨ b = 0x58) :
    isBodyByte b = true := by
  rcases field with digit | mask
  · rw [isBodyByte, digit]
    rfl
  · rw [mask]
    rfl

/-! Dates. -/

/-- What the fields of a date the parser makes have to do with each other. -/
structure Date.Proper (d : Date) : Prop where
  alone : d.year.long = true → d.month = none ∧ d.day = none
  month : ∀ m, d.month = some m → m.Fits .month
  day : ∀ m, d.day = some m → m.Fits .day
  within : d.month = none → d.day = none
  season : seasonDay d.month d.day = false
  exists' : noSuchDay d.year d.month d.day = false

/-- The fields of a date that is no long year. -/
def Date.fields (d : Date) : List Bytes :=
  d.year.digitsText :: (d.month.map Part.text).toList ++ (d.day.map Part.text).toList

theorem opt_part_ok_iff {whole : Bytes} {which : Component} {o : Option Bytes} {p : Option Part} :
    optPart whole which o = .ok p ↔ o = p.map Part.text ∧ ∀ m, p = some m → m.Fits which := by
  cases o with
  | none =>
    rw [optPart]
    constructor
    · intro run
      cases run
      exact ⟨rfl, fun m none => nomatch none⟩
    · intro ⟨same, _⟩
      cases p with
      | none => rfl
      | some p => cases same
  | some txt =>
    rw [optPart, res_map_ok]
    constructor
    · intro ⟨m, run, made⟩
      cases made
      obtain ⟨text, fits⟩ := two_ok_iff.mp run
      refine ⟨congrArg some text, fun m same => ?_⟩
      cases same
      exact fits
    · intro ⟨same, fits⟩
      cases p with
      | none => cases same
      | some p => exact ⟨p, two_ok_iff.mpr ⟨Option.some.inj same, fits p rfl⟩, rfl⟩

theorem fields_eq_iff {d : Date} {fs : List Bytes} (within : d.month = none → d.day = none) :
    fs = d.fields ↔ fs ≠ [] ∧ fs.headD [] = d.year.digitsText ∧
      fs[1]? = d.month.map Part.text ∧ fs[2]? = d.day.map Part.text ∧ fs.length ≤ 3 := by
  obtain ⟨year, month, day, q⟩ := d
  dsimp only [Date.fields] at *
  constructor
  · intro same
    subst same
    cases month with
    | none => rw [within rfl]; simp
    | some m => cases day <;> simp
  · intro ⟨some', first, second, third, short⟩
    match fs with
    | [] => exact absurd rfl some'
    | [y] =>
      cases month with
      | some m => cases second
      | none =>
        rw [within rfl]
        change y = _ at first
        rw [first]
        rfl
    | [y, m] =>
      change y = _ at first
      cases month with
      | none => cases second
      | some m' =>
        cases day with
        | some d => cases third
        | none =>
          cases second
          rw [first]
          rfl
    | [y, m, d] =>
      change y = _ at first
      cases month with
      | none => cases second
      | some m' =>
        cases day with
        | none => cases third
        | some d' =>
          cases second
          cases third
          rw [first]
          rfl
    | y :: m :: d :: e :: rest =>
      simp only [List.length_cons] at short
      omega

theorem field_date_ok_iff {txt : Bytes} {neg : Bool} {fs : List Bytes} {q : Option Qualifier}
    {d : Date} (some' : fs ≠ []) :
    fieldDate txt neg fs q = .ok d ↔
      (d.year.long = false ∧ d.year.Signed neg) ∧ d.qualifier = q ∧ d.Proper ∧ fs = d.fields := by
  unfold fieldDate
  simp only [res_bind_ok, plain_year_ok_iff, opt_part_ok_iff]
  constructor
  · intro ⟨year, ⟨plain, text, signed⟩, month, ⟨monthText, monthFits⟩, day, ⟨dayText, dayFits⟩, run⟩
    split at run
    · exact absurd run refused_not_ok
    · rename_i short
      split at run
      · exact absurd run refused_not_ok
      · rename_i needs
        split at run
        · exact absurd run refused_not_ok
        · rename_i season
          split at run
          · exact absurd run refused_not_ok
          · rename_i exists'
            cases run
            have within : month = none → day = none := by
              intro none'
              subst none'
              simpa using needs
            refine ⟨⟨plain, signed⟩, rfl, ⟨?_, monthFits, dayFits, within, ?_, ?_⟩, ?_⟩
            · intro long
              rw [plain] at long
              cases long
            · exact Bool.eq_false_of_not_eq_true season
            · exact Bool.eq_false_of_not_eq_true exists'
            · exact (fields_eq_iff within).mpr ⟨some', text, monthText, dayText, by omega⟩
  · intro ⟨⟨plain, signed⟩, qualified, proper, fields⟩
    obtain ⟨_, first, second, third, short⟩ := (fields_eq_iff proper.within).mp fields
    refine ⟨d.year, ⟨plain, first, signed⟩, d.month, ⟨second, proper.month⟩, d.day,
      ⟨third, proper.day⟩, ?_⟩
    have needs : ¬ (d.day.isSome && d.month.isNone) = true := by
      intro both
      rw [Bool.and_eq_true] at both
      rw [proper.within (Option.isNone_iff_eq_none.mp both.2)] at both
      cases both.1
    rw [if_neg (by omega), if_neg needs, if_neg (by rw [proper.season]; simp),
      if_neg (by rw [proper.exists']; simp), ← qualified]

/-- A date spelled with a minus sign before a year zero. -/
def Date.SignedZero (d : Date) (txt : Bytes) : Prop :=
  d.Proper ∧ d.year.long = false ∧ d.year.value = 0 ∧ txt = 0x2D :: d.text

/-- The spellings a date is read from. -/
def Date.Spelt (d : Date) (txt : Bytes) : Prop := d.Proper ∧ txt = d.text ∨ d.SignedZero txt

theorem field_bytes {d : Date} (plain : d.year.long = false) (proper : d.Proper) :
    ∀ part ∈ d.fields, ∀ b ∈ part, isAsciiDigit b = true ∨ b = 0x58 := by
  intro part mem b held
  rw [Date.fields, List.mem_append, List.mem_cons] at mem
  rcases mem with (same | mem) | mem
  · rw [same] at held
    exact digits_text_bytes plain held
  · rw [Option.mem_toList, Option.map_eq_some_iff] at mem
    obtain ⟨m, month, same⟩ := mem
    rw [← same] at held
    exact part_bytes (proper.month m month) held
  · rw [Option.mem_toList, Option.map_eq_some_iff] at mem
    obtain ⟨m, day, same⟩ := mem
    rw [← same] at held
    exact part_bytes (proper.day m day) held

theorem join_bytes {c : UInt8} {parts : List Bytes} {b : UInt8} (mem : b ∈ joinWith c parts) :
    b = c ∨ ∃ part ∈ parts, b ∈ part := by
  induction parts with
  | nil => cases mem
  | cons p ps ih =>
    cases ps with
    | nil => exact Or.inr ⟨p, List.mem_cons_self, mem⟩
    | cons q qs =>
      rw [joinWith, List.mem_append, List.mem_cons] at mem
      · rcases mem with mem | same | mem
        · exact Or.inr ⟨p, List.mem_cons_self, mem⟩
        · exact Or.inl same
        · rcases ih mem with same | ⟨part, inside, held⟩
          · exact Or.inl same
          · exact Or.inr ⟨part, List.mem_cons_of_mem p inside, held⟩
      · intro none'
        cases none'

/-- A date without its sign and its qualifier. -/
def Date.unsigned (d : Date) : Bytes := joinWith 0x2D d.fields

theorem unsigned_eq {d : Date} (within : d.month = none → d.day = none) :
    d.year.digitsText ++ d.restText = d.unsigned ++ Qualifier.text d.qualifier := by
  obtain ⟨year, month, day, q⟩ := d
  dsimp only at within
  rw [Date.restText, Date.unsigned, Date.fields]
  dsimp only
  cases month with
  | none =>
    rw [within rfl]
    cases q <;> simp [joinWith, Qualifier.text]
  | some m =>
    cases day with
    | none => cases q <;> simp [joinWith, Qualifier.text]
    | some d => cases q <;> simp [joinWith, Qualifier.text]

theorem year_text_plain {y : Year} (plain : y.long = false) :
    y.text = minus (decide (y.value < 0)) ++ y.digitsText := by
  rw [Year.text, if_neg (by rw [plain]; simp), minus]
  simp only [decide_eq_true_eq]

/-- The spellings of a date that is no long year: its year's sign may be either
when the year is zero. -/
theorem spelt_plain_iff {d : Date} (plain : d.year.long = false) {txt : Bytes} :
    d.Spelt txt ↔ d.Proper ∧ ∃ neg, d.year.Signed neg ∧
      txt = minus neg ++ (d.unsigned ++ Qualifier.text d.qualifier) := by
  have spelled : d.Proper → d.text =
      minus (decide (d.year.value < 0)) ++ (d.unsigned ++ Qualifier.text d.qualifier) := by
    intro proper
    rw [Date.text, year_text_plain plain, List.append_assoc, unsigned_eq proper.within]
  constructor
  · intro spelt
    rcases spelt with ⟨proper, text⟩ | ⟨proper, _, zero, text⟩
    · refine ⟨proper, _, ?_, text.trans (spelled proper)⟩
      by_cases low : d.year.value < 0
      · rw [decide_eq_true low]
        exact le_of_lt low
      · rw [decide_eq_false low]
        exact not_lt.mp low
    · refine ⟨proper, true, le_of_eq zero, ?_⟩
      rw [text, spelled proper, decide_eq_false (by omega)]
      rfl
  · intro ⟨proper, neg, signed, text⟩
    cases neg with
    | false =>
      apply Or.inl
      have high : 0 ≤ d.year.value := signed
      rw [text, spelled proper, decide_eq_false (by omega)]
      exact ⟨proper, rfl⟩
    | true =>
      have low : d.year.value ≤ 0 := signed
      by_cases zero : d.year.value = 0
      · apply Or.inr
        refine ⟨proper, plain, zero, ?_⟩
        rw [text, spelled proper, decide_eq_false (by omega)]
        rfl
      · apply Or.inl
        rw [text, spelled proper, decide_eq_true (by omega)]
        exact ⟨proper, rfl⟩

theorem spelt_long_iff {d : Date} (long : d.year.long = true) {txt : Bytes} :
    d.Spelt txt ↔ d.month = none ∧ d.day = none ∧
      txt = d.year.text ++ Qualifier.text d.qualifier := by
  have spelled : d.month = none → d.day = none →
      d.text = d.year.text ++ Qualifier.text d.qualifier := by
    intro month day
    obtain ⟨year, month', day', q⟩ := d
    dsimp only at month day
    subst month
    subst day
    cases q <;> rfl
  constructor
  · intro spelt
    rcases spelt with ⟨proper, text⟩ | ⟨_, plain, _⟩
    · obtain ⟨month, day⟩ := proper.alone long
      exact ⟨month, day, text.trans (spelled month day)⟩
    · rw [long] at plain
      cases plain
  · intro ⟨month, day, text⟩
    refine Or.inl ⟨⟨fun _ => ⟨month, day⟩, ?_, ?_, fun _ => day, ?_, ?_⟩,
      text.trans (spelled month day).symm⟩
    · intro m same
      rw [month] at same
      cases same
    · intro m same
      rw [day] at same
      cases same
    · rw [month]
      rfl
    · rw [month]
      rfl

theorem unsigned_body {d : Date} (plain : d.year.long = false) (proper : d.Proper) {b : UInt8}
    (mem : b ∈ d.unsigned) : isBodyByte b = true := by
  rcases join_bytes mem with same | ⟨part, inside, held⟩
  · rw [same]
    rfl
  · exact field_body (field_bytes plain proper part inside b held)

theorem unsigned_head {d : Date} (plain : d.year.long = false) :
    ∃ b rest, d.unsigned = b :: rest ∧ (isAsciiDigit b = true ∨ b = 0x58) := by
  have len : d.year.digitsText.length = 4 := by
    obtain ⟨n, _, _, mask, text⟩ := digits_text_eq plain
    rw [text, List.length_append, digits_length, List.length_replicate]
    omega
  obtain ⟨b, bs, split⟩ := List.exists_cons_of_length_pos
    (show 0 < d.year.digitsText.length by omega)
  have field := digits_text_bytes plain (show b ∈ d.year.digitsText by rw [split]; simp)
  rw [Date.unsigned, Date.fields, List.cons_append, split]
  cases (d.month.map Part.text).toList ++ (d.day.map Part.text).toList with
  | nil => exact ⟨b, bs, rfl, field⟩
  | cons p ps => exact ⟨b, _, rfl, field⟩

theorem long_text_body {y : Year} (long : y.long = true) {b : UInt8} (mem : b ∈ y.text) :
    isBodyByte b = true := by
  rw [Year.text, if_pos long, List.mem_cons] at mem
  rcases mem with same | mem
  · rw [same]
    rfl
  · rcases y.valid with ⟨plain, _⟩ | ⟨_, _, _, _, beyond⟩
    · rw [long] at plain
      cases plain
    · obtain ⟨_, all, _, _⟩ := @padded_one_digits y.value.natAbs (by omega)
      rw [numberText, List.mem_append] at mem
      rcases mem with mem | mem
      · split at mem
        · rw [List.mem_singleton.mp mem]
          rfl
        · cases mem
      · exact field_body (Or.inl (List.all_eq_true.mp all b mem))

theorem date_ok_iff {txt : Bytes} {d : Date} : parseDate txt = .ok d ↔ d.Spelt txt := by
  unfold parseDate
  constructor
  · intro run
    rcases parts : bodyOf txt with ⟨body, q⟩
    rw [parts] at run
    have whole := body_of_split parts
    dsimp only at run
    split at run
    · rename_i lead
      cases body with
      | nil => cases lead
      | cons b body =>
        cases lead
        obtain ⟨year, made, run⟩ := res_bind_ok.mp run
        cases run
        obtain ⟨long, text⟩ := long_year_ok_iff.mp made
        exact (spelt_long_iff long).mpr ⟨rfl, rfl, by rw [whole, text]⟩
    · rcases signed : signOf body with ⟨neg, unsigned⟩
      rw [fieldsOf, signed] at run
      dsimp only at run
      obtain ⟨⟨plain, sign⟩, qualified, proper, fields⟩ :=
        (field_date_ok_iff (split_all_ne_nil _ _)).mp run
      refine (spelt_plain_iff plain).mpr ⟨proper, neg, sign, ?_⟩
      rw [whole, (sign_of_iff.mp signed).1, Date.unsigned, ← fields, qualified,
        ← (split_all_iff.mp rfl).2.2, List.append_assoc]
  · intro spelt
    cases long : d.year.long with
    | true =>
      obtain ⟨month, day, text⟩ := (spelt_long_iff long).mp spelt
      have body := body_of_text d.qualifier fun b mem => long_text_body long mem
      have lead : d.year.text.head? = some 0x59 := by
        rw [Year.text, if_pos long]
        rfl
      have made : longYear txt d.year.text = .ok d.year := by
        rw [Year.text, if_pos long]
        apply long_year_ok_iff.mpr
        rw [Year.text, if_pos long]
        exact ⟨long, rfl⟩
      rw [text] at made ⊢
      rw [body]
      dsimp only
      have same : (⟨d.year, none, none, d.qualifier⟩ : Date) = d := by
        obtain ⟨year, month', day', q⟩ := d
        dsimp only at month day ⊢
        rw [month, day]
      rw [if_pos lead, made]
      exact congrArg Except.ok same
    | false =>
      obtain ⟨proper, neg, sign, text⟩ := (spelt_plain_iff long).mp spelt
      obtain ⟨b, rest, head, field⟩ := unsigned_head long
      have body := @body_of_text (minus neg ++ d.unsigned) d.qualifier (by
        intro b mem
        rw [List.mem_append] at mem
        rcases mem with mem | mem
        · cases neg with
          | true =>
            rw [List.mem_singleton.mp mem]
            rfl
          | false => cases mem
        · exact unsigned_body long proper mem)
      have lead : (minus neg ++ d.unsigned).head? ≠ some 0x59 := by
        cases neg with
        | true =>
          intro same
          cases same
        | false =>
          rw [head]
          intro same
          cases same
          exact field_not field (by decide) (by decide) rfl
      have signed : signOf (minus neg ++ d.unsigned) = (neg, d.unsigned) := by
        apply sign_of_iff.mpr
        refine ⟨rfl, fun _ same => ?_⟩
        rw [head] at same
        cases same
        exact field_not field (by decide) (by decide) rfl
      have split : splitAll 0x2D d.unsigned = d.fields := by
        apply split_all_iff.mpr
        refine ⟨by rw [Date.fields]; simp, fun part mem held => ?_, rfl⟩
        exact field_not (field_bytes long proper part mem _ held) (by decide) (by decide) rfl
      rw [← List.append_assoc] at text
      rw [text, body]
      dsimp only
      rw [if_neg lead, fieldsOf, signed]
      dsimp only
      rw [split]
      exact (field_date_ok_iff (by rw [Date.fields]; simp)).mpr ⟨⟨long, sign⟩, rfl, proper, rfl⟩

/-- A byte of a date. -/
def isDateByte (b : UInt8) : Bool := isBodyByte b || (Qualifier.fromChar b).isSome

theorem qualifier_bytes {q : Option Qualifier} {b : UInt8} (mem : b ∈ Qualifier.text q) :
    isDateByte b = true := by
  cases q with
  | none => cases mem
  | some q =>
    rw [List.mem_singleton.mp mem]
    cases q <;> rfl

theorem spelt_bytes {d : Date} {txt : Bytes} (spelt : d.Spelt txt) :
    txt ≠ [] ∧ ∀ b ∈ txt, isDateByte b = true := by
  have body : ∀ {b : UInt8}, isBodyByte b = true → isDateByte b = true := by
    intro b plain
    rw [isDateByte, plain]
    rfl
  cases long : d.year.long with
  | true =>
    obtain ⟨_, _, text⟩ := (spelt_long_iff long).mp spelt
    subst text
    constructor
    · rw [Year.text, if_pos long]
      intro none'
      cases none'
    · intro b mem
      rcases List.mem_append.mp mem with mem | mem
      · exact body (long_text_body long mem)
      · exact qualifier_bytes mem
  | false =>
    obtain ⟨proper, neg, _, text⟩ := (spelt_plain_iff long).mp spelt
    obtain ⟨b, rest, head, _⟩ := unsigned_head long
    subst text
    constructor
    · rw [head]
      cases neg <;> simp [minus]
    · intro b mem
      rcases List.mem_append.mp mem with mem | mem
      · cases neg with
        | true =>
          rw [List.mem_singleton.mp mem]
          rfl
        | false => cases mem
      · rcases List.mem_append.mp mem with mem | mem
        · exact body (unsigned_body long proper mem)
        · exact qualifier_bytes mem

theorem spelt_lacks {d : Date} {txt : Bytes} (spelt : d.Spelt txt) {c : UInt8}
    (other : isDateByte c = false) : c ∉ txt := by
  intro mem
  rw [(spelt_bytes spelt).2 c mem] at other
  cases other

end Edtf
end Smysl
