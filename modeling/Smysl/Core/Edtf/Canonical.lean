import Smysl.Core.Edtf.Values

/-!
Acceptance is canonical but for two things: a year zero with a minus sign is
accepted and printed without it, and a year field of four bytes is cut at the
number of its `X` bytes, which may be inside a character.
-/
namespace Smysl
open ByteString

namespace Edtf
open Smysl.Date

/-- The parser does not panic on the text, prints back what it reads from it, and
reads that back. -/
def AcceptsCanonically (txt : Bytes) : Prop :=
  parse txt ≠ .error .panicked ∧ ∀ v, parse txt = .ok v → v.text = txt ∧ parse v.text = .ok v

/-! Where the parser panics. -/

/-- A year field that is cut inside a character. -/
def CutYear (digits : Bytes) : Prop :=
  digits.length = 4 ∧ isCharBoundary digits (4 - maskOf digits) = false

/-- A date whose year is not a long one and is cut inside a character. -/
def CutDate (txt : Bytes) : Prop :=
  (bodyOf txt).1.head? ≠ some 0x59 ∧ CutYear ((fieldsOf (bodyOf txt).1).2.headD [])

def CutEnd (txt : Bytes) : Prop := 0x54 ∉ txt ∧ CutDate txt

/-- A text with a year that is cut inside a character. The second end of an interval
is looked at when the first is an end. -/
def Cut (txt : Bytes) : Prop :=
  match splitAll 0x2F txt with
  | [lo, hi] => CutEnd lo ∨ (∃ e : End, e.Spelt lo) ∧ CutEnd hi
  | _ :: _ :: _ => False
  | _ =>
    match splitOnce 0x54 txt with
    | some (dTxt, _) => CutDate dTxt
    | none => CutDate txt

theorem res_bind_panics {α β : Type} {x : Res α} {f : α → Res β} :
    (x >>= f) = .error .panicked ↔
      x = .error .panicked ∨ ∃ a, x = .ok a ∧ f a = .error .panicked := by
  cases x with
  | error e =>
    constructor
    · intro run
      cases run
      exact Or.inl rfl
    · intro either
      rcases either with run | ⟨a, run, _⟩
      · cases run
        rfl
      · cases run
  | ok a =>
    constructor
    · intro run
      exact Or.inr ⟨a, rfl, run⟩
    · intro either
      rcases either with run | ⟨a', same, run⟩
      · cases run
      · cases same
        exact run

theorem res_map_panics {α β : Type} {x : Res α} {f : α → β} :
    (f <$> x) = .error .panicked ↔ x = .error .panicked := by
  cases x with
  | error e =>
    constructor
    · intro run
      cases run
      rfl
    · intro run
      cases run
      rfl
  | ok a =>
    constructor
    · intro run
      cases run
    · intro run
      cases run

theorem refused_not_panicked {α : Type} {found : Bytes} {why : String} :
    (err found why : Res α) ≠ .error .panicked := by
  intro run
  cases run

theorem two_never_panics {whole txt : Bytes} {which : Component} :
    two whole txt which ≠ .error .panicked := by
  intro run
  unfold two at run
  split at run
  · cases run
  · split at run
    · exact refused_not_panicked run
    · split at run
      · exact refused_not_panicked run
      · split at run
        · cases run
        · exact refused_not_panicked run

theorem opt_part_never_panics {whole : Bytes} {which : Component} {o : Option Bytes} :
    optPart whole which o ≠ .error .panicked := by
  intro run
  cases o with
  | none => cases run
  | some txt => exact two_never_panics (res_map_panics.mp run)

theorem long_year_never_panics {whole txt : Bytes} : longYear whole txt ≠ .error .panicked := by
  intro run
  unfold longYear at run
  dsimp only at run
  unfold longDigits at run
  split at run
  · exact refused_not_panicked run
  · split at run
    · exact refused_not_panicked run
    · split at run
      · exact refused_not_panicked run
      · dsimp only at run
        generalize (if (signOf (txt.drop 1)).1 = true then -((_ : Nat) : Int) else _) = year at run
        split at run
        · exact refused_not_panicked run
        · split at run
          · cases run
          · exact refused_not_panicked run

theorem split_zone_never_panics {whole t : Bytes} : splitZone whole t ≠ .error .panicked := by
  intro run
  unfold splitZone at run
  split at run
  · cases run
  · split at run
    · cases run
    · dsimp only at run
      split at run
      · exact refused_not_panicked run
      · split at run
        · split at run
          · exact refused_not_panicked run
          · split at run
            · exact refused_not_panicked run
            · cases run
        · exact refused_not_panicked run

theorem plain_year_panics_iff {whole digits : Bytes} {neg : Bool} :
    plainYear whole neg digits = .error .panicked ↔ CutYear digits := by
  unfold plainYear
  by_cases four : digits.length = 4
  · rw [if_neg (not_not.mpr four)]
    dsimp only
    rw [res_bind_panics, splitAt, four]
    constructor
    · intro either
      rcases either with cut | ⟨⟨known, tail⟩, _, run⟩
      · split at cut
        · cases cut
        · rename_i inside
          exact ⟨four, Bool.eq_false_of_not_eq_true inside⟩
      · dsimp only at run
        split at run
        · exact absurd run refused_not_panicked
        · split at run
          · exact absurd run refused_not_panicked
          · split at run
            · exact absurd run refused_not_panicked
            · split at run
              · cases run
              · exact absurd run refused_not_panicked
    · intro cut
      apply Or.inl
      rw [cut.2]
      rfl
  · rw [if_pos four]
    constructor
    · intro run
      exact absurd run refused_not_panicked
    · intro cut
      exact absurd cut.1 four

theorem field_date_panics_iff {txt : Bytes} {neg : Bool} {fs : List Bytes}
    {q : Option Qualifier} :
    fieldDate txt neg fs q = .error .panicked ↔ CutYear (fs.headD []) := by
  unfold fieldDate
  rw [res_bind_panics, plain_year_panics_iff]
  constructor
  · intro either
    rcases either with cut | ⟨year, _, run⟩
    · exact cut
    · rcases res_bind_panics.mp run with run | ⟨month, _, run⟩
      · exact absurd run opt_part_never_panics
      · rcases res_bind_panics.mp run with run | ⟨day, _, run⟩
        · exact absurd run opt_part_never_panics
        · split at run
          · exact absurd run refused_not_panicked
          · split at run
            · exact absurd run refused_not_panicked
            · split at run
              · exact absurd run refused_not_panicked
              · split at run
                · exact absurd run refused_not_panicked
                · cases run
  · intro cut
    exact Or.inl cut

theorem date_panics_iff {txt : Bytes} : parseDate txt = .error .panicked ↔ CutDate txt := by
  unfold parseDate CutDate
  rcases bodyOf txt with ⟨body, q⟩
  dsimp only
  by_cases long : body.head? = some 0x59
  · rw [if_pos long, res_bind_panics]
    constructor
    · intro either
      rcases either with run | ⟨year, _, run⟩
      · exact absurd run long_year_never_panics
      · cases run
    · intro cut
      exact absurd long cut.1
  · rw [if_neg long]
    rcases fieldsOf body with ⟨neg, fs⟩
    dsimp only
    rw [field_date_panics_iff]
    exact ⟨fun cut => ⟨long, cut⟩, fun cut => cut.2⟩

theorem split_once_none {c : UInt8} {bs : Bytes} (found : splitOnce c bs = none) : c ∉ bs := by
  intro mem
  induction bs with
  | nil => cases mem
  | cons b bs ih =>
    rw [splitOnce] at found
    split at found
    · cases found
    · rename_i other
      rcases List.mem_cons.mp mem with same | mem
      · exact other same.symm
      · exact ih (Option.map_eq_none_iff.mp found) mem

theorem date_time_panics_iff {txt : Bytes} :
    parseDateTime txt = .error .panicked ↔ ∃ a b, splitOnce 0x54 txt = some (a, b) ∧ CutDate a := by
  unfold parseDateTime
  cases halves : splitOnce 0x54 txt with
  | none =>
    constructor
    · intro run
      exact absurd run refused_not_panicked
    · intro ⟨a, b, found, _⟩
      cases found
  | some parts =>
    obtain ⟨dTxt, tTxt⟩ := parts
    dsimp only
    rw [res_bind_panics, date_panics_iff]
    constructor
    · intro either
      rcases either with cut | ⟨d, _, run⟩
      · exact ⟨dTxt, tTxt, rfl, cut⟩
      · split at run
        · exact absurd run refused_not_panicked
        · split at run
          · split at run
            · exact absurd run refused_not_panicked
            · rcases res_bind_panics.mp run with run | ⟨⟨clock, zone⟩, _, run⟩
              · exact absurd run split_zone_never_panics
              · dsimp only at run
                split at run
                · split at run
                  · exact absurd run refused_not_panicked
                  · cases run
                · exact absurd run refused_not_panicked
          · exact absurd run refused_not_panicked
    · intro ⟨a, b, found, cut⟩
      cases found
      exact Or.inl cut

theorem end_panics_iff {whole txt : Bytes} :
    parseEnd whole txt = .error .panicked ↔ CutEnd txt := by
  unfold parseEnd CutEnd
  by_cases none' : txt = []
  · subst none'
    rw [if_pos rfl]
    constructor
    · intro run
      cases run
    · intro cut
      cases cut.2.2.1
  · rw [if_neg none']
    by_cases dots : txt = [0x2E, 0x2E]
    · subst dots
      rw [if_pos rfl]
      constructor
      · intro run
        cases run
      · intro cut
        cases cut.2.2.1
    · rw [if_neg dots, ← List.contains_iff_mem]
      by_cases time : txt.contains 0x54 = true
      · rw [if_pos time]
        constructor
        · intro run
          exact absurd run refused_not_panicked
        · intro cut
          exact absurd time cut.1
      · rw [if_neg time, res_map_panics, date_panics_iff]
        exact ⟨fun cut => ⟨time, cut⟩, fun cut => cut.2⟩

theorem single_panics_iff {txt : Bytes} (lacks : 0x2F ∉ txt) :
    parse txt = .error .panicked ↔ Cut txt := by
  by_cases none' : txt = []
  · subst none'
    constructor
    · intro run
      cases run
    · intro cut
      cases cut.2.1
  · rw [parse_single none' lacks, Cut, split_single lacks]
    dsimp only
    by_cases time : txt.contains 0x54 = true
    · rw [if_pos time, res_map_panics, date_time_panics_iff]
      cases halves : splitOnce 0x54 txt with
      | none => exact absurd (List.contains_iff_mem.mp time) (split_once_none halves)
      | some parts =>
        obtain ⟨dTxt, tTxt⟩ := parts
        constructor
        · intro ⟨a, b, found, cut⟩
          cases found
          exact cut
        · intro cut
          exact ⟨dTxt, tTxt, rfl, cut⟩
    · rw [if_neg time, res_map_panics, date_panics_iff]
      cases halves : splitOnce 0x54 txt with
      | none => exact Iff.rfl
      | some parts =>
        obtain ⟨dTxt, tTxt⟩ := parts
        refine absurd (List.contains_iff_mem.mpr ?_) time
        rw [(split_once_iff.mp halves).1]
        simp

theorem pair_panics_iff {lo hi : Bytes} (loLacks : 0x2F ∉ lo) (hiLacks : 0x2F ∉ hi) :
    parse (lo ++ 0x2F :: hi) = .error .panicked ↔
      CutEnd lo ∨ (∃ e : End, e.Spelt lo) ∧ CutEnd hi := by
  rw [parse_pair loLacks hiLacks, res_bind_panics, end_panics_iff]
  constructor
  · intro either
    rcases either with cut | ⟨low, read, run⟩
    · exact Or.inl cut
    · rcases res_bind_panics.mp run with run | ⟨high, _, run⟩
      · exact Or.inr ⟨⟨low, end_ok_iff.mp read⟩, end_panics_iff.mp run⟩
      · split at run
        · cases run
        · exact absurd run refused_not_panicked
  · intro either
    rcases either with cut | ⟨⟨low, spelt⟩, cut⟩
    · exact Or.inl cut
    · apply Or.inr
      refine ⟨low, end_ok_iff.mpr spelt, ?_⟩
      exact res_bind_panics.mpr (Or.inl (end_panics_iff.mpr cut))

theorem parse_panics_iff {txt : Bytes} : parse txt = .error .panicked ↔ Cut txt := by
  rcases slash_cases txt with lacks | ⟨lo, hi, text, loLacks, hiLacks⟩ | ⟨a, b, c, rest, parts⟩
  · exact single_panics_iff lacks
  · have parts : splitAll 0x2F txt = [lo, hi] := by
      apply split_all_iff.mpr
      refine ⟨by simp, fun part mem => ?_, text⟩
      rw [List.mem_cons, List.mem_singleton] at mem
      rcases mem with same | same
      · rw [same]
        exact loLacks
      · rw [same]
        exact hiLacks
    rw [Cut, parts, text]
    exact pair_panics_iff loLacks hiLacks
  · rw [parse_many parts, Cut, parts]
    constructor
    · intro run
      split at run
      · exact absurd run refused_not_panicked
      · exact absurd run refused_not_panicked
    · intro none'
      exact none'.elim

/-! Where a text is accepted that is not the value's spelling. -/

theorem Date.spelt_text {d : Date} {txt : Bytes} (spelt : d.Spelt txt) : d.Spelt d.text := by
  rcases spelt with ⟨proper, _⟩ | ⟨proper, _⟩
  · exact Or.inl ⟨proper, rfl⟩
  · exact Or.inl ⟨proper, rfl⟩

theorem End.spelt_text {e : End} {txt : Bytes} (spelt : e.Spelt txt) : e.Spelt e.text := by
  cases e with
  | date d => exact Date.spelt_text spelt
  | opened => rfl
  | unknown => rfl

theorem spelt_text {v : Edtf} {txt : Bytes} (spelt : v.Spelt txt) : v.Spelt v.text := by
  cases v with
  | date d => exact Date.spelt_text spelt
  | dateTime t =>
    rcases spelt with ⟨proper, _⟩ | ⟨proper, _⟩
    · exact Or.inl ⟨proper, rfl⟩
    · exact Or.inl ⟨proper, rfl⟩
  | interval lo hi =>
    obtain ⟨dated, a, b, _, low, high⟩ := spelt
    exact ⟨dated, lo.text, hi.text, rfl, End.spelt_text low, End.spelt_text high⟩

/-- An end is spelled as it is printed, or one byte longer. -/
theorem end_spelt_cases {e : End} {txt : Bytes} (spelt : e.Spelt txt) :
    txt = e.text ∨ e.SignedZero txt := by
  cases e with
  | date d =>
    rcases spelt with ⟨_, text⟩ | zero
    · exact Or.inl text
    · exact Or.inr zero
  | opened => exact Or.inl spelt
  | unknown => exact Or.inl spelt

theorem end_zero_length {e : End} {txt : Bytes} (zero : e.SignedZero txt) :
    txt.length = e.text.length + 1 := by
  cases e with
  | date d =>
    obtain ⟨_, _, _, text⟩ := zero
    rw [text]
    rfl
  | opened => exact zero.elim
  | unknown => exact zero.elim

theorem end_spelt_length {e : End} {txt : Bytes} (spelt : e.Spelt txt) :
    e.text.length ≤ txt.length := by
  rcases end_spelt_cases spelt with same | zero
  · rw [same]
  · have longer := end_zero_length zero
    omega

theorem spelt_cases {v : Edtf} {txt : Bytes} (spelt : v.Spelt txt) :
    v.text = txt ∨ v.SignedZero txt := by
  cases v with
  | date d =>
    rcases spelt with ⟨_, text⟩ | zero
    · exact Or.inl text.symm
    · exact Or.inr zero
  | dateTime t =>
    rcases spelt with ⟨_, text⟩ | zero
    · exact Or.inl text.symm
    · exact Or.inr zero
  | interval lo hi =>
    obtain ⟨dated, a, b, text, low, high⟩ := spelt
    rcases end_spelt_cases low with first | zero
    · rcases end_spelt_cases high with second | zero
      · apply Or.inl
        rw [text, first, second]
        rfl
      · exact Or.inr ⟨dated, a, b, text, low, high, Or.inr zero⟩
    · exact Or.inr ⟨dated, a, b, text, low, high, Or.inl zero⟩

theorem zero_spelt {v : Edtf} {txt : Bytes} (zero : v.SignedZero txt) : v.Spelt txt := by
  cases v with
  | date d => exact Or.inr zero
  | dateTime t => exact Or.inr zero
  | interval lo hi =>
    obtain ⟨dated, a, b, text, low, high, _⟩ := zero
    exact ⟨dated, a, b, text, low, high⟩

theorem text_interval_length {lo hi : End} :
    (Edtf.interval lo hi).text.length = lo.text.length + hi.text.length + 1 := by
  rw [text, List.length_append, List.length_cons]
  rfl

theorem zero_longer {v : Edtf} {txt : Bytes} (zero : v.SignedZero txt) :
    v.text.length < txt.length := by
  cases v with
  | date d =>
    obtain ⟨_, _, _, text⟩ := zero
    rw [text]
    exact Nat.lt_succ_self _
  | dateTime t =>
    obtain ⟨_, _, text⟩ := zero
    rw [text]
    exact Nat.lt_succ_self _
  | interval lo hi =>
    obtain ⟨_, a, b, text, low, high, either⟩ := zero
    have first := end_spelt_length low
    have second := end_spelt_length high
    rw [text, text_interval_length, List.length_append, List.length_cons]
    rcases either with zero | zero
    · have longer := end_zero_length zero
      omega
    · have longer := end_zero_length zero
      omega

/-- Every text is accepted only as the spelling of its value, and without a panic, just
when no year in it is cut inside a character and it gives no year zero a minus sign. -/
theorem parse_canonical_iff (s : String) :
    AcceptsCanonically (utf8 s) ↔
      ¬ Cut (utf8 s) ∧ ¬ ∃ v : Edtf, v.SignedZero (utf8 s) := by
  rw [AcceptsCanonically, ne_eq, parse_panics_iff]
  constructor
  · intro ⟨uncut, canonical⟩
    refine ⟨uncut, fun ⟨v, zero⟩ => ?_⟩
    obtain ⟨text, _⟩ := canonical v (parse_ok_iff.mpr (zero_spelt zero))
    have longer := zero_longer zero
    rw [text] at longer
    exact Nat.lt_irrefl _ longer
  · intro ⟨uncut, unsigned⟩
    refine ⟨uncut, fun v run => ?_⟩
    have spelt := parse_ok_iff.mp run
    rcases spelt_cases spelt with text | zero
    · exact ⟨text, parse_ok_iff.mpr (spelt_text spelt)⟩
    · exact absurd ⟨v, zero⟩ unsigned

/-- A year zero with a minus sign is read and printed without it, and a year field of an
`X` and a character of three bytes is cut inside the character. -/
theorem signed_zero_accepted_and_wide_year_panics :
    ¬ AcceptsCanonically (utf8 "-0000") ∧ ¬ AcceptsCanonically (utf8 "X€") := by
  constructor
  · intro ⟨_, canonical⟩
    have run : parse (utf8 "-0000") =
        .ok (.date ⟨⟨0, 0, false, by decide⟩, none, none, none⟩) := by decide +kernel
    obtain ⟨text, _⟩ := canonical _ run
    revert text
    decide +kernel
  · intro ⟨quiet, _⟩
    apply quiet
    decide +kernel

end Edtf
end Smysl
