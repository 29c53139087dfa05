import Smysl.Core.QuoteSpan
import Smysl.Core.QuoteWords
import Smysl.Lib.Spans

/-!
A quote's verdict with its range. The two answers agree; a contiguous match is reported where
it is, and a loose one from its first word to its last.
-/
namespace Smysl
namespace Quote
open Utf8

theorem find_missing {pat cs : List Char} (missing : find pat cs = none) : ¬ pat <:+: cs := by
  induction cs with
  | nil =>
    rw [find] at missing
    split at missing
    · cases missing
    · rename_i some'
      intro inside
      exact some' (List.infix_nil.mp inside)
  | cons c cs ih =>
    rw [find] at missing
    split at missing
    · cases missing
    · rename_i other
      intro inside
      rcases List.infix_cons_iff.mp inside with here | later
      · exact other (List.isPrefixOf_iff_prefix.mpr here)
      · exact ih (Option.map_eq_none_iff.mp missing) later

theorem gap_text (st : State) : Blank (text st.gap) := by
  rw [State.gap]
  split
  · intro c mem
    obtain rfl : c = ' ' := by simpa using mem
    decide
  · exact .nil

section Verdicts
variable [Casing]

/-- What is promised of a verdict and its range. -/
structure Exact (n : Normaliser) (quote source : List Char) : Prop where
  verdict : (supportSpanWith n quote source).1 = supportWith n quote source
  present : ∀ range, supportSpanWith n quote source = (.present, range) →
    ∃ start stop mid, range = some (start, stop) ∧ stop ≤ width source ∧ Between source start ∧
      Between source stop ∧ slice start stop source = some mid ∧ form n mid = form n quote
  loose : ∀ range, supportSpanWith n quote source = (.loose, range) →
    ∃ front mid back lead run trail, source = front ++ mid ++ back ∧
      range = some (width front, width (front ++ mid)) ∧ Tight n mid ∧
      splitWhitespace (form n front) = lead ∧
      splitWhitespace (form n (front ++ mid)) = lead ++ run ∧
      splitWhitespace (form n source) = lead ++ run ++ trail ∧
      splitWhitespace (form n mid) = run ∧ Through (quoteWords (form n quote)) run ∧
      (quoteWords (form n quote)).Sublist (run.map bare)
  absent : ∀ range, supportSpanWith n quote source = (.absent, range) →
    form n quote = [] ∨ (¬ form n quote <:+: form n source ∧
      (quoteWords (form n quote) = [] ∨
        ¬ (quoteWords (form n quote)).Sublist ((splitWhitespace (form n source)).map bare)))

theorem mapped_out (n : Normaliser) (s : List Char) : (formMapped n s).out = form n s := by
  obtain ⟨_, out, _⟩ := mapped_cells n s
  rw [out, form_cells]

/-- A loose match, mapped back to the source. -/
theorem loose_exact {n : Normaliser} {quote source : List Char} {first last : Nat}
    (found : looseSpan (form n quote) (form n source) = some (first, last)) :
    ∃ front mid back lead run trail, source = front ++ mid ++ back ∧
      (formMapped n source).starts[first]? = some (width front) ∧
      (formMapped n source).ends[last]? = some (width (front ++ mid)) ∧ Tight n mid ∧
      splitWhitespace (form n front) = lead ∧
      splitWhitespace (form n (front ++ mid)) = lead ++ run ∧
      splitWhitespace (form n source) = lead ++ run ++ trail ∧
      splitWhitespace (form n mid) = run ∧ Through (quoteWords (form n quote)) run := by
  rw [looseSpan] at found
  cases asked : quoteWords (form n quote) with
  | nil => simp [asked] at found
  | cons w ws =>
    simp only [asked, List.isEmpty_cons, Bool.false_eq_true, if_false] at found
    obtain ⟨ps, h, hs, qs, hay, through, begins, ends⟩ := find_words_found found
    have words := words_from 0 (form n source)
    rw [show wordsFrom 0 none (form n source) = _ from hay] at words
    obtain ⟨pre, q, post, occurs, before, parted, apart, run, start, stop, ink, ink'⟩ :=
      words.stretch
    obtain ⟨front, mid, back, A, M, B, x, y, p, s, p', s', rfl, tight, formed, parts, own, upTo,
      ⟨R, parts'⟩, holds, more, holds', more', here, there, rest, opens, closes⟩ :=
      stretch ink ink' occurs
    have parts'' : cells n (.fresh 0) (front ++ mid ++ back) = A ++ x :: R := by
      rw [parts, List.append_assoc, parts']
    -- words begin and end where cells do
    obtain rfl : p = [] := by
      rcases cell_kinds (show x ∈ cells n (.fresh 0) (front ++ mid ++ back) by
        rw [parts'']; simp) with solid | space
      · rcases List.eq_nil_or_concat p with none' | ⟨init, k, same⟩
        · exact none'
        · rw [List.concat_eq_append] at same
          have blank := parted (text A ++ init) k (by rw [here, same, List.append_assoc])
          rw [solid.2 k (by rw [holds, same]; simp)] at blank
          cases blank
      · exact (List.append_eq_singleton_iff.mp (holds.symm.trans space)).elim (·.1) fun two =>
          absurd two.2 more
    obtain rfl : s' = [] := by
      rcases cell_kinds (show y ∈ cells n (.fresh 0) (front ++ mid ++ back) by
        rw [parts]; simp) with solid | space
      · cases s' with
        | nil => rfl
        | cons k s' =>
          have blank := apart k _ rest
          rw [solid.2 k (by rw [holds']; simp)] at blank
          cases blank
      · exact (List.append_eq_singleton_iff.mp (holds'.symm.trans space)).elim
          (fun one => absurd one.1 more') (·.2)
    rw [List.append_nil] at here holds'
    rw [List.nil_append, List.append_nil] at formed
    obtain ⟨sentinel, _, starts, stops⟩ := mapped_cells n (front ++ mid ++ back)
    have lead : splitWhitespace (form n front) = ps.map Prod.snd := by
      have place : pre = form n front ++ text ((State.fresh 0).run n front).gap := by
        rw [here, ← own, text_append, form_cells]
      have seen := (words_from 0 (form n front)).before_blank
        (gap_text ((State.fresh 0).run n front))
      rw [← place] at seen
      rw [splitWhitespace, wordPositions, ← seen.unique, before.unique]
    have upTo' : form n (front ++ mid) = pre ++ q := by
      rw [form_cells, upTo, ← List.append_assoc, text_append, text_cons, text_nil,
        List.append_nil, holds', there]
    refine ⟨front, mid, back, ps.map Prod.snd, (h :: hs).map Prod.snd, qs.map Prod.snd, rfl, ?_, ?_,
      tight, lead, ?_, ?_, ?_, through⟩
    · have at_ := @starts_at A R x [] sentinel (show width [] < width x.text by
        rw [holds]; exact width_pos more)
      rw [List.append_nil, ← here, opens] at at_
      rw [starts, parts'', begins, Option.getD_none, start, at_]
    · obtain ⟨z, mem⟩ : ∃ z, (h :: hs).getLast? = some z :=
        Option.ne_none_iff_exists'.mp (mt List.getLast?_eq_none_iff.mp (List.cons_ne_nil _ _))
      rw [stops, parts, ends z mem, stop z mem, there, ends_at more' (by rw [holds']), closes]
    · rw [upTo', (before.append parted (by rwa [Nat.zero_add])).texts, List.map_append]
    · rw [words.texts, List.map_append, List.map_append]
    · rw [formed, run.texts]

/-- The answer with its range, in the normal forms it is made from. -/
theorem support_span_form (n : Normaliser) (quote source : List Char) :
    supportSpanWith n quote source =
      if form n quote = [] then (.absent, none)
      else match find (form n quote) (form n source) with
        | some i => (.present, some ((formMapped n source).starts[i]?.getD (width source),
            (formMapped n source).ends[i + width (form n quote)]?.getD (width source)))
        | none => match looseSpan (form n quote) (form n source) with
          | some (first, last) => (.loose, some
              ((formMapped n source).starts[first]?.getD (width source),
                (formMapped n source).ends[last]?.getD (width source)))
          | none => (.absent, none) := by
  simp only [supportSpanWith, mapped_out, List.isEmpty_iff] <;> rfl

/-- A verdict and its range are exact, but for a contiguous match that begins or ends inside
what one character became. -/
theorem support_exact_iff (n : Normaliser) (quote source : List Char) :
    Exact n quote source ↔ ¬ Torn n quote source := by
  have span := support_span_form n quote source
  have plain : supportWith n quote source =
      if form n quote = [] then .absent
      else if (find (form n quote) (form n source)).isSome then .present
      else if (looseSpan (form n quote) (form n source)).isSome then .loose
      else .absent := by
    simp only [supportWith, wordsInOrder, List.isEmpty_iff] <;> rfl
  by_cases empty : form n quote = []
  · have absent : supportSpanWith n quote source = (.absent, none) := by rw [span, if_pos empty]
    have agrees : supportWith n quote source = .absent := by rw [plain, if_pos empty]
    constructor
    · -- nothing is found where nothing is looked for
      rintro _ ⟨i, A, x, B, a, b, found, _, _, left, _, place⟩
      have start : find [] (form n source) = some 0 := by
        cases form n source <;> simp [find]
      rw [empty] at found place
      cases start.symm.trans found
      have := width_pos left
      simp only [width_append, width_nil] at place
      omega
    · intro _
      refine ⟨by rw [absent, agrees], ?_, ?_, fun _ _ => Or.inl empty⟩
      · intro range same
        rw [absent] at same
        cases same
      · intro range same
        rw [absent] at same
        cases same
  · rw [if_neg empty] at span plain
    cases found : find (form n quote) (form n source) with
    | some i =>
      obtain ⟨front, mid, back, rfl, starts, ends, exact_⟩ := match_exact empty found
      rw [found] at span
      dsimp only at span
      rw [starts, ends, Option.getD_some, Option.getD_some] at span
      rw [found] at plain
      have agrees : supportWith n quote (front ++ mid ++ back) = .present := plain
      rw [← exact_]
      constructor
      · intro holds
        obtain ⟨start, stop, mid', same, _, _, _, cut, formed⟩ := holds.present _ span
        cases same
        rw [slice_mid] at cut
        cases cut
        exact formed
      · intro formed
        refine ⟨by rw [span, agrees], ?_, ?_, ?_⟩
        · intro range same
          rw [span] at same
          cases same
          exact ⟨_, _, mid, rfl, by simp only [width_append]; omega,
            ⟨front, mid ++ back, List.append_assoc _ _ _, rfl⟩, ⟨_, back, rfl, rfl⟩,
            slice_mid front mid back, formed⟩
        · intro range same
          rw [span] at same
          cases same
        · intro range same
          rw [span] at same
          cases same
    | none =>
      rw [found] at span plain
      have whole : ¬ Torn n quote source := by
        rintro ⟨i, _, _, _, _, _, found', _⟩
        rw [found] at found'
        cases found'
      refine iff_of_true ?_ whole
      cases loose : looseSpan (form n quote) (form n source) with
      | some range =>
        obtain ⟨first, last⟩ := range
        obtain ⟨front, mid, back, lead, run, trail, rfl, starts, ends, tight, seen⟩ :=
          loose_exact loose
        rw [loose] at span
        dsimp only at span
        rw [starts, ends, Option.getD_some, Option.getD_some] at span
        rw [loose] at plain
        have agrees : supportWith n quote (front ++ mid ++ back) = .loose := plain
        refine ⟨by rw [span, agrees], ?_, ?_, ?_⟩
        · intro range same
          rw [span] at same
          cases same
        · intro range same
          rw [span] at same
          cases same
          exact ⟨front, mid, back, lead, run, trail, rfl, rfl, tight, seen.1, seen.2.1, seen.2.2.1,
            seen.2.2.2.1, seen.2.2.2.2, seen.2.2.2.2.sublist⟩
        · intro range same
          rw [span] at same
          cases same
      | none =>
        rw [loose] at span
        rw [loose] at plain
        have agrees : supportWith n quote source = .absent := plain
        refine ⟨by rw [span, agrees], ?_, ?_, ?_⟩
        · intro range same
          rw [span] at same
          cases same
        · intro range same
          rw [span] at same
          cases same
        · intro range _
          refine Or.inr ⟨find_missing found, ?_⟩
          rw [looseSpan] at loose
          by_cases words : quoteWords (form n quote) = []
          · exact Or.inl words
          · rw [if_neg (by simpa using words)] at loose
            have missing := find_words_missing loose (Or.inr words)
            rw [splitWhitespace, List.map_map]
            exact Or.inr missing

end Verdicts

/-- Lower case where the dotted capital is the only one. -/
local instance plainCasing : Casing where
  toLowercase c := if c = 'İ' then ['i', '\u0307'] else [c]
  isAlphanumeric := Char.isAlphanum
  lower_dotted := if_pos rfl
  lower_single c other := ⟨c, if_neg other⟩
  lower_solid c inked d mem := by
    split at mem
    · rcases List.mem_cons.mp mem with rfl | mem
      · decide
      · obtain rfl := List.mem_singleton.mp mem
        simp [isWhitespace]
    · exact List.mem_singleton.mp mem ▸ inked

/-- One letter of the two that a sharp s becomes is reported at the sharp s. -/
theorem sharp_s : supportSpanWith .v2 ['s'] ['ß'] = (.present, some (0, 2)) ∧
    ¬ Exact .v2 ['s'] ['ß'] := by
  have span : supportSpanWith .v2 ['s'] ['ß'] = (.present, some (0, 2)) := by decide
  refine ⟨span, fun exact_ => ?_⟩
  obtain ⟨start, stop, mid, same, _, _, _, cut, formed⟩ := exact_.present _ span
  cases same
  obtain rfl : ['ß'] = mid := by
    have whole : slice 0 2 ['ß'] = some ['ß'] := by decide
    exact Option.some.inj (whole.symm.trans cut)
  exact absurd formed (by decide)

end Quote
end Smysl
