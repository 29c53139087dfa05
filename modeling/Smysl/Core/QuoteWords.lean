import Smysl.Core.Quote

/-!
The words of a text: how they stand in it, and what the search for a quote's words among them
finds.
-/
namespace Smysl
namespace Quote
open Utf8

/-- All whitespace. -/
def Blank (s : List Char) : Prop := ∀ c ∈ s, isWhitespace c = true

/-- No whitespace. -/
def Inked (s : List Char) : Prop := ∀ c ∈ s, isWhitespace c = false

/-- Nothing, or whitespace first. -/
def Apart (s : List Char) : Prop := ∀ c rest, s = c :: rest → isWhitespace c = true

/-- Nothing, or whitespace last. -/
def Parted (s : List Char) : Prop := ∀ init c, s = init ++ [c] → isWhitespace c = true

/-- The words of a text that begins at an offset. -/
inductive Words : Nat → List Char → List (Nat × List Char) → Prop
  | blank {at_ : Nat} {s : List Char} (blank : Blank s) : Words at_ s []
  | word {at_ b : Nat} {gap w rest : List Char} {ps : List (Nat × List Char)}
      (blank : Blank gap) (filled : w ≠ []) (inked : Inked w) (start : b = at_ + width gap)
      (apart : Apart rest) (later : Words (b + width w) rest ps) :
      Words at_ (gap ++ w ++ rest) ((b, w) :: ps)

theorem Blank.nil : Blank [] := fun _ mem => absurd mem List.not_mem_nil

theorem Blank.apart {s : List Char} (blank : Blank s) : Apart s := by
  rintro c rest rfl
  exact blank c List.mem_cons_self

theorem Blank.parted {s : List Char} (blank : Blank s) : Parted s := by
  rintro init c rfl
  exact blank c (by simp)

/-- No text with ink at its end is followed by nothing but ends with whitespace. -/
theorem parted_rest {s w rest : List Char} (filled : w ≠ []) (inked : Inked w)
    (parted : Parted (s ++ w ++ rest)) : rest ≠ [] ∧ Parted rest := by
  have some' : rest ≠ [] := by
    rintro rfl
    rcases List.eq_nil_or_concat w with none' | ⟨init, c, same⟩
    · exact filled none'
    · rw [List.concat_eq_append] at same
      have space := parted (s ++ init) c (by rw [List.append_nil, same, List.append_assoc])
      rw [inked c (same ▸ by simp)] at space
      cases space
  refine ⟨some', ?_⟩
  rintro init c rfl
  exact parted (s ++ w ++ init) c (List.append_assoc _ _ _).symm

theorem apart_append {xs ys : List Char} (apart : Apart xs) (some' : xs ≠ []) :
    Apart (xs ++ ys) := by
  obtain ⟨c, rest, rfl⟩ := List.exists_cons_of_ne_nil some'
  rintro d more same
  obtain ⟨rfl, _⟩ := List.cons.inj same
  exact apart c rest rfl

theorem Blank.append {a b : List Char} (first : Blank a) (second : Blank b) : Blank (a ++ b) :=
  fun c mem => (List.mem_append.mp mem).elim (first c) (second c)

theorem Words.after_blank {at_ : Nat} {gap s : List Char} {ps : List (Nat × List Char)}
    (blank : Blank gap) (words : Words (at_ + width gap) s ps) : Words at_ (gap ++ s) ps := by
  cases words with
  | blank blank' => exact .blank (blank.append blank')
  | word blank' filled inked start apart later =>
    rw [← List.append_assoc, ← List.append_assoc]
    exact .word (blank.append blank') filled inked (by rw [start, width_append, Nat.add_assoc])
      apart later

theorem Words.append {at_ : Nat} {xs ys : List Char} {ps qs : List (Nat × List Char)}
    (first : Words at_ xs ps) (parted : Parted xs) (second : Words (at_ + width xs) ys qs) :
    Words at_ (xs ++ ys) (ps ++ qs) := by
  induction first with
  | blank blank => exact second.after_blank blank
  | @word at_ b gap w rest ps blank filled inked start apart later ih =>
    obtain ⟨some', parted'⟩ := parted_rest filled inked parted
    rw [List.append_assoc _ rest, List.cons_append]
    refine .word blank filled inked start (apart_append apart some') (ih parted' ?_)
    rw [width_append, width_append] at second
    rwa [start, Nat.add_assoc, Nat.add_assoc, ← Nat.add_assoc (width gap)]

/-- Whitespace at the end has no part in the words. -/
theorem Words.before_blank {at_ : Nat} {s gap : List Char} {ps : List (Nat × List Char)}
    (words : Words at_ s ps) (blank : Blank gap) : Words at_ (s ++ gap) ps := by
  induction words with
  | blank blank' => exact .blank (blank'.append blank)
  | @word at_ b inner w rest ps blank' filled inked start apart later ih =>
    rw [List.append_assoc _ rest]
    refine .word blank' filled inked start ?_ ih
    rintro c more same
    cases rest with
    | nil =>
      rw [List.nil_append] at same
      exact blank c (same ▸ List.mem_cons_self)
    | cons d rest =>
      obtain ⟨rfl, _⟩ := List.cons.inj same
      exact apart d rest rfl

/-- A word stands between what is before it and what is after. -/
theorem Words.split {at_ b : Nat} {s w : List Char} {ps qs : List (Nat × List Char)}
    (words : Words at_ s (ps ++ (b, w) :: qs)) : ∃ s₁ s₂, s = s₁ ++ w ++ s₂ ∧
      b = at_ + width s₁ ∧ w ≠ [] ∧ Inked w ∧ Words at_ s₁ ps ∧ Parted s₁ ∧ Apart s₂ ∧
      Words (b + width w) s₂ qs := by
  induction ps generalizing at_ s with
  | nil =>
    cases words with
    | @word _ _ gap _ rest _ blank filled inked start apart later =>
      exact ⟨gap, rest, rfl, start, filled, inked, .blank blank, blank.parted, apart, later⟩
  | cons p ps ih =>
    cases words with
    | @word _ b' gap v rest _ blank filled inked start apart later =>
      obtain ⟨s₁, s₂, rfl, start', filled', inked', before, parted, apart', after⟩ := ih later
      have some' : s₁ ≠ [] := by
        rintro rfl
        obtain ⟨c, more, rfl⟩ := List.exists_cons_of_ne_nil filled'
        have space := apart c (more ++ s₂) rfl
        rw [inked' c List.mem_cons_self] at space
        cases space
      refine ⟨gap ++ v ++ s₁, s₂, by simp only [List.append_assoc], ?_, filled', inked', ?_, ?_,
        apart', after⟩
      · rw [start', start, width_append, width_append]
        omega
      · refine .word blank filled inked start ?_ before
        rintro c more rfl
        exact apart c _ (by rw [List.append_assoc]; rfl)
      · intro init c same
        rcases List.eq_nil_or_concat s₁ with none' | ⟨front, d, same'⟩
        · exact absurd none' some'
        · rw [List.concat_eq_append] at same'
          rw [same', ← List.append_assoc] at same
          obtain ⟨_, last⟩ := List.append_inj' same rfl
          cases last
          exact parted front c same'

/-! The loop over the characters. -/

theorem words_from_nil (at_ : Nat) (start : Option (Nat × List Char)) :
    wordsFrom at_ start [] = start.toList := by
  cases start <;> rfl

theorem words_from_cons (at_ : Nat) (start : Option (Nat × List Char)) (c : Char)
    (cs : List Char) : wordsFrom at_ start (c :: cs) =
      match isWhitespace c, start with
      | false, none => wordsFrom (at_ + c.utf8Size) (some (at_, [c])) cs
      | false, some (b, w) => wordsFrom (at_ + c.utf8Size) (some (b, w ++ [c])) cs
      | true, some word => word :: wordsFrom (at_ + c.utf8Size) none cs
      | true, none => wordsFrom (at_ + c.utf8Size) none cs := by
  cases start <;> rfl

theorem words_from_begun (at_ b : Nat) (w s : List Char) : wordsFrom at_ (some (b, w)) s =
    (b, w ++ s.takeWhile fun c => !isWhitespace c) ::
      wordsFrom (at_ + width (s.takeWhile fun c => !isWhitespace c)) none
        (s.dropWhile fun c => !isWhitespace c) := by
  induction s generalizing at_ w with
  | nil =>
    rw [words_from_nil, List.takeWhile_nil, List.dropWhile_nil, words_from_nil, List.append_nil]
    rfl
  | cons c s ih =>
    cases space : isWhitespace c with
    | true => simp [words_from_cons, space]
    | false =>
      simp only [words_from_cons, space]
      rw [ih]
      simp [space, Nat.add_assoc]

/-- The loop finds the words. -/
theorem words_from (at_ : Nat) (s : List Char) : Words at_ s (wordsFrom at_ none s) := by
  induction long : s.length using Nat.strong_induction_on generalizing at_ s with
  | _ n ih =>
    cases s with
    | nil => exact .blank fun _ mem => absurd mem List.not_mem_nil
    | cons c s =>
      cases space : isWhitespace c with
      | true =>
        have blank : Blank [c] := fun d mem => by rw [List.mem_singleton.mp mem, space]
        have rest := ih s.length (by rw [← long]; simp) (at_ + c.utf8Size) s rfl
        simp only [words_from_cons, space]
        exact .after_blank blank (by rwa [width_cons, width_nil, Nat.add_zero])
      | false =>
        have parts : s = s.takeWhile (fun c => !isWhitespace c) ++
            s.dropWhile (fun c => !isWhitespace c) := List.takeWhile_append_dropWhile.symm
        have rest := ih (s.dropWhile fun c => !isWhitespace c).length
          (by
            have := (List.dropWhile_suffix (fun c => !isWhitespace c) (l := s)).length_le
            rw [← long, List.length_cons]
            omega)
          (at_ + c.utf8Size + width (s.takeWhile fun c => !isWhitespace c)) _ rfl
        simp only [words_from_cons, space]
        rw [words_from_begun]
        have inked : Inked ([c] ++ s.takeWhile fun c => !isWhitespace c) := by
          intro d mem
          rcases List.mem_append.mp mem with first | later
          · rw [List.mem_singleton.mp first, space]
          · simpa using List.mem_takeWhile_imp later
        have apart : Apart (s.dropWhile fun c => !isWhitespace c) := by
          intro d more same
          have := List.head?_dropWhile_not (fun c => !isWhitespace c) s
          rw [same] at this
          simpa using this
        have word := @Words.word at_ at_ [] _ _ _ .nil (by simp) inked (Nat.add_zero at_).symm apart
          (by rwa [width_append, width_cons, width_nil, Nat.add_zero, ← Nat.add_assoc])
        rwa [List.nil_append, List.append_assoc, ← parts] at word

theorem words_from_blank {gap : List Char} (blank : Blank gap) (at_ : Nat) (s : List Char) :
    wordsFrom at_ none (gap ++ s) = wordsFrom (at_ + width gap) none s := by
  induction gap generalizing at_ with
  | nil => rfl
  | cons c gap ih =>
    simp only [List.cons_append, words_from_cons, blank c List.mem_cons_self, width_cons,
      ← Nat.add_assoc]
    exact ih (fun d mem => blank d (List.mem_cons_of_mem _ mem)) _

/-- There is one way to see the words of a text. -/
theorem Words.unique {at_ : Nat} {s : List Char} {ps : List (Nat × List Char)}
    (words : Words at_ s ps) : wordsFrom at_ none s = ps := by
  induction words with
  | @blank at_ s blank =>
    have all := words_from_blank blank at_ []
    rwa [List.append_nil] at all
  | @word at_ b gap w rest ps blank filled inked start apart later ih =>
    obtain ⟨c, w, rfl⟩ := List.exists_cons_of_ne_nil filled
    have solid : ∀ d ∈ w, (!isWhitespace d) = true := fun d mem => by
      rw [inked d (List.mem_cons_of_mem _ mem)]
      rfl
    have stops : rest.takeWhile (fun c => !isWhitespace c) = [] ∧
        rest.dropWhile (fun c => !isWhitespace c) = rest := by
      cases rest with
      | nil => exact ⟨rfl, rfl⟩
      | cons d rest => simp [apart d rest rfl]
    have taken : (w ++ rest).takeWhile (fun c => !isWhitespace c) = w := by
      rw [List.takeWhile_append_of_pos solid, stops.1, List.append_nil]
    have left : (w ++ rest).dropWhile (fun c => !isWhitespace c) = rest := by
      rw [List.dropWhile_append_of_pos solid, stops.2]
    rw [List.append_assoc, words_from_blank blank, List.cons_append]
    simp only [words_from_cons, inked c List.mem_cons_self]
    rw [words_from_begun, taken, left, ← start, Nat.add_assoc, ← width_cons, ih]
    rfl

/-- The texts of the words do not depend on where the text begins. -/
theorem words_texts (a b : Nat) (s : List Char) {x y : Option (Nat × List Char)}
    (same : x.map Prod.snd = y.map Prod.snd) :
    (wordsFrom a x s).map Prod.snd = (wordsFrom b y s).map Prod.snd := by
  induction s generalizing a b x y with
  | nil =>
    rw [words_from_nil, words_from_nil]
    cases x with
    | none =>
      cases y with
      | none => rfl
      | some w => cases same
    | some v =>
      cases y with
      | none => cases same
      | some w => exact congrArg (· :: []) (Option.some.inj same)
  | cons c s ih =>
    cases x with
    | none =>
      cases y with
      | none =>
        cases space : isWhitespace c <;> simp only [words_from_cons, space]
        · exact ih _ _ rfl
        · exact ih _ _ rfl
      | some w => cases same
    | some v =>
      cases y with
      | none => cases same
      | some w =>
        obtain ⟨_, v⟩ := v
        obtain ⟨_, w⟩ := w
        cases same
        cases space : isWhitespace c <;> simp only [words_from_cons, space]
        · exact ih _ _ rfl
        · exact congrArg (v :: ·) (ih _ _ rfl)

theorem Words.texts {at_ : Nat} {s : List Char} {ps : List (Nat × List Char)}
    (words : Words at_ s ps) : splitWhitespace s = ps.map Prod.snd := by
  rw [splitWhitespace, wordPositions, words_texts 0 at_ s rfl, words.unique]

/-- Some words of a text, from the first of them to the last. -/
theorem Words.stretch {s : List Char} {ps qs : List (Nat × List Char)} {h : Nat × List Char}
    {hs : List (Nat × List Char)} (words : Words 0 s (ps ++ (h :: hs) ++ qs)) :
    ∃ s₁ s₂ s₃, s = s₁ ++ s₂ ++ s₃ ∧ Words 0 s₁ ps ∧ Parted s₁ ∧ Apart s₃ ∧
      Words (width s₁) s₂ (h :: hs) ∧ h.1 = width s₁ ∧
      (∀ z ∈ (h :: hs).getLast?, z.1 + width z.2 = width (s₁ ++ s₂)) ∧
      (∃ k rest, s₂ = k :: rest ∧ isWhitespace k = false) ∧
      ∃ init k, s₂ = init ++ [k] ∧ isWhitespace k = false := by
  have ink {w : List Char} (filled : w ≠ []) (inked : Inked w) :
      (∃ k rest, w = k :: rest ∧ isWhitespace k = false) ∧
        ∃ init k, w = init ++ [k] ∧ isWhitespace k = false := by
    constructor
    · obtain ⟨k, rest, rfl⟩ := List.exists_cons_of_ne_nil filled
      exact ⟨k, rest, rfl, inked k List.mem_cons_self⟩
    · rcases List.eq_nil_or_concat w with none' | ⟨init, k, same⟩
      · exact absurd none' filled
      · rw [List.concat_eq_append] at same
        exact ⟨init, k, same, inked k (same ▸ by simp)⟩
  obtain ⟨b, w⟩ := h
  rw [List.append_assoc, List.cons_append] at words
  obtain ⟨s₁, t, rfl, start, filled, inked, before, parted, apart, after⟩ := words.split
  rw [Nat.zero_add] at start
  rcases List.eq_nil_or_concat hs with rfl | ⟨between, ⟨b', w'⟩, rfl⟩
  · have alone := @Words.word (width s₁) b [] w [] [] .nil filled inked start
      (fun c rest none' => by cases none') (.blank .nil)
    rw [List.nil_append, List.append_nil] at alone
    refine ⟨s₁, w, t, rfl, before, parted, apart, alone, start, ?_, (ink filled inked).1,
      (ink filled inked).2⟩
    intro z last
    obtain rfl : (b, w) = z := by simpa using last
    rw [width_append, ← start]
  · rw [List.concat_eq_append, List.append_assoc, List.singleton_append] at after
    obtain ⟨t₁, s₃, rfl, start', filled', inked', inner, parted', apart', _⟩ := after.split
    have last := @Words.word b' b' [] w' [] [] .nil filled' inked' (Nat.add_zero b').symm
      (fun c rest none' => by cases none') (.blank .nil)
    rw [List.nil_append, List.append_nil, start'] at last
    have tail := inner.append parted' last
    have some' : t₁ ++ w' ≠ [] := by simp [filled']
    have whole := @Words.word (width s₁) b [] w (t₁ ++ w') _ .nil filled inked start
      (fun c rest same => apart c (rest ++ s₃) (by rw [← List.cons_append, ← same])) tail
    rw [List.nil_append] at whole
    refine ⟨s₁, w ++ (t₁ ++ w'), s₃, by simp only [List.append_assoc], before, parted, apart',
      ?_, start, ?_, ?_, ?_⟩
    · rw [List.concat_eq_append, start']
      exact whole
    · intro z last'
      rw [List.concat_eq_append, ← List.cons_append, List.getLast?_concat] at last'
      cases last'
      simp only [width_append] at start' ⊢
      omega
    · obtain ⟨⟨k, rest, rfl, solid⟩, _⟩ := ink filled inked
      exact ⟨k, rest ++ (t₁ ++ w'), rfl, solid⟩
    · obtain ⟨_, init, k, rfl, solid⟩ := ink filled' inked'
      exact ⟨w ++ (t₁ ++ init), k, by simp only [List.append_assoc], solid⟩

/-! The search. -/

section Search
variable [Casing]

/-- Some words are found, in order, among some words, the first of which is the first of them
and the last the last. -/
inductive Through : List (List Char) → List (List Char) → Prop
  | one {h : List Char} : Through [bare h] [h]
  | more {h : List Char} {ws gap run : List (List Char)} (later : Through ws run) :
      Through (bare h :: ws) (h :: (gap ++ run))

theorem Through.sublist {ws run : List (List Char)} (through : Through ws run) :
    ws.Sublist (run.map bare) := by
  induction through with
  | one => exact List.Sublist.refl _
  | @more h ws gap run _ ih =>
    rw [List.map_cons, List.map_append]
    exact (ih.trans (List.sublist_append_right _ _)).cons_cons _

/-- What is passed on the way to a word, and what is left. -/
theorem passed {hay : List (Nat × List Char)} {w : List Char} {p : Nat × List Char}
    {later : List (Nat × List Char)}
    (found : (hay.dropWhile fun h => bare h.2 != w) = p :: later) :
    ∃ front, hay = front ++ p :: later ∧ (∀ h ∈ front, bare h.2 ≠ w) ∧ bare p.2 = w := by
  refine ⟨hay.takeWhile fun h => bare h.2 != w, ?_, fun h mem => ?_, ?_⟩
  · rw [← found, List.takeWhile_append_dropWhile]
  · simpa using List.mem_takeWhile_imp mem
  · have stops := List.head?_dropWhile_not (fun h => bare h.2 != w) hay
    rw [found] at stops
    simpa using stops

theorem find_words_found {hay : List (Nat × List Char)} {first : Option Nat} {last f l : Nat}
    {w : List Char} {ws : List (List Char)}
    (found : findWords hay first last (w :: ws) = some (f, l)) :
    ∃ ps h hs qs, hay = ps ++ (h :: hs) ++ qs ∧ Through (w :: ws) ((h :: hs).map Prod.snd) ∧
      f = first.getD h.1 ∧ ∀ z ∈ (h :: hs).getLast?, l = z.1 + width z.2 := by
  induction ws generalizing hay first last w with
  | nil =>
    rw [findWords] at found
    split at found
    · cases found
    · rename_i start text later dropped
      obtain ⟨front, rfl, _, rfl⟩ := passed dropped
      cases found
      exact ⟨front, (start, text), [], later, by simp, .one, rfl, by rintro z ⟨rfl⟩; rfl⟩
  | cons v ws ih =>
    rw [findWords] at found
    split at found
    · cases found
    · rename_i start text later dropped
      obtain ⟨front, rfl, _, rfl⟩ := passed dropped
      obtain ⟨ps, h, hs, qs, rfl, through, rfl, ends⟩ := ih found
      refine ⟨front, (start, text), ps ++ (h :: hs), qs, by simp, ?_, rfl, fun z mem => ?_⟩
      · rw [List.map_cons, List.map_append]
        exact .more through
      · refine ends z ?_
        rwa [← List.cons_append, List.getLast?_append_of_ne_nil _ (List.cons_ne_nil _ _)] at mem

/-- Words that are not found are not there in order. -/
theorem find_words_missing {hay : List (Nat × List Char)} {first : Option Nat} {last : Nat}
    {ws : List (List Char)} (missing : findWords hay first last ws = none)
    (some' : first.isSome ∨ ws ≠ []) : ¬ ws.Sublist (hay.map fun h => bare h.2) := by
  induction ws generalizing hay first last with
  | nil =>
    rw [findWords] at missing
    rcases some' with begun | filled
    · obtain ⟨f, rfl⟩ := Option.isSome_iff_exists.mp begun
      cases missing
    · exact absurd rfl filled
  | cons w ws ih =>
    rw [findWords] at missing
    intro inside
    split at missing
    · rename_i none'
      obtain ⟨h, mem, same⟩ := List.mem_map.mp (inside.subset List.mem_cons_self)
      have other := List.dropWhile_eq_nil_iff.mp none' h mem
      exact absurd same (by simpa using other)
    · rename_i start text later dropped
      obtain ⟨front, rfl, other, rfl⟩ := passed dropped
      refine ih missing (Or.inl rfl) ?_
      rw [List.map_append, List.map_cons] at inside
      obtain ⟨xs, ys, parts, inFront, rest⟩ := List.sublist_append_iff.mp inside
      cases xs with
      | nil =>
        rw [List.nil_append] at parts
        subst parts
        exact List.cons_sublist_cons.mp rest
      | cons x xs =>
        obtain ⟨rfl, _⟩ := List.cons.inj parts
        obtain ⟨h, mem, same⟩ := List.mem_map.mp (inFront.subset List.mem_cons_self)
        exact absurd same (other h mem)

end Search

end Quote
end Smysl
