import Smysl.Ingest.Chunk

/-!
The pieces an input is broken into are laid on it, and which of them are within the budget.
-/
namespace Smysl
namespace Chunking
open Utf8

/-! Counting. -/

theorem tokens_within {text : List Char} {budget : Nat} (small : width text < 2 ^ 32) :
    tokens text ≤ budget ↔ width text ≤ 4 * budget := by
  rw [tokens, Nat.mod_eq_of_lt small]
  omega

theorem tokens_over {text : List Char} {budget : Nat} (small : width text < 2 ^ 32) :
    tokens text > budget ↔ 4 * budget < width text := by
  rw [gt_iff_lt, ← not_le, tokens_within small, not_le]

theorem per_over {text : List Char} {budget : Nat} (some_ : 0 < budget)
    (over_ : tokens text > budget) : per budget = 4 * budget := by
  have most : tokens text ≤ 2 ^ 30 := by
    have := Nat.mod_lt (width text) (show 0 < 2 ^ 32 by norm_num)
    rw [tokens]
    omega
  rw [per]
  omega

/-! Trimming. -/

theorem trim_end_parts (cs : List Char) :
    ∃ blank, solid isWhitespace blank = [] ∧ cs = trimEnd cs ++ blank :=
  ⟨cs.rtakeWhile isWhitespace, solid_empty.mpr fun _ mem => List.mem_rtakeWhile_imp mem,
    List.rdropWhile_append_rtakeWhile.symm⟩

theorem solid_trim_end (cs : List Char) :
    solid isWhitespace (trimEnd cs) = solid isWhitespace cs := by
  obtain ⟨blank, empty, parts⟩ := trim_end_parts cs
  have same := congrArg (solid isWhitespace) parts
  rw [solid_append, empty, List.append_nil] at same
  exact same.symm

theorem trim_parts (cs : List Char) :
    ∃ front back, solid isWhitespace front = [] ∧ solid isWhitespace back = [] ∧
      cs = front ++ (trim cs ++ back) := by
  obtain ⟨back, empty, parts⟩ := trim_end_parts (trimStart cs)
  refine ⟨cs.takeWhile isWhitespace, back,
    solid_empty.mpr fun _ mem => List.mem_takeWhile_imp mem, empty, ?_⟩
  rw [trim, ← parts, trimStart, List.takeWhile_append_dropWhile]

/-- What trimming leaves begins with no whitespace. -/
theorem trim_head {cs rest : List Char} {c : Char} (left : trim cs = c :: rest) :
    isWhitespace c = false := by
  have first : ∃ tail, trimStart cs = c :: tail := by
    obtain ⟨back, -, parts⟩ := trim_end_parts (trimStart cs)
    exact ⟨rest ++ back, by rw [parts, ← trim, left, List.cons_append]⟩
  obtain ⟨tail, first⟩ := first
  have := List.head?_dropWhile_not isWhitespace cs
  rw [← trimStart, first] at this
  simpa using this

/-! Splitting at blank lines and at line feeds. -/

theorem split_blank_filled (cs : List Char) : splitBlank cs ≠ [] := by
  induction cs using splitBlank.induct with
  | case1 => simp [splitBlank]
  | case2 c => simp [splitBlank]
  | case3 c d rest feeds ih => simp [splitBlank, feeds]
  | case4 c d rest other ih =>
    rw [splitBlank, if_neg other]
    simpa [List.modifyHead_eq_nil_iff] using ih

theorem split_blank_joins (cs : List Char) : blankLine.intercalate (splitBlank cs) = cs := by
  induction cs using splitBlank.induct with
  | case1 => simp [splitBlank]
  | case2 c => simp [splitBlank]
  | case3 c d rest feeds ih =>
    rw [splitBlank, if_pos feeds, List.intercalate_cons_of_ne_nil (split_blank_filled rest), ih,
      feeds.1, feeds.2]
    rfl
  | case4 c d rest other ih =>
    rw [splitBlank, if_neg other]
    obtain ⟨raw, raws, same⟩ := List.exists_cons_of_ne_nil (split_blank_filled (d :: rest))
    rw [same] at ih ⊢
    rw [List.modifyHead_cons, List.intercalate_cons_cons_left, ih]

theorem split_inclusive_joins (cs : List Char) : (splitInclusive cs).flatten = cs := by
  induction cs with
  | nil => rfl
  | cons c rest ih =>
    rw [splitInclusive]
    split
    · rw [List.flatten_cons, ih, List.singleton_append]
    · split
      · rename_i none
        rw [none] at ih
        simp [← ih]
      · rename_i line lines parts
        rw [parts] at ih
        rw [List.flatten_cons, List.cons_append, ← List.flatten_cons, ih]

theorem split_inclusive_filled {cs line : List Char} (mem : line ∈ splitInclusive cs) :
    line ≠ [] := by
  induction cs generalizing line with
  | nil => cases mem
  | cons c rest ih =>
    rw [splitInclusive] at mem
    split at mem
    · rcases List.mem_cons.mp mem with rfl | mem
      · simp
      · exact ih mem
    · split at mem
      · rw [List.mem_singleton] at mem
        simp [mem]
      · rename_i first lines parts
        rcases List.mem_cons.mp mem with rfl | mem
        · simp
        · exact ih (parts ▸ List.mem_cons_of_mem _ mem)

/-! Cutting a line. -/

theorem cut_parts (n : Nat) (cs : List Char) : (cut n cs).1 ++ (cut n cs).2 = cs := by
  induction n, cs using cut.induct with
  | case1 cs => simp [cut]
  | case2 n => simp [cut]
  | case3 n c cs ih => simp [cut, ih]

/-- A cut takes the bytes it is to take, where there are so many. -/
theorem cut_reaches (n : Nat) (cs : List Char) : n ≤ width (cut n cs).1 ∨ (cut n cs).2 = [] := by
  induction n, cs using cut.induct with
  | case1 cs => exact .inl (Nat.zero_le _)
  | case2 n => exact .inr rfl
  | case3 n c cs ih =>
    rcases ih with long | done
    · refine .inl ?_
      rw [cut, Prod.map_fst, width_cons]
      omega
    · exact .inr done

/-- A cut takes no more where there is a place between characters. -/
theorem cut_within (n : Nat) (cs : List Char) :
    width (cut n cs).1 ≤ n ↔ (n ≤ width cs → Between cs n) := by
  induction n, cs using cut.induct with
  | case1 cs => exact ⟨fun _ _ => between_start cs, fun _ => by simp [cut]⟩
  | case2 n => exact ⟨fun _ less => absurd less (by simp), fun _ => Nat.zero_le _⟩
  | case3 n c cs ih =>
    rw [cut, Prod.map_fst, width_cons, width_cons, between_cons]
    constructor
    · intro within least
      exact ⟨by omega, ih.mp (by omega) (by omega)⟩
    · intro between
      by_cases short : n + 1 ≤ c.utf8Size + width cs
      · obtain ⟨fits, later⟩ := between short
        have := ih.mpr fun _ => later
        omega
      · have := ih.mpr fun least => absurd least (by omega)
        omega

/-- Every multiple of a number of bytes in a line is between characters. -/
def Even (per : Nat) (line : List Char) : Prop :=
  ∀ i, i * per ≤ width line → Between line (i * per)

theorem cut_filled {per : Nat} (some_ : 0 < per) (c : Char) (cs : List Char) :
    (cut per (c :: cs)).1 ≠ [] := by
  obtain ⟨n, rfl⟩ : ∃ n, per = n + 1 := ⟨per - 1, by omega⟩
  simp [cut]

theorem cut_line_laid {per : Nat} (some_ : 0 < per) (steps at_ : Nat) (line : List Char)
    (enough : line.length ≤ steps) :
    Laid isWhitespace at_ line (cutLine per steps at_ line) := by
  induction steps generalizing at_ line with
  | zero =>
    rw [List.length_eq_zero_iff.mp (by omega : line.length = 0)]
    exact .bare rfl
  | succ steps ih =>
    cases line with
    | nil => exact .bare rfl
    | cons c rest =>
      have filled := cut_filled some_ c rest
      have parts := cut_parts per (c :: rest)
      rw [cutLine]
      generalize cut per (c :: rest) = two at filled parts
      obtain ⟨piece, tail⟩ := two
      have shorter : tail.length ≤ steps := by
        have := congrArg List.length parts
        have := List.length_pos_iff.mpr filled
        simp only [List.length_append, List.length_cons] at *
        omega
      rw [← parts]
      exact (Laid.whole filled rfl).append (ih _ tail shorter)

theorem even_cut {per : Nat} (c : Char) (cs : List Char) :
    Even per (c :: cs) ↔ width (cut per (c :: cs)).1 ≤ per ∧ Even per (cut per (c :: cs)).2 := by
  have parts := cut_parts per (c :: cs)
  have reaches := cut_reaches per (c :: cs)
  have within := cut_within per (c :: cs)
  have more (i : Nat) : (i + 1) * per = per + i * per := by rw [Nat.succ_mul, Nat.add_comm]
  generalize cut per (c :: cs) = two at parts reaches within
  obtain ⟨piece, tail⟩ := two
  dsimp only at parts reaches within ⊢
  have whole := congrArg width parts
  rw [width_append] at whole
  constructor
  · intro even
    have first : width piece ≤ per := within.mpr (by simpa using even 1)
    refine ⟨first, fun i least => ?_⟩
    rcases reaches with long | rfl
    · have same : width piece = per := by omega
      have between := even (i + 1) (by rw [more]; omega)
      rw [← parts, more, show per + i * per = width piece + i * per by rw [same]] at between
      exact between_append.mp between
    · rw [width_nil] at least
      rw [show i * per = 0 by omega]
      exact between_start _
  · rintro ⟨first, even⟩ i least
    cases i with
    | zero => simpa using between_start _
    | succ i =>
      rw [more] at least ⊢
      rcases reaches with long | rfl
      · have same : width piece = per := by omega
        rw [← parts, show per + i * per = width piece + i * per by rw [same]]
        exact between_append.mpr (even i (by omega))
      · rw [width_nil] at whole
        have same : width piece = per := by omega
        rw [show per + i * per = width (c :: cs) by omega]
        exact between_end _

theorem cut_line_within {per : Nat} (some_ : 0 < per) (steps at_ : Nat) (line : List Char)
    (enough : line.length ≤ steps) :
    (∀ p ∈ cutLine per steps at_ line, width p.text ≤ per) ↔ Even per line := by
  induction steps generalizing at_ line with
  | zero =>
    rw [List.length_eq_zero_iff.mp (by omega : line.length = 0)]
    refine ⟨fun _ i least => ?_, fun _ p mem => by cases mem⟩
    rw [Nat.le_zero.mp least]
    exact between_start []
  | succ steps ih =>
    cases line with
    | nil =>
      refine ⟨fun _ i least => ?_, fun _ p mem => by cases mem⟩
      rw [Nat.le_zero.mp least]
      exact between_start []
    | cons c rest =>
      have shorter : (cut per (c :: rest)).2.length ≤ steps := by
        have := congrArg List.length (cut_parts per (c :: rest))
        have := List.length_pos_iff.mpr (cut_filled some_ c rest)
        simp only [List.length_append, List.length_cons] at *
        omega
      rw [even_cut, cutLine, List.forall_mem_cons, ih _ _ shorter]

/-! Splitting a paragraph over the budget. -/

/-- Where a splitting is after some of a paragraph: what it has put out is laid on what came
before the lines it holds back, and these are within the budget. -/
structure Splitting.Laid (budget start : Nat) (done : List Char) (s : Splitting) : Prop where
  laid : Utf8.Laid isWhitespace start done s.out
  bufStart : s.bufStart = start + width done
  cursor : s.cursor = start + width done + width s.buf
  within : width s.buf ≤ 4 * budget

/-- What is held back may be put out. -/
theorem Splitting.Laid.flush {budget start : Nat} {done : List Char} {s : Splitting}
    (laid : s.Laid budget start done) (filled : s.buf ≠ []) :
    Utf8.Laid isWhitespace start (done ++ s.buf) s.flushed := by
  rw [flushed, laid.bufStart, laid.cursor]
  exact laid.laid.append (.whole filled (solid_trim_end s.buf))

theorem trim_end_width (cs : List Char) : width (trimEnd cs) ≤ width cs := by
  obtain ⟨blank, -, parts⟩ := trim_end_parts cs
  have := congrArg width parts
  rw [width_append] at this
  omega

theorem flushed_within {budget : Nat} {s : Splitting} (within : width s.buf ≤ 4 * budget) :
    (∀ p ∈ s.flushed, width p.text ≤ 4 * budget) ↔ ∀ p ∈ s.out, width p.text ≤ 4 * budget := by
  have last := (trim_end_width s.buf).trans within
  rw [Splitting.flushed, List.forall_mem_append]
  refine ⟨And.left, fun out => ⟨out, fun p mem => ?_⟩⟩
  rw [List.mem_singleton.mp mem]
  exact last

/-- A line put to what is held back, or taken when nothing is. -/
theorem take_laid {budget start : Nat} {done line : List Char} {s : Splitting}
    (some_ : 0 < budget) (laid : s.Laid budget start done)
    (room : s.buf = [] ∨ tokens (s.buf ++ line) ≤ budget)
    (small : width (s.buf ++ line) < 2 ^ 32) :
    (∃ done', done' ++ (s.take budget line).buf = done ++ s.buf ++ line ∧
        (s.take budget line).Laid budget start done') ∧
      ((∀ p ∈ (s.take budget line).out, width p.text ≤ 4 * budget) ↔
        (∀ p ∈ s.out, width p.text ≤ 4 * budget) ∧
          (tokens line > budget → Even (4 * budget) line)) := by
  have sum := width_append s.buf line
  by_cases over_ : tokens line > budget
  · have empty : s.buf = [] := by
      refine room.resolve_right fun fits => ?_
      have less := (tokens_within small).mp fits
      have more := (tokens_over (by omega)).mp over_
      omega
    have positive : 0 < per budget := by rw [per_over some_ over_]; omega
    have cursor : s.cursor = start + width done := by rw [laid.cursor, empty]; rfl
    have cuts := cut_line_laid positive line.length s.cursor line (le_refl _)
    rw [cursor] at cuts
    rw [Splitting.take, if_pos over_, empty, List.append_nil]
    refine ⟨⟨done ++ line, List.append_nil _, ?_, ?_, ?_, Nat.zero_le _⟩, ?_⟩
    · rw [cursor]
      exact laid.laid.append cuts
    · rw [cursor, width_append, Nat.add_assoc]
    · rw [cursor, width_append, width_nil, Nat.add_zero, Nat.add_assoc]
    · rw [List.forall_mem_append, ← per_over some_ over_,
        cut_line_within positive _ _ _ (le_refl _), imp_iff_right over_]
  · rw [Splitting.take, if_neg over_]
    refine ⟨⟨done, (List.append_assoc _ _ _).symm, laid.laid, laid.bufStart, ?_, ?_⟩, ?_⟩
    · rw [laid.cursor, width_append, Nat.add_assoc]
    · rcases room with empty | fits
      · rw [empty, List.nil_append]
        exact not_lt.mp fun more => over_ ((tokens_over (by omega)).mpr more)
      · exact (tokens_within small).mp fits
    · simp only [over_, false_implies, and_true]

theorem line_laid {budget start : Nat} {done line : List Char} {s : Splitting}
    (some_ : 0 < budget) (laid : s.Laid budget start done)
    (small : width (done ++ s.buf ++ line) < 2 ^ 32) :
    (∃ done', done' ++ (s.line budget line).buf = done ++ s.buf ++ line ∧
        (s.line budget line).Laid budget start done') ∧
      ((∀ p ∈ (s.line budget line).out, width p.text ≤ 4 * budget) ↔
        (∀ p ∈ s.out, width p.text ≤ 4 * budget) ∧
          (tokens line > budget → Even (4 * budget) line)) := by
  simp only [width_append] at small
  by_cases full : (!s.buf.isEmpty && decide (tokens (s.buf ++ line) > budget)) = true
  · rw [Bool.and_eq_true, Bool.not_eq_true', List.isEmpty_eq_false_iff] at full
    have put : (⟨s.flushed, [], s.cursor, s.cursor⟩ : Splitting).Laid budget start
        (done ++ s.buf) :=
      ⟨laid.flush full.1, by rw [laid.cursor, width_append, Nat.add_assoc],
        by rw [laid.cursor, width_append, Nat.add_assoc]; rfl, Nat.zero_le _⟩
    have taken := take_laid some_ put (.inl rfl) (show width ([] ++ line) < 2 ^ 32 by
      rw [width_append, width_nil]; omega)
    rw [List.append_nil, flushed_within laid.within] at taken
    rw [Splitting.line, Splitting.makeRoom, if_pos (by simpa using full)]
    exact taken
  · have room : s.buf = [] ∨ tokens (s.buf ++ line) ≤ budget := by
      simpa [Classical.or_iff_not_imp_left] using full
    have taken := take_laid some_ laid room (by rw [width_append]; omega)
    rw [Splitting.line, Splitting.makeRoom, if_neg full]
    exact taken

theorem lines_laid {budget start : Nat} (some_ : 0 < budget) (lines : List (List Char))
    {done : List Char} {s : Splitting} (laid : s.Laid budget start done)
    (small : width (done ++ s.buf ++ lines.flatten) < 2 ^ 32) :
    (∃ done', done' ++ (lines.foldl (Splitting.line budget) s).buf =
          done ++ s.buf ++ lines.flatten ∧
        (lines.foldl (Splitting.line budget) s).Laid budget start done') ∧
      ((∀ p ∈ (lines.foldl (Splitting.line budget) s).out, width p.text ≤ 4 * budget) ↔
        (∀ p ∈ s.out, width p.text ≤ 4 * budget) ∧
          ∀ line ∈ lines, tokens line > budget → Even (4 * budget) line) := by
  induction lines generalizing done s with
  | nil => exact ⟨⟨done, by simp, laid⟩, by simp⟩
  | cons line lines ih =>
    rw [List.flatten_cons, ← List.append_assoc] at small ⊢
    have less : width (done ++ s.buf ++ line) < 2 ^ 32 := by
      rw [width_append] at small
      omega
    obtain ⟨⟨next, same, held⟩, out⟩ := line_laid some_ laid less
    rw [← same] at small ⊢
    obtain ⟨last, outs⟩ := ih held small
    refine ⟨last, ?_⟩
    rw [List.foldl_cons, outs, out, List.forall_mem_cons, and_assoc]

/-- A paragraph over the budget: its pieces are laid on it, and are within the budget where no
cut of a line moves on. -/
theorem split_laid {text : List Char} {budget : Nat} (start : Nat) (some_ : 0 < budget)
    (small : width text < 2 ^ 32) (over_ : tokens text > budget) :
    Utf8.Laid isWhitespace start text (splitOversized text budget start) ∧
      ((∀ p ∈ splitOversized text budget start, width p.text ≤ 4 * budget) ↔
        ∀ line ∈ splitInclusive text, tokens line > budget → Even (4 * budget) line) := by
  have none : (⟨[], [], start, start⟩ : Splitting).Laid budget start [] :=
    ⟨.bare rfl, rfl, rfl, Nat.zero_le _⟩
  obtain ⟨⟨done, same, laid⟩, outs⟩ := lines_laid some_ (splitInclusive text) none (by
    simpa [split_inclusive_joins] using small)
  rw [split_inclusive_joins, List.append_nil, List.nil_append] at same
  simp only [List.not_mem_nil, false_implies, implies_true, true_and] at outs
  rw [splitOversized, if_neg (not_le.mpr over_), ← outs]
  dsimp only
  generalize (splitInclusive text).foldl (Splitting.line budget) ⟨[], [], start, start⟩ = s
    at laid same ⊢
  rw [← same]
  by_cases left : trim s.buf = []
  · have blank : solid isWhitespace s.buf = [] := by
      obtain ⟨front, back, first, last, parts⟩ := trim_parts s.buf
      rw [parts, left, solid_append, first, List.nil_append, List.nil_append, last]
    rw [left, if_neg (by simp)]
    refine ⟨?_, Iff.rfl⟩
    have rest : Utf8.Laid isWhitespace (start + width done) s.buf [] := .bare blank
    have laid := laid.laid.append rest
    rwa [List.append_nil] at laid
  · rw [if_pos (by simpa using left)]
    refine ⟨laid.flush fun nil => left ?_, flushed_within laid.within⟩
    rw [nil]
    rfl

/-! The paragraphs of an input. -/

/-- Every cut of the paragraph's lines over the budget is where it is asked for. -/
def EvenLines (budget : Nat) (p : Piece) : Prop :=
  tokens p.text > budget →
    ∀ line ∈ splitInclusive p.text, tokens line > budget → Even (4 * budget) line

theorem broken_laid {budget : Nat} {p : Piece} (some_ : 0 < budget) (filled : p.text ≠ [])
    (stop : p.stop = p.start + width p.text) (small : width p.text < 2 ^ 32) :
    Laid isWhitespace p.start p.text (broken budget p) ∧
      ((∀ q ∈ broken budget p, width q.text ≤ 4 * budget) ↔ EvenLines budget p) := by
  by_cases over_ : tokens p.text > budget
  · rw [broken, if_pos over_, EvenLines, imp_iff_right over_]
    exact split_laid p.start some_ small over_
  · rw [broken, if_neg over_]
    refine ⟨?_, fun _ more => absurd more over_, fun _ q mem => ?_⟩
    · have laid : Laid isWhitespace p.start p.text [⟨p.start, p.start + width p.text, p.text⟩] :=
        .whole filled rfl
      rwa [← stop] at laid
    · rw [List.mem_singleton.mp mem]
      exact (tokens_within small).mp (not_lt.mp over_)

theorem paragraphs_cons (start : Nat) (raw : List Char) (raws : List (List Char)) :
    paragraphsFrom start (raw :: raws) =
      paragraphsFrom start [raw] ++ paragraphsFrom (start + width raw + 2) raws := by
  simp only [paragraphsFrom]
  split
  · rfl
  · rfl

theorem paragraph_laid {budget : Nat} (some_ : 0 < budget) (start : Nat) (raw : List Char)
    (small : width raw < 2 ^ 32) :
    Laid isWhitespace start raw ((paragraphsFrom start [raw]).flatMap (broken budget)) ∧
      ((∀ q ∈ (paragraphsFrom start [raw]).flatMap (broken budget), width q.text ≤ 4 * budget) ↔
        ∀ p ∈ paragraphsFrom start [raw], EvenLines budget p) := by
  obtain ⟨front, back, first, last, parts⟩ := trim_parts raw
  cases left : trim raw with
  | nil =>
    have none : paragraphsFrom start [raw] = [] := by simp [paragraphsFrom, left]
    rw [none]
    rw [left, List.nil_append] at parts
    exact ⟨.bare (by rw [parts, solid_append, first, last]; rfl), by simp⟩
  | cons c rest =>
    have place : find (c :: rest) raw = some (width front) := by
      rw [parts, left]
      exact find_past_blanks back first (trim_head left)
    have one : paragraphsFrom start [raw] =
        [⟨start + width front, start + width front + width (c :: rest), c :: rest⟩] := by
      simp [paragraphsFrom, left, place]
    have less : width (c :: rest) < 2 ^ 32 := by
      have := congrArg width parts
      rw [width_append, width_append, left] at this
      omega
    obtain ⟨laid, within⟩ := broken_laid
      (p := ⟨start + width front, start + width front + width (c :: rest), c :: rest⟩)
      some_ (by simp) rfl less
    rw [one, List.flatMap_singleton, within, List.forall_mem_singleton]
    refine ⟨?_, Iff.rfl⟩
    have whole := (laid.append (.bare last)).after_gap first
    rwa [← left, ← parts, left, List.append_nil] at whole

theorem paragraphs_laid {budget : Nat} (some_ : 0 < budget) (start : Nat)
    (raws : List (List Char)) (small : width (blankLine.intercalate raws) < 2 ^ 32) :
    Laid isWhitespace start (blankLine.intercalate raws)
        ((paragraphsFrom start raws).flatMap (broken budget)) ∧
      ((∀ q ∈ (paragraphsFrom start raws).flatMap (broken budget), width q.text ≤ 4 * budget) ↔
        ∀ p ∈ paragraphsFrom start raws, EvenLines budget p) := by
  induction raws generalizing start with
  | nil => exact ⟨.bare rfl, by simp [paragraphsFrom]⟩
  | cons raw raws ih =>
    cases raws with
    | nil =>
      rw [List.intercalate_singleton] at small ⊢
      exact paragraph_laid some_ start raw small
    | cons next raws =>
      rw [List.intercalate_cons_cons, width_append, width_append] at small
      obtain ⟨first, within⟩ := paragraph_laid some_ start raw (by omega)
      obtain ⟨later, withins⟩ := ih (start + width raw + 2) (by omega)
      rw [paragraphs_cons, List.flatMap_append, List.intercalate_cons_cons, List.append_assoc,
        List.forall_mem_append, List.forall_mem_append, within, withins]
      have feeds : solid isWhitespace blankLine = [] := by decide
      exact ⟨first.append (later.after_gap feeds), Iff.rfl⟩

/-- Every cut of a line over the budget is where it is asked for. -/
def CutsEven (input : List Char) (budget : Nat) : Prop :=
  ∀ p ∈ paragraphs input, EvenLines budget p

theorem pieces_laid {input : List Char} {budget : Nat} (some_ : 0 < budget)
    (small : width input < 2 ^ 32) :
    Laid isWhitespace 0 input (pieces input budget) ∧
      ((∀ q ∈ pieces input budget, width q.text ≤ 4 * budget) ↔ CutsEven input budget) := by
  have laid := paragraphs_laid some_ 0 (splitBlank input) (by rwa [split_blank_joins])
  rwa [split_blank_joins] at laid

end Chunking
end Smysl
