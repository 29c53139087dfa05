import Smysl.Ingest.ChunkLaid
import Smysl.Text.Segmenter

/-!
The sentences partition the content of a text. What the loop keeps: the text so far is cut into
the sentences it has and whitespace between them.
-/
namespace Smysl
namespace Segmenter
open Utf8

/-- All whitespace. -/
def Blank (cs : List Char) : Prop := ∀ c ∈ cs, isWhitespace c = true

/-- Its first character is no whitespace. -/
def Begins (cs : List Char) : Prop := ∃ c rest, cs = c :: rest ∧ isWhitespace c = false

/-- Its last character is no whitespace. -/
def Ends (cs : List Char) : Prop := ∃ front c, cs = front ++ [c] ∧ isWhitespace c = false

/-- No run of whitespace in it has two line feeds. -/
def Unbroken (cs : List Char) : Prop := ∀ run, run <:+: cs → Blank run → run.count '\n' < 2

structure Body (cs : List Char) : Prop where
  begins : Begins cs
  ends : Ends cs
  unbroken : Unbroken cs

theorem Blank.append {xs ys : List Char} (first : Blank xs) (second : Blank ys) :
    Blank (xs ++ ys) := fun c mem =>
  (List.mem_append.mp mem).elim (first c) (second c)

theorem Blank.nil : Blank [] := fun _ mem => absurd mem List.not_mem_nil

theorem Blank.within {xs ys : List Char} (blank : Blank ys) (inside : xs <:+: ys) : Blank xs :=
  fun c mem => blank c (inside.subset mem)

theorem Begins.not_blank {cs : List Char} (begins : Begins cs) : ¬ Blank cs := by
  obtain ⟨c, rest, rfl, inked⟩ := begins
  intro blank
  rw [blank c List.mem_cons_self] at inked
  cases inked

theorem Begins.append {xs : List Char} (begins : Begins xs) (ys : List Char) :
    Begins (xs ++ ys) := by
  obtain ⟨c, rest, rfl, inked⟩ := begins
  exact ⟨c, rest ++ ys, rfl, inked⟩

theorem Ends.append {ys : List Char} (ends : Ends ys) (xs : List Char) : Ends (xs ++ ys) := by
  obtain ⟨front, c, rfl, inked⟩ := ends
  exact ⟨xs ++ front, c, (List.append_assoc _ _ _).symm, inked⟩

/-- A blank beginning of a text that begins with no whitespace is empty. -/
theorem Begins.blank_front {cs front : List Char} (begins : Begins cs) (blank : Blank front)
    (before : front <+: cs) : front = [] := by
  obtain ⟨c, rest, rfl, inked⟩ := begins
  cases front with
  | nil => rfl
  | cons d front =>
    obtain ⟨rfl, _⟩ := List.cons_prefix_cons.mp before
    rw [blank d List.mem_cons_self] at inked
    cases inked

theorem Ends.blank_back {cs back : List Char} (ends : Ends cs) (blank : Blank back)
    (after : back <:+ cs) : back = [] := by
  obtain ⟨front, c, rfl, inked⟩ := ends
  rcases List.eq_nil_or_concat back with none' | ⟨back, d, rfl⟩
  · exact none'
  · obtain ⟨more, same⟩ := after
    rw [List.concat_eq_append, ← List.append_assoc] at same
    obtain ⟨_, last⟩ := List.append_inj' same rfl
    cases last
    rw [blank c (by simp)] at inked
    cases inked

/-- Two sentences with whitespace between them of fewer than two line feeds are one. -/
theorem Body.join {a gap b : List Char} (first : Body a) (few : gap.count '\n' < 2)
    (second : Body b) : Body (a ++ gap ++ b) := by
  refine ⟨(first.begins.append gap).append b, second.ends.append (a ++ gap),
    fun run inside all => ?_⟩
  rw [List.append_assoc] at inside
  rcases List.infix_append_iff.mp inside with inA | beyond | ⟨r, rest, rfl, back, front⟩
  · exact first.unbroken run inA all
  · rcases List.infix_append_iff.mp beyond with inGap | inB | ⟨r, rest, rfl, back, front⟩
    · exact lt_of_le_of_lt (inGap.sublist.count_le _) few
    · exact second.unbroken run inB all
    · -- the run cannot go into the second sentence
      have none' := second.begins.blank_front (all.within (List.infix_append_right)) front
      rw [none', List.append_nil]
      exact lt_of_le_of_lt (back.sublist.count_le _) few
  · -- nor out of the first
    have none' := first.ends.blank_back (all.within (List.infix_append_left)) back
    rw [none', List.nil_append] at all ⊢
    rcases List.prefix_or_prefix_of_prefix front (List.prefix_append gap b) with inGap | ⟨more, rfl⟩
    · exact lt_of_le_of_lt (inGap.sublist.count_le _) few
    · have front := (List.prefix_append_right_inj gap).mp front
      have none' := second.begins.blank_front (all.within (List.infix_append_right)) front
      rw [none', List.append_nil]
      exact few

/-- A text with no line feed and no whitespace at its ends is a sentence. -/
theorem body_of_line {cs : List Char} (begins : Begins cs) (ends : Ends cs)
    (line : '\n' ∉ cs) : Body cs :=
  ⟨begins, ends, fun run inside _ => by
    rw [List.count_eq_zero.mpr fun mem => line (inside.subset mem)]
    decide⟩

/-! Trimming. -/

/-- Trimming takes whitespace from both ends, and all of a text that is nothing else. -/
theorem trim_split (cs : List Char) : (Hjson.trim cs = [] ∧ Blank cs) ∨
    ∃ lead trail, cs = lead ++ Hjson.trim cs ++ trail ∧ Blank lead ∧ Blank trail ∧
      Hjson.trimStart cs = Hjson.trim cs ++ trail ∧ Begins (Hjson.trim cs) ∧
      Ends (Hjson.trim cs) := by
  have start : cs = cs.takeWhile isWhitespace ++ Hjson.trimStart cs :=
    List.takeWhile_append_dropWhile.symm
  have stop : Hjson.trimStart cs =
      Hjson.trim cs ++ (Hjson.trimStart cs).rtakeWhile isWhitespace :=
    List.rdropWhile_append_rtakeWhile.symm
  have lead : Blank (cs.takeWhile isWhitespace) := fun _ mem => List.mem_takeWhile_imp mem
  have trail : Blank ((Hjson.trimStart cs).rtakeWhile isWhitespace) :=
    fun _ mem => List.mem_rtakeWhile_imp mem
  cases left : Hjson.trim cs with
  | nil =>
    refine Or.inl ⟨rfl, ?_⟩
    rw [left, List.nil_append] at stop
    rw [start, stop]
    exact lead.append trail
  | cons c rest =>
    refine Or.inr ⟨_, _, ?_, lead, trail, left ▸ stop, ⟨c, rest, rfl, Chunking.trim_head left⟩, ?_⟩
    · rw [List.append_assoc, ← left, ← stop]
      exact start
    · have some' : (Hjson.trimStart cs).rdropWhile isWhitespace ≠ [] := by
        rw [show (Hjson.trimStart cs).rdropWhile isWhitespace = c :: rest from left]
        exact List.cons_ne_nil _ _
      have last := List.rdropWhile_last_not _ _ some'
      refine ⟨((Hjson.trimStart cs).rdropWhile isWhitespace).dropLast, _, ?_, by simpa using last⟩
      rw [List.dropLast_append_getLast some']
      exact left.symm

/-- What `trim` makes of a piece of a text. -/
theorem trim_piece (pre piece post : List Char) :
    (Blank piece ∧ trim (pre ++ piece ++ post) (width pre) (width (pre ++ piece)) = some none) ∨
    ∃ lead core trail, piece = lead ++ core ++ trail ∧ Blank lead ∧ Blank trail ∧ Begins core ∧
      Ends core ∧ trim (pre ++ piece ++ post) (width pre) (width (pre ++ piece)) =
        some (some ⟨width (pre ++ lead), width (pre ++ lead ++ core)⟩) := by
  rcases trim_split piece with ⟨none', blank⟩ |
    ⟨lead, trail, parts, front, back, start, begins, ends⟩
  · refine Or.inl ⟨blank, ?_⟩
    rw [trim, slice_mid]
    simp only [Option.bind_eq_bind, Option.bind_some, none', List.isEmpty_nil, if_true]
  · refine Or.inr ⟨lead, Hjson.trim piece, trail, parts, front, back, begins, ends, ?_⟩
    have some' : (Hjson.trim piece).isEmpty = false := by
      obtain ⟨c, rest, same, _⟩ := begins
      rw [same]
      rfl
    have size : width piece - width (Hjson.trimStart piece) = width lead := by
      have whole := congrArg width parts
      simp only [width_append] at whole
      rw [start, width_append]
      omega
    rw [trim, slice_mid]
    simp only [Option.bind_eq_bind, Option.bind_some, some', size, width_append,
      Bool.false_eq_true, if_false]

/-! The text so far. -/

/-- The sentences of a text, last first, with whitespace around them. -/
inductive Cut : List Char → List Sentence → Prop
  | blank {gap : List Char} (blank : Blank gap) : Cut gap []
  | sentence {front body gap : List Char} {out : List Sentence} (cut : Cut front out)
      (holds : Body body) (blank : Blank gap) :
      Cut (front ++ body ++ gap) (⟨width front, width (front ++ body)⟩ :: out)

theorem Cut.append_blank {cs gap : List Char} {out : List Sentence} (cut : Cut cs out)
    (blank : Blank gap) : Cut (cs ++ gap) out := by
  cases cut with
  | blank before => exact .blank (before.append blank)
  | sentence cut holds after =>
    rw [List.append_assoc]
    exact .sentence cut holds (after.append blank)

/-- Closing marks are found where the loop stands or past a mark, which is no whitespace. -/
theorem closers_from_cases (past pos : Nat) (cs : List Char) :
    closersFrom past pos cs = past ∨ ∃ front c back, cs = front ++ [c] ++ back ∧
      isWhitespace c = false ∧ closersFrom past pos cs = pos + width (front ++ [c]) := by
  have marks : ∀ c ∈ neverOpens, isWhitespace c = false := by
    simp [neverOpens, isWhitespace]
  induction cs generalizing past pos with
  | nil => exact Or.inl rfl
  | cons c cs ih =>
    rw [closersFrom]
    split
    · rename_i mark
      right
      rcases ih (pos + c.utf8Size) (pos + c.utf8Size) with stays |
        ⟨front, d, back, rfl, inked, found⟩
      · exact ⟨[], c, cs, rfl, marks c (by simpa using mark), by rw [stays]; simp⟩
      · exact ⟨c :: front, d, back, rfl, inked, by rw [found]; simp [Nat.add_assoc]⟩
    · split
      · rcases ih past (pos + c.utf8Size) with stays | ⟨front, d, back, rfl, inked, found⟩
        · exact Or.inl stays
        · exact Or.inr ⟨c :: front, d, back, rfl, inked, by rw [found]; simp [Nat.add_assoc]⟩
      · exact Or.inl rfl

/-- After a line feed there is only whitespace. -/
def FeedLast (piece : List Char) : Prop := ∀ front back, piece = front ++ '\n' :: back → Blank back

/-- What trimming leaves of a piece is one line. -/
theorem FeedLast.line {lead core trail : List Char} (feed : FeedLast (lead ++ core ++ trail))
    (ends : Ends core) : '\n' ∉ core := by
  intro mem
  obtain ⟨front, back, rfl⟩ := List.append_of_mem mem
  have blank := feed (lead ++ front) (back ++ trail) (by simp)
  have none' : '\n' :: back = [] := by
    refine ends.blank_back (fun c mem => ?_) (List.suffix_append _ _)
    rcases List.mem_cons.mp mem with rfl | mem
    · decide
    · exact blank c (List.mem_append_left _ mem)
  cases none'

section Steps
variable [Letters] (s : Segmenter)

/-- Why a boundary is held: never across two line feeds, and marks that are given back end the
sentence before. -/
theorem suppression_cases (front body gap core post : List Char) :
    ∃ why, s.suppression (front ++ body ++ gap ++ core ++ post)
        ⟨width front, width (front ++ body)⟩
        ⟨width (front ++ body ++ gap), width (front ++ body ++ gap ++ core)⟩ = some why ∧
      (why ≠ none → gap.count '\n' < 2) ∧
      ∀ after, why = some (.closer after) → ∃ moved rest, core = moved ++ rest ∧ Ends moved ∧
        after = width (front ++ body ++ gap ++ moved) := by
  have between : slice (width (front ++ body)) (width (front ++ body ++ gap))
      (front ++ body ++ gap ++ core ++ post) = some gap := by
    have cut := slice_mid (front ++ body) gap (core ++ post)
    rwa [← List.append_assoc] at cut
  have before : slice (width front) (width (front ++ body))
      (front ++ body ++ gap ++ core ++ post) = some body := by
    have cut := slice_mid front body (gap ++ core ++ post)
    rwa [← List.append_assoc, ← List.append_assoc] at cut
  have here := slice_mid (front ++ body ++ gap) core post
  simp only [suppression, closersEnd, between, before, here, Option.bind_eq_bind,
    Option.bind_some]
  by_cases wide : 2 ≤ gap.count '\n'
  · rw [if_pos wide]
    exact ⟨none, rfl, by simp, by simp⟩
  · rw [if_neg wide]
    have few : gap.count '\n' < 2 := by omega
    split
    · rename_i marks
      refine ⟨_, rfl, fun _ => few, ?_⟩
      rintro after ⟨rfl⟩
      rcases closers_from_cases (width (front ++ body ++ gap)) (width (front ++ body ++ gap)) core
        with stays | ⟨head, c, rest, parts, inked, found⟩
      · omega
      · exact ⟨head ++ [c], rest, parts, ⟨head, c, rfl, inked⟩, by rw [found, ← width_append]⟩
    · split
      · exact ⟨_, rfl, fun _ => few, by simp⟩
      · split
        · exact ⟨_, rfl, fun _ => few, by simp⟩
        · split
          · exact ⟨_, rfl, fun _ => few, by simp⟩
          · exact ⟨none, rfl, by simp, by simp⟩

theorem settle_cut {front body gap core : List Char} {out : List Sentence} (post : List Char)
    (cut : Cut front out) (holds : Body body) (blank : Blank gap) (next : Body core) :
    ∃ out', s.settle (front ++ body ++ gap ++ core ++ post)
        ⟨width front, width (front ++ body)⟩ out
        ⟨width (front ++ body ++ gap), width (front ++ body ++ gap ++ core)⟩ = some out' ∧
      Cut (front ++ body ++ gap ++ core) out' := by
  obtain ⟨why, held, few, _⟩ := suppression_cases s front body gap core post
  simp only [settle, joins, held, Option.bind_eq_bind, Option.bind_some]
  cases why with
  | none =>
    refine ⟨_, rfl, ?_⟩
    have cut' := Cut.sentence (.sentence cut holds blank) next .nil
    rwa [List.append_nil] at cut'
  | some why =>
    refine ⟨_, rfl, ?_⟩
    have cut' := Cut.sentence cut (holds.join (few (by simp)) next) .nil
    rwa [List.append_nil, ← List.append_assoc, ← List.append_assoc] at cut'

/-- Marks are given back to a sentence, and what is left of their piece is settled. -/
theorem given_back {front body gap moved rest : List Char} {out : List Sentence}
    (post : List Char) (cut : Cut front out) (holds : Body body) (few : gap.count '\n' < 2)
    (begins : Begins (moved ++ rest)) (closed : Ends moved) (line : '\n' ∉ moved ++ rest) :
    ∃ out', (trim (front ++ body ++ gap ++ (moved ++ rest) ++ post)
        (width (front ++ body ++ gap ++ moved))
        (width (front ++ body ++ gap ++ (moved ++ rest)))).bind (fun
          | some cur => s.settle (front ++ body ++ gap ++ (moved ++ rest) ++ post)
              ⟨width front, width (front ++ body ++ gap ++ moved)⟩ out cur
          | none => some (⟨width front, width (front ++ body ++ gap ++ moved)⟩ :: out)) =
        some out' ∧ Cut (front ++ body ++ gap ++ (moved ++ rest)) out' := by
  have first : Begins moved := by
    obtain ⟨c, more, same, inked⟩ := begins
    obtain ⟨last, d, rfl, _⟩ := closed
    cases last with
    | nil =>
      cases same
      exact ⟨c, [], rfl, inked⟩
    | cons e last =>
      cases same
      exact ⟨c, last ++ [d], rfl, inked⟩
  have line' : '\n' ∉ moved := fun mem => line (List.mem_append_left _ mem)
  have longer : Body (body ++ gap ++ moved) := holds.join few (body_of_line first closed line')
  have place : front ++ body ++ gap ++ moved = front ++ (body ++ gap ++ moved) := by
    simp only [List.append_assoc]
  have whole : front ++ body ++ gap ++ (moved ++ rest) =
      front ++ (body ++ gap ++ moved) ++ rest := by
    simp only [List.append_assoc]
  rw [place, whole]
  rcases trim_piece (front ++ (body ++ gap ++ moved)) rest post with ⟨blank, trimmed⟩ |
    ⟨lead, core, trail, rfl, front', back, starts, stops, trimmed⟩
  · rw [trimmed, Option.bind_some]
    exact ⟨_, rfl, .sentence cut longer blank⟩
  · rw [trimmed, Option.bind_some]
    have next : Body core := body_of_line starts stops fun mem => line (by simp [mem])
    have parts : front ++ (body ++ gap ++ moved) ++ (lead ++ core ++ trail) =
        front ++ (body ++ gap ++ moved) ++ lead ++ core ++ trail := by
      simp only [List.append_assoc]
    obtain ⟨out', settled, cut'⟩ := settle_cut s (trail ++ post) cut longer front' next
    rw [parts, List.append_assoc _ trail post]
    exact ⟨out', settled, cut'.append_blank back⟩

theorem step_cut {done piece : List Char} {out : List Sentence} (later : List Char)
    (cut : Cut done out) (feed : FeedLast piece) :
    ∃ out', s.step (done ++ piece ++ later) out (width done) piece = some out' ∧
      Cut (done ++ piece) out' := by
  rcases trim_piece done piece later with ⟨blank, trimmed⟩ |
    ⟨lead, core, trail, rfl, front, back, begins, ends, trimmed⟩
  · rw [width_append] at trimmed
    simp only [step, trimmed, Option.bind_eq_bind, Option.bind_some]
    exact ⟨out, rfl, cut.append_blank blank⟩
  · have line := feed.line ends
    rw [width_append done] at trimmed
    simp only [step, trimmed, Option.bind_eq_bind, Option.bind_some]
    cases cut with
    | blank before =>
      refine ⟨_, rfl, ?_⟩
      have cut' := Cut.sentence (.blank (before.append front)) (body_of_line begins ends line) back
      simpa only [List.append_assoc] using cut'
    | @sentence first body gap out cut holds after =>
      have whole : first ++ body ++ gap ++ (lead ++ core ++ trail) ++ later =
          first ++ body ++ (gap ++ lead) ++ core ++ (trail ++ later) := by
        simp only [List.append_assoc]
      have whole' : first ++ body ++ gap ++ (lead ++ core ++ trail) =
          first ++ body ++ (gap ++ lead) ++ core ++ trail := by
        simp only [List.append_assoc]
      rw [whole, whole', List.append_assoc (first ++ body) gap lead]
      have next := body_of_line begins ends line
      obtain ⟨why, held, few, closes⟩ := suppression_cases s first body (gap ++ lead) core
        (trail ++ later)
      obtain ⟨out', settled, cut'⟩ := settle_cut s (trail ++ later) cut holds
        (after.append front) next
      dsimp only
      rw [held, Option.bind_some]
      split
      · rename_i past
        obtain ⟨moved, rest, rfl, closed, rfl⟩ := closes past rfl
        obtain ⟨out'', given, cut''⟩ := given_back s (trail ++ later) cut holds
          (few (Option.some_ne_none _)) begins closed line
        exact ⟨out'', given, cut''.append_blank back⟩
      · exact ⟨out', settled, cut'.append_blank back⟩

theorem sentences_from_cut {pieces : List (List Char)} {done : List Char} {out : List Sentence}
    (cut : Cut done out) (feeds : ∀ piece ∈ pieces, FeedLast piece) :
    ∃ out', s.sentencesFrom (done ++ pieces.flatten) out (width done) pieces = some out' ∧
      Cut (done ++ pieces.flatten) out' := by
  induction pieces generalizing done out with
  | nil =>
    rw [List.flatten_nil, List.append_nil]
    exact ⟨out, rfl, cut⟩
  | cons piece pieces ih =>
    obtain ⟨next, stepped, cut⟩ := step_cut s pieces.flatten cut (feeds piece List.mem_cons_self)
    rw [List.flatten_cons, ← List.append_assoc, sentencesFrom, stepped, ← width_append]
    exact ih cut fun piece mem => feeds piece (List.mem_cons_of_mem _ mem)

end Steps

/-! What a cut is. -/

/-- The ranges of a cut are laid on its text, in order. -/
theorem Cut.laid {cs : List Char} {out : List Sentence} (cut : Cut cs out) :
    ∃ ps, Laid isWhitespace 0 cs ps ∧
      ps.map (fun p => Sentence.mk p.start p.stop) = out.reverse := by
  induction cut with
  | blank blank => exact ⟨[], .bare (solid_empty.mpr blank), rfl⟩
  | @sentence front body gap out _ holds blank ih =>
    obtain ⟨ps, laid, same⟩ := ih
    have filled : body ≠ [] := by
      obtain ⟨c, rest, rfl, _⟩ := holds.begins
      exact List.cons_ne_nil _ _
    have last : Laid isWhitespace (0 + width front) (body ++ gap)
        [⟨0 + width front, 0 + width front + width body, body⟩] :=
      (Laid.whole filled rfl).append (.bare (solid_empty.mpr blank))
    refine ⟨_, List.append_assoc front body gap ▸ laid.append last, ?_⟩
    rw [List.map_append, same, List.reverse_cons, List.map_cons, List.map_nil, Nat.zero_add,
      width_append]

/-- A sentence of a cut is one where it stands. -/
theorem Cut.body {cs : List Char} {out : List Sentence} (cut : Cut cs out) {r : Sentence}
    (mem : r ∈ out) : ∃ front body back, cs = front ++ body ++ back ∧ Body body ∧
      r = ⟨width front, width (front ++ body)⟩ := by
  induction cut with
  | blank => cases mem
  | @sentence front body gap out _ holds _ ih =>
    rcases List.mem_cons.mp mem with rfl | mem
    · exact ⟨front, body, gap, rfl, holds, rfl⟩
    · obtain ⟨front', body', back, rfl, holds', rfl⟩ := ih mem
      exact ⟨front', body', back ++ body ++ gap, by simp only [List.append_assoc], holds', rfl⟩

/-- The sentences partition the content of a text. -/
structure Partition (text : List Char) (out : List Sentence) : Prop where
  ascending : out.Pairwise (fun a b => a.stop ≤ b.start)
  filled : ∀ r ∈ out, r.start < r.stop ∧ Between text r.start ∧ Between text r.stop
  body : ∀ r ∈ out, ∃ cs, slice r.start r.stop text = some cs ∧ Begins cs ∧ Ends cs ∧
    ∀ run, run <:+: cs → Blank run → run.count '\n' < 2
  covers : ∀ pre c post, text = pre ++ c :: post → isWhitespace c = false →
    ∃ r ∈ out, r.start ≤ width pre ∧ width pre + c.utf8Size ≤ r.stop

theorem Cut.partition {text : List Char} {out : List Sentence} (cut : Cut text out) :
    Partition text out.reverse := by
  obtain ⟨ps, laid, same⟩ := cut.laid
  obtain ⟨filled, ascending⟩ := laid.ascending
  rw [← same]
  refine ⟨List.pairwise_map.mpr ascending, fun r mem => ?_, fun r mem => ?_, ?_⟩
  · obtain ⟨p, held, rfl⟩ := List.mem_map.mp mem
    rw [same, List.mem_reverse] at mem
    obtain ⟨front, body, back, rfl, _, place⟩ := cut.body mem
    rw [place]
    refine ⟨?_, ⟨front, body ++ back, List.append_assoc _ _ _, rfl⟩, ⟨_, back, rfl, rfl⟩⟩
    rw [← place]
    exact (filled p held).2
  · rw [same, List.mem_reverse] at mem
    obtain ⟨front, body, back, rfl, holds, rfl⟩ := cut.body mem
    exact ⟨body, slice_mid front body back, holds.begins, holds.ends, holds.unbroken⟩
  · intro pre c post here inked
    obtain ⟨p, mem, low, high⟩ := laid.found here inked
    rw [Nat.zero_add] at low high
    exact ⟨_, List.mem_map_of_mem mem, low, high⟩

/-- Whatever the abbreviations, where the splitter's pieces partition a text and have line
feeds only in the whitespace at their ends, the sentences partition its content. -/
theorem sentences_partition [Letters] (s : Segmenter) (split : List Char → List (List Char))
    {text : List Char} (pieces : (split text).flatten = text)
    (feeds : ∀ piece ∈ split text, FeedLast piece) :
    ∃ out, s.sentences split text = some out ∧ Partition text out := by
  obtain ⟨out, found, cut⟩ := sentences_from_cut s (.blank .nil) feeds
  rw [List.nil_append, pieces] at found cut
  exact ⟨out.reverse, by rw [sentences, show 0 = width [] from rfl, found]; rfl, cut.partition⟩

local instance plainSegmenterLetters : Letters := ⟨Char.isLower, Char.isUpper, Char.isAlphanum⟩

/-- Two sentences that the splitter tells apart. -/
theorem two_sentences : ∃ out,
    sentences ⟨none, []⟩ (fun _ => ["Go. ".toList, "Stop.".toList]) "Go. Stop.".toList = some out ∧
      Partition "Go. Stop.".toList out := by
  refine sentences_partition _ _ (by decide) fun piece mem front back same => ?_
  have feed : '\n' ∈ piece := by
    rw [same]
    simp
  rcases List.mem_cons.mp mem with rfl | mem
  · exact absurd feed (by decide)
  · obtain rfl := List.mem_singleton.mp mem
    exact absurd feed (by decide)

end Segmenter
end Smysl
