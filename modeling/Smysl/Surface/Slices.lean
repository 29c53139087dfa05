import Smysl.Surface.HjsonReads
import Smysl.Surface.Parse

/-!
Every slice of the surface parser is taken between characters: those of the pass over the
lines, and those of the record parsers. A header that is read ends past its line's start.
-/
namespace Smysl
open ByteString Utf8

/-- A line as it stands in a document. -/
def Line.In (src : List Char) (l : Line) : Prop :=
  ∃ pre post, src = pre ++ l.text ++ post ∧ l.start = width pre

/-! The lines. -/

theorem line_text_prefix (raw : List Char) : lineText raw <+: raw := by
  have suffix : (raw.reverse.dropWhile (· = '\r')) <:+ raw.reverse := List.dropWhile_suffix _
  have reversed := List.reverse_prefix.mpr suffix
  rwa [List.reverse_reverse] at reversed

/-- A text around an arrow, which is as wide as it is passed over. -/
theorem find_arrow_split {cs : List Char} {n : Nat} (found : findArrow cs = some n) :
    ∃ pre arrow post, cs = pre ++ arrow ++ post ∧ n = width pre ∧
      arrowLen (arrow ++ post) = width arrow := by
  have splits : ∀ pat : List Char, find pat cs = some n →
      (∀ post, arrowLen (pat ++ post) = width pat) →
      ∃ pre arrow post, cs = pre ++ arrow ++ post ∧ n = width pre ∧
        arrowLen (arrow ++ post) = width arrow := by
    intro pat at_ wide
    obtain ⟨pre, post, same, offset⟩ := find_split at_
    exact ⟨pre, pat, post, same, offset, wide post⟩
  have sign := splits [Char.ofNat 0x2192]
  have ascii := splits "->".toList
  rw [findArrow] at found
  split at found
  · rename_i a b at_a at_b
    rcases Nat.le_total a b with le | le
    · rw [Nat.min_eq_left le] at found
      cases found
      exact sign at_a (fun post => rfl)
    · rw [Nat.min_eq_right le] at found
      cases found
      exact ascii at_b (fun post => rfl)
  · rename_i a at_a _
    cases found
    exact sign at_a (fun post => rfl)
  · exact ascii found (fun post => rfl)

theorem is_step_returns (line : List Char) : ∃ step, isStep line = some step := by
  rw [isStep]
  split
  · exact ⟨_, rfl⟩
  · dsimp only
    split
    · exact ⟨_, rfl⟩
    · split
      · exact ⟨_, rfl⟩
      · rename_i arrow at_
        obtain ⟨pre, pat, post, same, rfl, _⟩ := find_arrow_split at_
        rw [same, List.append_assoc, slice_to_append]
        exact ⟨_, rfl⟩

theorem classify_returns (line : List Char) : ∃ kind, classifyLine line = some kind := by
  obtain ⟨step, is_step⟩ := is_step_returns line
  rw [classifyLine, is_step]
  split_ifs <;> exact ⟨_, rfl⟩

theorem lex_from_returns (src : List Char) (raws : List (List Char)) (pre : List Char)
    (rest : src = pre ++ ['\n'].intercalate raws) (raws_left : raws ≠ []) :
    ∃ lines, lexFrom (width src) (width pre) raws = some lines ∧
      ∀ l ∈ lines, l.In src ∧ classifyLine l.text = some l.kind := by
  induction raws generalizing pre with
  | nil => exact absurd rfl raws_left
  | cons raw raws ih =>
    obtain ⟨kind, classified⟩ := classify_returns (lineText raw)
    obtain ⟨post, same⟩ : ∃ post, src = pre ++ raw ++ post := by
      obtain ⟨post, whole⟩ : raw <+: ['\n'].intercalate (raw :: raws) := by
        cases raws <;> simp [List.intercalate]
      exact ⟨post, by rw [rest, ← whole, List.append_assoc]⟩
    have here : Line.In src ⟨kind, width pre, lineText raw⟩ := by
      obtain ⟨trimmed, whole⟩ := line_text_prefix raw
      refine ⟨pre, trimmed ++ post, ?_, rfl⟩
      change src = pre ++ lineText raw ++ (trimmed ++ post)
      rw [same, List.append_assoc pre (lineText raw), ← List.append_assoc (lineText raw), whole,
        List.append_assoc]
    obtain ⟨lines, run, lexed⟩ : ∃ lines,
        lexFrom (width src) (width pre + width raw + 1) raws = some lines ∧
          ∀ l ∈ lines, l.In src ∧ classifyLine l.text = some l.kind := by
      cases raws with
      | nil => exact ⟨[], rfl, fun l mem => nomatch mem⟩
      | cons next raws =>
        have moved : width pre + width raw + 1 = width (pre ++ raw ++ ['\n']) := by
          rw [width_append, width_append]
          rfl
        rw [moved]
        apply ih
        · rw [rest]
          simp [List.intercalate]
        · exact List.cons_ne_nil next raws
    rw [lexFrom, run]
    dsimp only [Option.bind_eq_bind, Option.bind_some]
    split
    · exact ⟨lines, rfl, lexed⟩
    · rw [classified]
      refine ⟨_, rfl, ?_⟩
      intro l mem
      rcases List.mem_cons.mp mem with rfl | mem
      · exact ⟨here, classified⟩
      · exact lexed l mem

/-- The pass over the lines always ends, and gives lines of the document. -/
theorem lex_returns (src : List Char) : ∃ lines, lex src = some lines ∧
    ∀ l ∈ lines, l.In src ∧ classifyLine l.text = some l.kind :=
  lex_from_returns src (src.splitOn '\n') [] (by simp [List.intercalate_splitOn])
    (List.splitOn_ne_nil '\n' src)

/-! The first line of a record. -/

section
variable {src : List Char} {l : Line}

/-- A header is refused, or ends past the start of its line. -/
theorem header_object_returns (in_ : l.In src) (filled : l.text ≠ []) :
    headerObject src l = some none ∨
      ∃ h stop, headerObject src l = some (some (h, stop)) ∧ l.start < stop := by
  obtain ⟨pre, post, same, start⟩ := in_
  rw [headerObject]
  split
  · refine .inr ⟨[], l.stop, rfl, ?_⟩
    have wide := width_pos filled
    rw [Line.stop]
    omega
  · rename_i rel at_
    obtain ⟨front, back, text, rfl⟩ := find_split at_
    have cut : sliceFrom (l.start + width front) src = some (brace ++ back ++ post) := by
      have split_ : src = (pre ++ front) ++ (brace ++ back ++ post) := by
        rw [same, text]
        simp
      rw [start, ← width_append, split_, slice_from_append]
    rw [cut, Option.bind_some]
    rcases parse_object_prefix_returns (brace ++ back ++ post) with
      ⟨at_, refused⟩ | ⟨obj, i, j, read, moves, _⟩
    · rw [refused]
      exact .inl rfl
    · rw [read]
      exact .inr ⟨_, _, rfl, by omega⟩

theorem target_text_returns (word : String) (l : Line) : ∃ t, targetText word l = some t := by
  rw [targetText]
  split
  · exact ⟨none, rfl⟩
  · rename_i p at_
    obtain ⟨front, back, text, rfl⟩ := find_split at_
    rw [text, List.append_assoc, slice_to_append]
    exact ⟨_, rfl⟩

theorem head_text_returns (in_ : l.In src) : ∃ t, headText src l = some t := by
  obtain ⟨pre, post, same, start⟩ := in_
  have begins : Between src l.start := ⟨pre, l.text ++ post, by rw [same, List.append_assoc], start⟩
  have cut : ∀ front back, l.text = front ++ back →
      ∃ t, slice l.start (l.start + width front) src = some t := by
    intro front back text
    have ends : Between src (l.start + width front) := by
      refine ⟨pre ++ front, back ++ post, ?_, by rw [start, width_append]⟩
      rw [same, text]
      simp
    obtain ⟨_, mid, _, _, _, _, sliced⟩ := slice_between (Nat.le_add_right _ _) begins ends
    exact ⟨mid, sliced⟩
  rw [headText]
  split
  · rename_i p at_
    obtain ⟨front, back, text, rfl⟩ := find_split at_
    exact cut front (brace ++ back) (by rw [text, List.append_assoc])
  · exact cut l.text [] (List.append_nil _).symm

end

/-! Edges and steps. -/

theorem after_word_suffix (word : String) (text : List Char) : afterWord word text <:+ text := by
  rw [afterWord]
  split
  · exact (List.dropWhile_suffix _).trans (List.drop_suffix _ _)
  · exact List.nil_suffix

/-- The parts of an edge are cut, and what is left after them ends where the text does. -/
theorem edge_parts_returns {text : List Char} {dashes : Nat}
    (at_ : find "--".toList text = some dashes) :
    edgeParts text dashes = some none ∨ ∃ kind src dst,
      edgeParts text dashes = some (some (kind, src, dst)) ∧ dst <:+ text := by
  obtain ⟨front, after, same, rfl⟩ := find_split at_
  have past : sliceFrom (width front + 2) text = some after := by
    have moved : width front + 2 = width (front ++ "--".toList) := by
      rw [width_append]
      rfl
    rw [moved, same, slice_from_append]
  have before : sliceTo (width front) text = some front := by
    rw [same, List.append_assoc, slice_to_append]
  rw [edgeParts, past]
  dsimp only [Option.bind_eq_bind, Option.bind_some]
  split
  · exact .inl rfl
  · rename_i close found
    obtain ⟨kind, dst, whole, rfl⟩ := find_split found
    have named : sliceTo (width kind) after = some kind := by
      rw [whole, List.append_assoc, slice_to_append]
    have tail : sliceFrom (width kind + 3) after = some dst := by
      have moved : width kind + 3 = width (kind ++ "-->".toList) := by
        rw [width_append]
        rfl
      rw [moved, whole, slice_from_append]
    rw [named, before, tail]
    refine .inr ⟨_, _, _, rfl, ?_⟩
    exact ⟨front ++ "--".toList ++ (kind ++ "-->".toList), by rw [same, whole]; simp⟩

theorem lifecycle_target_returns (withdraw : Bool) (text : List Char) :
    ∃ target, lifecycleTarget withdraw text = some target := by
  rw [lifecycleTarget]
  dsimp only
  split
  · rename_i dashes at_
    rcases edge_parts_returns at_ with cut | ⟨kind, src, dst, cut, _⟩ <;>
      exact ⟨_, by rw [cut]; rfl⟩
  · split_ifs <;> exact ⟨_, rfl⟩

theorem width_sub_of_suffix {xs ys : List Char} (suffix : ys <:+ xs) :
    ∃ front, xs = front ++ ys ∧ width xs - width ys = width front := by
  obtain ⟨front, rfl⟩ := suffix
  exact ⟨front, rfl, by rw [width_append]; omega⟩

/-- A relation is read or refused, wherever its header stands. -/
theorem relation_returns {src : List Char} {l : Line} (in_ : l.In src) :
    ∃ r, relation src l = some r := by
  obtain ⟨pre, post, same, start⟩ := in_
  obtain ⟨word, text, worded⟩ := width_sub_of_suffix (after_word_suffix "@rel" l.text)
  rw [relation]
  split
  · exact ⟨none, rfl⟩
  · dsimp only
    split
    · exact ⟨none, rfl⟩
    · rename_i dashes at_
      rcases edge_parts_returns at_ with cut | ⟨kind, from_, dst, cut, suffix⟩
      · exact ⟨none, by rw [cut]; rfl⟩
      · have trimmed : Hjson.trimStart dst <:+ dst := List.dropWhile_suffix _
        obtain ⟨edge, rest, edged⟩ := width_sub_of_suffix (trimmed.trans suffix)
        rw [cut, Option.bind_some]
        dsimp only
        rw [worded, edged]
        cases opens : find brace (Hjson.trimStart dst) with
        | none =>
          dsimp only [Option.map_none, Option.bind_some]
          split <;> exact ⟨_, rfl⟩
        | some p =>
          obtain ⟨front, back, tail, rfl⟩ := find_split opens
          have named : sliceTo (width front) (Hjson.trimStart dst) = some front := by
            rw [tail, List.append_assoc, slice_to_append]
          have header : sliceFrom (l.start + width word + width edge + width front) src =
              some (brace ++ back ++ post) := by
            have split_ : src = (pre ++ word ++ edge ++ front) ++ (brace ++ back ++ post) := by
              rw [same, text, rest, tail]
              simp
            have offset : l.start + width word + width edge + width front =
                width (pre ++ word ++ edge ++ front) := by
              rw [width_append, width_append, width_append, start]
            rw [offset, split_, slice_from_append]
          dsimp only [Option.map_some]
          rw [named]
          dsimp only [Option.map_some, Option.bind_some]
          rw [header]
          dsimp only [Option.bind_some]
          rcases parse_object_prefix_returns (brace ++ back ++ post) with
            ⟨at_, refused⟩ | ⟨obj, i, j, read, _, _⟩
          · rw [refused]
            split <;> exact ⟨_, rfl⟩
          · rw [read]
            split <;> exact ⟨_, rfl⟩

/-- A line of a step is cut after its indent, around its arrow, and at the colon of its
note. -/
theorem thread_step_returns {l : Line} (indented : "  ".toList <+: l.text) :
    ∃ step, threadStep l = some step := by
  obtain ⟨body, text⟩ := indented
  have inner : sliceFrom 2 l.text = some body := by
    rw [← text]
    exact slice_from_append "  ".toList body
  rw [threadStep, inner]
  dsimp only [Option.bind_eq_bind, Option.bind_some]
  split
  · exact ⟨none, rfl⟩
  · rename_i at_ found
    obtain ⟨role, arrow, after, same, rfl, wide⟩ := find_arrow_split found
    have before : sliceTo (width role) body = some role := by
      rw [same, List.append_assoc, slice_to_append]
    have from_ : sliceFrom (width role) body = some (arrow ++ after) := by
      rw [same, List.append_assoc, slice_from_append]
    have past : sliceFrom (width role + width arrow) body = some after := by
      rw [← width_append, same, slice_from_append]
    rw [before, from_]
    dsimp only [Option.bind_some]
    rw [wide, past]
    dsimp only [Option.map_some, Option.bind_some]
    obtain ⟨skipped, named, rest, skips⟩ : ∃ skipped named, Hjson.trim after = skipped ++ named ∧
        (if "b3:".toList.isPrefixOf (Hjson.trim after) then 3 else 0) = width skipped := by
      split
      · rename_i uid
        obtain ⟨named, rest⟩ := List.isPrefixOf_iff_prefix.mp uid
        exact ⟨"b3:".toList, named, rest.symm, rfl⟩
      · exact ⟨[], Hjson.trim after, rfl, rfl⟩
    have colon : Hjson.trim after =
        skipped ++ named.takeWhile (· ≠ ':') ++ named.dropWhile (· ≠ ':') := by
      rw [List.append_assoc, List.takeWhile_append_dropWhile, rest]
    rw [skips]
    rw [show sliceFrom (width skipped) (Hjson.trim after) = some named by
      rw [rest, slice_from_append]]
    dsimp only [Option.bind_some]
    split
    · rw [← width_append]
      rw [show sliceTo (width (skipped ++ named.takeWhile (· ≠ ':'))) (Hjson.trim after) =
          some (skipped ++ named.takeWhile (· ≠ ':')) by
        conv_lhs => rw [colon]
        rw [slice_to_append]]
      exact ⟨_, rfl⟩
    · exact ⟨_, rfl⟩

theorem word_no_step (rest : List Char) : classifyWord rest ≠ .step := by
  have either : ∀ {p : Prop} [Decidable p] {a b : LineClass}, a ≠ .step → b ≠ .step →
      (if p then a else b) ≠ .step := by
    intro p _ a b first second
    split
    · exact first
    · exact second
  rw [classifyWord]
  repeat refine either (by decide) ?_
  decide

/-- A line is a step only under an indent. -/
theorem step_indented {line : List Char} (step : classifyLine line = some .step) :
    "  ".toList <+: line := by
  by_contra bare
  have no_step : isStep line = some false := by
    rw [isStep, if_pos]
    rw [Bool.not_eq_true', Bool.eq_false_iff]
    exact fun indented => bare (List.isPrefixOf_iff_prefix.mp indented)
  rw [classifyLine, no_step] at step
  split_ifs at step with blank separator comment sigil gist
  case pos => cases step
  case pos => cases step
  case pos => cases step
  case pos => exact word_no_step _ (Option.some.inj step)
  case pos => cases step
  case neg => cases step

theorem thread_steps_returns {lines : List Line}
    (classed : ∀ l ∈ lines, classifyLine l.text = some l.kind) :
    ∃ steps, threadSteps lines = some steps := by
  induction lines with
  | nil => exact ⟨_, rfl⟩
  | cons l lines ih =>
    obtain ⟨steps, run⟩ := ih (fun k mem => classed k (List.mem_cons_of_mem l mem))
    rw [threadSteps]
    split
    · rename_i step
      obtain ⟨read, here⟩ := thread_step_returns
        (step_indented (step ▸ classed l List.mem_cons_self))
      rw [here, run]
      exact ⟨_, rfl⟩
    · split
      · rw [run]
        exact ⟨_, rfl⟩
      · exact ⟨_, rfl⟩

end Smysl
