import Smysl.Ingest.ChunkLaid

/-!
What chunking keeps: no text is lost and the ranges are places of the input, whatever it is;
each chunk is within the budget where the cuts of lines fall between characters and the blank
lines paragraphs are joined with fit.
-/
namespace Smysl
namespace Chunking
open Utf8

/-! The groups. -/

theorem groups_join (budget : Nat) (current : List Piece) (used : Nat) (ps : List Piece) :
    (groupFrom budget current used ps).flatten = current ++ ps := by
  induction ps generalizing current used with
  | nil =>
    rw [groupFrom]
    split
    · rename_i empty
      rw [List.isEmpty_iff.mp empty]
      rfl
    · simp
  | cons p ps ih =>
    simp only [groupFrom]
    split
    · rw [List.flatten_cons, ih, List.singleton_append]
    · rw [ih, List.append_assoc, List.singleton_append]

theorem groups_filled {budget used : Nat} {current ps g : List Piece}
    (mem : g ∈ groupFrom budget current used ps) : g ≠ [] := by
  induction ps generalizing current used with
  | nil =>
    rw [groupFrom] at mem
    split at mem
    · cases mem
    · rename_i filled
      rw [List.mem_singleton.mp mem]
      simpa using filled
  | cons p ps ih =>
    simp only [groupFrom] at mem
    split at mem
    · rename_i full
      rcases List.mem_cons.mp mem with rfl | mem
      · simp only [Bool.and_eq_true, Bool.not_eq_true', List.isEmpty_eq_false_iff] at full
        exact full.1
      · exact ih mem
    · exact ih mem

/-- What is being filled is where a group begins. -/
theorem groups_first {budget used : Nat} {current ps : List Piece} (filled : current ≠ []) :
    ∃ more, current ++ more ∈ groupFrom budget current used ps := by
  induction ps generalizing current used with
  | nil =>
    refine ⟨[], ?_⟩
    rw [groupFrom, if_neg (by simpa using filled)]
    simp
  | cons p ps ih =>
    simp only [groupFrom]
    split
    · exact ⟨[], by simp⟩
    · obtain ⟨more, mem⟩ := ih (show current ++ [p] ≠ [] by simp)
      exact ⟨p :: more, by simpa using mem⟩

/-! What a group counts. -/

theorem joined_append {xs : List Piece} (filled : xs ≠ []) (p : Piece) :
    joined (xs ++ [p]) = joined xs ++ blankLine ++ p.text := by
  induction xs with
  | nil => exact absurd rfl filled
  | cons x xs ih =>
    cases xs with
    | nil => simp [joined, List.intercalate_cons_cons]
    | cons y xs =>
      have later := ih (by simp)
      simp only [joined, List.cons_append, List.map_cons, List.map_append, List.map_nil,
        List.intercalate_cons_cons] at later ⊢
      rw [later]
      simp only [List.append_assoc]

theorem joined_grows (xs ys : List Piece) : width (joined xs) ≤ width (joined (xs ++ ys)) := by
  induction ys using List.reverseRecOn with
  | nil => rw [List.append_nil]
  | append_singleton ys p ih =>
    rw [← List.append_assoc]
    by_cases empty : xs ++ ys = []
    · rw [(List.append_eq_nil_iff.mp empty).1]
      exact Nat.zero_le _
    · rw [joined_append empty, width_append, width_append]
      omega

/-- Where the groups are filled, a paragraph that joins others does so with room for the blank
line before it. -/
def Roomy (budget : Nat) : List Piece → Nat → List Piece → Prop
  | _, _, [] => True
  | current, used, p :: ps =>
    let cost := tokens p.text
    if !current.isEmpty && (used + cost) % 2 ^ 32 > budget then Roomy budget [p] cost ps
    else
      (current ≠ [] → width (joined current) + 2 + width p.text ≤ 4 * budget) ∧
        Roomy budget (current ++ [p]) ((used + cost) % 2 ^ 32) ps

instance Roomy.decidable (budget : Nat) :
    ∀ current used ps, Decidable (Roomy budget current used ps)
  | _, _, [] => isTrue trivial
  | current, used, p :: ps =>
    have := Roomy.decidable budget [p] (tokens p.text) ps
    have := Roomy.decidable budget (current ++ [p]) ((used + tokens p.text) % 2 ^ 32) ps
    if full : (!current.isEmpty && decide ((used + tokens p.text) % 2 ^ 32 > budget)) = true then
      decidable_of_iff (Roomy budget [p] (tokens p.text) ps)
        (by rw [Roomy]; simp only [if_pos full])
    else
      decidable_of_iff
        ((current ≠ [] → width (joined current) + 2 + width p.text ≤ 4 * budget) ∧
          Roomy budget (current ++ [p]) ((used + tokens p.text) % 2 ^ 32) ps)
        (by rw [Roomy]; simp only [if_neg full])

theorem groups_start {budget used most : Nat} {current ps : List Piece} (filled : current ≠ [])
    (within : ∀ g ∈ groupFrom budget current used ps, width (joined g) ≤ most) :
    width (joined current) ≤ most := by
  obtain ⟨more, mem⟩ := groups_first filled
  exact (joined_grows current more).trans (within _ mem)

theorem joined_within {most : Nat} (current : List Piece) (p : Piece) :
    width (joined (current ++ [p])) ≤ most ↔ width p.text ≤ most ∧
      (current ≠ [] → width (joined current) + 2 + width p.text ≤ most) := by
  by_cases empty : current = []
  · simp [empty, joined]
  · have feeds : width blankLine = 2 := by decide
    rw [joined_append empty, width_append, width_append, feeds]
    exact ⟨fun less => ⟨by omega, fun _ => less⟩, fun less => less.2 empty⟩

/-- The groups are within the budget where the paragraphs are and the blank lines have room. -/
theorem groups_within {budget used : Nat} {current ps : List Piece}
    (fits : width (joined current) ≤ 4 * budget) :
    (∀ g ∈ groupFrom budget current used ps, width (joined g) ≤ 4 * budget) ↔
      (∀ p ∈ ps, width p.text ≤ 4 * budget) ∧ Roomy budget current used ps := by
  induction ps generalizing current used with
  | nil =>
    refine ⟨fun _ => ⟨by simp, trivial⟩, fun _ g mem => ?_⟩
    rw [groupFrom] at mem
    split at mem
    · cases mem
    · rw [List.mem_singleton.mp mem]
      exact fits
  | cons p ps ih =>
    simp only [groupFrom, Roomy]
    rw [List.forall_mem_cons]
    split
    · have alone : joined [p] = p.text := by simp [joined]
      rw [List.forall_mem_cons]
      constructor
      · rintro ⟨-, later⟩
        have first := groups_start (by simp) later
        obtain ⟨rest, roomy⟩ := (ih first).mp later
        exact ⟨⟨alone ▸ first, rest⟩, roomy⟩
      · rintro ⟨⟨first, rest⟩, roomy⟩
        exact ⟨fits, (ih (alone.symm ▸ first)).mpr ⟨rest, roomy⟩⟩
    · constructor
      · intro later
        have first := groups_start (by simp) later
        obtain ⟨rest, roomy⟩ := (ih first).mp later
        obtain ⟨own, room⟩ := (joined_within current p).mp first
        exact ⟨⟨own, rest⟩, room, roomy⟩
      · rintro ⟨⟨own, rest⟩, room, roomy⟩
        exact (ih ((joined_within current p).mpr ⟨own, room⟩)).mpr ⟨rest, roomy⟩

/-! The chunks. -/

/-- A chunk shows some of the pieces. -/
structure Shows (k : Chunk) (shown : List Piece) : Prop where
  text : k.text = joined shown
  start : ∃ p ∈ shown.head?, k.start = p.start
  stop : ∃ p ∈ shown.getLast?, k.stop = p.stop

section

variable {w : Window} {total n : Nat} {before : Option Piece}

theorem first_shows (w : Window) (total n : Nat) (before : Option Piece) (init : List Piece)
    (last : Piece) :
    let shown := if w.overlap then before.toList ++ (init ++ [last]) else init ++ [last]
    Shows ⟨joined shown, n, total, (shown.head?.map Stretch.start).getD 0,
      ((init ++ [last]).getLast?.map Stretch.stop).getD 0, w.overlap && before.isSome⟩ shown := by
  intro shown
  obtain ⟨front, same⟩ : ∃ front, shown = front ++ [last] := by
    by_cases overlap : w.overlap = true
    · exact ⟨before.toList ++ init, by simp [shown, overlap]⟩
    · exact ⟨init, by simp [shown, overlap]⟩
  rw [same]
  refine ⟨rfl, ?_, last, by simp, by simp⟩
  cases front with
  | nil => exact ⟨last, by simp, by simp⟩
  | cons p front => exact ⟨p, by simp, by simp⟩

/-- A chunk shows neighbours, and ends where one of its own group does. -/
theorem chunk_shows {gs : List (List Piece)} {k : Chunk} (filled : ∀ g ∈ gs, g ≠ [])
    (mem : k ∈ chunksFrom w total n before gs) :
    ∃ shown, Shows k shown ∧ shown <:+: before.toList ++ gs.flatten ∧
      ∃ q ∈ gs.flatten, k.stop = q.stop := by
  induction gs generalizing n before with
  | nil => cases mem
  | cons g gs ih =>
    obtain ⟨init, last, rfl⟩ := (List.eq_nil_or_concat' g).resolve_left
      (filled g List.mem_cons_self)
    rcases List.mem_cons.mp mem with rfl | mem
    · refine ⟨_, first_shows w total n before init last, ?_, last, by simp, by simp⟩
      split
      · exact ⟨[], gs.flatten, by simp⟩
      · exact ⟨before.toList, gs.flatten, by simp⟩
    · obtain ⟨shown, shows_, part, q, own, stop⟩ :=
        ih (fun g mem => filled g (List.mem_cons_of_mem _ mem)) mem
      refine ⟨shown, shows_, part.trans ?_, q, by simp [own], stop⟩
      exact ⟨before.toList ++ init, [], by simp⟩

/-- Every piece is shown by some chunk. -/
theorem piece_shown {gs : List (List Piece)} {p : Piece} (filled : ∀ g ∈ gs, g ≠ [])
    (mem : p ∈ gs.flatten) :
    ∃ k ∈ chunksFrom w total n before gs, ∃ shown, Shows k shown ∧ p ∈ shown ∧
      shown <:+: before.toList ++ gs.flatten := by
  induction gs generalizing n before with
  | nil => cases mem
  | cons g gs ih =>
    obtain ⟨init, last, rfl⟩ := (List.eq_nil_or_concat' g).resolve_left
      (filled g List.mem_cons_self)
    rw [List.flatten_cons, List.mem_append] at mem
    rcases mem with mem | mem
    · refine ⟨_, List.mem_cons_self, _, first_shows w total n before init last, ?_, ?_⟩
      · split
        · exact List.mem_append_right _ mem
        · exact mem
      · split
        · exact ⟨[], gs.flatten, by simp⟩
        · exact ⟨before.toList, gs.flatten, by simp⟩
    · obtain ⟨k, listed, shown, shows_, own, part⟩ :=
        ih (fun g mem => filled g (List.mem_cons_of_mem _ mem)) mem
      refine ⟨k, List.mem_cons_of_mem _ listed, shown, shows_, own, part.trans ?_⟩
      exact ⟨before.toList ++ init, [], by simp⟩

theorem chunks_ascend {gs : List (List Piece)} (filled : ∀ g ∈ gs, g ≠ [])
    (ordered : (before.toList ++ gs.flatten).Pairwise fun p q => p.stop ≤ q.start)
    (some_ : ∀ p ∈ before.toList ++ gs.flatten, p.start < p.stop) :
    (chunksFrom w total n before gs).Pairwise fun a b => a.start ≤ b.start ∧ a.stop < b.stop := by
  induction gs generalizing n before with
  | nil => exact List.Pairwise.nil
  | cons g gs ih =>
    obtain ⟨init, last, rfl⟩ := (List.eq_nil_or_concat' g).resolve_left
      (filled g List.mem_cons_self)
    have others : ∀ g ∈ gs, g ≠ [] := fun g mem => filled g (List.mem_cons_of_mem _ mem)
    have regroup : before.toList ++ ((init ++ [last]) :: gs).flatten =
        (before.toList ++ init) ++ ([last] ++ gs.flatten) := by simp
    rw [regroup] at ordered some_
    obtain ⟨-, tail, across⟩ := List.pairwise_append.mp ordered
    have after := (List.pairwise_append.mp tail).2.2
    refine List.pairwise_cons.mpr ⟨fun k mem => ?_,
      ih others (by simpa using tail) fun p mem => some_ p (by
        simpa using Or.inr (Or.inr (by simpa using mem)))⟩
    obtain ⟨shown, shows_, part, q, own, stop⟩ := chunk_shows others mem
    obtain ⟨p, begins, start⟩ := shows_.start
    have late : p ∈ [last] ++ gs.flatten := by
      simpa using part.subset (List.mem_of_mem_head? begins)
    obtain ⟨p₀, begins, start₀⟩ := (first_shows w total n before init last).start
    have early : p₀ ∈ before.toList ++ init ∨ p₀ = last := by
      have := List.mem_of_mem_head? begins
      split at this <;> simp at this ⊢ <;> tauto
    constructor
    · rw [start₀, start]
      rcases early with early | rfl
      · have := across p₀ early p late
        have := some_ p₀ (List.mem_append_left _ early)
        omega
      · rcases List.mem_cons.mp late with rfl | late
        · exact le_refl _
        · have := after p₀ (by simp) p late
          have := some_ p₀ (by simp)
          omega
    · rw [stop]
      have := after last (by simp) q own
      have := some_ q (by simp [own])
      simp only [List.getLast?_append, List.getLast?_singleton, Option.some_or, Option.map_some,
        Option.getD_some]
      omega

/-- The same chunks without the repeated paragraphs: what a chunk holds beside them. -/
theorem chunks_own (w : Window) {gs : List (List Piece)} (filled : ∀ g ∈ gs, g ≠ []) :
    List.Forall₂ (fun k own => if k.overlapped then ∃ tail, k.text = tail ++ blankLine ++ own.text
      else k.text = own.text) (chunksFrom w total n before gs)
      (chunksFrom { w with overlap := false } total n before gs) := by
  induction gs generalizing n before with
  | nil => exact .nil
  | cons g gs ih =>
    refine .cons ?_ (ih fun g mem => filled g (List.mem_cons_of_mem _ mem))
    cases overlap : w.overlap with
    | false => simp
    | true =>
      cases before with
      | none => simp
      | some p =>
        have some_ : g.map Stretch.text ≠ [] := by simpa using filled g List.mem_cons_self
        simp only [Option.isSome_some, Bool.and_true, if_true]
        refine ⟨p.text, ?_⟩
        simp [joined, List.intercalate_cons_of_ne_nil some_]

end

/-- What chunking is to keep. -/
structure Kept (input : List Char) (w : Window) : Prop where
  /-- Every character that is no whitespace is in the range of some chunk. -/
  found : ∀ pre c post, input = pre ++ c :: post → isWhitespace c = false →
    ∃ k ∈ chunk input w, k.start ≤ width pre ∧ width pre + c.utf8Size ≤ k.stop
  /-- A chunk's range is a place of the input, and its text holds, in order, the characters
  of it that are no whitespace. -/
  held : ∀ k ∈ chunk input w, ∃ pre mid post, input = pre ++ mid ++ post ∧
    k.start = width pre ∧ k.stop = width pre + width mid ∧
    solid isWhitespace k.text = solid isWhitespace mid
  ascending : (chunk input w).Pairwise fun a b => a.start ≤ b.start ∧ a.stop < b.stop
  /-- What is in a chunk beside the overlap is the chunk without overlap. -/
  own : List.Forall₂ (fun k own => if k.overlapped then
      ∃ tail, k.text = tail ++ blankLine ++ own.text else k.text = own.text)
    (chunk input w) (chunk input { w with overlap := false })
  /-- It counts, at four bytes a token and rounded up, at most the budget. -/
  within : ∀ own ∈ chunk input { w with overlap := false },
    (width own.text + 3) / 4 ≤ w.budget

theorem solid_joined (ps : List Piece) :
    solid isWhitespace (joined ps) = ps.flatMap fun p => solid isWhitespace p.text := by
  induction ps using List.reverseRecOn with
  | nil => rfl
  | append_singleton ps p ih =>
    by_cases empty : ps = []
    · simp [empty, joined]
    · have feeds : solid isWhitespace blankLine = [] := by decide
      rw [joined_append empty, solid_append, solid_append, feeds, ih, List.append_nil,
        List.flatMap_append, List.flatMap_singleton]

/-- The texts of the chunks without overlap are the groups'. -/
theorem own_texts (w : Window) (total n : Nat) (before : Option Piece)
    (gs : List (List Piece)) :
    (chunksFrom { w with overlap := false } total n before gs).map Chunk.text =
      gs.map joined := by
  induction gs generalizing n before with
  | nil => rfl
  | cons g gs ih => simp [chunksFrom, ih]

theorem groups_pieces (input : List Char) (budget : Nat) :
    (groups input budget).flatten = pieces input budget := by
  rw [groups, groups_join, List.nil_append]

theorem all_filled (input : List Char) (budget : Nat) : ∀ g ∈ groups input budget, g ≠ [] :=
  fun _ mem => groups_filled mem

/-- A chunk is at least as wide as each piece it shows. -/
theorem Shows.range {at_ : Nat} {cs : List Char} {k : Chunk} {shown : List Piece} {p : Piece}
    (shows_ : Shows k shown) (laid : Laid isWhitespace at_ cs shown) (mem : p ∈ shown) :
    k.start ≤ p.start ∧ p.stop ≤ k.stop := by
  obtain ⟨some_, ordered⟩ := laid.ascending
  constructor
  · obtain ⟨h, first, start⟩ := shows_.start
    obtain ⟨tail, rfl⟩ := List.head?_eq_some_iff.mp first
    rcases List.mem_cons.mp mem with rfl | mem
    · exact start.le
    · have := (List.pairwise_cons.mp ordered).1 p mem
      have := some_ h List.mem_cons_self
      omega
  · obtain ⟨l, last, stop⟩ := shows_.stop
    obtain ⟨init, rfl⟩ := List.getLast?_eq_some_iff.mp last
    rcases List.mem_append.mp mem with mem | mem
    · have := (List.pairwise_append.mp ordered).2.2 p mem l (by simp)
      have := some_ l (by simp)
      omega
    · rw [List.mem_singleton.mp mem]
      exact stop.ge

/-- What is shown is laid on a part of the input. -/
theorem shown_laid {input : List Char} {w : Window} {shown : List Piece} (some_ : 0 < w.budget)
    (small : width input < 2 ^ 32) (part : shown <:+: (groups input w.budget).flatten) :
    ∃ pre mid post, input = pre ++ mid ++ post ∧ Laid isWhitespace (width pre) mid shown := by
  have laid := (pieces_laid some_ small).1
  obtain ⟨front, back, same⟩ := part
  rw [← groups_pieces, ← same, List.append_assoc] at laid
  obtain ⟨pre, later, rfl, -, laid⟩ := laid.split
  obtain ⟨mid, post, rfl, laid, -⟩ := laid.split
  rw [Nat.zero_add] at laid
  exact ⟨pre, mid, post, (List.append_assoc ..).symm, laid⟩

theorem chunk_found {input pre post : List Char} {w : Window} {c : Char} (some_ : 0 < w.budget)
    (small : width input < 2 ^ 32) (here : input = pre ++ c :: post)
    (inked : isWhitespace c = false) :
    ∃ k ∈ chunk input w, k.start ≤ width pre ∧ width pre + c.utf8Size ≤ k.stop := by
  obtain ⟨p, mem, low, high⟩ := (pieces_laid some_ small).1.found here inked
  rw [← groups_pieces] at mem
  have listed : ∃ k ∈ chunk input w, ∃ shown, Shows k shown ∧ p ∈ shown ∧
      shown <:+: [] ++ (groups input w.budget).flatten :=
    piece_shown (all_filled input w.budget) mem
  obtain ⟨k, listed, shown, shows_, own, part⟩ := listed
  obtain ⟨_, _, _, -, laid⟩ := shown_laid some_ small part
  have := shows_.range laid own
  exact ⟨k, listed, by omega, by omega⟩

theorem chunk_held {input : List Char} {w : Window} {k : Chunk} (some_ : 0 < w.budget)
    (small : width input < 2 ^ 32) (mem : k ∈ chunk input w) :
    ∃ pre mid post, input = pre ++ mid ++ post ∧ k.start = width pre ∧
      k.stop = width pre + width mid ∧
      solid isWhitespace k.text = solid isWhitespace mid := by
  obtain ⟨shown, shows_, part, -⟩ := chunk_shows (all_filled input w.budget) mem
  obtain ⟨pre, within, post, rfl, laid⟩ := shown_laid some_ small part
  obtain ⟨p, first, start⟩ := shows_.start
  obtain ⟨q, last, stop⟩ := shows_.stop
  obtain ⟨tail, rfl⟩ := List.head?_eq_some_iff.mp first
  obtain ⟨gap, mid, rest, rfl, -, begins, ends, texts⟩ := laid.covered
  refine ⟨pre ++ gap, mid, rest ++ post, by simp only [List.append_assoc], ?_, ?_, ?_⟩
  · rw [start, begins, width_append]
  · rw [stop, ends q last, begins, width_append]
  · rw [shows_.text, solid_joined, texts]

theorem chunk_ascends {input : List Char} {w : Window} (some_ : 0 < w.budget)
    (small : width input < 2 ^ 32) :
    (chunk input w).Pairwise fun a b => a.start ≤ b.start ∧ a.stop < b.stop := by
  have laid := (pieces_laid some_ small).1
  rw [← groups_pieces] at laid
  obtain ⟨filled, ordered⟩ := laid.ascending
  exact chunks_ascend (all_filled input w.budget) ordered fun p mem => (filled p mem).2

/-- Each own part is within the budget where the cuts are even and the blank lines have room. -/
theorem own_within {input : List Char} {w : Window} (some_ : 0 < w.budget)
    (small : width input < 2 ^ 32) :
    (∀ own ∈ chunk input { w with overlap := false }, (width own.text + 3) / 4 ≤ w.budget) ↔
      CutsEven input w.budget ∧ Roomy w.budget [] 0 (pieces input w.budget) := by
  have rounded (own : Chunk) :
      (width own.text + 3) / 4 ≤ w.budget ↔ width own.text ≤ 4 * w.budget := by omega
  have texts := own_texts w (groups input w.budget).length 0 none (groups input w.budget)
  have empty : width (joined []) ≤ 4 * w.budget := Nat.zero_le _
  rw [← (pieces_laid some_ small).2, ← groups_within empty]
  simp only [rounded]
  rw [← List.forall_mem_map (f := Chunk.text) (P := fun t => width t ≤ 4 * w.budget)]
  rw [chunk, texts, List.forall_mem_map]
  exact Iff.rfl

/-- Chunking keeps every text, and every budget exactly where each cut of a line over it falls
between characters and each paragraph joins others with room for the blank line before it. -/
theorem chunk_kept (input : List Char) (w : Window) (some_ : 0 < w.budget)
    (small : width input < 2 ^ 32) :
    Kept input w ↔ CutsEven input w.budget ∧ Roomy w.budget [] 0 (pieces input w.budget) := by
  rw [← own_within some_ small]
  refine ⟨Kept.within, fun within => ⟨fun _ _ _ => chunk_found some_ small,
    fun _ => chunk_held some_ small, chunk_ascends some_ small, ?_, within⟩⟩
  exact chunks_own w (all_filled input w.budget)

/-- Two paragraphs that go to chunks of their own. -/
theorem short_kept : Kept "ab\n\ncdef gh".toList ⟨2, true⟩ := by
  refine (chunk_kept _ _ (by decide) (by decide)).mpr ⟨fun p mem over_ => ?_, ?_⟩
  · have few : ∀ p ∈ paragraphs "ab\n\ncdef gh".toList, tokens p.text ≤ 2 := by decide
    exact absurd over_ (not_lt.mpr (few p mem))
  · decide

/-- The blank line two paragraphs are joined with is counted nowhere, and a cut that would
fall in a character moves on past it. -/
theorem chunk_overflows : ¬ Kept "aaaa\n\nbbbb".toList ⟨2, true⟩ ∧
    ¬ Kept "あああ".toList ⟨1, true⟩ := by
  constructor <;> intro kept <;> exact absurd kept.within (by decide)

end Chunking
end Smysl
