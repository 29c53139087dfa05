import Smysl.Core.Quote

/-!
What the characters of a text become. Each character is deleted, is whitespace, or becomes some
characters of the form, and these stand in a cell with the range of the character they came
from. The walks of both forms write cells, one after another, and the two tracks are the ranges
of the cells.
-/
namespace Smysl
namespace Quote
open Utf8

/-- What a character becomes. -/
inductive Becomes
  | drop
  | space
  | put (ks : List Char)

/-- A stretch of the form, and the range of the source it stands for. -/
structure Cell where
  text : List Char
  start : Nat
  stop : Nat

/-- Where a walk is: the offset, what it wrote last, and where whitespace began. -/
structure State where
  at_ : Nat
  last : Option Char
  space : Option Nat

def Fold.becomes : Fold → Becomes
  | drop => .drop
  | space => .space
  | one k => .put [k]
  | two a b => .put [a, b]

def text (cs : List Cell) : List Char := cs.flatMap Cell.text

def startsOf (cs : List Cell) : List Nat :=
  cs.flatMap fun c => List.replicate (width c.text) c.start

def endsOf (cs : List Cell) : List Nat :=
  cs.flatMap fun c => List.replicate (width c.text) c.stop

@[simp] theorem text_nil : text [] = [] := rfl
@[simp] theorem text_cons (c : Cell) (cs : List Cell) : text (c :: cs) = c.text ++ text cs := rfl
@[simp] theorem text_append (cs ds : List Cell) : text (cs ++ ds) = text cs ++ text ds :=
  List.flatMap_append

theorem starts_append (cs ds : List Cell) : startsOf (cs ++ ds) = startsOf cs ++ startsOf ds :=
  List.flatMap_append

theorem ends_append (cs ds : List Cell) : endsOf (cs ++ ds) = endsOf cs ++ endsOf ds :=
  List.flatMap_append

theorem length_starts (cs : List Cell) : (startsOf cs).length = width (text cs) := by
  induction cs with
  | nil => rfl
  | cons c cs ih =>
    rw [startsOf, List.flatMap_cons, List.length_append, List.length_replicate, text_cons,
      width_append]
    exact congrArg (width c.text + ·) ih

theorem length_ends (cs : List Cell) : (endsOf cs).length = width (text cs) := by
  induction cs with
  | nil => rfl
  | cons c cs ih =>
    rw [endsOf, List.flatMap_cons, List.length_append, List.length_replicate, text_cons,
      width_append]
    exact congrArg (width c.text + ·) ih

/-- The space that a run of whitespace leaves before what is written next. -/
def State.gap (st : State) : List Cell :=
  match st.space, st.last with
  | some from_, some _ => [⟨[' '], from_, st.at_⟩]
  | _, _ => []

/-- The state past a character that became something. -/
def State.after (st : State) (stop : Nat) : Becomes → State
  | .drop => { st with at_ := stop }
  | .space => { st with at_ := stop, space := some (st.space.getD st.at_) }
  | .put ks => ⟨stop, ks.getLast?, none⟩

/-- The cells written for a character that became something. -/
def State.writes (st : State) (stop : Nat) : Becomes → List Cell
  | .put ks => st.gap ++ [⟨ks, st.at_, stop⟩]
  | _ => []

section Becoming
variable [Casing]

/-- What a character becomes after what was written last. -/
def becomes (n : Normaliser) (last : Option Char) (c : Char) : Becomes :=
  match n with
  | .v1 =>
    match foldV1 c with
    | none => .drop
    | some d => if isWhitespace d then .space else .put (Casing.toLowercase d)
  | .v2 =>
    match Casing.toLowercase c with
    | [d] => (foldV2 d last).becomes
    | ds => .put ds

def State.step (n : Normaliser) (st : State) (c : Char) : State :=
  st.after (st.at_ + c.utf8Size) (becomes n st.last c)

def State.emit (n : Normaliser) (st : State) (c : Char) : List Cell :=
  st.writes (st.at_ + c.utf8Size) (becomes n st.last c)

def cells (n : Normaliser) (st : State) : List Char → List Cell
  | [] => []
  | c :: cs => st.emit n c ++ cells n (st.step n c) cs

def State.run (n : Normaliser) (st : State) (cs : List Char) : State := cs.foldl (State.step n) st

/-- Nothing is written yet. -/
def State.fresh (at_ : Nat) : State := ⟨at_, none, none⟩

theorem cells_append (n : Normaliser) (st : State) (xs ys : List Char) :
    cells n st (xs ++ ys) = cells n st xs ++ cells n (st.run n xs) ys := by
  induction xs generalizing st with
  | nil => rfl
  | cons c xs ih => rw [List.cons_append, cells, cells, ih, List.append_assoc]; rfl

theorem step_at (n : Normaliser) (st : State) (c : Char) :
    (st.step n c).at_ = st.at_ + c.utf8Size := by
  rw [State.step]
  cases becomes n st.last c <;> rfl

theorem run_at (n : Normaliser) (st : State) (cs : List Char) :
    (st.run n cs).at_ = st.at_ + width cs := by
  induction cs generalizing st with
  | nil => rfl
  | cons c cs ih =>
    change ((st.step n c).run n cs).at_ = _
    rw [ih, step_at, width_cons, Nat.add_assoc]

/-! What becomes of characters. -/

omit [Casing] in
theorem fold_solid {c : Char} {last : Option Char} {ks : List Char}
    (put : (foldV2 c last).becomes = .put ks) : ks ≠ [] ∧ ∀ k ∈ ks, isWhitespace k = false := by
  rw [foldV2] at put
  split_ifs at put with _ _ _ _ _ _ _ _ _ blank
  all_goals cases put
  · exact ⟨by simp, by simp [isWhitespace]⟩
  · exact ⟨by simp, by simp [isWhitespace]⟩
  · exact ⟨by simp, by simp [isWhitespace]⟩
  · exact ⟨by simp, by simp [isWhitespace]⟩
  · exact ⟨by simp, by simpa using blank⟩

omit [Casing] in
/-- Only a mark that is deleted looks back. -/
theorem fold_fresh {c : Char} {last : Option Char} {ks : List Char}
    (put : (foldV2 c last).becomes = .put ks) : foldV2 c none = foldV2 c last := by
  by_cases mark : c = '\u0308' ∧ last = some '\u0435'
  · obtain ⟨rfl, rfl⟩ := mark
    cases put
  · have none' : ¬ (c = '\u0308' ∧ (none : Option Char) = some '\u0435') := by simp
    rw [foldV2, foldV2, if_neg mark, if_neg none']

theorem lower_cases (c : Char) : (∃ d, Casing.toLowercase c = [d]) ∨
    Casing.toLowercase c = ['i', '\u0307'] := by
  by_cases dotted : c = 'İ'
  · exact Or.inr (dotted ▸ Casing.lower_dotted)
  · exact Or.inl (Casing.lower_single c dotted)

/-- What is put is something, and no whitespace. -/
theorem becomes_solid {n : Normaliser} {last : Option Char} {c : Char} {ks : List Char}
    (put : becomes n last c = .put ks) : ks ≠ [] ∧ ∀ k ∈ ks, isWhitespace k = false := by
  cases n with
  | v1 =>
    rw [becomes] at put
    split at put
    · cases put
    · rename_i d _
      split at put
      · cases put
      · rename_i inked
        cases put
        refine ⟨?_, Casing.lower_solid d (by simpa using inked)⟩
        rcases lower_cases d with ⟨e, one⟩ | two
        · exact one ▸ List.cons_ne_nil _ _
        · exact two ▸ List.cons_ne_nil _ _
  | v2 =>
    rw [becomes] at put
    rcases lower_cases c with ⟨d, one⟩ | two
    · rw [one] at put
      exact fold_solid put
    · rw [two] at put
      cases put
      exact ⟨List.cons_ne_nil _ _, by simp [isWhitespace]⟩

/-- What is put after something is put where nothing was written. -/
theorem becomes_fresh {n : Normaliser} {last : Option Char} {c : Char} {ks : List Char}
    (put : becomes n last c = .put ks) : becomes n none c = .put ks := by
  cases n with
  | v1 => exact put
  | v2 =>
    rw [becomes] at put ⊢
    rcases lower_cases c with ⟨d, one⟩ | two
    · rw [one] at put ⊢
      rw [← put]
      exact congrArg Fold.becomes (fold_fresh put)
    · rw [two] at put ⊢
      exact put

end Becoming

/-! The walks. -/

/-- A walk has written some cells and is in a state. -/
structure Shown (w : Walk) (st : State) (cs : List Cell) : Prop where
  out : w.out = text cs
  map : w.map = startsOf cs
  ends : w.ends = 0 :: endsOf cs
  space : w.space = st.space
  last : st.last = (text cs).getLast?

theorem resize_grow {l : List Nat} {n : Nat} (x : Nat) (fits : l.length ≤ n) :
    resize l n x = l ++ List.replicate (n - l.length) x := by
  rw [resize, List.take_of_length_le fits]

variable {w : Walk} {st : State} {cs : List Cell}

theorem Shown.blank (shown : Shown w st cs) (at_ at' : Nat) :
    Shown (w.blank at_) ⟨at', st.last, some (st.space.getD at_)⟩ cs := by
  obtain ⟨out, map, ends, space, last⟩ := shown
  exact ⟨out, map, ends, by rw [← space]; rfl, last⟩

theorem Shown.moved (shown : Shown w st cs) (at_ : Nat) : Shown w { st with at_ := at_ } cs := by
  obtain ⟨out, map, ends, space, last⟩ := shown
  exact ⟨out, map, ends, space, last⟩

theorem Shown.flush (shown : Shown w st cs) : Shown (w.flush st.at_)
    ⟨st.at_, (text (cs ++ st.gap)).getLast?, none⟩ (cs ++ st.gap) := by
  obtain ⟨out, map, ends, space, last⟩ := shown
  obtain ⟨at_, before, since⟩ := st
  dsimp only at space last ⊢
  cases since with
  | none =>
    rw [Walk.flush, space]
    simp only [State.gap, List.append_nil]
    exact ⟨out, map, ends, space, rfl⟩
  | some from_ =>
    rw [Walk.flush, space]
    cases before with
    | none =>
      have empty : text cs = [] := List.getLast?_eq_none_iff.mp last.symm
      simp only [out, empty, List.isEmpty_nil, if_true, State.gap, List.append_nil]
      exact ⟨empty.symm, map, ends, rfl, by rw [empty]⟩
    | some k =>
      have some' : (text cs).isEmpty = false := by
        cases written : text cs with
        | nil =>
          rw [written] at last
          cases last
        | cons c rest => rfl
      simp only [out, some', State.gap, Bool.false_eq_true, if_false]
      refine ⟨?_, ?_, ?_, rfl, rfl⟩
      · rw [text_append]
        rfl
      · rw [map, starts_append]
        rfl
      · rw [ends, ends_append, List.cons_append]
        rfl

theorem Shown.push (shown : Shown w st cs) (at_ at' stop : Nat) {ks : List Char}
    (some' : ks ≠ []) : Shown (w.push at_ stop ks) ⟨at', ks.getLast?, st.space⟩
      (cs ++ [⟨ks, at_, stop⟩]) := by
  obtain ⟨out, map, ends, space, last⟩ := shown
  have written : text (cs ++ [⟨ks, at_, stop⟩]) = text cs ++ ks := by
    rw [text_append, text_cons, text_nil, List.append_nil]
  refine ⟨?_, ?_, ?_, space, ?_⟩
  · rw [written, ← out]
    rfl
  · change resize w.map (max (width (w.out ++ ks)) (width w.out)) at_ = _
    rw [out, map, starts_append, width_append, max_eq_left (Nat.le_add_right _ _),
      resize_grow _ (by rw [length_starts]; omega), length_starts, Nat.add_sub_cancel_left]
    simp [startsOf]
  · change resize w.ends (width (w.out ++ ks) + 1) stop = _
    rw [out, ends, ends_append, width_append,
      resize_grow _ (by rw [List.length_cons, length_ends]; omega), List.length_cons, length_ends,
      show width (text cs) + width ks + 1 - (width (text cs) + 1) = width ks by omega,
      List.cons_append]
    simp [endsOf]
  · rw [written, List.getLast?_append_of_ne_nil _ some']

/-- Two stretches that one character became are one. -/
theorem Shown.merge {a b : List Char} {start stop : Nat}
    (shown : Shown w st (cs ++ [⟨a, start, stop⟩] ++ [⟨b, start, stop⟩])) :
    Shown w st (cs ++ [⟨a ++ b, start, stop⟩]) := by
  obtain ⟨out, map, ends, space, last⟩ := shown
  have same : text (cs ++ [⟨a, start, stop⟩] ++ [⟨b, start, stop⟩]) =
      text (cs ++ [⟨a ++ b, start, stop⟩]) := by
    simp
  refine ⟨out.trans same, map.trans ?_, ends.trans ?_, space, by rw [last, same]⟩
  · simp [startsOf]
  · simp [endsOf]

variable [Casing]

theorem step_v1_shown (shown : Shown w st cs) (c : Char) :
    Shown (w.stepV1 st.at_ c) (st.step .v1 c) (cs ++ st.emit .v1 c) := by
  rw [Walk.stepV1, State.step, State.emit]
  cases folded : foldV1 c with
  | none =>
    have drops : becomes .v1 st.last c = .drop := by simp only [becomes, folded]
    rw [drops]
    exact (List.append_nil cs).symm ▸ shown.moved _
  | some d =>
    dsimp only
    by_cases blank : isWhitespace d = true
    · have spaces : becomes .v1 st.last c = .space := by simp only [becomes, folded, blank, if_true]
      rw [spaces, if_pos blank]
      exact (List.append_nil cs).symm ▸ shown.blank _ _
    · have puts : becomes .v1 st.last c = .put (Casing.toLowercase d) := by
        simp only [becomes, folded, blank, Bool.false_eq_true, if_false]
      have pushed := shown.flush.push st.at_ (st.at_ + c.utf8Size) (st.at_ + c.utf8Size)
        (becomes_solid puts).1
      rw [puts, if_neg blank]
      rwa [List.append_assoc] at pushed

omit [Casing] in
/-- One character of a lowered one. -/
theorem lower_shown (shown : Shown w st cs) (stop : Nat) (d : Char) :
    Shown (w.lowerV2 st.at_ stop d) (st.after stop (foldV2 d st.last).becomes)
      (cs ++ st.writes stop (foldV2 d st.last).becomes) := by
  rw [Walk.lowerV2, shown.out, ← shown.last]
  cases foldV2 d st.last with
  | drop => exact (List.append_nil cs).symm ▸ shown.moved _
  | space => exact (List.append_nil cs).symm ▸ shown.blank _ _
  | one k =>
    have pushed := shown.flush.push st.at_ stop stop (List.cons_ne_nil k [])
    rwa [List.append_assoc] at pushed
  | two a b =>
    have pushed := shown.flush.push st.at_ stop stop (List.cons_ne_nil a [b])
    rwa [List.append_assoc] at pushed

theorem step_v2_shown (shown : Shown w st cs) (c : Char) :
    Shown (w.stepV2 st.at_ c) (st.step .v2 c) (cs ++ st.emit .v2 c) := by
  rw [Walk.stepV2, State.step, State.emit]
  rcases lower_cases c with ⟨d, one⟩ | two
  · have became : becomes .v2 st.last c = (foldV2 d st.last).becomes := by
      simp only [becomes, one]
    rw [one, became]
    exact lower_shown shown (st.at_ + c.utf8Size) d
  · -- the one character that becomes two on its own
    have became : becomes .v2 st.last c = .put ['i', '\u0307'] := by
      simp only [becomes, two]
    rw [two, became]
    have first := lower_shown shown (st.at_ + c.utf8Size) 'i'
    rw [show foldV2 'i' st.last = .one 'i' by simp [foldV2, isDash, isWhitespace]] at first
    have second := lower_shown (first.moved st.at_) (st.at_ + c.utf8Size) '\u0307'
    change Shown _ (State.after _ _ (foldV2 '\u0307' (some 'i')).becomes)
      (_ ++ State.writes ⟨st.at_, some 'i', none⟩ _ (foldV2 '\u0307' (some 'i')).becomes) at second
    rw [show foldV2 '\u0307' (some 'i') = .one '\u0307' by
      simp [foldV2, isDash, isWhitespace]] at second
    change Shown _ _ (cs ++ (st.gap ++ [⟨['i'], st.at_, st.at_ + c.utf8Size⟩]) ++
      [⟨['\u0307'], st.at_, st.at_ + c.utf8Size⟩]) at second
    rw [← List.append_assoc cs] at second
    have merged := second.merge
    rwa [List.append_assoc] at merged

/-- A walk over a text writes the cells of the text. -/
theorem over_shown {n : Normaliser} {step : Walk → Nat → Char → Walk}
    (each : ∀ {w st cs}, Shown w st cs → ∀ c,
      Shown (step w st.at_ c) (st.step n c) (cs ++ st.emit n c))
    (shown : Shown w st cs) (s : List Char) :
    Shown (Walk.overText step w st.at_ s) (st.run n s) (cs ++ cells n st s) := by
  induction s generalizing w st cs with
  | nil => exact (List.append_nil cs).symm ▸ shown
  | cons c s ih =>
    have next := ih (each shown c)
    rw [step_at, List.append_assoc] at next
    exact next

/-- The form of a text and its tracks. -/
theorem mapped_cells (n : Normaliser) (s : List Char) : ∃ last,
    (formMapped n s).out = text (cells n (.fresh 0) s) ∧
    (formMapped n s).starts = startsOf (cells n (.fresh 0) s) ++ [last] ∧
    (formMapped n s).ends = 0 :: endsOf (cells n (.fresh 0) s) := by
  have empty : Shown {} (.fresh 0) [] := ⟨rfl, rfl, rfl, rfl, rfl⟩
  obtain ⟨w, st, same, shown⟩ : ∃ w st, formMapped n s = w.mapped ∧
      Shown w st ([] ++ cells n (.fresh 0) s) := by
    cases n with
    | v1 => exact ⟨_, _, rfl, over_shown step_v1_shown empty s⟩
    | v2 => exact ⟨_, _, rfl, over_shown step_v2_shown empty s⟩
  rw [List.nil_append] at shown
  rw [same]
  refine ⟨w.contentEnds, shown.out, ?_, ?_⟩
  · change w.map.take (width w.out) ++ [w.contentEnds] = _
    rw [shown.map, shown.out, List.take_of_length_le (le_of_eq (length_starts _))]
  · change w.ends.take (width w.out + 1) = _
    rw [shown.ends, shown.out, List.take_of_length_le]
    rw [List.length_cons, length_ends]

/-- The two walks of the first form agree. -/
theorem normalise_cells {st : State} {cs : List Cell} (last : st.last = (text cs).getLast?)
    (s : List Char) : normaliseFrom (text cs) st.space.isSome s = text (cs ++ cells .v1 st s) := by
  induction s generalizing st cs with
  | nil => rw [normaliseFrom, cells, List.append_nil]
  | cons c s ih =>
    rw [normaliseFrom, cells, State.emit, State.step]
    cases folded : foldV1 c with
    | none =>
      have drops : becomes .v1 st.last c = .drop := by simp only [becomes, folded]
      rw [drops]
      exact @ih (st.after (st.at_ + c.utf8Size) .drop) cs last
    | some d =>
      dsimp only
      by_cases blank : isWhitespace d = true
      · have spaces : becomes .v1 st.last c = .space := by
          simp only [becomes, folded, blank, if_true]
        rw [spaces, if_pos blank]
        exact @ih (st.after (st.at_ + c.utf8Size) .space) cs last
      · have puts : becomes .v1 st.last c = .put (Casing.toLowercase d) := by
          simp only [becomes, folded, blank, Bool.false_eq_true, if_false]
        have some' := (becomes_solid puts).1
        have gap : (if st.space.isSome && !(text cs).isEmpty then text cs ++ [' '] else text cs) =
            text (cs ++ st.gap) := by
          rw [text_append, State.gap, last]
          cases st.space with
          | none => simp
          | some from_ =>
            cases written : text cs with
            | nil => simp
            | cons k rest =>
              cases ends : (k :: rest).getLast? with
              | none => simp at ends
              | some l => simp
        rw [puts, if_neg blank, gap]
        have next := @ih (st.after (st.at_ + c.utf8Size) (.put (Casing.toLowercase d)))
          (cs ++ st.gap ++ [⟨Casing.toLowercase d, st.at_, st.at_ + c.utf8Size⟩]) ?_
        · rw [text_append _ [_], text_cons, text_nil, List.append_nil] at next
          rw [List.append_assoc cs, List.append_assoc cs] at next
          exact next
        · rw [text_append _ [_], text_cons, text_nil, List.append_nil,
            List.getLast?_append_of_ne_nil _ some']
          rfl

/-- The comparison form of a text is what its cells hold. -/
theorem form_cells (n : Normaliser) (s : List Char) : form n s = text (cells n (.fresh 0) s) := by
  cases n with
  | v1 => exact @normalise_cells _ (.fresh 0) [] rfl s
  | v2 =>
    obtain ⟨_, out, _⟩ := mapped_cells .v2 s
    exact out

end Quote
end Smysl
