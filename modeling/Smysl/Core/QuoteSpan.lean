import Smysl.Core.QuoteCells

/-!
Where a stretch of the form came from. A stretch of cells that begins and ends with what was put
there is the form of a stretch of the source, and the tracks give that stretch's ends.
-/
namespace Smysl
namespace Quote
open Utf8
variable [Casing]

/-- A cell that something was put in, and not the space of a run. -/
def Cell.Solid (c : Cell) : Prop := c.text ≠ [] ∧ ∀ k ∈ c.text, isWhitespace k = false

omit [Casing] in
theorem gap_blank {st : State} {x : Cell} (mem : x ∈ st.gap) : ¬ x.Solid := by
  rw [State.gap] at mem
  split at mem
  · obtain rfl := List.mem_singleton.mp mem
    intro solid
    exact absurd (solid.2 ' ' (List.mem_singleton.mpr rfl)) (by decide)
  · cases mem

/-- What a character wrote: nothing, or its cell after the space before it. -/
theorem emit_cases (n : Normaliser) (st : State) (c : Char) :
    (st.emit n c = [] ∧ (st.step n c).last = st.last) ∨ ∃ ks, becomes n st.last c = .put ks ∧
      st.emit n c = st.gap ++ [⟨ks, st.at_, st.at_ + c.utf8Size⟩] := by
  rw [State.emit, State.step]
  cases becomes n st.last c with
  | drop => exact Or.inl ⟨rfl, rfl⟩
  | space => exact Or.inl ⟨rfl, rfl⟩
  | put ks => exact Or.inr ⟨ks, rfl, rfl⟩

/-- A solid cell is what one character of the text became. -/
theorem cell_at {n : Normaliser} {st : State} {src : List Char} {A B : List Cell} {x : Cell}
    (solid : x.Solid) (parts : cells n st src = A ++ x :: B) :
    ∃ front c rest ks, src = front ++ c :: rest ∧ A = cells n st front ++ (st.run n front).gap ∧
      becomes n (st.run n front).last c = .put ks ∧
      x = ⟨ks, (st.run n front).at_, (st.run n front).at_ + c.utf8Size⟩ ∧
      B = cells n ((st.run n front).step n c) rest := by
  induction src generalizing st A with
  | nil => simp [cells] at parts
  | cons c src ih =>
    -- the cell is the character's, or it comes after what the character wrote
    have later (A' : List Cell) (same : A = st.emit n c ++ A')
        (parts : cells n (st.step n c) src = A' ++ x :: B) : ∃ front d rest ks,
        c :: src = front ++ d :: rest ∧ A = cells n st front ++ (st.run n front).gap ∧
        becomes n (st.run n front).last d = .put ks ∧
        x = ⟨ks, (st.run n front).at_, (st.run n front).at_ + d.utf8Size⟩ ∧
        B = cells n ((st.run n front).step n d) rest := by
      obtain ⟨front, d, rest, ks, rfl, rfl, put, here, tail⟩ := ih parts
      exact ⟨c :: front, d, rest, ks, rfl, by rw [same, cells, List.append_assoc]; rfl, put, here,
        tail⟩
    rw [cells] at parts
    rcases emit_cases n st c with ⟨none', _⟩ | ⟨ks, put, wrote⟩
    · rw [none', List.nil_append] at parts
      exact later A (by rw [none', List.nil_append]) parts
    · rcases List.append_eq_append_iff.mp parts with ⟨A', same, tail⟩ | ⟨tail, wrote', rest⟩
      · exact later A' same tail
      · cases tail with
        | nil =>
          rw [List.append_nil] at wrote'
          exact later [] (by rw [← wrote', List.append_nil])
            (by rw [List.nil_append]; exact rest.symm)
        | cons y tail =>
          obtain ⟨rfl, rfl⟩ := List.cons.inj rest
          rw [wrote] at wrote'
          rcases List.eq_nil_or_concat tail with rfl | ⟨more, z, rfl⟩
          · obtain ⟨gap, last⟩ := List.append_inj' wrote' rfl
            obtain rfl := (List.cons.inj last).1
            exact ⟨[], c, src, ks, rfl, gap.symm, put, rfl, rfl⟩
          · -- the cell before the last one is the space
            have mem : x ∈ st.gap := by
              rw [List.concat_eq_append, ← List.cons_append, ← List.append_assoc] at wrote'
              obtain ⟨gap, _⟩ := List.append_inj' wrote' rfl
              rw [gap]
              simp
            exact absurd solid (gap_blank mem)

/-- Where a walk begins has no part in what it writes. -/
theorem text_moved {n : Normaliser} {st st' : State} (last : st.last = st'.last)
    (space : st.space.isSome = st'.space.isSome) (s : List Char) :
    text (cells n st s) = text (cells n st' s) := by
  induction s generalizing st st' with
  | nil => rfl
  | cons c s ih =>
    have gap : text st.gap = text st'.gap := by
      rw [State.gap, State.gap, ← last]
      revert space
      cases st.space <;> cases st'.space <;> cases st.last <;> simp
    rw [cells, cells, text_append, text_append, State.emit, State.emit, State.step, State.step,
      ← last]
    cases becomes n st.last c with
    | drop =>
      exact congrArg (text [] ++ ·) (@ih (st.after _ .drop) (st'.after _ .drop) last space)
    | space => exact congrArg (text [] ++ ·) (@ih (st.after _ .space) (st'.after _ .space) last rfl)
    | put ks =>
      rw [State.writes, State.writes, text_append, text_append, gap]
      simp only [text_cons, text_nil]
      exact congrArg (text st'.gap ++ (ks ++ []) ++ ·)
        (@ih (st.after _ (.put ks)) (st'.after _ (.put ks)) rfl rfl)

/-- What a walk wrote last. -/
theorem run_last (n : Normaliser) (st : State) (s : List Char) :
    (st.run n s).last = (text (cells n st s)).getLast?.or st.last := by
  induction s generalizing st with
  | nil => rfl
  | cons c s ih =>
    change ((st.step n c).run n s).last = _
    rw [ih, cells, text_append, List.getLast?_append, Option.or_assoc]
    congr 1
    rw [State.emit, State.step]
    cases put : becomes n st.last c with
    | drop => rfl
    | space => rfl
    | put ks =>
      obtain ⟨k, last⟩ := Option.ne_none_iff_exists'.mp
        (mt List.getLast?_eq_none_iff.mp (becomes_solid put).1)
      rw [State.writes, text_append, text_cons, text_nil, List.append_nil, State.after,
        List.getLast?_append, last]
      rfl

theorem put_solid {n : Normaliser} {last : Option Char} {c : Char} {ks : List Char}
    (put : becomes n last c = .put ks) (start stop : Nat) : (Cell.mk ks start stop).Solid :=
  becomes_solid put

/-- The first and the last character of a stretch are kept by the form. -/
structure Tight (n : Normaliser) (mid : List Char) : Prop where
  first : ∃ c rest ks, mid = c :: rest ∧ becomes n none c = .put ks
  last : ∃ init c ks, mid = init ++ [c] ∧ becomes n (form n init).getLast? c = .put ks

/-- Cells from a solid one to a solid one are the form of a stretch of the source. -/
theorem segment {n : Normaliser} {src : List Char} {A M B R : List Cell} {x y : Cell}
    (solid : x.Solid) (solid' : y.Solid) (parts : cells n (.fresh 0) src = A ++ x :: R)
    (parts' : x :: R = M ++ y :: B) : ∃ front mid back, src = front ++ mid ++ back ∧
      x.start = width front ∧ y.stop = width (front ++ mid) ∧ Tight n mid ∧
      form n mid = text (M ++ [y]) ∧
      A = cells n (.fresh 0) front ++ ((State.fresh 0).run n front).gap ∧
      cells n (.fresh 0) (front ++ mid) = A ++ (M ++ [y]) := by
  obtain ⟨front, c, rest, ks, rfl, before, put, rfl, after⟩ := cell_at solid parts
  have fresh := becomes_fresh put
  have place : ((State.fresh 0).run n front).at_ = width front := by
    rw [run_at]
    exact Nat.zero_add _
  -- the cells of the stretch, where it stands and on its own
  have wrote (more : List Char) : cells n (.fresh 0) (front ++ c :: more) =
      A ++ ⟨ks, width front, width front + c.utf8Size⟩ ::
        cells n (((State.fresh 0).run n front).step n c) more := by
    rw [cells_append, cells, State.emit, put, before, State.writes, place]
    simp only [List.append_assoc, List.singleton_append]
  have alone (more : List Char) : form n (c :: more) =
      ks ++ text (cells n (((State.fresh 0).run n front).step n c) more) := by
    rw [form_cells, cells, State.emit, State.step, State.step, put,
      show becomes n (State.fresh 0).last c = .put ks from fresh]
    have same : text (cells n ((State.fresh 0).after ((State.fresh 0).at_ + c.utf8Size)
        (.put ks)) more) = text (cells n (((State.fresh 0).run n front).after
          (((State.fresh 0).run n front).at_ + c.utf8Size) (.put ks)) more) := by
      apply text_moved <;> rfl
    rw [← same]
    rfl
  cases M with
  | nil =>
    obtain ⟨rfl, rfl⟩ := List.cons.inj parts'
    refine ⟨front, [c], rest, by simp, place, ?_, ⟨⟨c, [], ks, rfl, fresh⟩, [], c, ks, rfl, ?_⟩,
      ?_, before, ?_⟩
    · rw [width_append, width_cons, width_nil, place, Nat.add_zero]
    · rw [form_cells]
      exact fresh
    · rw [alone, cells, text_nil, List.append_nil]
      simp
    · rw [wrote, cells, place]
      rfl
  | cons x M =>
    obtain ⟨rfl, later⟩ := List.cons.inj parts'
    rw [later] at after
    obtain ⟨more, d, back, ls, rfl, between, put', rfl, _⟩ := cell_at solid' after.symm
    have spot : ((((State.fresh 0).run n front).step n c).run n more).at_ =
        width (front ++ c :: more) := by
      rw [run_at, step_at, place, width_append, width_cons]
      omega
    have tail : cells n (((State.fresh 0).run n front).step n c) (more ++ [d]) =
        M ++ [⟨ls, width (front ++ c :: more), width (front ++ c :: more) + d.utf8Size⟩] := by
      rw [cells_append, cells, State.emit, put', State.writes, cells, between, spot]
      simp only [List.append_assoc, List.append_nil]
    have ends : (form n (c :: more)).getLast? =
        ((((State.fresh 0).run n front).step n c).run n more).last := by
      rw [alone, List.getLast?_append, run_last, State.step, put]
      rfl
    refine ⟨front, c :: (more ++ [d]), back, by simp, place, ?_,
      ⟨⟨c, more ++ [d], ks, rfl, fresh⟩, c :: more, d, ls, rfl, ends ▸ put'⟩, ?_, before, ?_⟩
    · rw [spot]
      simp only [width_append, width_cons, width_nil]
      omega
    · rw [alone, tail, place, spot]
      rfl
    · rw [wrote, tail, place, spot]
      rfl

/-! Places in the form. -/

omit [Casing] in
/-- A character of the form stands in a cell. -/
theorem cell_holding {cs : List Cell} {pre more : List Char} {k : Char}
    (written : text cs = pre ++ k :: more) : ∃ A x B p s, cs = A ++ x :: B ∧
      x.text = p ++ k :: s ∧ pre = text A ++ p ∧ more = s ++ text B := by
  induction cs generalizing pre with
  | nil => simp at written
  | cons c cs ih =>
    rw [text_cons] at written
    rcases List.append_eq_append_iff.mp written with ⟨pre', rfl, rest⟩ | ⟨s, own, rest⟩
    · obtain ⟨A, x, B, p, s, rfl, holds, rfl, after⟩ := ih rest
      exact ⟨c :: A, x, B, p, s, rfl, holds, by simp, after⟩
    · cases s with
      | nil =>
        rw [List.append_nil] at own
        obtain ⟨A, x, B, p, s, rfl, holds, empty, after⟩ := @ih [] rest.symm
        refine ⟨c :: A, x, B, p, s, rfl, holds, ?_, after⟩
        rw [text_cons, List.append_assoc, ← empty, own, List.append_nil]
      | cons j s =>
        obtain ⟨rfl, rfl⟩ := List.cons.inj rest
        exact ⟨[], c, cs, pre, s, rfl, own, by simp, rfl⟩

omit [Casing] in
theorem starts_at {A B : List Cell} {x : Cell} {p : List Char} (last : Nat)
    (inside : width p < width x.text) :
    (startsOf (A ++ x :: B) ++ [last])[width (text A ++ p)]? = some x.start := by
  rw [starts_append, List.append_assoc, List.getElem?_append_right
    (by rw [length_starts, width_append]; omega), length_starts, width_append,
    Nat.add_sub_cancel_left]
  change ((List.replicate (width x.text) x.start ++ startsOf B) ++ [last])[width p]? = _
  rw [List.append_assoc, List.getElem?_append_left (by rw [List.length_replicate]; exact inside),
    List.getElem?_replicate, if_pos inside]

omit [Casing] in
theorem ends_at {A B : List Cell} {x : Cell} {p : List Char} (some' : p ≠ [])
    (inside : width p ≤ width x.text) :
    (0 :: endsOf (A ++ x :: B))[width (text A ++ p)]? = some x.stop := by
  have positive := width_pos some'
  rw [width_append, show width (text A) + width p = width (text A) + (width p - 1) + 1 by omega,
    List.getElem?_cons_succ, ends_append, List.getElem?_append_right
    (by rw [length_ends]; omega), length_ends, Nat.add_sub_cancel_left]
  change (List.replicate (width x.text) x.stop ++ endsOf B)[width p - 1]? = _
  rw [List.getElem?_append_left (by rw [List.length_replicate]; omega),
    List.getElem?_replicate, if_pos (by omega)]

omit [Casing] in
/-- Between cells no cell is cut. -/
theorem no_cut {P Q A B : List Cell} {x : Cell} {a b : List Char}
    (parts : P ++ Q = A ++ x :: B) (own : x.text = a ++ b) (left : a ≠ []) (right : b ≠ []) :
    width (text A ++ a) ≠ width (text P) := by
  have some' := width_pos left
  have some'' := width_pos right
  rcases List.append_eq_append_iff.mp parts with ⟨t, rfl, _⟩ | ⟨t, rfl, rest⟩
  · simp only [text_append, width_append]
    omega
  · cases t with
    | nil => simp only [text_append, text_nil, width_append, width_nil]; omega
    | cons y t =>
      obtain ⟨rfl, _⟩ := List.cons.inj rest
      simp only [text_append, text_cons, own, width_append]
      omega

/-- What a text is written as begins and ends in solid cells. -/
theorem cells_solid (n : Normaliser) (st : State) (s : List Char) :
    (∀ x B, st.last = none → cells n st s = x :: B → x.Solid) ∧
      ∀ A y, cells n st s = A ++ [y] → y.Solid := by
  induction s generalizing st with
  | nil => exact ⟨fun x B _ none' => (by cases none'), fun A y none' => (by simp [cells] at none')⟩
  | cons c s ih =>
    obtain ⟨first, last⟩ := ih (st.step n c)
    rw [cells]
    rcases emit_cases n st c with ⟨none', kept⟩ | ⟨ks, put, wrote⟩
    · rw [none', List.nil_append]
      exact ⟨fun x B fresh => first x B (kept.trans fresh), last⟩
    · rw [wrote]
      constructor
      · intro x B fresh written
        have gap : st.gap = [] := by
          rw [State.gap, fresh]
          cases st.space <;> rfl
        rw [gap] at written
        obtain ⟨rfl, _⟩ := List.cons.inj written
        exact put_solid put _ _
      · intro A y written
        rcases List.eq_nil_or_concat (cells n (st.step n c) s) with none' | ⟨more, z, more'⟩
        · rw [none', List.append_nil] at written
          obtain ⟨_, same⟩ := List.append_inj' written rfl
          cases same
          exact put_solid put _ _
        · rw [List.concat_eq_append] at more'
          rw [more', ← List.append_assoc] at written
          obtain ⟨_, same⟩ := List.append_inj' written rfl
          cases same
          exact last more y more'

/-- A form that is anything begins and ends with no whitespace. -/
theorem form_solid {n : Normaliser} {s : List Char} (some' : form n s ≠ []) :
    (∃ k rest, form n s = k :: rest ∧ isWhitespace k = false) ∧
      ∃ init k, form n s = init ++ [k] ∧ isWhitespace k = false := by
  rw [form_cells] at some' ⊢
  obtain ⟨first, last⟩ := cells_solid n (.fresh 0) s
  constructor
  · cases written : cells n (.fresh 0) s with
    | nil => exact absurd (congrArg text written) some'
    | cons x B =>
      obtain ⟨filled, solid⟩ := first x B rfl written
      obtain ⟨k, rest, same⟩ := List.exists_cons_of_ne_nil filled
      exact ⟨k, rest ++ text B, by rw [text_cons, same]; rfl, solid k (same ▸ List.mem_cons_self)⟩
  · rcases List.eq_nil_or_concat (cells n (.fresh 0) s) with none' | ⟨A, y, written⟩
    · exact absurd (congrArg text none') some'
    · rw [List.concat_eq_append] at written
      obtain ⟨filled, solid⟩ := last A y written
      rcases List.eq_nil_or_concat y.text with none' | ⟨init, k, same⟩
      · exact absurd none' filled
      · rw [List.concat_eq_append] at same
        refine ⟨text A ++ init, k, ?_, solid k (same ▸ by simp)⟩
        rw [written, text_append, text_cons, text_nil, same]
        simp

/-! A contiguous match. -/

/-- The first occurrence of a quote begins or ends inside what one character became. -/
def Torn (n : Normaliser) (quote source : List Char) : Prop :=
  ∃ i A x B a b, find (form n quote) (form n source) = some i ∧
    cells n (.fresh 0) source = A ++ x :: B ∧ x.text = a ++ b ∧ a ≠ [] ∧ b ≠ [] ∧
    (width (text A ++ a) = i ∨ width (text A ++ a) = i + width (form n quote))

theorem cell_kinds {n : Normaliser} {st : State} {s : List Char} {x : Cell}
    (mem : x ∈ cells n st s) : x.Solid ∨ x.text = [' '] := by
  induction s generalizing st with
  | nil => cases mem
  | cons c s ih =>
    rw [cells] at mem
    rcases List.mem_append.mp mem with here | later
    · rcases emit_cases n st c with ⟨none', _⟩ | ⟨ks, put, wrote⟩
      · rw [none'] at here
        cases here
      · rw [wrote] at here
        rcases List.mem_append.mp here with gap | own
        · rw [State.gap] at gap
          split at gap
          · obtain rfl := List.mem_singleton.mp gap
            exact Or.inr rfl
          · cases gap
        · obtain rfl := List.mem_singleton.mp own
          exact Or.inl (put_solid put _ _)
    · exact ih later

/-- A cell that holds a character that is no whitespace is solid. -/
theorem solid_of_holding {n : Normaliser} {st : State} {s : List Char} {x : Cell} {k : Char}
    (mem : x ∈ cells n st s) (held : k ∈ x.text) (inked : isWhitespace k = false) : x.Solid := by
  rcases cell_kinds mem with solid | space
  · exact solid
  · rw [space, List.mem_singleton] at held
    rw [held] at inked
    exact absurd inked (by decide)

/-- A stretch of the form that begins and ends with no whitespace comes from a stretch of the
source, whose form is the stretch and what else its first and last cells hold. -/
theorem stretch {n : Normaliser} {source pre q post : List Char}
    (first : ∃ k rest, q = k :: rest ∧ isWhitespace k = false)
    (last : ∃ init k, q = init ++ [k] ∧ isWhitespace k = false)
    (occurs : form n source = pre ++ q ++ post) :
    ∃ front mid back A M B x y p s p' s',
      source = front ++ mid ++ back ∧ Tight n mid ∧ form n mid = p ++ q ++ s' ∧
      cells n (.fresh 0) source = A ++ M ++ y :: B ∧
      cells n (.fresh 0) front ++ ((State.fresh 0).run n front).gap = A ∧
      cells n (.fresh 0) (front ++ mid) = A ++ (M ++ [y]) ∧
      (∃ R, M ++ y :: B = x :: R) ∧ x.text = p ++ s ∧ s ≠ [] ∧ y.text = p' ++ s' ∧ p' ≠ [] ∧
      pre = text A ++ p ∧ pre ++ q = text (A ++ M) ++ p' ∧ post = s' ++ text B ∧
      x.start = width front ∧ y.stop = width (front ++ mid) := by
  obtain ⟨k, rest, same, inked⟩ := first
  obtain ⟨init, l, same', inked'⟩ := last
  rw [form_cells] at occurs
  obtain ⟨A, x, R, p, s, parts, holds, rfl, after⟩ := cell_holding
    (show text (cells n (.fresh 0) source) = pre ++ k :: (rest ++ post) by
      rw [occurs, same, List.append_assoc, List.cons_append])
  have solid : x.Solid := solid_of_holding (by rw [parts]; simp) (by rw [holds]; simp) inked
  -- the last character, among the cells from the first on
  have left : text (x :: R) = (p ++ init) ++ l :: post := by
    rw [text_cons, holds, List.append_assoc, List.cons_append, ← after]
    rw [show p ++ init ++ l :: post = p ++ (init ++ [l] ++ post) by simp, ← same', same]
    simp
  obtain ⟨M, y, B, p', s', parts', holds', within, after'⟩ := cell_holding left
  have solid' : y.Solid := by
    refine solid_of_holding (by rw [parts, parts']; simp) (by rw [holds']; simp) inked'
  obtain ⟨front, mid, back, rfl, start, stop, tight, formed, before, upTo⟩ :=
    segment solid solid' parts parts'
  refine ⟨front, mid, back, A, M, B, x, y, p, k :: s, p' ++ [l], s', rfl, tight, ?_, ?_,
    before.symm, upTo, ⟨R, parts'.symm⟩, holds, List.cons_ne_nil _ _, by rw [holds']; simp,
    by simp, rfl, ?_, after', start, stop⟩
  · rw [formed, text_append, text_cons, text_nil, holds', List.append_nil, same',
      ← List.append_assoc, ← within]
    simp
  · rw [parts, parts', List.append_assoc]
  · rw [same', text_append, List.append_assoc, List.append_assoc, ← List.append_assoc (text M),
      ← within]
    simp

/-- What is reported of an occurrence, and when its form is the quote's. -/
theorem match_exact {n : Normaliser} {quote source : List Char} {i : Nat}
    (some' : form n quote ≠ []) (found : find (form n quote) (form n source) = some i) :
    ∃ front mid back, source = front ++ mid ++ back ∧
      (formMapped n source).starts[i]? = some (width front) ∧
      (formMapped n source).ends[i + width (form n quote)]? = some (width (front ++ mid)) ∧
      (form n mid = form n quote ↔ ¬ Torn n quote source) := by
  obtain ⟨first, last⟩ := form_solid some'
  obtain ⟨pre, post, occurs, rfl⟩ := find_split found
  obtain ⟨front, mid, back, A, M, B, x, y, p, s, p', s', rfl, _, formed, parts, _, _, ⟨R, parts'⟩,
    holds, more, holds', more', start, stop, _, begins, ends⟩ := stretch first last occurs
  have parts'' : cells n (.fresh 0) (front ++ mid ++ back) = A ++ x :: R := by
    rw [parts, List.append_assoc, parts']
  obtain ⟨sentinel, _, starts, stops⟩ := mapped_cells n (front ++ mid ++ back)
  have length : width pre + width (form n quote) = width (text (A ++ M) ++ p') := by
    rw [← stop, width_append]
  refine ⟨front, mid, back, rfl, ?_, ?_, ?_⟩
  · rw [starts, parts'', start, starts_at, begins]
    rw [holds, width_append]
    have := width_pos more
    omega
  · rw [stops, parts, length, ends_at more', ends]
    rw [holds', width_append]
    omega
  · rw [formed]
    constructor
    · -- a cut would be between cells
      intro same
      have sizes := congrArg List.length same
      simp only [List.length_append] at sizes
      obtain rfl : p = [] := List.length_eq_zero_iff.mp (by omega)
      obtain rfl : s' = [] := List.length_eq_zero_iff.mp (by omega)
      rw [List.append_nil] at start holds'
      rintro ⟨i, A', x', B', a, b, found', cut, own, left, right, at_⟩
      rw [found] at found'
      cases found'
      rcases at_ with here | here
      · rw [start] at here
        exact no_cut (parts''.symm.trans cut) own left right here
      · have whole : A ++ M ++ [y] ++ B = A' ++ x' :: B' := by
          rw [← cut, parts]
          simp
        rw [length, ← holds'] at here
        refine no_cut whole own left right (here.trans ?_)
        simp only [text_append, text_cons, text_nil, width_append, width_nil, Nat.add_zero]
    · intro whole
      have none' : p = [] := by
        by_contra some''
        exact whole ⟨_, A, x, R, p, s, found, parts'', holds, some'', more, Or.inl (by rw [start])⟩
      have none'' : s' = [] := by
        by_contra some''
        exact whole ⟨_, A ++ M, y, B, p', s', found, parts, holds', more', some'',
          Or.inr length.symm⟩
      rw [none', none'', List.nil_append, List.append_nil]

end Quote
end Smysl
