import Smysl.Lib.Utf8

/-!
Spans laid on a text: each is a range of it with a text of its own, which has every character
of the range that is no blank and no others. They stand one after another, and what is between
them is blank.
-/
namespace Utf8

/-- A range in bytes, its end outside it, and a text. -/
structure Stretch where
  start : Nat
  stop : Nat
  text : List Char
  deriving DecidableEq

/-- The characters that are no blanks. -/
def solid (blank : Char → Bool) (cs : List Char) : List Char := cs.filter fun c => !blank c

/-- The spans are laid on a text that begins at an offset. -/
inductive Laid (blank : Char → Bool) : Nat → List Char → List Stretch → Prop
  | bare {at_ : Nat} {cs : List Char} (empty : solid blank cs = []) : Laid blank at_ cs []
  | span {at_ : Nat} {gap mid rest : List Char} {p : Stretch} {ps : List Stretch}
      (empty : solid blank gap = []) (filled : mid ≠ []) (start : p.start = at_ + width gap)
      (stop : p.stop = p.start + width mid) (text : solid blank p.text = solid blank mid)
      (later : Laid blank p.stop rest ps) : Laid blank at_ (gap ++ mid ++ rest) (p :: ps)

variable {blank : Char → Bool}

@[simp] theorem solid_nil : solid blank [] = [] := rfl

@[simp] theorem solid_append (xs ys : List Char) :
    solid blank (xs ++ ys) = solid blank xs ++ solid blank ys := List.filter_append ..

theorem solid_empty {cs : List Char} : solid blank cs = [] ↔ ∀ c ∈ cs, blank c = true := by
  simp [solid]

theorem width_positive {cs : List Char} (filled : cs ≠ []) : 0 < width cs := by
  obtain ⟨c, rest, rfl⟩ := List.exists_cons_of_ne_nil filled
  rw [width_cons]
  have := c.utf8Size_pos
  omega

theorem width_zero {cs : List Char} : width cs = 0 ↔ cs = [] :=
  ⟨fun none => by_contra fun filled => absurd (width_positive filled) (by omega), fun nil => by
    rw [nil, width_nil]⟩

/-- What stands between two parts of a text is its slice. -/
theorem slice_mid (pre mid post : List Char) :
    slice (width pre) (width (pre ++ mid)) (pre ++ mid ++ post) = some mid := by
  rw [slice, if_pos (by rw [width_append]; omega), slice_to_append, Option.bind_some,
    slice_from_append]

/-- A text that begins with no blank is found past the blanks before it. -/
theorem find_past_blanks {gap pat : List Char} {c : Char} (post : List Char)
    (empty : solid blank gap = []) (inked : blank c = false) :
    find (c :: pat) (gap ++ (c :: pat ++ post)) = some (width gap) := by
  induction gap with
  | nil =>
    rw [List.nil_append, List.cons_append, find, ← List.cons_append,
      if_pos (List.isPrefixOf_iff_prefix.mpr (List.prefix_append _ _)), width_nil]
  | cons d gap ih =>
    have blanks := solid_empty.mp empty
    have other : ¬ (c :: pat).isPrefixOf (d :: (gap ++ (c :: pat ++ post))) = true := by
      intro starts
      have same := List.isPrefixOf_iff_prefix.mp starts
      rw [List.cons_prefix_cons] at same
      rw [same.1, blanks d List.mem_cons_self] at inked
      cases inked
    rw [List.cons_append, find, if_neg other,
      ih (solid_empty.mpr fun e mem => blanks e (List.mem_cons_of_mem _ mem)), Option.map_some,
      width_cons]

theorem between_append {xs ys : List Char} {n : Nat} :
    Between (xs ++ ys) (width xs + n) ↔ Between ys n := by
  constructor
  · rintro ⟨pre, post, same, size⟩
    obtain ⟨mid, rfl, later⟩ | ⟨mid, rfl, later⟩ := List.append_eq_append_iff.mp same
    · rw [width_append] at size
      exact ⟨mid, post, later, by omega⟩
    · rw [width_append] at size
      exact ⟨[], ys, rfl, by rw [width_nil]; omega⟩
  · rintro ⟨pre, post, rfl, rfl⟩
    exact ⟨xs ++ pre, post, by rw [List.append_assoc], (width_append xs pre).symm⟩

theorem between_cons {c : Char} {cs : List Char} {n : Nat} :
    Between (c :: cs) (n + 1) ↔ c.utf8Size ≤ n + 1 ∧ Between cs (n + 1 - c.utf8Size) := by
  constructor
  · rintro ⟨pre, post, same, size⟩
    cases pre with
    | nil => simp at size
    | cons d pre =>
      cases same
      rw [width_cons] at size
      exact ⟨by omega, pre, post, rfl, by omega⟩
  · rintro ⟨fits, pre, post, rfl, size⟩
    exact ⟨c :: pre, post, rfl, by rw [width_cons]; omega⟩

/-- Blanks may come first. -/
theorem Laid.after_gap {at_ : Nat} {gap cs : List Char} {ps : List Stretch}
    (empty : solid blank gap = []) (laid : Laid blank (at_ + width gap) cs ps) :
    Laid blank at_ (gap ++ cs) ps := by
  cases laid with
  | bare rest => exact .bare (by rw [solid_append, empty, rest]; rfl)
  | @span _ inner mid rest p ps first filled start stop text later =>
    rw [show gap ++ (inner ++ mid ++ rest) = gap ++ inner ++ mid ++ rest by
      simp only [List.append_assoc]]
    refine .span (by rw [solid_append, empty, first]; rfl) filled ?_ stop text later
    rw [start, width_append, Nat.add_assoc]

theorem Laid.append {at_ : Nat} {xs ys : List Char} {ps qs : List Stretch}
    (first : Laid blank at_ xs ps) (second : Laid blank (at_ + width xs) ys qs) :
    Laid blank at_ (xs ++ ys) (ps ++ qs) := by
  induction first with
  | bare empty => exact second.after_gap empty
  | @span at_ gap mid rest p ps empty filled start stop text later ih =>
    rw [List.append_assoc _ _ ys, List.cons_append]
    refine .span empty filled start stop text (ih ?_)
    rw [width_append, width_append] at second
    rwa [stop, start, Nat.add_assoc, Nat.add_assoc, ← Nat.add_assoc (width gap)]

/-- One span on a whole text. -/
theorem Laid.whole {at_ : Nat} {cs text : List Char} (filled : cs ≠ [])
    (same : solid blank text = solid blank cs) :
    Laid blank at_ cs [⟨at_, at_ + width cs, text⟩] := by
  have laid : Laid blank at_ ([] ++ cs ++ []) [⟨at_, at_ + width cs, text⟩] :=
    .span rfl filled rfl rfl same (.bare rfl)
  rwa [List.nil_append, List.append_nil] at laid

/-- Where a list of spans is cut, the text is cut too. -/
theorem Laid.split {at_ : Nat} {cs : List Char} {ps qs : List Stretch}
    (laid : Laid blank at_ cs (ps ++ qs)) :
    ∃ xs ys, cs = xs ++ ys ∧ Laid blank at_ xs ps ∧ Laid blank (at_ + width xs) ys qs := by
  induction ps generalizing at_ cs with
  | nil => exact ⟨[], cs, rfl, .bare rfl, laid⟩
  | cons p ps ih =>
    cases laid with
    | @span _ gap mid rest _ _ empty filled start stop text later =>
      obtain ⟨xs, ys, rfl, first, second⟩ := ih later
      refine ⟨gap ++ mid ++ xs, ys, by simp only [List.append_assoc],
        .span empty filled start stop text first, ?_⟩
      rw [width_append, width_append]
      rwa [stop, start, Nat.add_assoc, Nat.add_assoc, ← Nat.add_assoc (width gap)] at second

/-- What some spans cover from the first to the last, and that their texts hold it. -/
theorem Laid.covered {at_ : Nat} {cs : List Char} {p : Stretch} {ps : List Stretch}
    (laid : Laid blank at_ cs (p :: ps)) :
    ∃ gap mid rest, cs = gap ++ mid ++ rest ∧ solid blank gap = [] ∧
      p.start = at_ + width gap ∧
      (∀ q ∈ (p :: ps).getLast?, q.stop = p.start + width mid) ∧
      (p :: ps).flatMap (fun q => solid blank q.text) = solid blank mid := by
  induction ps generalizing at_ cs p with
  | nil =>
    cases laid with
    | @span _ gap mid rest _ _ empty filled start stop text later =>
      refine ⟨gap, mid, rest, rfl, empty, start, ?_, by simpa using text⟩
      rintro q ⟨rfl⟩
      exact stop
  | cons q ps ih =>
    cases laid with
    | @span _ gap mid rest _ _ empty filled start stop text later =>
      obtain ⟨between, more, after, rfl, blanks, begins, ends, texts⟩ := ih later
      refine ⟨gap, mid ++ between ++ more, after, by simp only [List.append_assoc], empty,
        start, ?_, ?_⟩
      · intro r last
        rw [List.getLast?_cons_cons] at last
        rw [ends r last, begins, stop, width_append, width_append, Nat.add_assoc, Nat.add_assoc,
          Nat.add_assoc]
      · rw [List.flatMap_cons, texts, text, solid_append, solid_append, blanks, List.append_nil]

/-- The ranges follow one another. -/
theorem Laid.ascending {at_ : Nat} {cs : List Char} {ps : List Stretch}
    (laid : Laid blank at_ cs ps) :
    (∀ p ∈ ps, at_ ≤ p.start ∧ p.start < p.stop) ∧
      ps.Pairwise (fun p q => p.stop ≤ q.start) := by
  induction laid with
  | bare => exact ⟨by simp, List.Pairwise.nil⟩
  | @span at_ gap mid rest p ps empty filled start stop text later ih =>
    have some_ := width_positive filled
    refine ⟨?_, List.pairwise_cons.mpr ⟨fun q mem => (ih.1 q mem).1, ih.2⟩⟩
    intro q mem
    rcases List.mem_cons.mp mem with rfl | mem
    · omega
    · have := ih.1 q mem
      omega

/-- A character of two texts joined is in the first or in the second. -/
theorem in_either {pre post xs ys : List Char} {c : Char} (same : pre ++ c :: post = xs ++ ys) :
    (∃ tail, xs = pre ++ c :: tail) ∨ ∃ front, pre = xs ++ front ∧ ys = front ++ c :: post := by
  obtain ⟨mid, rfl, later⟩ | later := List.append_eq_append_iff.mp same
  · cases mid with
    | nil => exact .inr ⟨[], by simp, later.symm⟩
    | cons d mid =>
      cases later
      exact .inl ⟨mid, rfl⟩
  · exact .inr later

/-- A character that is no blank is in a range. -/
theorem Laid.found {at_ : Nat} {cs pre post : List Char} {c : Char} {ps : List Stretch}
    (laid : Laid blank at_ cs ps) (here : cs = pre ++ c :: post) (inked : blank c = false) :
    ∃ p ∈ ps, p.start ≤ at_ + width pre ∧ at_ + width pre + c.utf8Size ≤ p.stop := by
  have apart {gap : List Char} (empty : solid blank gap = []) : c ∉ gap := fun mem => by
    rw [solid_empty.mp empty c mem] at inked
    cases inked
  induction laid generalizing pre with
  | bare empty => exact absurd (here ▸ by simp) (apart empty)
  | @span at_ gap mid rest p ps empty filled start stop text later ih =>
    rw [List.append_assoc] at here
    obtain ⟨tail, rfl⟩ | ⟨front, rfl, inner⟩ := in_either here.symm
    · exact absurd (by simp) (apart empty)
    · obtain ⟨tail, rfl⟩ | ⟨behind, rfl, beyond⟩ := in_either inner.symm
      · refine ⟨p, List.mem_cons_self, ?_⟩
        simp only [width_append, width_cons] at stop ⊢
        omega
      · obtain ⟨q, mem, low, high⟩ := ih beyond
        refine ⟨q, List.mem_cons_of_mem _ mem, ?_⟩
        simp only [width_append]
        omega

end Utf8
