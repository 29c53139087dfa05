import Smysl.Text.Locator

/-!
Locators as the constructors make them and as the parser does: each is read back from its text,
so that no two print alike.
-/
namespace Smysl
namespace Locator

/-- `Locator::canonical`. -/
def ofCanonical (head : String) (steps : List UInt64) : Res Locator :=
  match checkHead head.toList 0 with
  | .error e => .error e
  | .ok () => .ok (.canonical head steps)

/-- `Locator::pointer`, from tokens that are not escaped. -/
def ofPointer (tokens : List String) : Res Locator :=
  if tokens.isEmpty then err 0 .empty
  else
    match tokens.findSome? (fun t => findBad 0 t.toList) with
    | some pos => err pos .badCharacter
    | none => .ok (.pointer tokens)

/-- What the constructors make. -/
inductive Built : Locator → Prop
  | canonical {head : String} {steps : List UInt64} {l : Locator}
    (made : ofCanonical head steps = .ok l) : Built l
  | line {n : UInt64} {l : Locator} (made : ofLine n = .ok l) : Built l
  | pointer {tokens : List String} {l : Locator} (made : ofPointer tokens = .ok l) : Built l
  | range {first last l : Locator} (builtFirst : Built first) (builtLast : Built last)
    (made : ofEnds first last = .ok l) : Built l

theorem single_of_valid {l : Locator} (valid : l.Valid) (range : l.kind ≠ .range)
    (pointer : l.kind ≠ .pointer) : l.Single := by
  cases l with
  | canonical head steps => exact valid
  | line n => exact valid
  | pointer tokens => exact absurd rfl pointer
  | range first last => exact absurd rfl range

theorem valid_of_single {l : Locator} (single : l.Single) : l.Valid := by
  cases l with
  | canonical head steps => exact single
  | line n => exact single
  | pointer tokens => cases single
  | range first last => cases single

/-- Two ends make a range of places of one kind in order, or one place. -/
theorem of_ends_valid {first last l : Locator} (validFirst : first.Valid) (validLast : last.Valid)
    (made : ofEnds first last = .ok l) : l.Valid := by
  rw [ofEnds] at made
  split_ifs at made with nested mixed pointer
  · cases made
  · cases made
  · cases made
  · rw [not_or] at nested
    rw [not_not] at mixed
    have single := single_of_valid validFirst nested.1 pointer
    have single' := single_of_valid validLast nested.2 (by rwa [← mixed])
    cases order' : order first last with
    | eq =>
      rw [order'] at made
      cases made
      exact validFirst
    | lt =>
      rw [order'] at made
      cases made
      exact ⟨single, single', mixed, order'⟩
    | gt =>
      rw [order'] at made
      cases made

theorem built_valid {l : Locator} (built : l.Built) : l.Valid := by
  induction built with
  | @canonical head steps l made =>
    rw [ofCanonical] at made
    split at made
    · cases made
    · rename_i ok
      cases made
      exact (check_head_ok_iff _ 0).mp ok
  | @line n l made =>
    rw [ofLine] at made
    split at made
    · cases made
    · rename_i positive
      cases made
      exact positive
  | @pointer tokens l made =>
    rw [ofPointer] at made
    split at made
    · cases made
    · rename_i some'
      split at made
      · cases made
      · rename_i clean
        cases made
        refine ⟨by simpa using some', fun t mem => ?_⟩
        exact (find_bad_none_iff 0 _).mp (List.findSome?_eq_none_iff.mp clean t mem)
  | range _ _ made validFirst validLast => exact of_ends_valid validFirst validLast made

/-- What the parser makes. -/
theorem parse_chars_valid {s : List Char} {l : Locator} (read : parseChars s = .ok l) :
    l.Valid := by
  rw [parseChars] at read
  split at read
  · cases read
  · split at read
    · cases read
    · rename_i clean
      have allowed := (find_bad_none_iff 0 s).mp clean
      split at read
      · rename_i slash
        cases s with
        | nil => cases slash
        | cons c rest =>
          cases slash
          obtain ⟨tokens, rfl, some', same⟩ := (parse_pointer_ok_iff rest l).mp read
          refine ⟨some', fun t mem c inside => ?_⟩
          by_cases tilde : c = '~'
          · rw [tilde]
            decide
          · by_cases other : c = '/'
            · rw [other]
              decide
            · refine allowed c ?_
              rw [same, toChars, List.mem_flatMap]
              refine ⟨t, mem, List.mem_cons_of_mem _ ?_⟩
              rw [escape_eq, List.mem_flatMap]
              exact ⟨c, inside, by rw [escape_char_other tilde other]; simp⟩
      · split at read
        · rename_i first last cut
          rw [parseRange] at read
          split at read
          · cases read
          · rename_i a readA
            split at read
            · cases read
            · rename_i b readB
              obtain ⟨singleA, _⟩ := (parse_single_ok_iff _ _ _).mp readA
              obtain ⟨singleB, _⟩ := (parse_single_ok_iff _ _ _).mp readB
              split at read
              · cases read
              · rename_i made
                cases read
                exact of_ends_valid (valid_of_single singleA) (valid_of_single singleB) made
        · exact valid_of_single ((parse_single_ok_iff _ _ _).mp read).1

/-- A locator that was read is read back from its text, and its text is the one it was read from
unless that was a range of two equal ends; a locator that was built is read back, so that no two
print alike. -/
theorem one_spelling :
    (∀ s l, parse s = .ok l → parse l.toText = .ok l ∧ (l.toText = s ↔ ¬ Doubled s.toList)) ∧
    (∀ l : Locator, l.Built → parse l.toText = .ok l) ∧
    ∀ l m : Locator, l.Built → m.Built → l.toText = m.toText → l = m := by
  refine ⟨fun s l read => ?_, fun l built => parse_to_text (built_valid built), ?_⟩
  · exact ⟨parse_to_text (parse_chars_valid read), parse_text read⟩
  · intro l m builtL builtM same
    have one := parse_to_text (built_valid builtL)
    rw [same, parse_to_text (built_valid builtM)] at one
    cases one
    rfl

/-- A range of one line is that line, whose text is not the range's. -/
theorem line_range_collapses : parse "L7-L7" = .ok (.line 7) ∧
    parse (toText (.line 7)) = .ok (.line 7) ∧
    (toText (.line 7) = "L7-L7" ↔ ¬ Doubled "L7-L7".toList) := by
  have read : parse "L7-L7" = .ok (.line 7) := by decide
  exact ⟨read, one_spelling.1 "L7-L7" (.line 7) read⟩

end Locator
end Smysl
