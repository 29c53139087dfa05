import Smysl.Text.Spellings
import Smysl.Text.Structure
import Mathlib.Logic.Relation

/-!
When one locator contains another: by its steps where it is one place, by the order of places
where it is a range. The two notions are an order together as long as a range is not left at its
last end for what is below it.
-/
namespace Smysl
namespace Locator

/-- The two ends of a range, or a place twice. -/
def ends : Locator → Locator × Locator
  | .range first last => (first, last)
  | single => (single, single)

/-- Whether this locator is a prefix of, or equal to, another. -/
def contains : Locator → Locator → Bool
  | .canonical h s, .canonical h' s' => h == h' && s.isPrefixOf s'
  | .pointer t, .pointer t' => t.isPrefixOf t'
  | .range a b, other =>
    a.kind == other.ends.1.kind && (order a other.ends.1).isLE && (order other.ends.2 b).isLE
  | a, b => a == b

/-! The order of places. -/

theorem order_canonical (h h' : String) (s s' : List UInt64) :
    order (.canonical h s) (.canonical h' s') =
      compareLex (compareOn Prod.fst) (compareOn Prod.snd) (h, s) (h', s') := by
  simp [order, compareLex, compareOn]

theorem order_trans {a b c : Locator} (singleA : a.Single) (singleB : b.Single)
    (singleC : c.Single) (kinds : a.kind = b.kind) (kinds' : b.kind = c.kind)
    (first : (order a b).isLE) (second : (order b c).isLE) : (order a c).isLE := by
  cases a with
  | canonical h s =>
    cases b with
    | canonical h' s' =>
      cases c with
      | canonical h'' s'' =>
        rw [order_canonical] at first second ⊢
        exact Std.TransCmp.isLE_trans first second
      | line n => cases kinds'
      | pointer tokens => cases singleC
      | range x y => cases singleC
    | line n => cases kinds
    | pointer tokens => cases singleB
    | range x y => cases singleB
  | line n =>
    cases b with
    | canonical h' s' => cases kinds
    | line m =>
      cases c with
      | canonical h'' s'' => cases kinds'
      | line k =>
        simp only [order] at first second ⊢
        exact Std.TransCmp.isLE_trans first second
      | pointer tokens => cases singleC
      | range x y => cases singleC
    | pointer tokens => cases singleB
    | range x y => cases singleB
  | pointer tokens => cases singleA
  | range x y => cases singleA

theorem order_refl {a : Locator} (single : a.Single) : (order a a).isLE := by
  rw [(order_eq_iff single single).mpr rfl]
  rfl

theorem order_antisymm {a b : Locator} (singleA : a.Single) (singleB : b.Single)
    (kinds : a.kind = b.kind) (first : (order a b).isLE) (second : (order b a).isLE) : a = b := by
  refine (order_eq_iff singleA singleB).mp ?_
  cases a with
  | canonical h s =>
    cases b with
    | canonical h' s' =>
      rw [order_canonical] at first second ⊢
      exact Std.OrientedCmp.isLE_antisymm first second
    | line n => cases kinds
    | pointer tokens => cases singleB
    | range x y => cases singleB
  | line n =>
    cases b with
    | canonical h' s' => cases kinds
    | line m =>
      simp only [order] at first second ⊢
      exact Std.OrientedCmp.isLE_antisymm first second
    | pointer tokens => cases singleB
    | range x y => cases singleB
  | pointer tokens => cases singleA
  | range x y => cases singleA

/-- What is below a place comes after it. -/
theorem order_steps (h : String) (s t : List UInt64) :
    (order (.canonical h s) (.canonical h (s ++ t))).isLE := by
  have steps : (compare s (s ++ t)).isLE := by
    induction s with
    | nil =>
      cases t with
      | nil => rfl
      | cons n t => rfl
    | cons n s ih => simpa using ih
  simpa [order] using steps

/-! Containment. -/

/-- A range is left at its last end: a place in it has places below that come after the end. -/
def Past (x y z : Locator) : Prop :=
  ∃ first last h s t, x = .range first last ∧ y = .canonical h s ∧ z = .canonical h (s ++ t) ∧
    (order first y).isLE ∧ (order y last).isLE ∧ order z last = .gt

theorem contains_canonical {h h' : String} {s s' : List UInt64} :
    contains (.canonical h s) (.canonical h' s') ↔ h = h' ∧ s <+: s' := by
  rw [contains, Bool.and_eq_true, beq_iff_eq, List.isPrefixOf_iff_prefix]

theorem contains_range {first last other : Locator} : contains (.range first last) other ↔
    first.kind = other.ends.1.kind ∧ (order first other.ends.1).isLE ∧
      (order other.ends.2 last).isLE := by
  rw [contains, Bool.and_eq_true, Bool.and_eq_true, beq_iff_eq, and_assoc]

/-- The ends of what is no pointer are places of its kind. -/
theorem ends_places {l : Locator} (valid : l.Valid) (pointer : l.ends.1.kind ≠ .pointer) :
    l.ends.1.Single ∧ l.ends.2.Single ∧ l.ends.1.kind = l.ends.2.kind := by
  cases l with
  | canonical head steps => exact ⟨valid, valid, rfl⟩
  | line n => exact ⟨valid, valid, rfl⟩
  | pointer tokens => exact absurd rfl pointer
  | range first last => exact ⟨valid.1, valid.2.1, valid.2.2.1⟩

theorem contains_refl {x : Locator} (valid : x.Valid) : x.contains x := by
  cases x with
  | canonical h s => exact contains_canonical.mpr ⟨rfl, List.prefix_rfl⟩
  | line n => simp [contains]
  | pointer tokens => simp [contains]
  | range first last =>
    have singleFirst : first.Single := valid.1
    have singleLast : last.Single := valid.2.1
    exact contains_range.mpr ⟨rfl, order_refl singleFirst, order_refl singleLast⟩

theorem contains_antisymm {x y : Locator} (validX : x.Valid) (validY : y.Valid)
    (first : x.contains y) (second : y.contains x) : x = y := by
  cases x with
  | canonical h s =>
    cases y with
    | canonical h' s' =>
      obtain ⟨rfl, short⟩ := contains_canonical.mp first
      obtain ⟨_, long⟩ := contains_canonical.mp second
      rw [short.eq_of_length_le long.length_le]
    | line n => simp [contains] at first
    | pointer tokens => simp [contains] at first
    | range a b => simp [contains] at first
  | line n => simpa [contains] using first
  | pointer tokens =>
    cases y with
    | canonical h' s' => simp [contains] at first
    | line n => simp [contains] at first
    | pointer tokens' =>
      rw [contains, List.isPrefixOf_iff_prefix] at first second
      rw [first.eq_of_length_le second.length_le]
    | range a b => simp [contains] at first
  | range a b =>
    cases y with
    | canonical h' s' => simp [contains] at second
    | line n => simp [contains] at second
    | pointer tokens => simp [contains] at second
    | range c d =>
      obtain ⟨singleA, singleB, kindsX, _⟩ := show _ ∧ _ ∧ _ ∧ _ from validX
      obtain ⟨singleC, singleD, kindsY, _⟩ := show _ ∧ _ ∧ _ ∧ _ from validY
      obtain ⟨kind, lowX, highX⟩ := contains_range.mp first
      obtain ⟨_, lowY, highY⟩ := contains_range.mp second
      have kind' : a.kind = c.kind := kind
      rw [order_antisymm singleA singleC kind' lowX lowY,
        order_antisymm singleB singleD (by rw [← kindsX, kind', kindsY]) highY highX]

/-- Containment goes through where no range is left at its last end. -/
theorem contains_trans {x y z : Locator} (validX : x.Valid) (validY : y.Valid) (validZ : z.Valid)
    (within : ¬ Past x y z) (first : x.contains y) (second : y.contains z) : x.contains z := by
  cases x with
  | canonical h s =>
    cases y with
    | canonical h' s' =>
      cases z with
      | canonical h'' s'' =>
        obtain ⟨rfl, one⟩ := contains_canonical.mp first
        obtain ⟨rfl, two⟩ := contains_canonical.mp second
        exact contains_canonical.mpr ⟨rfl, one.trans two⟩
      | line n => simp [contains] at second
      | pointer tokens => simp [contains] at second
      | range c d => simp [contains] at second
    | line n => simp [contains] at first
    | pointer tokens => simp [contains] at first
    | range c d => simp [contains] at first
  | line n =>
    have same : Locator.line n = y := by simpa [contains] using first
    rwa [same]
  | pointer tokens =>
    cases y with
    | canonical h' s' => simp [contains] at first
    | line n => simp [contains] at first
    | pointer tokens' =>
      cases z with
      | canonical h'' s'' => simp [contains] at second
      | line n => simp [contains] at second
      | pointer tokens'' =>
        rw [contains, List.isPrefixOf_iff_prefix] at first second ⊢
        exact first.trans second
      | range c d => simp [contains] at second
    | range c d => simp [contains] at first
  | range a b =>
    have singleA : a.Single := validX.1
    have singleB : b.Single := validX.2.1
    have kindsX : a.kind = b.kind := validX.2.2.1
    obtain ⟨kind, low, high⟩ := contains_range.mp first
    cases y with
    | canonical h s =>
      cases z with
      | canonical h' s' =>
        obtain ⟨rfl, t, rfl⟩ := contains_canonical.mp second
        have singleY : Single (.canonical h s) := validY
        have singleZ : Single (.canonical h (s ++ t)) := validZ
        refine contains_range.mpr ⟨kind, ?_, ?_⟩
        · exact order_trans singleA singleY singleZ kind rfl low (order_steps h s t)
        · cases after : order (.canonical h (s ++ t)) b with
          | lt => exact congrArg Ordering.isLE after
          | eq => exact congrArg Ordering.isLE after
          | gt => exact absurd ⟨a, b, h, s, t, rfl, rfl, rfl, low, high, after⟩ within
      | line n => simp [contains] at second
      | pointer tokens => simp [contains] at second
      | range c d => simp [contains] at second
    | line n =>
      have same : Locator.line n = z := by simpa [contains] using second
      rwa [← same]
    | pointer tokens => exact absurd kind (single_kind singleA).2
    | range c d =>
      have singleC : c.Single := validY.1
      have singleD : d.Single := validY.2.1
      have kindsY : c.kind = d.kind := validY.2.2.1
      obtain ⟨kind', low', high'⟩ := contains_range.mp second
      have places := ends_places validZ (by rw [← kind']; exact (single_kind singleC).2)
      obtain ⟨singleLo, singleHi, kindsZ⟩ := places
      have kindAC : a.kind = c.kind := kind
      refine contains_range.mpr ⟨kindAC.trans kind', ?_, ?_⟩
      · exact order_trans singleA singleC singleLo kindAC kind' low low'
      · refine order_trans singleHi singleD singleB ?_ ?_ high' high
        · rw [← kindsZ, ← kind', kindsY]
        · rw [← kindsY, ← kindAC, kindsX]

/-- A range that is left at its last end contains a place and not what is below it. -/
theorem past_contains {x y z : Locator} (past : Past x y z) :
    x.contains y ∧ y.contains z ∧ ¬ x.contains z := by
  obtain ⟨a, b, h, s, t, rfl, rfl, rfl, low, high, after⟩ := past
  have kind : a.kind = .canonical := by
    cases a with
    | canonical h' s' => rfl
    | line n => exact absurd low (by simp [order, kind, Kind.place, compare, compareOfLessAndEq])
    | pointer t => exact absurd low (by simp [order, kind, Kind.place, compare, compareOfLessAndEq])
    | range c d => exact absurd low (by simp [order, kind, Kind.place, compare, compareOfLessAndEq])
  refine ⟨contains_range.mpr ⟨kind, low, high⟩, ?_, fun inside => ?_⟩
  · exact contains_canonical.mpr ⟨rfl, List.prefix_append s t⟩
  · have le := (contains_range.mp inside).2.2
    have after' : order (ends (.canonical h (s ++ t))).2 b = .gt := after
    rw [after'] at le
    cases le

/-- Widening by one step: to a node's locator that contains the one at hand. -/
def Wider (nodes : List Locator) (l m : Locator) : Prop := m ∈ nodes ∧ m.contains l

theorem parse_valid {s : String} {l : Locator} (read : parse s = .ok l) : l.Valid :=
  parse_chars_valid read

/-- Containment of parsed locators is an order exactly where no range is left at its last end,
and exactly then does widening step by step reach what widening at once does. -/
theorem contains_order_iff {s s' s'' : String} {x y z : Locator} (readX : parse s = .ok x)
    (readY : parse s' = .ok y) (readZ : parse s'' = .ok z) {nodes : List Locator}
    (read : ∀ m ∈ nodes, ∃ s, parse s = .ok m) :
    ((x.contains x ∧ (x.contains y → y.contains x → x = y) ∧
      (x.contains y → y.contains z → x.contains z)) ↔ ¬ Past x y z) ∧
    ((∀ m, Relation.TransGen (Wider nodes) z m ↔ Wider nodes z m) ↔
      ∀ m ∈ nodes, ∀ n ∈ nodes, ¬ Past m n z) := by
  have validX := parse_valid readX
  have validY := parse_valid readY
  have validZ := parse_valid readZ
  have valid : ∀ m ∈ nodes, m.Valid := fun m mem => parse_valid (read m mem).choose_spec
  constructor
  · constructor
    · rintro ⟨_, _, trans⟩ past
      obtain ⟨first, second, apart⟩ := past_contains past
      exact apart (trans first second)
    · intro within
      exact ⟨contains_refl validX, contains_antisymm validX validY,
        contains_trans validX validY validZ within⟩
  · constructor
    · intro same m memM n memN past
      obtain ⟨first, second, apart⟩ := past_contains past
      have reached : Relation.TransGen (Wider nodes) z m :=
        (Relation.TransGen.single ⟨memN, second⟩).tail ⟨memM, first⟩
      exact apart ((same m).mp reached).2
    · intro within m
      refine ⟨fun reached => ?_, Relation.TransGen.single⟩
      induction reached with
      | single step => exact step
      | @tail n m _ step ih =>
        refine ⟨step.1, ?_⟩
        exact contains_trans (valid m step.1) (valid n ih.1) validZ
          (within m step.1 n ih.1) step.2 ih.2

/-- Three places of one book are ordered by containment, and a verse widens to its chapter and
its book in one step. -/
theorem chapter_widens :
    (contains (.canonical "Gen" []) (.canonical "Gen" [1]) →
      contains (.canonical "Gen" [1]) (.canonical "Gen" [1, 2]) →
      contains (.canonical "Gen" []) (.canonical "Gen" [1, 2])) ∧
    ∀ m, Relation.TransGen (Wider [.canonical "Gen" [], .canonical "Gen" [1]])
        (.canonical "Gen" [1, 2]) m ↔
      Wider [.canonical "Gen" [], .canonical "Gen" [1]] (.canonical "Gen" [1, 2]) m := by
  have book : parse "Gen" = .ok (.canonical "Gen" []) := by decide
  have chapter : parse "Gen.1" = .ok (.canonical "Gen" [1]) := by decide
  have verse : parse "Gen.1.2" = .ok (.canonical "Gen" [1, 2]) := by decide
  have read : ∀ m ∈ [Locator.canonical "Gen" [], .canonical "Gen" [1]],
      ∃ s, parse s = .ok m := by
    intro m mem
    rcases List.mem_cons.mp mem with rfl | mem
    · exact ⟨_, book⟩
    · obtain rfl := List.mem_singleton.mp mem
      exact ⟨_, chapter⟩
  have order := contains_order_iff book chapter verse read
  constructor
  · exact (order.1.mpr fun ⟨_, _, _, _, _, same, _⟩ => by cases same).2.2
  · refine order.2.mpr fun m mem n _ past => ?_
    obtain ⟨_, _, _, _, _, rfl, _⟩ := past
    simp at mem

/-- A range of two chapters contains its second and not that chapter's first verse. -/
theorem chapter_range_left :
    (parse "Gen.1-Gen.2").toOption.map (fun x => contains x (.canonical "Gen" [2])) = some true ∧
    parse "Gen.2" = .ok (.canonical "Gen" [2]) ∧
    parse "Gen.2.1" = .ok (.canonical "Gen" [2, 1]) ∧
    contains (.canonical "Gen" [2]) (.canonical "Gen" [2, 1]) = true ∧
    (parse "Gen.1-Gen.2").toOption.map (fun x => contains x (.canonical "Gen" [2, 1])) =
      some false := by
  decide

end Locator
end Smysl
