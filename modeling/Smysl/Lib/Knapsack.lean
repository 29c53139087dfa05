import Mathlib.Algebra.Order.Field.Rat
import Mathlib.Data.List.Sort
import Mathlib.Tactic.Linarith
import Mathlib.Tactic.Ring
import Mathlib.Tactic.FieldSimp
import Mathlib.Tactic.Positivity

/-!
The fractional relaxation of a knapsack. Items are taken whole, densest first,
and a part of the one that does not fit; no way to spend as much on the same
items, at their densities, is worth more.
-/
namespace Knapsack

/-- What may be spent on an item, and what all of it is worth. -/
structure Item where
  cost : ℕ
  value : ℚ
  deriving DecidableEq

namespace Item

def density (i : Item) : ℚ := i.value / i.cost

/-- Denser first, and of the same density the cheaper. -/
def before (a b : Item) : Prop :=
  b.density < a.density ∨ (a.density = b.density ∧ a.cost ≤ b.cost)

instance (a b : Item) : Decidable (a.before b) :=
  inferInstanceAs (Decidable (b.density < a.density ∨ (a.density = b.density ∧ a.cost ≤ b.cost)))

theorem before_density {a b : Item} (first : a.before b) : b.density ≤ a.density := by
  rcases first with less | ⟨same, _⟩
  · exact le_of_lt less
  · exact le_of_eq same.symm

theorem before_total (a b : Item) : a.before b ∨ b.before a := by
  rcases lt_trichotomy a.density b.density with less | same | more
  · exact Or.inr (Or.inl less)
  · rcases le_total a.cost b.cost with cheap | dear
    · exact Or.inl (Or.inr ⟨same, cheap⟩)
    · exact Or.inr (Or.inr ⟨same.symm, dear⟩)
  · exact Or.inl (Or.inl more)

theorem before_trans {a b c : Item} (first : a.before b) (next : b.before c) : a.before c := by
  rcases first with less | ⟨same, cheap⟩
  · exact Or.inl (lt_of_le_of_lt (before_density next) less)
  · rcases next with less | ⟨same', cheap'⟩
    · apply Or.inl
      rw [same]
      exact less
    · exact Or.inr ⟨same.trans same', cheap.trans cheap'⟩

instance : Std.Total before := ⟨before_total⟩

instance : IsTrans Item before := ⟨fun _ _ _ => before_trans⟩

end Item

/-- Fill by density, taking a fraction of whatever straddles the boundary. -/
def fill : ℕ → List Item → ℚ
  | _, [] => 0
  | left, i :: items =>
    if left = 0 then 0
    else if i.cost ≤ left then i.value + fill (left - i.cost) items
    else i.value * (left / i.cost)

def relaxed (left : ℕ) (items : List Item) : ℚ := fill left (items.insertionSort Item.before)

theorem fill_zero (items : List Item) : fill 0 items = 0 := by
  cases items with
  | nil => rfl
  | cons i items => rw [fill, if_pos rfl]

theorem value_eq {i : Item} (paid : 0 < i.cost) : i.value = i.density * i.cost := by
  have nonzero : (i.cost : ℚ) ≠ 0 := by exact_mod_cast paid.ne'
  rw [Item.density, div_mul_cancel₀ _ nonzero]

/-- What an item that does not fit adds. -/
theorem fill_part {i : Item} {left : ℕ} (large : left < i.cost) (items : List Item) :
    fill left (i :: items) = i.density * left := by
  rw [fill]
  split
  · rename_i none'
    rw [none']
    simp
  · rw [if_neg (not_le.mpr large), Item.density]
    ring

/-- What an item that fits adds. -/
theorem fill_whole {i : Item} {left : ℕ} (paid : 0 < i.cost) (fits : i.cost ≤ left)
    (items : List Item) :
    fill left (i :: items) = i.density * i.cost + fill (left - i.cost) items := by
  rw [fill, if_neg (by omega), if_pos fits, value_eq paid]

/-- Every item costs something, and is worth nothing less than nothing. -/
def Priced (items : List Item) : Prop := ∀ i ∈ items, 0 < i.cost ∧ 0 ≤ i.density

theorem priced_tail {i : Item} {items : List Item} (priced : Priced (i :: items)) :
    Priced items := fun j mem => priced j (List.mem_cons_of_mem i mem)

/-- More room is worth no more than the best density. -/
theorem fill_room {items : List Item} (priced : Priced items) {d : ℚ} (nonneg : 0 ≤ d)
    (best : ∀ i ∈ items, i.density ≤ d) (room more : ℕ) :
    fill (room + more) items ≤ fill room items + d * more := by
  induction items generalizing room more with
  | nil =>
    rw [fill, fill, zero_add]
    positivity
  | cons i items ih =>
    have here := best i List.mem_cons_self
    have later : ∀ j ∈ items, j.density ≤ d := fun j mem => best j (List.mem_cons_of_mem i mem)
    have paid := (priced i List.mem_cons_self).1
    have rest := ih (priced_tail priced) later
    by_cases fits : i.cost ≤ room
    · have split : room + more - i.cost = (room - i.cost) + more := by omega
      rw [fill_whole paid (by omega), fill_whole paid fits, split]
      have := rest (room - i.cost) more
      linarith
    · by_cases fits' : i.cost ≤ room + more
      · have after := rest 0 (room + more - i.cost)
        rw [zero_add, fill_zero, zero_add] at after
        rw [fill_whole paid fits', fill_part (by omega)]
        have spent : ((room + more - i.cost : ℕ) : ℚ) = room + more - i.cost := by
          rw [Nat.cast_sub fits', Nat.cast_add]
        have larger : (room : ℚ) ≤ i.cost := by exact_mod_cast (by omega : room ≤ i.cost)
        rw [spent] at after
        nlinarith
      · rw [fill_part (by omega), fill_part (by omega), Nat.cast_add]
        have room' : (0 : ℚ) ≤ more := by positivity
        nlinarith

/-- What is spent on each item, and what it gets there. -/
abbrev Spending := List (Item × ℕ)

def spent (s : Spending) : ℕ := (s.map Prod.snd).sum

def worth (s : Spending) : ℚ := (s.map (fun e => e.1.density * (e.2 : ℚ))).sum

/-- Nothing spent on items in order of density is worth more than filling. -/
theorem worth_le_fill {s : Spending} (priced : Priced (s.map Prod.fst))
    (ordered : (s.map Prod.fst).Pairwise Item.before) (within : ∀ e ∈ s, e.2 ≤ e.1.cost)
    {left : ℕ} (enough : spent s ≤ left) : worth s ≤ fill left (s.map Prod.fst) := by
  induction s generalizing left with
  | nil =>
    rw [worth, List.map_nil, List.map_nil, List.sum_nil, fill]
  | cons e s ih =>
    obtain ⟨i, n⟩ := e
    rw [List.map_cons] at priced ordered ⊢
    obtain ⟨first, ordered⟩ := List.pairwise_cons.mp ordered
    have paid := (priced i List.mem_cons_self).1
    have dense := (priced i List.mem_cons_self).2
    have best : ∀ j ∈ s.map Prod.fst, j.density ≤ i.density :=
      fun j mem => Item.before_density (first j mem)
    have some' : n ≤ i.cost := within (i, n) List.mem_cons_self
    have total : spent ((i, n) :: s) = n + spent s := by
      rw [spent, List.map_cons, List.sum_cons, spent]
    have value : worth ((i, n) :: s) = i.density * n + worth s := by
      rw [worth, List.map_cons, List.sum_cons, worth]
    rw [total] at enough
    have rest := ih (priced_tail priced) ordered
      (fun e mem => within e (List.mem_cons_of_mem _ mem)) (le_refl (spent s))
    rw [value]
    by_cases fits : i.cost ≤ left
    · -- what is left of the item's own cost can make up for the rest
      have room := fill_room (priced_tail priced) dense best (left - i.cost) (i.cost - n)
      have grown := ih (priced_tail priced) ordered
        (fun e mem => within e (List.mem_cons_of_mem _ mem))
        (show spent s ≤ left - i.cost + (i.cost - n) by omega)
      rw [fill_whole paid fits]
      have cast : ((i.cost - n : ℕ) : ℚ) = i.cost - n := Nat.cast_sub some'
      rw [cast] at room
      linarith
    · have rest' := fill_room (priced_tail priced) dense best 0 (spent s)
      rw [zero_add, fill_zero, zero_add] at rest'
      rw [fill_part (show left < i.cost by omega)]
      have cast : ((n + spent s : ℕ) : ℚ) ≤ left := by exact_mod_cast enough
      rw [Nat.cast_add] at cast
      nlinarith

/-- Nor more than the relaxation, in whatever order. -/
theorem worth_le_relaxed {s : Spending} (priced : Priced (s.map Prod.fst))
    (within : ∀ e ∈ s, e.2 ≤ e.1.cost) {left : ℕ} (enough : spent s ≤ left) :
    worth s ≤ relaxed left (s.map Prod.fst) := by
  let order : Item × ℕ → Item × ℕ → Prop := fun a b => a.1.before b.1
  have sorted : (s.insertionSort order).map Prod.fst =
      (s.map Prod.fst).insertionSort Item.before :=
    List.map_insertionSort order Item.before Prod.fst s (fun _ _ _ _ => Iff.rfl)
  have same : (s.insertionSort order).Perm s := List.perm_insertionSort order s
  have spent' : spent (s.insertionSort order) = spent s := (same.map Prod.snd).sum_eq
  have worth' : worth (s.insertionSort order) = worth s :=
    (same.map (fun e : Item × ℕ => e.1.density * (e.2 : ℚ))).sum_eq
  rw [relaxed, ← sorted, ← worth']
  apply worth_le_fill
  · intro i mem
    exact priced i (((same.map Prod.fst).mem_iff).mp mem)
  · rw [sorted]
    exact List.pairwise_insertionSort Item.before _
  · intro e mem
    exact within e (same.mem_iff.mp mem)
  · rw [spent']
    exact enough

end Knapsack
