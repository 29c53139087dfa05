import Mathlib.Logic.Relation
import Mathlib.Data.Set.Finite.Basic
import Mathlib.Order.WellFounded
import Mathlib.Data.Fintype.Order

/-!
Going backwards along a relation on finitely many things ends at a source or
runs into a cycle; where there is no cycle, equations that read forwards along it
have a solution.
-/
namespace Descent
open Relation

variable {α : Type} {R : α → α → Prop}

/-- From any `u` a chain leads back to something nothing precedes, or to a
cycle. -/
theorem source_or_cycle {S : Set α} (finite : S.Finite) (inside : ∀ x y, R x y → x ∈ S) {u : α}
    (mem : u ∈ S) :
    (∃ m ∈ S, ReflTransGen R m u ∧ ∀ x, ¬ R x m) ∨ ∃ w, TransGen R w w ∧ ReflTransGen R w u := by
  by_cases cycle : ∃ w, TransGen R w w ∧ ReflTransGen R w u
  · exact Or.inr cycle
  · left
    let Before := {x : α // ReflTransGen R x u}
    have member : ∀ x : Before, x.1 ∈ S := by
      rintro ⟨x, chain⟩
      rcases ReflTransGen.cases_head chain with rfl | ⟨y, first, _⟩
      · exact mem
      · exact inside x y first
    have : Finite Before := (finite.subset (fun x chain => member ⟨x, chain⟩) :
      Set.Finite {x | ReflTransGen R x u}).to_subtype
    let earlier (x y : Before) : Prop := TransGen R x.1 y.1
    have : IsTrans Before earlier := ⟨fun _ _ _ => TransGen.trans⟩
    have : Std.Irrefl earlier := ⟨fun x loop => cycle ⟨x.1, loop, x.2⟩⟩
    have founded : WellFounded earlier := Finite.wellFounded_of_trans_of_irrefl _
    obtain ⟨m, _, least⟩ := founded.has_min Set.univ ⟨⟨u, .refl⟩, trivial⟩
    refine ⟨m.1, member m, m.2, fun x step => ?_⟩
    exact least ⟨x, m.2.head step⟩ trivial (TransGen.single step)

/-- Without cycles, following the relation from anywhere comes to an end. -/
theorem forward_founded {S : Set α} (finite : S.Finite) (inside : ∀ x y, R x y → x ∈ S)
    (acyclic : ∀ x, ¬ TransGen R x x) : WellFounded fun y x => R x y := by
  have : Finite S := finite.to_subtype
  let later (y x : S) : Prop := TransGen R x.1 y.1
  have : IsTrans S later := ⟨fun _ _ _ second first => TransGen.trans first second⟩
  have : Std.Irrefl later := ⟨fun x => acyclic x.1⟩
  have founded : WellFounded later := Finite.wellFounded_of_trans_of_irrefl _
  have outside : ∀ x, x ∉ S → Acc (fun y x => R x y) x := by
    intro x absent
    exact Acc.intro x fun y step => absurd (inside x y step) absent
  have within : ∀ x : S, Acc (fun y x => R x y) x.1 := by
    intro x
    induction x using founded.induction with
    | _ x ih =>
      apply Acc.intro
      intro y step
      by_cases mem : y ∈ S
      · exact ih ⟨y, mem⟩ (TransGen.single step)
      · exact outside y mem
  constructor
  intro x
  by_cases mem : x ∈ S
  · exact within ⟨x, mem⟩
  · exact outside x mem

/-- Equations that give each thing from what it leads to have a solution. -/
theorem solvable {β : Type} [Inhabited β] {S : Set α} (finite : S.Finite)
    (inside : ∀ x y, R x y → x ∈ S) (acyclic : ∀ x, ¬ TransGen R x x) (f : (α → β) → α → β)
    (reads : ∀ g h x, (∀ y, R x y → g y = h y) → f g x = f h x) : ∃ g, ∀ x, g x = f g x := by
  classical
  have founded := forward_founded finite inside acyclic
  let value : α → β := founded.fix fun x earlier =>
    f (fun y => if step : R x y then earlier y step else default) x
  refine ⟨value, fun x => ?_⟩
  have unfolded : value x = f (fun y => if R x y then value y else default) x := by
    exact founded.fix_eq _ x
  rw [unfolded]
  apply reads
  intro y step
  rw [if_pos step]

end Descent
