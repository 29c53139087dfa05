import Smysl.Lib.Ascending
import Smysl.Pack.Closure

/-!
The constraints of a pack, as a checker over a finished selection rather than
only as something the solver keeps.
-/
namespace Smysl
open Obligations

/-- Which constraint a selection breaks, and where. -/
inductive Violation where
  | dep (unit missing : Uid)
  | ground (unit missing : Uid)
  | rebuttal (unit missing : Uid)
  | contention (unit missing : Uid)
  | pin (unit : Uid) (level : Lod)
  | warrant (unit missing : Uid)
  | budget (used budget : Nat)
  | support (unit missing : Uid)
  deriving DecidableEq

namespace Violation

/-- The derived order: by constraint, then by where. -/
def key : Violation → ℕ ×ₗ List Uid ×ₗ List ℕ
  | dep unit missing => toLex (0, toLex ([unit, missing], []))
  | ground unit missing => toLex (1, toLex ([unit, missing], []))
  | rebuttal unit missing => toLex (2, toLex ([unit, missing], []))
  | contention unit missing => toLex (3, toLex ([unit, missing], []))
  | pin unit level => toLex (4, toLex ([unit], [level.rank]))
  | warrant unit missing => toLex (5, toLex ([unit, missing], []))
  | .budget used most => toLex (6, toLex ([], [used, most]))
  | support unit missing => toLex (7, toLex ([unit, missing], []))

theorem key_injective : Function.Injective key := by
  intro a b same
  cases a <;> cases b <;> simp [key] at same <;> first
    | rw [same.1, same.2]
    | rw [same.1, Lod.rank_injective same.2]

instance : LinearOrder Violation := LinearOrder.lift' key key_injective

end Violation

/-- Everything the checker needs beyond the store. -/
structure Constraints where
  pinned : BTreeSet Uid
  budget : Nat
  support : EdgeSet

/-- The units of a list that a selection leaves out. -/
def Selection.missing (selection : Selection) (us : List Uid) : List Uid :=
  us.filter (fun u => !selection.contains u)

namespace Store
section
variable [Blake3] (s : Store)

/-- What a selected unit lacks. -/
def unitViolations (selection : Selection) (support : EdgeSet) (uid : Uid) (level : Lod) :
    List Violation :=
  match s.units.get uid with
  | none => []
  | some unit =>
    (if Lod.l1 ≤ level then
      (selection.missing (unit.core.deps.toList.filter s.read.containsUid)).map (.dep uid)
      ++ (selection.missing (unit.core.grounds.toList.filter s.read.containsUid)).map (.ground uid)
      ++ (selection.missing (s.warrantsOf uid)).map (.warrant uid)
      ++ (selection.missing (s.supportsOf uid support)).map (.support uid)
    else [])
    -- a gist without its rebuttal is still a claim presented unopposed
    ++ (selection.missing ((s.rebuttalsOf uid).filter s.read.containsUid)).map (.rebuttal uid)
    ++ s.openContentions.flatMap (fun k =>
      if k.pins uid then
        (selection.missing (k.positions.filter s.read.containsUid)).map (.contention uid)
      else [])

/-- Whether a pinned unit is short of its body. -/
def pinViolation (selection : Selection) (uid : Uid) : Option Violation :=
  match s.units.get uid with
  | none => none
  | some unit =>
    match selection.get uid with
    | some l =>
      if Lod.l1 ≤ l then none
      -- a unit with no body cannot reach the first level
      else if unit.core.body.isNone then none
      else some (.pin uid l)
    | none => some (.pin uid .l0)

/-- Every violation, not the first. -/
def violations (selection : Selection) (used : Nat) (c : Constraints) : List Violation :=
  Ascending.sortDedup
    (selection.entries.flatMap (fun e => s.unitViolations selection c.support e.1 e.2)
      ++ c.pinned.toList.filterMap (s.pinViolation selection)
      ++ if c.budget < used then [.budget used c.budget] else [])

/-- A unit lacks nothing where everything it drags in is selected. -/
theorem unit_violations_empty {selection : Selection} {support : EdgeSet} {uid : Uid} {l : Lod} :
    s.unitViolations selection support uid l = [] ↔
      ∀ u ∈ s.draggedIn support uid l, selection.contains u = true := by
  have none' : ∀ (us : List Uid) (f : Uid → Violation),
      (selection.missing us).map f = [] ↔ ∀ u ∈ us, selection.contains u = true := by
    intro us f
    rw [List.map_eq_nil_iff, Selection.missing, List.filter_eq_nil_iff]
    simp
  rw [unitViolations, draggedIn]
  cases found : s.units.get uid with
  | none =>
    have absent : s.read.containsUid uid = false := by
      rw [StoreRead.containsUid, BTreeMap.contains]
      exact Option.isSome_eq_false_iff.mpr (Option.isNone_iff_eq_none.mpr found)
    rw [absent]
    simp
  | some unit =>
    have present : s.read.containsUid uid = true := (BTreeMap.contains_iff _ _).mpr ⟨unit, found⟩
    rw [if_pos present]
    dsimp only
    have positions : s.openContentions.flatMap (fun k =>
        if k.pins uid then
          (selection.missing (k.positions.filter s.read.containsUid)).map (Violation.contention uid)
        else []) = [] ↔
        ∀ u ∈ s.openContentions.flatMap (fun k =>
          if k.pins uid then k.positions.filter s.read.containsUid else []),
          selection.contains u = true := by
      rw [List.flatMap_eq_nil_iff]
      constructor
      · intro each u mem
        obtain ⟨k, opened, mem⟩ := List.mem_flatMap.mp mem
        have nothing := each k opened
        split at mem
        · rename_i pins
          rw [if_pos pins, none'] at nothing
          exact nothing u mem
        · cases mem
      · intro all k opened
        split
        · rename_i pins
          rw [none']
          intro u mem
          apply all u
          apply List.mem_flatMap.mpr
          refine ⟨k, opened, ?_⟩
          rw [if_pos pins]
          exact mem
        · rfl
    rw [List.append_eq_nil_iff, List.append_eq_nil_iff, positions, none']
    simp only [List.forall_mem_append]
    apply and_congr_left
    intro _
    apply and_congr_left
    intro _
    by_cases deep : Lod.l1 ≤ l
    · rw [if_pos deep, if_pos deep]
      simp only [List.append_eq_nil_iff, none', List.forall_mem_append, List.filter_append,
        and_assoc]
    · rw [if_neg deep, if_neg deep]
      simp

/-- A selection is legal where it has what its units drag in, its pinned units
have their bodies, and it is within budget. -/
theorem violations_empty {selection : Selection} {used : Nat} {c : Constraints} :
    s.violations selection used c = [] ↔
      (∀ e ∈ selection.entries, ∀ u ∈ s.draggedIn c.support e.1 e.2,
        selection.contains u = true) ∧
      (∀ f ∈ c.pinned, s.pinViolation selection f = none) ∧ used ≤ c.budget := by
  have none' : ∀ l : List Violation, Ascending.sortDedup l = [] ↔ l = [] := by
    intro l
    rw [List.eq_nil_iff_forall_not_mem, List.eq_nil_iff_forall_not_mem]
    apply forall_congr'
    intro v
    rw [Ascending.mem_sort_dedup]
  rw [violations, none', List.append_eq_nil_iff, List.append_eq_nil_iff, List.flatMap_eq_nil_iff,
    List.filterMap_eq_nil_iff, and_assoc]
  apply and_congr
  · apply forall_congr'
    intro e
    rw [unit_violations_empty]
  · apply and_congr
    · apply forall_congr'
      intro f
      rw [BTreeSet.mem_toList]
    · split
      · rename_i dear
        simp [dear]
      · rename_i within
        simp [not_lt.mp within]

end
end Store
end Smysl
