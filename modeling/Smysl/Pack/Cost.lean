import Mathlib.Algebra.Order.Field.Rat
import Mathlib.Data.NNRat.Defs
import Smysl.Graph.Compact

/-!
What a unit costs at a level of detail, and what it is worth there. Values are
exact: saliences are nonnegative rationals.
-/
namespace Smysl
open ByteString

namespace Lod

def rank : Lod → Nat
  | l0 => 0
  | l1 => 1
  | l2 => 2

theorem rank_injective : Function.Injective rank := by
  intro a b same
  cases a <;> cases b <;> first | rfl | cases same

instance : LinearOrder Lod := LinearOrder.lift' rank rank_injective

/-- Packing value gain; diminishing, so that breadth beats depth. -/
def gain : Lod → ℚ
  | l0 => 1
  | l1 => 8 / 5
  | l2 => 37 / 20

def all : List Lod := [l0, l1, l2]

theorem mem_all (l : Lod) : l ∈ all := by cases l <;> decide

theorem l0_le (l : Lod) : l0 ≤ l := by cases l <;> decide

end Lod

/-- What a pack is counted with: the bundled estimator, or the caller's counter. -/
structure CostModel where
  external : Option (String → Nat) := none

namespace CostModel

/-- The cost of one text; the bundled estimator reads its length as a `u32`. -/
def text (e : CostModel) (t : String) : Nat :=
  match e.external with
  | some cost => cost t
  | none => ((utf8 t).length % 2 ^ 32 + 3) / 4 + 2

/-- The cost of a unit at a level; levels are cumulative. -/
def unit (e : CostModel) (core : UnitCore) (level : Lod) : Nat :=
  e.text core.gist
    + (if Lod.l1 ≤ level then (core.body.map e.text).getD 0 else 0)
    + (if Lod.l2 ≤ level then (core.detail.map e.text).getD 0 else 0)

/-- What upgrading from a level to another costs. -/
def upgrade (e : CostModel) (core : UnitCore) (low high : Lod) : Nat :=
  e.unit core high - e.unit core low

theorem unit_mono (e : CostModel) (core : UnitCore) {low high : Lod} (le : low ≤ high) :
    e.unit core low ≤ e.unit core high := by
  have grows : ∀ (l : Lod) (n : Nat), (if l ≤ low then n else 0) ≤ if l ≤ high then n else 0 := by
    intro l n
    by_cases under : l ≤ low
    · rw [if_pos under, if_pos (under.trans le)]
    · rw [if_neg under]
      exact Nat.zero_le _
  rw [unit, unit]
  have body := grows .l1 ((core.body.map e.text).getD 0)
  have detail := grows .l2 ((core.detail.map e.text).getD 0)
  omega

end CostModel

/-- The levels a unit was authored at. -/
def availableLevels (core : UnitCore) : List Lod :=
  Lod.l0 :: ((if core.body.isSome then [Lod.l1] else [])
    ++ (if core.detail.isSome then [Lod.l2] else []))

/-- The value of a unit at a level. -/
def value (salience : ℚ≥0) (level : Lod) : ℚ := salience * level.gain

/-- Which units are in, and at what level. -/
abbrev Selection := BTreeMap Uid Lod

abbrev Salience := BTreeMap Uid ℚ≥0

def Salience.of (salience : Salience) (uid : Uid) : ℚ≥0 := (salience.get uid).getD 0

/-- `bound::achieved`, the value of a selection. -/
def achieved (selection : Selection) (salience : Salience) : ℚ :=
  (selection.entries.map (fun e => value (salience.of e.1) e.2)).sum

def costOf (s : Store) (selection : Selection) (e : CostModel) : Nat :=
  (selection.entries.filterMap (fun x =>
    (s.units.get x.1).map (fun held => e.unit held.core x.2))).sum

end Smysl
