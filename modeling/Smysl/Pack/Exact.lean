import Smysl.Lib.Knapsack
import Smysl.Pack.Closure

/-!
Exact packing by branch and bound. The search is over anchors: choosing a unit
at a level commits its whole closure, and a branch is left where the fractional
relaxation of what is still to be decided cannot beat the best seen.
-/
namespace Smysl
open Knapsack

/-- What the search found. -/
structure Exact where
  selection : Selection
  used : Nat
  value : ℚ
  nodes : Nat
  /-- The search completed rather than hitting the node limit. -/
  proven : Bool

/-- What a pack is looked for in. -/
structure PackProblem where
  store : Store
  salience : Salience
  costs : CostModel
  budget : Nat
  nodeLimit : Nat
  cap : Lod → Lod

/-- The best seen, and the nodes explored. -/
structure Search where
  best : Exact
  nodes : Nat

namespace PackProblem
section
variable [Blake3] (p : PackProblem)

/-- The levels a unit may be taken at, in ascending order. -/
def cappedLevels (core : UnitCore) : List Lod :=
  (BTreeSet.ofList ((availableLevels core).map p.cap)).toList

/-- What raising a unit to each level would cost and be worth, where both are
something. -/
def upgrades (core : UnitCore) (held : Option Lod) (s : ℚ≥0) : List (Nat × ℚ) :=
  (((availableLevels core).map p.cap).filter (fun l =>
    match held with
    | some h => decide (h < l)
    | none => true)).map (fun l =>
      match held with
      | some h => (p.costs.upgrade core h l, value s l - value s h)
      | none => (p.costs.unit core l, value s l - 0))
    |>.filter (fun u => decide (0 < u.1) && decide (0 < u.2))

/-- One relaxed item: a unit at its best density, up to its largest spend. -/
def relaxedItem (selection : Selection) (uid : Uid) : Option Item :=
  match p.store.units.get uid with
  | none => none
  | some unit =>
    let ups := p.upgrades unit.core (selection.get uid) (p.salience.of uid)
    if ups.isEmpty then none
    else
      let bestDensity := ups.foldl (fun d u => max d (u.2 / (u.1 : ℚ))) 0
      let capacity := ups.foldl (fun c u => max c u.1) 0
      if capacity = 0 ∨ bestDensity ≤ 0 then none
      else some ⟨capacity, capacity * bestDensity⟩

/-- The most additional value any solution could reach. -/
def fractional (selection : Selection) (scope : List Uid) (remaining : Nat) : ℚ :=
  if remaining = 0 then 0
  else relaxed remaining (scope.filterMap (p.relaxedItem selection))

def raise (selection : Selection) (e : Uid × Lod) : Selection :=
  match selection.get e.1 with
  | some existing => if e.2 ≤ existing then selection else selection.insert e.1 e.2
  | none => selection.insert e.1 e.2

/-- Come to a node: count it, and keep its selection if it is strictly better. -/
def visit (selection : Selection) (used : Nat) (st : Search) : Search :=
  let value := achieved selection p.salience
  { best := if st.best.value < value then { st.best with value, used, selection } else st.best
    nodes := st.nodes + 1 }

/-- Try one level of a unit, where it would change something and is affordable. -/
def tryLevel (go : Selection → Nat → Search → Search × Bool) (selection : Selection) (uid : Uid)
    (state : Search × Bool) (level : Lod) : Search × Bool :=
  if (selection.get uid).any (fun l => decide (level ≤ l)) then state
  else
    let d := p.store.delta selection uid level
    if d.isEmpty then state
    else
      let next := d.entries.foldl raise selection
      let nextCost := costOf p.store next p.costs
      if p.budget < nextCost then state
      else
        let (st, limited) := go next nextCost state.1
        (st, state.2 || limited)

/-- Whether the node limit was reached, and what was seen by then. -/
def descend : List Uid → Selection → Nat → Search → Search × Bool
  | [], selection, used, st =>
    if p.nodeLimit < st.nodes + 1 then ({ st with nodes := st.nodes + 1 }, true)
    else (p.visit selection used st, false)
  | uid :: rest, selection, used, st =>
    if p.nodeLimit < st.nodes + 1 then ({ st with nodes := st.nodes + 1 }, true)
    else
      let here := p.visit selection used st
      let headroom := p.fractional selection (uid :: rest) (p.budget - used)
      if achieved selection p.salience + headroom ≤ here.best.value then (here, false)
      else
        match p.store.units.get uid with
        | none => descend rest selection used here
        | some unit =>
          -- deepest first, and last the branch where the unit is not anchored at all
          let tried := (p.cappedLevels unit.core).reverse.foldl
            (p.tryLevel (fun s u st => descend rest s u st) selection uid) (here, false)
          let (st, limited) := descend rest selection used tried.1
          (st, tried.2 || limited)

/-- Search for the highest-value closure-complete selection within a budget. -/
def solve (scope : List Uid) (floor incumbent : Selection) : Exact :=
  let start : Exact := ⟨incumbent, costOf p.store incumbent p.costs,
    achieved incumbent p.salience, 0, false⟩
  let (st, hitLimit) := p.descend scope floor (costOf p.store floor p.costs) ⟨start, 0⟩
  { st.best with nodes := st.nodes, proven := !hitLimit }

end
end PackProblem
end Smysl
