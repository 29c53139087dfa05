import Mathlib.Algebra.Order.Round
import Mathlib.Data.Rat.Floor
import Mathlib.Logic.Function.Basic
import Smysl.Pack.Constraints
import Smysl.Pack.Exact

/-!
The solver: the mandatory floor, the whole scope where it fits, greedy by
density over closures, and the exact search where it was asked for. Values and
saliences are exact.
-/
namespace BTreeSet
variable {K : Type} [LinearOrder K]

/-- `BTreeSet::remove`. -/
def remove (s : BTreeSet K) (k : K) : BTreeSet K :=
  ⟨s.toMap.filter (fun j _ => decide (j ≠ k))⟩

theorem mem_remove (s : BTreeSet K) (k j : K) :
    j ∈ s.remove k ↔ j ∈ s ∧ j ≠ k := by
  rw [← mem_toList, ← mem_toList, toList, toList,
    BTreeMap.keys, BTreeMap.keys, remove, BTreeMap.filter, List.mem_map, List.mem_map]
  constructor
  · rintro ⟨e, mem, rfl⟩
    obtain ⟨held, apart⟩ := List.mem_filter.mp mem
    exact ⟨⟨e, held, rfl⟩, of_decide_eq_true apart⟩
  · rintro ⟨⟨e, held, rfl⟩, apart⟩
    exact ⟨e, List.mem_filter.mpr ⟨held, decide_eq_true apart⟩, rfl⟩

end BTreeSet

namespace Smysl
open Obligations

/-- Why a unit is in a pack. -/
inductive Reason where
  | focus
  | threadPin
  | rebuts (of : Uid)
  | contests (of : Uid)
  | depOf (of : Uid)
  | groundOf (of : Uid)
  | warrantOf (of : Uid)
  | density
  | supportOf (of : Uid)
  deriving DecidableEq

namespace Store
section
variable [Blake3] (s : Store)

/-- What a unit at a level would add over a caller's support edges. -/
def deltaVia (selected : Selection) (uid : Uid) (level : Lod) (support : EdgeSet) : Selection :=
  keepShortfall (s.requiredVia uid level support) selected

/-- Why one unit of a closure demands another, if it does. -/
def demands (support : EdgeSet) (x holder : Uid) (hl : Lod) : Option Reason :=
  match s.units.get holder with
  | none => none
  | some unit =>
    let deep := decide (Lod.l1 ≤ hl)
    if deep && unit.core.deps.contains x then some (.depOf holder)
    else if deep && unit.core.grounds.contains x then some (.groundOf holder)
    else if deep && (s.warrantsOf holder).contains x then some (.warrantOf holder)
    else if deep && (s.supportsOf holder support).contains x then some (.supportOf holder)
    else if (s.rebuttalsOf holder).contains x then some (.rebuts holder)
    else if s.openContentions.any (fun k => k.pins holder && k.positions.contains x) then
      some (.contests holder)
    else none

/-- Attribute each unit a closure pulled in to the first that demands it. -/
def reasonsVia (uid : Uid) (level : Lod) (support : EdgeSet) : BTreeMap Uid Reason :=
  let need := s.requiredVia uid level support
  BTreeMap.ofList ((need.keys.filter (fun x => decide (x ≠ uid))).map (fun x =>
    (x, ((need.entries.filter (fun e => decide (e.1 ≠ x))).findSome?
      (fun e => s.demands support x e.1 e.2)).getD .density)))

end

/-- The deepest level a unit was authored at, and at least the first. -/
def highestAvailable (s : Store) (uid : Uid) : Lod :=
  max (((s.units.get uid).map (fun held => held.core.maxLod)).getD .l0) .l1

end Store

/-- To a multiple of a 1024th. -/
def quantiseExact (q : ℚ≥0) : ℚ≥0 := (⌊q * 1024 + 1 / 2⌋₊ : ℚ≥0) / 1024

/-- Rescale so that the highest-scoring unit within a selection reaches one. -/
def Salience.renormalise (salience : Salience) (within : List Uid) : Salience :=
  let most := (within.map salience.of).foldl max 0
  BTreeMap.ofList (within.map (fun u =>
    (u, if 0 < most then quantiseExact (salience.of u / most) else 0)))

/-- The greedy's choice, as one orderable value. -/
structure Choice where
  density : ℚ
  salience : ℚ≥0
  uid : Uid
  level : Lod
  index : Nat

/-- Density, then salience, then uid descending, then level descending, then
index descending. -/
def Choice.key (c : Choice) : ℚ ×ₗ ℚ≥0 ×ₗ Uidᵒᵈ ×ₗ Lodᵒᵈ ×ₗ ℕᵒᵈ :=
  toLex (c.density, toLex (c.salience, toLex (OrderDual.toDual c.uid,
    toLex (OrderDual.toDual c.level, OrderDual.toDual c.index))))

theorem Choice.key_injective : Function.Injective Choice.key := by
  rintro ⟨density, salience, uid, level, index⟩ ⟨density', salience', uid', level', index'⟩ same
  simp only [key, EmbeddingLike.apply_eq_iff_eq, Prod.mk.injEq] at same
  obtain ⟨rfl, rfl, rfl, rfl, rfl⟩ := same
  rfl

instance : LinearOrder Choice := LinearOrder.lift' Choice.key Choice.key_injective

/-- What the greedy keeps from round to round. -/
structure Greedy where
  selection : Selection
  used : Nat
  why : BTreeMap Uid Reason
  /-- The cost and value of each candidate, where they are current. -/
  weighed : Nat → Option (Nat × ℚ)
  /-- Where each candidate stands in `ready`. -/
  placed : Nat → Option Choice
  ready : BTreeSet Choice

namespace PackProblem
section
variable [Blake3] (p : PackProblem) (support : EdgeSet) (candidates : List (Uid × Lod))

/-- The cost and value a delta adds, charging only the shortfall over what is
already held. -/
def weigh (selected d : Selection) : Nat × ℚ :=
  d.entries.foldl (fun acc e =>
    match p.store.units.get e.1 with
    | none => acc
    | some unit =>
      let s := p.salience.of e.1
      match selected.get e.1 with
      | some held =>
        (acc.1 + p.costs.upgrade unit.core held e.2, acc.2 + (value s e.2 - value s held))
      | none => (acc.1 + p.costs.unit unit.core e.2, acc.2 + (value s e.2 - 0))) (0, 0)

/-- The candidates whose obligation mentions a unit. -/
def affected (u : Uid) : List Nat :=
  (List.range candidates.length).filter (fun i =>
    candidates[i]?.any (fun c => (p.store.requiredVia c.1 c.2 support).contains u))

/-- Take a candidate out of the running. -/
def unplace (i : Nat) (st : Greedy) : Greedy :=
  match st.placed i with
  | some old => { st with placed := Function.update st.placed i none, ready := st.ready.remove old }
  | none => st

/-- What a candidate would cost and be worth now. -/
def price (selection : Selection) (uid : Uid) (level : Lod) : Nat × ℚ :=
  let d := p.store.deltaVia selection uid level support
  if d.isEmpty then (0, 0) else p.weigh selection d

/-- Price a candidate that a selection change invalidated, and place it. -/
def reprice (st : Greedy) (i : Nat) : Greedy :=
  let st := unplace i st
  match candidates[i]? with
  | none => st
  | some (uid, level) =>
    -- satisfied candidates leave the running
    if (st.selection.get uid).any (fun l => decide (level ≤ l)) then st
    else
      let w := p.price support st.selection uid level
      let st := { st with weighed := Function.update st.weighed i (some w) }
      if w.1 = 0 then st
      else if p.budget < st.used + w.1 then st
      else
        let c : Choice := ⟨w.2 / (w.1 : ℚ), p.salience.of uid, uid, level, i⟩
        { st with placed := Function.update st.placed i (some c), ready := st.ready.insert c }

/-- The best candidate that is affordable, best first; the rest are parked. -/
def popBest : List Choice → Greedy → Option (Uid × Lod × Nat) × Greedy
  | [], st => (none, st)
  | c :: rest, st =>
    let st := { st with
      placed := Function.update st.placed c.index none, ready := st.ready.remove c }
    match candidates[c.index]?, st.weighed c.index with
    | some (uid, level), some w =>
      if p.budget < st.used + w.1 then popBest rest st else (some (uid, level, w.1), st)
    -- placed candidates are priced
    | _, _ => (none, st)

/-- Raise one unit of what was chosen, and tell which candidates that moves. -/
def acceptOne (uid : Uid) (level : Lod) (state : Greedy × List Nat) (e : Uid × Lod) :
    Greedy × List Nat :=
  let moved := (state.1.selection.get e.1).all (fun held => decide (held < e.2))
  let hit := if moved then p.affected support candidates e.1 else []
  ({ state.1 with
      selection := raise state.1.selection e
      weighed := fun i => if i ∈ hit then none else state.1.weighed i
      why := state.1.why.orInsert e.1 (if e.1 = uid then .density
        else ((p.store.reasonsVia uid level support).get e.1).getD .density) },
    state.2 ++ hit)

def accept (uid : Uid) (level : Lod) (dc : Nat) (st : Greedy) : Greedy × List Nat :=
  let d := p.store.deltaVia st.selection uid level support
  let (st, dirty) := d.entries.foldl (p.acceptOne support candidates uid level) (st, [])
  ({ st with used := st.used + dc }, dirty)

/-- One round for each unit accepted. -/
def rounds : Nat → List Nat → Greedy → Greedy
  | 0, _, st => st
  | fuel + 1, dirty, st =>
    let st := dirty.foldl (p.reprice support candidates) st
    match p.popBest candidates st.ready.toList.reverse st with
    | (none, st) => st
    | (some (uid, level, dc), st) =>
      let (st, dirty) := p.accept support candidates uid level dc st
      rounds fuel dirty st

/-- A round satisfies a candidate, so there are no more rounds than candidates. -/
def greedy (selection : Selection) (used : Nat) (why : BTreeMap Uid Reason) : Greedy :=
  p.rounds support candidates (candidates.length + 1) (List.range candidates.length)
    ⟨selection, used, why, fun _ => none, fun _ => none, ∅⟩

end
end PackProblem

/-- What to pack. -/
structure PackRequest where
  budget : Nat
  /-- Taken out of the budget before solving. -/
  reserved : Nat := 0
  thread : Option ThreadId := none
  focus : BTreeSet Uid := ∅
  mode : PackMode := .greedy
  /-- A counter standing in for the bundled estimator. -/
  external : Option (String → Nat) := none
  /-- Cap every unit at this level. -/
  maxLod : Option Lod := none
  /-- Restrict packing to these units; empty means the whole store. -/
  scope : BTreeSet Uid := ∅
  support : EdgeSet := {}
  /-- Above this many units exact packing falls back to greedy. -/
  exactThreshold : Nat := 256

inductive PackError where
  | overReserved (budget reserved : Nat)
  | focusAbsent (uid : Uid)
  | infeasible (budget required : Nat)
  deriving DecidableEq

/-- The self-description every pack emits. -/
structure Pack.Info where
  budget : Nat
  used : Nat
  reserved : Nat
  thread : Option ThreadId
  dropped : List (Uid × DropReason)
  degraded : List (Uid × Lod)
  mode : PackMode
  gap : ℚ

/-- A finished pack. -/
structure Pack where
  selection : Selection
  info : Pack.Info
  why : BTreeMap Uid Reason
  report : List String

namespace PackRequest
section
variable [Blake3] (req : PackRequest) (s : Store)

/-- What the solver may actually spend. -/
def effectiveBudget : Nat := req.budget - req.reserved

def costModel : CostModel := ⟨req.external⟩

/-- The units packing is restricted to. -/
def within : List Uid :=
  if req.scope.isEmpty then s.units.keys else req.scope.toList.filter s.read.containsUid

def cap (l : Lod) : Lod :=
  match req.maxLod with
  | some m => if m < l then m else l
  | none => l

/-- The level a focus unit is taken at. -/
def want (f : Uid) : Lod := req.cap (s.highestAvailable f)

/-- The mandatory floor. -/
def floor : Selection :=
  req.focus.toList.foldl (fun selection f =>
    (s.requiredVia f (req.want s f) req.support).entries.foldl PackProblem.raise selection) ∅

/-- A unit at its top level. -/
def atTop (u : Uid) : Option (Uid × Lod) :=
  match s.units.get u with
  | none => none
  | some unit => (((availableLevels unit.core).map req.cap).max?).map (fun top => (u, top))

/-- Every unit in scope at its top level. -/
def everything : Selection := BTreeMap.ofList ((req.within s).filterMap (req.atTop s))

def constraints : Constraints := ⟨req.focus, req.effectiveBudget, req.support⟩

/-- Whether the budget admits the whole scope. -/
def wholeFits : Bool :=
  let cost := costOf s (req.everything s) req.costModel
  decide (cost ≤ req.effectiveBudget)
    && (s.violations (req.everything s) cost req.constraints).isEmpty

/-- Whether the exact search is run, in a build that has it. -/
def searches (branchAndBound : Bool) : Bool :=
  branchAndBound && decide (req.mode = .exact)
    && decide ((req.within s).length ≤ req.exactThreshold)

/-- The problem the solver works on. -/
def problem (salience : Salience) : PackProblem where
  store := s
  salience := salience.renormalise (req.within s)
  costs := req.costModel
  budget := req.effectiveBudget
  nodeLimit := 250000
  cap := req.cap

/-- Every unit and level the greedy could ever weigh. -/
def candidates : List (Uid × Lod) :=
  (req.within s).flatMap (fun u =>
    match s.units.get u with
    | none => []
    | some unit => (availableLevels unit.core).map (fun l => (u, req.cap l)))

/-- Why each unit of the floor is in. -/
def floorReasons : BTreeMap Uid Reason :=
  req.focus.toList.foldl (fun why f =>
    (s.reasonsVia f (req.want s f) req.support).entries.foldl (fun why e => why.orInsert e.1 e.2)
      (why.insert f .focus)) ∅

/-- The floor, or the whole scope over it where that fits. -/
def start : Selection × Nat × BTreeMap Uid Reason :=
  if req.wholeFits s then
    ((req.everything s).entries.foldl PackProblem.raise (req.floor s),
      costOf s (req.everything s) req.costModel,
      (req.everything s).entries.foldl (fun why e => why.orInsert e.1 .density)
        (req.floorReasons s))
  else (req.floor s, costOf s (req.floor s) req.costModel, req.floorReasons s)

def solveGreedy (salience : Salience) : Greedy :=
  let (selection, used, why) := req.start s
  (req.problem s salience).greedy req.support (req.candidates s) selection used why

/-- Why a unit did not make it. -/
def dropReason (salience : Salience) (selection : Selection) (uid : Uid) : DropReason :=
  if salience.of uid = 0 then .lowValue
  else if 1 < (s.delta selection uid .l0).entries.length then .closureCost
  else .budget

/-- Upper bound on the value left on the table, as a share. -/
def gap (achieved headroom : ℚ) : ℚ :=
  if achieved + headroom ≤ 0 then 0 else quantiseExact (headroom / (achieved + headroom)).toNNRat

/-- The manifest of a pack. -/
def manifest (salience : Salience) (selection : Selection) (used : Nat) (proven : Bool) :
    Pack.Info :=
  let p := req.problem s salience
  let headroom :=
    if proven then 0 else p.fractional selection (req.within s) (p.budget - used)
  { budget := req.budget
    used
    reserved := req.reserved
    thread := req.thread
    dropped := ((req.within s).filter (fun u => !selection.contains u)).map (fun u =>
      (u, dropReason s p.salience selection u))
    degraded := selection.entries.filter (fun e =>
      (s.units.get e.1).any (fun unit => decide (e.2 < req.cap unit.core.maxLod)))
    mode := req.mode
    gap := gap (achieved selection p.salience) headroom }

/-- Pack a store to a budget. -/
def pack (branchAndBound : Bool) (salience : Salience) : Except PackError Pack :=
  if req.reserved ≠ 0 ∧ req.budget ≤ req.reserved then
    .error (.overReserved req.budget req.reserved)
  else
    match req.focus.toList.find? (fun f => !s.read.containsUid f) with
    | some f => .error (.focusAbsent f)
    | none =>
      let floorCost := costOf s (req.floor s) req.costModel
      if req.effectiveBudget < floorCost then
        .error (.infeasible req.budget (floorCost + req.reserved))
      else
        let st := req.solveGreedy s salience
        if req.searches s branchAndBound then
          let found := (req.problem s salience).solve (req.within s) (req.floor s) st.selection
          .ok ⟨found.selection,
            req.manifest s salience found.selection found.used found.proven, st.why,
            if found.proven then [] else
              ["the exact search hit its node limit; the pack is valid but not proven optimal"]⟩
        else
          .ok ⟨st.selection, req.manifest s salience st.selection st.used false, st.why,
            if req.mode ≠ .exact then []
            else if req.exactThreshold < (req.within s).length then
              [toString (req.within s).length ++ " units is above the exact threshold of "
                ++ toString req.exactThreshold ++ "; packed greedily"]
            else ["exact packing is not compiled in; rebuild with the `exact-pack` feature"]⟩

/-- Verify a finished pack, so that a caller can audit rather than trust. -/
def verify (pk : Pack) : List Violation :=
  s.violations pk.selection pk.info.used req.constraints

end
end PackRequest
end Smysl
