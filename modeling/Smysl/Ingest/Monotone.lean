import Mathlib.Data.List.MinMax
import Smysl.Graph.RelinkSettles
import Smysl.Ingest.Ceiling

/-!
Rule M at the boundary: a batch is swept so that a unit's grounds come before it, each unit
follows its references to where they have moved, and is weakened to what its weakest ground
supports. A status is part of what names a unit, so what is weakened moves.
-/
namespace Smysl

namespace UnitCore

/-- What is attainable is no retraction, and the unit has what it requires. -/
theorem attainable_made (core : UnitCore) (cap : Status) :
    core.attainable cap ≠ .unfounded ∧ core.supports (core.attainable cap) = true := by
  rw [attainable]
  cases found : Status.all.reverse.find? (fun s =>
      !(decide (cap < s) || s == .unfounded) && core.supports s) with
  | none => exact ⟨by decide, rfl⟩
  | some s =>
    have good := List.find?_some found
    rw [Bool.and_eq_true, Bool.not_eq_true', Bool.or_eq_false_iff, beq_eq_false_iff_ne] at good
    exact ⟨good.1.2, good.2⟩

/-- The unit at the strongest status at or below a cap that its shape supports. -/
def weakenTo (core : UnitCore) (cap : Status) : UnitCore :=
  { core with
    status := core.attainable cap
    authored := (core.attainable_made cap).1
    sourced := by
      intro needed
      have supported := (core.attainable_made cap).2
      cases here : core.attainable cap <;> rw [here] at needed supported <;>
        first | exact supported | cases needed
    grounded := by
      intro needed
      have supported := (core.attainable_made cap).2
      have grounded : (!core.grounds.isEmpty) = true := by
        cases here : core.attainable cap <;> rw [here] at needed supported <;>
          first | exact supported | cases needed
      rw [Bool.not_eq_true'] at grounded
      exact grounded }

end UnitCore

namespace Monotone

/-- One unit weakened to what its grounds support. -/
structure Weakening where
  before : Uid
  after : Uid
  src : Status
  dst : Status
  weakest : Option Uid
  deriving DecidableEq

/-- What the pass did to a batch. -/
structure Applied where
  units : List UnitCore
  /-- Old uid to new, for every unit that moved. -/
  remap : BTreeMap Uid Uid
  weakened : List Weakening
  deriving DecidableEq

/-- What the sweep has done so far. -/
structure Sweep where
  remap : BTreeMap Uid Uid
  rewritten : BTreeMap Uid UnitCore
  weakened : List Weakening

/-- The status a uid carries: as rewritten, in the batch, or in the store. -/
def statusOf (uid : Uid) (rewritten original : BTreeMap Uid UnitCore) (store : StoreRead) :
    Option Status :=
  match rewritten.get uid with
  | some u => some u.status
  | none =>
    match original.get uid with
    | some u => some u.status
    | none => (store.coreAt uid).map UnitCore.status

/-- The weakest of the grounds whose status is known, the first of them. -/
def weakestOf (status : Uid → Option Status) (grounds : BTreeSet Uid) : Option (Status × Uid) :=
  (grounds.toList.filterMap fun g => (status g).map fun s => (s, g)).argmin Prod.fst

/-- The unit within what its weakest ground supports. -/
def weaken (status : Uid → Option Status) (core : UnitCore) : UnitCore :=
  match weakestOf status core.grounds with
  | some (cap, _) => if cap < core.status then core.weakenTo cap else core
  | none => core

section
variable [Unicode] [Blake3]

/-- The units of the batch, under their uids. -/
def originals (units : List UnitCore) : BTreeMap Uid UnitCore :=
  .ofList (units.map fun u => (canonicalUid u, u))

/-- One unit of the sweep. -/
def visit (store : StoreRead) (original : BTreeMap Uid UnitCore) (state : Sweep)
    (unit : UnitCore) : UnitCore × Sweep :=
  let before := canonicalUid unit
  let followed := unit.pointing (successor state.remap)
  let status uid := statusOf uid state.rewritten original store
  let core := weaken status followed
  let after := canonicalUid core
  let weakened :=
    match weakestOf status followed.grounds with
    | some (cap, ground) =>
      if cap < followed.status then
        state.weakened ++ [⟨before, after, followed.status, core.status, some ground⟩]
      else state.weakened
    | none => state.weakened
  (core,
    { remap := if after = before then state.remap else state.remap.insert before after
      rewritten := state.rewritten.insert after core
      weakened })

/-- A unit of the sweep by its place in the batch, where what becomes of it is put. -/
def sweepOne (store : StoreRead) (units : List UnitCore)
    (state : Sweep × List (Option UnitCore)) (i : Nat) : Sweep × List (Option UnitCore) :=
  match units[i]? with
  | none => state
  | some unit =>
    let visited := visit store (originals units) state.1 unit
    (visited.2, state.2.set i (some visited.1))

/-- Bring a batch into rule M. -/
def apply (store : StoreRead) (units : List UnitCore) : Applied :=
  let swept := (topological units).foldl (sweepOne store units)
    (⟨∅, ∅, []⟩, List.replicate units.length none)
  ⟨swept.2.filterMap id, swept.1.remap, swept.1.weakened⟩

end

/-! What weakening comes to. -/

section
variable {status : Uid → Option Status} {core : UnitCore}

theorem weakest_of_none {grounds : BTreeSet Uid} (none_ : weakestOf status grounds = none) :
    ∀ g ∈ grounds, status g = none := by
  intro g mem
  rw [weakestOf, List.argmin_eq_none, List.filterMap_eq_nil_iff] at none_
  simpa using none_ g ((BTreeSet.mem_toList _ _).mpr mem)

theorem weakest_of_some {grounds : BTreeSet Uid} {e : Status × Uid}
    (found : weakestOf status grounds = some e) :
    (e.2 ∈ grounds ∧ status e.2 = some e.1) ∧
      ∀ g ∈ grounds, ∀ s, status g = some s → e.1 ≤ s := by
  have listed (g : Uid) (s : Status) : (s, g) ∈ grounds.toList.filterMap (fun g =>
      (status g).map fun s => (s, g)) ↔ g ∈ grounds ∧ status g = some s := by
    rw [List.mem_filterMap]
    constructor
    · rintro ⟨h, mem, here⟩
      obtain ⟨t, known, same⟩ := Option.map_eq_some_iff.mp here
      cases same
      exact ⟨(BTreeSet.mem_toList _ _).mp mem, known⟩
    · rintro ⟨mem, known⟩
      exact ⟨g, (BTreeSet.mem_toList _ _).mpr mem, by rw [known]; rfl⟩
  refine ⟨(listed e.2 e.1).mp (List.argmin_mem found), fun g mem s known => ?_⟩
  exact List.le_of_mem_argmin ((listed g s).mpr ⟨mem, known⟩) found

/-- Every field but the status is left. -/
theorem weaken_same (status : Uid → Option Status) (core : UnitCore) :
    Ceiling.SameBut (weaken status core) core := by
  rw [weaken]
  split
  · split <;> constructor <;> rfl
  · constructor <;> rfl

/-- A unit within its grounds is left. -/
theorem weaken_within (within : ∀ g ∈ core.grounds, ∀ s, status g = some s → core.status ≤ s) :
    weaken status core = core := by
  rw [weaken]
  split
  · rename_i cap g found
    obtain ⟨⟨mem, known⟩, -⟩ := weakest_of_some found
    exact if_neg (not_lt.mpr (within g mem cap known))
  · rfl

/-- What a unit is weakened to is nothing above any of its grounds, and nothing above what it
was. -/
theorem weaken_most (authored : ∀ g s, status g = some s → s ≠ .unfounded) :
    (weaken status core).status ≤ core.status ∧
      ∀ g ∈ core.grounds, ∀ s, status g = some s → (weaken status core).status ≤ s := by
  rw [weaken]
  split
  · rename_i cap g found
    obtain ⟨⟨-, known⟩, least⟩ := weakest_of_some found
    have attained := (core.attainable_spec (authored g cap known)).1.1
    split
    · rename_i above
      exact ⟨attained.trans above.le, fun g' mem s known' =>
        attained.trans (least g' mem s known')⟩
    · rename_i below
      exact ⟨le_rfl, fun g' mem s known' => (not_lt.mp below).trans (least g' mem s known')⟩
  · rename_i none_
    refine ⟨le_rfl, fun g mem s known => ?_⟩
    rw [weakest_of_none none_ g mem] at known
    cases known

theorem weaken_again (authored : ∀ g s, status g = some s → s ≠ .unfounded) :
    weaken status (weaken status core) = weaken status core :=
  weaken_within fun g mem s known =>
    (weaken_most authored).2 g ((weaken_same status core).grounds ▸ mem) s known

/-- Only the statuses of the grounds count. -/
theorem weaken_congr {status' : Uid → Option Status}
    (same : ∀ g ∈ core.grounds, status g = status' g) :
    weaken status core = weaken status' core := by
  have listed : core.grounds.toList.filterMap (fun g => (status g).map fun s => (s, g)) =
      core.grounds.toList.filterMap (fun g => (status' g).map fun s => (s, g)) :=
    List.filterMap_congr fun g mem => by rw [same g ((BTreeSet.mem_toList _ _).mp mem)]
  rw [weaken, weaken, weakestOf, weakestOf, listed]

end

end Monotone
end Smysl
