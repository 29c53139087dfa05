import Smysl.Graph.OverlayAnswers
import Smysl.Graph.RelinkSettles
import Smysl.Graph.Traverse
import Smysl.Ingest.Ceiling

/-!
Rule M, as it is checked: no derived or inferred unit is above the weakest of its grounds that
are present.
-/
namespace Smysl

/-- `is_rule_m_constrained`. -/
def Status.isRuleMConstrained (s : Status) : Bool := s.requiresGrounds

namespace Epistemics

/-- A diagnostic `SMY-E030`: a unit's status exceeds the cap set by its weakest ground. -/
structure Overclaim where
  subject : Uid
  status : Status
  cap : Status
  weakest : Uid
  deriving DecidableEq

/-- The lowest status among a unit's present grounds, and which ground it was; ties go to the
least uid. -/
def weakestGround (s : StoreRead) (uid : Uid) : Option (Status ×ₗ Uid) :=
  (s.coreAt uid).bind fun core => (core.grounds.toList.filterMap fun g =>
    (s.coreAt g).map fun u => toLex (u.status, g)).min?

/-- What the pass says of a node. -/
def judge (s : StoreRead) (uid : Uid) : Option Overclaim :=
  match s.coreAt uid with
  | none => none
  | some core =>
    if !core.status.isRuleMConstrained then none
    else
      match weakestGround s uid with
      | none => none
      | some e =>
        if (ofLex e).1 < core.status then some ⟨uid, core.status, (ofLex e).1, (ofLex e).2⟩
        else none

/-- The pass, over the nodes in the order of their grounds. -/
def run (s : StoreRead) (g : Adjacency) : List Overclaim :=
  let order := g.topo { kinds := .ofList [.grounds] }
  (order.order ++ order.cyclic).filterMap (judge s)

/-- Rule M for one uid: what it holds is exempt or is no higher than any present ground. -/
def Within (s : StoreRead) (uid : Uid) : Prop :=
  ∀ core, s.coreAt uid = some core → core.status.isRuleMConstrained = true →
    ∀ g ∈ core.grounds, ∀ u, s.coreAt g = some u → core.status ≤ u.status

theorem judge_subject {s : StoreRead} {uid : Uid} {d : Overclaim} (said : judge s uid = some d) :
    d.subject = uid := by
  rw [judge] at said
  split at said
  · cases said
  · split at said
    · cases said
    · split at said
      · cases said
      · split at said
        · cases said
          rfl
        · cases said

/-- Nothing is said of a uid that is within rule M. -/
theorem within_unreported {s : StoreRead} {uid : Uid} (within : Within s uid) (g : Adjacency) :
    ∀ d ∈ run s g, d.subject ≠ uid := by
  intro d mem here
  obtain ⟨n, -, said⟩ := List.mem_filterMap.mp mem
  rw [judge_subject said] at here
  rw [here, judge] at said
  split at said
  · cases said
  · rename_i core held
    split at said
    · cases said
    · rename_i constrained
      split at said
      · cases said
      · rename_i e weakest
        split at said
        · rename_i above
          rw [weakestGround, held, Option.bind_some] at weakest
          obtain ⟨ground, mem, found⟩ := List.mem_filterMap.mp (List.min?_mem weakest)
          obtain ⟨u, present, same⟩ := Option.map_eq_some_iff.mp found
          have le := within core held (by simpa using constrained) ground
            ((BTreeSet.mem_toList _ _).mp mem) u present
          rw [← same] at above
          exact absurd above (not_lt.mpr le)
        · cases said

end Epistemics

namespace Overlay
section
variable [Unicode] [Blake3]

omit [Unicode] [Blake3] in
/-- What attaching leaves a unit with is a core the base or the batch has. -/
theorem attach_core {base : Store} {P : Uid → UnitCore → Prop}
    (held : ∀ u h, base.units.get u = some h → P u h.core) (as : List Attestation)
    {w : Attaching} (start : ∀ u h, w.units.get u = some h → P u h.core) :
    ∀ u h, (as.foldl (attach base) w).units.get u = some h → P u h.core := by
  induction as generalizing w with
  | nil => exact start
  | cons a as ih =>
    apply ih
    intro u h found
    rw [attach] at found
    have inserted {core : UnitCore} (known : P a.uid core) {set : BTreeSet Attestation}
        (found : (w.units.insert a.uid ⟨core, set⟩).get u = some h) : P u h.core := by
      rw [BTreeMap.get_insert] at found
      split at found
      · rename_i here
        cases found
        rw [here]
        exact known
      · exact start u h found
    split at found
    · rename_i v here
      exact inserted (start a.uid v here) found
    · split at found
      · rename_i b here
        exact inserted (held a.uid b here) found
      · split at found
        · exact start u h found
        · exact start u h found

/-- A unit an overlay answers with is the base's or one of the batch. -/
theorem new_core {base : Store} {batch : List Record} {u : Uid} {core : UnitCore}
    (held : (new base batch).read.coreAt u = some core) :
    base.read.coreAt u = some core ∨ (.unit core ∈ batch ∧ canonicalUid core = u) := by
  let P (u : Uid) (core : UnitCore) : Prop :=
    base.read.coreAt u = some core ∨ (.unit core ∈ batch ∧ canonicalUid core = u)
  let fresh := batch.filter fun r => !base.recordHashes.contains (Store.recordHash r)
  have old : ∀ u h, base.units.get u = some h → P u h.core := fun u h found => by
    left
    rw [StoreRead.coreAt, show base.read.units.get u = some h from found]
    rfl
  have start : ∀ u h, (merged base (Store.fromRecords fresh)).1.get u = some h → P u h.core := by
    intro u h found
    rw [merged_get] at found
    obtain ⟨v, own, rfl⟩ := Option.map_eq_some_iff.mp found
    rw [mergeOne]
    dsimp only
    split
    · rename_i b here
      exact old u b here
    · right
      have core : (Store.fromRecords fresh).read.coreAt u = some v.core := by
        rw [StoreRead.coreAt, show (Store.fromRecords fresh).read.units.get u = some v from own]
        rfl
      obtain ⟨mem, named⟩ := Store.held_recorded (Store.from_records_sound fresh) u v.core core
      rw [Compact.from_records_records] at mem
      exact ⟨(List.mem_filter.mp ((Store.split_fresh_sublist _ _).subset mem)).1, named⟩
  have all : ∀ u h, (new base batch).units.get u = some h → P u h.core :=
    attach_core old _ start
  obtain ⟨h, found, rfl⟩ := Option.map_eq_some_iff.mp held
  rw [read_get] at found
  rcases Option.or_eq_some_iff.mp found with found | ⟨-, found⟩
  · exact all u h found
  · exact old u h found

end
end Overlay
end Smysl
