import Smysl.Graph.EffectiveStatus
import Smysl.Graph.Overlay
import Smysl.Lib.OrdMapRel

/-!
A plan of a retraction is what the retraction does: the plan looks at the store with
the retraction beside it, and what effective status reads there is what it reads of
the store the retraction has been appended to.
-/
namespace Smysl

/-- Who may retract a unit. -/
inductive RetractionAuthority
  | origin
  | any
  | quorum (n : UInt32)
  deriving DecidableEq, Repr

namespace RetractionAuthority

def asString : RetractionAuthority → String
  | origin => "origin"
  | any => "any"
  | quorum n => "quorum:" ++ toString n.toNat

/-- How many distinct retracting agents are needed. -/
def requiredAgents : RetractionAuthority → Nat
  | origin => 1
  | any => 1
  | quorum n => n.toNat

/-- Whether a retracting agent must have attested the unit. -/
def requiresOrigin : RetractionAuthority → Bool
  | origin => true
  | _ => false

end RetractionAuthority

structure RetractionPlan where
  target : Uid
  blastRadius : List Uid
  orphaned : List Uid
  authorised : Bool
  refusal : Option String
  deriving DecidableEq

def Relation.new (kind : RelKind) (src dst : Uid) : Relation where
  kind := kind
  src := src
  dst := dst
  weight := none
  note := none
  attestations := ∅
  extra := ∅

/-- Why the agents may not retract the unit, when they may not. -/
def retractionRefusal (s : StoreRead) (target : Uid) (agents : List AgentId)
    (authority : RetractionAuthority) : Option String :=
  let distinct := BTreeSet.ofList agents
  let count := distinct.toList.length
  if count % 2 ^ 32 < authority.requiredAgents then
    some (authority.asString ++ " requires " ++ toString authority.requiredAgents ++
      " distinct agents, got " ++ toString count)
  else if authority.requiresOrigin then
    let attestors : BTreeSet AgentId :=
      match s.units.get target with
      | some u => BTreeSet.ofList (u.attestations.toList.map (fun a => a.agent))
      | none => ∅
    if !distinct.toList.any attestors.contains then
      some ("origin authority: none of the " ++ toString count ++
        " requesting agent(s) attested this unit")
    else none
  else none

section
variable [Unicode] [Blake3]

/-- `plan_retraction`. -/
def planRetraction (s : Store) (target : Uid) (agents : List AgentId) (policy : RetractionPolicy)
    (authority : RetractionAuthority) : RetractionPlan :=
  let refusal := retractionRefusal s.read target agents authority
  let simulated := Overlay.new s [.relation (Relation.new .retracts target target)]
  let eff := effectiveStatus simulated.read policy
  { target := target
    blastRadius := eff.blastRadius.toList.mergeSort (fun a b => decide (a ≤ b))
    orphaned := eff.orphaned.toList
    authorised := refusal.isNone
    refusal := refusal }

end

/-! What effective status depends on. -/

namespace EffectiveStatus

/-- Two stores whose units have the same cores. -/
def SameCores (s t : StoreRead) : Prop :=
  ∀ uid, (t.units.get uid).map HeldUnit.core = (s.units.get uid).map HeldUnit.core

variable {s t : StoreRead}

theorem same_contains (same : SameCores s t) : t.containsUid = s.containsUid := by
  funext uid
  rw [StoreRead.containsUid, StoreRead.containsUid, BTreeMap.contains, BTreeMap.contains,
    ← Option.isSome_map, same, Option.isSome_map]

theorem same_entries (same : SameCores s t) :
    List.Forall₂ (fun a b => a.1 = b.1 ∧ a.2.core = b.2.core) t.units.entries s.units.entries := by
  apply @BTreeMap.entries_related Uid HeldUnit HeldUnit _ (fun v w => v.core = w.core)
  · intro uid
    rw [← Option.isSome_map, same, Option.isSome_map]
  · intro uid v w left right
    have here := same uid
    rw [left, right] at here
    exact Option.some.inj here

theorem declared_congr (same : SameCores s t) : declared t = declared s := by
  have entries := @BTreeMap.entries_map_eq Uid HeldUnit HeldUnit _ Status
    (fun u => u.core.status) (fun u => u.core.status) t.units s.units (by
      intro uid
      have here := congrArg (Option.map UnitCore.status) (same uid)
      rw [Option.map_map, Option.map_map] at here
      exact here)
  rw [declared, declared, entries]

theorem retract_congr (same : SameCores s t) {rels rels' : List Relation}
    (targets : rels'.map Relation.dst = rels.map Relation.dst) (out : EffectiveStatus) :
    rels'.foldl (retract t) out = rels.foldl (retract s) out := by
  have folded : ∀ (u : StoreRead) (rs : List Relation), rs.foldl (retract u) out =
      (rs.map Relation.dst).foldl (fun out uid =>
        if u.containsUid uid then
          { out with
            retracted := out.retracted.insert uid
            map := out.map.insert uid .unfounded }
        else out) out := by
    intro u rs
    rw [List.foldl_map]
    rfl
  rw [folded, folded, targets, same_contains same]

theorem visit_congr (same : SameCores s t) (state : EffectiveStatus × Bool) {e f : Uid × HeldUnit}
    (uid : e.1 = f.1) (core : e.2.core = f.2.core) : visit t state e = visit s state f := by
  rw [visit, visit, same_contains same, uid, core]

theorem pass_congr (same : SameCores s t) (out : EffectiveStatus) : pass t out = pass s out := by
  rw [pass, pass]
  have related := same_entries same
  generalize (out, false) = state
  generalize t.units.entries = es at related ⊢
  generalize s.units.entries = fs at related ⊢
  induction related generalizing state with
  | nil => rfl
  | cons pair _ ih =>
    rw [List.foldl_cons, List.foldl_cons, visit_congr same state pair.1 pair.2]
    exact ih _

theorem settle_congr (same : SameCores s t) (rounds : Nat) (out : EffectiveStatus) :
    settle t rounds out = settle s rounds out := by
  induction rounds generalizing out with
  | zero => rfl
  | succ rounds ih =>
    rw [settle, settle, pass_congr same]
    dsimp only
    split
    · exact ih _
    · rfl

section
variable [Blake3]

theorem effective_status_congr (same : SameCores s t)
    (targets : (t.relationsOfKind .retracts).map Relation.dst =
      (s.relationsOfKind .retracts).map Relation.dst) (policy : RetractionPolicy) :
    effectiveStatus t policy = effectiveStatus s policy := by
  rw [effectiveStatus, effectiveStatus, declared_congr same, retract_congr same targets,
    (same_entries same).length_eq]
  dsimp only
  rw [settle_congr same]

/-- What the `retracts` edges name depends on the relations but for their attestations:
no withdrawal is of such an edge. -/
theorem targets_congr (edges : ∀ key, (t.interp.relations.get key).map Relation.bare =
      (s.interp.relations.get key).map Relation.bare) :
    (t.relationsOfKind .retracts).map Relation.dst =
      (s.relationsOfKind .retracts).map Relation.dst := by
  have entries := BTreeMap.entries_map_eq edges
  have bare := congrArg (List.map Prod.snd) entries
  rw [List.map_map, List.map_map] at bare
  have shape : ∀ u : StoreRead, (u.relationsOfKind .retracts).map Relation.dst =
      ((u.interp.relations.entries.map (fun e => Relation.bare e.2)).filter
        (fun r => r.kind == .retracts)).map Relation.dst := by
    intro u
    rw [StoreRead.relationsOfKind, StoreRead.relations, BTreeMap.values, List.filter_map,
      List.filter_map, List.map_map, List.map_map]
    have keeps : u.interp.relations.entries.filter
          ((fun r => r.kind == .retracts && !u.interp.isWithdrawn r) ∘ Prod.snd) =
        u.interp.relations.entries.filter
          ((fun r => r.kind == .retracts) ∘ fun e => Relation.bare e.2) := by
      apply List.filter_congr
      intro e _
      change (e.2.kind == .retracts && !u.interp.isWithdrawn e.2) = (e.2.kind == .retracts)
      by_cases kind : e.2.kind = .retracts
      · rw [Interpretive.isWithdrawn, kind]
        rfl
      · rw [beq_eq_false_iff_ne.mpr kind]
        rfl
    rw [keeps]
    rfl
  rw [shape, shape]
  exact congrArg (fun l => (List.filter (fun r : Relation => r.kind == .retracts) l).map
    Relation.dst) bare

end
end EffectiveStatus

/-! The overlay holds what the base holds, and the batch's relations. -/

namespace Overlay

/-- What attaching leaves: units with the base's cores, and the layer's relations but for
their attestations. -/
structure Attached (base : Store) (layer : Interpretive) (w : Attaching) : Prop where
  units : ∀ uid u, w.units.get uid = some u →
    ∃ b, base.units.get uid = some b ∧ b.core = u.core
  edges : ∀ key, (w.interp.relations.get key).map Relation.bare =
    (layer.relations.get key).map Relation.bare

theorem attach_to_relation_edges {i j : Interpretive} {a : Attestation}
    (attached : i.attachToRelation a = some j) (key : RelKey) :
    (j.relations.get key).map Relation.bare = (i.relations.get key).map Relation.bare := by
  rw [Interpretive.attachToRelation] at attached
  split at attached
  · split at attached
    · rename_i rel held
      cases attached
      dsimp only
      rw [BTreeMap.get_insert]
      split
      · rename_i same
        rw [same, held]
        rfl
      · rfl
    · cases attached
  · cases attached

theorem attach_attached {base : Store} {layer : Interpretive} {w : Attaching}
    (before : Attached base layer w) (a : Attestation) : Attached base layer (attach base w a) := by
  rw [attach]
  split
  · rename_i u held
    refine ⟨fun uid v found => ?_, before.edges⟩
    dsimp only at found
    rw [BTreeMap.get_insert] at found
    split at found
    · rename_i same
      cases found
      rw [same]
      exact before.units a.uid u held
    · exact before.units uid v found
  · split
    · rename_i b held
      refine ⟨fun uid v found => ?_, before.edges⟩
      dsimp only at found
      rw [BTreeMap.get_insert] at found
      split at found
      · rename_i same
        cases found
        rw [same]
        exact ⟨b, held, rfl⟩
      · exact before.units uid v found
    · split
      · rename_i interp attached
        refine ⟨before.units, fun key => ?_⟩
        exact (attach_to_relation_edges attached key).trans (before.edges key)
      · exact ⟨before.units, before.edges⟩

theorem attach_all_attached {base : Store} {layer : Interpretive} {w : Attaching}
    (before : Attached base layer w) (waiting : List Attestation) :
    Attached base layer (waiting.foldl (attach base) w) := by
  induction waiting generalizing w with
  | nil => exact before
  | cons a waiting ih =>
    rw [List.foldl_cons]
    exact ih (attach_attached before a)

section
variable [Unicode] [Blake3]

/-- The layer with a relation folded in, unless its record is held. -/
def withRelation (s : Store) (rel : Relation) : Interpretive :=
  if s.recordHashes.contains (Store.recordHash (.relation rel)) then s.interp
  else s.interp.absorbHot (.relation rel)

theorem from_no_records_units : (Store.fromRecords []).units = ∅ := rfl

theorem from_relation (rel : Relation) :
    (Store.fromRecords [.relation rel]).units = ∅ ∧
      (Store.fromRecords [.relation rel]).records = [.relation rel] ∧
      (Store.fromRecords [.relation rel]).interp.relations.values = [rel] := by
  have fresh : Store.splitFresh ∅ [.relation rel] = ([.relation rel], []) := by
    rw [Store.splitFresh, if_neg (BTreeSet.not_mem_emptyCollection _)]
    rfl
  rw [Store.fromRecords, fresh]
  exact ⟨rfl, rfl, rfl⟩

theorem new_attached (s : Store) (rel : Relation) :
    ∃ w, Attached s (withRelation s rel) w ∧
      (new s [.relation rel]).units = w.units ∧ (new s [.relation rel]).interp = w.interp := by
  rw [new, withRelation]
  dsimp only
  by_cases held : s.recordHashes.contains (Store.recordHash (.relation rel)) = true
  · rw [List.filter_cons_of_neg (by rw [held]; simp), List.filter_nil, if_pos held]
    have start : Attached s s.interp ⟨(merged s (Store.fromRecords [])).1,
        layered s.interp (Store.fromRecords []), []⟩ :=
      ⟨fun uid u found => (nomatch found), fun key => rfl⟩
    exact ⟨_, attach_all_attached start _, rfl, rfl⟩
  · rw [List.filter_cons_of_pos (by rw [Bool.eq_false_of_not_eq_true held]; rfl), List.filter_nil,
      if_neg held]
    obtain ⟨units, records, relations⟩ := from_relation rel
    refine ⟨_, attach_all_attached ⟨fun uid u found => ?_, fun key => ?_⟩ _, rfl, rfl⟩
    · dsimp only at found
      rw [merged, units] at found
      exact nomatch found
    · dsimp only
      rw [layered, records, relations]
      rfl

theorem new_same_cores (s : Store) (rel : Relation) :
    EffectiveStatus.SameCores s.read (new s [.relation rel]).read := by
  intro uid
  obtain ⟨w, attached, units, _⟩ := new_attached s rel
  rw [read_get, units]
  change ((w.units.get uid).or (s.units.get uid)).map HeldUnit.core = _
  cases own : w.units.get uid with
  | none => rfl
  | some u =>
    obtain ⟨b, held, core⟩ := attached.units uid u own
    change some u.core = (s.units.get uid).map HeldUnit.core
    rw [held, ← core]
    rfl

theorem new_edges (s : Store) (rel : Relation) (key : RelKey) :
    ((new s [.relation rel]).read.interp.relations.get key).map Relation.bare =
      ((withRelation s rel).relations.get key).map Relation.bare := by
  obtain ⟨w, attached, _, interp⟩ := new_attached s rel
  have same : (new s [.relation rel]).read.interp = w.interp := interp
  rw [same]
  exact attached.edges key

/-- A relation is always appended: units keep their cores, and the layer is that of the
overlay. -/
theorem append_relation (s : Store) (rel : Relation) :
    ∃ s' report bytes, s.append [.relation rel] = .ok (s', report, bytes) ∧
      EffectiveStatus.SameCores s.read s'.read ∧
      ∀ key, (s'.interp.relations.get key).map Relation.bare =
        ((withRelation s rel).relations.get key).map Relation.bare := by
  have logged : refuseUnloggable [.relation rel] = .ok () := rfl
  rw [Store.append, logged, withRelation]
  dsimp only
  by_cases held : s.recordHashes.contains (Store.recordHash (.relation rel)) = true
  · have repeated : Store.splitFresh s.recordHashes [.relation rel] = ([], [.relation rel]) := by
      rw [Store.splitFresh, if_pos ((BTreeSet.mem_def _ _).mpr held)]
      rfl
    rw [repeated, if_pos held]
    have alike := Store.union_edge_attestations_alike s [.relation rel]
    exact ⟨_, _, _, rfl, alike.cores, alike.edges⟩
  · have fresh : Store.splitFresh s.recordHashes [.relation rel] = ([.relation rel], []) := by
      rw [Store.splitFresh, if_neg fun mem => held ((BTreeSet.mem_def _ _).mp mem)]
      rfl
    rw [fresh, if_neg held]
    have alike := Store.absorb_hashed_alike s [.relation rel] [Store.recordHash (.relation rel)]
    refine ⟨_, _, _, rfl, fun uid => ?_, fun key => ?_⟩
    · exact alike.cores uid
    · exact alike.edges key

end
end Overlay

section
variable [Unicode] [Blake3]

/-- Whether or not it is authorised, a plan's blast radius and orphans are those of the
store the retraction has been appended to; and the strict policy marks as unfounded
exactly the least set of units that holds the present retracted ones and every unit with
a present ground whose present grounds are all in the set. -/
theorem plan_is_what_retraction_does (s : Store) (target : Uid) (agents : List AgentId)
    (policy : RetractionPolicy) (authority : RetractionAuthority) :
    (∃ s' report bytes,
      s.append [.relation (Relation.new .retracts target target)] = .ok (s', report, bytes) ∧
      (planRetraction s target agents policy authority).blastRadius =
        (effectiveStatus s'.read policy).blastRadius.toList ∧
      (planRetraction s target agents policy authority).orphaned =
        (effectiveStatus s'.read policy).orphaned.toList) ∧
    IsLeast { gone | EffectiveStatus.Closed s.read gone }
      { uid | (effectiveStatus s.read .strict).get uid = some .unfounded } := by
  refine ⟨?_, EffectiveStatus.strict_least s.read⟩
  obtain ⟨s', report, bytes, run, cores, edges⟩ :=
    Overlay.append_relation s (Relation.new .retracts target target)
  have planned : effectiveStatus (Overlay.new s [.relation (Relation.new .retracts target target)]).read
      policy = effectiveStatus s'.read policy := by
    apply EffectiveStatus.effective_status_congr
    · intro uid
      exact (Overlay.new_same_cores s _ uid).trans (cores uid).symm
    · apply EffectiveStatus.targets_congr
      intro key
      exact (Overlay.new_edges s _ key).trans (edges key).symm
  refine ⟨s', report, bytes, run, ?_, ?_⟩
  · rw [planRetraction]
    dsimp only
    rw [planned]
    apply List.mergeSort_of_pairwise
    exact (BTreeSet.toList_pairwise _).imp fun below => decide_eq_true (le_of_lt below)
  · rw [planRetraction]
    dsimp only
    rw [planned]

end
end Smysl
