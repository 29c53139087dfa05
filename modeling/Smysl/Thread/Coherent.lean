import Smysl.Thread.Derive

/-!
What a derived thread keeps. Repair ends; each unit is there once, with whatever it rests on;
what was selected stays in its order, and what was put in comes before all that rests on it.
What was selected is ordered by role first, so it need not.
-/
namespace Smysl
open Insertion

namespace Derive
variable {store : StoreRead} {d : SchemaDef} {opts : DeriveOptions} {order : Ordering}
  {sal : Salience}

/-- Each role's units are there once and have that role. -/
def Sorted (roles : BTreeMap Uid Role) (picked : BTreeMap Role (List Uid)) : Prop :=
  ∀ role us, picked.get role = some us → us.Nodup ∧ ∀ u ∈ us, roles.get u = some role

theorem candidates_sorted (roles : BTreeMap Uid Role) (role : Role) :
    (candidates d opts sal roles role).Nodup ∧
      ∀ u ∈ candidates d opts sal roles role, roles.get u = some role := by
  have within : (candidates d opts sal roles role).Sublist
      (((roles.entries.filter (fun e => e.2 == role)).map Prod.fst).insertionSort
        (sal.ahead · ·)) := List.take_sublist _ _
  have perm := List.perm_insertionSort (sal.ahead · ·)
    ((roles.entries.filter (fun e => e.2 == role)).map Prod.fst)
  constructor
  · refine (perm.nodup_iff.mpr ?_).sublist within
    exact roles.keys_nodup.sublist (List.filter_sublist.map Prod.fst)
  · intro u mem
    obtain ⟨e, held, rfl⟩ := List.mem_map.mp (perm.mem_iff.mp (within.subset mem))
    obtain ⟨entry, same⟩ := List.mem_filter.mp held
    rw [← eq_of_beq same]
    exact (roles.mem_entries_iff e.1 e.2).mp entry

theorem select_roles_sorted (roles : BTreeMap Uid Role) (rs : List Role)
    (state : BTreeMap Role (List Uid) × List Role) (sorted : Sorted roles state.1) :
    Sorted roles (rs.foldl (fun (picked, unfilled) role =>
      let chosen := candidates d opts sal roles role
      (if chosen.isEmpty then picked else picked.insert role chosen,
        if chosen.length < (d.arityOf role).1 then unfilled ++ [role] else unfilled)) state).1 := by
  induction rs generalizing state with
  | nil => exact sorted
  | cons role rs ih =>
    refine ih _ ?_
    dsimp only
    split
    · exact sorted
    · intro other us found
      rw [BTreeMap.get_insert] at found
      split at found
      · rename_i same
        cases found
        rw [same]
        exact candidates_sorted roles role
      · exact sorted other us found

theorem select_sorted (roles : BTreeMap Uid Role) : Sorted roles (select d opts sal roles).1 :=
  select_roles_sorted roles d.roles (∅, []) fun role us found => by simp at found

theorem order_steps_units (picked : BTreeMap Role (List Uid)) :
    ((orderSteps d order sal picked).map Step.unit).Perm (picked.entries.flatMap Prod.snd) := by
  rw [orderSteps, List.map_map]
  refine ((List.perm_insertionSort _ _).map _).trans (List.Perm.of_eq ?_)
  rw [List.map_flatMap]
  refine List.flatMap_congr fun e _ => ?_
  rw [List.map_map]
  exact List.map_id _

theorem order_steps_nodup {roles : BTreeMap Uid Role} {picked : BTreeMap Role (List Uid)}
    (sorted : Sorted roles picked) : ((orderSteps d order sal picked).map Step.unit).Nodup := by
  refine (order_steps_units picked).nodup_iff.mpr (List.nodup_flatMap.mpr ⟨?_, ?_⟩)
  · intro e mem
    exact (sorted e.1 e.2 ((picked.mem_entries_iff e.1 e.2).mp mem)).1
  · have distinct : picked.entries.Pairwise (fun a b => a.1 ≠ b.1) :=
      List.pairwise_map.mp picked.keys_nodup
    refine distinct.imp_of_mem fun {a b} memA memB other => ?_
    refine List.disjoint_left.mpr fun u inA inB => other ?_
    have roleA := (sorted a.1 a.2 ((picked.mem_entries_iff a.1 a.2).mp memA)).2 u inA
    have roleB := (sorted b.1 b.2 ((picked.mem_entries_iff b.1 b.2).mp memB)).2 u inB
    exact Option.some.inj (roleA.symm.trans roleB)

theorem held_deps_known (uid : Uid) : ∀ dep ∈ heldDeps store uid, dep ∈ store.units.keys := by
  intro dep mem
  rw [heldDeps] at mem
  split at mem
  · exact (store.units.mem_keys_iff dep).mpr (List.mem_filter.mp mem).2
  · exact absurd mem List.not_mem_nil

/-- Repair ends, and leaves what was given among what it put in. -/
theorem repair_spec {steps : List Step} (acyclic : Acyclic (heldDeps store))
    (nodup : (steps.map Step.unit).Nodup) :
    Holds Step.unit (heldDeps store) steps (repair store steps) ∧
      round Step.unit (heldDeps store) (fun s dep => ⟨s.role, dep, none⟩)
        (repair store steps).1 = none := by
  have start : Holds Step.unit (heldDeps store) steps (steps, []) :=
    ⟨Repaired.start nodup, List.filter_eq_self.mpr fun _ _ => rfl⟩
  refine ⟨start.close acyclic (fun _ _ => rfl) _, close_done held_deps_known (fun _ _ => rfl) ?_⟩
  exact List.length_filter_le _ _

section
variable [Blake3] (store d opts order sal)

theorem selected_nodup : ((selected store d opts order sal).map Step.unit).Nodup :=
  order_steps_nodup (select_sorted _)

end

/-- One unit has a step before another's. -/
def Earlier (steps : List Step) (a b : Uid) : Prop := Before (steps.map Step.unit) a b

section
variable [Blake3]

/-- A derived thread over a store whose deps come back to no unit. -/
theorem derived_coherent (store : StoreRead) (schema : ThreadSchema) (opts : DeriveOptions)
    (order : Ordering) (sal : Salience) (acyclic : Acyclic (heldDeps store)) :
    let given := selected store (definition schema) opts order sal
    let derived := deriveThread store opts order sal schema
    let steps := derived.1
    let inserted := derived.2.repaired.map Prod.fst
    round Step.unit (heldDeps store) (fun s dep => ⟨s.role, dep, none⟩) steps = none ∧
      (steps.map Step.unit).Nodup ∧
      (∀ s ∈ steps, ∀ dep ∈ heldDeps store s.unit, dep ∈ steps.map Step.unit) ∧
      steps.filter (fun s => !inserted.contains s.unit) = given ∧
      (∀ dep ∈ inserted, dep ∈ steps.map Step.unit ∧
        ∀ s ∈ steps, dep ∈ heldDeps store s.unit → Earlier steps dep s.unit) ∧
      ((∀ s ∈ steps, ∀ dep ∈ heldDeps store s.unit, Earlier steps dep s.unit) ↔
        ∀ x ∈ given, ∀ y ∈ given, Leads (heldDeps store) (given.map Step.unit) x.unit y.unit →
          Earlier given y.unit x.unit) := by
  intro given
  obtain ⟨holds, ended⟩ := repair_spec acyclic
    (selected_nodup store (definition schema) opts order sal)
  obtain ⟨keys, kept⟩ := holds
  have complete := round_none ended
  have same : ∀ {steps : List Step} {P : Uid → Prop},
      (∀ u ∈ steps.map Step.unit, P u) ↔ ∀ s ∈ steps, P s.unit := List.forall_mem_map
  refine ⟨ended, keys.nodup, same.mp complete, kept, fun dep mem => ?_, ?_⟩
  · exact ⟨keys.within dep mem, same.mp (keys.ordered dep mem)⟩
  · have whole := keys.ordered_iff complete
    rw [same, same] at whole
    refine whole.trans (forall₂_congr fun x _ => ?_)
    rw [same]
    exact Iff.rfl

end

section
local instance plainThreadText : Unicode := .plain
local instance modPrimeThreadHash : Blake3 := .modPrime

def answering : UnitCore where
  schema := .kernel .finding
  gist := "the cache was cold"
  body := none
  detail := none
  deps := ∅
  grounds := ∅
  status := .speculative
  source := none
  payload := none
  lang := none
  extra := ∅
  gist_present := by decide +kernel
  body_nonempty := by decide
  detail_nonempty := by decide
  detail_has_body := by decide
  authored := by decide
  sourced := speculative_sourced
  grounded := speculative_grounded

/-- A question that cannot be read without its answer. -/
def asking : UnitCore :=
  { answering with
    schema := .kernel .question
    gist := "why was it the cache"
    deps := BTreeSet.ofList [canonicalUid answering]
    gist_present := by decide +kernel }

def asked : StoreRead := (Store.fromRecords [.unit asking, .unit answering]).read

theorem asked_acyclic : Acyclic (heldDeps asked) := by
  refine acyclic_of_rank (fun u => if u = canonicalUid asking then 1 else 0) fun a b mem => ?_
  by_cases held : a ∈ asked.units.keys
  · have each : ∀ a ∈ asked.units.keys, ∀ b ∈ heldDeps asked a,
        (if b = canonicalUid asking then 1 else 0) < if a = canonicalUid asking then 1 else 0 := by
      decide +kernel
    exact each a held b mem
  · have absent : asked.units.get a = none := by
      rw [BTreeMap.mem_keys_iff, BTreeMap.contains, Bool.not_eq_true, Option.isSome_eq_false_iff,
        Option.isNone_iff_eq_none] at held
      exact held
    rw [heldDeps, absent] at mem
    exact absurd mem List.not_mem_nil

/-- The question alone is given its answer first. -/
theorem asked_coherent :
    (deriveThread asked { scope := BTreeSet.ofList [canonicalUid asking] } {} ∅ .qa).1.map
      Step.unit = [canonicalUid answering, canonicalUid asking] ∧
    round Step.unit (heldDeps asked) (fun s dep => ⟨s.role, dep, none⟩)
      (deriveThread asked { scope := BTreeSet.ofList [canonicalUid asking] } {} ∅ .qa).1 = none :=
  have coherent := derived_coherent asked .qa { scope := BTreeSet.ofList [canonicalUid asking] } {}
    ∅ asked_acyclic
  ⟨by decide +kernel, coherent.1⟩

/-- Over the whole store the question leads, since its role does. -/
theorem question_before_its_answer :
    Acyclic (heldDeps asked) ∧
    canonicalUid answering ∈ heldDeps asked (canonicalUid asking) ∧
    (deriveThread asked {} {} ∅ .qa).1.map Step.unit =
      [canonicalUid asking, canonicalUid answering] ∧
    ¬ Earlier (deriveThread asked {} {} ∅ .qa).1 (canonicalUid answering)
      (canonicalUid asking) := by
  have units : (deriveThread asked {} {} ∅ .qa).1.map Step.unit =
      [canonicalUid asking, canonicalUid answering] := by decide +kernel
  refine ⟨asked_acyclic, by decide +kernel, units, ?_⟩
  rw [Earlier, Before, units]
  decide +kernel

end
end Derive
end Smysl
