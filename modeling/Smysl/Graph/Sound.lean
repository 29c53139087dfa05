import Smysl.Graph.Store

/-!
What a store holds is what its records say: the units and the relations are the
first ones recorded under their keys, whichever operations led to the store.
Attaching attestations changes neither.
-/
namespace Smysl
open ByteString

/-- A relation without what was attached to it. -/
def Relation.bare (r : Relation) : Relation := { r with attestations := ∅ }

@[simp] theorem Relation.bare_attest (r : Relation) (as : List Attestation) :
    (r.attest as).bare = r.bare := rfl

/-- The layer without its relations. -/
def Interpretive.edgeless (i : Interpretive) : Interpretive := { i with relations := ∅ }

namespace Store

/-- Two stores that differ in attestations at most. -/
structure Alike (s t : Store) : Prop where
  records : t.records = s.records
  cores : ∀ uid, (t.units.get uid).map HeldUnit.core = (s.units.get uid).map HeldUnit.core
  edges : ∀ key, (t.interp.relations.get key).map Relation.bare =
    (s.interp.relations.get key).map Relation.bare
  rest : t.interp.edgeless = s.interp.edgeless
  hashes : t.recordHashes = s.recordHashes

namespace Alike

theorem refl (s : Store) : Alike s s := ⟨rfl, fun _ => rfl, fun _ => rfl, rfl, rfl⟩

theorem trans {s t u : Store} (first : Alike s t) (next : Alike t u) : Alike s u where
  records := next.records.trans first.records
  cores uid := (next.cores uid).trans (first.cores uid)
  edges key := (next.edges key).trans (first.edges key)
  rest := next.rest.trans first.rest
  hashes := next.hashes.trans first.hashes

theorem rids {s t : Store} (alike : Alike s t) : t.interp.rids = s.interp.rids :=
  show t.interp.edgeless.rids = s.interp.edgeless.rids by rw [alike.rest]

theorem foldl {α : Type} {step : Store → α → Store} (each : ∀ s a, Alike s (step s a))
    (as : List α) (s : Store) : Alike s (as.foldl step s) := by
  induction as generalizing s with
  | nil => exact refl s
  | cons a as ih => exact (each s a).trans (ih (step s a))

end Alike

theorem attach_alike {s t : Store} {a : Attestation} (attached : s.attach a = some t) :
    Alike s t := by
  rw [attach] at attached
  split at attached
  · rename_i u held
    cases attached
    refine ⟨rfl, fun uid => ?_, fun _ => rfl, rfl, rfl⟩
    rw [BTreeMap.get_insert]
    split
    · rename_i same
      rw [same, held]
      rfl
    · rfl
  · split at attached
    · split at attached
      · rename_i rel held
        cases attached
        refine ⟨rfl, fun _ => rfl, fun key => ?_, rfl, rfl⟩
        dsimp only
        rw [BTreeMap.get_insert]
        split
        · rename_i same
          rw [same, held]
          rfl
        · rfl
      · cases attached
    · cases attached

theorem attach_or_wait_alike (s : Store) (a : Attestation) : Alike s (s.attachOrWait a) := by
  rw [attachOrWait]
  split
  · rename_i attached
    exact attach_alike attached
  · exact ⟨rfl, fun _ => rfl, fun _ => rfl, rfl, rfl⟩

theorem rebuild_alike (s : Store) : Alike s s.rebuildAdjacency :=
  (show Alike s { s with pendingAttestations := [] } from
    ⟨rfl, fun _ => rfl, fun _ => rfl, rfl, rfl⟩).trans
    (Alike.foldl attach_or_wait_alike _ _)

theorem union_edge_attestations_alike (s : Store) (repeated : List Record) :
    Alike s (s.unionEdgeAttestations repeated) := by
  refine Alike.foldl (fun s r => ?_) repeated s
  split
  · refine ⟨rfl, fun _ => rfl, fun key => ?_, rfl, rfl⟩
    dsimp only
    rw [BTreeMap.get_modify]
    split
    · cases s.interp.relations.get key <;> rfl
    · rfl
  · exact Alike.refl s

section
variable [Unicode] [Blake3]

/-- The core first recorded under a uid. -/
def firstUnit (uid : Uid) (records : List Record) : Option UnitCore :=
  records.findSome? fun r =>
    match r with
    | .unit core => if canonicalUid core = uid then some core else none
    | _ => none

/-- The relation first recorded under a key. -/
def firstRelation (key : RelKey) (records : List Record) : Option Relation :=
  records.findSome? fun r =>
    match r with
    | .relation rel => if relKey rel = key then some rel else none
    | _ => none

theorem first_unit_append (uid : Uid) (rs ts : List Record) :
    firstUnit uid (rs ++ ts) = (firstUnit uid rs).or (firstUnit uid ts) :=
  List.findSome?_append

omit [Unicode] [Blake3] in
theorem first_relation_append (key : RelKey) (rs ts : List Record) :
    firstRelation key (rs ++ ts) = (firstRelation key rs).or (firstRelation key ts) :=
  List.findSome?_append

/-- A core is held first exactly when a unit of its uid is recorded. -/
theorem first_unit_some {uid : Uid} {records : List Record} {core : UnitCore}
    (first : firstUnit uid records = some core) :
    canonicalUid core = uid ∧ .unit core ∈ records := by
  obtain ⟨r, mem, here⟩ := List.exists_of_findSome?_eq_some first
  split at here
  · split at here
    · rename_i named
      cases here
      exact ⟨named, mem⟩
    · cases here
  · cases here

theorem first_unit_of_mem {records : List Record} {core : UnitCore}
    (mem : .unit core ∈ records) : (firstUnit (canonicalUid core) records).isSome = true := by
  rw [firstUnit, List.findSome?_isSome_iff]
  exact ⟨_, mem, by simp⟩

omit [Unicode] [Blake3] in
theorem first_relation_some {key : RelKey} {records : List Record} {rel : Relation}
    (first : firstRelation key records = some rel) : relKey rel = key ∧ .relation rel ∈ records := by
  obtain ⟨r, mem, here⟩ := List.exists_of_findSome?_eq_some first
  split at here
  · split at here
    · rename_i named
      cases here
      exact ⟨named, mem⟩
    · cases here
  · cases here

omit [Unicode] [Blake3] in
theorem first_relation_of_mem {records : List Record} {rel : Relation}
    (mem : .relation rel ∈ records) : (firstRelation (relKey rel) records).isSome = true := by
  rw [firstRelation, List.findSome?_isSome_iff]
  exact ⟨_, mem, by simp⟩

theorem absorb_record_records (s : Store) (r : Record) : (s.absorbRecord r).records = s.records := by
  cases r with
  | attestation a => exact (attach_or_wait_alike s a).records
  | _ => rfl

theorem absorb_record_cores (s : Store) (r : Record) (uid : Uid) :
    ((s.absorbRecord r).units.get uid).map HeldUnit.core =
      ((s.units.get uid).map HeldUnit.core).or (firstUnit uid [r]) := by
  have other : ∀ t : Store, Alike s t → firstUnit uid [r] = none →
      (t.units.get uid).map HeldUnit.core =
        ((s.units.get uid).map HeldUnit.core).or (firstUnit uid [r]) := by
    intro t alike none
    rw [none, Option.or_none, alike.cores]
  cases r with
  | unit core =>
    have first : firstUnit uid [.unit core] = if canonicalUid core = uid then some core else none := by
      by_cases named : canonicalUid core = uid <;> simp [firstUnit, named]
    rw [first]
    dsimp only [absorbRecord]
    rw [BTreeMap.get_orInsert]
    by_cases named : canonicalUid core = uid
    · subst named
      cases s.units.get (canonicalUid core) <;> simp
    · rw [if_neg (Ne.symm named), if_neg named, Option.or_none]
  | attestation a => exact other _ (attach_or_wait_alike s a) rfl
  | _ => simp [absorbRecord, firstUnit]

theorem absorb_record_edges (s : Store) (r : Record) (key : RelKey) :
    ((s.absorbRecord r).interp.relations.get key).map Relation.bare =
      ((s.interp.relations.get key).map Relation.bare).or
        ((firstRelation key [r]).map Relation.bare) := by
  cases r with
  | relation rel =>
    have first : firstRelation key [.relation rel] =
        if relKey rel = key then some rel else none := by
      by_cases named : relKey rel = key <;> simp [firstRelation, named]
    rw [first]
    dsimp only [absorbRecord, Interpretive.absorbHot]
    rw [BTreeMap.get_alter]
    by_cases named : relKey rel = key
    · subst named
      cases s.interp.relations.get (relKey rel) <;> simp
    · rw [if_neg (Ne.symm named), if_neg named, Option.map_none, Option.or_none]
  | attestation a =>
    have alike := attach_or_wait_alike s a
    dsimp only [absorbRecord]
    rw [alike.edges]
    simp [firstRelation]
  | thread t =>
    dsimp only [absorbRecord, Interpretive.absorbHot]
    split <;> simp [firstRelation]
  | contention c =>
    dsimp only [absorbRecord, Interpretive.absorbHot]
    split <;> simp [firstRelation]
  | _ => simp [absorbRecord, Interpretive.absorbHot, firstRelation]

theorem fold_records (rs : List Record) (s : Store) :
    (rs.foldl absorbRecord s).records = s.records := by
  induction rs generalizing s with
  | nil => rfl
  | cons r rs ih => rw [List.foldl_cons, ih, absorb_record_records]

theorem fold_hashes (rs : List Record) (s : Store) :
    (rs.foldl absorbRecord s).recordHashes = s.recordHashes := by
  induction rs generalizing s with
  | nil => rfl
  | cons r rs ih =>
    rw [List.foldl_cons, ih]
    cases r with
    | attestation a => exact (attach_or_wait_alike s a).hashes
    | _ => rfl

theorem fold_cores (rs : List Record) (s : Store) (uid : Uid) :
    ((rs.foldl absorbRecord s).units.get uid).map HeldUnit.core =
      ((s.units.get uid).map HeldUnit.core).or (firstUnit uid rs) := by
  induction rs generalizing s with
  | nil => simp [firstUnit]
  | cons r rs ih =>
    rw [List.foldl_cons, ih, absorb_record_cores, Option.or_assoc, ← first_unit_append]
    rfl

theorem fold_edges (rs : List Record) (s : Store) (key : RelKey) :
    ((rs.foldl absorbRecord s).interp.relations.get key).map Relation.bare =
      ((s.interp.relations.get key).map Relation.bare).or
        ((firstRelation key rs).map Relation.bare) := by
  induction rs generalizing s with
  | nil => simp [firstRelation]
  | cons r rs ih =>
    have both := first_relation_append key [r] rs
    rw [List.singleton_append] at both
    rw [List.foldl_cons, ih, absorb_record_edges, both, Option.or_assoc]
    cases firstRelation key [r] <;> simp

/-- The units and relations a store holds are the first ones its records name. -/
structure Sound (s : Store) : Prop where
  cores : ∀ uid, (s.units.get uid).map HeldUnit.core = firstUnit uid s.records
  edges : ∀ key, (s.interp.relations.get key).map Relation.bare =
    (firstRelation key s.records).map Relation.bare

theorem Sound.alike {s t : Store} (sound : Sound s) (alike : Alike s t) : Sound t where
  cores uid := by rw [alike.cores, sound.cores, alike.records]
  edges key := by rw [alike.edges, sound.edges, alike.records]

theorem absorb_hashed_alike (s : Store) (records : List Record) (hashes : List Bytes32) :
    let folded := records.foldl absorbRecord { s with recordHashes := s.recordHashes.extend hashes }
    Alike { folded with records := folded.records ++ records } (s.absorbHashed records hashes) := by
  rw [absorbHashed]
  dsimp only
  split
  · exact rebuild_alike _
  · exact Alike.refl _

theorem absorb_hashed_records (s : Store) (records : List Record) (hashes : List Bytes32) :
    (s.absorbHashed records hashes).records = s.records ++ records := by
  rw [(absorb_hashed_alike s records hashes).records, fold_records]

theorem absorb_hashed_sound {s : Store} (sound : Sound s) (records : List Record)
    (hashes : List Bytes32) : Sound (s.absorbHashed records hashes) := by
  have alike := absorb_hashed_alike s records hashes
  refine Sound.alike ⟨fun uid => ?_, fun key => ?_⟩ alike
  · dsimp only
    rw [fold_cores, fold_records, first_unit_append]
    exact congrArg (fun o => o.or (firstUnit uid records)) (sound.cores uid)
  · dsimp only
    rw [fold_edges, fold_records, first_relation_append]
    have before := congrArg (fun o => o.or ((firstRelation key records).map Relation.bare))
      (sound.edges key)
    refine before.trans ?_
    cases firstRelation key s.records <;> simp

theorem new_sound : Sound new := ⟨fun _ => rfl, fun _ => rfl⟩

/-- The log's length and hash say nothing of what is held. -/
theorem relog_sound {s : Store} (sound : Sound s) (len : Nat) (hash : Bytes32) (fed : Bytes) :
    Sound { s with logLen := len, logHash := hash, logHasher := fed } :=
  ⟨sound.cores, sound.edges⟩

theorem from_records_sound (records : List Record) : Sound (fromRecords records) := by
  rw [fromRecords]
  exact relog_sound ((absorb_hashed_sound new_sound _ _).alike
    (union_edge_attestations_alike _ _)) _ _ _

theorem append_sound {s s' : Store} {records : List Record} {report : AppendReport} {bytes : Bytes}
    (sound : Sound s) (run : s.append records = .ok (s', report, bytes)) : Sound s' := by
  rw [append] at run
  split at run
  · cases run
  · dsimp only at run
    split at run
    · cases run
      exact sound.alike (union_edge_attestations_alike _ _)
    · cases run
      exact relog_sound ((absorb_hashed_sound sound _ _).alike
        (union_edge_attestations_alike _ _)) _ _ _

theorem Reachable.sound {s : Store} (reachable : Reachable s) : Sound s := by
  induction reachable with
  | fromRecords records => exact from_records_sound records
  | ofLog records log => exact relog_sound (absorb_hashed_sound new_sound _ _) _ _ _
  | append _ run sound => exact append_sound sound run
  | rebuilt _ _ => exact relog_sound (absorb_hashed_sound new_sound _ _) _ _ _

end
end Store
end Smysl
