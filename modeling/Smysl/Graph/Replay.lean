import Smysl.Graph.Attested
import Smysl.Graph.Digest
import Smysl.Graph.Identity

/-!
Rebuilding a store from its records. The units, the edges and the layer come
back as they were; of the attestations on an edge, those come back that a
record brings.
-/
namespace Smysl
open ByteString

section
variable [Unicode] [Blake3]

/-- The strings hashed to name the units and the edges of these records. -/
def subjectStrings (records : List Record) : List Bytes :=
  records.filterMap fun r =>
    match r with
    | .unit core => some (unitCoreBytes core)
    | .relation rel => some rel.identity
    | _ => none

/-- The hash tells these strings apart. -/
def HashApart (strings : List Bytes) : Prop :=
  ∀ x ∈ strings, ∀ y ∈ strings, hashBytes x = hashBytes y → x = y

instance (strings : List Bytes) : Decidable (HashApart strings) :=
  inferInstanceAs (Decidable (∀ x ∈ strings, ∀ y ∈ strings, hashBytes x = hashBytes y → x = y))

omit [Unicode] [Blake3] in
theorem Enc.head_start (major arg : Nat) :
    ∃ low rest, low < 28 ∧ Enc.head major arg = UInt8.ofNat (major * 32 + low) :: rest := by
  unfold Enc.head
  split_ifs with short
  · exact ⟨arg, _, by omega, rfl⟩
  · exact ⟨24, _, by omega, rfl⟩
  · exact ⟨25, _, by omega, rfl⟩
  · exact ⟨26, _, by omega, rfl⟩
  · exact ⟨27, _, by omega, rfl⟩

omit [Blake3] in
/-- A unit is hashed as a map and an edge is not. -/
theorem unit_bytes_ne_identity (core : UnitCore) (rel : Relation) :
    unitCoreBytes core ≠ rel.identity := by
  intro same
  rw [unitCoreBytes, Enc.map, Enc.mapOf, Relation.identity] at same
  obtain ⟨low, rest, small, head⟩ := Enc.head_start 5 (List.insertionSort
    (fun a b : Nat × Bytes => a.1 ≤ b.1) _).length
  rw [head, List.cons_append] at same
  have first := congrArg UInt8.toNat (List.cons.inj same).1
  simp at first
  omega

omit [Unicode] [Blake3] in
/-- What an edge is hashed as determines its key. -/
theorem key_of_identity {r r' : Relation} (same : r.identity = r'.identity) :
    relKey r = relKey r' := by
  have width : ∀ u : Uid, u.asBytes.length = 32 := fun u => u.raw.width
  obtain ⟨kind, ends⟩ := List.append_inj' (List.cons.inj same).2 (by simp [width])
  obtain ⟨src, dst⟩ := List.append_inj (List.cons.inj ends).2 (by rw [width, width])
  rw [relKey, relKey, utf8_injective kind, Digest.as_bytes_injective src,
    Digest.as_bytes_injective dst]

omit [Unicode] [Blake3] in
theorem mem_subject_strings [Unicode] {records : List Record} {x : Bytes} :
    x ∈ subjectStrings records ↔ (∃ core, .unit core ∈ records ∧ unitCoreBytes core = x) ∨
      ∃ rel, .relation rel ∈ records ∧ rel.identity = x := by
  rw [subjectStrings, List.mem_filterMap]
  constructor
  · rintro ⟨r, mem, here⟩
    cases r <;> cases here
    · exact Or.inl ⟨_, mem, rfl⟩
    · exact Or.inr ⟨_, mem, rfl⟩
  · rintro (⟨core, mem, rfl⟩ | ⟨rel, mem, rfl⟩)
    · exact ⟨_, mem, rfl⟩
    · exact ⟨_, mem, rfl⟩

/-- Where the hash tells the subjects' strings apart, each uid names one subject. -/
theorem subjects_apart {records : List Record} (apart : HashApart (subjectStrings records)) :
    SubjectsApart records where
  units core rel unit edge same := by
    have bytes := apart _ (mem_subject_strings.mpr (Or.inl ⟨core, unit, rfl⟩)) _
      (mem_subject_strings.mpr (Or.inr ⟨rel, edge, rfl⟩)) (congrArg Digest.raw same)
    exact unit_bytes_ne_identity core rel bytes
  edges rel rel' left right same := by
    have bytes := apart _ (mem_subject_strings.mpr (Or.inr ⟨rel, left, rfl⟩)) _
      (mem_subject_strings.mpr (Or.inr ⟨rel', right, rfl⟩)) (congrArg Digest.raw same)
    exact key_of_identity bytes

namespace Interpretive

omit [Blake3] in
/-- What a record does to the rest of the layer does not depend on the edges. -/
theorem absorb_hot_edgeless [Blake3] {i j : Interpretive} (same : i.edgeless = j.edgeless)
    (r : Record) : (i.absorbHot r).edgeless = (j.absorbHot r).edgeless := by
  have here : ∀ i : Interpretive, (i.absorbHot r).edgeless = (i.edgeless.absorbHot r).edgeless := by
    intro i
    cases r with
    | thread t =>
      dsimp only [absorbHot, edgeless]
      split <;> rfl
    | contention c =>
      dsimp only [absorbHot, edgeless]
      split <;> rfl
    | _ => rfl
  rw [here, same, ← here]

end Interpretive

namespace Store

theorem absorb_record_edgeless (s : Store) (r : Record) :
    (s.absorbRecord r).interp.edgeless = (s.interp.absorbHot r).edgeless := by
  cases r with
  | attestation a => exact (attach_or_wait_alike s a).rest
  | _ => rfl

theorem fold_edgeless (rs : List Record) {s : Store} {i : Interpretive}
    (same : s.interp.edgeless = i.edgeless) :
    (rs.foldl absorbRecord s).interp.edgeless = (rs.foldl Interpretive.absorbHot i).edgeless := by
  induction rs generalizing s i with
  | nil => exact same
  | cons r rs ih =>
    refine ih ?_
    rw [absorb_record_edgeless]
    exact Interpretive.absorb_hot_edgeless same r

/-- The layer without its edges is the fold of the records. -/
def Folded (s : Store) : Prop :=
  s.interp.edgeless = (s.records.foldl Interpretive.absorbHot {}).edgeless

theorem Folded.alike {s t : Store} (folded : Folded s) (alike : Alike s t) : Folded t := by
  rw [Folded, alike.rest, alike.records]
  exact folded

theorem absorb_hashed_folded {s : Store} (folded : Folded s) (records : List Record)
    (hashes : List Bytes32) : Folded (s.absorbHashed records hashes) := by
  refine Folded.alike ?_ (absorb_hashed_alike s records hashes)
  rw [Folded]
  dsimp only
  rw [fold_records, List.foldl_append]
  exact fold_edgeless records folded

/-- A run of the operations that leaves a store, with the relations whose edge
was held when they were given again. -/
inductive Run : Set Relation → Store → Prop
  | fromRecords (records : List Record) :
    Run ((fromRecords records).joining (splitFresh ∅ records).2) (fromRecords records)
  | ofLog (records : List Record) (log : Bytes) : Run ∅ (ofLog records log)
  | append {again : Set Relation} {s s' : Store} {records : List Record} {report : AppendReport}
    {bytes : Bytes} (before : Run again s) (run : s.append records = .ok (s', report, bytes)) :
    Run (s'.joining (splitFresh s.recordHashes records).2 ∪ again) s'
  | rebuilt {again : Set Relation} {s : Store} (before : Run again s) : Run ∅ s.rebuilt

/-- What holds of a store at every point of a run: what it holds is what its
records say, and what the relations given again carried. -/
structure Kept (again : Set Relation) (s : Store) : Prop where
  sound : Sound s
  folded : Folded s
  settled : Settled s
  told : SubjectsApart s.records → Told (again ∪ {rel | .relation rel ∈ s.records}) s.records [] s

namespace Kept

theorem new : Kept ∅ new where
  sound := new_sound
  folded := rfl
  settled a mem := nomatch mem
  told _ := by
    refine ⟨fun uid u held => ?_, fun key rel held => ?_, fun key rel held => ?_, fun rel mem => ?_,
      fun rel mem => ?_, fun uid key held => ?_, fun a mem => ?_, fun a mem => ?_⟩
    · cases held
    · cases held
    · cases held
    · simp [Store.new] at mem
    · cases mem
    · cases held
    · cases mem
    · rcases mem with mem | mem <;> cases mem

theorem relog {again : Set Relation} {s : Store} (kept : Kept again s) (len : Nat) (hash : Bytes32)
    (fed : Bytes) : Kept again { s with logLen := len, logHash := hash, logHasher := fed } where
  sound := relog_sound kept.sound len hash fed
  folded := kept.folded
  settled := kept.settled
  told apart := by
    have told := kept.told apart
    exact ⟨told.units, told.edges, told.carried, told.covered, told.rids, told.named, told.placed,
      told.waiting⟩

theorem absorb_hashed {again : Set Relation} {s : Store} (kept : Kept again s)
    (records : List Record) (hashes : List Bytes32) : Kept again (s.absorbHashed records hashes) where
  sound := absorb_hashed_sound kept.sound records hashes
  folded := absorb_hashed_folded kept.folded records hashes
  settled := absorb_hashed_settled kept.settled records hashes
  told apart := by
    rw [absorb_hashed_records] at apart
    have told := absorb_hashed_told
      (kept.told (apart.mono fun r mem => List.mem_append_left _ mem)) apart hashes
    have same : again ∪ {rel | .relation rel ∈ (s.absorbHashed records hashes).records} =
        {rel | .relation rel ∈ records} ∪ (again ∪ {rel | .relation rel ∈ s.records}) := by
      ext rel
      simp only [absorb_hashed_records, List.mem_append, Set.mem_union, Set.mem_ofPred_eq]
      tauto
    rw [same]
    exact told

theorem union {again : Set Relation} {s : Store} (kept : Kept again s) (repeated : List Record) :
    Kept ((s.unionEdgeAttestations repeated).joining repeated ∪ again)
      (s.unionEdgeAttestations repeated) := by
  have alike := union_edge_attestations_alike s repeated
  have keys : ∀ key, (s.unionEdgeAttestations repeated).interp.relations.contains key =
      s.interp.relations.contains key := by
    intro key
    rw [BTreeMap.contains, BTreeMap.contains, ← Option.isSome_map, alike.edges, Option.isSome_map]
  refine ⟨kept.sound.alike alike, kept.folded.alike alike, fun a mem => ?_, fun apart => ?_⟩
  · rw [union_pending] at mem
    rw [alike.subject]
    exact kept.settled a mem
  · rw [alike.records] at apart ⊢
    have told := (kept.told apart).union repeated
    rw [← Set.union_assoc] at told
    have same : (s.unionEdgeAttestations repeated).joining repeated = s.joining repeated := by
      simp only [joining, keys]
    rw [same]
    exact told

end Kept

theorem Run.kept {again : Set Relation} {s : Store} (run : Run again s) : Kept again s := by
  induction run with
  | fromRecords records =>
    have kept := (Kept.new.absorb_hashed (splitFresh ∅ records).1
      ((splitFresh ∅ records).1.map recordHash)).union (splitFresh ∅ records).2
    rw [Set.union_empty] at kept
    exact kept.relog _ _ _
  | ofLog records log => exact (Kept.new.absorb_hashed records _).relog _ _ _
  | append before run kept =>
    rename_i again s s' records report bytes
    rw [Store.append] at run
    split at run
    · cases run
    · dsimp only at run
      split at run
      · cases run
        exact kept.union _
      · cases run
        exact ((kept.absorb_hashed _ _).union _).relog _ _ _
  | rebuilt before kept => exact (Kept.new.absorb_hashed _ _).relog _ _ _

/-- A record brings the attestation to the edge: a relation that carries it, or
the attestation itself. -/
def Brought (records : List Record) (rel : Relation) (a : Attestation) : Prop :=
  Carried {r | .relation r ∈ records} (relKey rel) a ∨ (.attestation a ∈ records ∧ a.uid = rel.uid)

section
variable {again : Set Relation} {s : Store}

theorem rebuilt_records (s : Store) : s.rebuilt.records = s.records := by
  rw [rebuilt, absorb]
  dsimp only
  rw [absorb_hashed_records]
  rfl

/-- An edge that is held is entered under its rid. -/
theorem held_rid {given : Set Relation} (told : Told given s.records [] s) (sound : Sound s)
    {key : RelKey} {rel : Relation} (held : s.interp.relations.get key = some rel) :
    relKey rel = key ∧ s.interp.rids.get rel.uid = some key := by
  have edge := sound.edges key
  rw [held] at edge
  obtain ⟨first, found, same⟩ := Option.map_eq_some_iff.mp edge.symm
  obtain ⟨named, recorded⟩ := first_relation_some found
  have keys : relKey rel = relKey first :=
    show relKey rel.bare = relKey first.bare by rw [same]
  refine ⟨keys.trans named, ?_⟩
  rw [uid_of_key keys, told.rids first recorded, named]

/-- What an edge has: what records bring, and what relations given again carried. -/
theorem Kept.on_edge (kept : Kept again s) (apart : SubjectsApart s.records) {key : RelKey}
    {rel : Relation} (held : s.interp.relations.get key = some rel) (a : Attestation) :
    a ∈ rel.attestations ↔ Carried again key a ∨ Brought s.records rel a := by
  have told := kept.told apart
  obtain ⟨keyed, rid⟩ := held_rid told kept.sound held
  rw [edge_attestations told kept.settled kept.sound apart held, Brought, keyed]
  rw [carried_union, or_assoc]
  have named : (.attestation a ∈ s.records ∧ s.interp.rids.get a.uid = some key) ↔
      (.attestation a ∈ s.records ∧ a.uid = rel.uid) := by
    refine and_congr_right fun _ => ⟨fun found => ?_, fun same => by rw [same, rid]⟩
    obtain ⟨r, recorded, same, here⟩ := told.named _ _ found
    rw [← same, uid_of_key (here.trans keyed.symm)]
  rw [named]

/-- A rebuilt store holds the same things, edges perhaps with fewer attestations. -/
theorem Run.rebuilt_within (run : Run again s) (apart : SubjectsApart s.records) :
    Within s.rebuilt s := by
  have kept := run.kept
  have again' := run.rebuilt.kept
  have records := rebuilt_records s
  have apart' : SubjectsApart s.rebuilt.records := by rw [records]; exact apart
  have cores : ∀ uid, (s.rebuilt.units.get uid).map HeldUnit.core =
      (s.units.get uid).map HeldUnit.core := by
    intro uid
    rw [again'.sound.cores, kept.sound.cores, records]
  refine ⟨fun uid => ?_, fun uid u v left right => ?_, fun key => ?_, fun key r r' left right a on => ?_,
    ?_⟩
  · rw [← Option.isSome_map, cores, Option.isSome_map]
  · refine BTreeSet.ext_mem fun a => ?_
    rw [unit_attestations (again'.told apart') again'.settled again'.sound apart' left,
      unit_attestations (kept.told apart) kept.settled kept.sound apart right, records]
  · rw [again'.sound.edges, kept.sound.edges, records]
  · rw [kept.on_edge apart right]
    have same : relKey r = relKey r' :=
      (held_rid (again'.told apart') again'.sound left).1.trans
        (held_rid (kept.told apart) kept.sound right).1.symm
    rcases (again'.on_edge apart' left a).mp on with ⟨_, none, _⟩ | brought
    · cases none
    · rw [records, Brought, same, uid_of_key same] at brought
      exact Or.inr brought
  · rw [again'.folded, kept.folded, records]

omit [Unicode] [Blake3] in
/-- The graph has the ends and the kinds of the edges, and nothing attached. -/
theorem from_parts_bare (units : List (Uid × UnitCore)) (relations : List Relation) :
    Adjacency.fromParts units (relations.map Relation.bare) =
      Adjacency.fromParts units relations := by
  simp only [Adjacency.fromParts, Adjacency.links, List.flatMap_map, List.map_map, List.filter_map]
  rfl

omit [Unicode] in
theorem Within.adjacency_eq {s t : Store} (within : Within s t) (cores : s.cores = t.cores) :
    s.adjacency = t.adjacency := by
  have bare : s.interp.relations.values.map Relation.bare =
      t.interp.relations.values.map Relation.bare := by
    have entries := congrArg (List.map Prod.snd) (BTreeMap.entries_map_eq within.edges)
    simp only [List.map_map] at entries
    simp only [BTreeMap.values, List.map_map]
    exact entries
  have live : ∀ i : Interpretive, (i.relations.values.filter (fun r => !i.isWithdrawn r)).map
      Relation.bare = (i.relations.values.map Relation.bare).filter
        (fun r => !i.edgeless.isWithdrawn r) := by
    intro i
    rw [List.filter_map]
    rfl
  rw [adjacency, adjacency, ← from_parts_bare, live, bare, within.layer, ← live, from_parts_bare,
    cores]

/-- The index says nothing of attestations. -/
theorem rebuilt_index (within : Within s.rebuilt s) (sound : Sound s) (sound' : Sound s.rebuilt) :
    s.rebuilt.index = s.index := by
  have cores : s.rebuilt.cores = s.cores := BTreeMap.entries_map_eq fun uid => by
    rw [sound'.cores, sound.cores, rebuilt_records]
  rw [index, index, within.adjacency_eq cores, cores, rebuilt_records]
  rfl

end
end Store
end

section
local instance plainReplayText : Unicode := .plain
local instance modPrimeReplayHash : Blake3 := .modPrime

/-- An edge from a unit to itself. -/
def selfEdge (attestations : BTreeSet Attestation) : Relation where
  kind := .elaborates
  src := ⟨⟨List.replicate 32 0, Bytes32.width_zero⟩⟩
  dst := ⟨⟨List.replicate 32 0, Bytes32.width_zero⟩⟩
  weight := none
  note := none
  attestations := attestations
  extra := ∅

def selfAttestation : Attestation where
  uid := (selfEdge ∅).uid
  agent := ⟨"tool:a", tool_a_accepted⟩
  hop := 0
  parents := ∅
  ts := ⟨0, 0, ⟨"tool:a", tool_a_accepted⟩⟩
  op := .authored
  rung := .document
  recipe := none
  family := none
  sig := none
  extra := ∅

/-- A store given the edge, and then the edge with an attestation. -/
def edgeGivenAgain : Store :=
  (Store.fromRecords [.relation (selfEdge ∅)]).unionEdgeAttestations
    [.relation (selfEdge (BTreeSet.ofList [selfAttestation]))]

namespace Store

theorem edge_given_again_run : ∃ again, Run again edgeGivenAgain := by
  have given : (fromRecords [.relation (selfEdge ∅)]).append
      [.relation (selfEdge (BTreeSet.ofList [selfAttestation]))] =
        .ok (edgeGivenAgain, ⟨0, 1, 0⟩, []) := by decide +kernel
  exact ⟨_, .append (.fromRecords [.relation (selfEdge ∅)]) given⟩

end Store
end
end Smysl
