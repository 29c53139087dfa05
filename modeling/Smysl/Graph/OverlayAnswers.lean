import Smysl.Graph.Delivery
import Smysl.Graph.EffectiveStatus
import Smysl.Graph.OverlayUnion
import Smysl.Graph.Survivors
import Smysl.Lib.Ascending

/-!
Whether an overlay answers as the store of both sides' records does. It holds the
same units, attested alike, the same relations and the same layer; but a
relation the base holds already brings it none of the attestations it carries in
memory, and what the base was brought that way stays.
-/
namespace Smysl
open ByteString

namespace Store
section
variable [Unicode] [Blake3]

/-- `digest_of_hashes`. -/
def digestOfHashes (hashes : List Bytes32) : Bytes32 :=
  hashBytes (utf8 "smysl/rsd/1" ++ [0] ++ hashes.flatMap Bytes32.bytes)

def recordSetDigest (s : Store) : Bytes32 := digestOfHashes s.recordHashes.toList

/-- A store that was built in memory and appended to, which holds no record
twice, with the relations whose edge was held when they were given again. -/
inductive Assembled : Set Relation → Store → Prop
  | fromRecords (records : List Record) :
    Assembled ((fromRecords records).joining (splitFresh ∅ records).2) (fromRecords records)
  | append {again : Set Relation} {s s' : Store} {records : List Record} {report : AppendReport}
    {bytes : Bytes} (before : Assembled again s)
    (run : s.append records = .ok (s', report, bytes)) :
    Assembled (s'.joining (splitFresh s.recordHashes records).2 ∪ again) s'

theorem Assembled.run {again : Set Relation} {s : Store} (assembled : Assembled again s) :
    Run again s := by
  induction assembled with
  | fromRecords records => exact .fromRecords records
  | append _ run before => exact .append before run

/-- No record is held twice, and the hashes are those of the records. -/
structure Distinct (s : Store) : Prop where
  nodup : (s.records.map recordHash).Nodup
  hashes : ∀ h, h ∈ s.recordHashes ↔ h ∈ s.records.map recordHash

theorem from_records_hashes (records : List Record) : (fromRecords records).recordHashes =
    BTreeSet.empty.extend ((splitFresh ∅ records).1.map recordHash) := by
  rw [fromRecords]
  have alike := union_edge_attestations_alike
    (new.absorbHashed (splitFresh ∅ records).1 ((splitFresh ∅ records).1.map recordHash))
    (splitFresh ∅ records).2
  refine alike.hashes.trans ?_
  rw [(absorb_hashed_alike _ _ _).hashes]
  exact fold_hashes _ _

theorem Assembled.distinct {again : Set Relation} {s : Store} (assembled : Assembled again s) :
    Distinct s := by
  induction assembled with
  | fromRecords records =>
    constructor
    · rw [Compact.from_records_records]
      exact (split_fresh_distinct ∅ records).1
    · intro h
      rw [from_records_hashes, Compact.from_records_records, BTreeSet.mem_extend]
      exact or_iff_left (BTreeSet.not_mem_empty h)
  | append _ run before =>
    rename_i again s s' records report bytes _
    obtain ⟨kept, hashes⟩ := append_split run
    obtain ⟨nodup, beyond⟩ := split_fresh_distinct s.recordHashes records
    constructor
    · rw [kept, List.map_append]
      apply List.nodup_append'.mpr
      refine ⟨before.nodup, nodup, fun h old new' => ?_⟩
      obtain ⟨r, mem, same⟩ := List.mem_map.mp new'
      apply beyond r mem
      rw [same]
      exact (before.hashes h).mpr old
    · intro h
      rw [kept, hashes, BTreeSet.mem_extend, before.hashes, List.map_append, List.mem_append]
      exact or_comm

/-- What is held already is passed, and then the rest is split. -/
theorem split_fresh_append (held : BTreeSet Bytes32) {rs : List Record} (ts : List Record)
    (distinct : (rs.map recordHash).Nodup) (beyond : ∀ r ∈ rs, recordHash r ∉ held) :
    splitFresh held (rs ++ ts) =
      (rs ++ (splitFresh (held.extend (rs.map recordHash)) ts).1,
        (splitFresh (held.extend (rs.map recordHash)) ts).2) := by
  induction rs generalizing held with
  | nil => rfl
  | cons r rs ih =>
    obtain ⟨other, distinct⟩ := List.nodup_cons.mp distinct
    have later := ih (held.insert (recordHash r)) distinct fun x mem old => by
      rcases (BTreeSet.mem_insert _ _ _).mp old with same | old
      · exact other (List.mem_map.mpr ⟨x, mem, same⟩)
      · exact beyond x (List.mem_cons_of_mem _ mem) old
    rw [List.cons_append, splitFresh, if_neg (beyond r List.mem_cons_self), later]
    rfl

/-- Splitting a batch over a base is splitting what the base does not hold. -/
theorem split_fresh_filter {base held seen : BTreeSet Bytes32}
    (cover : ∀ h, h ∈ held ↔ h ∈ base ∨ h ∈ seen) (rs : List Record) :
    (splitFresh seen (rs.filter (fun r => !base.contains (recordHash r)))).1 =
        (splitFresh held rs).1 ∧
      ∀ r ∈ (splitFresh seen (rs.filter (fun r => !base.contains (recordHash r)))).2,
        r ∈ (splitFresh held rs).2 := by
  induction rs generalizing held seen with
  | nil => exact ⟨rfl, fun r mem => mem⟩
  | cons r rs ih =>
    by_cases old : recordHash r ∈ base
    · have dropped : ((r :: rs).filter (fun r => !base.contains (recordHash r))) =
          rs.filter (fun r => !base.contains (recordHash r)) := by
        apply List.filter_cons_of_neg
        rw [(BTreeSet.mem_def _ _).mp old]
        decide
      obtain ⟨fresh, repeated⟩ := ih cover
      rw [dropped, splitFresh, if_pos ((cover _).mpr (Or.inl old))]
      exact ⟨fresh, fun x mem => List.mem_cons_of_mem _ (repeated x mem)⟩
    · have stays : ((r :: rs).filter (fun r => !base.contains (recordHash r))) =
          r :: rs.filter (fun r => !base.contains (recordHash r)) := by
        apply List.filter_cons_of_pos
        rw [Bool.not_eq_true']
        exact eq_false_of_ne_true old
      rw [stays, splitFresh, splitFresh]
      by_cases again : recordHash r ∈ seen
      · obtain ⟨fresh, repeated⟩ := ih cover
        rw [if_pos again, if_pos ((cover _).mpr (Or.inr again))]
        refine ⟨fresh, fun x mem => ?_⟩
        rcases List.mem_cons.mp mem with here | mem
        · rw [here]
          exact List.mem_cons_self
        · exact List.mem_cons_of_mem _ (repeated x mem)
      · have new' : recordHash r ∉ held := by
          intro mem
          rcases (cover _).mp mem with mem | mem
          · exact old mem
          · exact again mem
        have cover' : ∀ h, h ∈ held.insert (recordHash r) ↔
            h ∈ base ∨ h ∈ seen.insert (recordHash r) := by
          intro h
          rw [BTreeSet.mem_insert, BTreeSet.mem_insert, cover]
          tauto
        obtain ⟨fresh, repeated⟩ := ih cover'
        rw [if_neg again, if_neg new']
        exact ⟨congrArg (List.cons r) fresh, repeated⟩

omit [Unicode] in
/-- A rid is that of a recorded relation. -/
theorem rids_iff {given : Set Relation} {s : Store} (told : Told given s.records [] s) (uid : Uid)
    (key : RelKey) : s.interp.rids.get uid = some key ↔
      ∃ rel, .relation rel ∈ s.records ∧ rel.uid = uid ∧ relKey rel = key := by
  constructor
  · exact told.named uid key
  · intro ⟨rel, recorded, here, keys⟩
    rw [← here, ← keys]
    exact told.rids rel recorded

omit [Unicode] [Blake3] in
theorem settled_all (as : List Attestation) {s : Store} (settled : Settled s) :
    Settled (as.foldl attachOrWait s) := by
  induction as generalizing s with
  | nil => exact settled
  | cons a as ih => exact ih (settled.attach_or_wait a)

end
end Store

namespace Overlay
section
variable [Unicode] [Blake3]

def stateBytes (o : Overlay) : Bytes :=
  o.read.units.entries.flatMap (fun e => Store.unitBytes e.1 e.2) ++
    (o.interp.relations.entries.flatMap (fun e => Store.edgeBytes e.2) ++
      Store.layerBytes o.interp)

def stateHash (o : Overlay) : Bytes32 := hashBytes o.stateBytes

def adjacency (o : Overlay) : Adjacency :=
  .fromParts (o.read.units.entries.map (fun e => (e.1, e.2.core)))
    (o.interp.relations.values.filter (fun r => !o.interp.isWithdrawn r))

def unfounded (o : Overlay) : BTreeSet Uid :=
  if o.interp.relations.keys.any (fun k => (ofLex k).1 == RelKind.retracts.asStr) then
    let eff := effectiveStatus o.read .strict
    BTreeSet.ofList (o.read.units.keys.filter (fun u => eff.get u == some .unfounded))
  else ∅

/-- The hashes of both sides, sorted. -/
def recordHashes (o : Overlay) : List Bytes32 :=
  Ascending.sort (o.base.recordHashes.toList ++ o.batch.recordHashes.toList)

def recordSetDigest (o : Overlay) : Bytes32 := Store.digestOfHashes o.recordHashes

/-- An overlay answers as a store does. -/
structure Answers (o : Overlay) (t : Store) : Prop where
  records : o.read.records = t.records
  units : o.read.units = t.units
  interp : o.read.interp = t.interp
  adjacency : o.adjacency = t.adjacency
  unfounded : o.unfounded = t.unfounded
  digest : o.recordSetDigest = t.recordSetDigest
  state : o.stateHash = t.stateHash

/-- The relations of a batch that repeat a record, of the base or of the batch. -/
def Regiven (base : Store) (batch : List Record) : Set Relation :=
  (Store.fromRecords (base.records ++ batch)).joining
    (Store.splitFresh ∅ (base.records ++ batch)).2

/-- Those that repeat a record of the batch that the base does not hold. -/
def Repeated (base : Store) (batch : List Record) : Set Relation :=
  (Overlay.new base batch).batch.joining (Store.splitFresh ∅
    (batch.filter (fun r => !base.recordHashes.contains (Store.recordHash r)))).2

/-- The store that an overlay's answers are those of. -/
def asStore (base : Store) (batch : List Record) : Store :=
  let b := (Overlay.new base batch).batch
  (b.pendingAttestations ++ base.pendingAttestations).foldl Store.attachOrWait
    (union base b (gathered base b))

theorem new_as_store (base : Store) (batch : List Record) :
    (Overlay.new base batch).read.units = (asStore base batch).units ∧
      (Overlay.new base batch).read.interp = (asStore base batch).interp := by
  rw [asStore, ← union_attach_all]
  exact ⟨rfl, rfl⟩

theorem quiet_of_folded {s : Store} (folded : s.Folded) :
    s.interp.quiet = (s.records.foldl Interpretive.absorbHot {}).quiet := by
  have same : s.interp.edgeless = (s.records.foldl Interpretive.absorbHot {}).edgeless := folded
  calc s.interp.quiet = s.interp.edgeless.quiet := rfl
    _ = (s.records.foldl Interpretive.absorbHot {}).edgeless.quiet := by rw [same]
    _ = (s.records.foldl Interpretive.absorbHot {}).quiet := rfl

section
variable {again : Set Relation} {base : Store} (assembled : Store.Assembled again base)
  (batch : List Record)
include assembled

/-- Both sides' records are those of the store built from them. -/
theorem new_records : (Store.fromRecords (base.records ++ batch)).records =
    base.records ++ (Overlay.new base batch).batch.records := by
  have distinct := assembled.distinct
  have hashes : (∅ : BTreeSet Bytes32).extend (base.records.map Store.recordHash) =
      base.recordHashes := by
    apply BTreeSet.ext_mem
    intro h
    rw [BTreeSet.mem_extend, distinct.hashes]
    exact or_iff_left (BTreeSet.not_mem_emptyCollection h)
  have split := Store.split_fresh_append ∅ batch distinct.nodup
    fun r _ => BTreeSet.not_mem_emptyCollection _
  rw [hashes] at split
  have fresh := (@Store.split_fresh_filter _ _ base.recordHashes base.recordHashes ∅
    (fun h => (or_iff_left (BTreeSet.not_mem_emptyCollection h)).symm) batch).1
  have own : (Overlay.new base batch).batch = Store.fromRecords
      (batch.filter (fun r => !base.recordHashes.contains (Store.recordHash r))) := rfl
  rw [own, Compact.from_records_records, Compact.from_records_records, split, fresh]

/-- What an overlay holds is what its records say, and what relations given again
carried, to the base or within the batch. -/
theorem as_store_kept (apart : SubjectsApart (Store.fromRecords (base.records ++ batch)).records) :
    (asStore base batch).records = (Store.fromRecords (base.records ++ batch)).records ∧
      Store.Kept (again ∪ Repeated base batch) (asStore base batch) := by
  have whole := (Store.Run.fromRecords (base.records ++ batch)).kept
  have left := assembled.run.kept
  have right : Store.Kept (Repeated base batch) (Overlay.new base batch).batch :=
    (Store.Run.fromRecords _).kept
  have records := new_records assembled batch
  rw [asStore]
  generalize (Overlay.new base batch).batch = b at right records
  rw [records] at apart
  have alike := Store.Alike.foldl Store.attach_or_wait_alike
    (b.pendingAttestations ++ base.pendingAttestations) (union base b (gathered base b))
  have told := gathered_told (left.told (apart.mono fun r mem => List.mem_append_left _ mem))
    (right.told (apart.mono fun r mem => List.mem_append_right _ mem)) right.sound apart
  have attached := told.attach_all
  have settled : Store.Settled ((b.pendingAttestations ++ base.pendingAttestations).foldl
      Store.attachOrWait (union base b (gathered base b))) :=
    Store.settled_all _ fun a mem => (nomatch mem)
  have kept := alike.records.trans records.symm
  refine ⟨kept, (gathered_sound left.sound right.sound).alike alike, ?_, settled, fun _ => ?_⟩
  · -- the rids are those of the relations recorded; the rest is folded in order
    have rids : (union base b (gathered base b)).interp.rids =
        (Store.fromRecords (base.records ++ batch)).interp.rids := by
      apply BTreeMap.ext_get
      intro uid
      apply Option.ext
      intro key
      rw [← records] at apart
      rw [← alike.rids, Store.rids_iff (whole.told apart)]
      rw [records]
      rw [alike.rids]
      rw [records] at apart
      exact gathered_rids (left.told (apart.mono fun r mem => List.mem_append_left _ mem))
        right.sound apart uid key
    have quiet : (union base b (gathered base b)).interp.quiet =
        (Store.fromRecords (base.records ++ batch)).interp.quiet := by
      have folded : (Store.fromRecords (base.records ++ batch)).interp.quiet =
          ((base.records ++ b.records).foldl Interpretive.absorbHot {}).quiet := by
        rw [← records]
        exact quiet_of_folded whole.folded
      have before := quiet_of_folded left.folded
      rw [folded, List.foldl_append, ← quiet_fold b.records before, ← with_others_quiet]
      exact with_relations_quiet _ _
    have edgeless : (union base b (gathered base b)).interp.edgeless =
        (Store.fromRecords (base.records ++ batch)).interp.edgeless := by
      have rebuilt : ∀ i : Interpretive, i.edgeless = { i.quiet with rids := i.rids } :=
        fun i => rfl
      rw [rebuilt, rebuilt, rids, quiet]
    rw [Store.Folded, alike.rest, edgeless, whole.folded, kept]
  · have same : again ∪ Repeated base batch ∪ {rel | .relation rel ∈ base.records ++ b.records} =
        (again ∪ {rel | .relation rel ∈ base.records}) ∪
          (Repeated base batch ∪ {rel | .relation rel ∈ b.records}) := by
      ext rel
      simp only [List.mem_append, Set.mem_union, Set.mem_ofPred_eq]
      tauto
    rw [kept, records, same]
    exact attached

/-- A relation given twice in the batch repeats a record. -/
theorem repeated_regiven
    (apart : SubjectsApart (Store.fromRecords (base.records ++ batch)).records) :
    Repeated base batch ⊆ Regiven base batch := by
  intro rel mem
  obtain ⟨kept, held⟩ := as_store_kept assembled batch apart
  have whole := (Store.Run.fromRecords (base.records ++ batch)).kept
  have distinct := assembled.distinct
  have hashes : (∅ : BTreeSet Bytes32).extend (base.records.map Store.recordHash) =
      base.recordHashes := by
    apply BTreeSet.ext_mem
    intro h
    rw [BTreeSet.mem_extend, distinct.hashes]
    exact or_iff_left (BTreeSet.not_mem_emptyCollection h)
  have split := Store.split_fresh_append ∅ batch distinct.nodup
    fun r _ => BTreeSet.not_mem_emptyCollection _
  rw [hashes] at split
  constructor
  · rw [split]
    exact (@Store.split_fresh_filter _ _ base.recordHashes base.recordHashes ∅
      (fun h => (or_iff_left (BTreeSet.not_mem_emptyCollection h)).symm) batch).2 _ mem.1
  · rw [← kept] at apart
    have covered := (held.told apart).covered rel (Or.inl (Or.inr mem))
    rw [BTreeMap.contains, ← Option.isSome_map, whole.sound.edges, ← kept, ← held.sound.edges,
      Option.isSome_map]
    exact covered

omit assembled in
/-- Two stores of one log hold the same things if and only if what was carried in
memory to either is on the edges of the other. -/
theorem same_held_iff {some others : Set Relation} {s t : Store} (left : Store.Kept some s)
    (right : Store.Kept others t) (records : s.records = t.records)
    (apart : SubjectsApart t.records) : (s.units = t.units ∧ s.interp = t.interp) ↔
      (∀ rel ∈ some, ∀ a ∈ rel.attestations,
        Store.Brought t.records rel a ∨ Carried others (relKey rel) a) ∧
      ∀ rel ∈ others, ∀ a ∈ rel.attestations,
        Store.Brought t.records rel a ∨ Carried some (relKey rel) a := by
  have apart' : SubjectsApart s.records := by
    rw [records]
    exact apart
  have told := left.told apart'
  have told' := right.told apart
  have units : s.units = t.units := by
    apply BTreeMap.ext_get
    intro uid
    have cores : (s.units.get uid).map HeldUnit.core = (t.units.get uid).map HeldUnit.core := by
      rw [left.sound.cores, right.sound.cores, records]
    cases here : s.units.get uid with
    | none =>
      rw [here] at cores
      exact (Option.map_eq_none_iff.mp cores.symm).symm
    | some u =>
      rw [here] at cores
      obtain ⟨v, there, same⟩ := Option.map_eq_some_iff.mp cores.symm
      have attested : u.attestations = v.attestations := by
        apply BTreeSet.ext_mem
        intro a
        rw [Store.unit_attestations told left.settled left.sound apart' here,
          Store.unit_attestations told' right.settled right.sound apart there, records]
      rw [there]
      obtain ⟨core, attestations⟩ := u
      obtain ⟨core', attestations'⟩ := v
      dsimp only at same attested
      rw [same, attested]
  -- an edge of either is under its key, and what records bring it depends on that alone
  have brought : ∀ {r r' : Relation} {a : Attestation}, relKey r = relKey r' →
      (Store.Brought t.records r a ↔ Store.Brought t.records r' a) := by
    intro r r' a same
    rw [Store.Brought, Store.Brought, same, uid_of_key same]
  have onLeft : ∀ {key rel}, s.interp.relations.get key = Option.some rel → relKey rel = key ∧
      ∀ a, a ∈ rel.attestations ↔ Carried some key a ∨ Store.Brought t.records rel a := by
    intro key rel held
    refine ⟨(Store.held_rid told left.sound held).1, fun a => ?_⟩
    rw [left.on_edge apart' held, records]
  have onRight : ∀ {key rel}, t.interp.relations.get key = Option.some rel → relKey rel = key ∧
      ∀ a, a ∈ rel.attestations ↔ Carried others key a ∨ Store.Brought t.records rel a := by
    intro key rel held
    exact ⟨(Store.held_rid told' right.sound held).1, fun a => right.on_edge apart held a⟩
  constructor
  · rintro ⟨_, layer⟩
    constructor
    · intro rel given a on
      obtain ⟨r, held⟩ := (BTreeMap.contains_iff _ _).mp (told.covered rel (Or.inl given))
      have there := held
      rw [layer] at there
      have bears := ((onLeft held).2 a).mpr (Or.inl ⟨rel, given, rfl, on⟩)
      rcases ((onRight there).2 a).mp bears with carried | borne
      · exact Or.inr carried
      · exact Or.inl ((brought (onRight there).1).mp borne)
    · intro rel given a on
      obtain ⟨r, held⟩ := (BTreeMap.contains_iff _ _).mp (told'.covered rel (Or.inl given))
      have here := held
      rw [← layer] at here
      have bears := ((onRight held).2 a).mpr (Or.inl ⟨rel, given, rfl, on⟩)
      rcases ((onLeft here).2 a).mp bears with carried | borne
      · exact Or.inr carried
      · exact Or.inl ((brought (onLeft here).1).mp borne)
  · rintro ⟨covered, covered'⟩
    have edges : s.interp.relations = t.interp.relations := by
      apply BTreeMap.ext_get
      intro key
      have bare : (s.interp.relations.get key).map Relation.bare =
          (t.interp.relations.get key).map Relation.bare := by
        rw [left.sound.edges, right.sound.edges, records]
      cases here : s.interp.relations.get key with
      | none =>
        rw [here] at bare
        exact (Option.map_eq_none_iff.mp bare.symm).symm
      | some r =>
        rw [here] at bare
        obtain ⟨r', there, same⟩ := Option.map_eq_some_iff.mp bare.symm
        obtain ⟨keyed, bears⟩ := onLeft here
        obtain ⟨keyed', bears'⟩ := onRight there
        have keys := keyed.trans keyed'.symm
        have attested : r.attestations = r'.attestations := by
          apply BTreeSet.ext_mem
          intro a
          rw [bears, bears']
          constructor
          · intro on
            rcases on with ⟨rel, given, named, on⟩ | borne
            · rcases covered rel given a on with borne | carried
              · exact Or.inr ((brought (named.trans keyed'.symm)).mp borne)
              · rw [named] at carried
                exact Or.inl carried
            · exact Or.inr ((brought keys).mp borne)
          · intro on
            rcases on with ⟨rel, given, named, on⟩ | borne
            · rcases covered' rel given a on with borne | carried
              · exact Or.inr ((brought (named.trans keyed.symm)).mp borne)
              · rw [named] at carried
                exact Or.inl carried
            · exact Or.inr ((brought keys).mpr borne)
        have whole : ∀ x : Relation, x = { x.bare with attestations := x.attestations } :=
          fun x => rfl
        rw [there, whole r, whole r', same, attested]
    have layer : s.interp.edgeless = t.interp.edgeless := by
      rw [left.folded, right.folded, records]
    have rest : ∀ i : Interpretive, i = { i.edgeless with relations := i.relations } :=
      fun i => rfl
    refine ⟨units, ?_⟩
    rw [rest s.interp, rest t.interp, layer, edges]

/-- Both sides' hashes are those of the store built from them. -/
theorem new_hashes : (Overlay.new base batch).recordHashes =
    (Store.fromRecords (base.records ++ batch)).recordHashes.toList := by
  have records := new_records assembled batch
  have whole := (Store.Assembled.fromRecords (base.records ++ batch)).distinct
  have left := assembled.distinct
  have right : (Overlay.new base batch).batch.Distinct :=
    (Store.Assembled.fromRecords _).distinct
  have own : (Overlay.new base batch).base = base := rfl
  rw [recordHashes, own]
  generalize (Overlay.new base batch).batch = b at right records
  have apart := whole.nodup
  rw [records, List.map_append] at apart
  obtain ⟨_, _, disjoint⟩ := List.nodup_append'.mp apart
  have nodup : (Ascending.sort (base.recordHashes.toList ++ b.recordHashes.toList)).Nodup := by
    apply (List.mergeSort_perm _ _).nodup_iff.mpr
    apply List.nodup_append'.mpr
    refine ⟨base.recordHashes.toList_nodup, b.recordHashes.toList_nodup, fun h old new' => ?_⟩
    rw [BTreeSet.mem_toList] at old new'
    exact disjoint ((left.hashes h).mp old) ((right.hashes h).mp new')
  have ascending : (Ascending.sort (base.recordHashes.toList ++ b.recordHashes.toList)).Pairwise
      (· < ·) := by
    apply ((Ascending.sort_sorted _).and nodup).imp
    intro h k both
    exact lt_of_le_of_ne both.1 both.2
  apply Ascending.ascending_ext ascending (BTreeSet.toList_pairwise _)
  intro h
  rw [Ascending.mem_sort, List.mem_append, BTreeSet.mem_toList, BTreeSet.mem_toList,
    BTreeSet.mem_toList, left.hashes, right.hashes, whole.hashes, records, List.map_append,
    List.mem_append]

/-- An overlay answers as a store that holds the same units and the same layer. -/
theorem answers_of_held (records : (Overlay.new base batch).read.records =
      (Store.fromRecords (base.records ++ batch)).records)
    (units : (Overlay.new base batch).read.units =
      (Store.fromRecords (base.records ++ batch)).units)
    (interp : (Overlay.new base batch).read.interp =
      (Store.fromRecords (base.records ++ batch)).interp) :
    (Overlay.new base batch).Answers (Store.fromRecords (base.records ++ batch)) := by
  have layer : (Overlay.new base batch).interp =
      (Store.fromRecords (base.records ++ batch)).interp := interp
  have read : (Overlay.new base batch).read =
      (Store.fromRecords (base.records ++ batch)).read := by
    have whole : ∀ r : StoreRead, r = ⟨r.records, r.units, r.interp⟩ := fun r => rfl
    rw [whole (Overlay.new base batch).read, records, units, interp]
    rfl
  refine ⟨records, units, interp, ?_, ?_, ?_, ?_⟩
  · rw [Overlay.adjacency, Store.adjacency, Store.cores, units, layer]
  · rw [Overlay.unfounded, Store.unfounded, read, layer]
    rfl
  · rw [Overlay.recordSetDigest, Store.recordSetDigest, new_hashes assembled]
  · rw [Overlay.stateHash, Store.stateHash, Overlay.stateBytes, Store.stateBytes, units, layer]

end

/-- An overlay answers as the store of both sides' records does, if and only if
every attestation that a relation given again carried in memory is on the edge of
both: one given again to the base is brought by a record, or by a relation of the
batch that is given again; and one of the batch by a record, or to the base, or
within the batch. -/
theorem overlay_answers_iff {again : Set Relation} {base : Store}
    (assembled : Store.Assembled again base) (batch : List Record)
    (subjects : HashApart
      (subjectStrings (Store.fromRecords (base.records ++ batch)).records)) :
    (Overlay.new base batch).Answers (Store.fromRecords (base.records ++ batch)) ↔
      (∀ rel ∈ again, ∀ a ∈ rel.attestations,
        Store.Brought (Store.fromRecords (base.records ++ batch)).records rel a ∨
          Carried (Regiven base batch) (relKey rel) a) ∧
      ∀ rel ∈ Regiven base batch, ∀ a ∈ rel.attestations,
        Store.Brought (Store.fromRecords (base.records ++ batch)).records rel a ∨
          Carried (again ∪ Repeated base batch) (relKey rel) a := by
  have apart := subjects_apart subjects
  obtain ⟨records, left⟩ := as_store_kept assembled batch apart
  have right := (Store.Run.fromRecords (base.records ++ batch)).kept
  obtain ⟨units, interp⟩ := new_as_store base batch
  have held := same_held_iff left right records apart
  have answers : (Overlay.new base batch).Answers (Store.fromRecords (base.records ++ batch)) ↔
      (asStore base batch).units = (Store.fromRecords (base.records ++ batch)).units ∧
        (asStore base batch).interp = (Store.fromRecords (base.records ++ batch)).interp := by
    rw [← units, ← interp]
    constructor
    · intro answers
      exact ⟨answers.units, answers.interp⟩
    · intro ⟨sameUnits, sameLayer⟩
      exact answers_of_held assembled batch (new_records assembled batch).symm sameUnits sameLayer
  rw [answers, held]
  apply and_congr_left
  intro _
  constructor
  · intro all rel given
    exact all rel (Or.inl given)
  · intro all rel given a on
    rcases given with given | given
    · exact all rel given a on
    · exact Or.inr ⟨rel, repeated_regiven assembled batch apart given, rfl, on⟩

end

section
local instance plainOverlayText : Unicode := .plain
local instance modPrimeOverlayHash : Blake3 := .modPrime

/-- A base that holds the edge, seen with the edge. -/
theorem edge_again_answers :
    (Overlay.new (Store.fromRecords [.relation (selfEdge ∅)]) [.relation (selfEdge ∅)]).Answers
      (Store.fromRecords ((Store.fromRecords [.relation (selfEdge ∅)]).records ++
        [.relation (selfEdge ∅)])) ↔
      (∀ rel ∈ (Store.fromRecords [.relation (selfEdge ∅)]).joining
          (Store.splitFresh ∅ [.relation (selfEdge ∅)]).2, ∀ a ∈ rel.attestations,
        Store.Brought (Store.fromRecords ((Store.fromRecords [.relation (selfEdge ∅)]).records ++
            [.relation (selfEdge ∅)])).records rel a ∨
          Carried (Regiven (Store.fromRecords [.relation (selfEdge ∅)])
            [.relation (selfEdge ∅)]) (relKey rel) a) ∧
      ∀ rel ∈ Regiven (Store.fromRecords [.relation (selfEdge ∅)]) [.relation (selfEdge ∅)],
        ∀ a ∈ rel.attestations,
        Store.Brought (Store.fromRecords ((Store.fromRecords [.relation (selfEdge ∅)]).records ++
            [.relation (selfEdge ∅)])).records rel a ∨
          Carried ((Store.fromRecords [.relation (selfEdge ∅)]).joining
            (Store.splitFresh ∅ [.relation (selfEdge ∅)]).2 ∪
            Repeated (Store.fromRecords [.relation (selfEdge ∅)]) [.relation (selfEdge ∅)])
            (relKey rel) a :=
  overlay_answers_iff (.fromRecords [.relation (selfEdge ∅)]) [.relation (selfEdge ∅)]
    (by decide +kernel)

/-- What the edge carries when it is given again reaches the store, and not the
overlay. -/
theorem edge_again_attestation_dropped :
    ¬ ∀ (again : Set Relation) (base : Store) (batch : List Record),
      Store.Assembled again base →
      HashApart (subjectStrings (Store.fromRecords (base.records ++ batch)).records) →
      (Overlay.new base batch).Answers (Store.fromRecords (base.records ++ batch)) := by
  intro all
  have answers := all _ (Store.fromRecords [.relation (selfEdge ∅)])
    [.relation (selfEdge (BTreeSet.ofList [selfAttestation]))] (.fromRecords _)
    (by decide +kernel)
  have apart : (Overlay.new (Store.fromRecords [.relation (selfEdge ∅)])
      [.relation (selfEdge (BTreeSet.ofList [selfAttestation]))]).read.interp ≠
      (Store.fromRecords ((Store.fromRecords [.relation (selfEdge ∅)]).records ++
        [.relation (selfEdge (BTreeSet.ofList [selfAttestation]))])).interp := by
    decide +kernel
  exact apart answers.interp

end
end Overlay
end Smysl
