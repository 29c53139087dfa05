import Smysl.Graph.Compact
import Smysl.Graph.Identity

/-!
What outlives a compaction. Going back along supersession from a dropped unit
either meets a unit that is kept or runs into a cycle, and the references of a
kept unit are kept unless it is itself superseded.
-/
open Relation

namespace Smysl
open ByteString Store

section
variable [Unicode] [Blake3]

/-- The records have a unit of this uid. -/
def HasUnit (records : List Record) (u : Uid) : Prop :=
  ∃ core, .unit core ∈ records ∧ canonicalUid core = u

namespace Compact

/-- Removing records that outlive no dropped unit changes no unit that stays. -/
theorem first_unit_survives {dropped : BTreeSet Uid} {u : Uid} (kept : u ∉ dropped)
    (records : List Record) :
    firstUnit u (records.filter (survives dropped)) = firstUnit u records := by
  induction records with
  | nil => rfl
  | cons r rs ih =>
    have both := first_unit_append u [r] rs
    have rest := first_unit_append u [r] (rs.filter (survives dropped))
    rw [List.singleton_append] at both rest
    rw [List.filter_cons]
    split
    · rw [rest, both, ih]
    · rename_i gone
      have none : firstUnit u [r] = none := by
        by_contra found
        obtain ⟨core, found⟩ := Option.ne_none_iff_exists'.mp found
        obtain ⟨named, single⟩ := first_unit_some found
        rw [← List.mem_singleton.mp single] at gone
        exact gone (by simp [survives, named, kept])
      rw [both, none, Option.none_or, ih]

theorem first_unit_compacted {s : StoreRead} (apart : NoCollision s.records)
    (genuine : ∀ r ∈ s.records, r.Genuine) {u : Uid} (kept : u ∉ (compact s).dropped) :
    firstUnit u (compact s).records = firstUnit u s.records := by
  rw [compact_records, first_unit_survives kept, split_fresh_first_unit apart genuine]

theorem first_unit_dropped {s : StoreRead} {u : Uid} (gone : u ∈ (compact s).dropped) :
    firstUnit u (compact s).records = none := by
  by_contra found
  obtain ⟨core, found⟩ := Option.ne_none_iff_exists'.mp found
  obtain ⟨rfl, mem⟩ := first_unit_some found
  rw [compact_records, List.mem_filter] at mem
  simp [survives, gone] at mem

end Compact

namespace StoreRead

theorem present_iff {s : Store} (sound : Sound s) (u : Uid) :
    s.read.Present u ↔ (firstUnit u s.records).isSome = true := by
  rw [← sound.cores u, Option.isSome_map]
  rfl

theorem has_unit_iff (records : List Record) (u : Uid) :
    HasUnit records u ↔ (firstUnit u records).isSome = true := by
  constructor
  · rintro ⟨core, mem, rfl⟩
    exact first_unit_of_mem mem
  · intro found
    obtain ⟨core, found⟩ := Option.isSome_iff_exists.mp found
    obtain ⟨named, mem⟩ := first_unit_some found
    exact ⟨core, mem, named⟩

end StoreRead

namespace Compact
open StoreRead

/-- The compacted records have the units that are present and not dropped. -/
theorem compacted_has_unit {s : Store} (sound : Sound s) (apart : NoCollision s.records)
    (genuine : ∀ r ∈ s.records, r.Genuine) (u : Uid) :
    HasUnit (compact s.read).records u ↔ s.read.Present u ∧ u ∉ (compact s.read).dropped := by
  rw [has_unit_iff, present_iff sound]
  by_cases gone : u ∈ (compact s.read).dropped
  · rw [first_unit_dropped gone]
    simp [gone]
  · rw [@first_unit_compacted _ _ s.read apart genuine u gone]
    exact ⟨fun held => ⟨held, gone⟩, fun held => held.1⟩

omit [Unicode] [Blake3] in
theorem present_finite (s : StoreRead) : {u | s.Present u}.Finite := by
  refine Set.Finite.subset (List.finite_toSet s.units.keys) fun u present => ?_
  exact (s.units.mem_keys_iff u).mpr present

omit [Unicode] [Blake3] in
theorem mem_relations (s : StoreRead) (rel : Relation) :
    rel ∈ s.relations ↔ ∃ key, s.interp.relations.get key = some rel := by
  rw [StoreRead.relations, BTreeMap.values, List.mem_map]
  constructor
  · rintro ⟨e, mem, rfl⟩
    exact ⟨e.1, (BTreeMap.mem_entries_iff _ _ _).mp mem⟩
  · rintro ⟨key, held⟩
    exact ⟨(key, rel), (BTreeMap.mem_entries_iff _ _ _).mpr held, rfl⟩

omit [Unicode] [Blake3] in
theorem ends_of_key {r r' : Relation} (same : relKey r = relKey r') :
    r.src = r'.src ∧ r.dst = r'.dst := by
  simp only [relKey, EmbeddingLike.apply_eq_iff_eq, Prod.mk.injEq] at same
  exact same.2

omit [Unicode] [Blake3] in
theorem ends_of_bare {r r' : Relation} (same : r.bare = r'.bare) : r.src = r'.src ∧ r.dst = r'.dst :=
  ⟨show r.bare.src = r'.bare.src by rw [same], show r.bare.dst = r'.bare.dst by rw [same]⟩

/-- A held relation is one of the records', and the other way round. -/
theorem relation_recorded {s : Store} (sound : Sound s) {rel : Relation}
    (held : rel ∈ s.read.relations) :
    ∃ rel', .relation rel' ∈ s.records ∧ rel'.src = rel.src ∧ rel'.dst = rel.dst := by
  obtain ⟨key, held⟩ := (mem_relations _ _).mp held
  have edge := sound.edges key
  rw [show s.interp.relations.get key = some rel from held] at edge
  obtain ⟨rel', first, same⟩ := Option.map_eq_some_iff.mp edge.symm
  exact ⟨rel', (first_relation_some first).2, ends_of_bare same⟩

theorem relation_held {s : Store} (sound : Sound s) {rel : Relation}
    (recorded : .relation rel ∈ s.records) :
    ∃ rel' ∈ s.read.relations, rel'.src = rel.src ∧ rel'.dst = rel.dst := by
  obtain ⟨first, found⟩ := Option.isSome_iff_exists.mp (first_relation_of_mem recorded)
  have edge := sound.edges (relKey rel)
  rw [found] at edge
  obtain ⟨rel', held, same⟩ := Option.map_eq_some_iff.mp edge
  obtain ⟨src, dst⟩ := ends_of_key (first_relation_some found).1
  have ends := ends_of_bare same
  exact ⟨rel', (mem_relations _ _).mpr ⟨_, held⟩, ends.1.trans src, ends.2.trans dst⟩

instance (s : StoreRead) : Decidable s.NothingDangles :=
  decidable_of_iff ((∀ e ∈ s.units.entries, ∀ u ∈ e.2.core.grounds.toList ++ e.2.core.deps.toList,
      s.containsUid u = true) ∧
    ∀ rel ∈ s.relations, s.containsUid rel.src = true ∧ s.containsUid rel.dst = true) (by
    constructor
    · rintro ⟨units, relations⟩
      refine ⟨fun v held found u refers => ?_, relations⟩
      refine units (v, held) ((BTreeMap.mem_entries_iff _ _ _).mpr found) u ?_
      rw [List.mem_append, BTreeSet.mem_toList, BTreeSet.mem_toList]
      exact refers
    · rintro ⟨units, relations⟩
      refine ⟨fun e mem u refers => ?_, relations⟩
      rw [List.mem_append, BTreeSet.mem_toList, BTreeSet.mem_toList] at refers
      exact units e.1 e.2 ((BTreeMap.mem_entries_iff _ _ _).mp mem) u refers)

theorem not_dropped_iff (s : StoreRead) (u : Uid) : u ∉ (compact s).dropped ↔ s.Survives u := by
  rw [mem_dropped_iff, StoreRead.Survives]
  tauto

theorem from_records_records (records : List Record) :
    (fromRecords records).records = (splitFresh ∅ records).1 := by
  rw [fromRecords]
  exact (union_edge_attestations_alike _ _).records.trans (absorb_hashed_records _ _ _)

theorem compacted_store_records (s : StoreRead) :
    (fromRecords (compact s).records).records = (compact s).records := by
  have part : (compact s).records.Sublist (splitFresh ∅ s.records).1 := by
    rw [compact_records]
    exact List.filter_sublist
  have distinct := (part.map recordHash).nodup (split_fresh_distinct ∅ s.records).1
  rw [from_records_records, split_fresh_of_distinct distinct fun r _ =>
    BTreeSet.not_mem_emptyCollection _]

section
variable {s : Store} (reachable : s.Reachable) (apart : NoCollision s.records)
  (genuine : ∀ r ∈ s.records, r.Genuine)
include reachable apart genuine

theorem compacted_store_present (u : Uid) :
    (fromRecords (compact s.read).records).read.Present u ↔
      s.read.Present u ∧ s.read.Survives u := by
  rw [present_iff (from_records_sound _), compacted_store_records, ← has_unit_iff,
    compacted_has_unit reachable.sound apart genuine, not_dropped_iff]

theorem compacted_store_core {u : Uid} (survives : s.read.Survives u) :
    ((fromRecords (compact s.read).records).units.get u).map HeldUnit.core =
      (s.units.get u).map HeldUnit.core := by
  rw [(from_records_sound _).cores, compacted_store_records, reachable.sound.cores]
  exact @first_unit_compacted _ _ s.read apart genuine u ((not_dropped_iff _ u).mpr survives)

end

end Compact
end

/-- A speculative claim with nothing but a gist and what it depends on. -/
theorem present_a : isBlank "a" = false := by decide

theorem present_b : isBlank "b" = false := by decide

theorem present_m : isBlank "m" = false := by decide

theorem present_n : isBlank "n" = false := by decide

theorem speculative_sourced : Status.speculative.requiresSource = true →
    (none : Option SourceRef).isSome = true := by decide

theorem speculative_grounded : Status.speculative.requiresGrounds = true →
    (∅ : BTreeSet Uid).isEmpty = false := by decide

def bareClaim (gist : String) (present : isBlank gist = false) (deps : BTreeSet Uid) : UnitCore where
  schema := .kernel .claim
  gist := gist
  body := none
  detail := none
  deps := deps
  grounds := ∅
  status := .speculative
  source := none
  payload := none
  lang := none
  extra := ∅
  gist_present := present
  body_nonempty := by simp
  detail_nonempty := by simp
  detail_has_body := by simp
  authored := by simp
  sourced := speculative_sourced
  grounded := speculative_grounded

def bareEdge (kind : RelKind) (src dst : Uid) : Relation := ⟨kind, src, dst, none, none, ∅, ∅⟩

section
local instance plainText : Unicode := .plain
local instance modPrimeHash : Blake3 := .modPrime

/-- A unit with one edge to itself. -/
def selfRelated (kind : RelKind) : Store :=
  let a := bareClaim "a" present_a ∅
  fromRecords [.unit a, .relation (bareEdge kind (canonicalUid a) (canonicalUid a))]

theorem self_related_reachable (kind : RelKind) : (selfRelated kind).Reachable := by
  unfold selfRelated
  exact .fromRecords _

/-- Two units that a third supersedes, of which one depends on the other and is
kept because the third says more about it. -/
def keptDependent : Store :=
  let a := bareClaim "a" present_a ∅
  let b := bareClaim "b" present_b (BTreeSet.ofList [canonicalUid a])
  let n := bareClaim "n" present_n ∅
  let edge (kind : RelKind) (core : UnitCore) : Record :=
    .relation (bareEdge kind (canonicalUid n) (canonicalUid core))
  fromRecords [.unit a, .unit b, .unit n, edge .supersedes a, edge .supersedes b,
    edge .elaborates b]

namespace Compact
open StoreRead

end Compact
end
end Smysl
