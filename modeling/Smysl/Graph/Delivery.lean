import Smysl.Graph.Layer
import Smysl.Graph.Replay

/-!
Records delivered to an empty store, in whatever batches. What the store then
holds is told by the records delivered: of the relations, the views and the
contentions that share a key, by the ones that came first or last.
-/
namespace Smysl
open ByteString

/-- A record as it is written: a relation's attestations are not, nor is the
name of the default estimator. -/
def Record.written : Record → Record
  | relation r => relation r.bare
  | view v => view { v with granularity := { v.granularity with
      estimator := match v.granularity.estimator with
        | .known .utf8Div4 => .unset
        | e => e } }
  | r => r

section
variable [Unicode]

theorem to_cbor_written (r : Record) : toCbor r.written = toCbor r := by
  cases r with
  | view v =>
    have same : encGranularity { v.granularity with
        estimator := match v.granularity.estimator with
          | .known .utf8Div4 => .unset
          | e => e } = encGranularity v.granularity := by
      rcases v.granularity with ⟨profile, l0, l1, l2, admission, estimator, extra⟩
      cases estimator with
      | known e => cases e <;> rfl
      | _ => rfl
    have bytes : viewBytes { v with granularity := { v.granularity with
        estimator := match v.granularity.estimator with
          | .known .utf8Div4 => .unset
          | e => e } } = viewBytes v := by
      rw [viewBytes, viewBytes, same]
    exact congrArg (Enc.arrayHead 2 ++ Enc.uint 5 ++ ·) bytes
  | _ => rfl

/-- A record that decoding what is written of it gives back. -/
structure Record.Faithful (r : Record) : Prop where
  valid : r.written.Valid
  fits : (toCbor r).length < Cursor.limit

theorem Record.Faithful.written_of_bytes {r r' : Record} (faithful : r.Faithful)
    (faithful' : r'.Faithful) (same : toCbor r = toCbor r') : r.written = r'.written := by
  have left := from_cbor_reads faithful.valid (by rw [to_cbor_written]; exact faithful.fits) []
  have right := from_cbor_reads faithful'.valid (by rw [to_cbor_written]; exact faithful'.fits) []
  rw [to_cbor_written] at left right
  rw [same, right] at left
  injection left with parts
  exact (Prod.mk.inj parts).1.symm

end

section
variable [Unicode] [Blake3]

/-- Records a log accepts, whose encodings and subjects the hash tells apart. -/
structure Clean (records : List Record) : Prop where
  accepted : refuseUnloggable records = .ok ()
  faithful : ∀ r ∈ records, r.Faithful
  apart : NoCollision records
  subjects : HashApart (subjectStrings records)

namespace Store

/-- The store that a list of records was appended to, batch by batch. -/
inductive Delivered : List Record → Store → Prop
  | none : Delivered [] new
  | append {given : List Record} {s s' : Store} {records : List Record} {report : AppendReport}
    {bytes : Bytes} (before : Delivered given s)
    (run : s.append records = .ok (s', report, bytes)) : Delivered (given ++ records) s'

theorem append_split {s s' : Store} {records : List Record} {report : AppendReport} {bytes : Bytes}
    (run : s.append records = .ok (s', report, bytes)) :
    s'.records = s.records ++ (splitFresh s.recordHashes records).1 ∧
      s'.recordHashes = s.recordHashes.extend ((splitFresh s.recordHashes records).1.map recordHash) := by
  rw [append] at run
  split at run
  · cases run
  · dsimp only at run
    split at run
    · rename_i none
      cases run
      rw [List.isEmpty_iff.mp none]
      have alike := union_edge_attestations_alike s (splitFresh s.recordHashes records).2
      exact ⟨by rw [alike.records, List.append_nil], alike.hashes⟩
    · cases run
      have alike := union_edge_attestations_alike
        (s.absorbHashed (splitFresh s.recordHashes records).1
          ((splitFresh s.recordHashes records).1.map recordHash))
        (splitFresh s.recordHashes records).2
      refine ⟨alike.records.trans (absorb_hashed_records _ _ _), alike.hashes.trans ?_⟩
      rw [(absorb_hashed_alike _ _ _).hashes]
      exact fold_hashes _ _

/-- Every record given is kept or repeats one. -/
theorem mem_split_fresh {held : BTreeSet Bytes32} {rs : List Record} {r : Record} (mem : r ∈ rs) :
    recordHash r ∈ held ∨ ∃ r' ∈ (splitFresh held rs).1, recordHash r' = recordHash r := by
  induction rs generalizing held with
  | nil => cases mem
  | cons x rs ih =>
    rw [splitFresh]
    rcases List.mem_cons.mp mem with rfl | mem
    · split
      · rename_i old
        exact Or.inl old
      · exact Or.inr ⟨r, List.mem_cons_self, rfl⟩
    · split
      · exact ih mem
      · rcases ih mem with old | ⟨r', kept, same⟩
        · rcases (BTreeSet.mem_insert _ _ _).mp old with same | old
          · exact Or.inr ⟨x, List.mem_cons_self, same.symm⟩
          · exact Or.inl old
        · exact Or.inr ⟨r', List.mem_cons_of_mem _ kept, same⟩

/-- What is given is kept or repeated. -/
theorem split_fresh_either (held : BTreeSet Bytes32) (rs : List Record) (r : Record) :
    r ∈ rs ↔ r ∈ (splitFresh held rs).1 ∨ r ∈ (splitFresh held rs).2 := by
  induction rs generalizing held with
  | nil => simp [splitFresh]
  | cons x rs ih =>
    rw [splitFresh, List.mem_cons]
    split
    · rw [ih held, List.mem_cons]
      tauto
    · rw [ih, List.mem_cons]
      tauto

theorem Folded.part {α : Type} {s : Store} (folded : Folded s) (part : Interpretive → α)
    (bare : ∀ i : Interpretive, part i.edgeless = part i) :
    part s.interp = part (s.records.foldl Interpretive.absorbHot {}) := by
  rw [← bare, folded, bare]

namespace Delivered

variable {given : List Record} {s : Store}

theorem hashes (delivered : Delivered given s) (h : Bytes32) :
    h ∈ s.recordHashes ↔ ∃ r ∈ s.records, recordHash r = h := by
  induction delivered with
  | none => simp [Store.new]
  | append before run ih =>
    obtain ⟨records, hashes⟩ := append_split run
    rw [hashes, BTreeSet.mem_extend, ih, records]
    simp only [List.mem_map, List.mem_append]
    constructor
    · rintro (⟨r, mem, same⟩ | ⟨r, mem, same⟩)
      · exact ⟨r, Or.inr mem, same⟩
      · exact ⟨r, Or.inl mem, same⟩
    · rintro ⟨r, mem | mem, same⟩
      · exact Or.inr ⟨r, mem, same⟩
      · exact Or.inl ⟨r, mem, same⟩

theorem from_given (delivered : Delivered given s) {r : Record} (mem : r ∈ s.records) :
    r ∈ given := by
  induction delivered with
  | none => cases mem
  | append before run ih =>
    rw [(append_split run).1] at mem
    rcases List.mem_append.mp mem with mem | mem
    · exact List.mem_append_left _ (ih mem)
    · exact List.mem_append_right _ ((split_fresh_sublist _ _).subset mem)

theorem hash_kept (delivered : Delivered given s) {r : Record} (mem : r ∈ given) :
    recordHash r ∈ s.recordHashes := by
  induction delivered with
  | none => cases mem
  | append before run ih =>
    rw [(append_split run).2, BTreeSet.mem_extend]
    rcases List.mem_append.mp mem with mem | mem
    · exact Or.inr (ih mem)
    · rcases @mem_split_fresh _ _ _ _ _ mem with old | ⟨r', kept, same⟩
      · exact Or.inr old
      · exact Or.inl (List.mem_map.mpr ⟨r', kept, same⟩)

/-- Of what was given something written alike is kept. -/
theorem stands (delivered : Delivered given s) (clean : Clean given) {r : Record}
    (mem : r ∈ given) : ∃ r' ∈ s.records, r'.written = r.written := by
  obtain ⟨r', kept, same⟩ := (delivered.hashes _).mp (delivered.hash_kept mem)
  have mem' := delivered.from_given kept
  exact ⟨r', kept, (clean.faithful r' mem').written_of_bytes (clean.faithful r mem)
    (clean.apart r' mem' r mem same)⟩

end Delivered
end Store

omit [Unicode] [Blake3] in
theorem accepted_iff (records : List Record) :
    refuseUnloggable records = .ok () ↔ ∀ r ∈ records, unloggable r = none := by
  rw [refuseUnloggable, ← List.findSome?_eq_none_iff]
  cases records.findSome? unloggable <;> simp

omit [Unicode] [Blake3] in
theorem subject_strings_mono [Unicode] {rs ts : List Record} (part : ∀ r ∈ rs, r ∈ ts) {x : Bytes}
    (mem : x ∈ subjectStrings rs) : x ∈ subjectStrings ts := by
  rw [mem_subject_strings] at mem ⊢
  exact mem.imp (fun ⟨core, held, same⟩ => ⟨core, part _ held, same⟩)
    (fun ⟨rel, held, same⟩ => ⟨rel, part _ held, same⟩)

theorem Clean.mono {rs ts : List Record} (clean : Clean ts) (part : ∀ r ∈ rs, r ∈ ts) : Clean rs where
  accepted := (accepted_iff rs).mpr fun r mem => (accepted_iff ts).mp clean.accepted r (part r mem)
  faithful r mem := clean.faithful r (part r mem)
  apart r mem r' mem' := clean.apart r (part r mem) r' (part r' mem')
  subjects x mem y mem' :=
    clean.subjects x (subject_strings_mono part mem) y (subject_strings_mono part mem')

namespace Store
namespace Delivered

variable {given : List Record} {s : Store}

/-- What was delivered is a run in which every relation given is recorded or was
given again while its edge was held. -/
theorem run (delivered : Delivered given s) (clean : Clean given) :
    ∃ again, Run again s ∧
      again ∪ {rel | .relation rel ∈ s.records} = recorded .relation given := by
  induction delivered with
  | none =>
    refine ⟨_, .fromRecords [], ?_⟩
    ext rel
    simp only [joining, splitFresh, List.not_mem_nil, false_and, Set.mem_union, Set.mem_ofPred_eq,
      mem_recorded, false_or]
    exact iff_of_false List.not_mem_nil id
  | @append given s s' records report bytes before run ih =>
    obtain ⟨again, ran, same⟩ := ih (clean.mono fun r mem => List.mem_append_left _ mem)
    refine ⟨_, .append ran run, ?_⟩
    have after := Delivered.append before run
    -- a relation that is repeated repeats one of the same key
    have joins : ∀ rel, .relation rel ∈ (splitFresh s.recordHashes records).2 →
        s'.interp.relations.contains (relKey rel) = true := by
      intro rel mem
      have mem : .relation rel ∈ given ++ records :=
        List.mem_append_right _ ((split_fresh_either _ _ _).mpr (Or.inr mem))
      obtain ⟨r', kept, written⟩ := after.stands clean mem
      have sound := (Run.append ran run).kept.sound
      cases r' with
      | relation rel' =>
        have bare : rel'.bare = rel.bare := Record.relation.inj written
        have keys : relKey rel' = relKey rel :=
          show relKey rel'.bare = relKey rel.bare by rw [bare]
        rw [BTreeMap.contains, ← Option.isSome_map, sound.edges, Option.isSome_map, ← keys]
        exact first_relation_of_mem kept
      | _ => cases written
    ext rel
    have here := Set.ext_iff.mp same rel
    simp only [Set.mem_union, Set.mem_ofPred_eq, mem_recorded] at here
    simp only [joining, Set.mem_union, Set.mem_ofPred_eq, mem_recorded, List.mem_append,
      (append_split run).1, ← here, split_fresh_either s.recordHashes records]
    have := joins rel
    tauto

theorem sound (delivered : Delivered given s) (clean : Clean given) : Sound s :=
  (delivered.run clean).choose_spec.1.kept.sound

theorem subjects_apart (delivered : Delivered given s) (clean : Clean given) :
    SubjectsApart s.records :=
  (Smysl.subjects_apart clean.subjects).mono fun _ mem => delivered.from_given mem

/-- What constructors a record that stands for another has. -/
theorem attestation_stands (delivered : Delivered given s) (clean : Clean given) (a : Attestation) :
    .attestation a ∈ s.records ↔ .attestation a ∈ given := by
  refine ⟨delivered.from_given, fun mem => ?_⟩
  obtain ⟨r', kept, written⟩ := delivered.stands clean mem
  cases r' <;> cases written
  exact kept

/-- A unit is held whenever one of its uid was given. -/
theorem unit_held (delivered : Delivered given s) (clean : Clean given) (uid : Uid) :
    s.units.contains uid = true ↔ ∃ core, .unit core ∈ given ∧ canonicalUid core = uid := by
  rw [BTreeMap.contains, ← Option.isSome_map, (delivered.sound clean).cores]
  constructor
  · intro found
    obtain ⟨core, found⟩ := Option.isSome_iff_exists.mp found
    obtain ⟨named, mem⟩ := first_unit_some found
    exact ⟨core, delivered.from_given mem, named⟩
  · rintro ⟨core, mem, rfl⟩
    obtain ⟨r', kept, written⟩ := delivered.stands clean mem
    cases r' <;> cases written
    exact first_unit_of_mem kept

theorem unit_on (delivered : Delivered given s) (clean : Clean given) {uid : Uid} {u : HeldUnit}
    (held : s.units.get uid = some u) (a : Attestation) :
    a ∈ u.attestations ↔ .attestation a ∈ given ∧ a.uid = uid := by
  obtain ⟨again, run, _⟩ := delivered.run clean
  have apart := delivered.subjects_apart clean
  rw [unit_attestations (run.kept.told apart) run.kept.settled run.kept.sound apart held,
    delivered.attestation_stands clean]

/-- An edge is held whenever a relation of its key was given, and it has what
such relations carried and what attestations of it were given. -/
theorem edge_held (delivered : Delivered given s) (clean : Clean given) (key : RelKey) :
    s.interp.relations.contains key = true ↔ ∃ rel, .relation rel ∈ given ∧ relKey rel = key := by
  rw [BTreeMap.contains, ← Option.isSome_map, (delivered.sound clean).edges, Option.isSome_map]
  constructor
  · intro found
    obtain ⟨rel, found⟩ := Option.isSome_iff_exists.mp found
    obtain ⟨named, mem⟩ := first_relation_some found
    exact ⟨rel, delivered.from_given mem, named⟩
  · rintro ⟨rel, mem, rfl⟩
    obtain ⟨r', kept, written⟩ := delivered.stands clean mem
    cases r' with
    | relation rel' =>
      have bare : rel'.bare = rel.bare := Record.relation.inj written
      have keys : relKey rel' = relKey rel :=
        show relKey rel'.bare = relKey rel.bare by rw [bare]
      rw [← keys]
      exact first_relation_of_mem kept
    | _ => cases written

theorem edge_on (delivered : Delivered given s) (clean : Clean given) {key : RelKey}
    {rel : Relation} (held : s.interp.relations.get key = some rel) (a : Attestation) :
    relKey rel = key ∧ (a ∈ rel.attestations ↔ Carried (recorded .relation given) key a ∨
      (.attestation a ∈ given ∧ a.uid = rel.uid)) := by
  obtain ⟨again, run, same⟩ := delivered.run clean
  have apart := delivered.subjects_apart clean
  obtain ⟨keyed, _⟩ := held_rid (run.kept.told apart) run.kept.sound held
  refine ⟨keyed, ?_⟩
  rw [run.kept.on_edge apart held, Brought, keyed, delivered.attestation_stands clean, ← same,
    ← or_assoc]
  rw [carried_union]

/-- The layer is told by what was given. -/
theorem holds (delivered : Delivered given s) (clean : Clean given) :
    s.interp.Holds given := by
  obtain ⟨again, run, _⟩ := delivered.run clean
  have fold := Interpretive.holds_fold s.records
  have layer := run.kept.folded
  have same : ∀ {α : Type} (mk : α → Record), (∀ x r', r'.written = (mk x).written → r' = mk x) →
      recorded mk s.records = recorded mk given := by
    intro α mk stays
    ext x
    refine ⟨delivered.from_given, fun mem => ?_⟩
    obtain ⟨r', kept, written⟩ := delivered.stands clean mem
    rw [stays x r' written] at kept
    exact kept
  have threads := layer.part Interpretive.threads fun _ => rfl
  have views := layer.part Interpretive.views fun _ => rfl
  have withdrawals := layer.part Interpretive.withdrawals fun _ => rfl
  have resolutions := layer.part Interpretive.resolutions fun _ => rfl
  have contentions := layer.part Interpretive.contentions fun _ => rfl
  refine ⟨?_, ⟨fun k v found => ?_, fun v mem => ?_⟩, ?_, ?_, ?_⟩
  · rw [threads, ← same .thread (fun x r' written => by cases r' <;> cases written; rfl)]
    exact fold.threads
  · rw [views] at found
    exact (fold.views.held k v found).imp delivered.from_given id
  · obtain ⟨r', kept, written⟩ := delivered.stands clean mem
    cases r' with
    | view v' =>
      have id' : v'.id = v.id := by
        simp only [Record.written, Record.view.injEq, View.mk.injEq] at written
        exact written.1
      rw [views, ← id']
      exact fold.views.all v' kept
    | _ => cases written
  · rw [withdrawals, ← same .withdrawal (fun x r' written => by cases r' <;> cases written; rfl)]
    exact fold.withdrawals
  · rw [resolutions, ← same .resolution (fun x r' written => by cases r' <;> cases written; rfl)]
    exact fold.resolutions
  · rw [contentions, ← same .contention (fun x r' written => by cases r' <;> cases written; rfl)]
    exact fold.contentions

end Delivered
end Store
end
end Smysl
