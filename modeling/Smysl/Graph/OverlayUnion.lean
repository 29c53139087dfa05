import Smysl.Graph.Overlay
import Smysl.Graph.Replay

/-!
An overlay as one store: the units of both sides merged, the batch folded over
the base's layer, and then every attestation that either side was waiting with
attached, as a store does with what it waits with. What it holds is what the
records of both sides say, and what the relations given for an edge carried.
-/
namespace Smysl
open ByteString

/-- The layer without its relations and without their rids. -/
def Interpretive.quiet (i : Interpretive) : Interpretive := { i with relations := ∅, rids := ∅ }

namespace Overlay
section
variable [Unicode] [Blake3]

/-- What an overlay holds, as a store. -/
def union (base batch : Store) (w : Attaching) : Store where
  records := base.records ++ batch.records
  logLen := base.logLen
  logHash := base.logHash
  logHasher := base.logHasher
  pendingAttestations := w.pending
  units := ⟨mergeUnits base.units.entries w.units.entries,
    merge_units_ascending base.units.ascending w.units.ascending⟩
  interp := w.interp
  recordHashes := base.recordHashes.extend batch.recordHashes.toList

variable (base batch : Store)

omit [Unicode] [Blake3] in
theorem union_get (w : Attaching) (uid : Uid) :
    (union base batch w).units.get uid = (w.units.get uid).or (base.units.get uid) :=
  lookup_merge_units base.units.ascending w.units.ascending uid

omit [Unicode] [Blake3] in
theorem union_insert (w : Attaching) (uid : Uid) (u : HeldUnit) :
    union base batch { w with units := w.units.insert uid u } =
      { union base batch w with units := (union base batch w).units.insert uid u } := by
  have units : (union base batch { w with units := w.units.insert uid u }).units =
      (union base batch w).units.insert uid u := by
    apply BTreeMap.ext_get
    intro k
    rw [BTreeMap.get_insert, union_get, union_get]
    dsimp only
    rw [BTreeMap.get_insert]
    split
    · rfl
    · rfl
  calc union base batch { w with units := w.units.insert uid u }
      = { union base batch w with
          units := (union base batch { w with units := w.units.insert uid u }).units } := rfl
    _ = { union base batch w with units := (union base batch w).units.insert uid u } := by
        rw [units]

omit [Unicode] [Blake3] in
/-- Attaching an attestation to an overlay is attaching it to its store. -/
theorem union_attach (w : Attaching) (a : Attestation) :
    union base batch (attach base w a) = (union base batch w).attachOrWait a := by
  rw [attach, Store.attachOrWait, Store.attach, union_get]
  cases own : w.units.get a.uid with
  | some u =>
    rw [Option.some_or]
    exact union_insert base batch w a.uid _
  | none =>
    rw [Option.none_or]
    cases held : base.units.get a.uid with
    | some b => exact union_insert base batch w a.uid _
    | none =>
      dsimp only
      have layer : (union base batch w).interp = w.interp := rfl
      rw [layer, Interpretive.attachToRelation]
      cases w.interp.rids.get a.uid with
      | none => rfl
      | some key =>
        dsimp only
        cases w.interp.relations.get key with
        | none => rfl
        | some rel => rfl

omit [Unicode] [Blake3] in
theorem union_attach_all (as : List Attestation) (w : Attaching) :
    union base batch (as.foldl (attach base) w) =
      as.foldl Store.attachOrWait (union base batch w) := by
  induction as generalizing w with
  | nil => rfl
  | cons a as ih => rw [List.foldl_cons, List.foldl_cons, ih, union_attach]

/-- A unit of the batch, merged with the base's copy where there is one. -/
def mergeOne (e : Uid × HeldUnit) : HeldUnit :=
  match base.units.get e.1 with
  | some b => { b with attestations := b.attestations.extend e.2.attestations.toList }
  | none => e.2

omit [Unicode] [Blake3] in
theorem merged_get (uid : Uid) : (merged base batch).1.get uid =
    (batch.units.get uid).map (fun u => mergeOne base (uid, u)) := by
  have general : ∀ (es : List (Uid × HeldUnit)) (state : BTreeMap Uid HeldUnit × Nat),
      (es.map Prod.fst).Nodup → (es.foldl (fun state e =>
        match base.units.get e.1 with
        | some b =>
          (state.1.insert e.1
            { b with attestations := b.attestations.extend e.2.attestations.toList }, state.2)
        | none => (state.1.insert e.1 e.2, state.2 + 1)) state).1.get uid =
      ((OrdMap.lookup uid es).map (fun u => mergeOne base (uid, u))).or (state.1.get uid) := by
    intro es
    induction es with
    | nil =>
      intro state _
      rfl
    | cons e es ih =>
      intro state distinct
      obtain ⟨fresh, distinct⟩ := List.nodup_cons.mp distinct
      have step : (match base.units.get e.1 with
          | some b =>
            (state.1.insert e.1
              { b with attestations := b.attestations.extend e.2.attestations.toList }, state.2)
          | none => (state.1.insert e.1 e.2, state.2 + 1)).1 =
          state.1.insert e.1 (mergeOne base e) := by
        rw [mergeOne]
        cases base.units.get e.1 <;> rfl
      rw [List.foldl_cons, ih _ distinct, step, BTreeMap.get_insert, OrdMap.lookup]
      by_cases here : e.1 = uid
      · have absent : OrdMap.lookup uid es = none := by
          rw [OrdMap.lookup_none_iff, ← here]
          exact fresh
        rw [absent, if_pos here.symm, if_pos here, ← here]
        rfl
      · rw [if_neg (Ne.symm here), if_neg here]
  have whole := general batch.units.entries (∅, 0)
    (OrdMap.ascending_keys_nodup batch.units.ascending)
  rw [BTreeMap.get_emptyCollection, Option.or_none] at whole
  exact whole

/-- An overlay before anything waiting is attached. -/
def gathered : Attaching := ⟨(merged base batch).1, layered base.interp batch, []⟩

theorem gathered_get (uid : Uid) : (union base batch (gathered base batch)).units.get uid =
    match batch.units.get uid with
    | some u => some (mergeOne base (uid, u))
    | none => base.units.get uid := by
  rw [union_get, gathered, merged_get]
  cases batch.units.get uid <;> rfl

/-- The records of the batch but for its relations, over the base's layer. -/
def withOthers (rs : List Record) (i : Interpretive) : Interpretive :=
  rs.foldl (fun i r =>
    match r with
    | .relation _ => i
    | r => i.absorbHot r) i

theorem with_others_edges (rs : List Record) (i : Interpretive) :
    (withOthers rs i).relations = i.relations ∧ (withOthers rs i).rids = i.rids := by
  induction rs generalizing i with
  | nil => exact ⟨rfl, rfl⟩
  | cons r rs ih =>
    have step : ∀ j : Interpretive, j.relations = i.relations → j.rids = i.rids →
        (withOthers rs j).relations = i.relations ∧ (withOthers rs j).rids = i.rids := by
      intro j relations rids
      obtain ⟨left, right⟩ := ih j
      exact ⟨left.trans relations, right.trans rids⟩
    cases r with
    | thread t =>
      apply step
      · dsimp only [Interpretive.absorbHot]
        split <;> rfl
      · dsimp only [Interpretive.absorbHot]
        split <;> rfl
    | contention c =>
      apply step
      · dsimp only [Interpretive.absorbHot]
        split <;> rfl
      · dsimp only [Interpretive.absorbHot]
        split <;> rfl
    | _ => exact step _ rfl rfl

/-- Fold the relations of a batch's store in. -/
def withRelations (es : List (RelKey × Relation)) (i : Interpretive) : Interpretive :=
  (es.map Prod.snd).foldl (fun i rel => i.absorbHot (.relation rel)) i

theorem layered_eq : layered base.interp batch =
    withRelations batch.interp.relations.entries (withOthers batch.records base.interp) := rfl

/-- A relation of the batch, joined with what the base holds for its key. -/
def joinOne (held : Option Relation) (rel : Relation) : Relation :=
  match held with
  | some existing => existing.attest rel.attestations.toList
  | none => rel

theorem with_relations_get {es : List (RelKey × Relation)} (keyed : ∀ e ∈ es, relKey e.2 = e.1)
    (distinct : (es.map Prod.fst).Nodup) (i : Interpretive) (key : RelKey) :
    (withRelations es i).relations.get key =
      ((OrdMap.lookup key es).map (joinOne (i.relations.get key))).or (i.relations.get key) := by
  induction es generalizing i with
  | nil => rfl
  | cons e es ih =>
    obtain ⟨fresh, distinct⟩ := List.nodup_cons.mp distinct
    have here' := keyed e List.mem_cons_self
    have rest := ih (fun x mem => keyed x (List.mem_cons_of_mem _ mem)) distinct
      (i.absorbHot (.relation e.2))
    have step : (i.absorbHot (.relation e.2)).relations.get key =
        if key = e.1 then some (joinOne (i.relations.get key) e.2) else i.relations.get key := by
      dsimp only [Interpretive.absorbHot]
      rw [BTreeMap.get_alter, here']
      split
      · rename_i same
        rw [same]
        cases i.relations.get e.1 <;> rfl
      · rfl
    have whole : withRelations (e :: es) i = withRelations es (i.absorbHot (.relation e.2)) := rfl
    rw [whole, rest, step, OrdMap.lookup]
    by_cases here : e.1 = key
    · have absent : OrdMap.lookup key es = none := by
        rw [OrdMap.lookup_none_iff, ← here]
        exact fresh
      rw [absent, if_pos here.symm, if_pos here]
      rfl
    · rw [if_neg (Ne.symm here), if_neg here]

/-- A rid is the base's, or a relation of the batch has it. -/
theorem with_relations_rids {es : List (RelKey × Relation)} (keyed : ∀ e ∈ es, relKey e.2 = e.1)
    (i : Interpretive) (uid : Uid) :
    ((withRelations es i).rids.get uid = i.rids.get uid ∧ ∀ e ∈ es, e.2.uid ≠ uid) ∨
      ∃ e ∈ es, e.2.uid = uid ∧ (withRelations es i).rids.get uid = some e.1 := by
  induction es generalizing i with
  | nil => exact Or.inl ⟨rfl, fun e mem => (nomatch mem)⟩
  | cons e es ih =>
    have whole : withRelations (e :: es) i = withRelations es (i.absorbHot (.relation e.2)) := rfl
    have step : (i.absorbHot (.relation e.2)).rids.get uid =
        if uid = e.2.uid then some e.1 else i.rids.get uid := by
      dsimp only [Interpretive.absorbHot]
      rw [BTreeMap.get_insert, keyed e List.mem_cons_self]
      by_cases here : uid = e.2.uid
      · rw [if_pos here, if_pos here]
      · rw [if_neg here, if_neg here]
    rw [whole]
    rcases ih (fun x mem => keyed x (List.mem_cons_of_mem _ mem)) (i.absorbHot (.relation e.2)) with
      ⟨same, apart⟩ | ⟨x, mem, here, named⟩
    · rw [step] at same
      by_cases here : uid = e.2.uid
      · rw [if_pos here] at same
        exact Or.inr ⟨e, List.mem_cons_self, here.symm, same⟩
      · rw [if_neg here] at same
        refine Or.inl ⟨same, fun x mem => ?_⟩
        rcases List.mem_cons.mp mem with first | mem
        · rw [first]
          exact fun same' => here same'.symm
        · exact apart x mem
    · exact Or.inr ⟨x, List.mem_cons_of_mem _ mem, here, named⟩

theorem quiet_absorb {i j : Interpretive} (same : i.quiet = j.quiet) (r : Record) :
    (i.absorbHot r).quiet = (j.absorbHot r).quiet := by
  have here : ∀ i : Interpretive, (i.absorbHot r).quiet = (i.quiet.absorbHot r).quiet := by
    intro i
    cases r with
    | thread t =>
      dsimp only [Interpretive.absorbHot, Interpretive.quiet]
      split <;> rfl
    | contention c =>
      dsimp only [Interpretive.absorbHot, Interpretive.quiet]
      split <;> rfl
    | _ => rfl
  rw [here, same, ← here]

theorem quiet_fold (rs : List Record) {i j : Interpretive} (same : i.quiet = j.quiet) :
    (rs.foldl Interpretive.absorbHot i).quiet = (rs.foldl Interpretive.absorbHot j).quiet := by
  induction rs generalizing i j with
  | nil => exact same
  | cons r rs ih => exact ih (quiet_absorb same r)

/-- Relations touch nothing else of the layer, so leaving them for later does not
show there. -/
theorem with_others_quiet (rs : List Record) (i : Interpretive) :
    (withOthers rs i).quiet = (rs.foldl Interpretive.absorbHot i).quiet := by
  induction rs generalizing i with
  | nil => rfl
  | cons r rs ih =>
    cases r with
    | relation rel =>
      have skip : withOthers (.relation rel :: rs) i = withOthers rs i := rfl
      rw [skip, ih, List.foldl_cons]
      exact quiet_fold rs rfl
    | _ => exact ih _

theorem with_relations_quiet (es : List (RelKey × Relation)) (i : Interpretive) :
    (withRelations es i).quiet = i.quiet := by
  induction es generalizing i with
  | nil => rfl
  | cons e es ih => exact (ih (i.absorbHot (.relation e.2))).trans rfl

/-- A relation that is held is under its own key, which a record has. -/
theorem edge_recorded {s : Store} (sound : s.Sound) {key : RelKey} {rel : Relation}
    (held : s.interp.relations.get key = some rel) :
    relKey rel = key ∧ ∃ first, .relation first ∈ s.records ∧ relKey first = key := by
  have edge := sound.edges key
  rw [held] at edge
  obtain ⟨first, found, same⟩ := Option.map_eq_some_iff.mp edge.symm
  obtain ⟨named, recorded⟩ := Store.first_relation_some found
  have keys : relKey rel = relKey first :=
    show relKey rel.bare = relKey first.bare by rw [same]
  exact ⟨keys.trans named, first, recorded, named⟩

/-- A relation that is recorded is held under its key. -/
theorem recorded_edge {s : Store} (sound : s.Sound) {rel : Relation}
    (recorded : .relation rel ∈ s.records) :
    ∃ r, s.interp.relations.get (relKey rel) = some r := by
  have first := Store.first_relation_of_mem recorded
  rw [← Option.isSome_map, ← sound.edges, Option.isSome_map] at first
  exact Option.isSome_iff_exists.mp first

section
variable {base batch}

theorem gathered_edge (sound : batch.Sound) (key : RelKey) :
    (union base batch (gathered base batch)).interp.relations.get key =
      match batch.interp.relations.get key with
      | some rel => some (joinOne (base.interp.relations.get key) rel)
      | none => base.interp.relations.get key := by
  have keyed : ∀ e ∈ batch.interp.relations.entries, relKey e.2 = e.1 := by
    intro e mem
    exact (edge_recorded sound ((BTreeMap.mem_entries_iff _ e.1 e.2).mp mem)).1
  have folded := with_relations_get keyed
    (OrdMap.ascending_keys_nodup batch.interp.relations.ascending)
    (withOthers batch.records base.interp) key
  rw [(with_others_edges batch.records base.interp).1] at folded
  have layer : (union base batch (gathered base batch)).interp = layered base.interp batch := rfl
  rw [layer, layered_eq, folded]
  have looked : OrdMap.lookup key batch.interp.relations.entries =
      batch.interp.relations.get key := rfl
  rw [looked]
  cases batch.interp.relations.get key <;> rfl

/-- A rid is that of a recorded relation. -/
theorem gathered_rids {before : Set Relation}
    (left : Store.Told before base.records [] base) (sound : batch.Sound)
    (apart : SubjectsApart (base.records ++ batch.records)) (uid : Uid) (key : RelKey) :
    (union base batch (gathered base batch)).interp.rids.get uid = some key ↔
      ∃ rel, .relation rel ∈ base.records ++ batch.records ∧ rel.uid = uid ∧ relKey rel = key := by
  have keyed : ∀ e ∈ batch.interp.relations.entries, relKey e.2 = e.1 := by
    intro e mem
    exact (edge_recorded sound ((BTreeMap.mem_entries_iff _ e.1 e.2).mp mem)).1
  have layer : (union base batch (gathered base batch)).interp = layered base.interp batch := rfl
  rw [layer, layered_eq]
  have folded := with_relations_rids keyed (withOthers batch.records base.interp) uid
  rw [(with_others_edges batch.records base.interp).2] at folded
  rcases folded with ⟨same, none'⟩ | ⟨e, mem, here, named⟩
  · rw [same]
    constructor
    · intro held
      obtain ⟨rel, recorded, names⟩ := left.named uid key held
      exact ⟨rel, List.mem_append_left _ recorded, names⟩
    · intro ⟨rel, recorded, here, keys⟩
      rcases List.mem_append.mp recorded with old | new'
      · rw [← here, ← keys]
        exact left.rids rel old
      · obtain ⟨r, held⟩ := recorded_edge sound new'
        have same' := (edge_recorded sound held).1
        have absent := none' (relKey rel, r) ((BTreeMap.mem_entries_iff _ _ _).mpr held)
        exact absurd ((uid_of_key same').trans here) absent
  · rw [named]
    obtain ⟨own, first, recorded, keys⟩ :=
      edge_recorded sound ((BTreeMap.mem_entries_iff _ e.1 e.2).mp mem)
    have firstUid : first.uid = uid := (uid_of_key (keys.trans own.symm)).trans here
    constructor
    · intro same
      cases same
      exact ⟨first, List.mem_append_right _ recorded, firstUid, keys⟩
    · intro ⟨rel, recorded', here', keys'⟩
      rw [← keys, ← keys']
      exact congrArg some (apart.edges first rel (List.mem_append_right _ recorded) recorded'
        (firstUid.trans here'.symm))

theorem gathered_unit_bears {uid : Uid} {w : HeldUnit}
    (held : (union base batch (gathered base batch)).units.get uid = some w) (a : Attestation) :
    a ∈ w.attestations ↔ (∃ b, base.units.get uid = some b ∧ a ∈ b.attestations) ∨
      ∃ u, batch.units.get uid = some u ∧ a ∈ u.attestations := by
  rw [gathered_get] at held
  cases new' : batch.units.get uid with
  | none =>
    rw [new'] at held
    dsimp only at held
    rw [held]
    simp
  | some u =>
    rw [new'] at held
    cases held
    dsimp only [mergeOne]
    cases old : base.units.get uid with
    | none => simp
    | some b =>
      simp only [BTreeSet.mem_extend, BTreeSet.mem_toList, Option.some.injEq, exists_eq_left']
      exact or_comm

theorem gathered_edge_bears (sound : batch.Sound) {key : RelKey} {rel : Relation}
    (held : (union base batch (gathered base batch)).interp.relations.get key = some rel)
    (a : Attestation) :
    a ∈ rel.attestations ↔
      (∃ b, base.interp.relations.get key = some b ∧ a ∈ b.attestations) ∨
      ∃ r, batch.interp.relations.get key = some r ∧ a ∈ r.attestations := by
  rw [gathered_edge sound] at held
  cases new' : batch.interp.relations.get key with
  | none =>
    rw [new'] at held
    dsimp only at held
    rw [held]
    simp
  | some r =>
    rw [new'] at held
    cases held
    dsimp only [joinOne]
    cases old : base.interp.relations.get key with
    | none => simp
    | some b =>
      simp only [Relation.attest, BTreeSet.mem_extend, BTreeSet.mem_toList, Option.some.injEq,
        exists_eq_left']
      exact or_comm

theorem gathered_unit_held (uid : Uid) :
    (∃ w, (union base batch (gathered base batch)).units.get uid = some w) ↔
      (∃ b, base.units.get uid = some b) ∨ ∃ u, batch.units.get uid = some u := by
  rw [gathered_get]
  cases batch.units.get uid <;> simp

theorem gathered_edge_held (sound : batch.Sound) (key : RelKey) :
    (∃ w, (union base batch (gathered base batch)).interp.relations.get key = some w) ↔
      (∃ b, base.interp.relations.get key = some b) ∨
        ∃ r, batch.interp.relations.get key = some r := by
  rw [gathered_edge sound]
  cases batch.interp.relations.get key <;> simp

/-- What an overlay holds before anything waiting is attached is told by both
sides, and what they were waiting with is due. -/
theorem gathered_told {before given : Set Relation}
    (left : Store.Told before base.records [] base)
    (right : Store.Told given batch.records [] batch) (sound : batch.Sound)
    (apart : SubjectsApart (base.records ++ batch.records)) :
    Store.Told (before ∪ given) (base.records ++ batch.records)
      (batch.pendingAttestations ++ base.pendingAttestations)
      (union base batch (gathered base batch)) := by
  have rids := gathered_rids left sound apart
  have old : ∀ uid key, base.interp.rids.get uid = some key →
      (union base batch (gathered base batch)).interp.rids.get uid = some key := by
    intro uid key held
    obtain ⟨rel, recorded, names⟩ := left.named uid key held
    exact (rids uid key).mpr ⟨rel, List.mem_append_left _ recorded, names⟩
  have new' : ∀ uid key, batch.interp.rids.get uid = some key →
      (union base batch (gathered base batch)).interp.rids.get uid = some key := by
    intro uid key held
    obtain ⟨rel, recorded, names⟩ := right.named uid key held
    exact (rids uid key).mpr ⟨rel, List.mem_append_right _ recorded, names⟩
  constructor
  · intro uid w held a on
    rcases (gathered_unit_bears held a).mp on with ⟨b, found, on⟩ | ⟨u, found, on⟩
    · exact (left.units uid b found a on).imp (List.mem_append_left _) id
    · exact (right.units uid u found a on).imp (List.mem_append_right _) id
  · intro key rel held a on
    rcases (gathered_edge_bears sound held a).mp on with ⟨b, found, on⟩ | ⟨r, found, on⟩
    · rcases left.edges key b found a on with carries | ⟨mem, rid⟩
      · exact Or.inl (carried_union.mpr (Or.inl carries))
      · exact Or.inr ⟨List.mem_append_left _ mem, old _ _ rid⟩
    · rcases right.edges key r found a on with carries | ⟨mem, rid⟩
      · exact Or.inl (carried_union.mpr (Or.inr carries))
      · exact Or.inr ⟨List.mem_append_right _ mem, new' _ _ rid⟩
  · intro key rel held a carries
    apply (gathered_edge_bears sound held a).mpr
    rcases carried_union.mp carries with carries | carries
    · have covered : base.interp.relations.contains key = true := by
        obtain ⟨x, mem, here, _⟩ := carries
        rw [← here]
        exact left.covered x mem
      obtain ⟨b, found⟩ := (BTreeMap.contains_iff _ _).mp covered
      exact Or.inl ⟨b, found, left.carried key b found a carries⟩
    · have covered : batch.interp.relations.contains key = true := by
        obtain ⟨x, mem, here, _⟩ := carries
        rw [← here]
        exact right.covered x mem
      obtain ⟨r, found⟩ := (BTreeMap.contains_iff _ _).mp covered
      exact Or.inr ⟨r, found, right.carried key r found a carries⟩
  · intro rel mem
    apply (BTreeMap.contains_iff _ _).mpr
    apply (gathered_edge_held sound _).mpr
    rcases mem with mem | mem
    · exact Or.inl ((BTreeMap.contains_iff _ _).mp (left.covered rel mem))
    · exact Or.inr ((BTreeMap.contains_iff _ _).mp (right.covered rel mem))
  · intro rel mem
    exact (rids rel.uid (relKey rel)).mpr ⟨rel, mem, rfl, rfl⟩
  · intro uid key held
    exact (rids uid key).mp held
  · intro a mem
    have bears : base.Bears a ∨ batch.Bears a →
        (union base batch (gathered base batch)).Bears a := by
      intro either
      rcases either with (⟨b, found, on⟩ | ⟨key, b, rid, found, on⟩) |
        (⟨u, found, on⟩ | ⟨key, r, rid, found, on⟩)
      · obtain ⟨w, held⟩ := (gathered_unit_held a.uid).mpr (Or.inl ⟨b, found⟩)
        exact Or.inl ⟨w, held, (gathered_unit_bears held a).mpr (Or.inl ⟨b, found, on⟩)⟩
      · obtain ⟨w, held⟩ := (gathered_edge_held sound key).mpr (Or.inl ⟨b, found⟩)
        exact Or.inr ⟨key, w, old _ _ rid, held,
          (gathered_edge_bears sound held a).mpr (Or.inl ⟨b, found, on⟩)⟩
      · obtain ⟨w, held⟩ := (gathered_unit_held a.uid).mpr (Or.inr ⟨u, found⟩)
        exact Or.inl ⟨w, held, (gathered_unit_bears held a).mpr (Or.inr ⟨u, found, on⟩)⟩
      · obtain ⟨w, held⟩ := (gathered_edge_held sound key).mpr (Or.inr ⟨r, found⟩)
        exact Or.inr ⟨key, w, new' _ _ rid, held,
          (gathered_edge_bears sound held a).mpr (Or.inr ⟨r, found, on⟩)⟩
    rcases List.mem_append.mp mem with mem | mem
    · rcases left.placed a mem with due | waits | found
      · cases due
      · exact Or.inl (List.mem_append_right _ waits)
      · exact Or.inr (Or.inr (bears (Or.inl found)))
    · rcases right.placed a mem with due | waits | found
      · cases due
      · exact Or.inl (List.mem_append_left _ waits)
      · exact Or.inr (Or.inr (bears (Or.inr found)))
  · intro a mem
    rcases mem with due | waits
    · rcases List.mem_append.mp due with due | due
      · exact List.mem_append_right _ (right.waiting a (Or.inr due))
      · exact List.mem_append_left _ (left.waiting a (Or.inr due))
    · cases waits

/-- The units and relations it holds are the first of their records. -/
theorem gathered_sound (left : base.Sound) (right : batch.Sound) :
    (union base batch (gathered base batch)).Sound where
  cores uid := by
    have records : (union base batch (gathered base batch)).records =
        base.records ++ batch.records := rfl
    rw [records, Store.first_unit_append, ← left.cores, ← right.cores, gathered_get]
    cases batch.units.get uid with
    | none => simp
    | some u =>
      dsimp only [mergeOne]
      cases base.units.get uid <;> rfl
  edges key := by
    have records : (union base batch (gathered base batch)).records =
        base.records ++ batch.records := rfl
    have appended : (Store.firstRelation key (base.records ++ batch.records)).map Relation.bare =
        ((Store.firstRelation key base.records).map Relation.bare).or
          ((Store.firstRelation key batch.records).map Relation.bare) := by
      rw [Store.first_relation_append]
      cases Store.firstRelation key base.records <;> simp
    rw [records, appended, ← left.edges, ← right.edges, gathered_edge right]
    cases batch.interp.relations.get key with
    | none => simp
    | some rel =>
      cases base.interp.relations.get key <;> rfl

end

end
end Overlay
end Smysl
