import Smysl.Graph.Sound

/-!
Who attested what. An attestation reaches a unit or an edge as a record of its
own, at once or after waiting for what it names; an edge also gets the
attestations that the relations given for it carried in memory.
-/
namespace Smysl
open ByteString

section
variable [Blake3]

/-- The uids hashed from these records name one unit or one edge each. -/
structure SubjectsApart [Unicode] (records : List Record) : Prop where
  units : ∀ core rel, .unit core ∈ records → .relation rel ∈ records → canonicalUid core ≠ rel.uid
  edges : ∀ rel rel', .relation rel ∈ records → .relation rel' ∈ records → rel.uid = rel'.uid →
    relKey rel = relKey rel'

theorem SubjectsApart.mono [Unicode] {rs ts : List Record} (apart : SubjectsApart ts)
    (part : ∀ r ∈ rs, r ∈ ts) : SubjectsApart rs where
  units core rel unit edge := apart.units core rel (part _ unit) (part _ edge)
  edges rel rel' left right := apart.edges rel rel' (part _ left) (part _ right)

/-- The rid of a relation depends on its key alone. -/
theorem uid_of_key {r r' : Relation} (same : relKey r = relKey r') : r.uid = r'.uid := by
  simp only [relKey, EmbeddingLike.apply_eq_iff_eq, Prod.mk.injEq] at same
  obtain ⟨kind, src, dst⟩ := same
  rw [Relation.uid, Relation.uid, Relation.identity, Relation.identity, kind, src, dst]

/-- A relation given for the key carried the attestation. -/
def Carried (given : Set Relation) (key : RelKey) (a : Attestation) : Prop :=
  ∃ rel ∈ given, relKey rel = key ∧ a ∈ rel.attestations

omit [Blake3] in
theorem carried_insert {given : Set Relation} {rel : Relation} {key : RelKey} {a : Attestation} :
    Carried (insert rel given) key a ↔
      (relKey rel = key ∧ a ∈ rel.attestations) ∨ Carried given key a := by
  constructor
  · rintro ⟨r, rfl | mem, same, on⟩
    · exact Or.inl ⟨same, on⟩
    · exact Or.inr ⟨r, mem, same, on⟩
  · rintro (⟨same, on⟩ | ⟨r, mem, same, on⟩)
    · exact ⟨rel, Or.inl rfl, same, on⟩
    · exact ⟨r, Or.inr mem, same, on⟩

omit [Blake3] in
theorem carried_union {some others : Set Relation} {key : RelKey} {a : Attestation} :
    Carried (some ∪ others) key a ↔ Carried some key a ∨ Carried others key a := by
  constructor
  · rintro ⟨r, mem | mem, on⟩
    · exact Or.inl ⟨r, mem, on⟩
    · exact Or.inr ⟨r, mem, on⟩
  · rintro (⟨r, mem, on⟩ | ⟨r, mem, on⟩)
    · exact ⟨r, Or.inl mem, on⟩
    · exact ⟨r, Or.inr mem, on⟩

namespace Store

/-- What the store holds under the uid an attestation names bears it. -/
def Bears (s : Store) (a : Attestation) : Prop :=
  (∃ u, s.units.get a.uid = some u ∧ a ∈ u.attestations) ∨
    ∃ key rel, s.interp.rids.get a.uid = some key ∧ s.interp.relations.get key = some rel ∧
      a ∈ rel.attestations

/-- The attestations held are the ones told: by the records of `log`, less those
in `due`, and by the relations `given`. -/
structure Told (given : Set Relation) (log : List Record) (due : List Attestation) (s : Store) :
    Prop where
  units : ∀ uid u, s.units.get uid = some u → ∀ a ∈ u.attestations,
    .attestation a ∈ log ∧ a.uid = uid
  edges : ∀ key rel, s.interp.relations.get key = some rel → ∀ a ∈ rel.attestations,
    Carried given key a ∨ (.attestation a ∈ log ∧ s.interp.rids.get a.uid = some key)
  carried : ∀ key rel, s.interp.relations.get key = some rel → ∀ a, Carried given key a →
    a ∈ rel.attestations
  covered : ∀ rel ∈ given, s.interp.relations.contains (relKey rel) = true
  rids : ∀ rel, .relation rel ∈ log → s.interp.rids.get rel.uid = some (relKey rel)
  named : ∀ uid key, s.interp.rids.get uid = some key →
    ∃ rel, .relation rel ∈ log ∧ rel.uid = uid ∧ relKey rel = key
  placed : ∀ a, .attestation a ∈ log → a ∈ due ∨ a ∈ s.pendingAttestations ∨ s.Bears a
  waiting : ∀ a, a ∈ due ∨ a ∈ s.pendingAttestations → .attestation a ∈ log

namespace Told

variable {given : Set Relation} {log : List Record} {due : List Attestation} {s : Store}

/-- A record that is neither an attestation nor a relation tells nothing. -/
theorem silent {r : Record} (told : Told given log due s)
    (attestation : ∀ a, r ≠ .attestation a) (relation : ∀ rel, r ≠ .relation rel) :
    Told given (log ++ [r]) due s where
  units uid u held a on := (told.units uid u held a on).imp (List.mem_append_left _) id
  edges key rel held a on :=
    (told.edges key rel held a on).imp id (And.imp (List.mem_append_left _) id)
  carried := told.carried
  covered := told.covered
  rids rel mem := by
    rcases List.mem_append.mp mem with mem | mem
    · exact told.rids rel mem
    · exact absurd (List.mem_singleton.mp mem).symm (relation rel)
  named uid key held := by
    obtain ⟨rel, mem, named⟩ := told.named uid key held
    exact ⟨rel, List.mem_append_left _ mem, named⟩
  placed a mem := by
    rcases List.mem_append.mp mem with mem | mem
    · exact told.placed a mem
    · exact absurd (List.mem_singleton.mp mem).symm (attestation a)
  waiting a mem := List.mem_append_left _ (told.waiting a mem)

/-- An attestation that has just been read is due. -/
theorem read (told : Told given log due s) (a : Attestation) :
    Told given (log ++ [.attestation a]) (a :: due) s where
  units uid u held b on := (told.units uid u held b on).imp (List.mem_append_left _) id
  edges key rel held b on :=
    (told.edges key rel held b on).imp id (And.imp (List.mem_append_left _) id)
  carried := told.carried
  covered := told.covered
  rids rel mem := told.rids rel (by simpa using mem)
  named uid key held := by
    obtain ⟨rel, mem, named⟩ := told.named uid key held
    exact ⟨rel, List.mem_append_left _ mem, named⟩
  placed b mem := by
    rcases List.mem_append.mp mem with mem | mem
    · exact (told.placed b mem).imp (List.mem_cons_of_mem _) id
    · cases List.mem_singleton.mp mem
      exact Or.inl List.mem_cons_self
  waiting b mem := by
    rcases mem with mem | mem
    · rcases List.mem_cons.mp mem with rfl | mem
      · exact List.mem_append_right _ (List.mem_singleton.mpr rfl)
      · exact List.mem_append_left _ (told.waiting b (Or.inl mem))
    · exact List.mem_append_left _ (told.waiting b (Or.inr mem))

/-- The attestation that was due has found its unit. -/
theorem on_unit {a : Attestation} (told : Told given log (a :: due) s) {u : HeldUnit}
    (held : s.units.get a.uid = some u) :
    Told given log due { s with
      units := s.units.insert a.uid { u with attestations := u.attestations.insert a } } where
  units uid v found b on := by
    rw [BTreeMap.get_insert] at found
    split at found
    · rename_i here
      cases found
      rcases (BTreeSet.mem_insert _ _ _).mp on with rfl | on
      · exact ⟨told.waiting b (Or.inl List.mem_cons_self), here.symm⟩
      · rw [here]
        exact told.units a.uid u held b on
    · exact told.units uid v found b on
  edges := told.edges
  carried := told.carried
  covered := told.covered
  rids := told.rids
  named := told.named
  placed b mem := by
    have here : (s.units.insert a.uid { u with attestations := u.attestations.insert a }).get a.uid =
        some { u with attestations := u.attestations.insert a } := by
      rw [BTreeMap.get_insert, if_pos rfl]
    rcases told.placed b mem with mem | mem | ⟨v, found, on⟩ | edge
    · rcases List.mem_cons.mp mem with rfl | mem
      · exact Or.inr (Or.inr (Or.inl ⟨_, here, (BTreeSet.mem_insert _ _ _).mpr (Or.inl rfl)⟩))
      · exact Or.inl mem
    · exact Or.inr (Or.inl mem)
    · refine Or.inr (Or.inr (Or.inl ?_))
      by_cases same : b.uid = a.uid
      · rw [same, held] at found
        cases found
        rw [same]
        exact ⟨_, here, (BTreeSet.mem_insert _ _ _).mpr (Or.inr on)⟩
      · refine ⟨v, ?_, on⟩
        dsimp only
        rw [BTreeMap.get_insert, if_neg same]
        exact found
    · exact Or.inr (Or.inr (Or.inr edge))
  waiting b mem := told.waiting b (mem.imp (List.mem_cons_of_mem _) id)

/-- The attestation that was due has found its edge. -/
theorem on_edge {a : Attestation} (told : Told given log (a :: due) s) {key : RelKey}
    {rel : Relation} (rid : s.interp.rids.get a.uid = some key)
    (held : s.interp.relations.get key = some rel) :
    Told given log due { s with interp := { s.interp with
      relations := s.interp.relations.insert key
        { rel with attestations := rel.attestations.insert a } } } where
  units := told.units
  edges k r found b on := by
    dsimp only at found
    rw [BTreeMap.get_insert] at found
    split at found
    · rename_i here
      cases found
      rw [here]
      rcases (BTreeSet.mem_insert _ _ _).mp on with rfl | on
      · exact Or.inr ⟨told.waiting b (Or.inl List.mem_cons_self), rid⟩
      · exact told.edges key rel held b on
    · exact told.edges k r found b on
  carried k r found b carries := by
    dsimp only at found
    rw [BTreeMap.get_insert] at found
    split at found
    · rename_i here
      cases found
      rw [here] at carries
      exact (BTreeSet.mem_insert _ _ _).mpr (Or.inr (told.carried key rel held b carries))
    · exact told.carried k r found b carries
  covered r mem := by
    have before := told.covered r mem
    rw [BTreeMap.contains] at before ⊢
    rw [BTreeMap.get_insert]
    split
    · rfl
    · exact before
  rids := told.rids
  named := told.named
  placed b mem := by
    rcases told.placed b mem with mem | mem | unit | ⟨k, r, ridOf, found, on⟩
    · rcases List.mem_cons.mp mem with rfl | mem
      · refine Or.inr (Or.inr (Or.inr
          ⟨key, { rel with attestations := rel.attestations.insert b }, rid, ?_, ?_⟩))
        · dsimp only
          rw [BTreeMap.get_insert, if_pos rfl]
        · exact (BTreeSet.mem_insert _ _ _).mpr (Or.inl rfl)
      · exact Or.inl mem
    · exact Or.inr (Or.inl mem)
    · exact Or.inr (Or.inr (Or.inl unit))
    · refine Or.inr (Or.inr (Or.inr ⟨k, ?_⟩))
      dsimp only
      rw [BTreeMap.get_insert]
      split
      · rename_i here
        rw [here, held] at found
        cases found
        exact ⟨_, ridOf, rfl, (BTreeSet.mem_insert _ _ _).mpr (Or.inr on)⟩
      · exact ⟨r, ridOf, found, on⟩
  waiting b mem := told.waiting b (mem.imp (List.mem_cons_of_mem _) id)

/-- Attached or kept waiting, the attestation is no longer due. -/
theorem attach_or_wait {a : Attestation} (told : Told given log (a :: due) s) :
    Told given log due (s.attachOrWait a) := by
  rw [attachOrWait]
  split
  · rename_i t attached
    rw [attach] at attached
    split at attached
    · rename_i u held
      cases attached
      exact told.on_unit held
    · split at attached
      · rename_i key rid
        split at attached
        · rename_i rel held
          cases attached
          exact told.on_edge rid held
        · cases attached
      · cases attached
  · refine ⟨told.units, told.edges, told.carried, told.covered, told.rids, told.named,
      fun b mem => ?_, fun b mem => ?_⟩
    · rcases told.placed b mem with mem | mem | bears
      · rcases List.mem_cons.mp mem with rfl | mem
        · exact Or.inr (Or.inl (List.mem_append_right _ (List.mem_singleton.mpr rfl)))
        · exact Or.inl mem
      · exact Or.inr (Or.inl (List.mem_append_left _ mem))
      · exact Or.inr (Or.inr bears)
    · rcases mem with mem | mem
      · exact told.waiting b (Or.inl (List.mem_cons_of_mem _ mem))
      · rcases List.mem_append.mp mem with mem | mem
        · exact told.waiting b (Or.inr mem)
        · cases List.mem_singleton.mp mem
          exact told.waiting _ (Or.inl List.mem_cons_self)

theorem attach_all {as : List Attestation} (told : Told given log as s) :
    Told given log [] (as.foldl attachOrWait s) := by
  induction as generalizing s with
  | nil => exact told
  | cons a as ih => exact ih told.attach_or_wait

/-- Retrying what waits changes nothing of what has been told. -/
theorem rebuild (told : Told given log [] s) : Told given log [] s.rebuildAdjacency :=
  attach_all ⟨told.units, told.edges, told.carried, told.covered, told.rids, told.named,
    fun a mem => by
      rcases told.placed a mem with mem | mem | bears
      · cases mem
      · exact Or.inl mem
      · exact Or.inr (Or.inr bears),
    fun a mem => by
      rcases mem with mem | mem
      · exact told.waiting a (Or.inr mem)
      · cases mem⟩

theorem unit [Unicode] (told : Told given log due s) (core : UnitCore) :
    Told given (log ++ [.unit core]) due
      { s with units := s.units.orInsert (canonicalUid core) { core } } := by
  have told := @silent _ _ _ _ _ (.unit core) told (by simp) (by simp)
  refine ⟨fun uid u found a on => ?_, told.edges, told.carried, told.covered, told.rids,
    told.named, fun a mem => ?_, told.waiting⟩
  · dsimp only at found
    rw [BTreeMap.get_orInsert] at found
    split at found
    · rename_i here
      cases before : s.units.get (canonicalUid core) with
      | some v =>
        rw [before] at found
        cases found
        rw [here]
        exact told.units _ _ before a on
      | none =>
        rw [before] at found
        cases found
        exact absurd on (BTreeSet.not_mem_emptyCollection a)
    · exact told.units uid u found a on
  · refine (told.placed a mem).imp id (Or.imp id (Or.imp ?_ id))
    rintro ⟨u, held, on⟩
    refine ⟨u, ?_, on⟩
    dsimp only
    rw [BTreeMap.get_orInsert]
    split
    · rename_i here
      rw [← here, held]
      rfl
    · exact held

/-- The relation held under a key takes on the attestations of one given for it. -/
theorem join (told : Told given log due s) (rel joined : Relation)
    (relations : BTreeMap RelKey Relation) (here : relations.get (relKey rel) = some joined)
    (off : ∀ key, key ≠ relKey rel → relations.get key = s.interp.relations.get key)
    (on : ∀ a, a ∈ joined.attestations ↔ a ∈ rel.attestations ∨
      ∃ old, s.interp.relations.get (relKey rel) = some old ∧ a ∈ old.attestations) :
    Told (insert rel given) log due { s with interp := { s.interp with relations } } where
  units := told.units
  edges key r found a mem := by
    rw [carried_insert]
    by_cases same : key = relKey rel
    · subst same
      cases here.symm.trans found
      rcases (on a).mp mem with mem | ⟨old, held, mem⟩
      · exact Or.inl (Or.inl ⟨rfl, mem⟩)
      · exact (told.edges _ old held a mem).imp Or.inr id
    · exact (told.edges key r ((off key same).symm.trans found) a mem).imp Or.inr id
  carried key r found a carries := by
    by_cases same : key = relKey rel
    · subst same
      cases here.symm.trans found
      rw [on]
      rcases carried_insert.mp carries with ⟨_, mem⟩ | before
      · exact Or.inl mem
      · have ⟨r, mem, same, _⟩ := before
        have held := told.covered r mem
        rw [same, BTreeMap.contains_iff] at held
        obtain ⟨old, held⟩ := held
        exact Or.inr ⟨old, held, told.carried _ old held a before⟩
    · rcases carried_insert.mp carries with ⟨keyed, _⟩ | before
      · exact absurd keyed.symm same
      · exact told.carried key r ((off key same).symm.trans found) a before
  covered r mem := by
    rw [BTreeMap.contains_iff]
    by_cases same : relKey r = relKey rel
    · rw [same]
      exact ⟨joined, here⟩
    · rcases mem with rfl | mem
      · exact absurd rfl same
      · obtain ⟨old, held⟩ := (BTreeMap.contains_iff _ _).mp (told.covered r mem)
        exact ⟨old, (off _ same).trans held⟩
  rids := told.rids
  named := told.named
  placed a mem := by
    refine (told.placed a mem).imp id (Or.imp id (Or.imp id ?_))
    rintro ⟨key, r, rid, held, borne⟩
    by_cases same : key = relKey rel
    · subst same
      exact ⟨_, joined, rid, here, (on a).mpr (Or.inr ⟨r, held, borne⟩)⟩
    · exact ⟨key, r, rid, (off key same).trans held, borne⟩
  waiting := told.waiting

/-- A relation is entered under its rid. -/
theorem enter [Unicode] {rel : Relation} (told : Told given log due s)
    (apart : SubjectsApart (log ++ [.relation rel])) :
    Told given (log ++ [.relation rel]) due
      { s with interp := { s.interp with rids := s.interp.rids.insert rel.uid (relKey rel) } } := by
  have rel_mem : .relation rel ∈ log ++ [.relation rel] :=
    List.mem_append_right _ (List.mem_singleton.mpr rfl)
  -- an rid that was entered before stands for the same key
  have stays : ∀ uid key, s.interp.rids.get uid = some key →
      (s.interp.rids.insert rel.uid (relKey rel)).get uid = some key := by
    intro uid key held
    rw [BTreeMap.get_insert]
    split
    · rename_i here
      obtain ⟨r, mem, same, keyed⟩ := told.named uid key held
      rw [← keyed, apart.edges rel r rel_mem (List.mem_append_left _ mem) (here ▸ same).symm]
    · exact held
  refine ⟨fun uid u held a on => (told.units uid u held a on).imp (List.mem_append_left _) id,
    fun key r held a on => (told.edges key r held a on).imp id
      (And.imp (List.mem_append_left _) (stays _ _)),
    told.carried, told.covered, fun r mem => ?_, fun uid key held => ?_, fun a mem => ?_,
    fun a mem => List.mem_append_left _ (told.waiting a mem)⟩
  · rcases List.mem_append.mp mem with mem | mem
    · exact stays _ _ (told.rids r mem)
    · cases List.mem_singleton.mp mem
      dsimp only
      rw [BTreeMap.get_insert, if_pos rfl]
  · dsimp only at held
    rw [BTreeMap.get_insert] at held
    split at held
    · rename_i here
      cases held
      exact ⟨rel, rel_mem, here.symm, rfl⟩
    · obtain ⟨r, mem, named⟩ := told.named uid key held
      exact ⟨r, List.mem_append_left _ mem, named⟩
  · have mem : .attestation a ∈ log := by simpa using mem
    refine (told.placed a mem).imp id (Or.imp id (Or.imp id ?_))
    rintro ⟨key, r, rid, held, borne⟩
    exact ⟨key, r, stays _ _ rid, held, borne⟩

omit [Blake3] in
theorem mem_attest (r : Relation) (as : BTreeSet Attestation) (a : Attestation) :
    a ∈ (r.attest as.toList).attestations ↔ a ∈ as ∨ a ∈ r.attestations := by
  rw [Relation.attest, BTreeSet.mem_extend, BTreeSet.mem_toList]

theorem relation [Unicode] {rel : Relation} (told : Told given log due s)
    (apart : SubjectsApart (log ++ [.relation rel])) :
    Told (insert rel given) (log ++ [.relation rel]) due
      { s with interp := s.interp.absorbHot (.relation rel) } := by
  refine (told.join rel ((s.interp.relations.get (relKey rel)).elim rel
    fun existing => existing.attest rel.attestations.toList)
    (s.interp.absorbHot (.relation rel)).relations ?_ (fun key other => ?_)
    (fun a => ?_)).enter apart
  · refine (BTreeMap.get_alter _ _ _ _).trans ((if_pos rfl).trans ?_)
    cases s.interp.relations.get (relKey rel) <;> rfl
  · exact (BTreeMap.get_alter _ _ _ _).trans (if_neg other)
  · cases held : s.interp.relations.get (relKey rel) with
    | some existing =>
      rw [Option.elim_some, mem_attest]
      simp
    | none => simp

/-- One record told. -/
theorem absorb_record [Unicode] {r : Record} (told : Told given log [] s)
    (apart : SubjectsApart (log ++ [r])) :
    Told ({rel | .relation rel = r} ∪ given) (log ++ [r]) [] (s.absorbRecord r) := by
  have quiet : (∀ rel, .relation rel ≠ r) → {rel | Record.relation rel = r} ∪ given = given := by
    intro other
    ext rel
    simp [other]
  cases r with
  | unit core =>
    rw [quiet (by simp)]
    exact told.unit core
  | attestation a =>
    rw [quiet (by simp)]
    exact (told.read a).attach_or_wait
  | relation rel =>
    have same : {r | Record.relation r = .relation rel} ∪ given = insert rel given := by
      ext r
      simp
    rw [same]
    exact told.relation apart
  | thread t =>
    rw [quiet (by simp)]
    have told := @silent _ _ _ _ _ (.thread t) told (by simp) (by simp)
    dsimp only [absorbRecord, Interpretive.absorbHot]
    split
    · exact ⟨told.units, told.edges, told.carried, told.covered, told.rids, told.named,
        told.placed, told.waiting⟩
    · exact told
  | contention c =>
    rw [quiet (by simp)]
    have told := @silent _ _ _ _ _ (.contention c) told (by simp) (by simp)
    dsimp only [absorbRecord, Interpretive.absorbHot]
    split
    · exact told
    · exact ⟨told.units, told.edges, told.carried, told.covered, told.rids, told.named,
        told.placed, told.waiting⟩
  | _ =>
    rw [quiet (by simp)]
    refine Told.silent ?_ (by simp) (by simp)
    exact ⟨told.units, told.edges, told.carried, told.covered, told.rids, told.named,
      told.placed, told.waiting⟩

/-- A list of records told, with what their relations carried. -/
theorem fold [Unicode] {rs : List Record} (told : Told given log [] s)
    (apart : SubjectsApart (log ++ rs)) :
    Told ({rel | .relation rel ∈ rs} ∪ given) (log ++ rs) [] (rs.foldl absorbRecord s) := by
  induction rs generalizing given log s with
  | nil =>
    have none : {rel | Record.relation rel ∈ []} ∪ given = given := by simp
    rw [none, List.append_nil]
    exact told
  | cons r rs ih =>
    rw [← List.singleton_append, ← List.append_assoc] at apart
    have first := told.absorb_record (apart.mono fun x mem => List.mem_append_left _ mem)
    have all := ih first apart
    have same : {rel | Record.relation rel ∈ r :: rs} ∪ given =
        {rel | Record.relation rel ∈ rs} ∪ ({rel | Record.relation rel = r} ∪ given) := by
      ext rel
      simp only [List.mem_cons, Set.mem_union, Set.mem_ofPred_eq]
      tauto
    rw [same, List.foldl_cons, ← List.singleton_append, ← List.append_assoc]
    exact all

end Told

/-- Something is held under the uid. -/
def Subject (s : Store) (uid : Uid) : Prop :=
  s.units.contains uid = true ∨
    ∃ key, s.interp.rids.get uid = some key ∧ s.interp.relations.contains key = true

/-- What still waits names nothing that is held. -/
def Settled (s : Store) : Prop := ∀ a ∈ s.pendingAttestations, ¬ s.Subject a.uid

omit [Blake3] in
theorem subject_of_attach_none {s : Store} {a : Attestation} (failed : s.attach a = none) :
    ¬ s.Subject a.uid := by
  rw [attach] at failed
  split at failed
  · cases failed
  · rename_i noUnit
    split at failed
    · rename_i key rid
      split at failed
      · cases failed
      · rename_i noEdge
        rintro (unit | ⟨k, named, edge⟩)
        · rw [BTreeMap.contains, noUnit] at unit
          cases unit
        · cases rid.symm.trans named
          rw [BTreeMap.contains, noEdge] at edge
          cases edge
    · rename_i noRid
      rintro (unit | ⟨k, named, _⟩)
      · rw [BTreeMap.contains, noUnit] at unit
        cases unit
      · rw [noRid] at named
        cases named

omit [Blake3] in
theorem Alike.subject {s t : Store} (alike : Alike s t) (uid : Uid) :
    t.Subject uid ↔ s.Subject uid := by
  have unit : t.units.contains uid = s.units.contains uid := by
    rw [BTreeMap.contains, BTreeMap.contains, ← Option.isSome_map, alike.cores, Option.isSome_map]
  have edge : ∀ key, t.interp.relations.contains key = s.interp.relations.contains key := by
    intro key
    rw [BTreeMap.contains, BTreeMap.contains, ← Option.isSome_map, alike.edges, Option.isSome_map]
  simp only [Subject, unit, edge, alike.rids]

omit [Blake3] in
theorem attach_pending {s t : Store} {a : Attestation} (attached : s.attach a = some t) :
    t.pendingAttestations = s.pendingAttestations := by
  rw [attach] at attached
  split at attached
  · cases attached
    rfl
  · split at attached
    · split at attached <;> cases attached
      rfl
    · cases attached

omit [Blake3] in
theorem Settled.attach_or_wait {s : Store} (settled : Settled s) (a : Attestation) :
    Settled (s.attachOrWait a) := by
  have alike := attach_or_wait_alike s a
  intro b mem
  rw [alike.subject]
  rw [attachOrWait] at mem
  split at mem
  · rename_i attached
    rw [attach_pending attached] at mem
    exact settled b mem
  · rename_i failed
    rcases List.mem_append.mp mem with mem | mem
    · exact settled b mem
    · cases List.mem_singleton.mp mem
      exact subject_of_attach_none failed

omit [Blake3] in
theorem rebuild_settled (s : Store) : Settled s.rebuildAdjacency := by
  have general : ∀ (as : List Attestation) (s : Store), Settled s →
      Settled (as.foldl attachOrWait s) := by
    intro as
    induction as with
    | nil => exact fun s settled => settled
    | cons a as ih => exact fun s settled => ih _ (settled.attach_or_wait a)
  exact general _ _ fun a mem => nomatch mem

/-- Text moves no edge and no attestation. -/
theorem fold_text [Unicode] {rs : List Record} (text : rs.all isText = true) (s : Store) :
    rs.foldl absorbRecord s = s := by
  induction rs with
  | nil => rfl
  | cons r rs ih =>
    rw [List.all_cons, Bool.and_eq_true] at text
    rw [List.foldl_cons]
    have still : s.absorbRecord r = s := by
      cases r <;> first | rfl | cases text.1
    rw [still, ih text.2]

theorem absorb_hashed_settled [Unicode] {s : Store} (settled : Settled s) (records : List Record)
    (hashes : List Bytes32) : Settled (s.absorbHashed records hashes) := by
  rw [absorbHashed]
  split
  · exact rebuild_settled _
  · rename_i still
    have text : records.all isText = true := by simpa [movesEdges] using still
    rw [fold_text text]
    exact settled

theorem absorb_hashed_told [Unicode] {given : Set Relation} {s : Store} {records : List Record}
    (told : Told given s.records [] s) (apart : SubjectsApart (s.records ++ records))
    (hashes : List Bytes32) :
    Told ({rel | .relation rel ∈ records} ∪ given) (s.absorbHashed records hashes).records []
      (s.absorbHashed records hashes) := by
  rw [absorb_hashed_records]
  have before : Told given s.records [] { s with recordHashes := s.recordHashes.extend hashes } :=
    ⟨told.units, told.edges, told.carried, told.covered, told.rids, told.named, told.placed,
      told.waiting⟩
  have after := before.fold apart
  rw [absorbHashed]
  split
  · refine Told.rebuild ?_
    exact ⟨after.units, after.edges, after.carried, after.covered, after.rids, after.named,
      after.placed, after.waiting⟩
  · exact ⟨after.units, after.edges, after.carried, after.covered, after.rids, after.named,
      after.placed, after.waiting⟩

/-- The repeated relations whose edge is held. -/
def joining (s : Store) (repeated : List Record) : Set Relation :=
  {rel | .relation rel ∈ repeated ∧ s.interp.relations.contains (relKey rel) = true}

omit [Blake3] in
theorem union_pending (s : Store) (repeated : List Record) :
    (s.unionEdgeAttestations repeated).pendingAttestations = s.pendingAttestations := by
  induction repeated generalizing s with
  | nil => rfl
  | cons r rs ih =>
    refine (ih _).trans ?_
    cases r <;> rfl

theorem Told.union {given : Set Relation} {log : List Record} {due : List Attestation} {s : Store}
    (told : Told given log due s) (repeated : List Record) :
    Told (s.joining repeated ∪ given) log due (s.unionEdgeAttestations repeated) := by
  induction repeated generalizing given s with
  | nil =>
    have none : s.joining [] ∪ given = given := by simp [joining]
    rw [none]
    exact told
  | cons r rs ih =>
    have first := union_edge_attestations_alike s [r]
    have keys : ∀ key, (s.unionEdgeAttestations [r]).interp.relations.contains key =
        s.interp.relations.contains key := by
      intro key
      rw [BTreeMap.contains, BTreeMap.contains, ← Option.isSome_map, first.edges,
        Option.isSome_map]
    have rest : (s.unionEdgeAttestations [r]).joining rs = s.joining rs := by
      simp only [joining, keys]
    have split : s.joining (r :: rs) ∪ given = s.joining rs ∪ (s.joining [r] ∪ given) := by
      ext rel
      simp only [joining, List.mem_cons, List.not_mem_nil, or_false, Set.mem_union,
        Set.mem_ofPred_eq]
      tauto
    have step : Told (s.joining [r] ∪ given) log due (s.unionEdgeAttestations [r]) := by
      cases r with
      | relation rel =>
        cases held : s.interp.relations.get (relKey rel) with
        | some existing =>
          have one : s.joining [.relation rel] ∪ given = insert rel given := by
            ext x
            simp only [joining, List.mem_singleton, Record.relation.injEq, Set.mem_union,
              Set.mem_ofPred_eq, Set.mem_insert_iff]
            constructor
            · rintro (⟨rfl, _⟩ | mem)
              · exact Or.inl rfl
              · exact Or.inr mem
            · rintro (rfl | mem)
              · exact Or.inl ⟨rfl, by rw [BTreeMap.contains, held]; rfl⟩
              · exact Or.inr mem
          rw [one]
          refine told.join rel (existing.attest rel.attestations.toList) _ ?_ (fun key other => ?_)
            (fun a => ?_)
          · rw [BTreeMap.get_modify, if_pos rfl, held]
            rfl
          · rw [BTreeMap.get_modify, if_neg other]
          · rw [Told.mem_attest, held]
            simp
        | none =>
          have nothing : s.joining [.relation rel] ∪ given = given := by
            ext x
            simp only [joining, List.mem_singleton, Record.relation.injEq, Set.mem_union,
              Set.mem_ofPred_eq]
            constructor
            · rintro (⟨rfl, held'⟩ | mem)
              · rw [BTreeMap.contains, held] at held'
                cases held'
              · exact mem
            · exact Or.inr
          have still : s.interp.relations.modify (relKey rel)
              (fun existing => existing.attest rel.attestations.toList) = s.interp.relations := by
            refine BTreeMap.ext_get fun key => ?_
            rw [BTreeMap.get_modify]
            split
            · rename_i same
              rw [same, held]
              rfl
            · rfl
          rw [nothing]
          dsimp only [unionEdgeAttestations, List.foldl]
          rw [still]
          exact told
      | _ =>
        refine (congrArg (fun g => Told g log due s) ?_).mpr told
        simp [joining]
    rw [split, ← rest]
    exact ih step

/-- With nothing due, a settled store has on each unit and edge exactly what was
told of it. -/
theorem unit_attestations [Unicode] {given : Set Relation} {s : Store}
    (told : Told given s.records [] s) (settled : Settled s) (sound : Sound s)
    (apart : SubjectsApart s.records) {uid : Uid} {u : HeldUnit} (held : s.units.get uid = some u)
    (a : Attestation) : a ∈ u.attestations ↔ .attestation a ∈ s.records ∧ a.uid = uid := by
  constructor
  · exact told.units uid u held a
  · rintro ⟨mem, rfl⟩
    rcases told.placed a mem with none | waits | ⟨v, found, on⟩ | ⟨key, rel, rid, _, _⟩
    · cases none
    · exact absurd (Or.inl ((BTreeMap.contains_iff _ _).mpr ⟨u, held⟩)) (settled a waits)
    · cases held.symm.trans found
      exact on
    · obtain ⟨rel, recorded, same, _⟩ := told.named _ _ rid
      have core := sound.cores a.uid
      rw [held] at core
      obtain ⟨named, unit⟩ := first_unit_some core.symm
      exact absurd (named.trans same.symm) (apart.units _ _ unit recorded)

theorem edge_attestations [Unicode] {given : Set Relation} {s : Store}
    (told : Told given s.records [] s) (settled : Settled s) (sound : Sound s)
    (apart : SubjectsApart s.records) {key : RelKey} {rel : Relation}
    (held : s.interp.relations.get key = some rel) (a : Attestation) :
    a ∈ rel.attestations ↔
      Carried given key a ∨ (.attestation a ∈ s.records ∧ s.interp.rids.get a.uid = some key) := by
  constructor
  · exact told.edges key rel held a
  · rintro (carries | ⟨mem, rid⟩)
    · exact told.carried key rel held a carries
    · have edge : s.interp.relations.contains key = true :=
        (BTreeMap.contains_iff _ _).mpr ⟨rel, held⟩
      rcases told.placed a mem with none | waits | ⟨u, found, _⟩ | ⟨k, r, named, found, on⟩
      · cases none
      · exact absurd (Or.inr ⟨key, rid, edge⟩) (settled a waits)
      · obtain ⟨r, recorded, same, _⟩ := told.named _ _ rid
        have core := sound.cores a.uid
        rw [found] at core
        obtain ⟨named, unit⟩ := first_unit_some core.symm
        exact absurd (named.trans same.symm) (apart.units _ _ unit recorded)
      · cases rid.symm.trans named
        cases held.symm.trans found
        exact on

end Store
end
end Smysl
