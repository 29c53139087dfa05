import Smysl.Graph.DeliveryOrder
import Smysl.Graph.Relink

/-!
When relinking settles: appended, what it emits leaves no standing unit that
names a replaced one, and nothing to relink.
-/
open Relation

namespace Smysl
open ByteString Store StoreRead

section
variable [Unicode] [Blake3]

namespace StoreRead
variable (s : StoreRead)

omit [Unicode] [Blake3] in
/-- The core held under a uid. -/
def coreAt (s : StoreRead) (u : Uid) : Option UnitCore := (s.units.get u).map HeldUnit.core

/-- Each superseded unit's newest replacement. -/
def newest (s : StoreRead) : BTreeMap Uid Uid := (supersessionHeads s).1

/-- The units that are not replaced. -/
def standing (s : StoreRead) : List (Uid × UnitCore) := s.candidates s.newest

/-- A unit with its references on the newest replacements of what they name. -/
def repointed (s : StoreRead) (core : UnitCore) : UnitCore := core.pointing (successor s.newest)

/-- The units that are not replaced, in the order they are settled in. -/
def visited (s : StoreRead) : List (Uid × UnitCore) :=
  inOrder (s.standing.map (fun e => s.repointed e.2)) s.standing

omit [Unicode] [Blake3] in
instance (core : UnitCore) (u : Uid) : Decidable (Refers core u) :=
  inferInstanceAs (Decidable (u ∈ core.grounds ∨ u ∈ core.deps))

/-- Neither grounds and deps nor replacements go round in a circle. -/
structure Acyclic : Prop where
  rests : ∀ u, ¬ TransGen (fun a b => ∃ core, s.coreAt a = some core ∧ Refers core b) u u
  supersedes : ∀ u, ¬ TransGen s.Succeeds u u

omit [Unicode] in
theorem mem_standing (e : Uid × UnitCore) :
    e ∈ s.standing ↔ s.coreAt e.1 = some e.2 ∧ s.newest.get e.1 = none := by
  rw [standing, candidates, List.mem_map]
  constructor
  · intro found
    obtain ⟨d, mem, rfl⟩ := found
    obtain ⟨held, unreplaced⟩ := List.mem_filter.mp mem
    refine ⟨?_, ?_⟩
    · rw [coreAt, (BTreeMap.mem_entries_iff _ _ _).mp held]
      rfl
    · rw [Bool.not_eq_true', BTreeMap.contains, Option.isSome_eq_false_iff,
        Option.isNone_iff_eq_none] at unreplaced
      exact unreplaced
  · intro both
    obtain ⟨unit, held, core⟩ := Option.map_eq_some_iff.mp both.1
    refine ⟨(e.1, unit), List.mem_filter.mpr ⟨(BTreeMap.mem_entries_iff _ _ _).mpr held, ?_⟩, ?_⟩
    · rw [BTreeMap.contains, both.2]
      rfl
    · rw [core]

omit [Unicode] in
theorem standing_nodup : (s.standing.map Prod.fst).Nodup := by
  rw [standing, candidates, List.map_map]
  exact (s.units.keys_nodup.sublist (List.filter_sublist.map Prod.fst))

/-- What is visited is what stands. -/
theorem mem_visited (e : Uid × UnitCore) : e ∈ s.visited ↔ e ∈ s.standing := by
  rw [visited, inOrder, List.mem_filterMap]
  constructor
  · intro found
    obtain ⟨i, _, found⟩ := found
    exact List.mem_of_getElem? found
  · intro mem
    obtain ⟨i, inside, here⟩ := List.mem_iff_getElem.mp mem
    refine ⟨i, topological_all _ (by rw [List.length_map]; exact inside), ?_⟩
    rw [List.getElem?_eq_getElem inside, here]

omit [Unicode] [Blake3] in
theorem chosen_mem {set : BTreeSet Uid} {x : Uid} (chosen : s.chosen set = some x) : x ∈ set := by
  rw [StoreRead.chosen] at chosen
  split at chosen
  · cases chosen
  · rename_i only listed
    cases chosen
    rw [← BTreeSet.mem_toList, listed]
    exact List.mem_singleton.mpr rfl
  · split at chosen
    · rename_i only listed
      cases chosen
      have mem : x ∈ s.latest set := by
        rw [listed]
        exact List.mem_singleton.mpr rfl
      exact (BTreeSet.mem_toList _ _).mp (List.mem_filter.mp mem).1
    · cases chosen

omit [Unicode] in
/-- The one replacement of a unit replaces it. -/
theorem one_succeeds {u x : Uid} (found : s.one.get u = some x) : s.Succeeds x u := by
  rw [one_get] at found
  exact (s.mem_succs x u).mp (s.chosen_mem found)

variable {s}

omit [Unicode] in
/-- Where no unit comes to supersede itself, no chain of replacements closes. -/
theorem chains_end (acyclic : ∀ u, ¬ TransGen s.Succeeds u u) : ChainsEnd s.one := by
  intro u loop
  apply acyclic u
  have backwards : TransGen (Function.swap s.Succeeds) u u :=
    TransGen.mono (fun a b found => s.one_succeeds found) u u loop
  exact transGen_swap.mp backwards

omit [Unicode] in
theorem Acyclic.chains_end (acyclic : s.Acyclic) : ChainsEnd s.one :=
  StoreRead.chains_end acyclic.supersedes

omit [Unicode] in
theorem newest_ends (ends : ChainsEnd s.one) (k h : Uid) (found : s.newest.get k = some h) :
    s.newest.get h = none :=
  (collapse_ends ends).1 k h found

omit [Unicode] in
theorem newest_none (ends : ChainsEnd s.one) (k : Uid) :
    s.newest.get k = none ↔ s.chosen (s.succs k) = none := by
  rw [← one_get]
  exact (collapse_ends ends).2 k

/-- Where every reference ends up, and that relinking takes it there in one pass:
no unit is re-pointed and then moves on while something names it, what moves only
because of what it rests on is settled before what names it, and what a unit becomes
is neither replaced nor bears on what is contested. -/
structure Follows (s : StoreRead) (settled : Uid → Uid) : Prop where
  settlement : unitPointing.Settlement s.coreAt s.newest.get settled
  once : ∀ e ∈ s.standing, canonicalUid (s.repointed e.2) ≠ e.1 →
    settled e.1 = canonicalUid (s.repointed e.2) ∨
      ∀ d ∈ s.standing, ¬ Refers (s.repointed d.2) e.1 ∧
        ¬ Refers (s.repointed d.2) (canonicalUid (s.repointed e.2))
  order : s.visited.Pairwise fun d e => settled e.1 ≠ e.1 →
    canonicalUid (s.repointed e.2) = e.1 → ¬ Refers (s.repointed d.2) e.1
  unforked : ∀ e ∈ s.standing, settled e.1 ≠ e.1 → e.1 ∉ s.forked
  unreplaced : ∀ e ∈ s.standing, settled e.1 ≠ e.1 → s.newest.get (settled e.1) = none
  stays : ∀ e ∈ s.standing, settled (settled e.1) = settled e.1
  uncontested : ∀ e ∈ s.standing, settled e.1 ≠ e.1 → ∀ u, s.Succeeds e.1 u →
    ¬ s.Succeeds (settled e.1) u
  heads : ∀ e ∈ s.standing, ∀ r, Refers e.2 r → ∀ h, s.newest.get r = some h →
    s.Present h ∨ ∃ u core, s.coreAt u = some core ∧ Refers core h

/-- A uid stands for what a unit refers to, also once it is re-pointed and once it is
settled. -/
def Recast (s : StoreRead) (settled : Uid → Uid) : Prop :=
  ContentAddressed (s.records ++ (recordedUnits s.records).flatMap (fun core =>
    [.unit (s.repointed core), .unit (core.pointing settled)]))

/-- The units that move. -/
def Moved (s : StoreRead) (settled : Uid → Uid) (u : Uid) : Prop :=
  settled u ≠ u ∧ ∃ core, (u, core) ∈ s.standing

variable {settled : Uid → Uid}

namespace Follows

/-- What a reference settles on is not replaced and does not move. -/
theorem settled_stands (follows : s.Follows settled) (ends : ChainsEnd s.one) (r : Uid) :
    s.newest.get (settled r) = none ∧ ¬ s.Moved settled (settled r) := by
  have unreplaced : ∀ r, s.newest.get r = none →
      s.newest.get (settled r) = none ∧ ¬ s.Moved settled (settled r) := by
    intro r stands
    cases held : s.coreAt r with
    | none =>
      rw [follows.settlement.absent r stands held]
      refine ⟨stands, fun moved => ?_⟩
      obtain ⟨_, core, mem⟩ := moved
      rw [((s.mem_standing _).mp mem).1] at held
      cases held
    | some core =>
      have mem : (r, core) ∈ s.standing := (s.mem_standing _).mpr ⟨held, stands⟩
      refine ⟨?_, fun moved => moved.1 (follows.stays _ mem)⟩
      by_cases still : settled r = r
      · rw [still]
        exact stands
      · exact follows.unreplaced _ mem still
  cases replaced : s.newest.get r with
  | none => exact unreplaced r replaced
  | some h =>
    rw [follows.settlement.replaced r h replaced]
    exact unreplaced h (newest_ends ends r h replaced)

theorem lands (follows : s.Follows settled) {e : Uid × UnitCore} (mem : e ∈ s.standing) :
    canonicalUid (e.2.pointing settled) = settled e.1 := by
  obtain ⟨held, stands⟩ := (s.mem_standing e).mp mem
  exact (follows.settlement.standing e.1 e.2 stands held).symm

/-- Relinking emits every unit that moves, as it is settled, with the edge that places it. -/
theorem records (follows : s.Follows settled) (acyclic : s.Acyclic) (recast : s.Recast settled)
    (recorded : ∀ u core, s.coreAt u = some core → .unit core ∈ s.records ∧ canonicalUid core = u)
    (some_ : s.newest.isEmpty = false) :
    (relink s).records =
      s.standing.flatMap (fun e => correction (e.1, e.2.pointing settled)) := by
  have ends := acyclic.chains_end
  have standing : Pointing.Standing s.coreAt s.newest.get s.visited := by
    refine ⟨fun e mem => ?_, fun e mem => ?_, fun u core held stands => ?_⟩
    · exact ((s.mem_standing e).mp ((s.mem_visited e).mp mem)).1
    · exact ((s.mem_standing e).mp ((s.mem_visited e).mp mem)).2
    · exact (s.mem_visited _).mpr ((s.mem_standing _).mpr ⟨held, stands⟩)
  have followable : unitPointing.Followable s.newest.get settled s.visited := by
    refine ⟨fun e mem direct => ?_, fun e mem moved direct names => ?_, follows.order⟩
    · rcases follows.once e ((s.mem_visited e).mp mem) direct with same | unnamed
      · exact Or.inl same
      · exact Or.inr fun d mem => unnamed d ((s.mem_visited d).mp mem)
    · -- a unit whose uid the re-pointing leaves names what it named
      obtain ⟨held, _⟩ := (s.mem_standing e).mp ((s.mem_visited e).mp mem)
      obtain ⟨at_, uid⟩ := recorded e.1 e.2 held
      have listed := mem_recorded_units.mpr at_
      obtain ⟨deps, grounds⟩ := recast (s.repointed e.2) (mem_recorded_units.mpr
        (List.mem_append_right _ (List.mem_flatMap.mpr ⟨e.2, listed, List.mem_cons_self⟩)))
        e.2 (mem_recorded_units.mpr (List.mem_append_left _ at_)) (direct.trans uid.symm)
      apply acyclic.rests e.1
      refine TransGen.single ⟨e.2, held, ?_⟩
      change Refers (s.repointed e.2) e.1 at names
      rw [Refers, grounds, deps] at names
      exact names
  let units := s.standing.map (fun e => s.repointed e.2)
  have pairs : (s.standing.map Prod.fst).zip units =
      s.standing.map (fun e => (e.1, s.repointed e.2)) := by
    rw [List.zip_map']
  have distinct : ((s.standing.map (fun e => (e.1, s.repointed e.2))).map Prod.fst).Nodup := by
    rw [List.map_map]
    exact s.standing_nodup
  obtain ⟨known, others⟩ := rewritten_fold _ distinct ∅ (fun e _ => rfl)
  have swept : unitPointing.sweep (successor (rewritten (s.standing.map Prod.fst) units))
      (inOrder units units) = (inOrder units units).map (UnitCore.pointing settled) := by
    have nodes : inOrder units units = s.visited.map (fun e => s.repointed e.2) := by
      rw [visited, inOrder, inOrder, List.map_filterMap]
      congr 1
      funext i
      exact List.getElem?_map
    rw [nodes, List.map_map]
    have moved : ∀ e ∈ s.visited, successor (rewritten (s.standing.map Prod.fst) units) e.1 =
        canonicalUid (s.repointed e.2) := by
      intro e mem
      rw [rewritten, pairs]
      exact known (e.1, s.repointed e.2)
        (List.mem_map.mpr ⟨e, (s.mem_visited e).mp mem, rfl⟩)
    have rest : ∀ r, (∀ e ∈ s.visited, e.1 ≠ r) →
        successor (rewritten (s.standing.map Prod.fst) units) r = r := by
      intro r other
      rw [rewritten, pairs]
      refine others r fun e mem => ?_
      obtain ⟨d, held, rfl⟩ := List.mem_map.mp mem
      exact other d ((s.mem_visited d).mpr held)
    refine (followable.sweep_repointed follows.settlement standing
      (fun k h => newest_ends ends k h) moved rest).trans ?_
    apply List.map_congr_left
    intro e _
    exact (follows.settlement.point_head e.2).symm
  have settles := resettle_swept swept []
  have images : units.map (UnitCore.pointing settled) =
      s.standing.map (fun e => e.2.pointing settled) := by
    rw [List.map_map]
    apply List.map_congr_left
    intro e _
    exact follows.settlement.point_head e.2
  have emitted : (relink s).records = ((s.standing.map Prod.fst).zip
      (resettle (s.standing.map Prod.fst) units []).1).flatMap correction := by
    rw [relink]
    change (if s.newest.isEmpty = true then _ else _ : Relinked).records = _
    rw [if_neg (by rw [some_]; exact Bool.false_ne_true)]
    rfl
  rw [emitted, settles, images, List.zip_map', List.flatMap_map]

end Follows

end StoreRead
/-! What an append leaves. -/

namespace Store

theorem absorb_hashes (s : Store) (records : List Record) :
    (s.absorb records).recordHashes = s.recordHashes.extend (records.map recordHash) :=
  (absorb_hashed_alike s records _).hashes.trans (fold_hashes records _)

/-- A hash that is held is that of a record. -/
theorem Reachable.hash_recorded {s : Store} (reachable : Reachable s) {h : Bytes32}
    (held : h ∈ s.recordHashes) : ∃ r ∈ s.records, recordHash r = h := by
  have absorbed : ∀ rs : List Record, h ∈ (new.absorb rs).recordHashes →
      ∃ r ∈ (new.absorb rs).records, recordHash r = h := by
    intro rs mem
    rw [absorb_hashes, BTreeSet.mem_extend] at mem
    rcases mem with mem | none
    · obtain ⟨r, mem, here⟩ := List.mem_map.mp mem
      refine ⟨r, ?_, here⟩
      rw [absorb, absorb_hashed_records]
      exact List.mem_append_right _ mem
    · exact absurd none (BTreeSet.not_mem_emptyCollection h)
  induction reachable with
  | fromRecords records =>
    have alike := union_edge_attestations_alike
      (new.absorb (splitFresh ∅ records).1) (splitFresh ∅ records).2
    obtain ⟨r, mem, here⟩ := absorbed _ (alike.hashes ▸ held)
    exact ⟨r, alike.records ▸ mem, here⟩
  | ofLog records log => exact absorbed records held
  | append before run ih =>
    obtain ⟨records, hashes⟩ := append_split run
    rw [hashes, BTreeSet.mem_extend] at held
    rw [records]
    rcases held with new | old
    · obtain ⟨r, mem, here⟩ := List.mem_map.mp new
      exact ⟨r, List.mem_append_right _ mem, here⟩
    · obtain ⟨r, mem, here⟩ := ih old
      exact ⟨r, List.mem_append_left _ mem, here⟩
  | rebuilt _ _ => exact absorbed _ held

/-- Extension kinds are not spelled like kernel ones. -/
def Spelled (records : List Record) : Prop :=
  ∀ rel, .relation rel ∈ records → RelKind.parse rel.kind.asStr = some rel.kind

/-- A replacement is an edge some record of its key tells. -/
theorem succeeds_iff {s : Store} (sound : Sound s) (spelled : Spelled s.records) (x u : Uid) :
    s.read.Succeeds x u ↔
      ∃ rel, .relation rel ∈ s.records ∧ relKey rel = relKey (Relation.new .supersedes x u) := by
  constructor
  · intro found
    obtain ⟨r, mem, src, dst⟩ := found
    obtain ⟨held, kind⟩ := List.mem_filter.mp mem
    obtain ⟨key, held⟩ := (Compact.mem_relations _ _).mp held
    have edge := sound.edges key
    rw [show s.interp.relations.get key = some r from held] at edge
    obtain ⟨rel, first, bare⟩ := Option.map_eq_some_iff.mp edge.symm
    refine ⟨rel, (first_relation_some first).2, ?_⟩
    have same : relKey rel = relKey r := show relKey rel.bare = relKey r.bare by rw [bare]
    rw [Bool.and_eq_true, beq_iff_eq] at kind
    rw [same, relKey, kind.1, src, dst]
    rfl
  · intro found
    obtain ⟨rel, recorded, key⟩ := found
    obtain ⟨first, found⟩ := Option.isSome_iff_exists.mp (first_relation_of_mem recorded)
    have edge := sound.edges (relKey rel)
    rw [found] at edge
    obtain ⟨held, here, bare⟩ := Option.map_eq_some_iff.mp edge
    obtain ⟨same, mem⟩ := first_relation_some found
    rw [key] at same
    have parts : first.kind.asStr = RelKind.supersedes.asStr ∧ first.src = x ∧ first.dst = u := by
      simp only [relKey, EmbeddingLike.apply_eq_iff_eq, Prod.mk.injEq] at same
      exact same
    have kind : first.kind = .supersedes := by
      have parsed := spelled first mem
      rw [parts.1, show RelKind.parse RelKind.supersedes.asStr = some .supersedes by decide]
        at parsed
      exact (Option.some.inj parsed).symm
    have kind' : held.kind = .supersedes :=
      (show held.bare.kind = first.bare.kind by rw [bare]).trans kind
    obtain ⟨src, dst⟩ := Compact.ends_of_bare bare
    refine ⟨held, List.mem_filter.mpr ⟨(Compact.mem_relations _ _).mpr ⟨_, here⟩, ?_⟩,
      src.trans parts.2.1, dst.trans parts.2.2⟩
    rw [Interpretive.isWithdrawn, kind']
    rfl

/-- And so is an edge that is looked up. -/
theorem has_relation_iff {s : Store} (sound : Sound s) (spelled : Spelled s.records) (x u : Uid) :
    s.read.hasRelation .supersedes x u = true ↔ s.read.Succeeds x u := by
  rw [succeeds_iff sound spelled]
  change (s.interp.relations.get (relKey (Relation.new .supersedes x u))).isSome = true ↔ _
  rw [← Option.isSome_map, sound.edges, Option.isSome_map]
  constructor
  · intro found
    obtain ⟨first, found⟩ := Option.isSome_iff_exists.mp found
    obtain ⟨key, mem⟩ := first_relation_some found
    exact ⟨first, mem, key⟩
  · intro found
    obtain ⟨rel, recorded, key⟩ := found
    rw [← key]
    exact first_relation_of_mem recorded

theorem clean_spelled {records : List Record} (clean : Clean records) : Spelled records := by
  intro rel mem
  exact (clean.faithful _ mem).valid.kind

section
variable {s s' : Store} {given : List Record} {report : AppendReport} {bytes : Bytes}

/-- Of what is appended something written alike is held. -/
theorem appended_stands (reachable : Reachable s) (clean : Clean (s.records ++ given))
    (run : s.append given = .ok (s', report, bytes)) {r : Record} (mem : r ∈ given) :
    ∃ r' ∈ s'.records, r'.written = r.written := by
  obtain ⟨records, _⟩ := append_split run
  have alike : ∀ r' ∈ s.records ++ given, recordHash r' = recordHash r → r'.written = r.written :=
    fun r' mem' same => (clean.faithful r' mem').written_of_bytes
      (clean.faithful r (List.mem_append_right _ mem))
      (clean.apart r' mem' r (List.mem_append_right _ mem) same)
  rw [records]
  rcases @mem_split_fresh _ _ s.recordHashes given r mem with old | ⟨r', fresh, same⟩
  · obtain ⟨r', held, same⟩ := reachable.hash_recorded old
    exact ⟨r', List.mem_append_left _ held, alike r' (List.mem_append_left _ held) same⟩
  · exact ⟨r', List.mem_append_right _ fresh,
      alike r' (List.mem_append_right _ ((split_fresh_sublist _ _).subset fresh)) same⟩

/-- What is held after an append was held or is appended. -/
theorem appended_from (run : s.append given = .ok (s', report, bytes)) {r : Record}
    (mem : r ∈ s'.records) : r ∈ s.records ++ given := by
  rw [(append_split run).1] at mem
  rcases List.mem_append.mp mem with mem | mem
  · exact List.mem_append_left _ mem
  · exact List.mem_append_right _ ((split_fresh_sublist _ _).subset mem)

theorem appended_spelled (clean : Clean (s.records ++ given))
    (run : s.append given = .ok (s', report, bytes)) : Spelled s'.records :=
  fun rel mem => clean_spelled clean rel (appended_from run mem)

/-- After an append a unit is replaced as before, or by an edge that is appended. -/
theorem appended_succeeds (reachable : Reachable s) (clean : Clean (s.records ++ given))
    (run : s.append given = .ok (s', report, bytes)) (x u : Uid) :
    s'.read.Succeeds x u ↔ s.read.Succeeds x u ∨
      ∃ rel, .relation rel ∈ given ∧ relKey rel = relKey (Relation.new .supersedes x u) := by
  have spelled : Spelled s.records := fun rel mem =>
    clean_spelled clean rel (List.mem_append_left _ mem)
  rw [succeeds_iff (append_sound reachable.sound run) (appended_spelled clean run),
    succeeds_iff reachable.sound spelled]
  constructor
  · intro found
    obtain ⟨rel, mem, key⟩ := found
    rcases List.mem_append.mp (appended_from run mem) with mem | mem
    · exact Or.inl ⟨rel, mem, key⟩
    · exact Or.inr ⟨rel, mem, key⟩
  · intro either
    rcases either with ⟨rel, mem, key⟩ | ⟨rel, mem, key⟩
    · refine ⟨rel, ?_, key⟩
      rw [(append_split run).1]
      exact List.mem_append_left _ mem
    · obtain ⟨r', held, written⟩ := appended_stands reachable clean run mem
      cases r' with
      | relation rel' =>
        have bare : rel'.bare = rel.bare := Record.relation.inj written
        refine ⟨rel', held, ?_⟩
        rw [show relKey rel' = relKey rel from
          show relKey rel'.bare = relKey rel.bare by rw [bare]]
        exact key
      | _ => cases written

/-- After an append a unit is held as before, or it is one that is appended. -/
theorem appended_core (reachable : Reachable s) (run : s.append given = .ok (s', report, bytes))
    {u : Uid} {core : UnitCore} (held : s'.read.coreAt u = some core) :
    s.read.coreAt u = some core ∨ (.unit core ∈ given ∧ canonicalUid core = u) := by
  have before : s.read.coreAt u = firstUnit u s.records := reachable.sound.cores u
  have after : s'.read.coreAt u = firstUnit u s'.records :=
    (append_sound reachable.sound run).cores u
  rw [after, (append_split run).1, first_unit_append, ← before] at held
  cases old : s.read.coreAt u with
  | some core' =>
    rw [old] at held
    exact Or.inl held
  | none =>
    rw [old, Option.none_or] at held
    obtain ⟨named, mem⟩ := first_unit_some held
    exact Or.inr ⟨(split_fresh_sublist _ _).subset mem, named⟩

theorem held_recorded {s : Store} (sound : Sound s) (u : Uid) (core : UnitCore)
    (held : s.read.coreAt u = some core) : .unit core ∈ s.records ∧ canonicalUid core = u := by
  have first : firstUnit u s.records = some core := (sound.cores u).symm.trans held
  obtain ⟨named, mem⟩ := first_unit_some first
  exact ⟨mem, named⟩

end
end Store
/-- What relinking leaves, appended: no standing unit names a replaced one, no emitted unit
names what is neither held nor emitted nor was named, and nothing is left to relink. -/
structure RelinkSettled (s s' : StoreRead) : Prop where
  current : ∀ e ∈ s'.standing, ∀ r, Refers e.2 r → s'.newest.get r = none
  known : ∀ core, .unit core ∈ (relink s).records → ∀ r, Refers core r →
    s.Present r ∨ HasUnit (relink s).records r ∨
      ∃ u core', s.coreAt u = some core' ∧ Refers core' r
  still : (relink s').records = []

/-- Relinking the store and appending what it emits settles it. -/
def Store.RelinkSettles (s : Store) : Prop :=
  ∃ s' report bytes, s.append (relink s.read).records = .ok (s', report, bytes) ∧
    RelinkSettled s.read s'.read

theorem relink_cases (s : StoreRead) : (s.newest.isEmpty = true ∧ (relink s).records = []) ∨
    (s.newest.isEmpty = false ∧ ∃ settled : List UnitCore, (relink s).records =
      ((s.standing.map Prod.fst).zip settled).flatMap correction) := by
  have unfolded : (relink s).records =
      (if s.newest.isEmpty = true then _ else _ : Relinked).records := rfl
  by_cases none : s.newest.isEmpty = true
  · rw [unfolded, if_pos none]
    exact Or.inl ⟨none, rfl⟩
  · rw [unfolded, if_neg none]
    exact Or.inr ⟨Bool.eq_false_of_not_eq_true none, _, rfl⟩

theorem relink_loggable (s : StoreRead) : ∀ r ∈ (relink s).records, unloggable r = none := by
  intro r mem
  rcases relink_cases s with ⟨_, none⟩ | ⟨_, settled, records⟩
  · rw [none] at mem
    cases mem
  · rw [records] at mem
    obtain ⟨e, _, mem⟩ := List.mem_flatMap.mp mem
    rw [correction] at mem
    split at mem
    · cases mem
    · rcases List.mem_cons.mp mem with here | mem
      · rw [here]
        rfl
      · rw [List.mem_singleton.mp mem]
        rfl

/-- Where no standing unit names a replaced one, nothing is emitted. -/
theorem relink_still {s : StoreRead} (uids : ∀ e ∈ s.standing, canonicalUid e.2 = e.1)
    (current : ∀ e ∈ s.standing, ∀ r, Refers e.2 r → s.newest.get r = none) :
    (relink s).records = [] := by
  by_cases none : s.newest.isEmpty = true
  · rw [relink]
    change (if s.newest.isEmpty = true then _ else _ : Relinked).records = _
    rw [if_pos none]
  · have same : s.standing.map (fun e => e.2.pointing (successor s.newest)) =
        s.standing.map Prod.snd := by
      apply List.map_congr_left
      intro e mem
      apply unitPointing.point_still
      intro r names
      rw [successor, current e mem r names]
      rfl
    have pairs : (s.standing.map Prod.fst).zip (s.standing.map Prod.snd) = s.standing := by
      rw [List.zip_map', List.map_id']
    obtain ⟨known, others⟩ := rewritten_fold s.standing s.standing_nodup ∅ (fun e _ => rfl)
    have unmoved : successor (rewritten (s.standing.map Prod.fst) (s.standing.map Prod.snd)) =
        id := by
      funext r
      rw [rewritten, pairs]
      by_cases stands : ∃ e ∈ s.standing, e.1 = r
      · obtain ⟨e, mem, here⟩ := stands
        rw [← here, known e mem, uids e mem]
        rfl
      · exact others r fun e mem here => stands ⟨e, mem, here⟩
    have swept := @resettle_swept _ _ (s.standing.map Prod.fst) (s.standing.map Prod.snd) id (by
      rw [unmoved, Pointing.sweep_still, List.map_id]) []
    have emitted : (relink s).records = ((s.standing.map Prod.fst).zip
        (resettle (s.standing.map Prod.fst) (s.standing.map Prod.snd) []).1).flatMap
          correction := by
      rw [← same, relink]
      change (if s.newest.isEmpty = true then _ else _ : Relinked).records = _
      rw [if_neg none]
      rfl
    rw [emitted, swept, List.map_id, pairs, List.flatMap_eq_nil_iff]
    intro e mem
    rw [correction, if_pos (uids e mem)]

namespace StoreRead

omit [Unicode] [Blake3] in
theorem chosen_congr {s t : StoreRead} {set : BTreeSet Uid}
    (same : ∀ a ∈ set, ∀ b ∈ set,
      t.hasRelation .supersedes b a = s.hasRelation .supersedes b a) :
    t.chosen set = s.chosen set := by
  have latest : t.latest set = s.latest set := by
    rw [StoreRead.latest, StoreRead.latest]
    apply List.filter_congr
    intro a mem
    congr 1
    rw [Bool.eq_iff_iff, List.any_eq_true, List.any_eq_true]
    apply exists_congr
    intro b
    rw [and_congr_right_iff]
    intro mem'
    rw [same a ((BTreeSet.mem_toList _ _).mp mem) b ((BTreeSet.mem_toList _ _).mp mem')]
  rw [StoreRead.chosen, StoreRead.chosen, latest]

omit [Unicode] [Blake3] in
theorem chosen_single (s : StoreRead) {set : BTreeSet Uid} {x : Uid}
    (only : ∀ y, y ∈ set ↔ y = x) : s.chosen set = some x := by
  have listed : set.toList = [x] := by
    have whole : set = BTreeSet.ofList [x] := by
      apply BTreeSet.ext_mem
      intro y
      rw [only, BTreeSet.mem_ofList, List.mem_singleton]
    rw [whole, BTreeSet.toList_ofList (List.pairwise_singleton _ _)]
  rw [chosen, listed]

end StoreRead

/-! A store that relinking follows, before and after. -/

section
variable {s s' : Store} {settled : Uid → Uid} {report : AppendReport} {bytes : Bytes}
  (reachable : Reachable s) (clean : Clean (s.records ++ (relink s.read).records))
  (acyclic : s.read.Acyclic) (follows : s.read.Follows settled)
  (records : (relink s.read).records =
    s.read.standing.flatMap (fun e => correction (e.1, e.2.pointing settled)))
  (run : s.append (relink s.read).records = .ok (s', report, bytes))

include follows in
/-- What a standing unit emits: itself as it is settled, and the edge that places it. -/
theorem mem_correction {e : Uid × UnitCore} (mem : e ∈ s.read.standing) (r : Record) :
    r ∈ correction (e.1, e.2.pointing settled) ↔ settled e.1 ≠ e.1 ∧
      (r = .unit (e.2.pointing settled) ∨
        r = .relation (Relation.new .supersedes (settled e.1) e.1)) := by
  have lands := follows.lands mem
  rw [correction]
  dsimp only
  rw [lands]
  by_cases still : settled e.1 = e.1
  · rw [if_pos still]
    constructor
    · intro none
      cases none
    · intro both
      exact absurd still both.1
  · rw [if_neg still, List.mem_cons, List.mem_singleton]
    constructor
    · intro either
      exact ⟨still, either⟩
    · intro both
      exact both.2

include follows records in
theorem unit_emitted {core : UnitCore} : .unit core ∈ (relink s.read).records ↔
    ∃ e ∈ s.read.standing, settled e.1 ≠ e.1 ∧ core = e.2.pointing settled := by
  rw [records, List.mem_flatMap]
  apply exists_congr
  intro e
  rw [and_congr_right_iff]
  intro mem
  rw [mem_correction follows mem, Record.unit.injEq, and_congr_right_iff]
  intro _
  exact or_iff_left (fun none => nomatch none)

include follows records in
theorem edge_emitted {rel : Relation} : .relation rel ∈ (relink s.read).records ↔
    ∃ e ∈ s.read.standing, settled e.1 ≠ e.1 ∧
      rel = Relation.new .supersedes (settled e.1) e.1 := by
  rw [records, List.mem_flatMap]
  apply exists_congr
  intro e
  rw [and_congr_right_iff]
  intro mem
  rw [mem_correction follows mem, Record.relation.injEq, and_congr_right_iff]
  intro _
  exact or_iff_right (fun none => nomatch none)

include reachable clean follows records run

/-- Relinking replaces what moves by what it becomes, and nothing else. -/
theorem succeeds_after (x u : Uid) :
    s'.read.Succeeds x u ↔ s.read.Succeeds x u ∨ (s.read.Moved settled u ∧ x = settled u) := by
  rw [appended_succeeds reachable clean run]
  apply or_congr_right
  constructor
  · intro found
    obtain ⟨rel, mem, key⟩ := found
    obtain ⟨e, stands, moved, rfl⟩ := (edge_emitted follows records).mp mem
    obtain ⟨src, dst⟩ := Compact.ends_of_key key
    change settled e.1 = x at src
    change e.1 = u at dst
    rw [← dst, ← src]
    exact ⟨⟨moved, e.2, stands⟩, rfl⟩
  · intro both
    obtain ⟨⟨moved, core, stands⟩, here⟩ := both
    rw [here]
    exact ⟨_, (edge_emitted follows records).mpr ⟨(u, core), stands, moved, rfl⟩, rfl⟩

theorem one_unmoved {u : Uid} (still : ¬ s.read.Moved settled u) :
    s'.read.one.get u = s.read.one.get u := by
  have after := succeeds_after reachable clean follows records run
  have spelled : Spelled s.records := fun rel mem =>
    clean_spelled clean rel (List.mem_append_left _ mem)
  have same : s'.read.succs u = s.read.succs u := by
    apply BTreeSet.ext_mem
    intro x
    rw [mem_succs, mem_succs, after]
    exact or_iff_left fun both => still both.1
  rw [one_get, one_get, same]
  apply chosen_congr
  intro a first b second
  rw [mem_succs] at first second
  rw [Bool.eq_iff_iff, has_relation_iff (append_sound reachable.sound run)
    (appended_spelled clean run), has_relation_iff reachable.sound spelled, after]
  apply or_iff_left
  intro both
  obtain ⟨⟨moved, core, stands⟩, here⟩ := both
  rw [here] at second
  exact follows.uncontested _ stands moved u first second

include acyclic

theorem one_moved {u : Uid} (moves : s.read.Moved settled u) :
    s'.read.one.get u = some (settled u) := by
  obtain ⟨moved, core, stands⟩ := moves
  have alone : ∀ x, ¬ s.read.Succeeds x u := by
    intro x replaced
    have none := (newest_none acyclic.chains_end u).mp ((s.read.mem_standing _).mp stands).2
    apply follows.unforked _ stands moved
    rw [mem_forked]
    exact ⟨⟨x, (s.read.mem_succs x u).mpr replaced⟩, none⟩
  rw [one_get]
  apply chosen_single
  intro y
  rw [mem_succs, succeeds_after reachable clean follows records run]
  constructor
  · intro either
    rcases either with old | new
    · exact absurd old (alone y)
    · exact new.2
  · intro here
    exact Or.inr ⟨⟨moved, core, stands⟩, here⟩

/-- A unit is replaced after relinking when it was or when it moves. -/
theorem one_after (u : Uid) : s'.read.one.get u = none ↔
    ¬ s.read.Moved settled u ∧ s.read.one.get u = none := by
  by_cases moves : s.read.Moved settled u
  · rw [one_moved reachable clean acyclic follows records run moves]
    exact iff_of_false (fun none => nomatch none) fun both => both.1 moves
  · rw [one_unmoved reachable clean follows records run moves]
    exact (and_iff_right moves).symm

/-- No chain of replacements closes after relinking: what a unit becomes ends one. -/
theorem chains_end_after : ChainsEnd s'.read.one := by
  have before := acyclic.chains_end
  have after := one_after reachable clean acyclic follows records run
  have last : ∀ u, s.read.Moved settled u → s'.read.one.get (settled u) = none := by
    intro u moves
    obtain ⟨stands, still⟩ := follows.settled_stands before u
    rw [after]
    exact ⟨still, by rw [one_get]; exact (newest_none before _).mp stands⟩
  have step : ∀ {a b}, s'.read.one.get a = some b → s'.read.one.get b ≠ none →
      s.read.one.get a = some b := by
    intro a b found more
    by_cases moves : s.read.Moved settled a
    · rw [one_moved reachable clean acyclic follows records run moves] at found
      rw [← Option.some.inj found] at more
      exact absurd (last a moves) more
    · rw [one_unmoved reachable clean follows records run moves] at found
      exact found
  have old : ∀ {a b}, TransGen (fun a b => s'.read.one.get a = some b) a b →
      s'.read.one.get b ≠ none → TransGen (fun a b => s.read.one.get a = some b) a b := by
    intro a b chain
    induction chain with
    | single found =>
      intro more
      exact TransGen.single (step found more)
    | tail chain found ih =>
      intro more
      apply (ih _).tail (step found more)
      rw [found]
      exact Option.some_ne_none _
  intro u loop
  apply before u
  apply old loop
  obtain ⟨b, first, _⟩ := TransGen.head'_iff.mp loop
  rw [first]
  exact Option.some_ne_none _

theorem newest_after (u : Uid) : s'.read.newest.get u = none ↔
    ¬ s.read.Moved settled u ∧ s.read.newest.get u = none := by
  rw [newest_none (chains_end_after reachable clean acyclic follows records run), ← one_get,
    one_after reachable clean acyclic follows records run, one_get,
    newest_none acyclic.chains_end]

/-- What a settled unit names is standing. -/
theorem settled_current (r : Uid) : s'.read.newest.get (settled r) = none := by
  obtain ⟨stands, still⟩ := follows.settled_stands acyclic.chains_end r
  rw [newest_after reachable clean acyclic follows records run]
  exact ⟨still, stands⟩

theorem standing_current (recast : s.read.Recast settled) :
    ∀ e ∈ s'.read.standing, ∀ r, Refers e.2 r → s'.read.newest.get r = none := by
  intro e mem r names
  obtain ⟨held, unreplaced⟩ := (s'.read.mem_standing e).mp mem
  obtain ⟨still, stands⟩ := (newest_after reachable clean acyclic follows records run e.1).mp
    unreplaced
  -- a unit that stands names what some unit names once it is settled
  have followed : ∃ core, Refers (UnitCore.pointing settled core) r := by
    rcases appended_core reachable run held with old | ⟨new, named⟩
    · have at_ : e ∈ s.read.standing := (s.read.mem_standing e).mpr ⟨old, stands⟩
      obtain ⟨recorded, uid⟩ := held_recorded reachable.sound e.1 e.2 old
      have same : canonicalUid (e.2.pointing settled) = canonicalUid e.2 := by
        rw [follows.lands at_, uid]
        by_contra moved
        exact still ⟨moved, e.2, at_⟩
      obtain ⟨deps, grounds⟩ := recast (e.2.pointing settled) (mem_recorded_units.mpr
        (List.mem_append_right _ (List.mem_flatMap.mpr ⟨e.2, mem_recorded_units.mpr recorded,
          List.mem_cons_of_mem _ List.mem_cons_self⟩)))
        e.2 (mem_recorded_units.mpr (List.mem_append_left _ recorded)) same
      refine ⟨e.2, ?_⟩
      rw [Refers, grounds, deps]
      exact names
    · obtain ⟨d, _, _, core⟩ := (unit_emitted follows records).mp new
      exact ⟨d.2, core ▸ names⟩
  obtain ⟨core, names⟩ := followed
  have image : r ∈ unitPointing.refs (unitPointing.point settled core) := names
  rw [unitPointing.refs_point] at image
  obtain ⟨r', _, here⟩ := image
  rw [← here]
  exact settled_current reachable clean acyclic follows records run r'

end

/-- A unit that is emitted names only what is held or emitted, or what was named before. -/
theorem emitted_known {s : Store} {settled : Uid → Uid} (acyclic : s.read.Acyclic)
    (follows : s.read.Follows settled)
    (records : (relink s.read).records =
      s.read.standing.flatMap (fun e => correction (e.1, e.2.pointing settled)))
    {core : UnitCore} (emitted : .unit core ∈ (relink s.read).records) {r : Uid}
    (names : Refers core r) :
    s.read.Present r ∨ HasUnit (relink s.read).records r ∨
      ∃ u core', s.read.coreAt u = some core' ∧ Refers core' r := by
  have present : ∀ u core', s.read.coreAt u = some core' → s.read.Present u := by
    intro u core' held
    obtain ⟨unit, held, _⟩ := Option.map_eq_some_iff.mp held
    rw [StoreRead.Present, StoreRead.containsUid, BTreeMap.contains_iff]
    exact ⟨unit, held⟩
  -- a standing unit stays or is emitted where it settles
  have standing : ∀ u core', s.read.coreAt u = some core' → s.read.newest.get u = none →
      s.read.Present (settled u) ∨ HasUnit (relink s.read).records (settled u) := by
    intro u core' held stands
    have mem : (u, core') ∈ s.read.standing := (s.read.mem_standing _).mpr ⟨held, stands⟩
    by_cases still : settled u = u
    · rw [still]
      exact Or.inl (present u core' held)
    · have lands := follows.lands mem
      have emits : .unit (core'.pointing settled) ∈ (relink s.read).records :=
        (unit_emitted follows records).mpr ⟨(u, core'), mem, still, rfl⟩
      exact Or.inr ⟨core'.pointing settled, emits, lands⟩
  obtain ⟨e, mem, _, here⟩ := (unit_emitted follows records).mp emitted
  have image : r ∈ unitPointing.refs (unitPointing.point settled e.2) := by
    rw [here] at names
    exact names
  rw [unitPointing.refs_point] at image
  obtain ⟨r', names', here⟩ := image
  have held' := ((s.read.mem_standing e).mp mem).1
  rw [← here]
  cases replaced : s.read.newest.get r' with
  | none =>
    cases held : s.read.coreAt r' with
    | some core' =>
      rcases standing r' core' held replaced with stays | moves
      · exact Or.inl stays
      · exact Or.inr (Or.inl moves)
    | none =>
      rw [follows.settlement.absent r' replaced held]
      exact Or.inr (Or.inr ⟨e.1, e.2, held', names'⟩)
  | some h =>
    have stands := newest_ends acyclic.chains_end r' h replaced
    rw [follows.settlement.replaced r' h replaced]
    cases held : s.read.coreAt h with
    | some core' =>
      rcases standing h core' held stands with stays | moves
      · exact Or.inl stays
      · exact Or.inr (Or.inl moves)
    | none =>
      rw [follows.settlement.absent h stands held]
      rcases follows.heads e mem r' names' h replaced with held | named
      · exact Or.inl held
      · exact Or.inr (Or.inr named)

end

theorem no_circle {R : Uid → Uid → Prop} (rank : Uid → Nat) (falls : ∀ a b, R a b → rank b < rank a)
    (u : Uid) : ¬ TransGen R u u := by
  have below : ∀ {a b}, TransGen R a b → rank b < rank a := by
    intro a b chain
    induction chain with
    | single step => exact falls _ _ step
    | tail _ step ih => exact (falls _ _ step).trans ih
  intro loop
  exact lt_irrefl _ (below loop)

section
local instance plainRelinkText : Unicode := .plain
local instance modPrimeRelinkHash : Blake3 := .modPrime

/-- A bare claim, or an edge with nothing but its ends that replaces one. -/
def isPlain : Record → Bool
  | .unit core => decide (core.schema = .kernel .claim ∧ Unicode.isNfc core.gist = true ∧
      core.body = none ∧ core.detail = none ∧ core.source = none ∧ core.extra = ∅)
  | .relation rel => decide (rel = Relation.new .supersedes rel.src rel.dst)
  | _ => false

theorem plain_faithful {r : Record} (plain : isPlain r = true)
    (fits : (toCbor r).length < Cursor.limit) : r.Faithful := by
  cases r with
  | unit core =>
    obtain ⟨schema, gist, body, detail, source, extra⟩ := of_decide_eq_true plain
    refine ⟨⟨?_, gist, ?_, ?_, ?_, ?_⟩, fits⟩
    · rw [schema]
      decide
    · rw [body]
      exact fun t none => nomatch none
    · rw [detail]
      exact fun t none => nomatch none
    · rw [source]
      exact fun t none => nomatch none
    · rw [extra]
      exact fun e none => nomatch none
  | relation rel =>
    rw [of_decide_eq_true plain] at fits ⊢
    have kind : RelKind.parse RelKind.supersedes.asStr = some .supersedes := by decide
    refine ⟨⟨kind, ?_, rfl, ?_⟩, fits⟩
    · exact fun w none => nomatch none
    · exact fun e none => nomatch none
  | _ => cases plain

theorem plain_clean {records : List Record}
    (plain : ∀ r ∈ records, isPlain r = true ∧ (toCbor r).length < Cursor.limit)
    (accepted : refuseUnloggable records = .ok ()) (apart : NoCollision records)
    (subjects : HashApart (subjectStrings records)) : Clean records where
  accepted := accepted
  faithful r mem := plain_faithful (plain r mem).1 (plain r mem).2
  apart := apart
  subjects := subjects

/-- A claim that depends on the given ones. -/
def resting (gist : String) (present : isBlank gist = false) (deps : List UnitCore) : UnitCore :=
  bareClaim gist present (BTreeSet.ofList (deps.map canonicalUid))

/-- A claim, its correction, and a claim that rests on what was corrected. -/
def corrected : List UnitCore :=
  let a := resting "a" present_a []
  [a, resting "b" present_b [], resting "m" present_m [a]]

/-- And one that rests on both, with another that rests on that one. -/
def restingTwice : List UnitCore :=
  let a := resting "a" present_a []
  let m := resting "m" present_m [a]
  let x := resting "x" (by decide) [a, m]
  [a, resting "b" present_b [], m, x, resting "y" (by decide) [x]]

/-- The second of the units replaces the first. -/
def replacing (units : List UnitCore) : Store :=
  fromRecords (units.map .unit ++ [.relation (Relation.new .supersedes
    (canonicalUid (resting "b" present_b [])) (canonicalUid (resting "a" present_a [])))])

/-- How deep a unit rests, by its place in the list. -/
def depth (units : List UnitCore) (u : Uid) : Nat := (units.map canonicalUid).idxOf u

theorem acyclic_of_depth {s : StoreRead} (units : List UnitCore)
    (rests : ∀ e ∈ s.units.entries, ∀ r ∈ e.2.core.grounds.toList ++ e.2.core.deps.toList,
      depth units r < depth units e.1)
    (supersedes : ∀ r ∈ s.relationsOfKind .supersedes,
      depth units r.dst < depth units r.src) : s.Acyclic := by
  refine ⟨no_circle (depth units) ?_, no_circle (depth units) ?_⟩
  · intro a b names
    obtain ⟨core, held, refers⟩ := names
    obtain ⟨unit, held, here⟩ := Option.map_eq_some_iff.mp held
    apply rests (a, unit) ((BTreeMap.mem_entries_iff _ _ _).mpr held)
    rw [← here] at refers
    rw [List.mem_append, BTreeSet.mem_toList, BTreeSet.mem_toList]
    exact refers
  · intro a b replaced
    obtain ⟨r, mem, src, dst⟩ := replaced
    rw [← src, ← dst]
    exact supersedes r mem

/-- Where the references of the corrected claims end up. -/
def settling (u : Uid) : Uid :=
  let a := resting "a" present_a []
  let b := resting "b" present_b []
  if u = canonicalUid a then canonicalUid b
  else if u = canonicalUid (resting "m" present_m [a]) then
    canonicalUid (resting "m" present_m [b])
  else u

theorem corrected_follows : (replacing corrected).read.Follows settling := by
  have newest : ∀ e ∈ (replacing corrected).read.newest.entries, settling e.1 = settling e.2 := by
    decide +kernel
  have lands : ∀ e ∈ (replacing corrected).read.standing,
      canonicalUid (e.2.pointing settling) = settling e.1 := by
    decide +kernel
  have moves : ∀ u ∈ corrected.map canonicalUid,
      (replacing corrected).read.newest.contains u = true ∨
        (replacing corrected).read.units.contains u = true := by
    decide +kernel
  have ends : ∀ e ∈ (replacing corrected).read.standing,
      settling (settling e.1) = settling e.1 ∧
        (replacing corrected).read.newest.get (settling e.1) = none ∧
        e.1 ∉ (replacing corrected).read.forked := by
    decide +kernel
  have unasked : ∀ e ∈ (replacing corrected).read.standing, settling e.1 ≠ e.1 →
      ∀ r ∈ (replacing corrected).read.relationsOfKind .supersedes, r.src ≠ e.1 := by
    decide +kernel
  have heads : ∀ e ∈ (replacing corrected).read.newest.entries,
      (replacing corrected).read.containsUid e.2 = true := by
    decide +kernel
  have once : ∀ e ∈ (replacing corrected).read.standing,
      canonicalUid ((replacing corrected).read.repointed e.2) ≠ e.1 →
        settling e.1 = canonicalUid ((replacing corrected).read.repointed e.2) := by
    decide +kernel
  refine ⟨⟨?_, ?_, ?_⟩, ?_, ?_, ?_, ?_, ?_, ?_, ?_⟩
  · intro k h found
    exact newest (k, h) ((BTreeMap.mem_entries_iff _ _ _).mpr found)
  · intro u core stands held
    exact (lands (u, core) ((mem_standing _ _).mpr ⟨held, stands⟩)).symm
  · intro r stands held
    -- the two that move are a replaced one and a held one
    have other : r ∉ corrected.map canonicalUid := by
      intro mem
      rcases moves r mem with replaced | here
      · rw [BTreeMap.contains, stands] at replaced
        cases replaced
      · obtain ⟨unit, found⟩ := (BTreeMap.contains_iff _ _).mp here
        rw [coreAt, show (replacing corrected).read.units.get r = some unit from found] at held
        cases held
    rw [settling, if_neg, if_neg]
    · intro here
      apply other
      rw [here]
      decide +kernel
    · intro here
      apply other
      rw [here]
      decide +kernel
  · intro e mem direct
    exact Or.inl (once e mem direct)
  · decide +kernel
  · intro e mem _
    exact (ends e mem).2.2
  · intro e mem _
    exact (ends e mem).2.1
  · intro e mem
    exact (ends e mem).1
  · intro e mem moved u replaces _
    obtain ⟨r, held, src, _⟩ := replaces
    exact unasked e mem moved r held src
  · intro e _ r _ h found
    exact Or.inl (heads (r, h) ((BTreeMap.mem_entries_iff _ _ _).mpr found))

end
end Smysl
