import Smysl.Graph.Compact

/-!
Effective status: what a store's units are worth once retractions are taken into
account. Under the strict policy the unfounded units are the least set that holds
the retracted ones and whatever rests on nothing but units of the set.
-/
namespace Smysl

/-- How far a retraction reaches. -/
inductive RetractionPolicy
  | strict
  | advisory
  | ignore
  deriving DecidableEq, Repr

namespace RetractionPolicy

def affectsStatus : RetractionPolicy → Bool
  | strict => true
  | advisory => true
  | ignore => false

def isTransitive : RetractionPolicy → Bool
  | strict => true
  | _ => false

end RetractionPolicy

structure EffectiveStatus where
  map : BTreeMap Uid Status := ∅
  retracted : BTreeSet Uid := ∅
  orphaned : BTreeSet Uid := ∅
  deriving DecidableEq

namespace EffectiveStatus

def get (out : EffectiveStatus) (uid : Uid) : Option Status := out.map.get uid

/-- Everything a retraction reached. -/
def blastRadius (out : EffectiveStatus) : BTreeSet Uid := out.retracted.extend out.orphaned.toList

/-- The status each unit declares. -/
def declared (s : StoreRead) : EffectiveStatus where
  map := BTreeMap.ofList (s.units.entries.map (fun e => (e.1, e.2.core.status)))

/-- The unit a `retracts` edge names, when it is present. -/
def retract (s : StoreRead) (out : EffectiveStatus) (rel : Relation) : EffectiveStatus :=
  if s.containsUid rel.dst then
    { out with
      retracted := out.retracted.insert rel.dst
      map := out.map.insert rel.dst .unfounded }
  else out

def orphan (out : EffectiveStatus) (uid : Uid) : EffectiveStatus :=
  { out with
    map := out.map.insert uid .unfounded
    orphaned := out.orphaned.insert uid }

/-- Look at one unit, and note whether it was orphaned. -/
def visit (s : StoreRead) (state : EffectiveStatus × Bool) (e : Uid × HeldUnit) :
    EffectiveStatus × Bool :=
  let (out, changed) := state
  if e.2.core.grounds.isEmpty || out.get e.1 == some .unfounded then (out, changed)
  else
    let present := e.2.core.grounds.toList.filter s.containsUid
    if present.isEmpty then (out, changed)
    else if present.all (fun g => out.get g == some .unfounded) then (out.orphan e.1, true)
    else (out, changed)

/-- One round of the loop: every unit once, in ascending order. -/
def pass (s : StoreRead) (out : EffectiveStatus) : EffectiveStatus × Bool :=
  s.units.entries.foldl (visit s) (out, false)

/-- The loop, for at most so many rounds. -/
def settle (s : StoreRead) : Nat → EffectiveStatus → EffectiveStatus
  | 0, out => out
  | rounds + 1, out =>
    let (next, changed) := pass s out
    if changed then settle s rounds next else next

end EffectiveStatus

section
variable [Unicode] [Blake3]

/-- `effective_status`. Each round but the last orphans a unit, so that there is one
round more than there are units at most. -/
def effectiveStatus (s : StoreRead) (policy : RetractionPolicy) : EffectiveStatus :=
  let out := EffectiveStatus.declared s
  if !policy.affectsStatus then out
  else
    let out := (s.relationsOfKind .retracts).foldl (EffectiveStatus.retract s) out
    if !policy.isTransitive then out
    else EffectiveStatus.settle s (s.units.entries.length + 1) out

end

namespace EffectiveStatus

/-- The units that read as unfounded. -/
def unfounded (out : EffectiveStatus) : Set Uid := { uid | out.get uid = some .unfounded }

/-- Whether a unit has a present ground, and only ones that are gone. -/
def Unsupported (s : StoreRead) (gone : Set Uid) (core : UnitCore) : Prop :=
  (∃ g ∈ core.grounds, s.containsUid g = true) ∧
    ∀ g ∈ core.grounds, s.containsUid g = true → g ∈ gone

theorem orphan_unfounded (out : EffectiveStatus) (uid : Uid) :
    (out.orphan uid).unfounded = insert uid out.unfounded := by
  ext u
  rw [Set.mem_insert_iff]
  change (out.map.insert uid .unfounded).get u = some .unfounded ↔
    u = uid ∨ out.map.get u = some .unfounded
  rw [BTreeMap.get_insert]
  by_cases same : u = uid
  · simp [same]
  · simp [same]

/-- What looking at a unit can do: leave the state, or orphan the unit. -/
theorem visit_cases (s : StoreRead) (out : EffectiveStatus) (changed : Bool)
    (e : Uid × HeldUnit) :
    (visit s (out, changed) e = (out, changed) ∧
        (Unsupported s out.unfounded e.2.core → e.1 ∈ out.unfounded)) ∨
      (e.1 ∉ out.unfounded ∧ Unsupported s out.unfounded e.2.core ∧
        visit s (out, changed) e = (out.orphan e.1, true)) := by
  rw [visit]
  dsimp only
  by_cases skip : (e.2.core.grounds.isEmpty || out.get e.1 == some .unfounded) = true
  · apply Or.inl
    rw [if_pos skip]
    refine ⟨rfl, fun unsupported => ?_⟩
    rw [Bool.or_eq_true, beq_iff_eq] at skip
    rcases skip with none' | already
    · obtain ⟨⟨g, mem, _⟩, _⟩ := unsupported
      rw [BTreeSet.isEmpty_iff] at none'
      rw [none'] at mem
      exact absurd mem (BTreeSet.not_mem_emptyCollection g)
    · exact already
  · rw [if_neg skip]
    have standing : e.1 ∉ out.unfounded := by
      intro gone
      apply skip
      rw [Bool.or_eq_true, beq_iff_eq]
      exact Or.inr gone
    by_cases absent : (e.2.core.grounds.toList.filter s.containsUid).isEmpty = true
    · apply Or.inl
      rw [if_pos absent]
      refine ⟨rfl, fun unsupported => ?_⟩
      obtain ⟨⟨g, mem, present⟩, _⟩ := unsupported
      rw [List.isEmpty_iff, List.filter_eq_nil_iff] at absent
      exact absurd present (absent g ((BTreeSet.mem_toList _ g).mpr mem))
    · rw [if_neg absent]
      have some' : ∃ g ∈ e.2.core.grounds, s.containsUid g = true := by
        rw [List.isEmpty_iff, List.filter_eq_nil_iff] at absent
        simp only [not_forall, not_not] at absent
        obtain ⟨g, mem, present⟩ := absent
        exact ⟨g, (BTreeSet.mem_toList _ g).mp mem, present⟩
      by_cases all : (e.2.core.grounds.toList.filter s.containsUid).all
          (fun g => out.get g == some .unfounded) = true
      · apply Or.inr
        rw [if_pos all]
        refine ⟨standing, ⟨some', fun g mem present => ?_⟩, rfl⟩
        have gone := List.all_eq_true.mp all g
          (List.mem_filter.mpr ⟨(BTreeSet.mem_toList _ g).mpr mem, present⟩)
        exact beq_iff_eq.mp gone
      · apply Or.inl
        rw [if_neg all]
        refine ⟨rfl, fun unsupported => absurd ?_ all⟩
        apply List.all_eq_true.mpr
        intro g mem
        obtain ⟨mem, present⟩ := List.mem_filter.mp mem
        exact beq_iff_eq.mpr (unsupported.2 g ((BTreeSet.mem_toList _ g).mp mem) present)

/-- A round over some units: what is gone stays gone, and the flag is set exactly when
something more is gone. -/
theorem round_grows (s : StoreRead) (es : List (Uid × HeldUnit)) (out : EffectiveStatus)
    (changed : Bool) : out.unfounded ⊆ (es.foldl (visit s) (out, changed)).1.unfounded := by
  induction es generalizing out changed with
  | nil => exact subset_rfl
  | cons e es ih =>
    rw [List.foldl_cons]
    rcases visit_cases s out changed e with ⟨same, _⟩ | ⟨_, _, orphaned⟩
    · rw [same]
      exact ih out changed
    · rw [orphaned]
      have more := ih (out.orphan e.1) true
      rw [orphan_unfounded] at more
      exact (Set.subset_insert _ _).trans more

theorem round_flag_kept (s : StoreRead) (es : List (Uid × HeldUnit)) (out : EffectiveStatus) :
    (es.foldl (visit s) (out, true)).2 = true := by
  induction es generalizing out with
  | nil => rfl
  | cons e es ih =>
    rw [List.foldl_cons]
    rcases visit_cases s out true e with ⟨same, _⟩ | ⟨_, _, orphaned⟩
    · rw [same]
      exact ih out
    · rw [orphaned]
      exact ih (out.orphan e.1)

/-- A round that sets no flag changes nothing and finds nothing unsupported. -/
theorem round_quiet {s : StoreRead} {es : List (Uid × HeldUnit)} {out : EffectiveStatus}
    (quiet : (es.foldl (visit s) (out, false)).2 = false) :
    es.foldl (visit s) (out, false) = (out, false) ∧
      ∀ e ∈ es, Unsupported s out.unfounded e.2.core → e.1 ∈ out.unfounded := by
  induction es with
  | nil => exact ⟨rfl, fun e mem => nomatch mem⟩
  | cons e es ih =>
    rw [List.foldl_cons] at quiet ⊢
    rcases visit_cases s out false e with ⟨same, supported⟩ | ⟨_, _, orphaned⟩
    · rw [same] at quiet ⊢
      obtain ⟨rest, each⟩ := ih quiet
      refine ⟨rest, fun x mem => ?_⟩
      rcases List.mem_cons.mp mem with here | mem
      · rw [here]
        exact supported
      · exact each x mem
    · rw [orphaned, round_flag_kept] at quiet
      cases quiet

theorem round_moves {s : StoreRead} {es : List (Uid × HeldUnit)} {out : EffectiveStatus}
    (moved : (es.foldl (visit s) (out, false)).2 = true) :
    ∃ e ∈ es, e.1 ∉ out.unfounded ∧ e.1 ∈ (es.foldl (visit s) (out, false)).1.unfounded := by
  induction es with
  | nil => cases moved
  | cons e es ih =>
    rw [List.foldl_cons] at moved ⊢
    rcases visit_cases s out false e with ⟨same, _⟩ | ⟨standing, _, orphaned⟩
    · rw [same] at moved ⊢
      obtain ⟨x, mem, before, after⟩ := ih moved
      exact ⟨x, List.mem_cons_of_mem e mem, before, after⟩
    · rw [orphaned]
      refine ⟨e, List.mem_cons_self, standing, ?_⟩
      apply round_grows
      rw [orphan_unfounded]
      exact Set.mem_insert _ _

/-- A set that holds whatever rests on nothing but its units. -/
def Inherits (s : StoreRead) (gone : Set Uid) : Prop :=
  ∀ uid u, s.units.get uid = some u → Unsupported s gone u.core → uid ∈ gone

theorem round_within {s : StoreRead} {gone : Set Uid} (inherits : Inherits s gone)
    {es : List (Uid × HeldUnit)} (held : ∀ e ∈ es, s.units.get e.1 = some e.2)
    {out : EffectiveStatus} (within : out.unfounded ⊆ gone) (changed : Bool) :
    (es.foldl (visit s) (out, changed)).1.unfounded ⊆ gone := by
  induction es generalizing out changed with
  | nil => exact within
  | cons e es ih =>
    rw [List.foldl_cons]
    have later : ∀ x ∈ es, s.units.get x.1 = some x.2 := by
      intro x mem
      exact held x (List.mem_cons_of_mem e mem)
    rcases visit_cases s out changed e with ⟨same, _⟩ | ⟨_, unsupported, orphaned⟩
    · rw [same]
      exact ih later within changed
    · rw [orphaned]
      apply ih later
      rw [orphan_unfounded]
      apply Set.insert_subset _ within
      apply inherits e.1 e.2 (held e List.mem_cons_self)
      exact ⟨unsupported.1, fun g mem present => within (unsupported.2 g mem present)⟩

theorem entries_held {s : StoreRead} {e : Uid × HeldUnit} (mem : e ∈ s.units.entries) :
    s.units.get e.1 = some e.2 := (BTreeMap.mem_entries_iff s.units e.1 e.2).mp mem

/-- How many units still stand. -/
def standing (s : StoreRead) (out : EffectiveStatus) : Nat :=
  (s.units.entries.filter (fun e => out.get e.1 != some .unfounded)).length

theorem standing_falls {s : StoreRead} {out : EffectiveStatus} (moved : (pass s out).2 = true) :
    standing s (pass s out).1 < standing s out := by
  obtain ⟨e, mem, before, after⟩ := round_moves moved
  have grows := round_grows s s.units.entries out false
  have part : s.units.entries.filter (fun e => (pass s out).1.get e.1 != some .unfounded) =
      (s.units.entries.filter (fun e => out.get e.1 != some .unfounded)).filter
        (fun e => (pass s out).1.get e.1 != some .unfounded) := by
    rw [List.filter_filter]
    apply List.filter_congr
    intro x _
    rw [Bool.eq_iff_iff, Bool.and_eq_true, bne_iff_ne, bne_iff_ne]
    constructor
    · intro stands
      exact ⟨stands, fun gone => stands (grows gone)⟩
    · intro stands
      exact stands.1
  rw [standing, part, standing]
  apply List.length_filter_lt_length_iff_exists.mpr
  refine ⟨e, List.mem_filter.mpr ⟨mem, bne_iff_ne.mpr before⟩, ?_⟩
  rw [bne_iff_ne, not_not]
  exact after

/-- With a round more than units that stand, the loop has ended by itself. -/
theorem settle_ends {s : StoreRead} {rounds : Nat} {out : EffectiveStatus}
    (enough : standing s out < rounds) :
    pass s (settle s rounds out) = (settle s rounds out, false) := by
  induction rounds generalizing out with
  | zero => exact absurd enough (Nat.not_lt_zero _)
  | succ rounds ih =>
    rw [settle]
    dsimp only
    by_cases moved : (pass s out).2 = true
    · rw [if_pos moved]
      have falls := standing_falls moved
      exact ih (by omega)
    · rw [if_neg moved]
      have same := (round_quiet (Bool.eq_false_of_not_eq_true moved)).1
      change pass s out = (out, false) at same
      rw [same]
      exact same

theorem settle_grows (s : StoreRead) (rounds : Nat) (out : EffectiveStatus) :
    out.unfounded ⊆ (settle s rounds out).unfounded := by
  induction rounds generalizing out with
  | zero => exact subset_rfl
  | succ rounds ih =>
    have once := round_grows s s.units.entries out false
    rw [settle]
    dsimp only
    split
    · exact once.trans (ih (pass s out).1)
    · exact once

theorem settle_within {s : StoreRead} {gone : Set Uid} (inherits : Inherits s gone) {rounds : Nat}
    {out : EffectiveStatus} (within : out.unfounded ⊆ gone) :
    (settle s rounds out).unfounded ⊆ gone := by
  induction rounds generalizing out with
  | zero => exact within
  | succ rounds ih =>
    have once := @round_within s gone inherits s.units.entries (fun _ => entries_held) out within false
    rw [settle]
    dsimp only
    split
    · exact ih once
    · exact once

theorem declared_unfounded (s : StoreRead) : (declared s).unfounded = ∅ := by
  ext uid
  constructor
  · intro gone
    have distinct : ((s.units.entries.map (fun e => (e.1, e.2.core.status))).map Prod.fst).Nodup := by
      rw [List.map_map]
      exact s.units.keys_nodup
    change (BTreeMap.ofList _).get uid = some Status.unfounded at gone
    rw [BTreeMap.get_ofList distinct] at gone
    obtain ⟨e, _, made⟩ := List.mem_map.mp (OrdMap.lookup_mem gone)
    exact absurd (Prod.ext_iff.mp made).2 e.2.core.authored
  · intro none'
    cases none'

theorem retract_unfounded (s : StoreRead) (out : EffectiveStatus) (rel : Relation) :
    (retract s out rel).unfounded =
      out.unfounded ∪ { uid | s.containsUid rel.dst = true ∧ uid = rel.dst } := by
  ext uid
  rw [Set.mem_union, Set.mem_ofPred_eq, retract]
  by_cases present : s.containsUid rel.dst = true
  · rw [if_pos present]
    change (out.map.insert rel.dst Status.unfounded).get uid = some Status.unfounded ↔
      out.map.get uid = some Status.unfounded ∨ _
    rw [BTreeMap.get_insert]
    by_cases same : uid = rel.dst
    · simp [same, present]
    · simp [same]
  · rw [if_neg present]
    simp [present]

/-- The present units that are retracted. -/
def Retracted (s : StoreRead) (rels : List Relation) : Set Uid :=
  { uid | s.containsUid uid = true ∧ ∃ rel ∈ rels, uid = rel.dst }

theorem retract_all_unfounded (s : StoreRead) (rels : List Relation) (out : EffectiveStatus) :
    (rels.foldl (retract s) out).unfounded = out.unfounded ∪ Retracted s rels := by
  induction rels generalizing out with
  | nil =>
    ext uid
    simp [Retracted]
  | cons rel rels ih =>
    rw [List.foldl_cons, ih, retract_unfounded]
    ext uid
    simp only [Set.mem_union, Set.mem_ofPred_eq, Retracted, List.mem_cons]
    constructor
    · intro either
      rcases either with (before | ⟨present, same⟩) | ⟨present, r, mem, same⟩
      · exact Or.inl before
      · exact Or.inr ⟨same ▸ present, rel, Or.inl rfl, same⟩
      · exact Or.inr ⟨present, r, Or.inr mem, same⟩
    · intro either
      rcases either with before | ⟨present, r, mem, same⟩
      · exact Or.inl (Or.inl before)
      · rcases mem with here | mem
        · subst here
          exact Or.inl (Or.inr ⟨same ▸ present, same⟩)
        · exact Or.inr ⟨present, r, mem, same⟩

section
variable [Unicode] [Blake3]

/-- What the units that read as unfounded have to hold. -/
structure Closed (s : StoreRead) (gone : Set Uid) : Prop where
  retracted : ∀ rel ∈ s.relationsOfKind .retracts, s.containsUid rel.dst = true → rel.dst ∈ gone
  unsupported : ∀ uid u, s.units.get uid = some u → Unsupported s gone u.core → uid ∈ gone

omit [Unicode] in
/-- The loop of the strict policy ends, and what is unfounded when it does is the least
closed set. -/
theorem strict_least (s : StoreRead) :
    IsLeast { gone | Closed s gone } (effectiveStatus s .strict).unfounded := by
  have start := retract_all_unfounded s (s.relationsOfKind .retracts) (declared s)
  rw [declared_unfounded, Set.empty_union] at start
  have shape : effectiveStatus s .strict = settle s (s.units.entries.length + 1)
      ((s.relationsOfKind .retracts).foldl (retract s) (declared s)) := rfl
  constructor
  · have ends := @settle_ends s (s.units.entries.length + 1)
      ((s.relationsOfKind .retracts).foldl (retract s) (declared s)) (by
        have below := List.length_filter_le (fun e => ((s.relationsOfKind .retracts).foldl (retract s)
          (declared s)).get e.1 != some .unfounded) s.units.entries
        rw [standing]
        omega)
    rw [← shape] at ends
    refine ⟨fun rel mem present => ?_, fun uid u held unsupported => ?_⟩
    · rw [shape]
      apply settle_grows
      rw [start]
      exact ⟨present, rel, mem, rfl⟩
    · have quiet := (round_quiet (congrArg Prod.snd ends)).2
      exact quiet (uid, u) ((BTreeMap.mem_entries_iff s.units uid u).mpr held) unsupported
  · intro gone closed
    rw [shape]
    apply settle_within closed.unsupported
    rw [start]
    intro uid ⟨present, rel, mem, same⟩
    subst same
    exact closed.retracted rel mem present

end
end EffectiveStatus
namespace Store

/-- Units whose effective status under the strict policy is `unfounded`. -/
def unfounded [Blake3] (s : Store) : BTreeSet Uid :=
  if s.interp.relations.keys.any (fun k => (ofLex k).1 == RelKind.retracts.asStr) then
    let eff := effectiveStatus s.read .strict
    BTreeSet.ofList (s.units.keys.filter (fun u => eff.get u == some .unfounded))
  else ∅

end Store
end Smysl
