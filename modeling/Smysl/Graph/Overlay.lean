import Smysl.Graph.Compact

/-!
A store seen together with records it does not hold: the base is read through, and
the batch is a store of its own, folded over the base's layer.
-/
namespace Smysl

/-- Attach an attestation to the relation whose rid it names, when it is held. -/
def Interpretive.attachToRelation (i : Interpretive) (a : Attestation) : Option Interpretive :=
  match i.rids.get a.uid with
  | some key =>
    match i.relations.get key with
    | some rel =>
      some { i with
        relations := i.relations.insert key
          { rel with attestations := rel.attestations.insert a } }
    | none => none
  | none => none

structure Overlay where
  base : Store
  /-- The batch, less what the base already holds. -/
  batch : Store
  /-- Units whose answer differs from the base's. -/
  units : BTreeMap Uid HeldUnit
  /-- How many of `units` the base does not hold. -/
  added : Nat
  interp : Interpretive
  /-- Attestations whose subject is in neither. -/
  pending : List Attestation

namespace Overlay

/-- Units of the batch, each merged with the base's copy where there is one, and how many
have none. -/
def merged (base batch : Store) : BTreeMap Uid HeldUnit × Nat :=
  batch.units.entries.foldl (fun state e =>
    match base.units.get e.1 with
    | some b =>
      (state.1.insert e.1
        { b with attestations := b.attestations.extend e.2.attestations.toList }, state.2)
    | none => (state.1.insert e.1 e.2, state.2 + 1)) (∅, 0)

/-- What the waiting attestations of either side are attached to. -/
structure Attaching where
  units : BTreeMap Uid HeldUnit
  interp : Interpretive
  pending : List Attestation

/-- Attach an attestation either side was waiting with to what the other may hold. -/
def attach (base : Store) (w : Attaching) (a : Attestation) : Attaching :=
  match w.units.get a.uid with
  | some u =>
    { w with units := w.units.insert a.uid { u with attestations := u.attestations.insert a } }
  | none =>
    match base.units.get a.uid with
    | some b =>
      { w with units := w.units.insert a.uid { b with attestations := b.attestations.insert a } }
    | none =>
      match w.interp.attachToRelation a with
      | some interp => { w with interp := interp }
      | none => { w with pending := w.pending ++ [a] }

section
variable [Unicode] [Blake3]

/-- The base's layer with the batch folded in: its records but for the relations, and the
relations as the batch's store holds them. -/
def layered (base : Interpretive) (batch : Store) : Interpretive :=
  let others := batch.records.foldl (fun i r =>
    match r with
    | .relation _ => i
    | r => i.absorbHot r) base
  batch.interp.relations.values.foldl (fun i rel => i.absorbHot (.relation rel)) others

/-- `base`, seen with `batch` added. -/
def new (base : Store) (batch : List Record) : Overlay :=
  let fresh := batch.filter (fun r => !base.recordHashes.contains (Store.recordHash r))
  let batch := Store.fromRecords fresh
  let units := merged base batch
  let attached := (batch.pendingAttestations ++ base.pendingAttestations).foldl (attach base)
    ⟨units.1, layered base.interp batch, []⟩
  { base := base
    batch := batch
    units := attached.units
    added := units.2
    interp := attached.interp
    pending := attached.pending }

end

/-- `OverlayUnits`: the base's units and the overlay's, merged by uid; where both hold one,
the overlay's copy is taken and the base's passed over. -/
def mergeUnits : List (Uid × HeldUnit) → List (Uid × HeldUnit) → List (Uid × HeldUnit)
  | [], own => own
  | b :: base, [] => b :: base
  | b :: base, o :: own =>
    if b.1 = o.1 then o :: mergeUnits base own
    else if o.1 < b.1 then o :: mergeUnits (b :: base) own
    else b :: mergeUnits base (o :: own)
termination_by base own => base.length + own.length

theorem mem_merge_units {base own : List (Uid × HeldUnit)} {e : Uid × HeldUnit}
    (mem : e ∈ mergeUnits base own) : e ∈ base ∨ e ∈ own := by
  induction base, own using mergeUnits.induct with
  | case1 own =>
    rw [mergeUnits] at mem
    exact Or.inr mem
  | case2 b base =>
    rw [mergeUnits] at mem
    exact Or.inl mem
  | case3 b base o own same ih =>
    rw [mergeUnits, if_pos same] at mem
    rcases List.mem_cons.mp mem with here | mem
    · exact Or.inr (List.mem_cons.mpr (Or.inl here))
    · rcases ih mem with held | held
      · exact Or.inl (List.mem_cons_of_mem b held)
      · exact Or.inr (List.mem_cons_of_mem o held)
  | case4 b base o own apart below ih =>
    rw [mergeUnits, if_neg apart, if_pos below] at mem
    rcases List.mem_cons.mp mem with here | mem
    · exact Or.inr (List.mem_cons.mpr (Or.inl here))
    · rcases ih mem with held | held
      · exact Or.inl held
      · exact Or.inr (List.mem_cons_of_mem o held)
  | case5 b base o own apart above ih =>
    rw [mergeUnits, if_neg apart, if_neg above] at mem
    rcases List.mem_cons.mp mem with here | mem
    · exact Or.inl (List.mem_cons.mpr (Or.inl here))
    · rcases ih mem with held | held
      · exact Or.inl (List.mem_cons_of_mem b held)
      · exact Or.inr held

theorem merge_units_ascending {base own : List (Uid × HeldUnit)}
    (baseAsc : OrdMap.Ascending base) (ownAsc : OrdMap.Ascending own) :
    OrdMap.Ascending (mergeUnits base own) := by
  induction base, own using mergeUnits.induct with
  | case1 own =>
    rw [mergeUnits]
    exact ownAsc
  | case2 b base =>
    rw [mergeUnits]
    exact baseAsc
  | case3 b base o own same ih =>
    rw [mergeUnits, if_pos same]
    refine List.Pairwise.cons (fun e mem => ?_)
      (ih (OrdMap.ascending_tail baseAsc) (OrdMap.ascending_tail ownAsc))
    rcases mem_merge_units mem with held | held
    · rw [← same]
      exact OrdMap.ascending_head baseAsc e held
    · exact OrdMap.ascending_head ownAsc e held
  | case4 b base o own apart below ih =>
    rw [mergeUnits, if_neg apart, if_pos below]
    refine List.Pairwise.cons (fun e mem => ?_) (ih baseAsc (OrdMap.ascending_tail ownAsc))
    rcases mem_merge_units mem with held | held
    · rcases List.mem_cons.mp held with here | held
      · rw [here]
        exact below
      · exact below.trans (OrdMap.ascending_head baseAsc e held)
    · exact OrdMap.ascending_head ownAsc e held
  | case5 b base o own apart above ih =>
    have below : b.1 < o.1 := lt_of_le_of_ne (not_lt.mp above) apart
    rw [mergeUnits, if_neg apart, if_neg above]
    refine List.Pairwise.cons (fun e mem => ?_) (ih (OrdMap.ascending_tail baseAsc) ownAsc)
    rcases mem_merge_units mem with held | held
    · exact OrdMap.ascending_head baseAsc e held
    · rcases List.mem_cons.mp held with here | held
      · rw [here]
        exact below
      · exact below.trans (OrdMap.ascending_head ownAsc e held)

/-- A uid below all the keys is not found. -/
theorem lookup_below {k : Uid} {es : List (Uid × HeldUnit)} (below : ∀ e ∈ es, k < e.1) :
    OrdMap.lookup k es = none := by
  apply OrdMap.lookup_none_iff.mpr
  intro mem
  obtain ⟨e, held, same⟩ := List.mem_map.mp mem
  have less := below e held
  rw [same] at less
  exact lt_irrefl _ less

/-- The overlay's copy answers first, and then the base's. -/
theorem lookup_merge_units {base own : List (Uid × HeldUnit)}
    (baseAsc : OrdMap.Ascending base) (ownAsc : OrdMap.Ascending own) (k : Uid) :
    OrdMap.lookup k (mergeUnits base own) =
      (OrdMap.lookup k own).or (OrdMap.lookup k base) := by
  induction base, own using mergeUnits.induct with
  | case1 own =>
    rw [mergeUnits, OrdMap.lookup.eq_1, Option.or_none]
  | case2 b base =>
    rw [mergeUnits]
    rfl
  | case3 b base o own same ih =>
    have rest := ih (OrdMap.ascending_tail baseAsc) (OrdMap.ascending_tail ownAsc)
    rw [mergeUnits, if_pos same, OrdMap.lookup, OrdMap.lookup, OrdMap.lookup]
    by_cases here : o.1 = k
    · rw [if_pos here, if_pos here]
      rfl
    · rw [if_neg here, if_neg here, if_neg (by rw [same]; exact here)]
      exact rest
  | case4 b base o own apart below ih =>
    have rest := ih baseAsc (OrdMap.ascending_tail ownAsc)
    rw [mergeUnits, if_neg apart, if_pos below, OrdMap.lookup]
    by_cases here : o.1 = k
    · rw [if_pos here, OrdMap.lookup.eq_2 k o.1 o.2 own, if_pos here]
      rfl
    · rw [if_neg here, OrdMap.lookup.eq_2 k o.1 o.2 own, if_neg here]
      exact rest
  | case5 b base o own apart above ih =>
    have below : b.1 < o.1 := lt_of_le_of_ne (not_lt.mp above) apart
    have rest := ih (OrdMap.ascending_tail baseAsc) ownAsc
    rw [mergeUnits, if_neg apart, if_neg above, OrdMap.lookup]
    by_cases here : b.1 = k
    · have absent : OrdMap.lookup k (o :: own) = none := by
        apply lookup_below
        intro e mem
        rw [← here]
        rcases List.mem_cons.mp mem with first | mem
        · rw [first]
          exact below
        · exact below.trans (OrdMap.ascending_head ownAsc e mem)
      rw [if_pos here, absent, OrdMap.lookup, if_pos here]
      rfl
    · rw [if_neg here, OrdMap.lookup.eq_2 k b.1 b.2 base, if_neg here]
      exact rest

/-- An overlay's answers to what every store is asked. -/
def read (o : Overlay) : StoreRead where
  records := o.base.records ++ o.batch.records
  units := ⟨mergeUnits o.base.units.entries o.units.entries,
    merge_units_ascending o.base.units.ascending o.units.ascending⟩
  interp := o.interp

theorem read_get (o : Overlay) (uid : Uid) :
    o.read.units.get uid = (o.units.get uid).or (o.base.units.get uid) :=
  lookup_merge_units o.base.units.ascending o.units.ascending uid

/-- A uid is held when either side holds it. -/
theorem read_contains (o : Overlay) (uid : Uid) :
    o.read.containsUid uid = (o.units.contains uid || o.base.units.contains uid) := by
  rw [StoreRead.containsUid, BTreeMap.contains, read_get, Option.isSome_or]
  rfl

end Overlay
end Smysl
