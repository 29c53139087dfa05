import Smysl.Graph.Sound
import Smysl.Lib.Descent

/-!
Compaction drops what supersession has already settled: a superseded unit whose
successor is present and which nothing surviving still points at.
-/
open Relation

namespace Smysl
open ByteString

/-- What a store is asked, whichever store it is. -/
structure StoreRead where
  records : List Record
  units : BTreeMap Uid HeldUnit
  interp : Interpretive

def Store.read (s : Store) : StoreRead := ⟨s.records, s.units, s.interp⟩

namespace StoreRead

def containsUid (s : StoreRead) (uid : Uid) : Bool := s.units.contains uid

/-- Every relation, withdrawn ones included. -/
def relations (s : StoreRead) : List Relation := s.interp.relations.values

section
variable [Unicode] [Blake3]

/-- Relations of a kind, leaving out withdrawn ones. -/
def relationsOfKind (s : StoreRead) (kind : RelKind) : List Relation :=
  s.relations.filter (fun r => r.kind == kind && !s.interp.isWithdrawn r)

end
end StoreRead

/-- What compaction dropped, and what it refused to. -/
structure Compacted where
  records : List Record
  dropped : BTreeSet Uid
  stillReferenced : BTreeSet Uid
  retracted : BTreeSet Uid
  recordsBefore : Nat
  duplicates : Nat

namespace Compact
section
variable [Unicode] [Blake3]

/-- Units that some `retracts` edge names, either end. -/
def retracted (s : StoreRead) : BTreeSet Uid :=
  BTreeSet.ofList ((s.relationsOfKind .retracts).flatMap (fun r => [r.src, r.dst]))

/-- Units that something present supersedes. -/
def superseded (s : StoreRead) : BTreeSet Uid :=
  (s.relationsOfKind .supersedes).foldl (fun out r =>
    if s.containsUid r.src && s.containsUid r.dst then out.insert r.dst else out) ∅

/-- What the units that are not superseded point at. -/
def neededByUnits (s : StoreRead) (superseded : BTreeSet Uid) : BTreeSet Uid :=
  s.units.entries.foldl (fun needed e =>
    if e.1 ∈ superseded then needed
    else (needed.extend e.2.core.grounds.toList).extend e.2.core.deps.toList) ∅

/-- And both ends of the relations that touch a superseded unit, but for the
edge that made it one. -/
def needed (s : StoreRead) (superseded : BTreeSet Uid) : BTreeSet Uid :=
  s.relations.foldl (fun needed rel =>
    if rel.kind == .supersedes && decide (rel.dst ∈ superseded) then needed
    else if !decide (rel.src ∈ superseded) && !decide (rel.dst ∈ superseded) then needed
    else (needed.insert rel.src).insert rel.dst) (neededByUnits s superseded)

/-- Whether a record outlives the dropped units. -/
def survives (dropped : BTreeSet Uid) : Record → Bool
  | .unit core => !decide (canonicalUid core ∈ dropped)
  | .relation rel => !decide (rel.src ∈ dropped) && !decide (rel.dst ∈ dropped)
  | .attestation a => !decide (a.uid ∈ dropped)
  | _ => true

def compact (s : StoreRead) : Compacted :=
  let base := (Store.splitFresh ∅ s.records).1
  let superseded := superseded s
  let unchanged : Compacted := ⟨base, ∅, ∅, ∅, s.records.length, s.records.length - base.length⟩
  if superseded.isEmpty then unchanged
  else
    let retracted := BTreeSet.ofList (superseded.toList.filter (fun u => decide (u ∈ retracted s)))
    let needed := needed s superseded
    let stillReferenced := BTreeSet.ofList (superseded.toList.filter (fun u => decide (u ∈ needed)))
    let dropped := BTreeSet.ofList
      (superseded.toList.filter (fun u => !decide (u ∈ needed) && !decide (u ∈ retracted)))
    { unchanged with
      records := if dropped.isEmpty then base else base.filter (survives dropped)
      dropped, stillReferenced, retracted }

end
end Compact

namespace StoreRead
variable (s : StoreRead)

def Present (u : Uid) : Prop := s.containsUid u = true

section
variable [Unicode] [Blake3]

/-- `x` replaces `u`. -/
def Succeeds (x u : Uid) : Prop := ∃ r ∈ s.relationsOfKind .supersedes, r.src = x ∧ r.dst = u

/-- `x` replaces `u`, and both are present. -/
def Replaces (x u : Uid) : Prop := s.Present x ∧ s.Present u ∧ s.Succeeds x u

def Superseded (u : Uid) : Prop := ∃ x, s.Replaces x u

def Retracted (u : Uid) : Prop := ∃ r ∈ s.relationsOfKind .retracts, u = r.src ∨ u = r.dst

/-- What a core points at. -/
def Refers (core : UnitCore) (u : Uid) : Prop := u ∈ core.grounds ∨ u ∈ core.deps

/-- A unit that is not superseded points at it, or a relation that touches a
superseded unit names it. -/
def Referenced (u : Uid) : Prop :=
  (∃ v held, s.units.get v = some held ∧ ¬ s.Superseded v ∧ Refers held.core u) ∨
    ∃ rel ∈ s.relations, ¬ (rel.kind = .supersedes ∧ s.Superseded rel.dst) ∧
      (s.Superseded rel.src ∨ s.Superseded rel.dst) ∧ (u = rel.src ∨ u = rel.dst)

/-- A superseded unit that is kept, or one that is not superseded. -/
def Survives (u : Uid) : Prop := ¬ s.Superseded u ∨ s.Referenced u ∨ s.Retracted u

/-- Nothing the store refers to is missing from it. -/
structure NothingDangles : Prop where
  units : ∀ v held, s.units.get v = some held → ∀ u, Refers held.core u → s.Present u
  relations : ∀ rel ∈ s.relations, s.Present rel.src ∧ s.Present rel.dst

end
end StoreRead

namespace Compact
section
variable [Unicode] [Blake3] (s : StoreRead)

omit [Unicode] [Blake3] in
/-- A fold that puts into the set what each element adds. -/
theorem mem_fold {α K : Type} [LinearOrder K] {adds : α → Prop}
    {step : BTreeSet K → α → BTreeSet K} {k : K}
    (each : ∀ out a, k ∈ step out a ↔ k ∈ out ∨ adds a) (as : List α) (out : BTreeSet K) :
    k ∈ as.foldl step out ↔ k ∈ out ∨ ∃ a ∈ as, adds a := by
  induction as generalizing out with
  | nil => simp
  | cons a as ih => rw [List.foldl_cons, ih, each, or_assoc, List.exists_mem_cons_iff]

omit [Unicode] in
theorem mem_superseded (u : Uid) : u ∈ superseded s ↔ s.Superseded u := by
  have each : ∀ (out : BTreeSet Uid) (r : Relation),
      u ∈ (if s.containsUid r.src && s.containsUid r.dst then out.insert r.dst else out) ↔
        u ∈ out ∨ (r.dst = u ∧ s.Present r.src ∧ s.Present r.dst) := by
    intro out r
    have both : (s.containsUid r.src && s.containsUid r.dst) = true ↔
        s.Present r.src ∧ s.Present r.dst := Bool.and_eq_true_iff
    split
    · rename_i ends
      rw [both] at ends
      rw [BTreeSet.mem_insert]
      tauto
    · rename_i ends
      rw [both] at ends
      tauto
  rw [superseded, mem_fold each, or_iff_right (BTreeSet.not_mem_emptyCollection u)]
  constructor
  · rintro ⟨r, mem, rfl, src, dst⟩
    exact ⟨r.src, src, dst, r, mem, rfl, rfl⟩
  · rintro ⟨x, src, dst, r, mem, rfl, rfl⟩
    exact ⟨r, mem, rfl, src, dst⟩

omit [Unicode] in
theorem mem_retracted (u : Uid) : u ∈ retracted s ↔ s.Retracted u := by
  simp [retracted, StoreRead.Retracted]

omit [Unicode] [Blake3] in
theorem mem_needed_by_units (superseded : BTreeSet Uid) (u : Uid) :
    u ∈ neededByUnits s superseded ↔
      ∃ v held, s.units.get v = some held ∧ v ∉ superseded ∧ StoreRead.Refers held.core u := by
  have each : ∀ (needed : BTreeSet Uid) (e : Uid × HeldUnit),
      u ∈ (if e.1 ∈ superseded then needed
        else (needed.extend e.2.core.grounds.toList).extend e.2.core.deps.toList) ↔
        u ∈ needed ∨ (e.1 ∉ superseded ∧ StoreRead.Refers e.2.core u) := by
    intro needed e
    rw [StoreRead.Refers]
    split
    · tauto
    · rw [BTreeSet.mem_extend, BTreeSet.mem_extend, BTreeSet.mem_toList, BTreeSet.mem_toList]
      tauto
  rw [neededByUnits, mem_fold each, or_iff_right (BTreeSet.not_mem_emptyCollection u)]
  constructor
  · rintro ⟨e, mem, kept, refers⟩
    exact ⟨e.1, e.2, (BTreeMap.mem_entries_iff _ _ _).mp mem, kept, refers⟩
  · rintro ⟨v, held, found, kept, refers⟩
    exact ⟨(v, held), (BTreeMap.mem_entries_iff _ _ _).mpr found, kept, refers⟩

omit [Unicode] in
theorem mem_needed (u : Uid) : u ∈ needed s (superseded s) ↔ s.Referenced u := by
  have each : ∀ (out : BTreeSet Uid) (rel : Relation),
      u ∈ (if rel.kind == .supersedes && decide (rel.dst ∈ superseded s) then out
        else if !decide (rel.src ∈ superseded s) && !decide (rel.dst ∈ superseded s) then out
        else (out.insert rel.src).insert rel.dst) ↔
        u ∈ out ∨ (¬ (rel.kind = .supersedes ∧ s.Superseded rel.dst) ∧
          (s.Superseded rel.src ∨ s.Superseded rel.dst) ∧ (u = rel.src ∨ u = rel.dst)) := by
    intro out rel
    have settled : (rel.kind == .supersedes && decide (rel.dst ∈ superseded s)) = true ↔
        rel.kind = .supersedes ∧ s.Superseded rel.dst := by
      rw [Bool.and_eq_true, beq_iff_eq, decide_eq_true_eq, mem_superseded]
    have neither : (!decide (rel.src ∈ superseded s) && !decide (rel.dst ∈ superseded s)) = true ↔
        ¬ s.Superseded rel.src ∧ ¬ s.Superseded rel.dst := by
      rw [Bool.and_eq_true, Bool.not_eq_true', Bool.not_eq_true', decide_eq_false_iff_not,
        decide_eq_false_iff_not, mem_superseded, mem_superseded]
    split
    · rename_i edge
      rw [settled] at edge
      tauto
    · rename_i edge
      rw [settled] at edge
      split
      · rename_i none
        rw [neither] at none
        tauto
      · rename_i touches
        rw [neither] at touches
        rw [BTreeSet.mem_insert, BTreeSet.mem_insert]
        tauto
  rw [needed, mem_fold each, mem_needed_by_units, StoreRead.Referenced]
  simp only [mem_superseded]

/-- A unit is dropped when it is superseded, nothing needs it and nothing
retracts it. -/
theorem mem_dropped (u : Uid) :
    u ∈ (compact s).dropped ↔ s.Superseded u ∧ ¬ s.Referenced u ∧ ¬ s.Retracted u := by
  rw [compact]
  dsimp only
  split
  · rename_i none
    have blank := (BTreeSet.isEmpty_iff _).mp none
    constructor
    · intro held
      exact absurd held (BTreeSet.not_mem_emptyCollection u)
    · rintro ⟨replaced, _⟩
      rw [← mem_superseded, blank] at replaced
      exact absurd replaced (BTreeSet.not_mem_emptyCollection u)
  · simp only [BTreeSet.mem_ofList, List.mem_filter, BTreeSet.mem_toList, mem_superseded,
      mem_needed, mem_retracted, Bool.and_eq_true, Bool.not_eq_true', decide_eq_false_iff_not,
      decide_eq_true_eq]
    tauto

theorem mem_dropped_iff (u : Uid) :
    u ∈ (compact s).dropped ↔ s.Superseded u ∧ ¬ s.Survives u := by
  rw [mem_dropped, StoreRead.Survives]
  tauto

theorem compact_records : (compact s).records =
    (Store.splitFresh ∅ s.records).1.filter (survives (compact s).dropped) := by
  have all : ∀ r, survives ∅ r = true := by
    intro r
    cases r <;> simp [survives]
  rw [compact]
  dsimp only
  have kept : ∀ base : List Record, base = base.filter (survives ∅) := fun base =>
    (List.filter_eq_self.mpr fun r _ => all r).symm
  split
  · exact kept _
  · dsimp only
    split
    · rename_i none
      rw [(BTreeSet.isEmpty_iff _).mp none]
      exact kept _
    · rfl

end
end Compact
end Smysl
