import Smysl.Graph.Contention
import Smysl.Graph.RelinkSettles
import Smysl.Lib.Extremes

/-!
What silence of the detectors means. No supersession fork over a target means that there is
a latest replacement where the replacements of the target have no circle among themselves;
and a commitment fork is told by the first of an agent's latest commitments.
-/
namespace Smysl
open ByteString Extremes

/-! Supersession. -/

namespace StoreRead
variable (s : StoreRead)

theorem totally_ordered_iff (uids : List Uid) (nodup : uids.Nodup) :
    s.totallyOrdered uids = true ↔ ∀ a ∈ uids, ∀ b ∈ uids, a ≠ b →
      s.hasRelation .supersedes a b = true ∨ s.hasRelation .supersedes b a = true := by
  induction uids with
  | nil =>
    rw [totallyOrdered]
    exact iff_of_true rfl fun a none => (nomatch none)
  | cons c rest ih =>
    obtain ⟨fresh, nodup⟩ := List.nodup_cons.mp nodup
    rw [totallyOrdered, Bool.and_eq_true, List.all_eq_true, ih nodup]
    simp only [Bool.or_eq_true]
    constructor
    · intro both a mem b mem' differ
      rcases List.mem_cons.mp mem with here | later
      · rcases List.mem_cons.mp mem' with here' | later'
        · exact absurd (here.trans here'.symm) differ
        · rw [here]
          exact both.1 b later'
      · rcases List.mem_cons.mp mem' with here' | later'
        · rw [here']
          exact (both.1 a later).symm
        · exact both.2 a later b later' differ
    · intro all
      constructor
      · intro b mem
        apply all c List.mem_cons_self b (List.mem_cons_of_mem c mem)
        intro same
        rw [same] at fresh
        exact fresh mem
      · intro a mem b mem'
        exact all a (List.mem_cons_of_mem c mem) b (List.mem_cons_of_mem c mem')

variable [Blake3]

/-- Every two uids that supersede the target are linked. -/
def Linked (target : Uid) : Prop :=
  ∀ a ∈ s.succs target, ∀ b ∈ s.succs target, a ≠ b →
    s.hasRelation .supersedes a b = true ∨ s.hasRelation .supersedes b a = true

/-- One that supersedes the target supersedes all the others, and none of them it. -/
def HasLatest (target : Uid) : Prop :=
  ∃! m, m ∈ s.succs target ∧ ∀ x, x ∈ s.succs target → x ≠ m →
    s.hasRelation .supersedes m x = true ∧ ¬ s.hasRelation .supersedes x m = true

/-- Where each uid that supersedes the target is superseded by another one that does, some
two of them are not linked. -/
def Uncircled (target : Uid) : Prop :=
  (∃ a, a ∈ s.succs target) →
    (∀ a ∈ s.succs target, ∃ b ∈ s.succs target, b ≠ a ∧
      s.hasRelation .supersedes b a = true) →
    ¬ s.Linked target

theorem has_latest_of_linked {target : Uid} (linked : s.Linked target) :
    s.HasLatest target ↔ (∃ a, a ∈ s.succs target) ∧ s.Uncircled target := by
  constructor
  · intro latest
    obtain ⟨m, ⟨mem, top⟩, _⟩ := latest
    refine ⟨⟨m, mem⟩, ?_⟩
    intro _ circled
    obtain ⟨b, mem', other, below⟩ := circled m mem
    exact absurd below (top b mem' other).2
  · intro both
    obtain ⟨some_, uncircled⟩ := both
    have top : ∃ m ∈ s.succs target, ∀ x ∈ s.succs target, x ≠ m →
        ¬ s.hasRelation .supersedes x m = true := by
      by_contra none
      apply uncircled some_ _ linked
      intro a mem
      by_contra alone
      apply none
      refine ⟨a, mem, ?_⟩
      intro x mem' other below
      exact alone ⟨x, mem', other, below⟩
    obtain ⟨m, mem, unlinked⟩ := top
    exact @unique_top Uid (· ∈ s.succs target) (fun a b => s.hasRelation .supersedes a b = true)
      (fun a b mem mem' => linked a mem b mem') m mem unlinked

theorem mem_supersession_forks {ctx : DetectionContext} {c : Contention} :
    c ∈ s.supersessionForks ctx ↔ ∃ target, (1 < (s.succs target).toList.length ∧
      ¬ s.Linked target) ∧
        c = contention .supersessionFork target (s.succs target).toList ctx := by
  have listed : ∀ target, s.totallyOrdered (s.succs target).toList = true ↔ s.Linked target := by
    intro target
    rw [s.totally_ordered_iff _ (BTreeSet.toList_nodup _), Linked]
    simp only [BTreeSet.mem_toList]
  have held : ∀ e ∈ s.direct.entries, e.2 = s.succs e.1 := by
    intro e mem
    rw [succs, (BTreeMap.mem_entries_iff s.direct e.1 e.2).mp mem]
    rfl
  rw [supersessionForks, List.mem_filterMap]
  constructor
  · intro found
    obtain ⟨e, mem, made⟩ := found
    obtain ⟨mem, many⟩ := List.mem_filter.mp mem
    rw [held e mem] at made many
    by_cases ordered : s.totallyOrdered (s.succs e.1).toList = true
    · rw [if_pos ordered] at made
      cases made
    · rw [if_neg ordered, Option.some.injEq] at made
      refine ⟨e.1, ⟨of_decide_eq_true many, ?_⟩, made.symm⟩
      rwa [listed] at ordered
  · intro found
    obtain ⟨target, ⟨many, unlinked⟩, made⟩ := found
    cases here : s.direct.get target with
    | none =>
      rw [succs, here] at many
      cases many
    | some set =>
      have same : set = s.succs target := by
        rw [succs, here]
        rfl
      refine ⟨(target, set), List.mem_filter.mpr
        ⟨(BTreeMap.mem_entries_iff _ _ _).mpr here, ?_⟩, ?_⟩
      · rw [same]
        exact decide_eq_true many
      · rw [same, if_neg, made]
        rwa [listed]

end StoreRead

namespace Store
section
variable [Blake3]

/-- The identifiers tell apart what is found in this store. -/
def IdsApart (s : Store) (ctx : DetectionContext) : Prop :=
  ∀ a ∈ s.found ctx, ∀ b ∈ s.found ctx, a.id = b.id →
    identityOf a.detected.kind.rawCode a.overUnit a.positions =
      identityOf b.detected.kind.rawCode b.overUnit b.positions

/-- A supersession fork over the target is reported. -/
def ForkOver (s : Store) (ctx : DetectionContext) (target : Uid) : Prop :=
  ∃ c ∈ s.detect ctx, c.detected.kind = .of .supersessionFork ∧ c.overUnit = target

/-- What the four detectors find is of the kind each looks for. -/
theorem found_kind {s : Store} {ctx : DetectionContext} {c : Contention}
    (mem : c ∈ s.found ctx) : ∃ kind over_ positions,
      c = contention kind over_ positions ctx ∧
      (c ∈ s.read.supersessionForks ctx ∨ kind ≠ .supersessionFork) := by
  rw [found, List.mem_append, List.mem_append, List.mem_append] at mem
  rcases mem with ((fork | rebuttal) | collision) | commits
  · obtain ⟨target, _, made⟩ := s.read.mem_supersession_forks.mp fork
    exact ⟨_, _, _, made, Or.inl fork⟩
  · obtain ⟨rel, _, made⟩ := List.mem_filterMap.mp rebuttal
    dsimp only at made
    split_ifs at made
    exact ⟨_, _, _, (Option.some.inj made).symm, Or.inr (by decide)⟩
  · obtain ⟨e, _, made⟩ := List.mem_filterMap.mp collision
    split at made
    · exact ⟨_, _, _, (Option.some.inj made).symm, Or.inr (by decide)⟩
    · cases made
  · obtain ⟨e, _, made⟩ := List.mem_filterMap.mp commits
    dsimp only at made
    split_ifs at made
    exact ⟨_, _, _, (Option.some.inj made).symm, Or.inr (by decide)⟩

omit [Blake3] in
theorem same_identity {kind kind' : DetectionKind} {a b : Uid} {ps qs : List Uid}
    (same : identityOf (asU8 kind) a ps = identityOf (asU8 kind') b qs) : kind = kind' ∧ a = b := by
  obtain ⟨code, rest⟩ := List.cons.inj same
  refine ⟨as_u8_injective code, Digest.as_bytes_injective ?_⟩
  exact (List.append_inj rest (a.raw.width.trans b.raw.width.symm)).1

/-- A fork is reported where two that supersede the target are not linked. -/
theorem fork_over_iff {s : Store} {ctx : DetectionContext} (apart : s.IdsApart ctx)
    (target : Uid) : s.ForkOver ctx target ↔
      1 < (s.read.succs target).toList.length ∧ ¬ s.read.Linked target := by
  constructor
  · intro reported
    obtain ⟨c, mem, kind, lead⟩ := reported
    obtain ⟨d, kept, made⟩ := List.mem_map.mp mem
    have here : d ∈ s.found ctx :=
      List.mem_mergeSort.mp ((List.destutter_sublist _ _).subset kept)
    obtain ⟨kind', over_, positions, same, fork | other⟩ := found_kind here
    · obtain ⟨target', unlinked, same⟩ := s.read.mem_supersession_forks.mp fork
      have lead' : target' = target := by
        rw [← lead, ← made, same]
        rfl
      rw [← lead']
      exact unlinked
    · rw [← made, same] at kind
      exact absurd (congrArg Open.kind kind) other
  · intro unlinked
    have forked := s.read.mem_supersession_forks.mpr ⟨target, unlinked, @rfl _
      (contention .supersessionFork target (s.read.succs target).toList ctx)⟩
    have here : contention .supersessionFork target (s.read.succs target).toList ctx ∈
        s.found ctx := by
      rw [found, List.mem_append, List.mem_append, List.mem_append]
      exact Or.inl (Or.inl (Or.inl forked))
    have sorted : contention .supersessionFork target (s.read.succs target).toList ctx ∈
        (s.found ctx).mergeSort (fun a b => decide (a.id ≤ b.id)) := List.mem_mergeSort.mpr here
    obtain ⟨d, kept, same⟩ := destutter_keeps Contention.id sorted
    have here' : d ∈ s.found ctx :=
      List.mem_mergeSort.mp ((List.destutter_sublist _ _).subset kept)
    obtain ⟨kind, over_, positions, made, _⟩ := found_kind here'
    have identity := apart d here' _ here same
    rw [made] at identity
    obtain ⟨kinds, leads⟩ := same_identity identity
    refine ⟨_, List.mem_map.mpr ⟨d, kept, rfl⟩, ?_, ?_⟩
    · rw [made]
      exact congrArg Open.of kinds
    · rw [made]
      exact leads

/-- A target with two uids that supersede it, and no fork reported over it, has a latest. -/
def SilenceMeansLatest (s : Store) (ctx : DetectionContext) (target : Uid) : Prop :=
  1 < (s.read.succs target).toList.length → ¬ s.ForkOver ctx target → s.read.HasLatest target

omit [Blake3] in
theorem same_of_few {α : Type} {l : List α} {a b : α} (few : ¬ 1 < l.length) (mem : a ∈ l)
    (mem' : b ∈ l) : a = b := by
  cases l with
  | nil => cases mem
  | cons x rest =>
    cases rest with
    | nil =>
      rw [List.mem_singleton] at mem mem'
      exact mem.trans mem'.symm
    | cons y rest => exact absurd (by rw [List.length_cons, List.length_cons]; omega) few

theorem uncircled_of_few {s : StoreRead} {target : Uid}
    (few : ¬ 1 < (s.succs target).toList.length) : s.Uncircled target := by
  intro some_ circled
  obtain ⟨a, mem⟩ := some_
  obtain ⟨b, mem', other, _⟩ := circled a mem
  rw [← BTreeSet.mem_toList] at mem mem'
  exact absurd (same_of_few few mem' mem) other

/-- Silence about a target means a latest where the uids that supersede it are not each
superseded by another while all are linked. -/
theorem silence_means_latest_iff {s : Store} {ctx : DetectionContext} (apart : s.IdsApart ctx)
    (target : Uid) : s.SilenceMeansLatest ctx target ↔ s.read.Uncircled target := by
  rw [SilenceMeansLatest, fork_over_iff apart]
  by_cases many : 1 < (s.read.succs target).toList.length
  · by_cases linked : s.read.Linked target
    · have some_ : ∃ a, a ∈ s.read.succs target := by
        obtain ⟨a, mem⟩ := List.exists_mem_of_length_pos (by omega :
          0 < (s.read.succs target).toList.length)
        exact ⟨a, (BTreeSet.mem_toList _ _).mp mem⟩
      rw [s.read.has_latest_of_linked linked]
      constructor
      · intro silent
        exact (silent many fun both => both.2 linked).2
      · intro uncircled _ _
        exact ⟨some_, uncircled⟩
    · constructor
      · intro _ _ _
        exact linked
      · intro _ _ silent
        exact absurd ⟨many, linked⟩ silent
  · constructor
    · intro _
      exact uncircled_of_few many
    · intro _ many'
      exact absurd many' many

end
end Store

section
local instance plainForkText : Unicode := .plain
local instance modPrimeForkHash : Blake3 := .modPrime

/-- Three claims, and edges by which some replace others. -/
def rivals (edges : List (Nat × Nat)) : Store :=
  let units := [resting "a" present_a [], resting "b" present_b [], resting "m" present_m []]
  let uids := units.map canonicalUid
  Store.fromRecords (units.map .unit ++ edges.map (fun e =>
    .relation (Relation.new .supersedes (uids.getD e.1 ⟨Blake3.hash []⟩)
      (uids.getD e.2 ⟨Blake3.hash []⟩))))

/-- The claim the others replace. -/
def rivalled : Uid := canonicalUid (resting "a" present_a [])

theorem unlinked_rivals_reported :
    (rivals [(1, 0), (2, 0)]).SilenceMeansLatest {} rivalled ↔
      (rivals [(1, 0), (2, 0)]).read.Uncircled rivalled := by
  apply Store.silence_means_latest_iff
  have one : ∃ c, (rivals [(1, 0), (2, 0)]).found {} = [c] :=
    List.length_eq_one_iff.mp (by decide +kernel)
  obtain ⟨c, one⟩ := one
  intro a mem b mem' _
  rw [one, List.mem_singleton] at mem mem'
  rw [mem, mem']

/-- Two that replace each other as well as the target are silent, and neither is the latest. -/
theorem circled_rivals_silent :
    ¬ ∀ (s : Store) (target : Uid), s.IdsApart {} → s.SilenceMeansLatest {} target := by
  intro all
  have none : (rivals [(1, 0), (2, 0), (1, 2), (2, 1)]).found {} = [] :=
    List.eq_nil_of_length_eq_zero (by decide +kernel)
  have silent : (rivals [(1, 0), (2, 0), (1, 2), (2, 1)]).detect {} = [] :=
    List.eq_nil_of_length_eq_zero (by decide +kernel)
  have circled : ∀ m ∈ ((rivals [(1, 0), (2, 0), (1, 2), (2, 1)]).read.succs rivalled).toList,
      ∃ x ∈ ((rivals [(1, 0), (2, 0), (1, 2), (2, 1)]).read.succs rivalled).toList, x ≠ m ∧
        (rivals [(1, 0), (2, 0), (1, 2), (2, 1)]).read.hasRelation .supersedes x m = true := by
    decide +kernel
  have apart : (rivals [(1, 0), (2, 0), (1, 2), (2, 1)]).IdsApart {} := by
    intro a mem
    rw [none] at mem
    cases mem
  obtain ⟨m, ⟨mem, top⟩, _⟩ := all _ rivalled apart (by decide +kernel) (by
    intro reported
    obtain ⟨c, mem, _⟩ := reported
    rw [silent] at mem
    cases mem)
  obtain ⟨x, mem', other, below⟩ := circled m ((BTreeSet.mem_toList _ _).mpr mem)
  exact (top x ((BTreeSet.mem_toList _ _).mp mem') other).2 below

end
end Smysl
