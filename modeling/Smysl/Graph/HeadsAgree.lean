import Smysl.Graph.Forks

/-!
Two verdicts on a replaced unit. Following heads calls it forked where not just one of the
uids that supersede it is unsuperseded among them; detection reports it where two of them
are not linked. They are one verdict except over a circle, and under a common head.
-/
namespace Smysl
open ByteString Extremes

namespace StoreRead
variable [Blake3] (s : StoreRead)

/-- One that supersedes the target, and that no other one which does supersedes. -/
def Unsuperseded (target a : Uid) : Prop :=
  a ∈ s.succs target ∧ ∀ b ∈ s.succs target, b ≠ a → ¬ s.hasRelation .supersedes b a = true

/-- Where just one that supersedes the target is unsuperseded, all that do are linked. -/
def Undivided (target : Uid) : Prop := (∃! m, s.Unsuperseded target m) → s.Linked target

theorem mem_latest (target a : Uid) :
    a ∈ s.latest (s.succs target) ↔ s.Unsuperseded target a := by
  rw [latest, List.mem_filter, BTreeSet.mem_toList, Unsuperseded]
  simp only [Bool.not_eq_true', List.any_eq_false, BTreeSet.mem_toList, Bool.and_eq_true,
    bne_iff_ne, not_and]

/-- The list of the latest has one entry where one uid is unsuperseded. -/
theorem latest_single (target : Uid) :
    (∃ m, s.latest (s.succs target) = [m]) ↔ ∃! m, s.Unsuperseded target m := by
  have nodup : (s.latest (s.succs target)).Nodup := (BTreeSet.toList_nodup _).filter _
  constructor
  · intro single
    obtain ⟨m, listed⟩ := single
    refine ⟨m, ?_, ?_⟩
    · dsimp only
      rw [← mem_latest, listed]
      exact List.mem_singleton_self m
    · intro x top
      rw [← mem_latest, listed] at top
      exact List.mem_singleton.mp top
  · intro unique
    obtain ⟨m, top, alone⟩ := unique
    refine ⟨m, ?_⟩
    apply List.perm_singleton.mp
    rw [List.perm_ext_iff_of_nodup nodup (List.nodup_singleton m)]
    intro x
    rw [mem_latest, List.mem_singleton]
    constructor
    · exact alone x
    · intro same
      exact same ▸ top

/-- Among at least two, one is chosen where one is unsuperseded. -/
theorem chosen_none_iff {target : Uid} (many : 1 < (s.succs target).toList.length) :
    s.chosen (s.succs target) = none ↔ ¬ ∃! m, s.Unsuperseded target m := by
  rw [← latest_single, chosen]
  split
  · rename_i listed
    rw [listed] at many
    cases many
  · rename_i only listed
    rw [listed] at many
    exact absurd many (Nat.lt_irrefl 1)
  · split
    · rename_i only listed
      exact iff_of_false (Option.some_ne_none only) (fun many => many ⟨only, listed⟩)
    · rename_i several
      exact iff_of_true rfl (fun single => several _ single.choose_spec)

/-- A head-following fork: at least two that supersede the target, and not just one of them
unsuperseded. -/
theorem heads_forked_iff [Unicode] (target : Uid) : target ∈ (supersessionHeads s).2 ↔
    1 < (s.succs target).toList.length ∧ ¬ ∃! m, s.Unsuperseded target m := by
  change target ∈ s.forked ↔ _
  rw [mem_forked]
  by_cases many : 1 < (s.succs target).toList.length
  · rw [chosen_none_iff s many]
    have some_ : ∃ x, x ∈ s.succs target := by
      obtain ⟨x, mem⟩ := List.exists_mem_of_length_pos (by omega :
        0 < (s.succs target).toList.length)
      exact ⟨x, (BTreeSet.mem_toList _ _).mp mem⟩
    exact ⟨fun both => ⟨many, both.2⟩, fun both => ⟨some_, both.2⟩⟩
  · constructor
    · intro both
      obtain ⟨⟨x, mem⟩, none⟩ := both
      have only : (s.succs target).toList = [x] := by
        rw [← BTreeSet.mem_toList] at mem
        apply List.perm_singleton.mp
        rw [List.perm_ext_iff_of_nodup (BTreeSet.toList_nodup _) (List.nodup_singleton x)]
        intro y
        rw [List.mem_singleton]
        exact ⟨fun mem' => Store.same_of_few many mem' mem, fun same => same ▸ mem⟩
      rw [chosen, only] at none
      cases none
    · intro both
      exact absurd both.1 many

/-- Among linked ones, one is unsuperseded where they have no circle. -/
theorem unsuperseded_of_linked {target : Uid} (linked : s.Linked target)
    (some_ : ∃ a, a ∈ s.succs target) :
    (∃! m, s.Unsuperseded target m) ↔ s.Uncircled target := by
  constructor
  · intro unique _ circled
    obtain ⟨m, ⟨mem, top⟩, _⟩ := unique
    obtain ⟨b, mem', other, below⟩ := circled m mem
    exact absurd below (top b mem' other)
  · intro uncircled
    have top : ∃ m, s.Unsuperseded target m := by
      by_contra none
      apply uncircled some_ _ linked
      intro a mem
      by_contra alone
      apply none
      refine ⟨a, mem, ?_⟩
      intro b mem' other below
      exact alone ⟨b, mem', other, below⟩
    obtain ⟨m, mem, above⟩ := top
    refine ⟨m, ⟨mem, above⟩, ?_⟩
    intro x top
    by_contra differ
    rcases linked x top.1 m mem differ with below | below
    · exact above x top.1 differ below
    · exact top.2 m mem (Ne.symm differ) below

end StoreRead

namespace Store
variable [Unicode] [Blake3]

/-- A target is listed as forked exactly where a fork over it is reported. -/
def VerdictsAgree (s : Store) (ctx : DetectionContext) (target : Uid) : Prop :=
  target ∈ (supersessionHeads s.read).2 ↔ s.ForkOver ctx target

/-- The verdicts on a target are one where the uids that supersede it are not each
superseded by another while all are linked, and no single head stands over two that are
not. -/
theorem verdicts_agree_iff {s : Store} {ctx : DetectionContext} (apart : s.IdsApart ctx)
    (target : Uid) :
    s.VerdictsAgree ctx target ↔ s.read.Uncircled target ∧ s.read.Undivided target := by
  rw [VerdictsAgree, StoreRead.heads_forked_iff, fork_over_iff apart]
  by_cases many : 1 < (s.read.succs target).toList.length
  · have some_ : ∃ a, a ∈ s.read.succs target := by
      obtain ⟨a, mem⟩ := List.exists_mem_of_length_pos (by omega :
        0 < (s.read.succs target).toList.length)
      exact ⟨a, (BTreeSet.mem_toList _ _).mp mem⟩
    by_cases linked : s.read.Linked target
    · rw [s.read.unsuperseded_of_linked linked some_]
      constructor
      · intro agree
        refine ⟨?_, fun _ => linked⟩
        by_contra circled
        exact (agree.mp ⟨many, circled⟩).2 linked
      · intro both
        exact iff_of_false (fun forked => forked.2 both.1) (fun forked => forked.2 linked)
    · constructor
      · intro agree
        refine ⟨fun _ _ => linked, ?_⟩
        intro single
        exact absurd single (agree.mpr ⟨many, linked⟩).2
      · intro both
        exact iff_of_true ⟨many, fun single => linked (both.2 single)⟩ ⟨many, linked⟩
  · have linked : s.read.Linked target := by
      intro a mem b mem' differ
      rw [← BTreeSet.mem_toList] at mem mem'
      exact absurd (same_of_few many mem mem') differ
    exact iff_of_true (iff_of_false (fun forked => many forked.1) (fun forked => many forked.1))
      ⟨uncircled_of_few many, fun _ => linked⟩

end Store

section
local instance plainHeadText : Unicode := .plain
local instance modPrimeHeadHash : Blake3 := .modPrime

/-- Four claims: three replace the first, and the last of them the two others as well. -/
def headed : Store :=
  let units := [resting "a" present_a [], resting "b" present_b [],
    resting "m" present_m [], resting "n" present_n []]
  let uids := units.map canonicalUid
  let edges := [(1, 0), (2, 0), (3, 0), (3, 1), (3, 2)]
  Store.fromRecords (units.map .unit ++ edges.map (fun e =>
    .relation (Relation.new .supersedes (uids.getD e.1 ⟨Blake3.hash []⟩)
      (uids.getD e.2 ⟨Blake3.hash []⟩))))

theorem unlinked_rivals_agree :
    (rivals [(1, 0), (2, 0)]).VerdictsAgree {} rivalled ↔
      (rivals [(1, 0), (2, 0)]).read.Uncircled rivalled ∧
        (rivals [(1, 0), (2, 0)]).read.Undivided rivalled := by
  apply Store.verdicts_agree_iff
  have one : ∃ c, (rivals [(1, 0), (2, 0)]).found {} = [c] :=
    List.length_eq_one_iff.mp (by decide +kernel)
  obtain ⟨c, one⟩ := one
  intro a mem b mem' _
  rw [one, List.mem_singleton] at mem mem'
  rw [mem, mem']

/-- Two that nothing links, under one head, are a fork to detection alone. -/
theorem headed_fork_unlisted :
    ¬ ∀ (s : Store) (target : Uid), s.IdsApart {} → s.VerdictsAgree {} target := by
  intro all
  have one : ∃ c, headed.found {} = [c] := List.length_eq_one_iff.mp (by decide +kernel)
  have apart : headed.IdsApart {} := by
    obtain ⟨c, one⟩ := one
    intro a mem b mem' _
    rw [one, List.mem_singleton] at mem mem'
    rw [mem, mem']
  have reported : headed.ForkOver {} rivalled := by
    rw [Store.ForkOver]
    decide +kernel
  have listed := (all headed rivalled apart).mpr reported
  have unlisted : rivalled ∉ (supersessionHeads headed.read).2 := by decide +kernel
  exact unlisted listed

end
end Smysl
