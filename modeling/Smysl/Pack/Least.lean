import Smysl.Pack.Legal

/-!
What selecting a unit obliges is the least selection that has it and satisfies the
constraints, in whatever order the obligations are taken.
-/
open Relation

namespace Smysl
open Obligations

namespace Store
section
variable [Blake3] (s : Store) (support : EdgeSet)

/-- The constraints on what goes with a member of a selection that is held: from the first
level up its deps and grounds, its warrants and what it rests on over the support edges; at
every level its live rebuttals, and the positions of the open contentions that pin it. -/
structure Admissible (S : Selection) : Prop where
  references : ∀ x l unit, S.get x = some l → Lod.l1 ≤ l → s.units.get x = some unit →
    ∀ d, d ∈ unit.core.deps ∨ d ∈ unit.core.grounds → s.read.Present d → S.contains d = true
  warrants : ∀ x l, S.get x = some l → Lod.l1 ≤ l → s.read.Present x →
    ∀ w ∈ s.warrantsOf x, S.contains w = true
  supports : ∀ x l, S.get x = some l → Lod.l1 ≤ l → s.read.Present x →
    ∀ v ∈ s.supportsOf x support, S.contains v = true
  rebuttals : ∀ x l, S.get x = some l → s.read.Present x →
    ∀ r ∈ s.rebuttalsOf x, s.read.Present r → S.contains r = true
  contentions : ∀ x l, S.get x = some l → s.read.Present x →
    ∀ k ∈ s.openContentions, k.pins x = true →
      ∀ p ∈ k.positions, s.read.Present p → S.contains p = true

omit [Blake3] in
/-- What a unit refers to, as far as it is present. -/
theorem mem_references {x u : Uid} : u ∈ (match s.units.get x with
      | some unit =>
        (unit.core.deps.toList ++ unit.core.grounds.toList).filter s.read.containsUid
      | none => []) ↔
    ∃ unit, s.units.get x = some unit ∧
      (u ∈ unit.core.deps ∨ u ∈ unit.core.grounds) ∧ s.read.Present u := by
  cases s.units.get x with
  | none => simp
  | some unit =>
    dsimp only
    rw [List.mem_filter, List.mem_append, BTreeSet.mem_toList, BTreeSet.mem_toList]
    constructor
    · intro both
      exact ⟨unit, rfl, both⟩
    · intro found
      obtain ⟨unit', same, both⟩ := found
      cases same
      exact both

/-- What goes with a unit that is taken with its body. -/
theorem mem_deep {x : Uid} {l : Lod} {u : Uid} : u ∈ (if Lod.l1 ≤ l then
      (match s.units.get x with
      | some unit =>
        (unit.core.deps.toList ++ unit.core.grounds.toList).filter s.read.containsUid
      | none => []) ++ s.warrantsOf x ++ s.supportsOf x support else []) ↔
    Lod.l1 ≤ l ∧ ((∃ unit, s.units.get x = some unit ∧
        (u ∈ unit.core.deps ∨ u ∈ unit.core.grounds) ∧ s.read.Present u) ∨
      u ∈ s.warrantsOf x ∨ u ∈ s.supportsOf x support) := by
  by_cases deep : Lod.l1 ≤ l
  · rw [if_pos deep, List.mem_append, List.mem_append, mem_references, or_assoc]
    exact (and_iff_right deep).symm
  · rw [if_neg deep]
    exact iff_of_false List.not_mem_nil fun both => deep both.1

/-- A unit drags in what the constraints say goes with it. -/
theorem mem_dragged_in {x : Uid} {l : Lod} {u : Uid} (present : s.read.Present x) :
    u ∈ s.draggedIn support x l ↔
      (Lod.l1 ≤ l ∧ ((∃ unit, s.units.get x = some unit ∧
          (u ∈ unit.core.deps ∨ u ∈ unit.core.grounds) ∧ s.read.Present u) ∨
        u ∈ s.warrantsOf x ∨ u ∈ s.supportsOf x support)) ∨
      (u ∈ s.rebuttalsOf x ∧ s.read.Present u) ∨
      ∃ k ∈ s.openContentions, k.pins x = true ∧ u ∈ k.positions ∧ s.read.Present u := by
  have positions : u ∈ s.openContentions.flatMap (fun k =>
        if k.pins x then k.positions.filter s.read.containsUid else []) ↔
      ∃ k ∈ s.openContentions, k.pins x = true ∧ u ∈ k.positions ∧ s.read.Present u := by
    rw [List.mem_flatMap]
    apply exists_congr
    intro k
    rw [and_congr_right_iff]
    intro _
    by_cases pins : k.pins x = true
    · rw [if_pos pins, List.mem_filter]
      exact (and_iff_right pins).symm
    · rw [if_neg pins]
      exact iff_of_false List.not_mem_nil fun both => pins both.1
  have here : s.read.containsUid x = true := present
  rw [draggedIn, if_pos here, List.mem_append, List.mem_append, or_assoc]
  exact or_congr (s.mem_deep support) (or_congr List.mem_filter positions)

/-- What has what its units oblige is what satisfies the constraints. -/
theorem meets_iff_admissible (S : Selection) :
    Meets (s.obliges support) S ↔ s.Admissible support S := by
  rw [meets_iff]
  constructor
  · intro all
    have drags : ∀ x l, S.get x = some l → ∀ u ∈ s.draggedIn support x l,
        S.contains u = true := by
      intro x l held u dragged
      exact all (x, l) ((BTreeMap.mem_entries_iff S x l).mpr held) u dragged
    constructor
    · intro x l unit held deep found d refers present
      have here : s.read.Present x := by
        rw [StoreRead.Present, StoreRead.containsUid, BTreeMap.contains_iff]
        exact ⟨unit, found⟩
      apply drags x l held
      rw [s.mem_dragged_in support here]
      exact Or.inl ⟨deep, Or.inl ⟨unit, found, refers, present⟩⟩
    · intro x l held deep here w warrant
      apply drags x l held
      rw [s.mem_dragged_in support here]
      exact Or.inl ⟨deep, Or.inr (Or.inl warrant)⟩
    · intro x l held deep here v supports
      apply drags x l held
      rw [s.mem_dragged_in support here]
      exact Or.inl ⟨deep, Or.inr (Or.inr supports)⟩
    · intro x l held here r rebuts present
      apply drags x l held
      rw [s.mem_dragged_in support here]
      exact Or.inr (Or.inl ⟨rebuts, present⟩)
    · intro x l held here k open_ pins p position present
      apply drags x l held
      rw [s.mem_dragged_in support here]
      exact Or.inr (Or.inr ⟨k, open_, pins, position, present⟩)
  · intro admissible e mem u dragged
    have held := (BTreeMap.mem_entries_iff S e.1 e.2).mp mem
    by_cases here : s.read.Present e.1
    · rw [s.mem_dragged_in support here] at dragged
      rcases dragged with ⟨deep, references | warrant | supports⟩ | rebuts | contention
      · obtain ⟨unit, found, refers, present⟩ := references
        exact admissible.references e.1 e.2 unit held deep found u refers present
      · exact admissible.warrants e.1 e.2 held deep here u warrant
      · exact admissible.supports e.1 e.2 held deep here u supports
      · exact admissible.rebuttals e.1 e.2 held here u rebuts.1 rebuts.2
      · obtain ⟨k, open_, pins, position, present⟩ := contention
        exact admissible.contentions e.1 e.2 held here k open_ pins u position present
    · have absent : ¬ s.read.containsUid e.1 = true := here
      rw [draggedIn, if_neg absent] at dragged
      cases dragged

/-- The obligation is the least admissible selection that has the unit at the level; every
order of taking what is pending leads to it; and none goes on for more steps than there are
units and obligations for. -/
theorem required_via_least (uid : Uid) (l : Lod) :
    IsLeast { S : Uid → WithBot Lod | ∃ T : Selection, level T = S ∧ s.Admissible support T ∧
        (l : WithBot Lod) ≤ level T uid } (level (s.requiredVia uid l support)) ∧
      (∀ out, ReflTransGen (Obligations.Step (s.obliges support)) (∅, [(uid, l)]) (out, []) →
        out = s.requiredVia uid l support) ∧
      ∀ (states : ℕ → Selection × List (Uid × Lod)) (n : ℕ), states 0 = (∅, [(uid, l)]) →
        (∀ i < n, Obligations.Step (s.obliges support) (states i) (states (i + 1))) →
          n ≤ (s.units.keys.length + 1) * (s.obligations support + 1) + 1 := by
  have settled := @required_settled _ s support uid l
  refine ⟨⟨?_, ?_⟩, ?_, ?_⟩
  · exact ⟨_, rfl, (s.meets_iff_admissible support _).mp settled.meets, s.required_self uid l⟩
  · intro S has
    obtain ⟨T, same, admissible, start⟩ := has
    rw [← same]
    intro x
    apply settled.within T ((s.meets_iff_admissible support T).mpr admissible)
    · intro y
      rw [level_empty]
      exact bot_le
    · intro o mem
      rw [List.mem_singleton.mp mem]
      exact start
  · intro out steps
    have nothing : Pending (s.obliges support) ∅ [(uid, l)] := by
      intro x k held
      rw [level_empty] at held
      exact absurd held WithBot.bot_ne_coe
    have settled' := steps_settled s.obliges_mono steps nothing
    apply BTreeMap.ext_get
    intro x
    exact get_of_level (settled'.unique settled x)
  · intro states n start steps
    have inside : ∀ o ∈ (states 0).2, o ∈ (uid, l) :: s.units.keys.map (fun u => (u, Lod.l0)) := by
      rw [start]
      intro o mem
      rw [List.mem_singleton.mp mem]
      exact List.mem_cons_self
    have few := steps_bounded (s.obliges_bounded (uid, l)) s.obliges_narrow states inside steps
    have most : unmet ((uid, l) :: s.units.keys.map (fun u => (u, Lod.l0)))
        (∅ : Selection) ≤ s.units.keys.length + 1 := by
      apply (List.length_filter_le _ _).trans
      rw [List.length_cons, List.length_map]
    have product := Nat.mul_le_mul_right (s.obligations support + 1) most
    rw [start, left, left, List.length_singleton] at few
    dsimp only at few
    omega

end
end Store
end Smysl
