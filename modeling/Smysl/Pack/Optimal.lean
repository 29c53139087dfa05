import Smysl.Graph.Survivors
import Smysl.Pack.Bound

/-!
Exact packing is optimal where depth has a price. A selection that the search
may choose is reached by anchoring each of its units at its own level; along
that path the relaxation bounds what is still to come, so no branch with the
optimum in it is left, as long as an upgrade that is worth something costs
something and closures do not bring in anything of worth from outside the scope.
-/
namespace Smysl
open Knapsack Obligations

namespace PackProblem
section
variable [Blake3] (p : PackProblem) (scope : List Uid) (floor : Selection)

/-- The floor together with the closures of some anchors. -/
def anchored (floor : Selection) (anchors : List (Uid × Lod)) : Selection :=
  anchors.foldl (fun S a => (p.store.required a.1 a.2).entries.foldl raise S) floor

/-- A unit in scope, at a level it may be taken at. -/
def Anchor (a : Uid × Lod) : Prop :=
  a.1 ∈ scope ∧ ∃ unit, p.store.units.get a.1 = some unit ∧ a.2 ∈ p.cappedLevels unit.core

/-- What the search may choose. -/
def Admissible (S : Selection) : Prop :=
  (∃ anchors, (∀ a ∈ anchors, p.Anchor scope a) ∧ S = p.anchored floor anchors) ∧
    costOf p.store S p.costs ≤ p.budget

/-- An upgrade of a unit that is worth something costs something. -/
def DepthPaid : Prop :=
  ∀ u ∈ scope, ∀ unit, p.store.units.get u = some unit → 0 < p.salience.of u →
    ∀ l ∈ p.cappedLevels unit.core, 0 < p.costs.unit unit.core l ∧
      ∀ h, h < l → p.costs.unit unit.core h < p.costs.unit unit.core l

/-- What closures bring in from outside the scope is worth nothing. -/
def WorthInScope : Prop :=
  ∀ a, p.Anchor scope a → ∀ u ∈ (p.store.required a.1 a.2).keys, u ∉ scope →
    p.salience.of u = 0

theorem level_anchored (anchors : List (Uid × Lod)) (x : Uid) (b : WithBot Lod) :
    level (p.anchored floor anchors) x ≤ b ↔
      level floor x ≤ b ∧ ∀ a ∈ anchors, level (p.store.required a.1 a.2) x ≤ b := by
  induction anchors generalizing floor with
  | nil => simp [anchored]
  | cons a anchors ih =>
    have rest := ih ((p.store.required a.1 a.2).entries.foldl raise floor)
    rw [anchored] at rest ⊢
    rw [List.foldl_cons, rest, union_level, sup_le_iff, List.forall_mem_cons, and_assoc]

/-- One more anchor. -/
theorem anchored_snoc (anchors : List (Uid × Lod)) (u : Uid) (l : Lod) :
    p.anchored floor (anchors ++ [(u, l)]) =
      (p.store.delta (p.anchored floor anchors) u l).entries.foldl raise
        (p.anchored floor anchors) := by
  apply selection_ext
  intro x
  rw [taken_level, anchored, List.foldl_append, List.foldl_cons, List.foldl_nil, union_level,
    anchored]

/-- A selection that has its floor and each of its units' closures: what the
search can rebuild by anchoring every unit at its level. -/
structure Rebuilt (S : Selection) : Prop where
  base : ∀ u, level floor u ≤ level S u
  anchors : ∀ u ∈ scope, ∀ l : Lod, level S u = (l : WithBot Lod) → level floor u < level S u →
    (∃ unit, p.store.units.get u = some unit ∧ l ∈ p.cappedLevels unit.core) ∧
      ∀ x, level (p.store.required u l) x ≤ level S x
  outside : ∀ u, u ∉ scope → level floor u < level S u → p.salience.of u = 0

variable {p scope floor}

/-- What is above the floor in an admissible selection comes with its closure. -/
theorem above_floor {anchors : List (Uid × Lod)} {u : Uid} {l : Lod}
    (at' : level (p.anchored floor anchors) u = (l : WithBot Lod))
    (above : level floor u < level (p.anchored floor anchors) u) :
    ∃ a ∈ anchors, level (p.store.required a.1 a.2) u = (l : WithBot Lod) := by
  rcases union_all_level (fun a : Uid × Lod => p.store.required a.1 a.2) anchors floor at' with
    base | found
  · rw [at', base] at above
    exact absurd above (lt_irrefl _)
  · exact found

omit [Blake3] in
theorem available_lowest (core : UnitCore) : Lod.l0 ∈ availableLevels core := List.mem_cons_self

/-- An admissible selection can be rebuilt. -/
theorem rebuilt_of_admissible (lowest : p.cap .l0 = .l0) (inScope : p.WorthInScope scope)
    {S : Selection} (admissible : p.Admissible scope floor S) : p.Rebuilt scope floor S := by
  obtain ⟨⟨anchors, valid, same⟩, _⟩ := admissible
  have closure : ∀ a ∈ anchors, ∀ x, level (p.store.required a.1 a.2) x ≤ level S x := by
    intro a mem x
    rw [same]
    exact ((p.level_anchored floor anchors x _).mp (le_refl _)).2 a mem
  constructor
  · intro u
    rw [same]
    exact ((p.level_anchored floor anchors u _).mp (le_refl _)).1
  · intro u _ l at' above
    have held := at'
    rw [same] at at' above
    obtain ⟨a, mem, required⟩ := above_floor at' above
    constructor
    · rcases p.store.required_levels required with ⟨here, asked⟩ | ⟨low, present⟩
      · obtain ⟨_, unit, found, capped⟩ := valid a mem
        rw [here, asked]
        exact ⟨unit, found, capped⟩
      · obtain ⟨unit, found⟩ := (BTreeMap.contains_iff _ _).mp present
        refine ⟨unit, found, ?_⟩
        rw [mem_capped, low, ← lowest]
        exact List.mem_map_of_mem (available_lowest unit.core)
    · intro x
      exact (p.store.required_again required x).trans (closure a mem x)
  · intro u absent above
    rw [same] at above
    cases at' : level (p.anchored floor anchors) u with
    | bot =>
      rw [at'] at above
      exact absurd above not_lt_bot
    | coe l =>
      obtain ⟨a, mem, required⟩ := above_floor at' above
      apply inScope a (valid a mem) u _ absent
      rw [BTreeMap.mem_keys_iff, BTreeMap.contains_iff]
      exact ⟨l, level_get.mp required⟩

/-- On the way to a selection: what is still missing of it is to be decided. -/
structure Toward (p : PackProblem) (scope : List Uid) (floor : Selection) (xs : List Uid)
    (S T : Selection) : Prop where
  part : ∀ u ∈ xs, u ∈ scope
  base : ∀ u, level floor u ≤ level S u
  below : ∀ u, level S u ≤ level T u
  later : ∀ u, level S u < level T u → u ∈ xs ∨ p.salience.of u = 0

theorem toward_within (paid : p.DepthPaid scope) {xs : List Uid} {S T : Selection}
    (rebuilt : p.Rebuilt scope floor T) (toward : p.Toward scope floor xs S T) :
    ∀ u ∈ xs, p.WithinItem S T u := by
  intro u mem
  by_cases worthless : p.salience.of u = 0
  · apply Or.inl
    have nothing : ∀ R : Selection, worthAt p.salience R u = 0 := by
      intro R
      rw [worthAt]
      cases R.get u with
      | none => rfl
      | some l =>
        dsimp only
        rw [value, worthless]
        simp
    rw [nothing, nothing, spendOn, if_pos worthless]
    exact ⟨sub_zero 0, rfl⟩
  · have salient : 0 < p.salience.of u := pos_iff_ne_zero.mpr worthless
    rcases eq_or_lt_of_le (toward.below u) with same | lower
    · apply Or.inl
      have got := get_of_level same
      rw [spendOn, if_neg worthless, costAt, costAt, worthAt, worthAt, got, sub_self, Nat.sub_self]
      exact ⟨rfl, rfl⟩
    · apply Or.inr
      cases at' : level T u with
      | bot =>
        rw [at'] at lower
        exact absurd lower not_lt_bot
      | coe l =>
        obtain ⟨⟨unit, held, capped⟩, _⟩ := rebuilt.anchors u (toward.part u mem) l at'
          (lt_of_le_of_lt (toward.base u) lower)
        obtain ⟨something, deeper⟩ := paid u (toward.part u mem) unit held salient l capped
        have dearer : costAt p.store p.costs S u < costAt p.store p.costs T u := by
          rw [costAt, costAt, level_get.mp at', held]
          cases low : S.get u with
          | none => exact something
          | some h =>
            rw [level_get.mpr low, at'] at lower
            exact deeper h (WithBot.coe_lt_coe.mp lower)
        have listed := p.upgrade_listed held at' capped lower salient dearer
        obtain ⟨i, found, little, gained⟩ := p.relaxed_item_covers held listed
        refine ⟨i, found, ?_, ?_⟩
        · rw [spendOn, if_neg worthless]
          exact little
        · rw [spendOn, if_neg worthless]
          exact gained

/-- The bound a node is pruned by holds of every affordable selection that the
node is on the way to. -/
theorem bound_holds (paid : p.DepthPaid scope) {xs : List Uid} {S T : Selection}
    (rebuilt : p.Rebuilt scope floor T) (toward : p.Toward scope floor xs S T)
    (affordable : costOf p.store T p.costs ≤ p.budget) :
    achieved T p.salience ≤ achieved S p.salience +
      p.fractional S xs (p.budget - costOf p.store S p.costs) := by
  let U : Finset Uid := (S.keys ++ T.keys ++ xs).toFinset
  have inS : ∀ u ∈ S.keys, u ∈ U := by
    intro u mem
    simp [U, mem]
  have inT : ∀ u ∈ T.keys, u ∈ U := by
    intro u mem
    simp [U, mem]
  have sub : xs.toFinset ⊆ U := by
    intro u mem
    have listed := List.mem_toFinset.mp mem
    simp [U, listed]
  have none' : ∀ u ∈ U, u ∉ xs.toFinset →
      worthAt p.salience T u - worthAt p.salience S u = 0 := by
    intro u _ absent
    rw [List.mem_toFinset] at absent
    rcases eq_or_lt_of_le (toward.below u) with same | lower
    · rw [worthAt, worthAt, get_of_level same, sub_self]
    · rcases toward.later u lower with mem | worthless
      · exact absurd mem absent
      · rw [worthAt, worthAt]
        cases T.get u <;> cases S.get u <;> simp [value, worthless]
  have gain : achieved T p.salience - achieved S p.salience =
      ∑ u ∈ xs.toFinset, (worthAt p.salience T u - worthAt p.salience S u) := by
    rw [achieved_sum p.salience T inT, achieved_sum p.salience S inS, ← Finset.sum_sub_distrib]
    exact (Finset.sum_subset sub none').symm
  have spend : ∑ u ∈ xs.toFinset, p.spendOn S T u ≤
      p.budget - costOf p.store S p.costs := by
    have each : ∀ u, p.spendOn S T u + costAt p.store p.costs S u ≤
        costAt p.store p.costs T u := by
      intro u
      have le := cost_mono p.store p.costs (toward.below u)
      rw [spendOn]
      split <;> omega
    have total : ∑ u ∈ U, p.spendOn S T u + costOf p.store S p.costs ≤
        costOf p.store T p.costs := by
      rw [cost_sum p.store p.costs S inS, cost_sum p.store p.costs T inT,
        ← Finset.sum_add_distrib]
      exact Finset.sum_le_sum fun u _ => each u
    have fewer : ∑ u ∈ xs.toFinset, p.spendOn S T u ≤ ∑ u ∈ U, p.spendOn S T u :=
      Finset.sum_le_sum_of_subset sub
    omega
  have bounded := p.gain_le_fractional (toward_within paid rebuilt toward) spend
  rw [← gain] at bounded
  linarith

/-- A search only betters the best seen. -/
def Keeps (go : Selection → Nat → Search → Search × Bool) : Prop :=
  ∀ S used st, st.best.value ≤ (go S used st).1.best.value

omit [Blake3] in
/-- A node is at least as good as its selection, and as what was seen before. -/
theorem visit_best (S : Selection) (used : Nat) (st : Search) :
    st.best.value ≤ (p.visit S used st).best.value ∧
      achieved S p.salience ≤ (p.visit S used st).best.value := by
  rw [visit]
  dsimp only
  split
  · rename_i better
    exact ⟨le_of_lt better, le_refl _⟩
  · rename_i worse
    exact ⟨le_refl _, not_lt.mp worse⟩

variable (go : Selection → Nat → Search → Search × Bool) (S : Selection) (uid : Uid)

/-- A level is passed over where it changes nothing or is not affordable, and
else its branch is searched. -/
theorem try_level_cases (state : Search × Bool) (l : Lod) :
    (p.tryLevel go S uid state l = state ∧ ((l : WithBot Lod) ≤ level S uid ∨
      (p.store.delta S uid l).isEmpty = true ∨
      p.budget < costOf p.store ((p.store.delta S uid l).entries.foldl raise S) p.costs)) ∨
    ∃ r, r = go ((p.store.delta S uid l).entries.foldl raise S)
        (costOf p.store ((p.store.delta S uid l).entries.foldl raise S) p.costs) state.1 ∧
      costOf p.store ((p.store.delta S uid l).entries.foldl raise S) p.costs ≤ p.budget ∧
      p.tryLevel go S uid state l = (r.1, state.2 || r.2) := by
  rw [tryLevel]
  split
  · rename_i met
    obtain ⟨k, held, le⟩ := Option.any_eq_true _ _ |>.mp met
    refine Or.inl ⟨rfl, Or.inl ?_⟩
    rw [level_get.mpr held]
    exact WithBot.coe_le_coe.mpr (of_decide_eq_true le)
  · dsimp only
    split
    · rename_i nothing
      exact Or.inl ⟨rfl, Or.inr (Or.inl nothing)⟩
    · split
      · rename_i dear
        exact Or.inl ⟨rfl, Or.inr (Or.inr dear)⟩
      · rename_i affordable
        exact Or.inr ⟨_, rfl, not_lt.mp affordable, rfl⟩

theorem try_level_keeps {go : Selection → Nat → Search → Search × Bool} (keeps : Keeps go)
    (state : Search × Bool) (l : Lod) :
    state.1.best.value ≤ (p.tryLevel go S uid state l).1.best.value ∧
      ((p.tryLevel go S uid state l).2 = false → state.2 = false) := by
  rcases p.try_level_cases go S uid state l with
    ⟨same, _⟩ | ⟨r, searched, _, same⟩
  · rw [same]
    exact ⟨le_refl _, id⟩
  · rw [same, searched]
    refine ⟨keeps _ _ _, fun quiet => ?_⟩
    exact (Bool.or_eq_false_iff.mp quiet).1

theorem tries_keep {go : Selection → Nat → Search → Search × Bool} (keeps : Keeps go)
    (ls : List Lod) (state : Search × Bool) :
    state.1.best.value ≤ (ls.foldl (p.tryLevel go S uid) state).1.best.value ∧
      ((ls.foldl (p.tryLevel go S uid) state).2 = false → state.2 = false) := by
  induction ls generalizing state with
  | nil => exact ⟨le_refl _, id⟩
  | cons l ls ih =>
    rw [List.foldl_cons]
    obtain ⟨better, quiet⟩ := p.try_level_keeps S uid keeps state l
    obtain ⟨better', quiet'⟩ := ih (p.tryLevel go S uid state l)
    exact ⟨better.trans better', fun last => quiet (quiet' last)⟩

/-- Each level of a unit is tried, and what is seen then is kept. -/
theorem tries_reach {go : Selection → Nat → Search → Search × Bool} (keeps : Keeps go)
    {ls : List Lod} {l : Lod} (mem : l ∈ ls)
    {state : Search × Bool} (quiet : (ls.foldl (p.tryLevel go S uid) state).2 = false) :
    ∃ before, (p.tryLevel go S uid before l).2 = false ∧
      (p.tryLevel go S uid before l).1.best.value ≤
        (ls.foldl (p.tryLevel go S uid) state).1.best.value := by
  induction ls generalizing state with
  | nil => cases mem
  | cons k ls ih =>
    rw [List.foldl_cons] at quiet ⊢
    rcases List.mem_cons.mp mem with here | mem
    · obtain ⟨better, still⟩ := p.tries_keep S uid keeps ls
        (p.tryLevel go S uid state k)
      rw [here]
      exact ⟨state, still quiet, better⟩
    · exact ih mem quiet

theorem descend_keeps (xs : List Uid) : Keeps (p.descend xs) := by
  induction xs with
  | nil =>
    intro S used st
    rw [descend]
    split
    · exact le_refl _
    · exact (p.visit_best S used st).1
  | cons uid rest ih =>
    intro S used st
    rw [descend]
    have seen := (p.visit_best S used st).1
    split
    · exact le_refl _
    · dsimp only
      split
      · exact seen
      · split
        · exact seen.trans (ih _ _ _)
        · rename_i unit _
          obtain ⟨better, _⟩ := p.tries_keep S uid ih
            (p.cappedLevels unit.core).reverse (p.visit S used st, false)
          exact (seen.trans better).trans (ih _ _ _)

/-- Anchoring a unit at its level stays on the way. -/
theorem toward_taken {S : Selection} {uid : Uid} {rest : List Uid} {T : Selection} {l : Lod}
    (toward : p.Toward scope floor (uid :: rest) S T)
    (at' : level T uid = (l : WithBot Lod))
    (closure : ∀ x, level (p.store.required uid l) x ≤ level T x) :
    p.Toward scope floor rest ((p.store.delta S uid l).entries.foldl raise S) T where
  part u mem := toward.part u (List.mem_cons_of_mem _ mem)
  base u := by
    rw [taken_level]
    exact (toward.base u).trans le_sup_left
  below u := by
    rw [taken_level]
    exact sup_le (toward.below u) (closure u)
  later u lower := by
    rw [taken_level] at lower
    rcases toward.later u (lt_of_le_of_lt le_sup_left lower) with mem | worthless
    · rcases List.mem_cons.mp mem with here | mem
      · rw [here, at'] at lower
        have asked := (p.store.required_self uid l).trans
          (le_sup_right : _ ≤ level S uid ⊔ level (p.store.required uid l) uid)
        exact absurd lower (not_lt.mpr asked)
      · exact Or.inl mem
    · exact Or.inr worthless

/-- A level that is still to be reached, and affordable, is searched. -/
theorem try_level_searches {S : Selection} {uid : Uid} (state : Search × Bool)
    {T : Selection} {l : Lod}
    (lower : level S uid < (l : WithBot Lod))
    (below : ∀ x, level ((p.store.delta S uid l).entries.foldl raise S) x ≤ level T x)
    (affordable : costOf p.store T p.costs ≤ p.budget) :
    ∃ r, r = go ((p.store.delta S uid l).entries.foldl raise S)
        (costOf p.store ((p.store.delta S uid l).entries.foldl raise S) p.costs) state.1 ∧
      p.tryLevel go S uid state l = (r.1, state.2 || r.2) := by
  rcases p.try_level_cases go S uid state l with
    ⟨_, met | nothing | dear⟩ | ⟨r, searched, _, same⟩
  · exact absurd lower (not_lt.mpr met)
  · have asked := (p.store.required_self uid l).trans
      (le_sup_right : _ ≤ level S uid ⊔ level (p.store.required uid l) uid)
    rw [← taken_level, List.isEmpty_iff.mp nothing, List.foldl_nil] at asked
    exact absurd lower (not_lt.mpr asked)
  · have cheap := cost_of_mono p.store p.costs below
    omega
  · exact ⟨r, searched, same⟩

/-- A search that was not cut short sees every affordable selection that its
node is on the way to, or a better one. -/
theorem descend_complete (paid : p.DepthPaid scope) {T : Selection}
    (rebuilt : p.Rebuilt scope floor T) (affordable : costOf p.store T p.costs ≤ p.budget)
    (xs : List Uid) {S : Selection} {st : Search}
    (toward : p.Toward scope floor xs S T)
    (quiet : (p.descend xs S (costOf p.store S p.costs) st).2 = false) :
    achieved T p.salience ≤
      (p.descend xs S (costOf p.store S p.costs) st).1.best.value := by
  induction xs generalizing S st with
  | nil =>
    rw [descend] at quiet ⊢
    split at quiet
    · cases quiet
    · rename_i within
      rw [if_neg within]
      have bounded := bound_holds paid rebuilt toward affordable
      have nothing : p.fractional S [] (p.budget - costOf p.store S p.costs) = 0 := by
        rw [fractional]
        split
        · rfl
        · rfl
      rw [nothing, add_zero] at bounded
      exact bounded.trans (p.visit_best S _ st).2
  | cons uid rest ih =>
    have bounded := bound_holds paid rebuilt toward affordable
    rw [descend] at quiet ⊢
    split at quiet
    · cases quiet
    · rename_i within
      rw [if_neg within]
      dsimp only at quiet ⊢
      split at quiet
      · rename_i pruned
        rw [if_pos pruned]
        exact bounded.trans pruned
      · rename_i promising
        rw [if_neg promising]
        -- the unit already has its level, or it is anchored there
        have skip : level S uid = level T uid → p.Toward scope floor rest S T := by
          intro same
          refine ⟨fun u mem => toward.part u (List.mem_cons_of_mem _ mem), toward.base,
            toward.below, fun u lower => ?_⟩
          rcases toward.later u lower with mem | worthless
          · rcases List.mem_cons.mp mem with here | mem
            · rw [here] at lower
              exact absurd same (ne_of_lt lower)
            · exact Or.inl mem
          · exact Or.inr worthless
        cases found : p.store.units.get uid with
        | none =>
          rw [found] at quiet
          apply ih (skip _) quiet
          by_contra apart
          have lower := lt_of_le_of_ne (toward.below uid) apart
          cases at' : level T uid with
          | bot =>
            rw [at'] at lower
            exact absurd lower not_lt_bot
          | coe l =>
            obtain ⟨⟨unit, held, _⟩, _⟩ := rebuilt.anchors uid
              (toward.part uid List.mem_cons_self) l at'
              (lt_of_le_of_lt (toward.base uid) lower)
            rw [found] at held
            cases held
        | some unit =>
          rw [found] at quiet
          dsimp only at quiet ⊢
          obtain ⟨triedQuiet, lastQuiet⟩ := Bool.or_eq_false_iff.mp quiet
          rcases eq_or_lt_of_le (toward.below uid) with same | lower
          · exact ih (skip same) lastQuiet
          · apply le_trans _ (p.descend_keeps rest _ _ _)
            cases at' : level T uid with
            | bot =>
              rw [at'] at lower
              exact absurd lower not_lt_bot
            | coe l =>
              obtain ⟨⟨unit', held, capped⟩, closure⟩ := rebuilt.anchors uid
                (toward.part uid List.mem_cons_self) l at'
                (lt_of_le_of_lt (toward.base uid) lower)
              rw [found] at held
              cases held
              obtain ⟨before, stepQuiet, kept⟩ := p.tries_reach S uid (p.descend_keeps rest)
                (List.mem_reverse.mpr capped) triedQuiet
              apply le_trans _ kept
              have onward := toward_taken toward at' closure
              rw [at'] at lower
              obtain ⟨r, searched, same⟩ := p.try_level_searches (p.descend rest) before lower
                onward.below affordable
              rw [same] at stepQuiet ⊢
              have quiet' := (Bool.or_eq_false_iff.mp stepQuiet).2
              rw [searched] at quiet' ⊢
              exact ih onward quiet'

/-- What holds of the best seen, whatever admissible selection is searched. -/
def Maintains (p : PackProblem) (scope : List Uid) (floor : Selection) (P : Exact → Prop)
    (go : Selection → Nat → Search → Search × Bool) : Prop :=
  ∀ S st, p.Admissible scope floor S → P st.best → P (go S (costOf p.store S p.costs) st).1.best

theorem tries_maintain {P : Exact → Prop} {go : Selection → Nat → Search → Search × Bool}
    (maintains : p.Maintains scope floor P go) {S : Selection} {uid : Uid}
    (admissible : p.Admissible scope floor S) {ls : List Lod}
    (anchors : ∀ l ∈ ls, p.Anchor scope (uid, l)) {state : Search × Bool}
    (held : P state.1.best) : P (ls.foldl (p.tryLevel go S uid) state).1.best := by
  induction ls generalizing state with
  | nil => exact held
  | cons l ls ih =>
    rw [List.foldl_cons]
    apply ih fun k mem => anchors k (List.mem_cons_of_mem l mem)
    rcases p.try_level_cases go S uid state l with ⟨same, _⟩ | ⟨r, searched, affordable, same⟩
    · rw [same]
      exact held
    · rw [same, searched]
      apply maintains _ _ _ held
      obtain ⟨⟨as, valid, made⟩, _⟩ := admissible
      refine ⟨⟨as ++ [(uid, l)], ?_, ?_⟩, affordable⟩
      · intro a mem
        rcases List.mem_append.mp mem with old | new
        · exact valid a old
        · rw [List.mem_singleton.mp new]
          exact anchors l List.mem_cons_self
      · rw [anchored_snoc, ← made]

/-- A search maintains whatever coming to a node does. -/
theorem descend_maintains {P : Exact → Prop}
    (visits : ∀ S st, p.Admissible scope floor S → P st.best →
      P (p.visit S (costOf p.store S p.costs) st).best)
    {xs : List Uid} (part : ∀ u ∈ xs, u ∈ scope) :
    p.Maintains scope floor P (p.descend xs) := by
  induction xs with
  | nil =>
    intro S st admissible held
    rw [descend]
    split
    · exact held
    · exact visits S st admissible held
  | cons uid rest ih =>
    have later := ih fun u mem => part u (List.mem_cons_of_mem uid mem)
    intro S st admissible held
    have seen := visits S st admissible held
    rw [descend]
    split
    · exact held
    · dsimp only
      split
      · exact seen
      · split
        · exact later S _ admissible seen
        · rename_i unit found
          apply later S _ admissible
          apply tries_maintain later admissible _ seen
          intro l mem
          exact ⟨part uid List.mem_cons_self, unit, found, List.mem_reverse.mp mem⟩

/-- No better than some admissible selection. -/
def Chosen (p : PackProblem) (scope : List Uid) (floor : Selection) (v : ℚ) : Prop :=
  ∃ T, p.Admissible scope floor T ∧ v ≤ achieved T p.salience

omit [Blake3] in
/-- Coming to a node keeps its selection, or what was the best. -/
theorem visit_cases (S : Selection) (used : Nat) (st : Search) :
    (achieved S p.salience ≤ st.best.value ∧ (p.visit S used st).best = st.best) ∨
      (p.visit S used st).best =
        { st.best with value := achieved S p.salience, used := used, selection := S } := by
  rw [visit]
  dsimp only
  split
  · exact Or.inr rfl
  · rename_i worse
    exact Or.inl ⟨not_lt.mp worse, rfl⟩

theorem visit_chosen (S : Selection) (st : Search) (admissible : p.Admissible scope floor S)
    (chosen : p.Chosen scope floor st.best.value) :
    p.Chosen scope floor (p.visit S (costOf p.store S p.costs) st).best.value := by
  rcases p.visit_cases S (costOf p.store S p.costs) st with ⟨_, same⟩ | same
  · rw [same]
    exact chosen
  · rw [same]
    exact ⟨S, admissible, le_refl _⟩

omit [Blake3] in
/-- Depth is paid for where every text costs something and no level is raised. -/
theorem depth_paid_of_texts (scope : List Uid) (lowers : ∀ l, p.cap l ≤ l)
    (texts : ∀ t, 0 < p.costs.text t) : p.DepthPaid scope := by
  intro u _ unit _ _ l capped
  rw [mem_capped] at capped
  obtain ⟨a, authored, same⟩ := List.mem_map.mp capped
  have le := lowers a
  rw [same] at le
  have gist := texts unit.core.gist
  have some' : ∀ o : Option String, o.isSome = true → 0 < (o.map p.costs.text).getD 0 := by
    intro o present
    obtain ⟨t, rfl⟩ := Option.isSome_iff_exists.mp present
    exact texts t
  have held : (Lod.l1 ≤ a → unit.core.body.isSome = true) ∧
      (Lod.l2 ≤ a → unit.core.detail.isSome = true) := by
    rw [availableLevels] at authored
    rcases List.mem_cons.mp authored with low | authored
    · rw [low]
      exact ⟨fun up => absurd up (by decide), fun up => absurd up (by decide)⟩
    · rcases List.mem_append.mp authored with mid | deep
      · split at mid
        · rename_i body
          rw [List.mem_singleton.mp mid]
          exact ⟨fun _ => body, fun up => absurd up (by decide)⟩
        · cases mid
      · split at deep
        · rename_i detail
          exact ⟨fun _ => unit.core.detail_has_body detail, fun _ => detail⟩
        · cases deep
  have body : Lod.l1 ≤ l → 0 < (unit.core.body.map p.costs.text).getD 0 :=
    fun up => some' _ (held.1 (up.trans le))
  have detail : Lod.l2 ≤ l → 0 < (unit.core.detail.map p.costs.text).getD 0 :=
    fun up => some' _ (held.2 (up.trans le))
  constructor
  · rw [CostModel.unit]
    omega
  · intro h less
    rw [CostModel.unit, CostModel.unit]
    by_cases deep : Lod.l2 ≤ l
    · have more := detail deep
      have below : ¬ Lod.l2 ≤ h := not_le.mpr (lt_of_lt_of_le less (by cases l <;> decide))
      have mid : Lod.l1 ≤ l := le_trans (by decide) deep
      rw [if_pos deep, if_neg below, if_pos mid]
      split <;> omega
    · have mid : Lod.l1 ≤ l := by
        cases l <;> cases h <;> first | exact absurd less (by decide) | decide
      have more := body mid
      have below : ¬ Lod.l1 ≤ h := by
        intro up
        cases l <;> cases h <;> first
          | exact absurd less (by decide)
          | exact absurd up (by decide)
          | exact deep (by decide)
      have low : ¬ Lod.l2 ≤ h := fun up => deep (up.trans (le_of_lt less))
      rw [if_pos mid, if_neg below, if_neg deep, if_neg low]
      omega

theorem worth_in_scope_of_local (scope : List Uid)
    (within : ∀ u, u ∉ scope → p.salience.of u = 0) : p.WorthInScope scope :=
  fun _ _ u _ absent => within u absent

end

section
local instance plainPackText : Unicode := .plain
local instance modPrimePackHash : Blake3 := .modPrime

def lone : UnitCore := bareClaim "a" present_a ∅

/-- One unit of salience one, every text of which costs the same. -/
def loneUnit (cost budget : Nat) : PackProblem where
  store := Store.fromRecords [.unit lone]
  salience := BTreeMap.ofList [(canonicalUid lone, 1)]
  costs := ⟨some fun _ => cost⟩
  budget := budget
  nodeLimit := 10
  cap := id

def loneScope : List Uid := [canonicalUid lone]

theorem lone_worth_in_scope (cost budget : Nat) :
    (loneUnit cost budget).WorthInScope loneScope := by
  apply worth_in_scope_of_local
  intro u absent
  have apart : u ≠ canonicalUid lone := fun same => absent (List.mem_singleton.mpr same)
  have none' : (loneUnit cost budget).salience.get u = none := by
    rw [loneUnit, BTreeMap.ofList, List.foldl_cons, List.foldl_nil, BTreeMap.get_insert,
      if_neg apart]
    rfl
  rw [Salience.of, none']
  rfl

end
end PackProblem
end Smysl
