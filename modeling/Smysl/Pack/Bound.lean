import Mathlib.Algebra.BigOperators.Ring.Finset
import Mathlib.Algebra.Order.BigOperators.Group.Finset
import Smysl.Pack.Exact

/-!
What the search rests on. A closure holds the closures of everything in it; a
selection's cost and value are sums over its units; and the fractional
relaxation bounds every completion of a node by units that are still to be
decided, where depth has a price.
-/
namespace Smysl
open Knapsack Obligations

namespace Store
section
variable [Blake3] (s : Store) {support : EdgeSet}

theorem dragged_present {x u : Uid} {l : Lod} (mem : u ∈ s.draggedIn support x l) :
    s.read.containsUid u = true := by
  rw [draggedIn] at mem
  split at mem
  · rcases List.mem_append.mp mem with mem | position
    · rcases List.mem_append.mp mem with deep | rebuttal
      · split at deep
        · rcases List.mem_append.mp deep with deep | supports
          · rcases List.mem_append.mp deep with reference | warrant
            · split at reference
              · exact (List.mem_filter.mp reference).2
              · cases reference
            · exact (List.mem_filter.mp warrant).2
          · exact (List.mem_filter.mp supports).2
        · cases deep
      · exact (List.mem_filter.mp rebuttal).2
    · obtain ⟨k, _, position⟩ := List.mem_flatMap.mp position
      split at position
      · exact (List.mem_filter.mp position).2
      · cases position
  · cases mem

theorem dragged_sublist {x : Uid} {l k : Lod} (le : l ≤ k) :
    (s.draggedIn support x l).Sublist (s.draggedIn support x k) := by
  rw [draggedIn, draggedIn]
  split
  · apply List.Sublist.append _ (List.Sublist.refl _)
    apply List.Sublist.append _ (List.Sublist.refl _)
    by_cases deep : Lod.l1 ≤ l
    · rw [if_pos deep, if_pos (deep.trans le)]
    · rw [if_neg deep]
      exact List.nil_sublist _
  · exact List.Sublist.refl _

theorem obliges_mono (x : Uid) (l k : Lod) (le : l ≤ k) (o : Uid × Lod)
    (mem : o ∈ s.obliges support x l) : o ∈ s.obliges support x k :=
  ((s.dragged_sublist le).map _).subset mem

theorem obliges_bounded (start : Uid × Lod) (x : Uid) (l : Lod) (o : Uid × Lod)
    (mem : o ∈ s.obliges support x l) :
    o ∈ start :: s.units.keys.map (fun u => (u, Lod.l0)) := by
  obtain ⟨u, dragged, same⟩ := List.mem_map.mp mem
  apply List.mem_cons_of_mem
  rw [← same]
  apply List.mem_map.mpr
  exact ⟨u, (s.units.mem_keys_iff u).mpr (s.dragged_present dragged), rfl⟩

theorem obliges_narrow (x : Uid) (l : Lod) :
    (s.obliges support x l).length ≤ s.obligations support := by
  by_cases held : s.read.containsUid x = true
  · have deepest : l ≤ Lod.l2 := by cases l <;> decide
    apply ((s.dragged_sublist deepest).map _).length_le.trans
    apply List.le_sum_of_mem
    exact List.mem_map.mpr ⟨x, (s.units.mem_keys_iff x).mpr held, rfl⟩
  · rw [obliges, draggedIn, if_neg held]
    exact Nat.zero_le _

/-- What is required is the least selection that meets an obligation and what
its units oblige. -/
theorem required_settled (uid : Uid) (l : Lod) :
    Obligations.Settled (s.obliges support) ∅ [(uid, l)] (s.requiredVia uid l support) := by
  have settled := search_settled (@obliges_mono _ s support)
    (s.obliges_bounded (uid, l)) s.obliges_narrow (@List.mem_cons_self _ (uid, l) _)
  rw [List.length_cons, List.length_map] at settled
  exact settled

theorem required_self (uid : Uid) (l : Lod) :
    (l : WithBot Lod) ≤ level (s.requiredVia uid l support) uid :=
  (s.required_settled uid l).met (uid, l) (List.mem_singleton.mpr rfl)

/-- A unit is required as asked, or at the lowest level. -/
theorem required_levels {uid x : Uid} {l k : Lod}
    (held : level (s.requiredVia uid l support) x = (k : WithBot Lod)) :
    (x = uid ∧ k = l) ∨ (k = .l0 ∧ s.read.containsUid x = true) := by
  rcases (s.required_settled uid l).told x k held with none' | start | ⟨y, j, obliged⟩
  · rw [level_empty] at none'
    exact absurd none' WithBot.bot_ne_coe
  · injection List.mem_singleton.mp start with here at'
    exact Or.inl ⟨here, at'⟩
  · obtain ⟨u, dragged, same⟩ := List.mem_map.mp obliged
    injection same with here low
    rw [← here]
    exact Or.inr ⟨low.symm, s.dragged_present dragged⟩

/-- A closure has the closure of everything in it. -/
theorem required_again {uid y : Uid} {l k : Lod}
    (held : level (s.requiredVia uid l support) y = (k : WithBot Lod)) (x : Uid) :
    level (s.requiredVia y k support) x ≤ level (s.requiredVia uid l support) x := by
  apply (s.required_settled y k).within _ (s.required_settled uid l).meets
  · intro z
    rw [level_empty]
    exact bot_le
  · intro o mem
    rw [List.mem_singleton.mp mem, held]

end
end Store

theorem get_of_level {S T : Selection} {u : Uid} (same : level S u = level T u) :
    S.get u = T.get u := by
  rw [level, level] at same
  cases left : S.get u with
  | none =>
    cases right : T.get u with
    | none => rfl
    | some l =>
      rw [left, right] at same
      exact absurd same WithBot.bot_ne_coe
  | some k =>
    cases right : T.get u with
    | none =>
      rw [left, right] at same
      exact absurd same.symm WithBot.bot_ne_coe
    | some l =>
      rw [left, right] at same
      rw [WithBot.coe_inj.mp same]

theorem selection_ext {S T : Selection} (same : ∀ u, level S u = level T u) : S = T :=
  BTreeMap.ext_get fun u => get_of_level (same u)

namespace PackProblem

theorem raise_le (S : Selection) (e : Uid × Lod) (x : Uid) (b : WithBot Lod) :
    level (raise S e) x ≤ b ↔ level S x ≤ b ∧ (e.1 = x → (e.2 : WithBot Lod) ≤ b) := by
  have raised : level (raise S e) x = if x = e.1 then max (level S x) e.2 else level S x := by
    rw [raise]
    by_cases here : x = e.1
    · rw [if_pos here, here]
      cases held : S.get e.1 with
      | none =>
        dsimp only
        rw [level_insert, if_pos rfl, level, held]
        exact (max_eq_right bot_le).symm
      | some k =>
        have at' : level S e.1 = (k : WithBot Lod) := level_get.mpr held
        dsimp only
        split
        · rename_i met
          rw [at', max_eq_left (WithBot.coe_le_coe.mpr met)]
        · rename_i lower
          rw [level_insert, if_pos rfl, at',
            max_eq_right (WithBot.coe_le_coe.mpr (le_of_not_ge lower))]
    · rw [if_neg here]
      cases held : S.get e.1 with
      | none =>
        dsimp only
        rw [level_insert, if_neg here]
      | some k =>
        dsimp only
        split
        · rfl
        · rw [level_insert, if_neg here]
  rw [raised]
  by_cases here : x = e.1
  · rw [if_pos here, max_le_iff]
    constructor
    · intro both
      exact ⟨both.1, fun _ => both.2⟩
    · intro both
      exact ⟨both.1, both.2 here.symm⟩
  · rw [if_neg here]
    constructor
    · intro below
      exact ⟨below, fun same => absurd same.symm here⟩
    · intro both
      exact both.1

theorem raise_all_le (es : List (Uid × Lod)) (S : Selection) (x : Uid) (b : WithBot Lod) :
    level (es.foldl raise S) x ≤ b ↔
      level S x ≤ b ∧ ∀ e ∈ es, e.1 = x → (e.2 : WithBot Lod) ≤ b := by
  induction es generalizing S with
  | nil => simp
  | cons e es ih => rw [List.foldl_cons, ih, raise_le, List.forall_mem_cons, and_assoc]

/-- What a selection is united with a closure to. -/
theorem union_level (S need : Selection) (x : Uid) :
    level (need.entries.foldl raise S) x = level S x ⊔ level need x := by
  apply eq_of_forall_ge_iff
  intro b
  rw [raise_all_le, sup_le_iff]
  apply and_congr_right
  intro _
  constructor
  · intro all
    cases held : need.get x with
    | none =>
      rw [level, held]
      exact bot_le
    | some l =>
      rw [level_get.mpr held]
      exact all (x, l) ((BTreeMap.mem_entries_iff _ _ _).mpr held) rfl
  · intro below e mem here
    have held := (BTreeMap.mem_entries_iff need e.1 e.2).mp mem
    rw [here] at held
    rw [level_get.mpr held] at below
    exact below

/-- A level in a union of closures is one of what was united. -/
theorem union_all_level {A : Type} (need : A → Selection) (as : List A) (S : Selection) {x : Uid}
    {l : Lod} (held : level (as.foldl (fun S a => (need a).entries.foldl raise S) S) x =
      (l : WithBot Lod)) :
    level S x = (l : WithBot Lod) ∨ ∃ a ∈ as, level (need a) x = (l : WithBot Lod) := by
  induction as generalizing S with
  | nil => exact Or.inl held
  | cons a as ih =>
    rcases ih _ held with base | ⟨b, mem, here⟩
    · rw [union_level] at base
      rcases max_choice (level S x) (level (need a) x) with same | same
      · exact Or.inl (same.symm.trans base)
      · exact Or.inr ⟨a, List.mem_cons_self, same.symm.trans base⟩
    · exact Or.inr ⟨b, List.mem_cons_of_mem a mem, here⟩

/-- And each of what was united is within the union. -/
theorem union_all_above {A : Type} (need : A → Selection) (as : List A) (S : Selection)
    (x : Uid) : level S x ≤ level (as.foldl (fun S a => (need a).entries.foldl raise S) S) x ∧
      ∀ a ∈ as, level (need a) x ≤
        level (as.foldl (fun S a => (need a).entries.foldl raise S) S) x := by
  induction as generalizing S with
  | nil => exact ⟨le_refl _, fun a mem => (nomatch mem)⟩
  | cons b as ih =>
    obtain ⟨base, rest⟩ := ih ((need b).entries.foldl raise S)
    rw [union_level] at base
    refine ⟨le_sup_left.trans base, fun a mem => ?_⟩
    rcases List.mem_cons.mp mem with here | mem
    · rw [here]
      exact le_sup_right.trans base
    · exact rest a mem

/-- Adding the shortfall is adding the whole obligation. -/
theorem shortfall_level (need S : Selection) (x : Uid) :
    level ((Store.keepShortfall need S).entries.foldl raise S) x = level S x ⊔ level need x := by
  apply eq_of_forall_ge_iff
  intro b
  rw [raise_all_le, sup_le_iff]
  apply and_congr_right
  intro below
  constructor
  · intro all
    cases held : need.get x with
    | none =>
      rw [level, held]
      exact bot_le
    | some k =>
      rw [level_get.mpr held]
      by_cases met : (k : WithBot Lod) ≤ level S x
      · exact met.trans below
      · apply all (x, k) _ rfl
        apply List.mem_filter.mpr
        refine ⟨(BTreeMap.mem_entries_iff _ _ _).mpr held, ?_⟩
        dsimp only
        split
        · rename_i existing here
          rw [level_get.mpr here, not_le] at met
          exact decide_eq_true (WithBot.coe_lt_coe.mp met)
        · rfl
  · intro below' e mem here
    obtain ⟨entry, _⟩ := List.mem_filter.mp mem
    have held := (BTreeMap.mem_entries_iff need e.1 e.2).mp entry
    rw [here] at held
    rw [level_get.mpr held] at below'
    exact below'

theorem taken_level [Blake3] (s : Store) (S : Selection) (u : Uid) (l : Lod) (x : Uid) :
    level ((s.delta S u l).entries.foldl raise S) x = level S x ⊔ level (s.required u l) x :=
  shortfall_level (s.required u l) S x

section
variable (salience : Salience) (s : Store) (e : CostModel)

/-- What a unit of a selection is worth. -/
def worthAt (S : Selection) (u : Uid) : ℚ :=
  match S.get u with
  | none => 0
  | some l => value (salience.of u) l

/-- What a unit of a selection costs. -/
def costAt (S : Selection) (u : Uid) : Nat :=
  match S.get u with
  | none => 0
  | some l =>
    match s.units.get u with
    | none => 0
    | some held => e.unit held.core l

theorem sum_entries {M : Type} [AddCommMonoid M] (S : Selection) (f : Uid → M)
    {U : Finset Uid} (inside : ∀ u ∈ S.keys, u ∈ U) (outside : ∀ u, u ∉ S.keys → f u = 0) :
    (S.entries.map (fun x => f x.1)).sum = ∑ u ∈ U, f u := by
  have keys : S.keys.toFinset ⊆ U := by
    intro u mem
    exact inside u (List.mem_toFinset.mp mem)
  rw [← Finset.sum_subset keys fun u _ absent =>
    outside u fun mem => absent (List.mem_toFinset.mpr mem), List.sum_toFinset f S.keys_nodup,
    BTreeMap.keys, List.map_map]
  rfl

theorem not_key {S : Selection} {u : Uid} (absent : u ∉ S.keys) : S.get u = none := by
  rw [S.mem_keys_iff, BTreeMap.contains] at absent
  exact Option.not_isSome_iff_eq_none.mp absent

/-- A selection's value is the sum of what its units are worth. -/
theorem achieved_sum (S : Selection) {U : Finset Uid} (inside : ∀ u ∈ S.keys, u ∈ U) :
    achieved S salience = ∑ u ∈ U, worthAt salience S u := by
  rw [← sum_entries S (worthAt salience S) inside fun u absent => by
    rw [worthAt, not_key absent], achieved]
  apply congrArg
  apply List.map_congr_left
  intro x mem
  rw [worthAt, (BTreeMap.mem_entries_iff S x.1 x.2).mp mem]

/-- And its cost what they cost. -/
theorem cost_sum (S : Selection) {U : Finset Uid} (inside : ∀ u ∈ S.keys, u ∈ U) :
    costOf s S e = ∑ u ∈ U, costAt s e S u := by
  have listed : ∀ es : List (Uid × Lod), (es.filterMap (fun x =>
      (s.units.get x.1).map (fun held => e.unit held.core x.2))).sum =
      (es.map (fun x => match s.units.get x.1 with
        | none => 0
        | some held => e.unit held.core x.2)).sum := by
    intro es
    induction es with
    | nil => rfl
    | cons x es ih =>
      rw [List.filterMap_cons, List.map_cons, List.sum_cons, ← ih]
      cases s.units.get x.1 with
      | none => exact (Nat.zero_add _).symm
      | some held => exact List.sum_cons
  rw [← sum_entries S (costAt s e S) inside fun u absent => by
    rw [costAt, not_key absent], costOf, listed]
  apply congrArg
  apply List.map_congr_left
  intro x mem
  rw [costAt, (BTreeMap.mem_entries_iff S x.1 x.2).mp mem]

theorem value_mono (q : ℚ≥0) {l k : Lod} (le : l ≤ k) : value q l ≤ value q k := by
  have gains : l.gain ≤ k.gain := by
    cases l <;> cases k <;> first | exact absurd le (by decide) | norm_num [Lod.gain]
  exact mul_le_mul_of_nonneg_left gains q.2

theorem value_nonneg (q : ℚ≥0) (l : Lod) : 0 ≤ value q l := by
  apply mul_nonneg q.2
  cases l <;> norm_num [Lod.gain]

theorem value_strict {q : ℚ≥0} (pos : 0 < q) {l k : Lod} (less : l < k) :
    value q l < value q k := by
  have gains : l.gain < k.gain := by
    cases l <;> cases k <;> first | exact absurd less (by decide) | norm_num [Lod.gain]
  exact mul_lt_mul_of_pos_left gains (by exact_mod_cast pos)

theorem value_pos {q : ℚ≥0} (pos : 0 < q) (l : Lod) : 0 < value q l := by
  apply mul_pos (by exact_mod_cast pos)
  cases l <;> norm_num [Lod.gain]

theorem worth_mono {S T : Selection} {u : Uid} (le : level S u ≤ level T u) :
    worthAt salience S u ≤ worthAt salience T u := by
  rw [worthAt, worthAt]
  cases low : S.get u with
  | none =>
    cases T.get u with
    | none => exact le_refl _
    | some k => exact value_nonneg _ k
  | some l =>
    rw [level_get.mpr low] at le
    cases high : T.get u with
    | none =>
      rw [show level T u = ⊥ by rw [level, high]] at le
      exact absurd le (not_le.mpr (WithBot.bot_lt_coe l))
    | some k =>
      rw [level_get.mpr high] at le
      exact value_mono _ (WithBot.coe_le_coe.mp le)

theorem cost_mono {S T : Selection} {u : Uid} (le : level S u ≤ level T u) :
    costAt s e S u ≤ costAt s e T u := by
  rw [costAt, costAt]
  cases low : S.get u with
  | none => exact Nat.zero_le _
  | some l =>
    rw [level_get.mpr low] at le
    cases high : T.get u with
    | none =>
      rw [show level T u = ⊥ by rw [level, high]] at le
      exact absurd le (not_le.mpr (WithBot.bot_lt_coe l))
    | some k =>
      rw [level_get.mpr high] at le
      cases s.units.get u with
      | none => exact le_refl _
      | some held => exact e.unit_mono held.core (WithBot.coe_le_coe.mp le)

/-- A smaller selection costs less. -/
theorem cost_of_mono {S T : Selection} (le : ∀ u, level S u ≤ level T u) :
    costOf s S e ≤ costOf s T e := by
  rw [@cost_sum s e S (S.keys ++ T.keys).toFinset (fun u mem =>
      List.mem_toFinset.mpr (List.mem_append_left _ mem)),
    @cost_sum s e T (S.keys ++ T.keys).toFinset (fun u mem =>
      List.mem_toFinset.mpr (List.mem_append_right _ mem))]
  exact Finset.sum_le_sum fun u _ => cost_mono s e (le u)

end

theorem le_fold_max {α M : Type} [LinearOrder M] (f : α → M) (xs : List α) (m : M) :
    m ≤ xs.foldl (fun d x => max d (f x)) m ∧
      ∀ x ∈ xs, f x ≤ xs.foldl (fun d x => max d (f x)) m := by
  induction xs generalizing m with
  | nil => exact ⟨le_refl _, fun _ mem => nomatch mem⟩
  | cons x xs ih =>
    obtain ⟨start, each⟩ := ih (max m (f x))
    rw [List.foldl_cons]
    refine ⟨(le_max_left _ _).trans start, fun y mem => ?_⟩
    rcases List.mem_cons.mp mem with here | mem
    · rw [here]
      exact (le_max_right _ _).trans start
    · exact each y mem

section
variable (p : PackProblem)

theorem mem_capped (core : UnitCore) (l : Lod) :
    l ∈ p.cappedLevels core ↔ l ∈ (availableLevels core).map p.cap := by
  rw [cappedLevels, BTreeSet.mem_toList, BTreeSet.mem_ofList]

/-- A relaxed item costs something, and its density is not negative. -/
theorem relaxed_item_priced {S : Selection} {u : Uid} {i : Item}
    (found : p.relaxedItem S u = some i) : 0 < i.cost ∧ 0 ≤ i.density := by
  rw [relaxedItem] at found
  split at found
  · cases found
  · dsimp only at found
    split at found
    · cases found
    · split at found
      · cases found
      · rename_i real
        rw [not_or, not_le] at real
        obtain ⟨paid, dense⟩ := real
        cases found
        refine ⟨Nat.pos_of_ne_zero paid, ?_⟩
        rw [Item.density]
        apply div_nonneg (mul_nonneg (Nat.cast_nonneg _) (le_of_lt dense)) (Nat.cast_nonneg _)

/-- The item of a unit takes in each of the unit's upgrades. -/
theorem relaxed_item_covers {S : Selection} {u : Uid} {unit : HeldUnit}
    (held : p.store.units.get u = some unit) {c : Nat} {v : ℚ}
    (mem : (c, v) ∈ p.upgrades unit.core (S.get u) (p.salience.of u)) :
    ∃ i, p.relaxedItem S u = some i ∧ c ≤ i.cost ∧ v ≤ i.density * c := by
  obtain ⟨listed, both⟩ := List.mem_filter.mp mem
  rw [Bool.and_eq_true, decide_eq_true_eq, decide_eq_true_eq] at both
  obtain ⟨paid, worth⟩ := both
  have capacity := (le_fold_max (fun x : Nat × ℚ => x.1)
    (p.upgrades unit.core (S.get u) (p.salience.of u)) 0).2 (c, v) mem
  have best := (le_fold_max (fun x : Nat × ℚ => x.2 / (x.1 : ℚ))
    (p.upgrades unit.core (S.get u) (p.salience.of u)) 0).2 (c, v) mem
  have paid' : (0 : ℚ) < c := by exact_mod_cast paid
  have dense : 0 < v / (c : ℚ) := div_pos worth paid'
  have filled : (p.upgrades unit.core (S.get u) (p.salience.of u)).isEmpty = false := by
    apply List.isEmpty_eq_false_iff.mpr
    intro none'
    rw [none'] at mem
    cases mem
  rw [relaxedItem, held]
  dsimp only
  generalize p.upgrades unit.core (S.get u) (p.salience.of u) = ups at *
  rw [filled, if_neg (by simp)]
  generalize ups.foldl (fun c x => max c x.1) 0 = total at *
  generalize ups.foldl (fun d x => max d (x.2 / (x.1 : ℚ))) 0 = density at *
  dsimp only at capacity best
  have some' : 0 < total := lt_of_lt_of_le paid capacity
  have some'' : (0 : ℚ) < total := by exact_mod_cast some'
  rw [if_neg (by
    rw [not_or, not_le]
    exact ⟨some'.ne', lt_of_lt_of_le dense best⟩)]
  refine ⟨_, rfl, capacity, ?_⟩
  rw [Item.density]
  have whole : (total : ℚ) * density / total = density := by
    rw [mul_comm, mul_div_assoc, div_self some''.ne', mul_one]
  rw [whole]
  exact (div_le_iff₀ paid').mp best

/-- What raising a unit adds to a selection is one of its upgrades, where it
costs something and the unit is worth something. -/
theorem upgrade_listed {S T : Selection} {u : Uid} {unit : HeldUnit}
    (held : p.store.units.get u = some unit) {l : Lod} (at' : level T u = (l : WithBot Lod))
    (capped : l ∈ p.cappedLevels unit.core) (lower : level S u < level T u)
    (salient : 0 < p.salience.of u)
    (paid : costAt p.store p.costs S u < costAt p.store p.costs T u) :
    (costAt p.store p.costs T u - costAt p.store p.costs S u,
      worthAt p.salience T u - worthAt p.salience S u) ∈
        p.upgrades unit.core (S.get u) (p.salience.of u) := by
  have got := level_get.mp at'
  rw [mem_capped] at capped
  rw [at'] at lower
  rw [costAt, costAt, got, held] at paid ⊢
  rw [worthAt, worthAt, got]
  rw [upgrades]
  apply List.mem_filter.mpr
  cases low : S.get u with
  | none =>
    rw [low] at paid
    dsimp only at paid ⊢
    refine ⟨List.mem_map.mpr ⟨l, List.mem_filter.mpr ⟨capped, rfl⟩, rfl⟩, ?_⟩
    rw [Bool.and_eq_true, decide_eq_true_eq, decide_eq_true_eq, sub_zero]
    exact ⟨by omega, value_pos salient l⟩
  | some h =>
    rw [low] at paid
    dsimp only at paid ⊢
    rw [level_get.mpr low] at lower
    have less := WithBot.coe_lt_coe.mp lower
    refine ⟨List.mem_map.mpr ⟨l, List.mem_filter.mpr ⟨capped, decide_eq_true less⟩, rfl⟩, ?_⟩
    rw [Bool.and_eq_true, decide_eq_true_eq, decide_eq_true_eq]
    exact ⟨by omega, sub_pos.mpr (value_strict salient less)⟩

/-- What a unit costs more in `T`, when it is worth anything. -/
def spendOn (S T : Selection) (u : Uid) : Nat :=
  if p.salience.of u = 0 then 0
  else costAt p.store p.costs T u - costAt p.store p.costs S u

/-- What is spent on the items of the units still to be decided: on each unit
once, however often it is listed. -/
def spending (S T : Selection) : List Uid → Spending
  | [] => []
  | u :: rest =>
    match p.relaxedItem S u with
    | none => spending S T rest
    | some i => (i, if u ∈ rest then 0 else p.spendOn S T u) :: spending S T rest

theorem spending_items (S T : Selection) (xs : List Uid) :
    (p.spending S T xs).map Prod.fst = xs.filterMap (p.relaxedItem S) := by
  induction xs with
  | nil => rfl
  | cons u rest ih =>
    rw [spending, List.filterMap_cons]
    cases p.relaxedItem S u with
    | none => exact ih
    | some i => exact congrArg (i :: ·) ih

/-- A unit is within its item: it spends no more than the item's cost, and gains
no more than the item's density for what it spends. -/
def WithinItem (S T : Selection) (u : Uid) : Prop :=
  worthAt p.salience T u - worthAt p.salience S u = 0 ∧ p.spendOn S T u = 0 ∨
    ∃ i, p.relaxedItem S u = some i ∧ p.spendOn S T u ≤ i.cost ∧
      worthAt p.salience T u - worthAt p.salience S u ≤ i.density * p.spendOn S T u

theorem spending_within {S T : Selection} {xs : List Uid} (each : ∀ u ∈ xs, p.WithinItem S T u) :
    ∀ e ∈ p.spending S T xs, e.2 ≤ e.1.cost := by
  induction xs with
  | nil =>
    intro e mem
    cases mem
  | cons u rest ih =>
    have later := ih fun v mem => each v (List.mem_cons_of_mem u mem)
    rw [spending]
    cases found : p.relaxedItem S u with
    | none => exact later
    | some i =>
      intro e mem
      rcases List.mem_cons.mp mem with here | mem
      · rw [here]
        dsimp only
        split
        · exact Nat.zero_le _
        · rcases each u List.mem_cons_self with ⟨_, nothing⟩ | ⟨j, found', little, _⟩
          · rw [nothing]
            exact Nat.zero_le _
          · rw [found] at found'
            cases found'
            exact little
      · exact later e mem

theorem spent_le (S T : Selection) (xs : List Uid) :
    spent (p.spending S T xs) ≤ ∑ u ∈ xs.toFinset, p.spendOn S T u := by
  induction xs with
  | nil => exact le_refl _
  | cons u rest ih =>
    have grown : ∑ v ∈ rest.toFinset, p.spendOn S T v ≤
        ∑ v ∈ (u :: rest).toFinset, p.spendOn S T v := by
      apply Finset.sum_le_sum_of_subset
      rw [List.toFinset_cons]
      exact Finset.subset_insert _ _
    rw [spending]
    cases p.relaxedItem S u with
    | none => exact ih.trans grown
    | some i =>
      rw [spent, List.map_cons, List.sum_cons]
      rw [spent] at ih
      by_cases again : u ∈ rest
      · rw [if_pos again, Nat.zero_add]
        exact ih.trans grown
      · rw [if_neg again, List.toFinset_cons,
          Finset.sum_insert fun mem => again (List.mem_toFinset.mp mem)]
        exact Nat.add_le_add_left ih _

theorem gain_le {S T : Selection} {xs : List Uid} (each : ∀ u ∈ xs, p.WithinItem S T u) :
    ∑ u ∈ xs.toFinset, (worthAt p.salience T u - worthAt p.salience S u) ≤
      worth (p.spending S T xs) := by
  induction xs with
  | nil => exact le_refl _
  | cons u rest ih =>
    have later := ih fun v mem => each v (List.mem_cons_of_mem u mem)
    rw [spending, List.toFinset_cons]
    by_cases again : u ∈ rest
    · rw [Finset.insert_eq_of_mem (List.mem_toFinset.mpr again)]
      cases p.relaxedItem S u with
      | none => exact later
      | some i =>
        rw [worth, List.map_cons, List.sum_cons, if_pos again, Nat.cast_zero, mul_zero, zero_add]
        exact later
    · rw [Finset.sum_insert fun mem => again (List.mem_toFinset.mp mem)]
      cases found : p.relaxedItem S u with
      | none =>
        rcases each u List.mem_cons_self with ⟨nothing, _⟩ | ⟨j, found', _⟩
        · rw [nothing, zero_add]
          exact later
        · rw [found] at found'
          cases found'
      | some i =>
        rw [worth, List.map_cons, List.sum_cons, if_neg again]
        apply add_le_add _ later
        rcases each u List.mem_cons_self with ⟨nothing, free⟩ | ⟨j, found', _, gained⟩
        · rw [nothing, free, Nat.cast_zero, mul_zero]
        · rw [found] at found'
          cases found'
          exact gained

/-- The relaxation bounds every completion that spends what is left. -/
theorem gain_le_fractional {S T : Selection} {xs : List Uid}
    (each : ∀ u ∈ xs, p.WithinItem S T u) {remaining : Nat}
    (enough : ∑ u ∈ xs.toFinset, p.spendOn S T u ≤ remaining) :
    ∑ u ∈ xs.toFinset, (worthAt p.salience T u - worthAt p.salience S u) ≤
      p.fractional S xs remaining := by
  have gained := p.gain_le each
  have priced : Priced ((p.spending S T xs).map Prod.fst) := by
    rw [spending_items]
    intro i mem
    obtain ⟨u, _, found⟩ := List.mem_filterMap.mp mem
    exact p.relaxed_item_priced found
  have little := (p.spent_le S T xs).trans enough
  have bound := worth_le_relaxed priced (p.spending_within each) little
  rw [spending_items] at bound
  rw [fractional]
  split
  · rename_i nothing
    rw [nothing, relaxed, fill_zero] at bound
    exact gained.trans bound
  · exact gained.trans bound

end
end PackProblem
end Smysl
