import Smysl.Pack.Greedy
import Smysl.Pack.Optimal

/-!
What a pack says it has used. It is what its selection costs, unless the whole
scope was taken because it fits: then the closures of the focus units may bring
in units from outside the scope, which are packed and not counted.
-/
namespace Smysl
open Obligations PackProblem

theorem UnitCore.max_lod_available (core : UnitCore) : core.maxLod ∈ availableLevels core := by
  rw [UnitCore.maxLod, availableLevels]
  by_cases detail : core.detail.isSome = true
  · rw [if_pos detail, if_pos detail]
    simp
  · rw [if_neg detail, if_neg detail]
    by_cases body : core.body.isSome = true
    · rw [if_pos body, if_pos body]
      simp
    · rw [if_neg body, if_neg body]
      exact List.mem_cons_self

/-- A gist costs the same at every level. -/
theorem CostModel.unit_gist (e : CostModel) (core : UnitCore) (bare : core.maxLod = .l0)
    (l k : Lod) : e.unit core l = e.unit core k := by
  rw [UnitCore.maxLod] at bare
  split at bare
  · cases bare
  · rename_i detail
    split at bare
    · cases bare
    · rename_i body
      rw [CostModel.unit, CostModel.unit, Option.not_isSome_iff_eq_none.mp body,
        Option.not_isSome_iff_eq_none.mp detail]
      simp

namespace PackProblem
section
variable [Blake3] (p : PackProblem) (scope : List Uid) {floor : Selection}

/-- What the exact search says it has used is what its result costs; and that is
a selection it may choose, or what it was given. -/
theorem solve_result (affordable : costOf p.store floor p.costs ≤ p.budget)
    (incumbent : Selection) :
    (p.solve scope floor incumbent).used =
        costOf p.store (p.solve scope floor incumbent).selection p.costs ∧
      (p.Admissible scope floor (p.solve scope floor incumbent).selection ∨
        (p.solve scope floor incumbent).selection = incumbent) := by
  let Spent : Exact → Prop := fun e => e.used = costOf p.store e.selection p.costs ∧
    (p.Admissible scope floor e.selection ∨ e.selection = incumbent)
  have visits : ∀ S st, p.Admissible scope floor S → Spent st.best →
      Spent (p.visit S (costOf p.store S p.costs) st).best := by
    intro S st admissible held
    rcases p.visit_cases S (costOf p.store S p.costs) st with ⟨_, same⟩ | same
    · rw [same]
      exact held
    · rw [same]
      exact ⟨rfl, Or.inl admissible⟩
  have kept : p.Maintains scope floor Spent (p.descend scope) :=
    descend_maintains visits fun _ mem => mem
  exact kept floor ⟨⟨incumbent, costOf p.store incumbent p.costs, achieved incumbent p.salience, 0,
    false⟩, 0⟩ ⟨⟨[], fun _ mem => (nomatch mem), rfl⟩, affordable⟩ ⟨rfl, Or.inr rfl⟩

/-- The search returns what it was given where nothing it may choose is better. -/
theorem solve_keeps (affordable : costOf p.store floor p.costs ≤ p.budget) {incumbent : Selection}
    (best : ∀ S, p.Admissible scope floor S →
      achieved S p.salience ≤ achieved incumbent p.salience) :
    (p.solve scope floor incumbent).selection = incumbent := by
  let Kept : Exact → Prop := fun e =>
    e.selection = incumbent ∧ e.value = achieved incumbent p.salience
  have visits : ∀ S st, p.Admissible scope floor S → Kept st.best →
      Kept (p.visit S (costOf p.store S p.costs) st).best := by
    intro S st admissible held
    have no : ¬ st.best.value < achieved S p.salience := by
      rw [held.2]
      exact not_lt.mpr (best S admissible)
    rw [visit]
    dsimp only
    rw [if_neg no]
    exact held
  have kept : p.Maintains scope floor Kept (p.descend scope) :=
    descend_maintains visits fun _ mem => mem
  exact (kept floor ⟨⟨incumbent, costOf p.store incumbent p.costs,
    achieved incumbent p.salience, 0, false⟩, 0⟩
    ⟨⟨[], fun _ mem => absurd mem List.not_mem_nil, rfl⟩, affordable⟩ ⟨rfl, rfl⟩).1

omit [Blake3] in
theorem achieved_mono (salience : Salience) {S T : Selection}
    (below : ∀ u, salience.of u = 0 ∨ level S u ≤ level T u) :
    achieved S salience ≤ achieved T salience := by
  let U : Finset Uid := (S.keys ++ T.keys).toFinset
  have inS : ∀ u ∈ S.keys, u ∈ U := by
    intro u mem
    simp [U, mem]
  have inT : ∀ u ∈ T.keys, u ∈ U := by
    intro u mem
    simp [U, mem]
  rw [achieved_sum salience S inS, achieved_sum salience T inT]
  apply Finset.sum_le_sum
  intro u _
  rw [worthAt, worthAt]
  rcases below u with worthless | le
  · cases S.get u <;> cases T.get u <;> simp [value, worthless]
  · cases low : S.get u with
    | none =>
      cases T.get u with
      | none => exact le_refl _
      | some k => exact value_nonneg _ k
    | some l =>
      rw [level_get.mpr low] at le
      cases high : T.get u with
      | none =>
        rw [level, high] at le
        exact absurd le (not_le.mpr (WithBot.bot_lt_coe l))
      | some k =>
        rw [level_get.mpr high] at le
        exact value_mono _ (WithBot.coe_le_coe.mp le)

end
end PackProblem

namespace PackRequest
section
variable [Blake3] {req : PackRequest} {s : Store}

omit [Blake3] in
theorem within_pairwise (req : PackRequest) (s : Store) : (req.within s).Pairwise (· < ·) := by
  rw [within]
  split
  · exact s.units.keys_pairwise
  · exact req.scope.toList_pairwise.filter _

omit [Blake3] in
theorem within_present {u : Uid} (mem : u ∈ req.within s) : s.read.containsUid u = true := by
  rw [within] at mem
  split at mem
  · exact (s.units.mem_keys_iff u).mp mem
  · exact (List.mem_filter.mp mem).2

omit [Blake3] in
theorem at_top_iff {u : Uid} {e : Uid × Lod} : req.atTop s u = some e ↔
    e.1 = u ∧ ∃ unit, s.units.get u = some unit ∧
      ((availableLevels unit.core).map req.cap).max? = some e.2 := by
  rw [atTop]
  cases s.units.get u with
  | none => simp
  | some unit =>
    simp only [Option.map_eq_some_iff, Option.some.injEq, exists_eq_left']
    constructor
    · intro ⟨top, most, same⟩
      rw [← same]
      exact ⟨rfl, most⟩
    · intro ⟨here, most⟩
      exact ⟨e.2, most, Prod.ext here.symm rfl⟩

omit [Blake3] in
/-- A unit in scope is taken whole at its top level. -/
theorem everything_get {u : Uid} {top : Lod} : (req.everything s).get u = some top ↔
    u ∈ req.within s ∧ ∃ unit, s.units.get u = some unit ∧
      ((availableLevels unit.core).map req.cap).max? = some top := by
  have ascending : OrdMap.Ascending ((req.within s).filterMap (req.atTop s)) := by
    rw [OrdMap.Ascending, List.pairwise_filterMap]
    apply (within_pairwise req s).imp
    intro v w less e found e' found'
    rw [(at_top_iff.mp found).1, (at_top_iff.mp found').1]
    exact less
  rw [everything, BTreeMap.get_ofList (OrdMap.ascending_keys_nodup ascending),
    OrdMap.lookup_iff_mem ascending, List.mem_filterMap]
  constructor
  · rintro ⟨v, mem, found⟩
    obtain ⟨here, most⟩ := at_top_iff.mp found
    dsimp only at here
    rw [here]
    exact ⟨mem, most⟩
  · rintro ⟨mem, most⟩
    exact ⟨u, mem, at_top_iff.mpr ⟨rfl, most⟩⟩

omit [Blake3] in
theorem everything_covers {u : Uid} {unit : _} {l : Lod} (mem : u ∈ req.within s)
    (found : s.units.get u = some unit) (authored : l ∈ availableLevels unit.core) :
    (req.cap l : WithBot Lod) ≤ level (req.everything s) u := by
  cases most : ((availableLevels unit.core).map req.cap).max? with
  | none =>
    rw [List.max?_eq_none_iff, List.map_eq_nil_iff] at most
    rw [most] at authored
    cases authored
  | some top =>
    rw [level_get.mpr (everything_get.mpr ⟨mem, unit, found, most⟩)]
    apply WithBot.coe_le_coe.mpr
    exact (List.max?_eq_some_iff.mp most).2 _ (List.mem_map_of_mem authored)

omit [Blake3] in
theorem everything_outside {u : Uid} (absent : u ∉ req.within s) :
    (req.everything s).get u = none := by
  cases held : (req.everything s).get u with
  | none => rfl
  | some top => exact absurd (everything_get.mp held).1 absent

omit [Blake3] in
theorem cap_lowest (req : PackRequest) : req.cap .l0 = .l0 := by
  rw [cap]
  cases req.maxLod with
  | none => rfl
  | some m => cases m <;> rfl

/-- A unit of the floor is a focus unit, at the level it is wanted at, or is
brought in at the lowest. -/
theorem floor_levels {u : Uid} {l : Lod} (held : level (req.floor s) u = (l : WithBot Lod)) :
    (u ∈ req.focus ∧ l = req.want s u) ∨ (l = .l0 ∧ s.read.containsUid u = true) := by
  rcases union_all_level (fun f => s.requiredVia f (req.want s f) req.support) req.focus.toList ∅
    held with none' | ⟨f, mem, here⟩
  · rw [level_empty] at none'
    exact absurd none' WithBot.bot_ne_coe
  · rcases s.required_levels here with ⟨same, wanted⟩ | low
    · rw [same]
      exact Or.inl ⟨(BTreeSet.mem_toList _ _).mp mem, wanted⟩
    · exact Or.inr low

/-- The whole scope over the floor. -/
def whole (req : PackRequest) (s : Store) : Selection :=
  (req.everything s).entries.foldl raise (req.floor s)

theorem whole_level (req : PackRequest) (s : Store) (u : Uid) :
    level (req.whole s) u = level (req.floor s) u ⊔ level (req.everything s) u :=
  union_level _ _ u

/-- What the closures of the focus units bring in from outside the scope. -/
def brought (req : PackRequest) (s : Store) : Selection :=
  (req.floor s).filter (fun u _ => !(req.within s).contains u)

theorem brought_get (u : Uid) : (req.brought s).get u =
    if u ∈ req.within s then none else (req.floor s).get u := by
  apply Option.ext
  intro l
  rw [← BTreeMap.mem_entries_iff, brought, BTreeMap.filter, List.mem_filter,
    BTreeMap.mem_entries_iff]
  by_cases mem : u ∈ req.within s
  · rw [if_pos mem]
    simp [mem]
  · rw [if_neg mem]
    simp [mem]

/-- In scope the floor costs nothing more. -/
theorem whole_costs_at {u : Uid} (mem : u ∈ req.within s) :
    costAt s req.costModel (req.whole s) u = costAt s req.costModel (req.everything s) u := by
  obtain ⟨unit, found⟩ : ∃ unit, s.units.get u = some unit :=
    (BTreeMap.contains_iff _ _).mp (within_present mem)
  have top := everything_covers mem found unit.core.max_lod_available
  have raised := whole_level req s u
  cases low : level (req.floor s) u with
  | bot =>
    rw [low, bot_sup_eq] at raised
    rw [costAt, costAt, get_of_level raised]
  | coe l =>
    rw [low] at raised
    by_cases under : (l : WithBot Lod) ≤ level (req.everything s) u
    · rw [sup_eq_right.mpr under] at raised
      rw [costAt, costAt, get_of_level raised]
    · have base := (everything_covers mem found (available_lowest unit.core))
      rcases floor_levels low with ⟨_, wanted⟩ | ⟨lowest, _⟩
      · -- only a gist is wanted above its top level
        have bare : unit.core.maxLod = .l0 := by
          by_contra deep
          apply under
          rw [wanted, want, Store.highestAvailable, found]
          have same : max unit.core.maxLod Lod.l1 = unit.core.maxLod := by
            apply max_eq_left
            cases level' : unit.core.maxLod with
            | l0 => exact absurd level' deep
            | l1 => decide
            | l2 => decide
          dsimp only [Option.map_some, Option.getD_some]
          rw [same]
          exact top
        cases full : (req.everything s).get u with
        | none =>
          rw [level, full] at base
          exact absurd base (not_le.mpr (WithBot.bot_lt_coe _))
        | some k =>
          rw [sup_eq_left.mpr (le_of_not_ge under)] at raised
          rw [costAt, costAt, level_get.mp raised, full, found]
          exact req.costModel.unit_gist unit.core bare l k
      · rw [cap_lowest] at base
        rw [lowest] at under
        exact absurd base under

/-- The whole costs what the scope costs and what is brought in. -/
theorem whole_cost (req : PackRequest) (s : Store) : costOf s (req.whole s) req.costModel =
    costOf s (req.everything s) req.costModel + costOf s (req.brought s) req.costModel := by
  let U : Finset Uid :=
    ((req.whole s).keys ++ (req.everything s).keys ++ (req.brought s).keys).toFinset
  have inW : ∀ u ∈ (req.whole s).keys, u ∈ U := by
    intro u mem
    simp [U, mem]
  have inE : ∀ u ∈ (req.everything s).keys, u ∈ U := by
    intro u mem
    simp [U, mem]
  have inB : ∀ u ∈ (req.brought s).keys, u ∈ U := by
    intro u mem
    simp [U, mem]
  rw [cost_sum s _ _ inW, cost_sum s _ _ inE, cost_sum s _ _ inB, ← Finset.sum_add_distrib]
  apply Finset.sum_congr rfl
  intro u _
  by_cases mem : u ∈ req.within s
  · have none' : costAt s req.costModel (req.brought s) u = 0 := by
      rw [costAt, brought_get, if_pos mem]
    rw [none', Nat.add_zero]
    exact whole_costs_at mem
  · have none' : costAt s req.costModel (req.everything s) u = 0 := by
      rw [costAt, everything_outside mem]
    have same : level (req.whole s) u = level (req.brought s) u := by
      rw [whole_level]
      have empty : level (req.everything s) u = ⊥ := by
        rw [level, everything_outside mem]
      rw [empty, sup_bot_eq, level, level, brought_get, if_neg mem]
    rw [none', Nat.zero_add, costAt, costAt, get_of_level same]

/-- The whole satisfies every candidate. -/
theorem whole_satisfies {c : Uid × Lod} (mem : c ∈ req.candidates s) :
    (c.2 : WithBot Lod) ≤ level (req.whole s) c.1 := by
  obtain ⟨u, inside, listed⟩ := List.mem_flatMap.mp mem
  split at listed
  · cases listed
  · rename_i unit found
    obtain ⟨l, authored, same⟩ := List.mem_map.mp listed
    rw [← same, whole_level]
    exact (everything_covers inside found authored).trans le_sup_right

omit [Blake3] in
theorem renormalise_outside (salience : Salience) {within : List Uid} {u : Uid}
    (absent : u ∉ within) : (salience.renormalise within).of u = 0 := by
  have missing : (salience.renormalise within).get u = none := by
    have general : ∀ (es : List (Uid × ℚ≥0)) (m : Salience), (∀ e ∈ es, e.1 ≠ u) →
        (es.foldl (fun m e => m.insert e.1 e.2) m).get u = m.get u := by
      intro es
      induction es with
      | nil =>
        intro m _
        rfl
      | cons e es ih =>
        intro m apart
        rw [List.foldl_cons, ih _ fun k mem => apart k (List.mem_cons_of_mem e mem),
          BTreeMap.get_insert, if_neg (apart e List.mem_cons_self).symm]
    rw [Salience.renormalise, BTreeMap.ofList, general]
    · rfl
    · intro e mem same
      obtain ⟨v, inside, here⟩ := List.mem_map.mp mem
      rw [← here] at same
      exact absent (same ▸ inside)
  rw [Salience.of, missing]
  rfl

/-- No selection the search may choose is worth more than the whole. -/
theorem whole_best (salience : Salience) {S : Selection}
    (admissible : (req.problem s salience).Admissible (req.within s) (req.floor s) S) :
    achieved S (req.problem s salience).salience ≤
      achieved (req.whole s) (req.problem s salience).salience := by
  apply achieved_mono
  intro u
  by_cases mem : u ∈ req.within s
  · apply Or.inr
    obtain ⟨⟨anchors, valid, same⟩, _⟩ := admissible
    rw [same, level_anchored, whole_level]
    refine ⟨le_sup_left, fun a listed => le_trans ?_ le_sup_right⟩
    cases required : level ((req.problem s salience).store.required a.1 a.2) u with
    | bot => exact bot_le
    | coe l =>
      rcases s.required_levels required with ⟨here, asked⟩ | ⟨low, _⟩
      · obtain ⟨inside, unit, found, capped⟩ := valid a listed
        obtain ⟨k, authored, top⟩ := List.mem_map.mp (((req.problem s salience).mem_capped _ _).mp
          capped)
        rw [asked, ← top, here]
        exact everything_covers inside found authored
      · obtain ⟨unit, found⟩ : ∃ unit, s.units.get u = some unit :=
          (BTreeMap.contains_iff _ _).mp (within_present mem)
        have base := everything_covers mem found (available_lowest unit.core)
        rw [cap_lowest] at base
        rw [low]
        exact base
  · exact Or.inl (renormalise_outside salience mem)

/-- What an answer is. -/
theorem pack_ok {branchAndBound : Bool} {salience : Salience} {pk : Pack}
    (ok : req.pack s branchAndBound salience = .ok pk) :
    (req.reserved = 0 ∨ req.reserved < req.budget) ∧
      (∀ f ∈ req.focus, s.read.containsUid f = true) ∧
      costOf s (req.floor s) req.costModel ≤ req.effectiveBudget ∧
      pk.info.reserved = req.reserved ∧ pk.info.budget = req.budget ∧
      ((req.searches s branchAndBound = true ∧
          pk.selection = ((req.problem s salience).solve (req.within s) (req.floor s)
            (req.solveGreedy s salience).selection).selection ∧
          pk.info.used = ((req.problem s salience).solve (req.within s) (req.floor s)
            (req.solveGreedy s salience).selection).used) ∨
        (req.searches s branchAndBound = false ∧
          pk.selection = (req.solveGreedy s salience).selection ∧
          pk.info.used = (req.solveGreedy s salience).used)) := by
  rw [pack] at ok
  split at ok
  · cases ok
  · rename_i spare
    split at ok
    · cases ok
    · rename_i present
      dsimp only at ok
      split at ok
      · cases ok
      · rename_i affordable
        refine ⟨?_, ?_, not_lt.mp affordable, ?_⟩
        · by_cases nothing : req.reserved = 0
          · exact Or.inl nothing
          · exact Or.inr (not_le.mp fun over' => spare ⟨nothing, over'⟩)
        · intro f mem
          have held := List.find?_eq_none.mp present f ((BTreeSet.mem_toList _ _).mpr mem)
          simpa using held
        · split at ok
          · rename_i searches
            cases ok
            exact ⟨rfl, rfl, Or.inl ⟨searches, rfl, rfl⟩⟩
          · rename_i still
            cases ok
            exact ⟨rfl, rfl, Or.inr ⟨eq_false_of_ne_true still, rfl, rfl⟩⟩

/-- Where the whole fits, it is what the greedy returns, at the cost of the
scope. -/
theorem solve_greedy_whole (salience : Salience) (fits : req.wholeFits s = true) :
    (req.solveGreedy s salience).selection = req.whole s ∧
      (req.solveGreedy s salience).used = costOf s (req.everything s) req.costModel := by
  rw [solveGreedy, start, if_pos fits]
  exact greedy_idle (fun c mem => whole_satisfies mem) _ _

/-- Where it does not, the greedy has spent what its selection costs. -/
theorem solve_greedy_spent (salience : Salience) (partly : ¬ req.wholeFits s = true)
    (affordable : costOf s (req.floor s) req.costModel ≤ req.effectiveBudget) :
    (req.solveGreedy s salience).used =
        costOf s (req.solveGreedy s salience).selection req.costModel ∧
      (req.solveGreedy s salience).used ≤ req.effectiveBudget := by
  rw [solveGreedy, start, if_neg partly]
  exact greedy_solvent _ rfl affordable

/-- Where the whole fits it is packed, and else what is used is what is packed. -/
theorem pack_spent {branchAndBound : Bool} {salience : Salience} {pk : Pack}
    (ok : req.pack s branchAndBound salience = .ok pk) :
    (req.wholeFits s = true → pk.selection = req.whole s ∧ pk.info.used =
      if req.searches s branchAndBound = true then costOf s (req.whole s) req.costModel
      else costOf s (req.everything s) req.costModel) ∧
    (¬ req.wholeFits s = true → pk.info.used = costOf s pk.selection req.costModel ∧
      pk.info.used ≤ req.effectiveBudget) := by
  obtain ⟨_, _, affordable, _, _, result⟩ := pack_ok ok
  constructor
  · intro fits
    obtain ⟨selected, spent⟩ := solve_greedy_whole salience fits
    rcases result with ⟨searches, selection, used⟩ | ⟨still, selection, used⟩
    · rw [selected] at selection used
      have kept := solve_keeps (req.problem s salience) (req.within s) affordable
        fun S admissible => whole_best salience admissible
      have exact' := (solve_result (req.problem s salience) (req.within s) affordable
        (req.whole s)).1
      rw [kept] at selection exact'
      rw [if_pos searches]
      exact ⟨selection, used.trans exact'⟩
    · rw [still, if_neg (by decide)]
      exact ⟨selection.trans selected, used.trans spent⟩
  · intro partly
    obtain ⟨spent, within⟩ := solve_greedy_spent salience partly affordable
    rcases result with ⟨_, selection, used⟩ | ⟨_, selection, used⟩
    · obtain ⟨cost, made⟩ := solve_result (req.problem s salience) (req.within s) affordable
        (req.solveGreedy s salience).selection
      rw [selection, used]
      refine ⟨cost, ?_⟩
      rw [cost]
      rcases made with admissible | same
      · exact admissible.2
      · rw [same]
        exact le_of_eq_of_le spent.symm within
    · rw [selection, used]
      exact ⟨spent, within⟩

end

section
local instance plainHonestText : Unicode := .plain
local instance modPrimeHonestHash : Blake3 := .modPrime

def leaned : UnitCore := bareClaim "b" present_b ∅

/-- A gist that rests on another unit. -/
def leaning : UnitCore := bareClaim "a" present_a (BTreeSet.ofList [canonicalUid leaned])

def leaningStore : Store := Store.fromRecords [.unit leaned, .unit leaning]

/-- The gist alone is asked for, and each text costs one. -/
def gistAlone (scope : List Uid) : PackRequest where
  budget := 10
  focus := BTreeSet.ofList [canonicalUid leaning]
  external := some fun _ => 1
  scope := BTreeSet.ofList scope

/-- An answer of which something holds. -/
theorem answer_of_check (req : PackRequest) (s : Store) (branchAndBound : Bool)
    (salience : Salience) (P : Pack → Prop) [DecidablePred P]
    (check : (match req.pack s branchAndBound salience with
      | .ok pk => decide (P pk)
      | .error _ => false) = true) : ∃ pk, req.pack s branchAndBound salience = .ok pk ∧ P pk := by
  split at check
  · rename_i pk found
    exact ⟨pk, found, of_decide_eq_true check⟩
  · cases check

end
end PackRequest
end Smysl
