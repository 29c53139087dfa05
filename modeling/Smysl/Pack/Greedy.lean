import Mathlib.Tactic.Linarith
import Smysl.Pack.Bound
import Smysl.Pack.Solve

/-!
What the greedy keeps from round to round: what it has spent is the cost of what
it holds, and every choice that stands in the order is priced against what is
held now, unless a unit of its closure has moved since. And a round satisfies a
candidate that was not satisfied, so the rounds end.
-/
namespace Smysl
open Obligations

namespace PackProblem

theorem shortfall_get {need S : Selection} {u : Uid} {l : Lod} :
    (Store.keepShortfall need S).get u = some l ↔
      need.get u = some l ∧ level S u < (l : WithBot Lod) := by
  rw [← BTreeMap.mem_entries_iff, Store.keepShortfall, BTreeMap.filter, List.mem_filter,
    BTreeMap.mem_entries_iff]
  apply and_congr_right
  intro _
  dsimp only
  cases held : S.get u with
  | none =>
    rw [level, held]
    simp
  | some k =>
    rw [level_get.mpr held]
    simp

section
variable [Blake3] (p : PackProblem) (support : EdgeSet) (candidates : List (Uid × Lod))

/-- What one unit of a shortfall costs. -/
def shortfallAt (selected : Selection) (e : Uid × Lod) : Nat :=
  match p.store.units.get e.1 with
  | none => 0
  | some unit =>
    match selected.get e.1 with
    | some held => p.costs.upgrade unit.core held e.2
    | none => p.costs.unit unit.core e.2

omit [Blake3] in
theorem weigh_sum (selected d : Selection) :
    (p.weigh selected d).1 = (d.entries.map (p.shortfallAt selected)).sum := by
  have general : ∀ (es : List (Uid × Lod)) (acc : Nat × ℚ), (es.foldl (fun acc e =>
      match p.store.units.get e.1 with
      | none => acc
      | some unit =>
        let s := p.salience.of e.1
        match selected.get e.1 with
        | some held =>
          (acc.1 + p.costs.upgrade unit.core held e.2, acc.2 + (value s e.2 - value s held))
        | none => (acc.1 + p.costs.unit unit.core e.2, acc.2 + (value s e.2 - 0))) acc).1 =
      acc.1 + (es.map (p.shortfallAt selected)).sum := by
    intro es
    induction es with
    | nil =>
      intro acc
      exact (Nat.add_zero _).symm
    | cons e es ih =>
      intro acc
      rw [List.foldl_cons, ih, List.map_cons, List.sum_cons, ← Nat.add_assoc, shortfallAt]
      cases p.store.units.get e.1 with
      | none => rfl
      | some unit =>
        dsimp only
        cases selected.get e.1 with
        | none => rfl
        | some held => rfl
  have whole := general d.entries (0, 0)
  rw [Nat.zero_add] at whole
  exact whole

omit [Blake3] in
/-- Raising a selection to what it falls short of costs what that is weighed at. -/
theorem shortfall_cost (need S : Selection) :
    costOf p.store ((Store.keepShortfall need S).entries.foldl raise S) p.costs =
      costOf p.store S p.costs + (p.weigh S (Store.keepShortfall need S)).1 := by
  let d := Store.keepShortfall need S
  let T := d.entries.foldl raise S
  let added : Uid → Nat := fun u => (d.get u).elim 0 fun l => p.shortfallAt S (u, l)
  let U : Finset Uid := (S.keys ++ T.keys ++ d.keys).toFinset
  have inS : ∀ u ∈ S.keys, u ∈ U := by
    intro u mem
    simp [U, mem]
  have inT : ∀ u ∈ T.keys, u ∈ U := by
    intro u mem
    simp [U, mem]
  have inD : ∀ u ∈ d.keys, u ∈ U := by
    intro u mem
    simp [U, mem]
  have total : (p.weigh S d).1 = ∑ u ∈ U, added u := by
    rw [weigh_sum, ← sum_entries d added inD fun u absent => by
      dsimp only [added]
      rw [not_key absent, Option.elim_none]]
    apply congrArg
    apply List.map_congr_left
    intro e mem
    dsimp only [added]
    rw [(BTreeMap.mem_entries_iff d e.1 e.2).mp mem, Option.elim_some]
  have each : ∀ u, costAt p.store p.costs T u = costAt p.store p.costs S u + added u := by
    intro u
    have raised : level T u = level S u ⊔ level need u := shortfall_level need S u
    dsimp only [added]
    cases short : d.get u with
    | none =>
      have same : level T u = level S u := by
        rw [raised]
        apply sup_eq_left.mpr
        cases held : need.get u with
        | none =>
          rw [level, held]
          exact bot_le
        | some l =>
          rw [level_get.mpr held]
          by_contra more
          have missing := shortfall_get.mpr ⟨held, not_le.mp more⟩
          rw [short] at missing
          cases missing
      rw [costAt, costAt, get_of_level same]
      exact (Nat.add_zero _).symm
    | some l =>
      obtain ⟨held, lower⟩ := shortfall_get.mp short
      have taken : T.get u = some l := by
        apply level_get.mp
        rw [raised, level_get.mpr held]
        exact sup_eq_right.mpr (le_of_lt lower)
      rw [costAt, costAt, taken, Option.elim_some]
      dsimp only [shortfallAt]
      cases p.store.units.get u with
      | none => cases S.get u <;> rfl
      | some unit =>
        dsimp only
        cases low : S.get u with
        | none => exact (Nat.zero_add _).symm
        | some k =>
          rw [level_get.mpr low] at lower
          have more := p.costs.unit_mono unit.core (le_of_lt (WithBot.coe_lt_coe.mp lower))
          dsimp only [CostModel.upgrade]
          omega
  calc costOf p.store T p.costs = ∑ u ∈ U, costAt p.store p.costs T u :=
        cost_sum p.store p.costs T inT
    _ = ∑ u ∈ U, (costAt p.store p.costs S u + added u) :=
        Finset.sum_congr rfl fun u _ => each u
    _ = costOf p.store S p.costs + (p.weigh S d).1 := by
        rw [Finset.sum_add_distrib, ← cost_sum p.store p.costs S inS, ← total]

/-- What taking a candidate costs is what it is priced at. -/
theorem price_cost (S : Selection) (uid : Uid) (l : Lod) :
    costOf p.store ((p.store.deltaVia S uid l support).entries.foldl raise S) p.costs =
      costOf p.store S p.costs + (p.price support S uid l).1 := by
  rw [Store.deltaVia, shortfall_cost, price, Store.deltaVia]
  split
  · rename_i nothing
    rw [weigh, List.isEmpty_iff.mp nothing]
    rfl
  · rfl

/-- A price depends on what is held only through the closure. -/
theorem price_congr {S T : Selection} {uid : Uid} {l : Lod}
    (same : ∀ x, (p.store.requiredVia uid l support).contains x = true → T.get x = S.get x) :
    p.price support T uid l = p.price support S uid l := by
  have entry : ∀ e ∈ (p.store.requiredVia uid l support).entries, T.get e.1 = S.get e.1 := by
    intro e mem
    apply same
    exact (BTreeMap.contains_iff _ _).mpr ⟨e.2, (BTreeMap.mem_entries_iff _ _ _).mp mem⟩
  have short : p.store.deltaVia T uid l support = p.store.deltaVia S uid l support := by
    apply BTreeMap.ext_get
    intro x
    apply Option.ext
    intro k
    rw [Store.deltaVia, Store.deltaVia, shortfall_get, shortfall_get]
    apply and_congr_right
    intro held
    rw [level, level, same x ((BTreeMap.contains_iff _ _).mpr ⟨k, held⟩)]
  rw [price, price, short]
  split
  · rfl
  · rw [weigh, weigh]
    apply List.foldl_ext
    intro acc e mem
    obtain ⟨listed, _⟩ := List.mem_filter.mp mem
    rw [entry e listed]

/-- A candidate is priced as it stands, and not satisfied. -/
def Priced (st : Greedy) (i : Nat) : Prop :=
  ∃ uid l, candidates[i]? = some (uid, l) ∧
    st.weighed i = some (p.price support st.selection uid l) ∧
    level st.selection uid < (l : WithBot Lod)

/-- What the greedy keeps; what is dirty is to be priced again. -/
structure Solvent (st : Greedy) (dirty : List Nat) : Prop where
  spent : st.used = costOf p.store st.selection p.costs
  within : st.used ≤ p.budget
  placed : ∀ c ∈ st.ready, st.placed c.index = some c
  priced : ∀ c ∈ st.ready, c.index ∉ dirty → p.Priced support candidates st c.index

variable {p support candidates} {st : Greedy} {dirty : List Nat} {i : Nat}

omit [Blake3] in
theorem unplace_frame (i : Nat) (st : Greedy) : (unplace i st).selection = st.selection ∧
    (unplace i st).used = st.used ∧ (unplace i st).weighed = st.weighed := by
  rw [unplace]
  split
  · exact ⟨rfl, rfl, rfl⟩
  · exact ⟨rfl, rfl, rfl⟩

theorem unplace_solvent (solvent : p.Solvent support candidates st (i :: dirty)) :
    p.Solvent support candidates (unplace i st) dirty ∧
      ∀ c ∈ (unplace i st).ready, c.index ≠ i := by
  have others : ∀ c ∈ st.ready, c.index ≠ i → c.index ∉ dirty →
      p.Priced support candidates st c.index := by
    intro c mem apart clean
    apply solvent.priced c mem
    intro listed
    rcases List.mem_cons.mp listed with here | listed
    · exact apart here
    · exact clean listed
  cases at' : st.placed i with
  | none =>
    have apart : ∀ c ∈ st.ready, c.index ≠ i := by
      intro c mem here
      have stands := solvent.placed c mem
      rw [here, at'] at stands
      cases stands
    rw [unplace, at']
    exact ⟨⟨solvent.spent, solvent.within, solvent.placed,
      fun c mem clean => others c mem (apart c mem) clean⟩, apart⟩
  | some old =>
    have apart : ∀ c ∈ st.ready.remove old, c.index ≠ i := by
      intro c mem here
      obtain ⟨held, new⟩ := (BTreeSet.mem_remove _ _ _).mp mem
      have stands := solvent.placed c held
      rw [here, at'] at stands
      exact new (Option.some.inj stands).symm
    rw [unplace, at']
    refine ⟨⟨solvent.spent, solvent.within, fun c mem => ?_, fun c mem clean => ?_⟩, apart⟩
    · dsimp only
      rw [Function.update_of_ne (apart c mem)]
      exact solvent.placed c ((BTreeSet.mem_remove _ _ _).mp mem).1
    · exact others c ((BTreeSet.mem_remove _ _ _).mp mem).1 (apart c mem) clean

variable (p support candidates) in
theorem reprice_frame (st : Greedy) (i : Nat) :
    (p.reprice support candidates st i).selection = st.selection ∧
      (p.reprice support candidates st i).used = st.used := by
  obtain ⟨selection, used, _⟩ := unplace_frame i st
  rw [reprice]
  dsimp only
  split
  · exact ⟨selection, used⟩
  · split
    · exact ⟨selection, used⟩
    · split
      · exact ⟨selection, used⟩
      · split
        · exact ⟨selection, used⟩
        · exact ⟨selection, used⟩

theorem reprice_solvent (solvent : p.Solvent support candidates st (i :: dirty)) :
    p.Solvent support candidates (p.reprice support candidates st i) dirty := by
  obtain ⟨unplaced, apart⟩ := unplace_solvent solvent
  rw [reprice]
  generalize unplace i st = st at unplaced apart
  dsimp only
  cases found : candidates[i]? with
  | none => exact unplaced
  | some candidate =>
    obtain ⟨uid, l⟩ := candidate
    dsimp only
    split
    · exact unplaced
    · rename_i unmet
      have lower : level st.selection uid < (l : WithBot Lod) := by
        cases held : st.selection.get uid with
        | none =>
          rw [level, held]
          exact WithBot.bot_lt_coe l
        | some k =>
          rw [held] at unmet
          rw [level_get.mpr held]
          apply WithBot.coe_lt_coe.mpr
          by_contra met
          exact unmet (decide_eq_true (not_lt.mp met))
      -- what is not this candidate is priced as it was
      have rest : ∀ c ∈ st.ready, c.index ∉ dirty → ∀ w,
          p.Priced support candidates
            { st with weighed := Function.update st.weighed i w } c.index := by
        intro c mem clean w
        obtain ⟨uid', l', listed, weighed, lower'⟩ := unplaced.priced c mem clean
        refine ⟨uid', l', listed, ?_, lower'⟩
        dsimp only
        rw [Function.update_of_ne (apart c mem)]
        exact weighed
      split
      · exact ⟨unplaced.spent, unplaced.within, unplaced.placed,
          fun c mem clean => rest c mem clean _⟩
      · split
        · exact ⟨unplaced.spent, unplaced.within, unplaced.placed,
            fun c mem clean => rest c mem clean _⟩
        · refine ⟨unplaced.spent, unplaced.within, fun c mem => ?_, fun c mem clean => ?_⟩
          · rcases (BTreeSet.mem_insert _ _ _).mp mem with here | mem
            · rw [here]
              exact Function.update_self _ _ _
            · dsimp only
              rw [Function.update_of_ne (apart c mem)]
              exact unplaced.placed c mem
          · rcases (BTreeSet.mem_insert _ _ _).mp mem with here | mem
            · rw [here]
              exact ⟨uid, l, found, Function.update_self _ _ _, lower⟩
            · exact rest c mem clean _

theorem reprice_all_solvent (solvent : p.Solvent support candidates st dirty) :
    p.Solvent support candidates (dirty.foldl (p.reprice support candidates) st) [] ∧
      (dirty.foldl (p.reprice support candidates) st).selection = st.selection ∧
      (dirty.foldl (p.reprice support candidates) st).used = st.used := by
  induction dirty generalizing st with
  | nil => exact ⟨solvent, rfl, rfl⟩
  | cons i dirty ih =>
    rw [List.foldl_cons]
    obtain ⟨later, selection, used⟩ := ih (reprice_solvent solvent)
    obtain ⟨selection', used'⟩ := p.reprice_frame support candidates st i
    exact ⟨later, selection.trans selection', used.trans used'⟩

/-- The order holds no choice twice, so what is popped leaves the rest in place. -/
theorem pop_solvent {c : Choice} (mem : c ∈ st.ready)
    (solvent : p.Solvent support candidates st dirty) :
    p.Solvent support candidates { st with
      placed := Function.update st.placed c.index none, ready := st.ready.remove c } dirty where
  spent := solvent.spent
  within := solvent.within
  placed k held := by
    obtain ⟨stays, apart⟩ := (BTreeSet.mem_remove _ _ _).mp held
    have elsewhere : k.index ≠ c.index := by
      intro here
      have stands := solvent.placed k stays
      rw [here, solvent.placed c mem] at stands
      exact apart (Option.some.inj stands).symm
    dsimp only
    rw [Function.update_of_ne elsewhere]
    exact solvent.placed k stays
  priced k held clean := solvent.priced k ((BTreeSet.mem_remove _ _ _).mp held).1 clean

/-- What is chosen is a candidate that is not satisfied, at its price, and
affordable. -/
theorem pop_best_solvent {cs : List Choice} (nodup : cs.Nodup) (held : ∀ c ∈ cs, c ∈ st.ready)
    (solvent : p.Solvent support candidates st []) :
    p.Solvent support candidates (p.popBest candidates cs st).2 [] ∧
      (p.popBest candidates cs st).2.selection = st.selection ∧
      ∀ uid l dc, (p.popBest candidates cs st).1 = some (uid, l, dc) → (uid, l) ∈ candidates ∧
        level st.selection uid < (l : WithBot Lod) ∧
        dc = (p.price support st.selection uid l).1 ∧
        (p.popBest candidates cs st).2.used + dc ≤ p.budget := by
  induction cs generalizing st with
  | nil =>
    refine ⟨solvent, rfl, fun uid l dc chosen => ?_⟩
    cases chosen
  | cons c cs ih =>
    obtain ⟨fresh, nodup⟩ := List.nodup_cons.mp nodup
    have here := held c List.mem_cons_self
    have popped := pop_solvent here solvent
    obtain ⟨uid, l, found, weighed, lower⟩ := solvent.priced c here List.not_mem_nil
    rw [popBest]
    dsimp only
    rw [found, weighed]
    dsimp only
    split
    · apply ih nodup _ popped
      intro k mem
      apply (BTreeSet.mem_remove _ _ _).mpr
      exact ⟨held k (List.mem_cons_of_mem _ mem), fun same => fresh (same ▸ mem)⟩
    · rename_i affordable
      refine ⟨popped, rfl, fun uid' l' dc chosen => ?_⟩
      cases chosen
      exact ⟨List.mem_of_getElem? found, lower, rfl, not_lt.mp affordable⟩

variable (p support candidates) in
/-- Raising what was chosen: what it changes, it tells. -/
theorem accept_all (uid : Uid) (l : Lod) (es : List (Uid × Lod)) (state : Greedy × List Nat) :
    let out := es.foldl (p.acceptOne support candidates uid l) state
    out.1.selection = es.foldl raise state.1.selection ∧ out.1.used = state.1.used ∧
      out.1.placed = state.1.placed ∧ out.1.ready = state.1.ready ∧
      (∀ i, i ∉ out.2 → i ∉ state.2 ∧ out.1.weighed i = state.1.weighed i) ∧
      ∀ x, out.1.selection.get x ≠ state.1.selection.get x →
        ∀ i ∈ p.affected support candidates x, i ∈ out.2 := by
  induction es generalizing state with
  | nil => exact ⟨rfl, rfl, rfl, rfl, fun i clean => ⟨clean, rfl⟩, fun x moved => absurd rfl moved⟩
  | cons e es ih =>
    obtain ⟨selection, used, placed, ready, weighed, moved⟩ :=
      ih (p.acceptOne support candidates uid l state e)
    dsimp only at selection used placed ready weighed moved ⊢
    rw [List.foldl_cons, List.foldl_cons]
    refine ⟨selection, used, placed, ready, fun i clean => ?_, fun x changed i hit => ?_⟩
    · obtain ⟨before, same⟩ := weighed i clean
      rw [acceptOne] at before
      obtain ⟨old, missed⟩ := not_or.mp (mt List.mem_append.mpr before)
      refine ⟨old, same.trans ?_⟩
      rw [acceptOne]
      exact if_neg missed
    · by_cases later : ((p.acceptOne support candidates uid l state e).1).selection.get x =
          state.1.selection.get x
      · rw [← later] at changed
        exact moved x changed i hit
      · -- this entry moved the unit
        by_contra clean
        have before := (weighed i clean).1
        rw [acceptOne] at before later
        dsimp only at before later
        have here : e.1 = x ∧ (state.1.selection.get e.1).all (fun held => decide (held < e.2)) =
            true := by
          rw [raise] at later
          cases at' : state.1.selection.get e.1 with
          | none =>
            rw [at'] at later
            dsimp only at later
            rw [BTreeMap.get_insert] at later
            split at later
            · rename_i same
              exact ⟨same.symm, rfl⟩
            · exact absurd rfl later
          | some k =>
            rw [at'] at later
            dsimp only at later
            split at later
            · exact absurd rfl later
            · rename_i lower
              rw [BTreeMap.get_insert] at later
              split at later
              · rename_i same
                exact ⟨same.symm, decide_eq_true (not_le.mp lower)⟩
              · exact absurd rfl later
        apply before
        apply List.mem_append_right
        rw [if_pos here.2, here.1]
        exact hit

theorem mem_affected {i : Nat} {uid x : Uid} {l : Lod} (found : candidates[i]? = some (uid, l))
    (needed : (p.store.requiredVia uid l support).contains x = true) :
    i ∈ p.affected support candidates x := by
  obtain ⟨inside, _⟩ := List.getElem?_eq_some_iff.mp found
  apply List.mem_filter.mpr
  refine ⟨List.mem_range.mpr inside, ?_⟩
  rw [found]
  exact needed

/-- What a unit requires holds the unit itself. -/
theorem required_own (uid : Uid) (l : Lod) :
    (p.store.requiredVia uid l support).contains uid = true := by
  have asked := @Store.required_self _ p.store support uid l
  rw [BTreeMap.contains]
  cases held : (p.store.requiredVia uid l support).get uid with
  | none =>
    rw [level, held] at asked
    exact absurd asked (not_le.mpr (WithBot.bot_lt_coe l))
  | some k => rfl

/-- Accepting a candidate at its price. -/
theorem accept_solvent {uid : Uid} {l : Lod} {dc : Nat}
    (cost : dc = (p.price support st.selection uid l).1) (affordable : st.used + dc ≤ p.budget)
    (solvent : p.Solvent support candidates st []) :
    p.Solvent support candidates (p.accept support candidates uid l dc st).1
      (p.accept support candidates uid l dc st).2 := by
  obtain ⟨selection, used, placed, ready, weighed, moved⟩ := p.accept_all support candidates uid l
    (p.store.deltaVia st.selection uid l support).entries (st, [])
  dsimp only at selection used placed ready weighed moved
  constructor
  · rw [accept]
    dsimp only
    rw [used, selection, price_cost, solvent.spent, cost]
  · rw [accept]
    dsimp only
    rw [used]
    exact affordable
  · rw [accept]
    dsimp only
    rw [placed, ready]
    exact solvent.placed
  · rw [accept]
    dsimp only
    rw [ready]
    intro c mem clean
    obtain ⟨uid', l', found, current, lower⟩ := solvent.priced c mem List.not_mem_nil
    have same : ∀ x, (p.store.requiredVia uid' l' support).contains x = true →
        ((p.store.deltaVia st.selection uid l support).entries.foldl
          (p.acceptOne support candidates uid l) (st, [])).1.selection.get x =
          st.selection.get x := by
      intro x needed
      by_contra changed
      exact clean (moved x changed c.index (mem_affected found needed))
    refine ⟨uid', l', found, ?_, ?_⟩
    · dsimp only
      rw [(weighed c.index clean).2, current, p.price_congr support same]
    · dsimp only
      rw [level, same uid' (required_own uid' l')]
      exact lower

/-- What the greedy has spent is what its selection costs, and within budget. -/
theorem rounds_solvent (fuel : Nat) (solvent : p.Solvent support candidates st dirty) :
    (p.rounds support candidates fuel dirty st).used =
        costOf p.store (p.rounds support candidates fuel dirty st).selection p.costs ∧
      (p.rounds support candidates fuel dirty st).used ≤ p.budget := by
  induction fuel generalizing st dirty with
  | zero => exact ⟨solvent.spent, solvent.within⟩
  | succ fuel ih =>
    obtain ⟨priced, _, _⟩ := reprice_all_solvent solvent
    rw [rounds]
    generalize dirty.foldl (p.reprice support candidates) st = st at priced
    dsimp only
    obtain ⟨popped, selection, chosen⟩ := pop_best_solvent
      (List.nodup_reverse.mpr st.ready.toList_nodup)
      (fun c mem => (BTreeSet.mem_toList _ _).mp (List.mem_reverse.mp mem)) priced
    split
    · rename_i result
      rw [result] at popped
      exact ⟨popped.spent, popped.within⟩
    · rename_i uid l dc st' result
      rw [result] at popped selection chosen
      obtain ⟨_, _, cost, affordable⟩ := chosen uid l dc rfl
      apply ih
      apply accept_solvent _ affordable popped
      rw [selection]
      exact cost

variable (p support candidates) in
/-- Accepting a candidate raises the selection by what it falls short of. -/
theorem accept_selection (uid : Uid) (l : Lod) (dc : Nat) (st : Greedy) :
    (p.accept support candidates uid l dc st).1.selection =
      (p.store.deltaVia st.selection uid l support).entries.foldl raise st.selection :=
  (p.accept_all support candidates uid l
    (p.store.deltaVia st.selection uid l support).entries (st, [])).1

theorem accepted_level (S : Selection) (uid : Uid) (l : Lod) (x : Uid) :
    level ((p.store.deltaVia S uid l support).entries.foldl raise S) x =
      level S x ⊔ level (p.store.requiredVia uid l support) x :=
  shortfall_level (p.store.requiredVia uid l support) S x

variable (p support) in
/-- A round satisfies a candidate that was not satisfied. -/
theorem accept_falls {S : Selection} {uid : Uid} {l : Lod} (mem : (uid, l) ∈ candidates)
    (lower : level S uid < (l : WithBot Lod)) :
    unmet candidates ((p.store.deltaVia S uid l support).entries.foldl raise S) <
      unmet candidates S := by
  apply unmet_falls mem lower
  · intro x
    rw [accepted_level]
    exact le_sup_left
  · rw [accepted_level]
    exact (p.store.required_self uid l).trans le_sup_right

/-- More rounds than there are candidates to satisfy change nothing. -/
theorem rounds_end {fuel : Nat} (solvent : p.Solvent support candidates st dirty)
    (enough : unmet candidates st.selection < fuel) (extra : Nat) :
    p.rounds support candidates (fuel + extra) dirty st =
      p.rounds support candidates fuel dirty st := by
  induction fuel generalizing st dirty with
  | zero => omega
  | succ fuel ih =>
    obtain ⟨priced, same, _⟩ := reprice_all_solvent solvent
    rw [← same] at enough
    rw [Nat.add_right_comm, rounds, rounds]
    generalize dirty.foldl (p.reprice support candidates) st = st at priced enough
    dsimp only
    obtain ⟨popped, selection, chosen⟩ := pop_best_solvent
      (List.nodup_reverse.mpr st.ready.toList_nodup)
      (fun c mem => (BTreeSet.mem_toList _ _).mp (List.mem_reverse.mp mem)) priced
    split
    · rfl
    · rename_i uid l dc st' result
      rw [result] at popped selection chosen
      obtain ⟨mem, lower, cost, affordable⟩ := chosen uid l dc rfl
      apply ih
      · apply accept_solvent _ affordable popped
        rw [selection]
        exact cost
      · rw [accept_selection, selection]
        have less := p.accept_falls support mem lower
        omega

/-- The greedy ends where no candidate is left to choose. -/
theorem greedy_ends {selection : Selection} {used : Nat} (why : BTreeMap Uid Reason)
    (spent : used = costOf p.store selection p.costs) (within : used ≤ p.budget) (extra : Nat) :
    p.rounds support candidates (candidates.length + 1 + extra) (List.range candidates.length)
      ⟨selection, used, why, fun _ => none, fun _ => none, ∅⟩ =
      p.greedy support candidates selection used why := by
  apply rounds_end
  · exact ⟨spent, within, fun c mem => absurd mem (BTreeSet.not_mem_emptyCollection c),
      fun c mem => absurd mem (BTreeSet.not_mem_emptyCollection c)⟩
  · have few : unmet candidates selection ≤ candidates.length := List.length_filter_le _ _
    dsimp only
    omega

/-- What the greedy has spent is what its selection costs, and within budget. -/
theorem greedy_solvent {selection : Selection} {used : Nat} (why : BTreeMap Uid Reason)
    (spent : used = costOf p.store selection p.costs) (within : used ≤ p.budget) :
    (p.greedy support candidates selection used why).used =
        costOf p.store (p.greedy support candidates selection used why).selection p.costs ∧
      (p.greedy support candidates selection used why).used ≤ p.budget := by
  apply rounds_solvent
  exact ⟨spent, within, fun c mem => absurd mem (BTreeSet.not_mem_emptyCollection c),
    fun c mem => absurd mem (BTreeSet.not_mem_emptyCollection c)⟩

variable (p support candidates) in
theorem reprice_all_frame (dirty : List Nat) (st : Greedy) :
    (dirty.foldl (p.reprice support candidates) st).selection = st.selection := by
  induction dirty generalizing st with
  | nil => rfl
  | cons i dirty ih => exact (ih _).trans (p.reprice_frame support candidates st i).1

variable (p candidates) in
omit [Blake3] in
theorem pop_best_frame (cs : List Choice) (st : Greedy) :
    (p.popBest candidates cs st).2.selection = st.selection ∧
      ∀ uid l dc, (p.popBest candidates cs st).1 = some (uid, l, dc) → (uid, l) ∈ candidates := by
  induction cs generalizing st with
  | nil =>
    refine ⟨rfl, fun uid l dc chosen => ?_⟩
    cases chosen
  | cons c cs ih =>
    rw [popBest]
    dsimp only
    split
    · rename_i found _
      split
      · exact ih _
      · refine ⟨rfl, fun uid' l' dc chosen => ?_⟩
        cases chosen
        exact List.mem_of_getElem? found
    · refine ⟨rfl, fun uid' l' dc chosen => ?_⟩
      cases chosen

/-- The greedy maintains of its selection whatever accepting a candidate does. -/
theorem greedy_maintains {P : Selection → Prop}
    (step : ∀ S uid l, (uid, l) ∈ candidates → P S →
      P ((p.store.deltaVia S uid l support).entries.foldl raise S))
    {selection : Selection} (used : Nat) (why : BTreeMap Uid Reason) (held : P selection) :
    P (p.greedy support candidates selection used why).selection := by
  have general : ∀ (fuel : Nat) (dirty : List Nat) (st : Greedy), P st.selection →
      P (p.rounds support candidates fuel dirty st).selection := by
    intro fuel
    induction fuel with
    | zero =>
      intro dirty st held
      exact held
    | succ fuel ih =>
      intro dirty st held
      rw [rounds]
      rw [← p.reprice_all_frame support candidates dirty st] at held
      generalize dirty.foldl (p.reprice support candidates) st = st at held
      dsimp only
      obtain ⟨selection, chosen⟩ := p.pop_best_frame candidates
        st.ready.toList.reverse st
      rw [← selection] at held
      split
      · rename_i result
        rw [result] at held
        exact held
      · rename_i uid l dc st' result
        rw [result] at held chosen
        apply ih
        rw [accept_selection]
        exact step _ uid l (chosen uid l dc rfl) held
  exact general _ _ _ held

/-- Where every candidate is satisfied there is nothing to choose. -/
theorem greedy_idle {selection : Selection}
    (met : ∀ c ∈ candidates, (c.2 : WithBot Lod) ≤ level selection c.1) (used : Nat)
    (why : BTreeMap Uid Reason) :
    (p.greedy support candidates selection used why).selection = selection ∧
      (p.greedy support candidates selection used why).used = used := by
  let st : Greedy := ⟨selection, used, why, fun _ => none, fun _ => none, ∅⟩
  have still : ∀ i, p.reprice support candidates st i = st := by
    intro i
    rw [reprice]
    dsimp only [unplace, st]
    split
    · rfl
    · rename_i uid l found
      have satisfied := met _ (List.mem_of_getElem? found)
      have held : (selection.get uid).any (fun k => decide (l ≤ k)) = true := by
        cases at' : selection.get uid with
        | none =>
          rw [level, at'] at satisfied
          exact absurd satisfied (not_le.mpr (WithBot.bot_lt_coe l))
        | some k =>
          rw [level_get.mpr at'] at satisfied
          exact decide_eq_true (WithBot.coe_le_coe.mp satisfied)
      exact if_pos held
  have all : ∀ dirty : List Nat, dirty.foldl (p.reprice support candidates) st = st := by
    intro dirty
    induction dirty with
    | nil => rfl
    | cons i dirty ih => rw [List.foldl_cons, still, ih]
  rw [greedy, rounds, all]
  exact ⟨rfl, rfl⟩

end
end PackProblem
end Smysl
