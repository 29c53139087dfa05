import Mathlib.Data.List.MinMax
import Smysl.Pack.Greedy

/-!
The event-driven greedy makes the choices of the plain one, which prices every candidate in
every round. What is not dirty is priced as it would be now, and stands in the order if it
can be afforded; a price moves only with a unit of the closure.
-/
namespace Smysl
open Obligations

namespace PackProblem
section
variable [Blake3] (p : PackProblem) (support : EdgeSet) (candidates : List (Uid × Lod))

/-! The plain greedy. -/

/-- What a candidate costs and how it ranks against a selection; nothing when it is
satisfied or free. -/
def offer (selection : Selection) (i : Nat) : Option (Nat × Choice) :=
  candidates[i]?.bind (fun e =>
    if (selection.get e.1).any (fun l => decide (e.2 ≤ l)) then none
    else
      let w := p.price support selection e.1 e.2
      if w.1 = 0 then none
      else some (w.1, ⟨w.2 / (w.1 : ℚ), p.salience.of e.1, e.1, e.2, i⟩))

/-- Every candidate priced, and those that can be afforded. -/
def affordable (selection : Selection) (used : Nat) : List (Nat × Choice) :=
  ((List.range candidates.length).filterMap (p.offer support candidates selection)).filter
    (fun o => decide (used + o.1 ≤ p.budget))

/-- The picks of the plain greedy, and the selection and cost it ends at. -/
def plain : Nat → Selection → Nat → List (Uid × Lod) × Selection × Nat
  | 0, selection, used => ([], selection, used)
  | rounds + 1, selection, used =>
    match (p.affordable support candidates selection used).argmax Prod.snd with
    | none => ([], selection, used)
    | some (dc, c) =>
      let raised := (p.store.deltaVia selection c.uid c.level support).entries.foldl raise selection
      let rest := plain rounds raised (used + dc)
      ((c.uid, c.level) :: rest.1, rest.2)

/-- The picks of the event-driven greedy, round by round. -/
def picked : Nat → List Nat → Greedy → List (Uid × Lod)
  | 0, _, _ => []
  | fuel + 1, dirty, st =>
    let st := dirty.foldl (p.reprice support candidates) st
    match p.popBest candidates st.ready.toList.reverse st with
    | (none, _) => []
    | (some (uid, level, dc), st) =>
      let (st, dirty) := p.accept support candidates uid level dc st
      (uid, level) :: picked fuel dirty st

variable {p support candidates}

theorem offer_cases {S : Selection} {i dc : Nat} {c : Choice}
    (offered : p.offer support candidates S i = some (dc, c)) :
    candidates[i]? = some (c.uid, c.level) ∧ c.index = i ∧
      level S c.uid < (c.level : WithBot Lod) ∧ dc = (p.price support S c.uid c.level).1 := by
  rw [offer] at offered
  obtain ⟨e, found, offered⟩ := Option.bind_eq_some_iff.mp offered
  split_ifs at offered with met
  dsimp only at offered
  split_ifs at offered with free
  cases offered
  refine ⟨found, rfl, ?_, rfl⟩
  dsimp only
  cases held : S.get e.1 with
  | none =>
    rw [level, held]
    exact WithBot.bot_lt_coe e.2
  | some k =>
    rw [held] at met
    rw [level_get.mpr held]
    apply WithBot.coe_lt_coe.mpr
    by_contra more
    exact met (decide_eq_true (not_lt.mp more))

theorem offer_inside {S : Selection} {i dc : Nat} {c : Choice}
    (offered : p.offer support candidates S i = some (dc, c)) : i < candidates.length :=
  (List.getElem?_eq_some_iff.mp (offer_cases offered).1).1

theorem mem_affordable {S : Selection} {used dc : Nat} {c : Choice} :
    (dc, c) ∈ p.affordable support candidates S used ↔
      p.offer support candidates S c.index = some (dc, c) ∧ used + dc ≤ p.budget := by
  rw [affordable, List.mem_filter, List.mem_filterMap, decide_eq_true_eq]
  apply and_congr_left
  intro _
  constructor
  · intro found
    obtain ⟨i, _, offered⟩ := found
    rw [(offer_cases offered).2.1]
    exact offered
  · intro offered
    exact ⟨c.index, List.mem_range.mpr (offer_inside offered), offered⟩

/-- What ranks above all that can be afforded is what the plain greedy takes. -/
theorem greatest_affordable {S : Selection} {used dc : Nat} {c : Choice}
    (mem : (dc, c) ∈ p.affordable support candidates S used)
    (most : ∀ o ∈ p.affordable support candidates S used, o.2 ≤ c) :
    (p.affordable support candidates S used).argmax Prod.snd = some (dc, c) := by
  cases found : (p.affordable support candidates S used).argmax Prod.snd with
  | none =>
    rw [List.argmax_eq_none.mp found] at mem
    cases mem
  | some best =>
    obtain ⟨dc', c'⟩ := best
    have held := List.argmax_mem found
    have same : c' = c := le_antisymm (most _ held) (List.le_of_mem_argmax mem found)
    have first := (mem_affordable.mp held).1
    rw [same, (mem_affordable.mp mem).1] at first
    cases first
    rw [same]

/-- An offer depends on what is held only through the closure. -/
theorem offer_congr {S T : Selection} {i : Nat}
    (same : ∀ uid l, candidates[i]? = some (uid, l) →
      ∀ x, (p.store.requiredVia uid l support).contains x = true → T.get x = S.get x) :
    p.offer support candidates T i = p.offer support candidates S i := by
  rw [offer, offer]
  cases found : candidates[i]? with
  | none => rfl
  | some e =>
    obtain ⟨uid, l⟩ := e
    have here := same uid l found
    rw [Option.bind_some, Option.bind_some, here uid (required_own uid l),
      p.price_congr support here]

/-! What the rounds keep. -/

variable (p support candidates) in
/-- What is not dirty stands in the order as it is priced now, and everything that can be
afforded stands there. -/
structure Fresh (st : Greedy) (dirty : List Nat) : Prop where
  index : ∀ i c, st.placed i = some c → c.index = i
  placed : ∀ c ∈ st.ready, st.placed c.index = some c
  current : ∀ c ∈ st.ready, c.index ∉ dirty → ∃ w : Nat × ℚ,
    p.offer support candidates st.selection c.index = some (w.1, c) ∧
      st.weighed c.index = some w
  complete : ∀ i dc c, i ∉ dirty → p.offer support candidates st.selection i = some (dc, c) →
    st.used + dc ≤ p.budget → c ∈ st.ready

variable {st : Greedy} {dirty : List Nat} {i : Nat}

theorem unplace_fresh (fresh : p.Fresh support candidates st (i :: dirty)) :
    p.Fresh support candidates (unplace i st) (i :: dirty) ∧
      ∀ c ∈ (unplace i st).ready, c.index ≠ i := by
  cases at' : st.placed i with
  | none =>
    rw [unplace, at']
    refine ⟨fresh, ?_⟩
    intro c mem here
    have stands := fresh.placed c mem
    rw [here, at'] at stands
    cases stands
  | some old =>
    have apart : ∀ c ∈ st.ready.remove old, c.index ≠ i := by
      intro c mem here
      obtain ⟨held, new⟩ := (BTreeSet.mem_remove _ _ _).mp mem
      have stands := fresh.placed c held
      rw [here, at'] at stands
      exact new (Option.some.inj stands).symm
    rw [unplace, at']
    refine ⟨⟨?_, ?_, ?_, ?_⟩, apart⟩
    · intro j c stands
      dsimp only at stands
      by_cases here : j = i
      · rw [here, Function.update_self] at stands
        cases stands
      · rw [Function.update_of_ne here] at stands
        exact fresh.index j c stands
    · intro c mem
      dsimp only
      rw [Function.update_of_ne (apart c mem)]
      exact fresh.placed c ((BTreeSet.mem_remove _ _ _).mp mem).1
    · intro c mem clean
      exact fresh.current c ((BTreeSet.mem_remove _ _ _).mp mem).1 clean
    · intro j dc c clean offered afford
      apply (BTreeSet.mem_remove _ _ _).mpr
      refine ⟨fresh.complete j dc c clean offered afford, ?_⟩
      intro same
      apply clean
      rw [← (offer_cases offered).2.1, same, fresh.index i old at']
      exact List.mem_cons_self

/-- A candidate that is not to be placed is done with. -/
theorem skip_fresh (fresh : p.Fresh support candidates st (i :: dirty))
    (apart : ∀ c ∈ st.ready, c.index ≠ i) (weighed : Nat → Option (Nat × ℚ))
    (others : ∀ j, j ≠ i → weighed j = st.weighed j)
    (out : ∀ dc c, p.offer support candidates st.selection i = some (dc, c) →
      p.budget < st.used + dc) : p.Fresh support candidates { st with weighed } dirty where
  index := fresh.index
  placed := fresh.placed
  current c mem clean := by
    have away : c.index ∉ i :: dirty := by
      intro listed
      rcases List.mem_cons.mp listed with here | listed
      · exact apart c mem here
      · exact clean listed
    obtain ⟨w, offered, current⟩ := fresh.current c mem away
    refine ⟨w, offered, ?_⟩
    dsimp only
    rw [others _ (apart c mem)]
    exact current
  complete j dc c clean offered afford := by
    by_cases here : j = i
    · rw [here] at offered
      exact absurd afford (not_le.mpr (out dc c offered))
    · apply fresh.complete j dc c _ offered afford
      intro listed
      rcases List.mem_cons.mp listed with same | listed
      · exact here same
      · exact clean listed

theorem reprice_fresh (fresh : p.Fresh support candidates st (i :: dirty)) :
    p.Fresh support candidates (p.reprice support candidates st i) dirty := by
  obtain ⟨unplaced, apart⟩ := unplace_fresh fresh
  rw [reprice]
  generalize unplace i st = st at unplaced apart
  dsimp only
  have others : ∀ w, ∀ j, j ≠ i → Function.update st.weighed i w j = st.weighed j :=
    fun w j away => Function.update_of_ne away _ _
  cases found : candidates[i]? with
  | none =>
    apply skip_fresh unplaced apart st.weighed fun _ _ => rfl
    intro dc c offered
    rw [(offer_cases offered).1] at found
    cases found
  | some candidate =>
    obtain ⟨uid, l⟩ := candidate
    dsimp only
    have offers : p.offer support candidates st.selection i =
        if (st.selection.get uid).any (fun k => decide (l ≤ k)) then none
        else if (p.price support st.selection uid l).1 = 0 then none
        else some ((p.price support st.selection uid l).1,
          ⟨(p.price support st.selection uid l).2 / ((p.price support st.selection uid l).1 : ℚ),
            p.salience.of uid, uid, l, i⟩) := by
      rw [offer, found]
      rfl
    by_cases met : (st.selection.get uid).any (fun k => decide (l ≤ k)) = true
    · rw [if_pos met]
      rw [if_pos met] at offers
      apply skip_fresh unplaced apart st.weighed fun _ _ => rfl
      intro dc c offered
      rw [offers] at offered
      cases offered
    · rw [if_neg met]
      rw [if_neg met] at offers
      by_cases free : (p.price support st.selection uid l).1 = 0
      · rw [if_pos free]
        rw [if_pos free] at offers
        apply skip_fresh unplaced apart _ (others _)
        intro dc c offered
        rw [offers] at offered
        cases offered
      · rw [if_neg free]
        rw [if_neg free] at offers
        by_cases over_ : p.budget < st.used + (p.price support st.selection uid l).1
        · rw [if_pos over_]
          apply skip_fresh unplaced apart _ (others _)
          intro dc c offered
          rw [offers] at offered
          cases offered
          exact over_
        · rw [if_neg over_]
          constructor
          · intro j c stands
            dsimp only at stands
            by_cases here : j = i
            · rw [here, Function.update_self, Option.some.injEq] at stands
              rw [here, ← stands]
            · rw [Function.update_of_ne here] at stands
              exact unplaced.index j c stands
          · intro c mem
            rcases (BTreeSet.mem_insert _ _ _).mp mem with here | mem
            · rw [here]
              exact Function.update_self _ _ _
            · dsimp only
              rw [Function.update_of_ne (apart c mem)]
              exact unplaced.placed c mem
          · intro c mem clean
            rcases (BTreeSet.mem_insert _ _ _).mp mem with here | mem
            · rw [here]
              exact ⟨_, offers, Function.update_self _ _ _⟩
            · have away : c.index ∉ i :: dirty := by
                intro listed
                rcases List.mem_cons.mp listed with here | listed
                · exact apart c mem here
                · exact clean listed
              obtain ⟨w, offered, current⟩ := unplaced.current c mem away
              refine ⟨w, offered, ?_⟩
              dsimp only
              rw [Function.update_of_ne (apart c mem)]
              exact current
          · intro j dc c clean offered afford
            apply (BTreeSet.mem_insert _ _ _).mpr
            by_cases here : j = i
            · rw [here] at offered
              dsimp only at offered
              rw [offers] at offered
              cases offered
              exact Or.inl rfl
            · refine Or.inr (unplaced.complete j dc c ?_ offered afford)
              intro listed
              rcases List.mem_cons.mp listed with same | listed
              · exact here same
              · exact clean listed

theorem reprice_all_fresh (fresh : p.Fresh support candidates st dirty) :
    p.Fresh support candidates (dirty.foldl (p.reprice support candidates) st) [] ∧
      (dirty.foldl (p.reprice support candidates) st).selection = st.selection ∧
      (dirty.foldl (p.reprice support candidates) st).used = st.used := by
  induction dirty generalizing st with
  | nil => exact ⟨fresh, rfl, rfl⟩
  | cons i dirty ih =>
    rw [List.foldl_cons]
    obtain ⟨later, selection, used⟩ := ih (reprice_fresh fresh)
    obtain ⟨selection', used'⟩ := p.reprice_frame support candidates st i
    exact ⟨later, selection.trans selection', used.trans used'⟩

theorem pop_fresh {c : Choice} (mem : c ∈ st.ready) (fresh : p.Fresh support candidates st []) :
    p.Fresh support candidates { st with
      placed := Function.update st.placed c.index none, ready := st.ready.remove c }
        [c.index] where
  index j k stands := by
    dsimp only at stands
    by_cases here : j = c.index
    · rw [here, Function.update_self] at stands
      cases stands
    · rw [Function.update_of_ne here] at stands
      exact fresh.index j k stands
  placed k held := by
    obtain ⟨stays, apart⟩ := (BTreeSet.mem_remove _ _ _).mp held
    have elsewhere : k.index ≠ c.index := by
      intro here
      have stands := fresh.placed k stays
      rw [here, fresh.placed c mem] at stands
      exact apart (Option.some.inj stands).symm
    dsimp only
    rw [Function.update_of_ne elsewhere]
    exact fresh.placed k stays
  current k held _ := fresh.current k ((BTreeSet.mem_remove _ _ _).mp held).1 List.not_mem_nil
  complete j dc k clean offered afford := by
    apply (BTreeSet.mem_remove _ _ _).mpr
    refine ⟨fresh.complete j dc k List.not_mem_nil offered afford, ?_⟩
    intro same
    apply clean
    rw [← same, (offer_cases offered).2.1]
    exact List.mem_cons_self

/-- Popping takes the choice that ranks above all that can be afforded, or finds that
nothing can. -/
theorem pop_best_greatest {cs : List Choice} (falling : cs.Pairwise (fun a b => b < a))
    (held : ∀ c, c ∈ cs ↔ c ∈ st.ready) (fresh : p.Fresh support candidates st []) :
    (p.popBest candidates cs st).2.selection = st.selection ∧
      (p.popBest candidates cs st).2.used = st.used ∧
      ((p.popBest candidates cs st).1 = none →
        p.affordable support candidates st.selection st.used = []) ∧
      ∀ uid l dc, (p.popBest candidates cs st).1 = some (uid, l, dc) → ∃ c : Choice,
        c.uid = uid ∧ c.level = l ∧
        (dc, c) ∈ p.affordable support candidates st.selection st.used ∧
        (∀ o ∈ p.affordable support candidates st.selection st.used, o.2 ≤ c) ∧
        p.Fresh support candidates (p.popBest candidates cs st).2 [c.index] := by
  induction cs generalizing st with
  | nil =>
    refine ⟨rfl, rfl, ?_, fun uid l dc chosen => ?_⟩
    · intro _
      apply List.eq_nil_iff_forall_not_mem.mpr
      intro o mem
      obtain ⟨dc, c⟩ := o
      obtain ⟨offered, afford⟩ := mem_affordable.mp mem
      have stands := fresh.complete c.index dc c List.not_mem_nil offered afford
      rw [← held] at stands
      cases stands
    · cases chosen
  | cons c cs ih =>
    obtain ⟨above, falling⟩ := List.pairwise_cons.mp falling
    have here := (held c).mp List.mem_cons_self
    have popped := pop_fresh here fresh
    obtain ⟨w, offered, weighed⟩ := fresh.current c here List.not_mem_nil
    obtain ⟨found, _, _, _⟩ := offer_cases offered
    rw [popBest]
    dsimp only
    rw [found, weighed]
    dsimp only
    by_cases over_ : p.budget < st.used + w.1
    · rw [if_pos over_]
      have later : p.Fresh support candidates { st with
          placed := Function.update st.placed c.index none, ready := st.ready.remove c } [] := by
        refine ⟨popped.index, popped.placed, ?_, ?_⟩
        · intro k stays _
          exact fresh.current k ((BTreeSet.mem_remove _ _ _).mp stays).1 List.not_mem_nil
        · intro j dc k _ offered' afford
          apply (BTreeSet.mem_remove _ _ _).mpr
          refine ⟨fresh.complete j dc k List.not_mem_nil offered' afford, ?_⟩
          intro same
          have there := (offer_cases offered').2.1
          rw [same] at there
          dsimp only at offered' afford
          rw [← there, offered] at offered'
          cases offered'
          exact absurd afford (not_le.mpr over_)
      apply ih falling _ later
      intro k
      rw [BTreeSet.mem_remove, ← held, List.mem_cons]
      constructor
      · intro mem
        refine ⟨Or.inr mem, ?_⟩
        intro same
        have less := above k mem
        rw [same] at less
        exact lt_irrefl _ less
      · intro both
        exact both.1.resolve_left both.2
    · rw [if_neg over_]
      refine ⟨rfl, rfl, fun none => absurd none (Option.some_ne_none _), fun uid l dc chosen => ?_⟩
      cases chosen
      refine ⟨c, rfl, rfl, mem_affordable.mpr ⟨offered, not_lt.mp over_⟩, ?_, popped⟩
      intro o mem
      obtain ⟨dc, k⟩ := o
      obtain ⟨offered', afford⟩ := mem_affordable.mp mem
      have stands := fresh.complete k.index dc k List.not_mem_nil offered' afford
      rcases List.mem_cons.mp ((held k).mpr stands) with same | later'
      · rw [same]
      · exact le_of_lt (above k later')

/-- Accepting what was popped: what it moves, it makes dirty. -/
theorem accept_fresh {c : Choice} {dc : Nat}
    (offered : p.offer support candidates st.selection c.index = some (dc, c))
    (fresh : p.Fresh support candidates st [c.index]) :
    p.Fresh support candidates (p.accept support candidates c.uid c.level dc st).1
      (p.accept support candidates c.uid c.level dc st).2 := by
  obtain ⟨selection, used, placed, ready, weighed, moved⟩ := p.accept_all support candidates
    c.uid c.level (p.store.deltaVia st.selection c.uid c.level support).entries (st, [])
  dsimp only at selection used placed ready weighed moved
  obtain ⟨found, _, lower, _⟩ := offer_cases offered
  have same : ∀ j, j ∉ ((p.store.deltaVia st.selection c.uid c.level support).entries.foldl
        (p.acceptOne support candidates c.uid c.level) (st, [])).2 →
      p.offer support candidates
          ((p.store.deltaVia st.selection c.uid c.level support).entries.foldl
            (p.acceptOne support candidates c.uid c.level) (st, [])).1.selection j =
        p.offer support candidates st.selection j := by
    intro j clean
    apply offer_congr
    intro uid l listed x needed
    by_contra changed
    exact clean (moved x changed j (mem_affected listed needed))
  -- the winner is one of those it makes dirty, so the rest were clean before
  have winner : c.index ∈ ((p.store.deltaVia st.selection c.uid c.level support).entries.foldl
      (p.acceptOne support candidates c.uid c.level) (st, [])).2 := by
    apply moved c.uid _ c.index (mem_affected found (required_own c.uid c.level))
    intro unmoved
    have raised := @accepted_level _ p support st.selection c.uid c.level c.uid
    rw [← selection, level, unmoved] at raised
    have met : (c.level : WithBot Lod) ≤ level st.selection c.uid := by
      change level st.selection c.uid = _ at raised
      rw [raised]
      exact (p.store.required_self c.uid c.level).trans le_sup_right
    exact absurd lower (not_lt.mpr met)
  rw [accept]
  dsimp only
  constructor
  · intro j k stands
    dsimp only at stands
    rw [placed] at stands
    exact fresh.index j k stands
  · intro k mem
    dsimp only at mem ⊢
    rw [ready] at mem
    rw [placed]
    exact fresh.placed k mem
  · intro k mem clean
    dsimp only at mem clean ⊢
    rw [ready] at mem
    have away : k.index ∉ [c.index] := by
      intro listed
      rw [List.mem_singleton.mp listed] at clean
      exact clean winner
    obtain ⟨w, offered', current⟩ := fresh.current k mem away
    refine ⟨w, ?_, ?_⟩
    · rw [same k.index clean]
      exact offered'
    · rw [(weighed k.index clean).2]
      exact current
  · intro j dc' k clean offered' afford
    dsimp only at clean offered' afford ⊢
    rw [same j clean] at offered'
    rw [used] at afford
    rw [ready]
    apply fresh.complete j dc' k _ offered' (by omega)
    intro listed
    rw [List.mem_singleton.mp listed] at clean
    exact clean winner

/-- The event-driven greedy picks what the plain one picks. -/
theorem rounds_plain (fuel : Nat) (fresh : p.Fresh support candidates st dirty) :
    (p.picked support candidates fuel dirty st,
      (p.rounds support candidates fuel dirty st).selection,
      (p.rounds support candidates fuel dirty st).used) =
        p.plain support candidates fuel st.selection st.used := by
  induction fuel generalizing st dirty with
  | zero => rfl
  | succ fuel ih =>
    obtain ⟨priced, selection, used⟩ := reprice_all_fresh fresh
    rw [picked, rounds, plain, ← selection, ← used]
    generalize dirty.foldl (p.reprice support candidates) st = st at priced
    dsimp only
    obtain ⟨selection', used', nothing, chosen⟩ := pop_best_greatest
      (List.pairwise_reverse.mpr st.ready.toList_pairwise)
      (fun c => by rw [List.mem_reverse, BTreeSet.mem_toList]) priced
    cases result : p.popBest candidates st.ready.toList.reverse st with
    | mk choice st' =>
      rw [result] at selection' used' nothing chosen
      cases choice with
      | none =>
        dsimp only at selection' used' ⊢
        rw [nothing rfl, selection', used']
        rfl
      | some best =>
        obtain ⟨uid, l, dc⟩ := best
        obtain ⟨c, here, deep, mem, most, later⟩ := chosen uid l dc rfl
        dsimp only at selection' used' later ⊢
        rw [greatest_affordable mem most, ← here, ← deep]
        dsimp only
        have offered := (mem_affordable.mp mem).1
        rw [← selection'] at offered
        have rest := ih (accept_fresh offered later)
        have raised := p.accept_selection support candidates c.uid c.level dc st'
        have spent : (p.accept support candidates c.uid c.level dc st').1.used = st.used + dc := by
          have kept := (p.accept_all support candidates c.uid c.level
            (p.store.deltaVia st'.selection c.uid c.level support).entries (st', [])).2.1
          rw [accept]
          dsimp only at kept ⊢
          rw [kept, used']
        rw [raised, spent, selection'] at rest
        rw [← rest]

/-- The plain greedy ends where nothing can be afforded. -/
theorem plain_ends (fuel : Nat) {S : Selection} {used : Nat} (enough : unmet candidates S < fuel) :
    (p.plain support candidates fuel S used).1.length < fuel ∧
      p.affordable support candidates (p.plain support candidates fuel S used).2.1
        (p.plain support candidates fuel S used).2.2 = [] := by
  induction fuel generalizing S used with
  | zero => omega
  | succ fuel ih =>
    rw [plain]
    cases best : (p.affordable support candidates S used).argmax Prod.snd with
    | none => exact ⟨Nat.succ_pos fuel, List.argmax_eq_none.mp best⟩
    | some o =>
      obtain ⟨dc, c⟩ := o
      dsimp only
      obtain ⟨found, _, lower, _⟩ := offer_cases (mem_affordable.mp (List.argmax_mem best)).1
      have less := p.accept_falls support (List.mem_of_getElem? found) lower
      obtain ⟨few, none⟩ := @ih _ (used + dc) (by omega :
        unmet candidates ((p.store.deltaVia S c.uid c.level support).entries.foldl raise S) < fuel)
      rw [List.length_cons]
      exact ⟨by omega, none⟩

end
end PackProblem

end Smysl
