import Smysl.Lib.Ascending
import Smysl.Time.Saturating
import Smysl.Time.Shortest

/-!
A network in a larger one, whose further nodes are constrained by the reference
alone. A search that gives up on no node finds the same labels in both: the further
nodes are only queued between the others, and the limit on lowerings is larger.
-/
namespace Smysl
namespace Stn

/-- An arc between the nodes of the larger network. -/
def Arc.along (φ : Nat → Nat) (a : Arc) : Arc := { a with head := φ a.head }

def Edge.along (φ : Nat → Nat) (e : Edge) : Edge := { e with src := φ e.src, dst := φ e.dst }

/-- The nodes of one network as nodes of another. -/
structure Placing where
  to_ : Nat → Nat
  old : Nat → Bool
  ascending : StrictMono to_
  old_iff : ∀ x, old x = true ↔ ∃ v, to_ v = x
  reference : to_ reference = reference

namespace Placing
variable (p : Placing)

theorem old_to (v : Nat) : p.old (p.to_ v) = true := (p.old_iff _).mpr ⟨v, rfl⟩

theorem to_inj {u v : Nat} : p.to_ u = p.to_ v ↔ u = v := p.ascending.injective.eq_iff

theorem to_reference_iff {v : Nat} : p.to_ v = Stn.reference ↔ v = Stn.reference := by
  rw [← p.reference, to_inj, p.reference]

theorem new_ne {x v : Nat} (new : p.old x = false) : p.to_ v ≠ x := by
  rintro rfl
  rw [old_to] at new
  cases new

end Placing

theorem ite_along {φ : Nat → Nat} {P Q : Prop} [Decidable P] [Decidable Q] (same : Q ↔ P)
    (a : Arc) : (if Q then some (a.along φ) else none) =
      (if P then some a else none).map (Arc.along φ) := by
  by_cases here : P
  · rw [if_pos here, if_pos (same.mpr here)]
    rfl
  · rw [if_neg here, if_neg (fun there => here (same.mp there))]
    rfl

/-- The larger network has the constraints of the smaller, in their order, and further ones, each
between the reference and a further node. -/
structure Placed (p : Placing) (small large : List Edge) : Prop where
  kept : large.filter (fun e => p.old e.src && p.old e.dst) = small.map (Edge.along p.to_)
  further : ∀ e ∈ large, (p.old e.src = true ∧ p.old e.dst = true) ∨
    (e.src = reference ∧ p.old e.dst = false) ∨ (p.old e.src = false ∧ e.dst = reference)

namespace Placed
variable {p : Placing} {small large : Network}

theorem old_reference (p : Placing) : p.old reference = true := by
  rw [← p.reference]
  exact p.old_to reference

/-- What leaves a node of the smaller network by a choice of edges that looks at both ends. -/
theorem chosen (placed : Placed p small.edges large.edges) (f g : Edge → Option Arc)
    (along : ∀ e, g (e.along p.to_) = (f e).map (Arc.along p.to_))
    (kept : ∀ e ∈ large.edges, ∀ a, g e = some a →
      p.old a.head = (p.old e.src && p.old e.dst)) :
    (large.edges.filterMap g).filter (fun a => p.old a.head) =
      (small.edges.filterMap f).map (Arc.along p.to_) := by
  have swap : (large.edges.filterMap g).filter (fun a => p.old a.head) =
      (large.edges.filter (fun e => p.old e.src && p.old e.dst)).filterMap g := by
    rw [List.filter_filterMap, List.filterMap_filter]
    refine List.filterMap_congr fun e mem => ?_
    cases made : g e with
    | none => split <;> rfl
    | some a =>
      rw [Option.filter_some, kept e mem a made]
  rw [swap, placed.kept, List.filterMap_map, List.map_filterMap]
  exact List.filterMap_congr fun e _ => along e

theorem arcs (placed : Placed p small.edges large.edges) (reverse : Bool) (u : Nat) :
    (large.arcs reverse (p.to_ u)).filter (fun a => p.old a.head) =
      (small.arcs reverse u).map (Arc.along p.to_) := by
  apply placed.chosen
  · intro e
    cases reverse
    · refine @ite_along p.to_ (e.src = u ∧ e.dst ≠ reference)
        (p.to_ e.src = p.to_ u ∧ p.to_ e.dst ≠ reference) _ _ ?_ ⟨e.dst, e.weight, e.cause⟩
      rw [p.to_inj, ne_eq, p.to_reference_iff]
    · refine @ite_along p.to_ (e.dst = u ∧ e.src ≠ reference)
        (p.to_ e.dst = p.to_ u ∧ p.to_ e.src ≠ reference) _ _ ?_ ⟨e.src, e.weight, e.cause⟩
      rw [p.to_inj, ne_eq, p.to_reference_iff]
  · intro e _ a made
    cases reverse
    · obtain ⟨here, made⟩ : (e.src = p.to_ u ∧ e.dst ≠ reference) ∧ _ :=
        Option.ite_none_right_eq_some.mp made
      cases made
      rw [here.1, p.old_to, Bool.true_and]
    · obtain ⟨here, made⟩ : (e.dst = p.to_ u ∧ e.src ≠ reference) ∧ _ :=
        Option.ite_none_right_eq_some.mp made
      cases made
      rw [here.1, p.old_to, Bool.and_true]

theorem arcs_new (placed : Placed p small.edges large.edges) (reverse : Bool) {x : Nat}
    (new : p.old x = false) : large.arcs reverse x = [] := by
  refine List.eq_nil_iff_forall_not_mem.mpr fun a mem => ?_
  cases reverse with
  | false =>
    obtain ⟨e, held, rfl, away, _⟩ := (large.mem_arcs_forward x a).mp mem
    rcases placed.further e held with ⟨both, _⟩ | ⟨from_, _⟩ | ⟨_, to_⟩
    · rw [new] at both
      cases both
    · rw [from_, old_reference] at new
      cases new
    · exact away to_
  | true =>
    obtain ⟨e, held, rfl, away, _⟩ := (large.mem_arcs_backward x a).mp mem
    rcases placed.further e held with ⟨_, both⟩ | ⟨from_, _⟩ | ⟨_, to_⟩
    · rw [new] at both
      cases both
    · exact away from_
    · rw [to_, old_reference] at new
      cases new

theorem inner (placed : Placed p small.edges large.edges) (u : Nat) :
    large.inner (p.to_ u) = (small.inner u).map (Arc.along p.to_) := by
  have all : (large.inner (p.to_ u)).filter (fun a => p.old a.head) = large.inner (p.to_ u) := by
    refine List.filter_eq_self.mpr fun a mem => ?_
    obtain ⟨e, held, _, src, dst, rfl⟩ := (large.mem_inner _ a).mp mem
    rcases placed.further e held with ⟨_, both⟩ | ⟨from_, _⟩ | ⟨_, to_⟩
    · exact both
    · exact absurd from_ src
    · exact absurd to_ dst
  rw [← all]
  apply placed.chosen
  · intro e
    refine @ite_along p.to_ (e.src = u ∧ e.src ≠ reference ∧ e.dst ≠ reference)
      (p.to_ e.src = p.to_ u ∧ p.to_ e.src ≠ reference ∧ p.to_ e.dst ≠ reference) _ _ ?_
      ⟨e.dst, e.weight, e.cause⟩
    rw [p.to_inj, ne_eq, p.to_reference_iff, ne_eq, p.to_reference_iff]
  · intro e _ a made
    obtain ⟨here, made⟩ : (e.src = p.to_ u ∧ e.src ≠ reference ∧ e.dst ≠ reference) ∧ _ :=
      Option.ite_none_right_eq_some.mp made
    cases made
    rw [here.1, p.old_to, Bool.true_and]

theorem inner_new (placed : Placed p small.edges large.edges) {x : Nat} (new : p.old x = false) :
    large.inner x = [] := by
  refine List.eq_nil_iff_forall_not_mem.mpr fun a mem => ?_
  obtain ⟨e, held, rfl, src, dst, _⟩ := (large.mem_inner x a).mp mem
  rcases placed.further e held with ⟨both, _⟩ | ⟨from_, _⟩ | ⟨_, to_⟩
  · rw [new] at both
    cases both
  · exact src from_
  · exact dst to_

end Placed

/-! One arc, with any sum. -/

section
variable {plus : Int → Int → Int} {n : Nat} {st : Labels} {a : Arc} {du : Int}

theorem relax_forms : st.relax plus n du a = st ∨ st.relax plus n du a = st.tie a ∨
    st.relax plus n du a = st.lowerTo n a (plus du a.weight) := by
  rw [Labels.relax]
  split
  · exact Or.inr (Or.inr rfl)
  · split
    · exact Or.inl rfl
    · split
      · exact Or.inr (Or.inl rfl)
      · exact Or.inr (Or.inr rfl)

theorem lower_to_within {cand : Int} (onward : (st.lowerTo n a cand).onCycle = []) :
    st.relaxations a.head + 1 ≤ n := by
  rw [Labels.lowerTo] at onward
  dsimp only at onward
  split at onward
  · exact absurd onward (List.append_ne_nil_of_right_ne_nil _ (List.cons_ne_nil _ _))
  · rename_i within
    rw [set_at_same] at within
    exact not_lt.mp within

theorem lower_to_queue_eq {cand : Int} (within : st.relaxations a.head + 1 ≤ n) :
    (st.lowerTo n a cand).queue =
      if a.head ∈ st.queue then st.queue else st.queue ++ [a.head] := by
  rw [Labels.lowerTo]
  dsimp only
  split
  · rename_i over_
    rw [set_at_same] at over_
    omega
  · split <;> rfl

theorem lower_to_on_cycle_eq {cand : Int} (within : st.relaxations a.head + 1 ≤ n) :
    (st.lowerTo n a cand).onCycle = st.onCycle := by
  rw [Labels.lowerTo]
  dsimp only
  split
  · rename_i over_
    rw [set_at_same] at over_
    omega
  · split <;> rfl

theorem tie_on_cycle : (st.tie a).onCycle = st.onCycle := by
  rw [Labels.tie]
  split <;> rfl

theorem relax_by_on_cycle (onward : (st.relax plus n du a).onCycle = []) : st.onCycle = [] := by
  rcases @relax_forms plus n st a du with same | same | same
  · rwa [same] at onward
  · rwa [same, tie_on_cycle] at onward
  · rw [same] at onward
    exact (lower_to_clear onward).1

theorem relaxes_on_cycle {as : List Arc}
    (onward : (as.foldl (Labels.relax plus n du) st).onCycle = []) : st.onCycle = [] := by
  induction as generalizing st with
  | nil => exact onward
  | cons a as ih => exact relax_by_on_cycle (ih onward)

theorem relax_by_measure (inside : a.head < n) :
    measure n (st.relax plus n du a) ≤ measure n st := by
  rcases @relax_forms plus n st a du with same | same | same
  · rw [same]
  · obtain ⟨cause, tied, _⟩ := @tie_cases st a
    rw [same, tied]
    exact le_rfl
  · rw [same]
    exact lower_to_measure inside

theorem relaxes_measure {as : List Arc} (inside : ∀ a ∈ as, a.head < n) :
    measure n (as.foldl (Labels.relax plus n du) st) ≤ measure n st := by
  induction as generalizing st with
  | nil => exact le_rfl
  | cons a as ih =>
    rw [List.forall_mem_cons] at inside
    exact (ih inside.2).trans (relax_by_measure inside.1)

theorem scan_arc_by_forms {u : Nat} : scanArcBy plus n u st a = st ∨
    ∃ cand, scanArcBy plus n u st a = st.lowerTo n a cand := by
  rw [scanArcBy]
  split
  · exact Or.inl rfl
  · split
    · exact Or.inl rfl
    · exact Or.inr ⟨_, rfl⟩

theorem scans_on_cycle {u : Nat} {as : List Arc}
    (onward : (as.foldl (scanArcBy plus n u) st).onCycle = []) : st.onCycle = [] := by
  induction as generalizing st with
  | nil => exact onward
  | cons a as ih =>
    have one := ih onward
    rcases @scan_arc_by_forms plus n st a u with same | ⟨cand, same⟩
    · rwa [same] at one
    · rw [same] at one
      exact (lower_to_clear one).1

theorem scans_measure {u : Nat} {as : List Arc} (inside : ∀ a ∈ as, a.head < n) :
    measure n (as.foldl (scanArcBy plus n u) st) ≤ measure n st := by
  induction as generalizing st with
  | nil => exact le_rfl
  | cons a as ih =>
    rw [List.forall_mem_cons] at inside
    refine (ih inside.2).trans ?_
    rcases @scan_arc_by_forms plus n st a u with same | ⟨cand, same⟩
    · rw [same]
    · rw [same]
      exact lower_to_measure inside.1

theorem run_empty {scan : Nat → Labels → Labels} {fuel : Nat} (empty : st.queue = []) :
    run scan fuel st = st := by
  cases fuel with
  | zero => rfl
  | succ fuel => rw [run, empty]

/-- What a run gives up on nothing by, none of its scans does. -/
theorem run_on_cycle {scan : Nat → Labels → Labels}
    (step : ∀ u st, (scan u st).onCycle = [] → st.onCycle = []) (fuel : Nat)
    (onward : (run scan fuel st).onCycle = []) : st.onCycle = [] := by
  induction fuel generalizing st with
  | zero => exact onward
  | succ fuel ih =>
    rw [run] at onward
    split at onward
    · exact onward
    · rename_i u rest queue
      have before : ({ st with queue := rest } : Labels).onCycle = [] := step u _ (ih onward)
      exact before

end

/-! The same search in both. -/

/-- The labels of the smaller network are those of its nodes in the larger. -/
structure Sim (p : Placing) (small large : Labels) : Prop where
  dist : ∀ v, large.dist (p.to_ v) = small.dist v
  cause : ∀ v, large.cause (p.to_ v) = small.cause v
  relaxations : ∀ v, large.relaxations (p.to_ v) = small.relaxations v
  queue : large.queue.filter p.old = small.queue.map p.to_
  clear : ∀ x ∈ large.onCycle, p.old x = false

namespace Sim
variable {p : Placing} {small large : Labels} {n n' : Nat} {a : Arc} {cand du : Int}
  {plus : Int → Int → Int}

theorem set_at {α : Type} {f g : Nat → α} (same : ∀ v, g (p.to_ v) = f v) (i : Nat) (x : α)
    (v : Nat) : setAt g (p.to_ i) x (p.to_ v) = setAt f i x v := by
  by_cases here : v = i
  · rw [here, set_at_same, set_at_same]
  · rw [set_at_other _ _ here, set_at_other _ _ (fun eq => here (p.to_inj.mp eq)), same]

theorem set_at_new {α : Type} {f g : Nat → α} (same : ∀ v, g (p.to_ v) = f v) {i : Nat}
    (new : p.old i = false) (x : α) (v : Nat) : setAt g i x (p.to_ v) = f v := by
  rw [set_at_other _ _ (p.new_ne new), same]

theorem queued (sim : Sim p small large) (v : Nat) : p.to_ v ∈ large.queue ↔ v ∈ small.queue := by
  have mem : p.to_ v ∈ large.queue.filter p.old ↔ p.to_ v ∈ small.queue.map p.to_ := by
    rw [sim.queue]
  rw [List.mem_filter, p.old_to, List.mem_map] at mem
  constructor
  · intro held
    obtain ⟨u, held', same⟩ := mem.mp ⟨held, rfl⟩
    rwa [← p.to_inj.mp same]
  · intro held
    exact (mem.mpr ⟨v, held, rfl⟩).1

theorem lower (sim : Sim p small large) (le : n ≤ n')
    (onward : (small.lowerTo n a cand).onCycle = []) :
    Sim p (small.lowerTo n a cand) (large.lowerTo n' (a.along p.to_) cand) := by
  have head : (a.along p.to_).head = p.to_ a.head := rfl
  have within := lower_to_within onward
  have within' : large.relaxations (p.to_ a.head) + 1 ≤ n' := by
    rw [sim.relaxations]
    omega
  refine ⟨fun v => ?_, fun v => ?_, fun v => ?_, ?_, ?_⟩
  · rw [lower_to_dist, lower_to_dist, head]
    exact set_at sim.dist _ _ v
  · rw [lower_to_cause, lower_to_cause, head]
    exact set_at sim.cause _ _ v
  · rw [lower_to_relaxations, lower_to_relaxations, head, sim.relaxations]
    exact set_at sim.relaxations _ _ v
  · rw [lower_to_queue_eq within, lower_to_queue_eq within', head]
    by_cases held : a.head ∈ small.queue
    · rw [if_pos held, if_pos ((sim.queued _).mpr held)]
      exact sim.queue
    · rw [if_neg held, if_neg (fun held' => held ((sim.queued _).mp held')), List.filter_append,
        sim.queue, List.map_append, List.map_singleton,
        List.filter_cons_of_pos (p.old_to a.head), List.filter_nil]
  · rw [lower_to_on_cycle_eq within']
    exact sim.clear

theorem tie (sim : Sim p small large) : Sim p (small.tie a) (large.tie (a.along p.to_)) := by
  have head : (a.along p.to_).head = p.to_ a.head := rfl
  have cause : (a.along p.to_).cause = a.cause := rfl
  rw [Labels.tie, Labels.tie, head, cause, sim.cause]
  split
  · exact ⟨sim.dist, set_at sim.cause _ _, sim.relaxations, sim.queue, sim.clear⟩
  · exact sim

theorem relax (sim : Sim p small large) (le : n ≤ n')
    (onward : (small.relax plus n du a).onCycle = []) :
    Sim p (small.relax plus n du a) (large.relax plus n' du (a.along p.to_)) := by
  have head : (a.along p.to_).head = p.to_ a.head := rfl
  have weight : (a.along p.to_).weight = a.weight := rfl
  rw [Labels.relax] at onward ⊢
  rw [Labels.relax, head, weight, sim.dist]
  cases held : small.dist a.head with
  | none =>
    rw [held] at onward
    exact sim.lower le onward
  | some d =>
    rw [held] at onward
    dsimp only at onward ⊢
    split
    · exact sim
    · rename_i long
      rw [if_neg long] at onward
      split
      · exact sim.tie
      · rename_i other
        rw [if_neg other] at onward
        exact sim.lower le onward

/-- What an arc to a further node changes is not seen. -/
theorem lower_new (sim : Sim p small large) (new : p.old a.head = false) :
    Sim p small (large.lowerTo n' a cand) := by
  refine ⟨fun v => ?_, fun v => ?_, fun v => ?_, ?_, fun x mem => ?_⟩
  · rw [lower_to_dist]
    exact set_at_new sim.dist new _ v
  · rw [lower_to_cause]
    exact set_at_new sim.cause new _ v
  · rw [lower_to_relaxations]
    exact set_at_new sim.relaxations new _ v
  · rw [Labels.lowerTo]
    dsimp only
    split
    · exact sim.queue
    · split
      · exact sim.queue
      · rw [List.filter_append, sim.queue, List.filter_cons_of_neg (by rw [new]; decide),
          List.filter_nil, List.append_nil]
  · rcases lower_to_on_cycle mem with earlier | rfl
    · exact sim.clear x earlier
    · exact new

theorem relax_new (sim : Sim p small large) (new : p.old a.head = false) :
    Sim p small (large.relax plus n' du a) := by
  rcases @relax_forms plus n' large a du with same | same | same
  · rwa [same]
  · rw [same, Labels.tie]
    split
    · exact ⟨sim.dist, set_at_new sim.cause new _, sim.relaxations, sim.queue, sim.clear⟩
    · exact sim
  · rw [same]
    exact sim.lower_new new

theorem relaxes (sim : Sim p small large) (le : n ≤ n') {as bs : List Arc}
    (along : bs.filter (fun b => p.old b.head) = as.map (Arc.along p.to_))
    (onward : (as.foldl (Labels.relax plus n du) small).onCycle = []) :
    Sim p (as.foldl (Labels.relax plus n du) small)
      (bs.foldl (Labels.relax plus n' du) large) := by
  induction bs generalizing as small large with
  | nil =>
    rw [List.filter_nil] at along
    rw [List.map_eq_nil_iff.mp along.symm]
    exact sim
  | cons b bs ih =>
    by_cases old : p.old b.head = true
    · rw [@List.filter_cons_of_pos _ (fun b : Arc => p.old b.head) _ _ old] at along
      cases as with
      | nil => cases along
      | cons a as =>
        obtain ⟨rfl, along'⟩ := List.cons.inj along
        exact ih (sim.relax le (relaxes_on_cycle onward)) along' onward
    · rw [@List.filter_cons_of_neg _ (fun b : Arc => p.old b.head) _ _ old] at along
      exact ih (sim.relax_new (Bool.eq_false_of_not_eq_true old)) along onward

theorem scan_arc (sim : Sim p small large) (le : n ≤ n') {u : Nat}
    (onward : (scanArcBy plus n u small a).onCycle = []) :
    Sim p (scanArcBy plus n u small a)
      (scanArcBy plus n' (p.to_ u) large (a.along p.to_)) := by
  have head : (a.along p.to_).head = p.to_ a.head := rfl
  have weight : (a.along p.to_).weight = a.weight := rfl
  rw [scanArcBy] at onward ⊢
  rw [scanArcBy, head, weight, sim.dist, sim.dist]
  cases held : small.dist u with
  | none => exact sim
  | some du =>
    rw [held] at onward
    dsimp only at onward ⊢
    split
    · exact sim
    · rename_i short
      rw [if_neg short] at onward
      exact sim.lower le onward

theorem scans (sim : Sim p small large) (le : n ≤ n') {u : Nat} {as : List Arc}
    (onward : (as.foldl (scanArcBy plus n u) small).onCycle = []) :
    Sim p (as.foldl (scanArcBy plus n u) small)
      ((as.map (Arc.along p.to_)).foldl (scanArcBy plus n' (p.to_ u)) large) := by
  induction as generalizing small large with
  | nil => exact sim
  | cons a as ih => exact ih (sim.scan_arc le (scans_on_cycle onward)) onward

/-- The runs of two scans that agree at every node of the smaller network, and of which the larger
does nothing seen at the others. -/
theorem run {scan scan' : Nat → Labels → Labels}
    (step : ∀ u (small large : Labels), Sim p small large → (scan u small).onCycle = [] →
      Sim p (scan u small) (scan' (p.to_ u) large))
    (idle : ∀ x (large : Labels), p.old x = false → scan' x large = large)
    (quiet : ∀ u st, (scan u st).onCycle = [] → st.onCycle = [])
    (shrinks : ∀ u st, measure n (scan u st) ≤ measure n st)
    (shrinks' : ∀ u st, measure n' (scan' u st) ≤ measure n' st)
    (fuel fuel' : Nat) (small large : Labels) (sim : Sim p small large)
    (enough_ : measure n small ≤ fuel) (enough' : measure n' large ≤ fuel')
    (onward : (Stn.run scan fuel small).onCycle = []) :
    Sim p (Stn.run scan fuel small) (Stn.run scan' fuel' large) := by
  induction fuel' generalizing fuel small large with
  | zero =>
    have empty : large.queue = [] := by
      rw [measure] at enough'
      exact List.eq_nil_of_length_eq_zero (by omega)
    have none_ : small.queue = [] := by
      have same := sim.queue
      rw [empty, List.filter_nil] at same
      exact List.map_eq_nil_iff.mp same.symm
    rw [run_empty none_, run_empty empty]
    exact sim
  | succ fuel' ih =>
    rw [Stn.run.eq_def scan']
    dsimp only
    cases queue : large.queue with
    | nil =>
      have none_ : small.queue = [] := by
        have same := sim.queue
        rw [queue, List.filter_nil] at same
        exact List.map_eq_nil_iff.mp same.symm
      rw [run_empty none_]
      exact sim
    | cons x rest =>
      dsimp only
      have same := sim.queue
      rw [queue] at same
      have popped' : measure n' { large with queue := rest } + 1 = measure n' large := by
        rw [measure, measure, queue, List.length_cons]
        exact Nat.add_right_comm _ _ _
      by_cases old : p.old x = true
      · rw [List.filter_cons_of_pos old] at same
        cases queue' : small.queue with
        | nil =>
          rw [queue'] at same
          cases same
        | cons u rest' =>
          rw [queue', List.map_cons] at same
          obtain ⟨rfl, same'⟩ := List.cons.inj same
          have popped : measure n { small with queue := rest' } + 1 = measure n small := by
            rw [measure, measure, queue', List.length_cons]
            exact Nat.add_right_comm _ _ _
          cases fuel with
          | zero =>
            rw [measure, queue', List.length_cons] at enough_
            omega
          | succ fuel =>
            rw [Stn.run, queue'] at onward ⊢
            dsimp only at onward ⊢
            have less := shrinks u { small with queue := rest' }
            have less' := shrinks' (p.to_ u) { large with queue := rest }
            refine ih fuel _ _ ?_ (by omega) (by omega) onward
            exact step u _ _ ⟨sim.dist, sim.cause, sim.relaxations, same', sim.clear⟩
              (run_on_cycle quiet fuel onward)
      · rw [List.filter_cons_of_neg old] at same
        rw [idle x _ (Bool.eq_false_of_not_eq_true old)]
        exact ih fuel small _ ⟨sim.dist, sim.cause, sim.relaxations, same, sim.clear⟩ enough_
          (by omega) onward

end Sim

/-- One network in another, each with its constraints between its nodes. -/
structure Framed (p : Placing) (small large : Network) : Prop where
  placed : Placed p small.edges large.edges
  inside : ∀ v, p.to_ v < large.vars + 1 ↔ v < small.vars + 1
  proper : large.Proper

namespace Framed
variable {p : Placing} {small large : Network} {plus : Int → Int → Int}
  (framed : Framed p small large)
include framed

theorem smaller : small.vars + 1 ≤ large.vars + 1 := by
  have last := (framed.inside small.vars).mpr (Nat.lt_succ_self _)
  have grows := p.ascending.id_le small.vars
  exact (Nat.succ_le_succ grows).trans last

theorem proper_small : small.Proper := by
  intro e held
  have mem : e.along p.to_ ∈ large.edges := by
    have kept := List.mem_map_of_mem (f := Edge.along p.to_) held
    rw [← framed.placed.kept] at kept
    exact List.mem_of_mem_filter kept
  obtain ⟨src, dst⟩ := framed.proper _ mem
  exact ⟨Nat.lt_succ_iff.mp ((framed.inside e.src).mp (Nat.lt_succ_of_le src)),
    Nat.lt_succ_iff.mp ((framed.inside e.dst).mp (Nat.lt_succ_of_le dst))⟩

theorem shortest (reverse : Bool)
    (onward : (small.shortest plus (small.vars + 1) reverse).onCycle = []) :
    Sim p (small.shortest plus (small.vars + 1) reverse)
      (large.shortest plus (large.vars + 1) reverse) := by
  have shrinks {net : Network} (proper : net.Proper) (u : Nat) (st : Labels) :
      measure (net.vars + 1) (net.scanShortest plus (net.vars + 1) reverse u st) ≤
        measure (net.vars + 1) st := by
    rw [Network.scanShortest]
    split
    · exact le_rfl
    · exact relaxes_measure (proper.arcs_inside reverse u)
  have one (n : Nat) : measure n
      { dist := setAt (fun _ => none) reference (some 0)
        cause := fun _ => none
        relaxations := fun _ => 0
        queue := [reference]
        onCycle := [] } ≤ enough n := by
    rw [fresh_measure n rfl, enough, List.length_singleton]
    omega
  refine Sim.run ?_ ?_ ?_ (shrinks framed.proper_small) (shrinks framed.proper) _ _ _ _ ?_ (one _)
    (one _) onward
  · intro u small' large' sim onward'
    rw [Network.scanShortest] at onward' ⊢
    rw [Network.scanShortest, sim.dist]
    cases held : small'.dist u with
    | none => exact sim
    | some du =>
      rw [held] at onward'
      exact sim.relaxes framed.smaller (framed.placed.arcs reverse u) onward'
  · intro x large' new
    rw [Network.scanShortest, framed.placed.arcs_new reverse new]
    split <;> rfl
  · intro u st onward'
    rw [Network.scanShortest] at onward'
    split at onward'
    · exact onward'
    · exact relaxes_on_cycle onward'
  · refine ⟨fun v => ?_, fun _ => rfl, fun _ => rfl, ?_,
      fun _ mem => absurd mem List.not_mem_nil⟩
    · change setAt (fun _ => none) reference (some 0) (p.to_ v) =
        setAt (fun _ => none) reference (some 0) v
      by_cases here : v = reference
      · rw [here, p.reference]
      · rw [set_at_other _ _ here, set_at_other _ _ (fun eq => here (p.to_reference_iff.mp eq))]
    · change [reference].filter p.old = [reference].map p.to_
      rw [List.map_singleton, p.reference, List.filter_cons_of_pos (Placed.old_reference p),
        List.filter_nil]

/-- Where the smaller search for cycles gives up on nothing, neither does the larger. -/
theorem cycles (onward : (small.cycleSearch plus (small.vars + 1)).onCycle = []) :
    (large.cycleSearch plus (large.vars + 1)).onCycle = [] := by
  have shrinks {net : Network} (proper : net.Proper) (u : Nat) (st : Labels) :
      measure (net.vars + 1) ((net.inner u).foldl (scanArcBy plus (net.vars + 1) u) st) ≤
        measure (net.vars + 1) st := by
    refine scans_measure fun a mem => ?_
    obtain ⟨e, held, _, _, _, rfl⟩ := (net.mem_inner u a).mp mem
    exact Nat.lt_succ_of_le (proper e held).2
  have all (n : Nat) : measure n
      { dist := fun _ => some 0
        cause := fun _ => none
        relaxations := fun _ => 0
        queue := List.range n
        onCycle := [] } ≤ enough n := by
    rw [fresh_measure n rfl, enough, List.length_range]
    omega
  have sim : Sim p (small.cycleSearch plus (small.vars + 1))
      (large.cycleSearch plus (large.vars + 1)) := by
    refine Sim.run ?_ ?_ (fun u st => scans_on_cycle) (shrinks framed.proper_small)
      (shrinks framed.proper) _ _ _ _ ?_ (all _) (all _) onward
    · intro u small' large' sim onward'
      have lockstep := sim.scans framed.smaller onward'
      rw [← framed.placed.inner] at lockstep
      exact lockstep
    · intro x large' new
      rw [framed.placed.inner_new new]
      rfl
    · refine ⟨fun _ => rfl, fun _ => rfl, fun _ => rfl, ?_,
        fun _ mem => absurd mem List.not_mem_nil⟩
      change (List.range (large.vars + 1)).filter p.old =
        (List.range (small.vars + 1)).map p.to_
      refine Ascending.ascending_ext (List.pairwise_lt_range.filter _)
        (List.pairwise_map.mpr (List.pairwise_lt_range.imp (fun lt => p.ascending lt)))
        fun x => ?_
      rw [List.mem_filter, List.mem_range, p.old_iff, List.mem_map]
      constructor
      · rintro ⟨lt, v, rfl⟩
        exact ⟨v, List.mem_range.mpr ((framed.inside v).mp lt), rfl⟩
      · rintro ⟨v, mem, rfl⟩
        exact ⟨(framed.inside v).mpr (List.mem_range.mp mem), v, rfl⟩
  have olds : ∀ x ∈ (large.cycleSearch plus (large.vars + 1)).onCycle, p.old x = true := by
    refine run_keeps (P := fun st => ∀ x ∈ st.onCycle, p.old x = true) ?_ _ _
      (fun _ mem => absurd mem List.not_mem_nil)
    intro u rest st _ before
    have heads : ∀ a ∈ large.inner u, p.old a.head = true := by
      intro a mem
      by_cases old : p.old u = true
      · obtain ⟨v, rfl⟩ := (p.old_iff u).mp old
        rw [framed.placed.inner] at mem
        obtain ⟨b, _, rfl⟩ := List.mem_map.mp mem
        exact p.old_to b.head
      · rw [framed.placed.inner_new (Bool.eq_false_of_not_eq_true old)] at mem
        cases mem
    change ∀ x ∈ ((large.inner u).foldl (scanArcBy plus (large.vars + 1) u)
      { st with queue := rest }).onCycle, p.old x = true
    have start : ∀ x ∈ ({ st with queue := rest } : Labels).onCycle, p.old x = true := before
    generalize ({ st with queue := rest } : Labels) = st' at start
    generalize large.inner u = as at heads
    induction as generalizing st' with
    | nil => exact start
    | cons a as ih =>
      rw [List.forall_mem_cons] at heads
      refine ih _ (fun x mem => ?_) heads.2
      rcases @scan_arc_by_forms plus (large.vars + 1) st' a u with same | ⟨cand, same⟩
      · rw [same] at mem
        exact start x mem
      · rw [same] at mem
        rcases lower_to_on_cycle mem with earlier | rfl
        · exact start x earlier
        · exact heads.1
  refine List.eq_nil_iff_forall_not_mem.mpr fun x mem => ?_
  have old := olds x mem
  rw [sim.clear x mem] at old
  cases old

/-- What leaves the reference for a further node, or comes from one, is all that a search looks at
there. -/
theorem head_new {reverse : Bool} {u : Nat} {a : Arc} (mem : a ∈ large.arcs reverse u)
    (new : p.old a.head = false) : u = reference := by
  cases reverse with
  | false =>
    obtain ⟨e, held, rfl, away, rfl⟩ := (large.mem_arcs_forward u a).mp mem
    rcases framed.placed.further e held with ⟨_, old⟩ | ⟨from_, _⟩ | ⟨_, to_⟩
    · rw [new] at old
      cases old
    · exact from_
    · exact absurd to_ away
  | true =>
    obtain ⟨e, held, rfl, away, rfl⟩ := (large.mem_arcs_backward u a).mp mem
    rcases framed.placed.further e held with ⟨old, _⟩ | ⟨from_, _⟩ | ⟨_, to_⟩
    · rw [new] at old
      cases old
    · exact absurd from_ away
    · exact to_

/-- A further node has the label of one of its own constraints. -/
theorem new_label (reverse : Bool) :
    (large.shortest plus (large.vars + 1) reverse).dist reference = some 0 ∧
      ∀ x d, p.old x = false → (large.shortest plus (large.vars + 1) reverse).dist x = some d →
        ∃ a ∈ large.arcs reverse reference, a.head = x ∧ d = plus 0 a.weight := by
  refine run_keeps (P := fun st => st.dist reference = some 0 ∧
    ∀ x d, p.old x = false → st.dist x = some d →
      ∃ a ∈ large.arcs reverse reference, a.head = x ∧ d = plus 0 a.weight) ?_ _ _ ?_
  · intro u rest st _ before
    change _ ∧ _ at before
    rw [Network.scanShortest]
    cases read : ({ st with queue := rest } : Labels).dist u with
    | none => exact before
    | some du =>
      dsimp only
      have source : u = reference → du = 0 := by
        rintro rfl
        have zero : some du = some (0 : Int) := read.symm.trans before.1
        exact Option.some.inj zero
      have start : ({ st with queue := rest } : Labels).dist reference = some 0 ∧
          ∀ x d, p.old x = false → ({ st with queue := rest } : Labels).dist x = some d →
            ∃ a ∈ large.arcs reverse reference, a.head = x ∧ d = plus 0 a.weight := before
      clear read before
      generalize ({ st with queue := rest } : Labels) = st' at start
      have away := large.arcs_away reverse u
      have given : ∀ a ∈ large.arcs reverse u, p.old a.head = false →
          a ∈ large.arcs reverse reference ∧ du = 0 := by
        intro a mem new
        have here := framed.head_new mem new
        exact ⟨here ▸ mem, source here⟩
      generalize large.arcs reverse u = as at away given
      induction as generalizing st' with
      | nil => exact start
      | cons a as ih =>
        rw [List.forall_mem_cons] at away given
        refine ih _ ?_ away.2 given.2
        rcases @relax_forms plus (large.vars + 1) st' a du with same | same | same
        · rwa [same]
        · obtain ⟨cause, tied, _⟩ := @tie_cases st' a
          rw [same, tied]
          exact start
        · rw [same, lower_to_dist]
          refine ⟨?_, fun x d new labelled => ?_⟩
          · rw [set_at_other _ _ away.1.symm]
            exact start.1
          · by_cases head : x = a.head
            · rw [head, set_at_same] at labelled
              obtain ⟨mem, zero⟩ := given.1 (head ▸ new)
              rw [zero] at labelled
              exact ⟨a, mem, head.symm, (Option.some.inj labelled).symm⟩
            · rw [set_at_other _ _ head] at labelled
              exact start.2 x d new labelled
  · refine ⟨rfl, fun x d new labelled => ?_⟩
    have apart : x ≠ reference := by
      rintro rfl
      rw [Placed.old_reference] at new
      cases new
    change setAt (fun _ => none) reference (some 0) x = some d at labelled
    rw [set_at_other _ _ apart] at labelled
    cases labelled

end Framed

/-! The two answers. -/

/-- No search of a network gives up on a node. -/
structure Patient (plus : Int → Int → Int) (net : Network) : Prop where
  up : (net.shortest plus (net.vars + 1) false).onCycle = []
  down : (net.shortest plus (net.vars + 1) true).onCycle = []
  cycles : (net.cycleSearch plus (net.vars + 1)).onCycle = []

/-- Variables among more variables, as nodes among nodes. -/
def Placing.ofVars (f : Nat → Nat) (old : Nat → Bool) (ascending : StrictMono f)
    (old_iff : ∀ j, old j = true ↔ ∃ i, f i = j) : Placing where
  to_ v := if v = 0 then 0 else f (v - 1) + 1
  old v := if v = 0 then true else old (v - 1)
  ascending u v lt := by
    dsimp only
    split
    · rw [if_neg (by omega)]
      exact Nat.succ_pos _
    · rw [if_neg (by omega)]
      exact Nat.succ_lt_succ (ascending (by omega))
  old_iff x := by
    by_cases zero : x = 0
    · rw [if_pos zero, zero]
      exact ⟨fun _ => ⟨0, if_pos rfl⟩, fun _ => rfl⟩
    · rw [if_neg zero, old_iff]
      constructor
      · rintro ⟨i, same⟩
        refine ⟨i + 1, ?_⟩
        rw [if_neg (Nat.succ_ne_zero i), Nat.add_sub_cancel, same]
        omega
      · rintro ⟨v, same⟩
        by_cases none_ : v = 0
        · rw [if_pos none_] at same
          exact absurd same.symm zero
        · rw [if_neg none_] at same
          exact ⟨v - 1, by omega⟩
  reference := if_pos rfl

theorem range_join {α : Type} (g : Nat → Option α) (n i : Nat) :
    (((List.range n).map g)[i]?).join = if i < n then g i else none := by
  split
  · rename_i inside
    rw [List.getElem?_map, List.getElem?_range inside]
    rfl
  · rename_i outside
    rw [List.getElem?_eq_none (by rw [List.length_map, List.length_range]; omega)]
    rfl

theorem range_join_none {α : Type} {g : Nat → Option α} {n i : Nat} (none_ : g i = none) :
    (((List.range n).map g)[i]?).join = none := by
  rw [range_join, none_, ite_self]

/-- What is found impossible where the search for cycles gives up on nothing. -/
theorem mem_inconsistent {plus : Int → Int → Int} {net : Network}
    (clear : (net.cycleSearch plus (net.vars + 1)).onCycle = []) (i : Nat) :
    i ∈ (net.solve plus).inconsistent ↔ i < net.vars ∧
      ∃ a b, (net.shortest plus (net.vars + 1) false).dist (node i) = some a ∧
        (net.shortest plus (net.vars + 1) true).dist (node i) = some b ∧ a < -b := by
  have none_ : net.negativeCycles plus (net.vars + 1) = [] := by
    rw [Network.negativeCycles]
    dsimp only
    rw [clear]
    rfl
  rw [Network.solve]
  dsimp only
  rw [Network.mem_sorted_dedup, none_, List.filter_nil, List.map_nil, List.nil_append,
    List.mem_filter, List.mem_range]
  refine and_congr_right fun _ => ?_
  cases (net.shortest plus (net.vars + 1) false).dist (node i) with
  | none => cases (net.shortest plus (net.vars + 1) true).dist (node i) <;> simp
  | some a => cases (net.shortest plus (net.vars + 1) true).dist (node i) <;> simp

section
variable {f : Nat → Nat} {old : Nat → Bool} {ascending : StrictMono f}
  {old_iff : ∀ j, old j = true ↔ ∃ i, f i = j} {small large : Network}
  {plus : Int → Int → Int}
  (framed : Framed (Placing.ofVars f old ascending old_iff) small large)
  (patient : Patient plus small)
include framed

theorem var_inside (i : Nat) : f i < large.vars ↔ i < small.vars := by
  have inside := framed.inside (node i)
  have there : (Placing.ofVars f old ascending old_iff).to_ (node i) = node (f i) := rfl
  rw [there, node, node] at inside
  omega

include patient

theorem solve_placed (i : Nat) :
    ((large.solve plus).upper[f i]?).join = ((small.solve plus).upper[i]?).join ∧
    ((large.solve plus).lower[f i]?).join = ((small.solve plus).lower[i]?).join ∧
    ((large.solve plus).upperBy[f i]?).join = ((small.solve plus).upperBy[i]?).join ∧
    ((large.solve plus).lowerBy[f i]?).join = ((small.solve plus).lowerBy[i]?).join := by
  have up := framed.shortest false patient.up
  have down := framed.shortest true patient.down
  have inside : f i < large.vars ↔ i < small.vars := var_inside framed i
  rw [Network.solve, Network.solve]
  dsimp only
  simp only [range_join, inside]
  refine ⟨?_, ?_, ?_, ?_⟩
  · exact if_congr Iff.rfl (up.dist (node i)) rfl
  · exact if_congr Iff.rfl (congrArg _ (down.dist (node i))) rfl
  · exact if_congr Iff.rfl (up.cause (node i)) rfl
  · exact if_congr Iff.rfl (down.cause (node i)) rfl

theorem inconsistent_placed (i : Nat) :
    f i ∈ (large.solve plus).inconsistent ↔ i ∈ (small.solve plus).inconsistent := by
  have up := (framed.shortest false patient.up).dist (node i)
  have down := (framed.shortest true patient.down).dist (node i)
  have there : (Placing.ofVars f old ascending old_iff).to_ (node i) = node (f i) := rfl
  rw [there] at up down
  rw [mem_inconsistent (framed.cycles patient.cycles), mem_inconsistent patient.cycles, up, down,
    var_inside framed i]

omit patient in
/-- The bounds of a further variable are those of its own constraints. -/
theorem upper_new {j : Nat} (new : old j = false) {d : Int}
    (bound : (large.shortest plus (large.vars + 1) false).dist (node j) = some d) :
    ∃ e ∈ large.edges, e.src = reference ∧ e.dst = node j ∧ d = plus 0 e.weight := by
  obtain ⟨a, mem, head, value⟩ := (framed.new_label false).2 (node j) d new bound
  obtain ⟨e, held, src, _, rfl⟩ := (large.mem_arcs_forward _ a).mp mem
  exact ⟨e, held, src, head, value⟩

omit patient in
theorem lower_new {j : Nat} (new : old j = false) {d : Int}
    (bound : (large.shortest plus (large.vars + 1) true).dist (node j) = some d) :
    ∃ e ∈ large.edges, e.src = node j ∧ e.dst = reference ∧ d = plus 0 e.weight := by
  obtain ⟨a, mem, head, value⟩ := (framed.new_label true).2 (node j) d new bound
  obtain ⟨e, held, dst, _, rfl⟩ := (large.mem_arcs_backward _ a).mp mem
  exact ⟨e, held, head, dst, value⟩

/-- A further variable is found impossible only where its own constraints are. -/
theorem consistent_new {j : Nat} (new : old j = false)
    (apart : ∀ e ∈ large.edges, ∀ e' ∈ large.edges, e.src = reference → e.dst = node j →
      e'.src = node j → e'.dst = reference → 0 ≤ plus 0 e.weight + plus 0 e'.weight) :
    j ∉ (large.solve plus).inconsistent := by
  rw [mem_inconsistent (framed.cycles patient.cycles)]
  rintro ⟨_, a, b, up, down, less⟩
  obtain ⟨e, held, src, dst, rfl⟩ := upper_new framed new up
  obtain ⟨e', held', src', dst', rfl⟩ := lower_new framed new down
  have wide := apart e held e' held' src dst src' dst'
  omega

end

end Stn
end Smysl
