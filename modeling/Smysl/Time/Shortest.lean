import Smysl.Time.Saturating

/-!
What the network solver answers. The search stops at a node lowered more often than
there are nodes, and a node with enough edges into it is lowered that often without
any cycle; where this happens only for a negative cycle, the solver finds a network
impossible exactly when it is, and its bounds are the distances.
-/
namespace Smysl
namespace Stn
open Weighted

namespace Network
variable (net : Network)

/-- The constraints as a graph. -/
def Constrained (u v : Nat) (k : Int) : Prop :=
  ∃ e ∈ net.edges, e.src = u ∧ e.dst = v ∧ e.weight = k

/-- Every constraint is between nodes of the network. -/
def Proper : Prop := ∀ e ∈ net.edges, e.src ≤ net.vars ∧ e.dst ≤ net.vars

/-- The condition: no constraint of the reference on itself fails, and where the constraints
between subjects have no negative cycle, no search gives up on a node. -/
structure Settles : Prop where
  loops : ∀ e ∈ net.edges, e.src = reference → e.dst = reference → 0 ≤ e.weight
  searches : Nonnegative (Linked net.inner) →
    (net.shortest exactSum (net.vars + 1) false).onCycle = [] ∧
    (net.shortest exactSum (net.vars + 1) true).onCycle = [] ∧
    (net.cycleSearch exactSum (net.vars + 1)).onCycle = []

/-- What is tight for the upper bound of a variable. -/
def tightAbove (v : Nat) : Set Nat :=
  { b | ∃ e ∈ net.edges, e.dst = node v ∧ e.cause = b ∧
    ∃ d, Distance net.Constrained reference e.src d ∧
      Distance net.Constrained reference (node v) (d + e.weight) }

/-- What is tight for the lower bound of a variable. -/
def tightBelow (v : Nat) : Set Nat :=
  { b | ∃ e ∈ net.edges, e.src = node v ∧ e.cause = b ∧
    ∃ d, Distance net.Constrained e.dst reference d ∧
      Distance net.Constrained (node v) reference (d + e.weight) }

/-! The three graphs searched. -/

theorem mem_arcs_forward (u : Nat) (a : Arc) : a ∈ net.arcs false u ↔
    ∃ e ∈ net.edges, e.src = u ∧ e.dst ≠ reference ∧ a = ⟨e.dst, e.weight, e.cause⟩ := by
  rw [arcs, List.mem_filterMap]
  refine exists_congr fun e => and_congr_right fun _ => ?_
  change (if e.src = u ∧ e.dst ≠ reference then some (⟨e.dst, e.weight, e.cause⟩ : Arc) else none) =
    some a ↔ _
  split
  · rename_i here
    exact ⟨fun same => ⟨here.1, here.2, (Option.some.inj same).symm⟩,
      fun ⟨_, _, same⟩ => congrArg some same.symm⟩
  · rename_i apart
    exact ⟨fun none => (nomatch none), fun ⟨src, dst, _⟩ => absurd ⟨src, dst⟩ apart⟩

theorem mem_arcs_backward (u : Nat) (a : Arc) : a ∈ net.arcs true u ↔
    ∃ e ∈ net.edges, e.dst = u ∧ e.src ≠ reference ∧ a = ⟨e.src, e.weight, e.cause⟩ := by
  rw [arcs, List.mem_filterMap]
  refine exists_congr fun e => and_congr_right fun _ => ?_
  change (if e.dst = u ∧ e.src ≠ reference then some (⟨e.src, e.weight, e.cause⟩ : Arc) else none) =
    some a ↔ _
  split
  · rename_i here
    exact ⟨fun same => ⟨here.1, here.2, (Option.some.inj same).symm⟩,
      fun ⟨_, _, same⟩ => congrArg some same.symm⟩
  · rename_i apart
    exact ⟨fun none => (nomatch none), fun ⟨src, dst, _⟩ => absurd ⟨src, dst⟩ apart⟩

theorem mem_inner (u : Nat) (a : Arc) : a ∈ net.inner u ↔
    ∃ e ∈ net.edges, e.src = u ∧ e.src ≠ reference ∧ e.dst ≠ reference ∧
      a = ⟨e.dst, e.weight, e.cause⟩ := by
  rw [inner, List.mem_filterMap]
  refine exists_congr fun e => and_congr_right fun _ => ?_
  split
  · rename_i here
    exact ⟨fun same => ⟨here.1, here.2.1, here.2.2, (Option.some.inj same).symm⟩,
      fun ⟨_, _, _, same⟩ => congrArg some same.symm⟩
  · rename_i apart
    exact ⟨fun none => (nomatch none), fun ⟨here, src, dst, _⟩ => absurd ⟨here, src, dst⟩ apart⟩

theorem linked_forward : Linked (net.arcs false) = Away net.Constrained reference := by
  ext u v k
  constructor
  · rintro ⟨a, mem, rfl, rfl⟩
    obtain ⟨e, held, src, dst, rfl⟩ := (net.mem_arcs_forward u a).mp mem
    exact ⟨⟨e, held, src, rfl, rfl⟩, dst⟩
  · rintro ⟨⟨e, held, src, rfl, rfl⟩, dst⟩
    exact ⟨_, (net.mem_arcs_forward u _).mpr ⟨e, held, src, dst, rfl⟩, rfl, rfl⟩

theorem linked_backward : Linked (net.arcs true) = Away (Back net.Constrained) reference := by
  ext u v k
  constructor
  · rintro ⟨a, mem, rfl, rfl⟩
    obtain ⟨e, held, dst, src, rfl⟩ := (net.mem_arcs_backward u a).mp mem
    exact ⟨⟨e, held, rfl, dst, rfl⟩, src⟩
  · rintro ⟨⟨e, held, rfl, dst, rfl⟩, src⟩
    exact ⟨_, (net.mem_arcs_backward u _).mpr ⟨e, held, dst, src, rfl⟩, rfl, rfl⟩

theorem linked_inner : Linked net.inner =
    fun u v k => net.Constrained u v k ∧ u ≠ reference ∧ v ≠ reference := by
  ext u v k
  constructor
  · rintro ⟨a, mem, rfl, rfl⟩
    obtain ⟨e, held, here, src, dst, rfl⟩ := (net.mem_inner u a).mp mem
    exact ⟨⟨e, held, here, rfl, rfl⟩, here ▸ src, dst⟩
  · rintro ⟨⟨e, held, here, rfl, rfl⟩, src, dst⟩
    exact ⟨_, (net.mem_inner u _).mpr ⟨e, held, here, here ▸ src, dst, rfl⟩, rfl, rfl⟩

theorem arcs_away (reverse : Bool) (u : Nat) : ∀ a ∈ net.arcs reverse u, a.head ≠ reference := by
  intro a mem
  cases reverse with
  | false =>
    obtain ⟨e, _, _, dst, rfl⟩ := (net.mem_arcs_forward u a).mp mem
    exact dst
  | true =>
    obtain ⟨e, _, _, src, rfl⟩ := (net.mem_arcs_backward u a).mp mem
    exact src

variable {net}

theorem Proper.arcs_inside (proper : net.Proper) (reverse : Bool) (u : Nat) :
    ∀ a ∈ net.arcs reverse u, a.head < net.vars + 1 := by
  intro a mem
  cases reverse with
  | false =>
    obtain ⟨e, held, _, _, rfl⟩ := (net.mem_arcs_forward u a).mp mem
    exact Nat.lt_succ_of_le (proper e held).2
  | true =>
    obtain ⟨e, held, _, _, rfl⟩ := (net.mem_arcs_backward u a).mp mem
    exact Nat.lt_succ_of_le (proper e held).1

variable (net)

theorem shortest_eq (n : Nat) (reverse : Bool) :
    net.shortest exactSum n reverse = searched (net.arcs reverse) n := rfl

theorem cycle_search_eq (n : Nat) : net.cycleSearch exactSum n =
    run (fun u st => (net.inner u).foldl (scanArc n u) st) (enough n)
      { dist := fun _ => some 0
        cause := fun _ => none
        relaxations := fun _ => 0
        queue := List.range n
        onCycle := [] } := rfl

variable {net}

/-- The search for cycles: no reference is given up on, and where nothing is, no cycle between
subjects is negative. -/
theorem Proper.cycle_search (proper : net.Proper) :
    (∀ v ∈ (net.cycleSearch exactSum (net.vars + 1)).onCycle, v ≠ reference) ∧
      ((net.cycleSearch exactSum (net.vars + 1)).onCycle = [] →
        Nonnegative (Linked net.inner)) := by
  have away (u : Nat) : ∀ a ∈ net.inner u, a.head ≠ reference := by
    intro a mem
    obtain ⟨e, _, _, _, dst, rfl⟩ := (net.mem_inner u a).mp mem
    exact dst
  have inside (u : Nat) : ∀ a ∈ net.inner u, a.head < net.vars + 1 := by
    intro a mem
    obtain ⟨e, held, _, _, _, rfl⟩ := (net.mem_inner u a).mp mem
    exact Nat.lt_succ_of_le (proper e held).2
  rw [cycle_search_eq]
  generalize run_ : run _ _ _ = st
  have circling : Circling net.inner none st := by
    rw [← run_]
    refine run_keeps (fun u rest st queue circling => circling.scan (away u) queue) _ _ ?_
    refine ⟨fun _ => ⟨0, rfl⟩, fun _ mem => absurd mem List.not_mem_nil,
      fun _ u _ unqueued a mem => ?_⟩
    obtain ⟨e, held, src, _⟩ := (net.mem_inner u a).mp mem
    have low := (proper e held).1
    exact absurd (List.mem_range.mpr (by omega)) unqueued
  have emptied : st.queue = [] := by
    rw [← run_]
    refine run_done (fun u st => scan_arcs_measure (inside u)) _ _ ?_
    rw [fresh_measure _ rfl, List.length_range, enough]
    omega
  refine ⟨circling.subjects, fun onward => ?_⟩
  refine nonnegative_of_label (p := fun v => (st.dist v).getD 0) ?_
  rintro u v k ⟨a, mem, rfl, rfl⟩
  have unqueued : u ∉ st.queue := by
    rw [emptied]
    exact List.not_mem_nil
  obtain ⟨du, dv, source, target, low⟩ :=
    circling.short onward u (by rintro ⟨⟩) unqueued a mem
  rw [source, target]
  exact low

/-! What is found impossible. -/

theorem push_unseen_named (wanted : Nat → Bool) (next : List Nat)
    (st : List Nat × List Nat × List Nat) {v : Nat} (mem : v ∈ st.2.2) :
    v ∈ (pushUnseen wanted next st).2.2 := by
  rw [pushUnseen]
  induction next generalizing st with
  | nil => exact mem
  | cons x next ih =>
    apply ih
    dsimp only
    split
    · exact mem
    · exact List.mem_append_left _ mem

/-- What is named stays named. -/
theorem spread_named (wanted : Nat → Bool) (next : Nat → List Nat) (fuel : Nat)
    (st : List Nat × List Nat × List Nat) {v : Nat} (mem : v ∈ st.2.2) :
    v ∈ (spread wanted next fuel st).2 := by
  induction fuel generalizing st with
  | zero => exact mem
  | succ fuel ih =>
    obtain ⟨stack, seen, named⟩ := st
    cases stack with
    | nil => exact mem
    | cons u stack => exact ih _ (push_unseen_named wanted (next u) (stack, seen, named) mem)

theorem sorted_dedup_eq_nil (l : List Nat) : (l.mergeSort (· ≤ ·)).dedup = [] ↔ l = [] := by
  rw [List.dedup_eq_nil, ← List.length_eq_zero_iff, List.length_mergeSort,
    List.length_eq_zero_iff]

theorem mem_sorted_dedup (l : List Nat) (v : Nat) : v ∈ (l.mergeSort (· ≤ ·)).dedup ↔ v ∈ l := by
  rw [List.mem_dedup, List.mem_mergeSort]

/-- Every node given up on is named. -/
theorem mem_negative_cycles {plus : Int → Int → Int} {n v : Nat}
    (mem : v ∈ (net.cycleSearch plus n).onCycle) : v ∈ net.negativeCycles plus n := by
  rw [negativeCycles]
  dsimp only
  rw [if_neg (fun empty => List.ne_nil_of_mem mem (List.isEmpty_iff.mp empty)), mem_sorted_dedup]
  exact spread_named _ _ _ _ (spread_named _ _ _ _ mem)

theorem negative_cycles_eq_nil {n : Nat} (none : (net.cycleSearch exactSum n).onCycle = []) :
    net.negativeCycles exactSum n = [] := by
  rw [negativeCycles]
  dsimp only
  rw [none]
  rfl

variable (net) in
/-- The bounds of a variable cross. -/
def Crossed (v : Nat) : Prop :=
  ∃ a b, (net.shortest exactSum (net.vars + 1) false).dist (node v) = some a ∧
    (net.shortest exactSum (net.vars + 1) true).dist (node v) = some b ∧ a < -b

/-- Nothing is found impossible where no node is given up on and no bounds cross. -/
theorem Proper.inconsistent_eq_nil (proper : net.Proper) :
    (net.solve exactSum).inconsistent = [] ↔
      (net.cycleSearch exactSum (net.vars + 1)).onCycle = [] ∧
        ∀ v < net.vars, ¬ net.Crossed v := by
  rw [solve]
  dsimp only
  rw [sorted_dedup_eq_nil, List.append_eq_nil_iff, List.map_eq_nil_iff, List.filter_eq_nil_iff,
    List.filter_eq_nil_iff]
  refine and_congr ⟨fun none => ?_, fun none v mem => ?_⟩ ?_
  · refine List.eq_nil_iff_forall_not_mem.mpr fun v mem => ?_
    refine none v (mem_negative_cycles mem) ?_
    rw [bne_iff_ne]
    exact proper.cycle_search.1 v mem
  · rw [negative_cycles_eq_nil none] at mem
    cases mem
  · refine forall_congr' fun v => ?_
    rw [List.mem_range]
    refine imp_congr_right fun _ => not_congr ?_
    rw [Crossed]
    cases (net.shortest exactSum (net.vars + 1) false).dist (node v) with
    | none =>
      cases (net.shortest exactSum (net.vars + 1) true).dist (node v) <;> simp
    | some a =>
      cases (net.shortest exactSum (net.vars + 1) true).dist (node v) <;> simp

/-! What the labels are. -/

theorem node_ne_reference (v : Nat) : node v ≠ reference := Nat.succ_ne_zero v

/-- Neither search from the reference gives up on a node. -/
structure Onward (net : Network) : Prop where
  up : (net.shortest exactSum (net.vars + 1) false).onCycle = []
  down : (net.shortest exactSum (net.vars + 1) true).onCycle = []

theorem label_inside (proper : net.Proper) {reverse : Bool} {v : Nat} {d : Int}
    (labelled : (net.shortest exactSum (net.vars + 1) reverse).dist v = some d) :
    v ≤ net.vars := by
  rw [shortest_eq] at labelled
  have sound := (searched_sound (net.arcs_away reverse) (proper.arcs_inside reverse)).1.sound
  rcases sound.reached v d labelled with rfl | ⟨b, named⟩
  · exact Nat.zero_le _
  · obtain ⟨u, a, mem, rfl, _⟩ := sound.caused v b named
    exact Nat.le_of_lt_succ (proper.arcs_inside reverse u a mem)

theorem Onward.up_settled (onward : net.Onward) (proper : net.Proper) :
    Settled (Away net.Constrained reference)
      (net.shortest exactSum (net.vars + 1) false).dist := by
  rw [← linked_forward]
  rintro u du labelled v k ⟨a, mem, rfl, rfl⟩
  obtain ⟨dv, held, low, _⟩ := searched_relaxed (net.arcs_away false) (proper.arcs_inside false)
    onward.up u du labelled a mem
  exact ⟨dv, held, low⟩

theorem Onward.down_settled (onward : net.Onward) (proper : net.Proper) :
    Settled (Away (Back net.Constrained) reference)
      (net.shortest exactSum (net.vars + 1) true).dist := by
  rw [← linked_backward]
  rintro u du labelled v k ⟨a, mem, rfl, rfl⟩
  obtain ⟨dv, held, low, _⟩ := searched_relaxed (net.arcs_away true) (proper.arcs_inside true)
    onward.down u du labelled a mem
  exact ⟨dv, held, low⟩

section
variable (onward : net.Onward) (proper : net.Proper) (possible : Nonnegative net.Constrained)
include onward proper possible

theorem up_distance (v : Nat) (d : Int) :
    (net.shortest exactSum (net.vars + 1) false).dist v = some d ↔
      Distance net.Constrained reference v d := by
  rw [shortest_eq, searched_distance (net.arcs_away false) (proper.arcs_inside false) onward.up,
    linked_forward, away_distance possible]

theorem down_distance (v : Nat) (d : Int) :
    (net.shortest exactSum (net.vars + 1) true).dist v = some d ↔
      Distance net.Constrained v reference d := by
  rw [shortest_eq, searched_distance (net.arcs_away true) (proper.arcs_inside true) onward.down,
    linked_backward, away_distance (back_nonnegative possible), back_distance]

theorem up_cause (v b : Nat) :
    (net.shortest exactSum (net.vars + 1) false).cause (node v) = some b ↔
      IsLeast (net.tightAbove v) b := by
  rw [shortest_eq, searched_cause (net.arcs_away false) (proper.arcs_inside false) onward.up
    (node_ne_reference v)]
  have same : tightCauses (net.arcs false) (node v) = net.tightAbove v := by
    ext c
    constructor
    · rintro ⟨u, a, mem, head, cause, d, source, target⟩
      obtain ⟨e, held, rfl, _, rfl⟩ := (net.mem_arcs_forward u a).mp mem
      rw [linked_forward, away_distance possible] at source target
      exact ⟨e, held, head, cause, d, source, target⟩
    · rintro ⟨e, held, head, cause, d, source, target⟩
      refine ⟨e.src, ⟨e.dst, e.weight, e.cause⟩, ?_, head, cause, d, ?_, ?_⟩
      · exact (net.mem_arcs_forward _ _).mpr
          ⟨e, held, rfl, head ▸ node_ne_reference v, rfl⟩
      · rwa [linked_forward, away_distance possible]
      · rwa [linked_forward, away_distance possible]
  rw [same]

theorem down_cause (v b : Nat) :
    (net.shortest exactSum (net.vars + 1) true).cause (node v) = some b ↔
      IsLeast (net.tightBelow v) b := by
  rw [shortest_eq, searched_cause (net.arcs_away true) (proper.arcs_inside true) onward.down
    (node_ne_reference v)]
  have backward := away_distance (s := reference) (back_nonnegative possible)
  have same : tightCauses (net.arcs true) (node v) = net.tightBelow v := by
    ext c
    constructor
    · rintro ⟨u, a, mem, head, cause, d, source, target⟩
      obtain ⟨e, held, rfl, _, rfl⟩ := (net.mem_arcs_backward u a).mp mem
      rw [linked_backward, backward, back_distance] at source target
      exact ⟨e, held, head, cause, d, source, target⟩
    · rintro ⟨e, held, head, cause, d, source, target⟩
      refine ⟨e.dst, ⟨e.src, e.weight, e.cause⟩, ?_, head, cause, d, ?_, ?_⟩
      · exact (net.mem_arcs_backward _ _).mpr
          ⟨e, held, rfl, head ▸ node_ne_reference v, rfl⟩
      · rwa [linked_backward, backward, back_distance]
      · rwa [linked_backward, backward, back_distance]
  rw [same]

end

/-! The answer. -/

theorem inner_nonnegative (possible : Nonnegative net.Constrained) :
    Nonnegative (Linked net.inner) := by
  rw [linked_inner]
  exact fun v w walk => possible v w (walk.mono (fun _ _ _ edge => edge.1))

theorem Settles.onward (settles : net.Settles) (apart : Nonnegative (Linked net.inner)) :
    net.Onward := ⟨(settles.searches apart).1, (settles.searches apart).2.1⟩

/-- Where no bounds cross, no cycle through the reference is negative. -/
theorem Settles.possible (settles : net.Settles) (proper : net.Proper)
    (apart : Nonnegative (Linked net.inner)) (uncrossed : ∀ v < net.vars, ¬ net.Crossed v) :
    Nonnegative net.Constrained := by
  have onward := settles.onward apart
  rw [linked_inner] at apart
  refine nonnegative_of_apart apart ?_
  refine through_nonnegative (onward.up_settled proper) (onward.down_settled proper) ?_ ?_ ?_ ?_
  · exact (searched_sound (net.arcs_away false) (proper.arcs_inside false)).1.sound.start
  · exact (searched_sound (net.arcs_away true) (proper.arcs_inside true)).1.sound.start
  · rintro k ⟨e, held, src, dst, rfl⟩
    exact settles.loops e held src dst
  · intro v a b subject up down
    obtain ⟨x, rfl⟩ : ∃ x, v = node x := Nat.exists_eq_succ_of_ne_zero subject
    have inside : x < net.vars := label_inside proper up
    have apart : ¬ a < -b := fun less => uncrossed x inside ⟨a, b, up, down, less⟩
    omega

/-- Nothing is found impossible exactly where no cycle is negative. -/
theorem Settles.inconsistent_iff (settles : net.Settles) (proper : net.Proper) :
    (net.solve exactSum).inconsistent = [] ↔ Nonnegative net.Constrained := by
  rw [proper.inconsistent_eq_nil]
  constructor
  · rintro ⟨clear, uncrossed⟩
    exact settles.possible proper (proper.cycle_search.2 clear) uncrossed
  · intro possible
    have apart := inner_nonnegative possible
    have onward := settles.onward apart
    refine ⟨(settles.searches apart).2.2, fun v _ ⟨a, b, up, down, less⟩ => ?_⟩
    have there := ((up_distance onward proper possible _ _).mp up).1
    have back := ((down_distance onward proper possible _ _).mp down).1
    have around := possible _ _ (there.append back)
    omega

variable (net) in
/-- The bounds and attributions of a solution are the least walks and the least of what is tight. -/
structure Tightest (s : Solution) (v : Nat) : Prop where
  upper : ∀ d, s.upper[v]? = some (some d) ↔ Distance net.Constrained reference (node v) d
  lower : ∀ d, s.lower[v]? = some (some d) ↔ Distance net.Constrained (node v) reference (-d)
  upperBy : ∀ b, s.upperBy[v]? = some (some b) ↔ IsLeast (net.tightAbove v) b
  lowerBy : ∀ b, s.lowerBy[v]? = some (some b) ↔ IsLeast (net.tightBelow v) b

theorem getElem_map_range {α : Type} {f : Nat → α} {n v : Nat} (inside : v < n) (a : α) :
    ((List.range n).map f)[v]? = some a ↔ f v = a := by
  rw [List.getElem?_map, List.getElem?_range inside, Option.map_some, Option.some_inj]

theorem solve_tightest (onward : net.Onward) (proper : net.Proper)
    (possible : Nonnegative net.Constrained) {v : Nat} (inside : v < net.vars) :
    net.Tightest (net.solve exactSum) v := by
  constructor
  · intro d
    exact (getElem_map_range inside _).trans (up_distance onward proper possible _ d)
  · intro d
    refine (getElem_map_range inside _).trans ?_
    rw [← down_distance onward proper possible, Option.map_eq_some_iff]
    constructor
    · rintro ⟨e, labelled, rfl⟩
      rwa [neg_neg]
    · intro labelled
      exact ⟨-d, labelled, neg_neg d⟩
  · intro b
    exact (getElem_map_range inside _).trans (up_cause onward proper possible v b)
  · intro b
    exact (getElem_map_range inside _).trans (down_cause onward proper possible v b)

/-! The order of the constraints. -/

theorem solution_eq {s t : Solution} (upper : s.upper = t.upper) (lower : s.lower = t.lower)
    (upperBy : s.upperBy = t.upperBy) (lowerBy : s.lowerBy = t.lowerBy)
    (inconsistent : s.inconsistent = t.inconsistent) : s = t := by
  cases s
  cases t
  cases upper
  cases lower
  cases upperBy
  cases lowerBy
  cases inconsistent
  rfl

/-- A list of one value for each variable, by what it holds. -/
theorem map_range_eq {α : Type} {f g : Nat → Option α} (n : Nat)
    (same : ∀ v a, f v = some a ↔ g v = some a) :
    (List.range n).map f = (List.range n).map g :=
  List.map_congr_left fun v _ => Option.ext fun a => same v a

section
variable {other : Network} (vars : other.vars = net.vars)
  (edges : ∀ e, e ∈ other.edges ↔ e ∈ net.edges)
include edges

theorem constrained_same : other.Constrained = net.Constrained := by
  ext u v k
  exact exists_congr fun e => and_congr_left fun _ => edges e

theorem tight_above_same (v : Nat) : other.tightAbove v = net.tightAbove v := by
  ext b
  rw [tightAbove, tightAbove, constrained_same edges]
  exact exists_congr fun e => and_congr_left fun _ => edges e

theorem tight_below_same (v : Nat) : other.tightBelow v = net.tightBelow v := by
  ext b
  rw [tightBelow, tightBelow, constrained_same edges]
  exact exists_congr fun e => and_congr_left fun _ => edges e

include vars

/-- The same constraints in another order have the same solution. -/
theorem solve_same (proper : net.Proper) (settles : net.Settles) (settles' : other.Settles)
    (possible : Nonnegative net.Constrained) : other.solve exactSum = net.solve exactSum := by
  have same := constrained_same edges
  have possible' : Nonnegative other.Constrained := same ▸ possible
  have proper' : other.Proper := fun e held => vars ▸ proper e ((edges e).mp held)
  have onward := settles.onward (inner_nonnegative possible)
  have onward' := settles'.onward (inner_nonnegative possible')
  have up (v : Nat) (d : Int) := up_distance onward' proper' possible' (node v) d
  have down (v : Nat) (d : Int) := down_distance onward' proper' possible' (node v) d
  have upBy (v b : Nat) := up_cause onward' proper' possible' v b
  have downBy (v b : Nat) := down_cause onward' proper' possible' v b
  rw [vars] at up down upBy downBy
  apply solution_eq
  · rw [solve, solve]
    dsimp only
    rw [vars]
    refine map_range_eq _ fun v d => (up v d).trans ?_
    rw [same]
    exact (up_distance onward proper possible _ d).symm
  · rw [solve, solve]
    dsimp only
    rw [vars]
    refine List.map_congr_left fun v _ => congrArg _ (Option.ext fun d => (down v d).trans ?_)
    rw [same]
    exact (down_distance onward proper possible _ d).symm
  · rw [solve, solve]
    dsimp only
    rw [vars]
    refine map_range_eq _ fun v b => (upBy v b).trans ?_
    rw [tight_above_same edges]
    exact (up_cause onward proper possible v b).symm
  · rw [solve, solve]
    dsimp only
    rw [vars]
    refine map_range_eq _ fun v b => (downBy v b).trans ?_
    rw [tight_below_same edges]
    exact (down_cause onward proper possible v b).symm
  · rw [(settles.inconsistent_iff proper).mpr possible,
      (settles'.inconsistent_iff proper').mpr possible']

end

/-- A subject in bounds, no later than another. -/
def ordered : Network := (((Network.mk 2 []).lower 0 10 1).upper 1 20 2).noLater 0 1 0 3

/-- Four orderings of two subjects, each tighter than the one before. -/
def tightening : Network where
  vars := 2
  edges := [⟨1, 2, -1, 0⟩, ⟨1, 2, -2, 1⟩, ⟨1, 2, -3, 2⟩, ⟨1, 2, -4, 3⟩]

end Network
end Stn
end Smysl
