import Mathlib.Data.List.MinMax
import Smysl.Lib.Descent
import Smysl.Lib.OrdMap

/-!
Kahn's algorithm: a node is ordered once everything it points at is, the least first. What
is left unordered is what leads into a cycle, and the groups of what leads into each other
part it.
-/
namespace Kahn
open Relation

variable {K : Type} [LinearOrder K]

/-- What each node still waits for, what waits for nothing, and what is ordered. -/
structure State (K : Type) [LinearOrder K] where
  pending : BTreeMap K Nat
  ready : List K
  order : List K

/-- One dependent less is waited for. -/
def relax (order : List K) (state : BTreeMap K Nat × List K) (d : K) :
    BTreeMap K Nat × List K :=
  let p := (state.1.get d).getD 0 - 1
  (state.1.insert d p, if p = 0 ∧ d ∉ order then d :: state.2 else state.2)

/-- Pop the least that is ready, at most so often. -/
def run (incoming : K → List K) : Nat → State K → State K
  | 0, state => state
  | pops + 1, state =>
    match state.ready.min? with
    | none => state
    | some node =>
      let ready := state.ready.erase node
      if node ∈ state.order then run incoming pops { state with ready }
      else
        let order := state.order ++ [node]
        let relaxed := (incoming node).foldl (relax order) (state.pending, ready)
        run incoming pops ⟨relaxed.1, relaxed.2, order⟩

theorem relax_all (order : List K) (ds : List K) (nodup : ds.Nodup)
    (state : BTreeMap K Nat × List K) :
    (∀ v, (ds.foldl (relax order) state).1.get v =
      if v ∈ ds then some ((state.1.get v).getD 0 - 1) else state.1.get v) ∧
    (ds.foldl (relax order) state).2.Perm
      (ds.filter (fun d => decide ((state.1.get d).getD 0 - 1 = 0 ∧ d ∉ order)) ++ state.2) := by
  induction ds generalizing state with
  | nil => exact ⟨fun v => by rw [if_neg List.not_mem_nil]; rfl, List.Perm.refl _⟩
  | cons d ds ih =>
    obtain ⟨fresh, nodup⟩ := List.nodup_cons.mp nodup
    obtain ⟨counts, ready⟩ := ih nodup (relax order state d)
    have others : ∀ v ∈ ds, (relax order state d).1.get v = state.1.get v := by
      intro v mem
      rw [relax]
      dsimp only
      rw [BTreeMap.get_insert, if_neg]
      intro same
      rw [same] at mem
      exact fresh mem
    rw [List.foldl_cons]
    constructor
    · intro v
      rw [counts v]
      by_cases here : v = d
      · rw [here, if_neg fresh, if_pos List.mem_cons_self, relax]
        dsimp only
        rw [BTreeMap.get_insert, if_pos rfl]
      · by_cases later : v ∈ ds
        · rw [if_pos later, if_pos (List.mem_cons_of_mem d later), others v later]
        · rw [if_neg later, if_neg, relax]
          · dsimp only
            rw [BTreeMap.get_insert, if_neg here]
          · intro mem
            rcases List.mem_cons.mp mem with same | mem
            · exact here same
            · exact later mem
    · apply ready.trans
      have same : ds.filter (fun e => decide (((relax order state d).1.get e).getD 0 - 1 = 0 ∧
          e ∉ order)) = ds.filter (fun e => decide ((state.1.get e).getD 0 - 1 = 0 ∧
            e ∉ order)) := by
        apply List.filter_congr
        intro e mem
        rw [others e mem]
      rw [same, relax]
      dsimp only
      by_cases now : (state.1.get d).getD 0 - 1 = 0 ∧ d ∉ order
      · rw [if_pos now, List.filter_cons, if_pos (decide_eq_true now), List.cons_append]
        exact List.perm_middle
      · rw [if_neg now, List.filter_cons, if_neg (by rw [decide_eq_true_eq]; exact now)]

section
variable (out : K → List K)

/-- How many of what a node points at are not ordered. -/
def waiting (order : List K) (v : K) : Nat := ((out v).filter (fun m => decide (m ∉ order))).length

theorem waiting_none_iff (order : List K) (v : K) :
    waiting out order v = 0 ↔ ∀ m ∈ out v, m ∈ order := by
  rw [waiting, List.length_eq_zero_iff, List.filter_eq_nil_iff]
  simp only [decide_eq_true_eq, not_not]

theorem waiting_start (v : K) : waiting out [] v = (out v).length := by
  rw [waiting, List.filter_eq_self.mpr fun m _ => decide_eq_true List.not_mem_nil]

theorem waiting_append {order : List K} {node v : K} (nodup : (out v).Nodup)
    (fresh : node ∉ order) : waiting out (order ++ [node]) v =
      if node ∈ out v then waiting out order v - 1 else waiting out order v := by
  have part : (out v).filter (fun m => decide (m ∉ order ++ [node])) =
      ((out v).filter (fun m => decide (m ∉ order))).erase node := by
    rw [(nodup.filter _).erase_eq_filter, List.filter_filter]
    apply List.filter_congr
    intro m _
    rw [Bool.eq_iff_iff, decide_eq_true_eq, List.mem_append, List.mem_singleton, Bool.and_eq_true,
      decide_eq_true_eq, bne_iff_ne, not_or]
    exact and_comm
  rw [waiting, part, List.length_erase, waiting]
  by_cases names : node ∈ out v
  · rw [if_pos names, if_pos (List.mem_filter.mpr ⟨names, decide_eq_true fresh⟩)]
  · rw [if_neg names, if_neg fun mem => names (List.mem_filter.mp mem).1]

end

/-- A graph with the edges of each node both ways. -/
structure Graph (nodes : List K) (out incoming : K → List K) : Prop where
  nodup : nodes.Nodup
  mirrored : ∀ n m, m ∈ out n ↔ n ∈ incoming m
  inside : ∀ n m, m ∈ out n → n ∈ nodes ∧ m ∈ nodes
  outOnce : ∀ n, (out n).Nodup
  incomingOnce : ∀ n, (incoming n).Nodup

/-- What the loop keeps: the counts are of what is not ordered, what is ready is what waits
for nothing, and what is ordered comes after what it points at. -/
structure Sorted (nodes : List K) (out : K → List K) (state : State K) : Prop where
  counted : ∀ v ∈ nodes, state.pending.get v = some (waiting out state.order v)
  ready : ∀ v, v ∈ state.ready ↔
    v ∈ nodes ∧ v ∉ state.order ∧ ∀ m ∈ out v, m ∈ state.order
  readyOnce : state.ready.Nodup
  once : state.order.Nodup
  inside : ∀ v ∈ state.order, v ∈ nodes
  after : ∀ pre v post, state.order = pre ++ v :: post → ∀ m ∈ out v, m ∈ pre

variable {nodes : List K} {out incoming : K → List K}

theorem Sorted.closed {state : State K} (sorted : Sorted nodes out state) {v m : K}
    (mem : v ∈ state.order) (names : m ∈ out v) : m ∈ state.order := by
  obtain ⟨pre, post, parts⟩ := List.append_of_mem mem
  rw [parts]
  exact List.mem_append_left _ (sorted.after pre v post parts m names)

/-- Ordering a node that is ready keeps it so. -/
theorem sorted_pop (graph : Graph nodes out incoming) {state : State K}
    (sorted : Sorted nodes out state) {node : K} (mem : node ∈ state.ready) :
    Sorted nodes out
      ⟨((incoming node).foldl (relax (state.order ++ [node]))
          (state.pending, state.ready.erase node)).1,
        ((incoming node).foldl (relax (state.order ++ [node]))
          (state.pending, state.ready.erase node)).2, state.order ++ [node]⟩ := by
  obtain ⟨held, fresh, done⟩ := (sorted.ready node).mp mem
  obtain ⟨counts, ready⟩ := relax_all (state.order ++ [node]) (incoming node)
    (graph.incomingOnce node) (state.pending, state.ready.erase node)
  have late : ∀ v ∈ nodes, node ∈ out v → v ∉ state.order ++ [node] := by
    intro v _ names ordered
    rcases List.mem_append.mp ordered with old | new
    · exact fresh (sorted.closed old names)
    · rw [List.mem_singleton.mp new] at names
      exact fresh (done node names)
  have counted : ∀ v ∈ nodes, ((incoming node).foldl (relax (state.order ++ [node]))
      (state.pending, state.ready.erase node)).1.get v =
        some (waiting out (state.order ++ [node]) v) := by
    intro v inside
    rw [counts v, waiting_append out (graph.outOnce v) fresh]
    dsimp only
    rw [sorted.counted v inside, Option.getD_some]
    by_cases names : node ∈ out v
    · rw [if_pos names, if_pos ((graph.mirrored v node).mp names)]
    · rw [if_neg names, if_neg fun mem => names ((graph.mirrored v node).mpr mem)]
  constructor
  · exact counted
  · intro v
    dsimp only
    rw [ready.mem_iff, List.mem_append, List.mem_filter, decide_eq_true_eq,
      sorted.readyOnce.mem_erase_iff, sorted.ready]
    dsimp only
    constructor
    · intro either
      rcases either with ⟨dependent, spent, last⟩ | ⟨other, inside, unordered, all⟩
      · have names := (graph.mirrored v node).mpr dependent
        have inside := (graph.inside v node names).1
        refine ⟨inside, last, ?_⟩
        rw [← waiting_none_iff, waiting_append out (graph.outOnce v) fresh, if_pos names]
        rw [sorted.counted v inside, Option.getD_some] at spent
        exact spent
      · refine ⟨inside, ?_, fun m names => List.mem_append_left _ (all m names)⟩
        intro ordered
        rcases List.mem_append.mp ordered with old | new
        · exact unordered old
        · exact other (List.mem_singleton.mp new)
    · intro all
      obtain ⟨inside, unordered, all⟩ := all
      by_cases names : node ∈ out v
      · left
        refine ⟨(graph.mirrored v node).mp names, ?_, unordered⟩
        rw [sorted.counted v inside, Option.getD_some]
        rw [← waiting_none_iff, waiting_append out (graph.outOnce v) fresh, if_pos names] at all
        exact all
      · right
        refine ⟨?_, inside, fun old => unordered (List.mem_append_left _ old), ?_⟩
        · intro same
          rw [same] at unordered
          exact unordered (List.mem_append_right _ (List.mem_singleton_self node))
        · intro m names'
          rcases List.mem_append.mp (all m names') with old | new
          · exact old
          · rw [List.mem_singleton.mp new] at names'
            exact absurd names' names
  · apply ready.nodup_iff.mpr
    apply List.Nodup.append ((graph.incomingOnce node).filter _) (sorted.readyOnce.erase node)
    intro v dependent old
    have names := (graph.mirrored v node).mpr (List.mem_filter.mp dependent).1
    obtain ⟨_, _, all⟩ := (sorted.ready v).mp (List.mem_of_mem_erase old)
    exact fresh (all node names)
  · dsimp only
    apply List.Nodup.append sorted.once (List.nodup_singleton node)
    intro v old new
    rw [List.mem_singleton.mp new] at old
    exact fresh old
  · intro v ordered
    rcases List.mem_append.mp ordered with old | new
    · exact sorted.inside v old
    · rw [List.mem_singleton.mp new]
      exact held
  · intro pre v post parts m names
    dsimp only at parts
    rcases List.eq_nil_or_concat post with none | ⟨front, last, more⟩
    · rw [none] at parts
      obtain ⟨same, here⟩ := List.append_inj' parts rfl
      rw [← (List.cons.inj here).1] at names
      rw [← same]
      exact done m names
    · rw [more, List.concat_eq_append, ← List.cons_append, ← List.append_assoc] at parts
      exact sorted.after pre v front (List.append_inj' parts rfl).1 m names

theorem run_sorted (graph : Graph nodes out incoming) (pops : Nat) {state : State K}
    (sorted : Sorted nodes out state) (enough : nodes.length ≤ state.order.length + pops) :
    Sorted nodes out (run incoming pops state) ∧ (run incoming pops state).ready = [] := by
  induction pops generalizing state with
  | zero =>
    refine ⟨sorted, ?_⟩
    rw [run]
    apply List.eq_nil_iff_forall_not_mem.mpr
    intro v mem
    obtain ⟨held, fresh, _⟩ := (sorted.ready v).mp mem
    have full : state.order.Perm nodes :=
      (List.subperm_of_subset sorted.once sorted.inside).perm_of_length_le enough
    exact fresh (full.mem_iff.mpr held)
  | succ pops ih =>
    rw [run]
    cases least : state.ready.min? with
    | none => exact ⟨sorted, List.min?_eq_none_iff.mp least⟩
    | some node =>
      have mem := List.min?_mem least
      have fresh := ((sorted.ready node).mp mem).2.1
      dsimp only
      rw [if_neg fresh]
      apply ih (sorted_pop graph sorted mem)
      rw [List.length_append, List.length_singleton]
      omega

/-! What is left unordered. -/

/-- Nothing ordered lies on a cycle. -/
theorem ordered_acyclic {state : State K} (sorted : Sorted nodes out state) {v : K}
    (mem : v ∈ state.order) : ¬ TransGen (fun n m => m ∈ out n) v v := by
  have earlier : ∀ {w}, TransGen (fun n m => m ∈ out n) v w → ∀ pre post,
      state.order = pre ++ v :: post → w ∈ pre := by
    intro w chain
    induction chain with
    | single names => exact fun pre post parts => sorted.after pre v post parts _ names
    | @tail x w _ names ih =>
      intro pre post parts
      obtain ⟨front, back, inner⟩ := List.append_of_mem (ih pre post parts)
      have deeper : state.order = front ++ x :: (back ++ v :: post) := by
        rw [parts, inner, List.append_assoc, List.cons_append]
      rw [inner]
      exact List.mem_append_left _ (sorted.after front x _ deeper w names)
  intro loop
  obtain ⟨pre, post, parts⟩ := List.append_of_mem mem
  have twice := sorted.once
  rw [parts] at twice
  exact (List.nodup_append.mp twice).2.2 v (earlier loop pre post parts) v List.mem_cons_self rfl

theorem ordered_reaches {state : State K} (sorted : Sorted nodes out state) {v w : K}
    (mem : v ∈ state.order) (chain : ReflTransGen (fun n m => m ∈ out n) v w) :
    w ∈ state.order := by
  induction chain with
  | refl => exact mem
  | tail _ names ih => exact sorted.closed ih names

/-- A node is left unordered where it leads into a cycle. -/
theorem unordered_iff {state : State K} (sorted : Sorted nodes out state)
    (graph : Graph nodes out incoming) (spent : state.ready = []) {v : K} (held : v ∈ nodes) :
    v ∉ state.order ↔ ∃ c, ReflTransGen (fun n m => m ∈ out n) v c ∧
      TransGen (fun n m => m ∈ out n) c c := by
  constructor
  · intro unordered
    have later : ∀ x y, (y ∉ state.order ∧ x ∈ out y ∧ x ∉ state.order) →
        x ∈ { x | x ∈ nodes ∧ x ∉ state.order } :=
      fun x y both => ⟨(graph.inside y x both.2.1).2, both.2.2⟩
    have finite : { x | x ∈ nodes ∧ x ∉ state.order }.Finite :=
      (List.finite_toSet nodes).subset fun x both => both.1
    rcases Descent.source_or_cycle finite later ⟨held, unordered⟩ with source | cycle
    · obtain ⟨m, ⟨inside, left⟩, _, none⟩ := source
      have waits : ¬ ∀ x ∈ out m, x ∈ state.order := by
        intro all
        have ready := (sorted.ready m).mpr ⟨inside, left, all⟩
        rw [spent] at ready
        cases ready
      rw [not_forall] at waits
      obtain ⟨x, waits⟩ := waits
      rw [Classical.not_imp] at waits
      exact absurd ⟨left, waits.1, waits.2⟩ (none x)
    · obtain ⟨c, loop, leads⟩ := cycle
      refine ⟨c, ?_, ?_⟩
      · exact reflTransGen_swap.mp (ReflTransGen.mono (fun x y both => both.2.1) c v leads)
      · exact transGen_swap.mp (TransGen.mono (fun x y both => both.2.1) c c loop)
  · intro found ordered
    obtain ⟨c, leads, loop⟩ := found
    exact ordered_acyclic sorted (ordered_reaches sorted ordered leads) loop

/-! The groups. -/

/-- Part what remains: all that leads to the first of it and back. -/
def groups (group : List K → K → List K) : Nat → List K → List (List K)
  | 0, _ => []
  | _ + 1, [] => []
  | rounds + 1, start :: rest =>
    let found := group (start :: rest) start
    found :: groups group rounds ((start :: rest).filter (fun n => decide (n ∉ found)))

/-- Each leads to the other. -/
def Mutual (out : K → List K) (a b : K) : Prop :=
  ReflTransGen (fun n m => m ∈ out n) a b ∧ ReflTransGen (fun n m => m ∈ out n) b a

omit [LinearOrder K] in
theorem Mutual.trans {a b c : K} (first : Mutual out a b) (second : Mutual out b c) :
    Mutual out a c := ⟨first.1.trans second.1, second.2.trans first.2⟩

omit [LinearOrder K] in
theorem Mutual.symm {a b : K} (both : Mutual out a b) : Mutual out b a := ⟨both.2, both.1⟩

theorem groups_part {group : List K → K → List K} {all : List K}
    (finds : ∀ remaining ⊆ all, ∀ start ∈ remaining, ∀ n,
      n ∈ group remaining start ↔ n ∈ remaining ∧ Mutual out start n)
    (rounds : Nat) (remaining : List K) (enough : remaining.length ≤ rounds)
    (inside : remaining ⊆ all)
    (whole : ∀ n ∈ remaining, ∀ m, Mutual out n m → m ∈ remaining) :
    (∀ found ∈ groups group rounds remaining, ∃ start ∈ remaining, ∀ n,
      n ∈ found ↔ Mutual out start n) ∧
    ∀ n ∈ remaining, ((groups group rounds remaining).filter
      (fun found => decide (n ∈ found))).length = 1 := by
  induction rounds generalizing remaining with
  | zero =>
    rw [List.eq_nil_of_length_eq_zero (Nat.le_zero.mp enough)]
    exact ⟨fun found none => (nomatch none), fun n none => (nomatch none)⟩
  | succ rounds ih =>
    cases remaining with
    | nil => exact ⟨fun found none => (nomatch none), fun n none => (nomatch none)⟩
    | cons start rest =>
      have first : ∀ n, n ∈ group (start :: rest) start ↔ Mutual out start n := by
        intro n
        rw [finds _ inside start List.mem_cons_self]
        exact and_iff_right_of_imp (whole start List.mem_cons_self n)
      have self : start ∈ group (start :: rest) start := (first start).mpr ⟨.refl, .refl⟩
      have shrinks : ((start :: rest).filter
          (fun n => decide (n ∉ group (start :: rest) start))).length ≤ rounds := by
        rw [List.filter_cons_of_neg (by rw [decide_eq_true_eq, not_not]; exact self)]
        rw [List.length_cons] at enough
        exact (List.length_filter_le _ _).trans (by omega)
      obtain ⟨classes, once⟩ := ih _ shrinks
        (fun n mem => inside (List.mem_filter.mp mem).1) (by
          intro n mem m both
          obtain ⟨held, other⟩ := List.mem_filter.mp mem
          refine List.mem_filter.mpr ⟨whole n held m both, decide_eq_true ?_⟩
          intro same
          apply of_decide_eq_true other
          exact (first n).mpr (((first m).mp same).trans both.symm))
      rw [groups]
      constructor
      · intro found mem
        rcases List.mem_cons.mp mem with here | later
        · rw [here]
          exact ⟨start, List.mem_cons_self, first⟩
        · obtain ⟨start', held, here⟩ := classes found later
          exact ⟨start', (List.mem_filter.mp held).1, here⟩
      · intro n held
        by_cases here : n ∈ group (start :: rest) start
        · rw [List.filter_cons, if_pos (decide_eq_true here), List.length_cons]
          -- the class of what remains does not hold what is gone
          have none : (groups group rounds ((start :: rest).filter
              (fun n => decide (n ∉ group (start :: rest) start)))).filter
                (fun found => decide (n ∈ found)) = [] := by
            apply List.filter_eq_nil_iff.mpr
            intro found mem mem'
            obtain ⟨start', held', here'⟩ := classes found mem
            obtain ⟨_, other⟩ := List.mem_filter.mp held'
            apply of_decide_eq_true other
            apply (first start').mpr
            exact ((first n).mp here).trans ((here' n).mp (of_decide_eq_true mem')).symm
          rw [none]
          rfl
        · rw [List.filter_cons, if_neg (by rw [decide_eq_true_eq]; exact here)]
          exact once n (List.mem_filter.mpr ⟨held, decide_eq_true here⟩)

end Kahn
