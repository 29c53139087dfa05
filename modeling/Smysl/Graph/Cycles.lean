import Smysl.Graph.Traverse

/-!
What the report of cycles says. Its groups part what the topological sort leaves unordered,
which is what leads into a cycle and not only what lies on one.
-/
open Relation

namespace Smysl
open ByteString

namespace Adjacency

section
variable (units : List (Uid × UnitCore)) (relations : List Relation) (kinds : EdgeSet)

theorem mem_out_via (n v : Uid) : v ∈ (fromParts units relations).outVia kinds n ↔
    ∃ kind, kinds.contains kind = true ∧
      (n, v, kind) ∈ links (fromParts units relations).extensions units relations := by
  rw [outVia, BTreeSet.mem_toList, BTreeSet.mem_ofList, List.mem_map]
  have held := mem_fwd units relations n
  constructor
  · intro found
    obtain ⟨e, mem, same⟩ := found
    obtain ⟨mem, along⟩ := List.mem_filter.mp mem
    obtain ⟨link, linked, src, edge⟩ := (held e).mp ((BTreeSet.mem_toList _ _).mp mem)
    rw [← edge] at same along
    refine ⟨link.2.2, along, ?_⟩
    rw [← src, ← same]
    exact linked
  · intro found
    obtain ⟨kind, along, linked⟩ := found
    exact ⟨toLex (kind, v), List.mem_filter.mpr
      ⟨(BTreeSet.mem_toList _ _).mpr ((held _).mpr ⟨_, linked, rfl, rfl⟩), along⟩, rfl⟩

theorem mem_incoming_via (n v : Uid) : n ∈ (fromParts units relations).incomingVia kinds v ↔
    ∃ kind, kinds.contains kind = true ∧
      (n, v, kind) ∈ links (fromParts units relations).extensions units relations := by
  rw [incomingVia, BTreeSet.mem_toList, BTreeSet.mem_ofList, List.mem_map]
  have held := mem_rev units relations v
  constructor
  · intro found
    obtain ⟨e, mem, same⟩ := found
    obtain ⟨mem, along⟩ := List.mem_filter.mp mem
    obtain ⟨link, linked, dst, edge⟩ := (held e).mp ((BTreeSet.mem_toList _ _).mp mem)
    rw [← edge] at same along
    refine ⟨link.2.2, along, ?_⟩
    rw [← dst, ← same]
    exact linked
  · intro found
    obtain ⟨kind, along, linked⟩ := found
    exact ⟨toLex (kind, n), List.mem_filter.mpr
      ⟨(BTreeSet.mem_toList _ _).mpr ((held _).mpr ⟨_, linked, rfl, rfl⟩), along⟩, rfl⟩

/-- The edges that are followed join nodes, and each is held at both of its ends. -/
theorem graph_via : Kahn.Graph (fromParts units relations).order
    ((fromParts units relations).outVia kinds) ((fromParts units relations).incomingVia kinds) where
  nodup := BTreeSet.toList_nodup _
  mirrored n m := by rw [mem_out_via, mem_incoming_via]
  inside n m mem := by
    obtain ⟨kind, _, linked⟩ := (mem_out_via units relations kinds n m).mp mem
    have along := (mem_out units relations n m).mpr
      ((mem_links units relations (fromParts units relations).extensions n m).mp ⟨kind, linked⟩)
    exact ⟨out_node units relations along, out_bounded units relations n m along⟩
  outOnce n := BTreeSet.toList_nodup _
  incomingOnce n := BTreeSet.toList_nodup _

end

section
variable {g : Adjacency} {kinds : EdgeSet}
  (graph : Kahn.Graph g.order (g.outVia kinds) (g.incomingVia kinds))

/-- An edge over the kinds. -/
def Follows (g : Adjacency) (kinds : EdgeSet) (n m : Uid) : Prop := m ∈ g.outVia kinds n

include graph

theorem unordered_sorted : Kahn.Sorted g.order (g.outVia kinds) (g.unordered kinds) where
  counted v mem := by
    have distinct :
        ((g.order.map (fun n => (n, (g.outVia kinds n).length))).map Prod.fst).Nodup := by
      rw [List.map_map]
      exact (List.map_id g.order).symm ▸ graph.nodup
    change (BTreeMap.ofList (g.order.map (fun n => (n, (g.outVia kinds n).length)))).get v =
      some (Kahn.waiting (g.outVia kinds) [] v)
    rw [BTreeMap.get_ofList distinct, Kahn.waiting_start]
    exact OrdMap.lookup_of_nodup distinct (List.mem_map_of_mem mem)
  ready v := by
    rw [unordered, List.mem_filter, beq_iff_eq, List.length_eq_zero_iff,
      List.eq_nil_iff_forall_not_mem]
    constructor
    · intro both
      exact ⟨both.1, List.not_mem_nil, fun m names => absurd names (both.2 m)⟩
    · intro all
      exact ⟨all.1, fun m names => absurd (all.2.2 m names) List.not_mem_nil⟩
  readyOnce := graph.nodup.filter _
  once := List.nodup_nil
  inside v mem := by cases mem
  after pre v post parts := by
    rw [unordered] at parts
    exact absurd parts.symm (by simp)

/-- What the sort leaves unordered leads into a cycle, and nothing else does. -/
theorem mem_cyclic (v : Uid) : v ∈ (g.topo kinds).cyclic ↔ v ∈ g.order ∧
    ∃ c, ReflTransGen (g.Follows kinds) v c ∧ TransGen (g.Follows kinds) c c := by
  obtain ⟨sorted, spent⟩ := Kahn.run_sorted graph g.order.length (unordered_sorted graph)
    (Nat.le_add_left _ _)
  rw [topo, List.mem_filter, decide_eq_true_eq]
  apply and_congr_right
  intro held
  exact Kahn.unordered_iff sorted graph spent held

omit graph in
theorem least_reaches {next : Uid → List Uid} {start : Uid} {out : BTreeSet Uid}
    (least : Worklist.Least next (· ∈ [start]) out) (n : Uid) :
    n ∈ out ↔ ReflTransGen (fun n m => m ∈ next n) start n := by
  constructor
  · intro mem
    apply least.within { n | ReflTransGen (fun n m => m ∈ next n) start n } _ _ n mem
    · intro r here
      rw [List.mem_singleton.mp here]
      exact ReflTransGen.refl
    · intro n chain m names
      exact ReflTransGen.tail chain names
  · intro chain
    induction chain with
    | refl => exact least.roots start (List.mem_singleton_self start)
    | tail _ names ih => exact least.closed _ ih _ names

theorem mem_group {remaining : List Uid} {start : Uid} (inside : start ∈ g.order)
    (mem : start ∈ remaining) (n : Uid) : n ∈ g.group kinds remaining start ↔
      n ∈ remaining ∧ Kahn.Mutual (g.outVia kinds) start n := by
  have root : [start].filter (fun u => decide (u ∈ g.order)) = [start] := by
    rw [List.filter_cons, if_pos (decide_eq_true inside), List.filter_nil]
  have within : ∀ r ∈ [start], r ∈ g.order := by
    intro r here
    rw [List.mem_singleton.mp here]
    exact inside
  have forward : ∀ n, n ∈ g.closureVia [start] kinds ↔
      ReflTransGen (fun n m => m ∈ g.outVia kinds n) start n := by
    rw [closureVia, root]
    exact least_reaches (Worklist.search_least (fun n m names => (graph.inside n m names).2) within)
  have backward : ∀ n, n ∈ g.reverseClosure [start] kinds ↔
      ReflTransGen (fun n m => m ∈ g.outVia kinds n) n start := by
    intro n
    have back := least_reaches (Worklist.search_least (fun n m names =>
      (graph.inside m n ((graph.mirrored m n).mpr names)).1) within) n
    rw [reverseClosure, root, back, ← reflTransGen_swap]
    have same : (Function.swap fun n m => m ∈ g.incomingVia kinds n) =
        fun n m => m ∈ g.outVia kinds n := by
      funext a b
      exact propext (graph.mirrored a b).symm
    rw [same]
  have found : ∀ n, n ∈ (g.closureVia [start] kinds).toList.filter (fun n =>
      (g.reverseClosure [start] kinds).contains n && decide (n ∈ remaining)) ↔
        n ∈ remaining ∧ Kahn.Mutual (g.outVia kinds) start n := by
    intro n
    rw [List.mem_filter, BTreeSet.mem_toList, Bool.and_eq_true, decide_eq_true_eq,
      ← BTreeSet.mem_def, forward, backward, Kahn.Mutual]
    constructor
    · intro all
      exact ⟨all.2.2, all.1, all.2.1⟩
    · intro all
      exact ⟨all.2.1, all.2.2, all.1⟩
  have some_ : ((g.closureVia [start] kinds).toList.filter (fun n =>
      (g.reverseClosure [start] kinds).contains n && decide (n ∈ remaining))).isEmpty = false := by
    rw [List.isEmpty_eq_false_iff_exists_mem]
    exact ⟨start, (found start).mpr ⟨mem, .refl, .refl⟩⟩
  rw [group, some_, if_neg Bool.false_ne_true]
  exact found n

omit graph in
/-- The report is the groups of what is unordered, sorted. -/
theorem cycles_perm (g : Adjacency) (kinds : EdgeSet) : (g.cycles kinds).Perm
    (Kahn.groups (g.group kinds) (g.topo kinds).cyclic.length (g.topo kinds).cyclic) := by
  rw [cycles]
  by_cases acyclic : (g.topo kinds).isAcyclic = true
  · rw [if_pos acyclic, show (g.topo kinds).cyclic = [] from List.isEmpty_iff.mp acyclic]
    exact List.Perm.refl _
  · rw [if_neg acyclic]
    exact List.mergeSort_perm _ _

/-- The groups are the classes of what is unordered, and hold each of it once. -/
theorem cycles_part : (∀ group ∈ g.cycles kinds, ∃ start ∈ (g.topo kinds).cyclic, ∀ n,
      n ∈ group ↔ Kahn.Mutual (g.outVia kinds) start n) ∧
    ∀ n ∈ (g.topo kinds).cyclic, ((g.cycles kinds).filter
      (fun group => decide (n ∈ group))).length = 1 := by
  have nodes : ∀ n ∈ (g.topo kinds).cyclic, n ∈ g.order :=
    fun n mem => ((mem_cyclic graph n).mp mem).1
  obtain ⟨classes, once⟩ := Kahn.groups_part (fun remaining inside start mem =>
      mem_group graph (nodes start (inside mem)) mem)
    (g.topo kinds).cyclic.length (g.topo kinds).cyclic (le_refl _) (List.Subset.refl _) (by
      intro n mem m both
      obtain ⟨held, c, leads, loop⟩ := (mem_cyclic graph n).mp mem
      have node : m ∈ g.order := by
        rcases ReflTransGen.cases_tail both.1 with same | ⟨x, _, names⟩
        · rw [same]
          exact held
        · exact (graph.inside x m names).2
      exact (mem_cyclic graph m).mpr ⟨node, c, both.2.trans leads, loop⟩)
  constructor
  · intro group mem
    exact classes group ((cycles_perm g kinds).mem_iff.mp mem)
  · intro n mem
    rw [((cycles_perm g kinds).filter _).length_eq]
    convert once n mem

end

/-- Every group is of nodes on cycles that lead into each other, every node on a cycle is
in one group, and a node on none is in none. -/
structure CyclesExact (g : Adjacency) (kinds : EdgeSet) : Prop where
  onCycle : ∀ group ∈ g.cycles kinds, ∀ n ∈ group, TransGen (g.Follows kinds) n n
  mutual_ : ∀ group ∈ g.cycles kinds, ∀ a ∈ group, ∀ b ∈ group,
    ReflTransGen (g.Follows kinds) a b
  once : ∀ n, TransGen (g.Follows kinds) n n →
    ((g.cycles kinds).filter (fun group => decide (n ∈ group))).length = 1
  dependents : ∀ n, ¬ TransGen (g.Follows kinds) n n → ∀ group ∈ g.cycles kinds, n ∉ group

/-- The report is exact where whatever leads into a cycle lies on one. -/
theorem cycles_exact_iff (units : List (Uid × UnitCore)) (relations : List Relation)
    (kinds : EdgeSet) : (fromParts units relations).CyclesExact kinds ↔
      ∀ n c, ReflTransGen ((fromParts units relations).Follows kinds) n c →
        TransGen ((fromParts units relations).Follows kinds) c c →
          TransGen ((fromParts units relations).Follows kinds) n n := by
  have graph := graph_via units relations kinds
  obtain ⟨classes, once⟩ := cycles_part graph
  have node : ∀ n c, ReflTransGen ((fromParts units relations).Follows kinds) n c →
      TransGen ((fromParts units relations).Follows kinds) c c →
        n ∈ ((fromParts units relations).topo kinds).cyclic := by
    intro n c leads loop
    have chain : TransGen ((fromParts units relations).Follows kinds) n c := loop.trans_right leads
    obtain ⟨x, names, _⟩ := TransGen.head'_iff.mp chain
    exact (mem_cyclic graph n).mpr ⟨(graph.inside n x names).1, c, leads, loop⟩
  constructor
  · intro exact_ n c leads loop
    by_contra off
    have some_ := once n (node n c leads loop)
    obtain ⟨group, mem⟩ := List.exists_mem_of_length_pos (by omega : 0 <
      (((fromParts units relations).cycles kinds).filter (fun group => decide (n ∈ group))).length)
    obtain ⟨mem, holds⟩ := List.mem_filter.mp mem
    exact exact_.dependents n off group mem (of_decide_eq_true holds)
  · intro on
    have inside : ∀ group ∈ (fromParts units relations).cycles kinds, ∀ n ∈ group,
        TransGen ((fromParts units relations).Follows kinds) n n := by
      intro group mem n holds
      obtain ⟨start, held, here⟩ := classes group mem
      obtain ⟨_, c, leads, loop⟩ := (mem_cyclic graph start).mp held
      exact on n c (((here n).mp holds).2.trans leads) loop
    constructor
    · exact inside
    · intro group mem a holds b holds'
      obtain ⟨start, _, here⟩ := classes group mem
      exact ((here a).mp holds).2.trans ((here b).mp holds').1
    · intro n loop
      exact once n (node n n .refl loop)
    · intro n off group mem holds
      exact off (inside group mem n holds)

/-- A node: a digest of one byte over and over. -/
def plainNode (b : UInt8) : Uid := ⟨⟨List.replicate 32 b, Bytes32.width_of b⟩⟩

/-- A bare `causes` edge. -/
def causing (a b : UInt8) : Relation where
  kind := .causes
  src := plainNode a
  dst := plainNode b
  weight := none
  note := none
  attestations := ∅
  extra := ∅

/-- Two that cause each other, and one that causes the first of them. -/
def dependent : Adjacency := fromParts [] [causing 1 2, causing 2 3, causing 3 2]

/-- What causes one of two that cause each other is reported as a cycle of its own. -/
theorem dependent_reported : ¬ ∀ (units : List (Uid × UnitCore)) (relations : List Relation)
    (kinds : EdgeSet), (fromParts units relations).CyclesExact kinds := by
  intro all
  have report : ∃ group ∈ Kahn.groups (dependent.group { all := true })
      (dependent.topo { all := true }).cyclic.length (dependent.topo { all := true }).cyclic,
        plainNode 1 ∈ group := by
    decide +kernel
  have uncaused : dependent.incomingVia { all := true } (plainNode 1) = [] := by
    decide +kernel
  obtain ⟨group, found, holds⟩ := report
  have mem := (cycles_perm dependent { all := true }).mem_iff.mpr found
  have loop := (all [] [causing 1 2, causing 2 3, causing 3 2] { all := true }).onCycle group mem
    (plainNode 1) holds
  obtain ⟨x, _, names⟩ := TransGen.tail'_iff.mp loop
  have caused : x ∈ dependent.incomingVia { all := true } (plainNode 1) :=
    ((graph_via [] [causing 1 2, causing 2 3, causing 3 2] { all := true }).mirrored x _).mp names
  rw [uncaused] at caused
  cases caused

end Adjacency
end Smysl
