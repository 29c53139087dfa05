import Smysl.Graph.Lineage

/-!
A walk by depth is a ball: what it returns is what lies within the depth along its
edges, each node once and at its distance.
-/
namespace Smysl
open ByteString Breadth

namespace Adjacency

section
variable (units : List (Uid × UnitCore)) (relations : List Relation)

/-- A step to what a node rests on: along a reference, or against a relation. -/
def RestsStep (edges : EdgeSet) (n v : Uid) : Prop :=
  ∃ kind, edges.contains kind = true ∧
    if kind.isSupport then
      (n, v, kind) ∈ links (fromParts units relations).extensions units relations
    else (v, n, kind) ∈ links (fromParts units relations).extensions units relations

/-- The ends of the edges that are followed, support edges from one side and relations from
the other. -/
theorem mem_hop {support relations : BTreeSet Edge} {edges : EdgeSet} {v : Uid} :
    v ∈ ((support.toList.filter (fun e => (ofLex e).1.isSupport) ++
        relations.toList.filter (fun e => !(ofLex e).1.isSupport)).filter
          (fun e => edges.contains (ofLex e).1)).map (fun e => (ofLex e).2) ↔
      ∃ kind, edges.contains kind = true ∧
        toLex (kind, v) ∈ if kind.isSupport then support else relations := by
  rw [List.mem_map]
  constructor
  · rintro ⟨e, mem, same⟩
    obtain ⟨mem, along⟩ := List.mem_filter.mp mem
    refine ⟨(ofLex e).1, along, ?_⟩
    rw [← same]
    rcases List.mem_append.mp mem with mem | mem
    · obtain ⟨mem, sided⟩ := List.mem_filter.mp mem
      rw [if_pos sided]
      exact (BTreeSet.mem_toList _ _).mp mem
    · obtain ⟨mem, sided⟩ := List.mem_filter.mp mem
      rw [if_neg (by simpa using sided)]
      exact (BTreeSet.mem_toList _ _).mp mem
  · rintro ⟨kind, along, mem⟩
    refine ⟨toLex (kind, v), List.mem_filter.mpr ⟨?_, along⟩, rfl⟩
    split at mem
    · rename_i sided
      apply List.mem_append_left
      exact List.mem_filter.mpr ⟨(BTreeSet.mem_toList _ _).mpr mem, sided⟩
    · rename_i sided
      apply List.mem_append_right
      exact List.mem_filter.mpr ⟨(BTreeSet.mem_toList _ _).mpr mem, by simpa using sided⟩

theorem fwd_link (n v : Uid) (kind : EdgeKind) :
    toLex (kind, v) ∈ ((fromParts units relations).fwd.get n).getD ∅ ↔
      (n, v, kind) ∈ links (fromParts units relations).extensions units relations := by
  rw [mem_fwd]
  constructor
  · rintro ⟨⟨_, _, _⟩, linked, src, edge⟩
    cases src
    cases edge
    exact linked
  · intro linked
    exact ⟨_, linked, rfl, rfl⟩

theorem rev_link (n v : Uid) (kind : EdgeKind) :
    toLex (kind, n) ∈ ((fromParts units relations).rev.get v).getD ∅ ↔
      (n, v, kind) ∈ links (fromParts units relations).extensions units relations := by
  rw [mem_rev]
  constructor
  · rintro ⟨⟨_, _, _⟩, linked, dst, edge⟩
    cases dst
    cases edge
    exact linked
  · intro linked
    exact ⟨_, linked, rfl, rfl⟩

theorem mem_one_hop (edges : EdgeSet) (n v : Uid) :
    v ∈ (fromParts units relations).oneHop n edges ↔ RestsStep units relations edges n v := by
  rw [oneHop, mem_hop, RestsStep]
  apply exists_congr
  intro kind
  apply and_congr_right
  intro _
  split
  · exact fwd_link units relations n v kind
  · exact rev_link units relations v n kind

/-- What rests on a node is what it is one step from. -/
theorem mem_resting_on (edges : EdgeSet) (n v : Uid) :
    v ∈ (fromParts units relations).restingOn n edges ↔ RestsStep units relations edges v n := by
  rw [restingOn, mem_hop, RestsStep]
  apply exists_congr
  intro kind
  apply and_congr_right
  intro _
  split
  · exact rev_link units relations v n kind
  · exact fwd_link units relations n v kind

theorem rests_step_nodes {edges : EdgeSet} {n v : Uid}
    (step : RestsStep units relations edges n v) :
    n ∈ (fromParts units relations).order ∧ v ∈ (fromParts units relations).order := by
  obtain ⟨kind, _, linked⟩ := step
  split at linked
  · have along := (mem_out units relations n v).mpr
      ((mem_links units relations _ n v).mp ⟨kind, linked⟩)
    exact ⟨out_node units relations along, out_bounded units relations n v along⟩
  · have along := (mem_out units relations v n).mpr
      ((mem_links units relations _ v n).mp ⟨kind, linked⟩)
    exact ⟨out_bounded units relations v n along, out_node units relations along⟩

end
end Adjacency

/-- A walk's nodes are those within the depth, each once and at its distance. -/
structure Lineage.Ball (l : Lineage) (next : Uid → List Uid) (depth : Option Nat) : Prop where
  at_ : ∀ u k, (∃ n ∈ l.nodes, n.uid = u ∧ n.depth = k) ↔
    AtDistance next l.root k u ∧ Upto depth k
  once : (l.nodes.map LineageNode.uid).Nodup

/-- The units a walk returned. -/
def Lineage.uids (l : Lineage) : List Uid := l.nodes.map LineageNode.uid

theorem Lineage.Ball.mem_uids {l : Lineage} {next : Uid → List Uid} {depth : Option Nat}
    (ball : l.Ball next depth) (u : Uid) :
    u ∈ l.uids ↔ ∃ k, AtDistance next l.root k u ∧ Upto depth k := by
  rw [Lineage.uids, List.mem_map]
  constructor
  · rintro ⟨n, mem, same⟩
    exact ⟨n.depth, (ball.at_ u n.depth).mp ⟨n, mem, same, rfl⟩⟩
  · rintro ⟨k, within⟩
    obtain ⟨n, mem, same, _⟩ := (ball.at_ u k).mpr within
    exact ⟨n, mem, same⟩

/-- A walk that is a ball of its own steps is one of more steps where these keep its
distances. -/
theorem Lineage.ball_iff {l : Lineage} {next more : Uid → List Uid} {depth : Option Nat}
    (ball : l.Ball next depth) (within : ∀ n, ∀ m ∈ next n, m ∈ more n) :
    l.Ball more depth ↔ ∀ k m, Upto depth (k + 1) → AtDistance more l.root (k + 1) m →
      ∃ n, AtDistance more l.root k n ∧ m ∈ next n := by
  rw [← same_distances_iff within]
  constructor
  · intro other k n upto
    have one := ball.at_ n k
    rw [other.at_ n k] at one
    constructor
    · intro here
      exact (one.mpr ⟨here, upto⟩).1
    · intro here
      exact (one.mp ⟨here, upto⟩).1
  · intro same
    refine ⟨fun u k => ?_, ball.once⟩
    rw [ball.at_ u k]
    exact and_congr_left (fun upto => same k u upto)

/-- A ball without a limit is the root and whatever lies at some distance. -/
theorem Lineage.mem_unbounded {l : Lineage} {next : Uid → List Uid} (ball : l.Ball next none)
    {flat : List Uid}
    (closure : ∀ u, u ∈ flat ↔ u ≠ l.root ∧ ∃ k, AtDistance next l.root k u) (u : Uid) :
    u ∈ l.uids ↔ u = l.root ∨ u ∈ flat := by
  rw [ball.mem_uids, closure]
  constructor
  · rintro ⟨k, far, _⟩
    by_cases here : u = l.root
    · exact Or.inl here
    · exact Or.inr ⟨here, k, far⟩
  · rintro (here | ⟨_, k, far⟩)
    · exact ⟨0, (at_distance_zero u).mpr here, fun l same => by cases same⟩
    · exact ⟨k, far, fun l same => by cases same⟩

namespace Store
variable [Blake3] (s : Store)

theorem walk_by_ball {next : Uid → List Uid} (bounded : ∀ n, ∀ m ∈ next n, m ∈ s.adjacency.order)
    (via : Uid → Uid → Via) (root : Uid) (depth : Option Nat) :
    (s.walkBy next via root depth).Ball next depth := by
  have sorted : ∀ xs : List (Uid × Via),
      (xs.mergeSort (fun a b => decide (toLex a ≤ toLex b))).Perm xs :=
    fun xs => List.mergeSort_perm xs _
  constructor
  · intro u k
    change _ ↔ AtDistance next root k u ∧ Upto depth k
    rw [← @mem_search _ _ _ next root via _ sorted depth _ bounded Via.root k u]
    rw [walkBy]
    dsimp only
    simp only [List.mem_mergeSort, List.mem_map]
    constructor
    · rintro ⟨n, ⟨e, mem, same⟩, name, far⟩
      rw [← same] at name far
      refine ⟨e.2.2, ?_⟩
      rw [← name, ← far]
      exact mem
    · rintro ⟨t, mem⟩
      exact ⟨_, ⟨_, mem, rfl⟩, rfl, rfl⟩
  · rw [walkBy]
    dsimp only
    apply ((List.mergeSort_perm _ _).map LineageNode.uid).nodup_iff.mpr
    rw [List.map_map]
    exact search_distinct sorted (before_first Via.root)

theorem mem_one_hop (edges : EdgeSet) (n v : Uid) :
    v ∈ s.adjacency.oneHop n edges ↔ n ∈ s.adjacency.restingOn v edges := by
  rw [adjacency, Adjacency.mem_one_hop, Adjacency.mem_resting_on]

theorem one_hop_bounded (edges : EdgeSet) (n : Uid) :
    ∀ m ∈ s.adjacency.oneHop n edges, m ∈ s.adjacency.order := by
  intro m mem
  rw [adjacency, Adjacency.mem_one_hop] at mem
  exact (Adjacency.rests_step_nodes _ _ mem).2

theorem resting_on_bounded (edges : EdgeSet) (n : Uid) :
    ∀ m ∈ s.adjacency.restingOn n edges, m ∈ s.adjacency.order := by
  intro m mem
  rw [adjacency, Adjacency.mem_resting_on] at mem
  exact (Adjacency.rests_step_nodes _ _ mem).1

theorem mem_supports_of (edges : EdgeSet) (n v : Uid) :
    v ∈ s.supportsOf n edges ↔ v ∈ s.adjacency.oneHop n edges ∧ s.read.containsUid v = true := by
  rw [supportsOf, List.mem_filter]

theorem mem_dependents_step (edges : EdgeSet) (n v : Uid) :
    v ∈ s.dependentsStep n edges ↔ v ∈ s.adjacency.restingOn n edges := by
  rw [dependentsStep, BTreeSet.mem_toList, BTreeSet.mem_ofList]

theorem mem_either_step (edges : EdgeSet) (n v : Uid) :
    v ∈ s.eitherStep n edges ↔ v ∈ s.supportsOf n edges ∨ v ∈ s.dependentsStep n edges := by
  rw [eitherStep, BTreeSet.mem_toList, BTreeSet.mem_ofList, List.mem_append]

theorem trace_via_ball (root : Uid) (edges : EdgeSet) (depth : Option Nat) :
    (s.traceVia root edges depth).Ball (fun n => s.supportsOf n edges) depth := by
  apply s.walk_by_ball
  intro n m mem
  exact s.one_hop_bounded edges n m ((s.mem_supports_of edges n m).mp mem).1

theorem dependents_trace_ball (root : Uid) (edges : EdgeSet) (depth : Option Nat) :
    (s.dependentsTrace root edges depth).Ball (fun n => s.dependentsStep n edges) depth := by
  apply s.walk_by_ball
  intro n m mem
  exact s.resting_on_bounded edges n m ((s.mem_dependents_step edges n m).mp mem)

theorem trace_both_ball (root : Uid) (edges : EdgeSet) (depth : Option Nat) :
    (s.traceBoth root edges depth).Ball (fun n => s.eitherStep n edges) depth := by
  apply s.walk_by_ball
  intro n m mem
  rcases (s.mem_either_step edges n m).mp mem with support | dependent
  · exact s.one_hop_bounded edges n m ((s.mem_supports_of edges n m).mp support).1
  · exact s.resting_on_bounded edges n m ((s.mem_dependents_step edges n m).mp dependent)

/-- What a walk with a stack reaches is what lies at some distance. -/
theorem mem_reached {next : Uid → List Uid} (bounded : ∀ n, ∀ m ∈ next n, m ∈ s.adjacency.order)
    (inside : ∀ n, ∀ m ∈ next n, n ∈ s.adjacency.order) (start : Uid) :
    (s.adjacency.reached next start).Nodup ∧ ∀ u, u ∈ s.adjacency.reached next start ↔
      u ≠ start ∧ ∃ k, AtDistance next start k u := by
  rw [Adjacency.reached]
  split
  · rename_i node
    exact mem_trail bounded node
  · rename_i lone
    refine ⟨List.nodup_nil, fun u => ?_⟩
    constructor
    · intro mem
      cases mem
    · rintro ⟨other, k, far⟩
      exfalso
      cases k with
      | zero => exact other ((at_distance_zero u).mp far)
      | succ k =>
        obtain ⟨v, there⟩ := distance_below (Nat.le_add_left 1 k) far
        obtain ⟨n, here, edge⟩ := distance_before there
        rw [(at_distance_zero n).mp here] at edge
        exact lone (inside start v edge)

theorem mem_rests_on (uid : Uid) (edges : EdgeSet) (u : Uid) : u ∈ s.restsOn uid edges ↔
    u ≠ uid ∧ ∃ k, AtDistance (fun n => s.adjacency.oneHop n edges) uid k u := by
  apply (s.mem_reached (s.one_hop_bounded edges) _ uid).2
  intro n m mem
  rw [s.mem_one_hop] at mem
  exact s.resting_on_bounded edges m n mem

theorem mem_dependents_via (uid : Uid) (edges : EdgeSet) (u : Uid) :
    u ∈ s.dependentsVia uid edges ↔
      u ≠ uid ∧ ∃ k, AtDistance (fun n => s.adjacency.restingOn n edges) uid k u := by
  apply (s.mem_reached (s.resting_on_bounded edges) _ uid).2
  intro n m mem
  rw [← s.mem_one_hop] at mem
  exact s.one_hop_bounded edges m n mem

end Store
end Smysl
