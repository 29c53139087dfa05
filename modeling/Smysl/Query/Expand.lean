import Smysl.Graph.Balls
import Smysl.Graph.HeadsAgree

/-!
The traversals of a query: each walks from every seed, keeps what it reached, and says so
when it stopped with something still to explore.
-/
namespace Smysl
open ByteString Breadth

/-- Where in the text of a query something stands. -/
structure Span where
  start : Nat
  stop : Nat
  deriving DecidableEq, Repr

/-- The findings of a query that are modelled here. -/
inductive Code
  | w463
  | w464
  deriving DecidableEq, Repr

def Code.asStr : Code → String
  | .w463 => "SMY-W463"
  | .w464 => "SMY-W464"

structure Diagnostic where
  code : Code
  span : Span
  message : String
  deriving DecidableEq, Repr

/-- Which way a traversal walks. -/
inductive Direction
  | out
  | in_
  | both
  deriving DecidableEq, Repr

/-- One traversal, with its depth bound. -/
structure TraversalPlan where
  /-- How it was written. -/
  label : String
  edges : EdgeSet
  direction : Direction
  depth : Option Nat
  /-- It adds what it reached at depth one or more. -/
  only : Bool
  /-- What it reaches are versions something replaced. -/
  history : Bool
  span : Span

/-- What the traversals have brought so far. -/
structure Expansion where
  reached : BTreeSet Uid
  history : BTreeSet Uid
  warnings : List Diagnostic

namespace TraversalPlan

def expandNode (t : TraversalPlan) (state : Expansion) (node : LineageNode) : Expansion :=
  if t.history && decide (0 < node.depth) then
    { state with history := state.history.insert node.uid }
  else if decide (0 < node.depth) || !t.only then
    { state with reached := state.reached.insert node.uid }
  else state

end TraversalPlan

namespace Store
section
variable [Blake3]

def walk (s : Store) (t : TraversalPlan) (seed : Uid) (depth : Option Nat) : Lineage :=
  match t.direction with
  | .out => s.traceVia seed t.edges depth
  | .in_ => s.dependentsTrace seed t.edges depth
  | .both => s.traceBoth seed t.edges depth

/-- How often a unit at the limit has a neighbour the walk did not report. -/
def stopped (s : Store) (t : TraversalPlan) (seed : Uid) : Nat :=
  match t.depth with
  | some limit =>
    let walk := s.walk t seed t.depth
    ((walk.nodes.filter (fun n => n.depth == limit)).map (fun n =>
      ((s.walk t n.uid (some 1)).nodes.filter (fun m =>
        m.depth == 1 && !walk.uids.contains m.uid)).length)).sum
  | none => 0

/-- The finding that a traversal stopped at the depth asked. -/
def truncation (s : Store) (t : TraversalPlan) (seeds : List Uid) : List Diagnostic :=
  let stopped := (seeds.map (s.stopped t)).sum
  if 0 < stopped then
    [{ code := .w463
       span := t.span
       message := "`expand " ++ t.label ++ "` stopped at the depth asked; " ++ toString stopped ++
         " unit(s) beyond the frontier were not explored" }]
  else []

def expand (s : Store) (seeds : List Uid) (state : Expansion) (t : TraversalPlan) : Expansion :=
  let walked := seeds.foldl (fun state seed =>
    (s.walk t seed t.depth).nodes.foldl t.expandNode state) state
  { walked with warnings := walked.warnings ++ s.truncation t seeds }

/-- Every traversal of a query, from the seeds its answer gives. -/
def expandAll (s : Store) (seeds : List Uid) (keepSeeds : Bool) (warnings : List Diagnostic)
    (plans : List TraversalPlan) : Expansion :=
  plans.foldl (s.expand seeds)
    { reached := if keepSeeds then BTreeSet.ofList seeds else ∅, history := ∅, warnings }

/-- One step of a traversal over the edges of the graph, held or not. -/
def alongEdges (s : Store) (direction : Direction) (edges : EdgeSet) (n : Uid) : List Uid :=
  match direction with
  | .out => s.adjacency.oneHop n edges
  | .in_ => s.adjacency.restingOn n edges
  | .both => s.adjacency.oneHop n edges ++ s.adjacency.restingOn n edges

/-- One step as the walk takes it. -/
def stepOf (s : Store) (direction : Direction) (edges : EdgeSet) (n : Uid) : List Uid :=
  match direction with
  | .out => s.supportsOf n edges
  | .in_ => s.dependentsStep n edges
  | .both => s.eitherStep n edges

/-- What the walks by depth are for. -/
structure TracesAreBalls (s : Store) (root : Uid) (edges : EdgeSet) (depth : Option Nat) :
    Prop where
  via : (s.traceVia root edges depth).Ball (s.alongEdges .out edges) depth
  dependents : (s.dependentsTrace root edges depth).Ball (s.alongEdges .in_ edges) depth
  both : (s.traceBoth root edges depth).Ball (s.alongEdges .both edges) depth
  restsClosure : depth = none → ∀ u, u ∈ (s.traceVia root edges depth).uids ↔
    u = root ∨ u ∈ s.restsOn root edges
  dependentsClosure : depth = none → ∀ u, u ∈ (s.dependentsTrace root edges depth).uids ↔
    u = root ∨ u ∈ s.dependentsVia root edges
  truncated : ∀ t : TraversalPlan, t.edges = edges → t.depth = depth → ∀ seeds : List Uid,
    s.truncation t seeds ≠ [] ↔
      ∃ seed ∈ seeds, ∃ u ∈ (s.walk t seed none).uids, u ∉ (s.walk t seed depth).uids

/-- Within the depth of a root, a unit that an edge leads to is held; either way, it is held or
depends on one a step nearer. -/
structure HeldWithin (s : Store) (root : Uid) (edges : EdgeSet) (depth : Option Nat) : Prop where
  out : ∀ k u, Upto depth (k + 1) → AtDistance (s.alongEdges .out edges) root (k + 1) u →
    s.read.containsUid u = true
  both : ∀ k u, Upto depth (k + 1) → AtDistance (s.alongEdges .both edges) root (k + 1) u →
    s.read.containsUid u = true ∨
      ∃ n, AtDistance (s.alongEdges .both edges) root k n ∧ u ∈ s.adjacency.restingOn n edges

end

section
variable [Blake3] (s : Store)

theorem step_of_along (direction : Direction) (edges : EdgeSet) (n : Uid) :
    ∀ m ∈ s.stepOf direction edges n, m ∈ s.alongEdges direction edges n := by
  intro m mem
  cases direction with
  | out => exact ((s.mem_supports_of edges n m).mp mem).1
  | in_ => exact (s.mem_dependents_step edges n m).mp mem
  | both =>
    rcases (s.mem_either_step edges n m).mp mem with support | dependent
    · exact List.mem_append_left _ ((s.mem_supports_of edges n m).mp support).1
    · exact List.mem_append_right _ ((s.mem_dependents_step edges n m).mp dependent)

theorem walk_ball (t : TraversalPlan) (seed : Uid) (depth : Option Nat) :
    (s.walk t seed depth).Ball (s.stepOf t.direction t.edges) depth := by
  obtain ⟨_, edges, direction, _, _, _, _⟩ := t
  cases direction with
  | out => exact s.trace_via_ball seed edges depth
  | in_ => exact s.dependents_trace_ball seed edges depth
  | both => exact s.trace_both_ball seed edges depth

theorem walk_root (t : TraversalPlan) (seed : Uid) (depth : Option Nat) :
    (s.walk t seed depth).root = seed := by
  obtain ⟨_, edges, direction, _, _, _, _⟩ := t
  cases direction <;> rfl

theorem mem_walk (t : TraversalPlan) (seed : Uid) (depth : Option Nat) (u : Uid) :
    u ∈ (s.walk t seed depth).uids ↔
      ∃ k, AtDistance (s.stepOf t.direction t.edges) seed k u ∧ Upto depth k := by
  rw [(s.walk_ball t seed depth).mem_uids, s.walk_root]

/-- A walk stopped if and only if an edge leaves what it returned. -/
theorem stopped_pos_iff (t : TraversalPlan) (seed : Uid) {limit : Nat}
    (depth : t.depth = some limit) :
    0 < s.stopped t seed ↔ ∃ n m, AtDistance (s.stepOf t.direction t.edges) seed limit n ∧
      m ∈ s.stepOf t.direction t.edges n ∧
        ¬ ∃ k ≤ limit, AtDistance (s.stepOf t.direction t.edges) seed k m := by
  have at_ := fun u k => (s.walk_ball t seed (some limit)).at_ u k
  have inside : ∀ m, m ∈ (s.walk t seed (some limit)).uids ↔
      ∃ k ≤ limit, AtDistance (s.stepOf t.direction t.edges) seed k m := by
    intro m
    rw [s.mem_walk]
    constructor
    · rintro ⟨k, far, upto⟩
      exact ⟨k, upto limit rfl, far⟩
    · rintro ⟨k, le, far⟩
      exact ⟨k, far, fun l same => by cases same; exact le⟩
  have onward := fun n u k => (s.walk_ball t n (some 1)).at_ u k
  simp only [s.walk_root] at at_ onward
  rw [stopped, depth]
  dsimp only
  rw [List.sum_pos_iff_exists_pos_nat]
  constructor
  · rintro ⟨count, mem, some_⟩
    obtain ⟨n, mem, same⟩ := List.mem_map.mp mem
    obtain ⟨mem, last⟩ := List.mem_filter.mp mem
    rw [← same] at some_
    obtain ⟨m, found⟩ := List.exists_mem_of_length_pos some_
    obtain ⟨mem', beyond⟩ := List.mem_filter.mp found
    obtain ⟨one, unseen⟩ := Bool.and_eq_true_iff.mp beyond
    have far := ((at_ n.uid limit).mp ⟨n, mem, rfl, beq_iff_eq.mp last⟩).1
    have near := ((onward n.uid m.uid 1).mp ⟨m, mem', rfl, beq_iff_eq.mp one⟩).1
    obtain ⟨v, here, edge⟩ := distance_before near
    rw [(at_distance_zero v).mp here] at edge
    refine ⟨n.uid, m.uid, far, edge, ?_⟩
    rintro ⟨k, le, there⟩
    have held := (inside m.uid).mpr ⟨k, le, there⟩
    rw [List.contains_iff_mem.mpr held] at unseen
    cases unseen
  · rintro ⟨n, m, far, edge, outside⟩
    have leaves : m ∉ (s.walk t seed (some limit)).uids := fun mem => outside ((inside m).mp mem)
    have apart : m ≠ n := by
      intro same
      rw [same] at outside
      exact outside ⟨limit, le_refl _, far⟩
    have near : AtDistance (s.stepOf t.direction t.edges) n 1 m := by
      refine ⟨.step .start edge, fun j walk => ?_⟩
      cases j with
      | zero => exact absurd ((at_distance_zero m).mp ⟨walk, fun j _ => Nat.zero_le j⟩) apart
      | succ j => omega
    obtain ⟨x, mem, name, last⟩ :=
      (at_ n limit).mpr ⟨far, fun l same => by cases same; exact le_refl _⟩
    obtain ⟨y, mem', name', one⟩ :=
      (onward n m 1).mpr ⟨near, fun l same => by cases same; exact le_refl _⟩
    refine ⟨_, List.mem_map_of_mem
      (List.mem_filter.mpr ⟨mem, beq_iff_eq.mpr last⟩), ?_⟩
    apply List.length_pos_of_mem
    rw [name]
    apply List.mem_filter.mpr
    refine ⟨mem', ?_⟩
    rw [one, name']
    simpa using leaves

theorem truncation_iff (t : TraversalPlan) (seeds : List Uid) :
    s.truncation t seeds ≠ [] ↔
      ∃ seed ∈ seeds, ∃ u ∈ (s.walk t seed none).uids, u ∉ (s.walk t seed t.depth).uids := by
  have raised : s.truncation t seeds ≠ [] ↔ ∃ seed ∈ seeds, 0 < s.stopped t seed := by
    rw [truncation]
    split
    · rename_i some_
      refine iff_of_true (List.cons_ne_nil _ _) ?_
      obtain ⟨count, mem, pos⟩ := List.sum_pos_iff_exists_pos_nat.mp some_
      obtain ⟨seed, on, same⟩ := List.mem_map.mp mem
      rw [← same] at pos
      exact ⟨seed, on, pos⟩
    · rename_i none'
      refine iff_of_false (fun differ => differ rfl) ?_
      rintro ⟨seed, on, pos⟩
      exact none' (List.sum_pos_iff_exists_pos_nat.mpr ⟨_, List.mem_map_of_mem on, pos⟩)
  rw [raised]
  apply exists_congr
  intro seed
  apply and_congr_right
  intro _
  simp only [s.mem_walk]
  cases depth : t.depth with
  | none =>
    rw [stopped, depth]
    refine iff_of_false (lt_irrefl 0) ?_
    rintro ⟨u, within, outside⟩
    exact outside within
  | some limit =>
    rw [s.stopped_pos_iff t seed depth, beyond_iff]
    constructor
    · rintro ⟨k, m, beyond, far⟩
      refine ⟨m, ⟨k, far, fun l same => by cases same⟩, ?_⟩
      rintro ⟨j, there, upto⟩
      have same := far.unique there
      have := upto limit rfl
      omega
    · rintro ⟨m, ⟨k, far, _⟩, outside⟩
      refine ⟨k, m, ?_, far⟩
      by_contra near
      exact outside ⟨k, far, fun l same => by cases same; omega⟩

/-- The dependents are walked along the edges as they are. -/
theorem dependents_ball (root : Uid) (edges : EdgeSet) (depth : Option Nat) :
    (s.dependentsTrace root edges depth).Ball (s.alongEdges .in_ edges) depth := by
  apply (Lineage.ball_iff (s.dependents_trace_ball root edges depth)
    (s.step_of_along .in_ edges)).mpr
  intro k m _ here
  obtain ⟨n, before, edge⟩ := distance_before here
  exact ⟨n, before, (s.mem_dependents_step edges n m).mpr edge⟩

theorem via_ball_iff (root : Uid) (edges : EdgeSet) (depth : Option Nat) :
    (s.traceVia root edges depth).Ball (s.alongEdges .out edges) depth ↔
      ∀ k u, Upto depth (k + 1) → AtDistance (s.alongEdges .out edges) root (k + 1) u →
        s.read.containsUid u = true := by
  rw [Lineage.ball_iff (s.trace_via_ball root edges depth) (s.step_of_along .out edges)]
  constructor
  · intro kept k u upto here
    obtain ⟨n, _, edge⟩ := kept k u upto here
    exact ((s.mem_supports_of edges n u).mp edge).2
  · intro held k u upto here
    obtain ⟨n, before, edge⟩ := distance_before here
    exact ⟨n, before, (s.mem_supports_of edges n u).mpr ⟨edge, held k u upto here⟩⟩

theorem both_ball_iff (root : Uid) (edges : EdgeSet) (depth : Option Nat) :
    (s.traceBoth root edges depth).Ball (s.alongEdges .both edges) depth ↔
      ∀ k u, Upto depth (k + 1) → AtDistance (s.alongEdges .both edges) root (k + 1) u →
        s.read.containsUid u = true ∨ ∃ n, AtDistance (s.alongEdges .both edges) root k n ∧
          u ∈ s.adjacency.restingOn n edges := by
  rw [Lineage.ball_iff (s.trace_both_ball root edges depth) (s.step_of_along .both edges)]
  constructor
  · intro kept k u upto here
    obtain ⟨n, before, edge⟩ := kept k u upto here
    rcases (s.mem_either_step edges n u).mp edge with support | dependent
    · exact Or.inl ((s.mem_supports_of edges n u).mp support).2
    · exact Or.inr ⟨n, before, (s.mem_dependents_step edges n u).mp dependent⟩
  · intro either k u upto here
    rcases either k u upto here with held | ⟨n, before, dependent⟩
    · obtain ⟨n, before, edge⟩ := distance_before here
      refine ⟨n, before, (s.mem_either_step edges n u).mpr ?_⟩
      rcases List.mem_append.mp edge with support | dependent
      · exact Or.inl ((s.mem_supports_of edges n u).mpr ⟨support, held⟩)
      · exact Or.inr ((s.mem_dependents_step edges n u).mpr dependent)
    · exact ⟨n, before, (s.mem_either_step edges n u).mpr
        (Or.inr ((s.mem_dependents_step edges n u).mpr dependent))⟩

/-- The walks by depth are balls along the edges where what these lead to is held. -/
theorem traces_are_balls_iff (root : Uid) (edges : EdgeSet) (depth : Option Nat) :
    s.TracesAreBalls root edges depth ↔ s.HeldWithin root edges depth := by
  constructor
  · intro balls
    exact ⟨(s.via_ball_iff root edges depth).mp balls.via,
      (s.both_ball_iff root edges depth).mp balls.both⟩
  · intro held
    have via := (s.via_ball_iff root edges depth).mpr held.out
    have dependents := s.dependents_ball root edges depth
    refine ⟨via, dependents, (s.both_ball_iff root edges depth).mpr held.both, ?_, ?_, ?_⟩
    · intro unbounded u
      rw [unbounded] at via ⊢
      exact Lineage.mem_unbounded via (s.mem_rests_on root edges) u
    · intro unbounded u
      rw [unbounded] at dependents ⊢
      exact Lineage.mem_unbounded dependents (s.mem_dependents_via root edges) u
    · intro t _ same seeds
      rw [← same]
      exact s.truncation_iff t seeds

end
end Store

section
local instance plainTraceText : Unicode := .plain
local instance modPrimeTraceHash : Blake3 := .modPrime

/-- A claim, and what it depends on is not held. -/
def unsupported : Store :=
  Store.fromRecords [.unit (resting "b" present_b [resting "a" present_a []])]

theorem absent_dependency_not_traced :
    ¬ ∀ (s : Store) (root : Uid) (edges : EdgeSet) (depth : Option Nat),
      s.TracesAreBalls root edges depth := by
  intro all
  have closure := (all unsupported
    (canonicalUid (resting "b" (by decide) [resting "a" (by decide) []])) { all := true }
    none).restsClosure rfl (canonicalUid (resting "a" (by decide) []))
  have untraced : canonicalUid (resting "a" (by decide) []) ∉ (unsupported.traceVia
      (canonicalUid (resting "b" (by decide) [resting "a" (by decide) []])) { all := true }
      none).uids := by decide +kernel
  exact untraced (closure.mpr (Or.inr (by decide +kernel)))

end
end Smysl
