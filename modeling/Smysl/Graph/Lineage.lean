import Smysl.Graph.Cycles
import Smysl.Lib.Breadth
import Smysl.Pack.Closure

/-!
Lineage over the edges a caller names: what a unit rests on, what depends on it, and
what is connected to it either way. Each is walked flat, with a stack, and by depth,
level by level.
-/
namespace Smysl
open ByteString

/-- Which lineage a walk follows. -/
inductive TraceKind
  | parents
  | grounds
  | both
  | rests
  deriving DecidableEq, Repr

/-- How a unit was reached. -/
inductive Via
  | root
  | parent
  | supersedes
  | grounds
  | deps
  | rests
  deriving DecidableEq, Repr

namespace Via

def order : Via → Nat
  | root => 0
  | parent => 1
  | supersedes => 2
  | grounds => 3
  | deps => 4
  | rests => 5

theorem order_injective : Function.Injective order := by
  intro a b same
  cases a <;> cases b <;> first
    | rfl
    | cases same

instance : LinearOrder Via := LinearOrder.lift' order order_injective

end Via

/-- One step of a walk. -/
structure LineageNode where
  uid : Uid
  depth : Nat
  via : Via
  /-- Every agent that attested the unit. -/
  agents : BTreeSet AgentId
  /-- The earliest hop any of them attested it at. -/
  hop : Option UInt32

structure Lineage where
  root : Uid
  kind : TraceKind
  nodes : List LineageNode

namespace Adjacency

/-- What rests on a node, the other way round from `oneHop`: against references, and
along relations. -/
def restingOn (g : Adjacency) (n : Uid) (edges : EdgeSet) : List Uid :=
  let alongSupport := ((g.rev.get n).getD ∅).toList.filter (fun e => (ofLex e).1.isSupport)
  let alongRelations := ((g.fwd.get n).getD ∅).toList.filter (fun e => !(ofLex e).1.isSupport)
  ((alongSupport ++ alongRelations).filter (fun e => edges.contains (ofLex e).1)).map
    (fun e => (ofLex e).2)

/-- What a walk with a stack reaches from a node, in the order first reached and without
the node itself. -/
def reached (g : Adjacency) (next : Uid → List Uid) (start : Uid) : List Uid :=
  if start ∈ g.order then
    Worklist.trail next g.order.length (Worklist.push (∅, []) start, [])
  else []

end Adjacency

namespace Store
section
variable [Blake3]

/-- Who attested a unit, and at what hop it first appeared. -/
def attribution (s : Store) (uid : Uid) : BTreeSet AgentId × Option UInt32 :=
  match s.units.get uid with
  | some u =>
    let attestations := u.attestations.toList
    (BTreeSet.ofList (attestations.map Attestation.agent), (attestations.map Attestation.hop).min?)
  | none => (∅, none)

/-- Everything a unit rests on, over the edges. -/
def restsOn (s : Store) (uid : Uid) (edges : EdgeSet) : List Uid :=
  s.adjacency.reached (fun n => s.adjacency.oneHop n edges) uid

/-- Everything that depends on a unit, over the edges. -/
def dependentsVia (s : Store) (uid : Uid) (edges : EdgeSet) : List Uid :=
  s.adjacency.reached (fun n => s.adjacency.restingOn n edges) uid

/-- One level of dependents. -/
def dependentsStep (s : Store) (uid : Uid) (edges : EdgeSet) : List Uid :=
  (BTreeSet.ofList (s.adjacency.restingOn uid edges)).toList

/-- One level either way. -/
def eitherStep (s : Store) (uid : Uid) (edges : EdgeSet) : List Uid :=
  (BTreeSet.ofList (s.supportsOf uid edges ++ s.dependentsStep uid edges)).toList

/-- What a unit's own references call another. -/
def calls (s : Store) (uid other : Uid) : Option Via :=
  match s.units.get uid with
  | some unit =>
    if unit.core.grounds.contains other then some .grounds
    else if unit.core.deps.contains other then some .deps
    else none
  | none => none

/-- A walk level by level, each level in order, and what it reached in order of depth. -/
def walkBy (s : Store) (next : Uid → List Uid) (via : Uid → Uid → Via) (root : Uid)
    (depth : Option Nat) : Lineage :=
  let found := Breadth.search next via
    (fun frontier => frontier.mergeSort (fun a b => decide (toLex a ≤ toLex b))) depth
    (s.adjacency.order.length + 1) 0 [(root, Via.root)] ((∅ : BTreeSet Uid).insert root)
  let nodes := found.map (fun e =>
    let by_ := s.attribution e.1
    ({ uid := e.1, depth := e.2.1, via := e.2.2, agents := by_.1, hop := by_.2 } : LineageNode))
  { root, kind := .rests
    nodes := nodes.mergeSort (fun a b => decide (toLex (a.depth, a.uid) ≤
      toLex (b.depth, b.uid))) }

/-- What a unit rests on, by depth. -/
def traceVia (s : Store) (root : Uid) (edges : EdgeSet) (depth : Option Nat) : Lineage :=
  s.walkBy (fun n => s.supportsOf n edges) (fun uid u => (s.calls uid u).getD .rests) root depth

/-- What depends on a unit, by depth. -/
def dependentsTrace (s : Store) (root : Uid) (edges : EdgeSet) (depth : Option Nat) : Lineage :=
  s.walkBy (fun n => s.dependentsStep n edges) (fun uid u => (s.calls u uid).getD .rests) root depth

/-- What is connected to a unit, by depth: a walk that may turn at every step. -/
def traceBoth (s : Store) (root : Uid) (edges : EdgeSet) (depth : Option Nat) : Lineage :=
  s.walkBy (fun n => s.eitherStep n edges)
    (fun uid u => ((s.calls uid u).or (s.calls u uid)).getD .rests) root depth

end
end Store
end Smysl
