import Smysl.Graph.BundleClosed
import Smysl.Lib.Kahn

/-!
Traversals over the kinds of edge in a set: what is reachable, a dependency order, and what
lies on cycles. Every result is a function of the graph.
-/
namespace Smysl
open ByteString

/-- A set of edge kinds to follow. -/
structure EdgeSet where
  kinds : BTreeSet EdgeKind := ∅
  all : Bool := false
  deriving DecidableEq

def EdgeSet.contains (edges : EdgeSet) (k : EdgeKind) : Bool := edges.all || edges.kinds.contains k

namespace Adjacency

/-- Outgoing neighbours along the kinds, in order. -/
def outVia (g : Adjacency) (kinds : EdgeSet) (n : Uid) : List Uid :=
  (BTreeSet.ofList ((((g.fwd.get n).getD ∅).toList.filter (fun e =>
    kinds.contains (ofLex e).1)).map (fun e => (ofLex e).2))).toList

/-- Incoming neighbours along the kinds, in order. -/
def incomingVia (g : Adjacency) (kinds : EdgeSet) (n : Uid) : List Uid :=
  (BTreeSet.ofList ((((g.rev.get n).getD ∅).toList.filter (fun e =>
    kinds.contains (ofLex e).1)).map (fun e => (ofLex e).2))).toList

/-- Everything reachable from those of the roots that are nodes, themselves included. -/
def closureVia (g : Adjacency) (roots : List Uid) (kinds : EdgeSet) : BTreeSet Uid :=
  Worklist.run (g.outVia kinds) g.order.length
    ((roots.filter (fun u => decide (u ∈ g.order))).foldl Worklist.push (∅, []))

/-- Everything that reaches them. -/
def reverseClosure (g : Adjacency) (roots : List Uid) (kinds : EdgeSet) : BTreeSet Uid :=
  Worklist.run (g.incomingVia kinds) g.order.length
    ((roots.filter (fun u => decide (u ∈ g.order))).foldl Worklist.push (∅, []))

/-- The result of a topological sort: the nodes in dependency order, and those that could
not be ordered. -/
structure TopoOrder where
  order : List Uid
  cyclic : List Uid
  deriving DecidableEq

def TopoOrder.isAcyclic (t : TopoOrder) : Bool := t.cyclic.isEmpty

/-- How many dependencies each node waits for, and what waits for none. -/
def unordered (g : Adjacency) (kinds : EdgeSet) : Kahn.State Uid where
  pending := BTreeMap.ofList (g.order.map (fun n => (n, (g.outVia kinds n).length)))
  ready := g.order.filter (fun n => (g.outVia kinds n).length == 0)
  order := []

/-- Kahn's algorithm over the kinds, with the least ready node popped first. -/
def topo (g : Adjacency) (kinds : EdgeSet) : TopoOrder :=
  let order := (Kahn.run (g.incomingVia kinds) g.order.length (g.unordered kinds)).order
  { order, cyclic := g.order.filter (fun n => decide (n ∉ order)) }

/-- What remains of all that leads to a node and that it leads to. -/
def group (g : Adjacency) (kinds : EdgeSet) (remaining : List Uid) (start : Uid) : List Uid :=
  let forward := g.closureVia [start] kinds
  let backward := g.reverseClosure [start] kinds
  let group := forward.toList.filter (fun n => backward.contains n && decide (n ∈ remaining))
  if group.isEmpty then [start] else group

/-- Cycles over the kinds, as sets of mutually reachable nodes. -/
def cycles (g : Adjacency) (kinds : EdgeSet) : List (List Uid) :=
  let t := g.topo kinds
  if t.isAcyclic then []
  else (Kahn.groups (g.group kinds) t.cyclic.length t.cyclic).mergeSort (fun a b =>
    decide (a ≤ b))

end Adjacency
end Smysl
