import Smysl.Graph.Adjacency
import Smysl.Graph.Contention
import Smysl.Graph.Traverse
import Smysl.Lib.Obligations
import Smysl.Pack.Cost

/-!
Closure expansion. Selecting a unit is never a single purchase: at any level it
drags in its rebuttals and every position of a contention it touches, and from
the first level up its deps, grounds and warrants; and each of those drags in
its own.
-/
namespace Smysl
open ByteString Obligations

/-- Whether an edge is within a unit rather than a relation. -/
def EdgeKind.isSupport : EdgeKind → Bool
  | .deps => true
  | .grounds => true
  | _ => false

/-- What a node rests on: along its own references, and against relations. -/
def Adjacency.oneHop (g : Adjacency) (n : Uid) (edges : EdgeSet) : List Uid :=
  let alongSupport := ((g.fwd.get n).getD ∅).toList.filter (fun e => (ofLex e).1.isSupport)
  let alongRelations := ((g.rev.get n).getD ∅).toList.filter (fun e => !(ofLex e).1.isSupport)
  ((alongSupport ++ alongRelations).filter (fun e => edges.contains (ofLex e).1)).map
    (fun e => (ofLex e).2)

namespace Store
section
variable [Blake3]

/-- The sources of the live `rebuts` edges to a unit. -/
def rebuttalsOf (s : Store) (uid : Uid) : List Uid :=
  let incoming := ((s.adjacency.rev.get uid).getD ∅).toList.filter (fun e =>
    some (ofLex e).1 == (RelKind.code .rebuts).map EdgeKind.kernel)
  (BTreeSet.ofList (incoming.map (fun e => (ofLex e).2))).toList.filter
    (fun a => s.read.containsUid a && !s.unfounded.contains a)

def warrantsOf (s : Store) (uid : Uid) : List Uid :=
  (((s.read.relationsOfKind .warrant).filter (fun r => r.src == uid)).map Relation.dst).filter
    s.read.containsUid

def supportsOf (s : Store) (uid : Uid) (edges : EdgeSet) : List Uid :=
  (s.adjacency.oneHop uid edges).filter s.read.containsUid

/-- What a unit at a level drags in. -/
def draggedIn (s : Store) (support : EdgeSet) (x : Uid) (lx : Lod) : List Uid :=
  if s.read.containsUid x then
    (if Lod.l1 ≤ lx then
      (match s.units.get x with
      | some unit =>
        (unit.core.deps.toList ++ unit.core.grounds.toList).filter s.read.containsUid
      | none => []) ++ s.warrantsOf x ++ s.supportsOf x support
    else [])
    ++ (s.rebuttalsOf x).filter s.read.containsUid
    ++ s.openContentions.flatMap (fun k =>
      if k.pins x then k.positions.filter s.read.containsUid else [])
  else []

/-- And it is dragged in at the lowest level. -/
def obliges (s : Store) (support : EdgeSet) (x : Uid) (lx : Lod) : List (Uid × Lod) :=
  (s.draggedIn support x lx).map (fun u => (u, .l0))

/-- More than any unit drags in. -/
def obligations (s : Store) (support : EdgeSet) : Nat :=
  (s.units.keys.map (fun u => (s.obliges support u .l2).length)).sum

/-- The minimum levels a selection must reach for a unit at a level to be
admissible: the loop pops each obligation it pushed, and pushes what a unit
obliges when it raises it. -/
def requiredVia (s : Store) (uid : Uid) (level : Lod) (support : EdgeSet) : Selection :=
  run (s.obliges support) ((s.units.keys.length + 1) * (s.obligations support + 1) + 1) ∅
    [(uid, level)]

/-- And over no support edges. -/
abbrev required (s : Store) (uid : Uid) (level : Lod) : Selection := s.requiredVia uid level {}

/-- The part of an obligation a selection has not met yet. -/
def keepShortfall (need selected : Selection) : Selection :=
  need.filter (fun u l =>
    match selected.get u with
    | some existing => decide (existing < l)
    | none => true)

/-- What a unit at a level would add to an existing selection. -/
def delta (s : Store) (selected : Selection) (uid : Uid) (level : Lod) : Selection :=
  keepShortfall (s.required uid level) selected

end
end Store
end Smysl
