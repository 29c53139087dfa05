import Mathlib

/-!
A simple temporal network: difference constraints, and the tightest bounds they
give by two label-correcting searches, with the cycles that make them impossible
searched for apart. The sum of two instants is a parameter: the solver saturates.
-/
namespace Smysl

/-- An array of `n` values, as the value at each place. -/
def setAt {α : Type} (f : Nat → α) (i : Nat) (a : α) : Nat → α := fun j => if j = i then a else f j

namespace Stn

/-- `t[dst] - t[src] ≤ weight`, attributed to `cause`. -/
structure Edge where
  src : Nat
  dst : Nat
  weight : Int
  cause : Nat
  deriving DecidableEq

/-- The reference variable, fixed at zero. -/
def reference : Nat := 0

/-- The node of a variable: node 0 is the reference. -/
def node (v : Nat) : Nat := v + 1

structure Network where
  vars : Nat
  edges : List Edge := []
  deriving DecidableEq

structure Solution where
  upper : List (Option Int)
  lower : List (Option Int)
  upperBy : List (Option Nat)
  lowerBy : List (Option Nat)
  inconsistent : List Nat
  deriving DecidableEq

namespace Network

def constrain (net : Network) (src dst : Nat) (weight : Int) (cause : Nat) : Network :=
  { net with edges := net.edges ++ [⟨src, dst, weight, cause⟩] }

def upper (net : Network) (v : Nat) (at_ : Int) (cause : Nat) : Network :=
  net.constrain reference (node v) at_ cause

def lower (net : Network) (v : Nat) (at_ : Int) (cause : Nat) : Network :=
  net.constrain (node v) reference (-at_) cause

/-- `a` is no later than `b`, by at least `-slack`. -/
def noLater (net : Network) (a b : Nat) (slack : Int) (cause : Nat) : Network :=
  net.constrain (node b) (node a) slack cause

def same (net : Network) (a b : Nat) (cause : Nat) : Network :=
  (net.noLater a b 0 cause).noLater b a 0 cause

end Network

/-! The search. -/

/-- An edge as a search leaves a node by it. -/
structure Arc where
  head : Nat
  weight : Int
  cause : Nat
  deriving DecidableEq

/-- What a search holds. A node is queued when it is in the queue. -/
structure Labels where
  dist : Nat → Option Int
  cause : Nat → Option Nat
  relaxations : Nat → Nat
  queue : List Nat
  onCycle : List Nat

section
variable (plus : Int → Int → Int) (n : Nat)

namespace Labels

/-- A shorter way to a node. More than `n` of them stop the search there. -/
def lowerTo (st : Labels) (a : Arc) (cand : Int) : Labels :=
  let st := { st with
    dist := setAt st.dist a.head (some cand)
    cause := setAt st.cause a.head (some a.cause)
    relaxations := setAt st.relaxations a.head (st.relaxations a.head + 1) }
  if st.relaxations a.head > n then { st with onCycle := st.onCycle ++ [a.head] }
  else if a.head ∈ st.queue then st
  else { st with queue := st.queue ++ [a.head] }

/-- An equally short way changes only what the node is attributed to. -/
def tie (st : Labels) (a : Arc) : Labels :=
  if (st.cause a.head).all (fun b => a.cause < b) then
    { st with cause := setAt st.cause a.head (some a.cause) }
  else st

/-- Relax an arc that leaves a node at distance `du`. -/
def relax (du : Int) (st : Labels) (a : Arc) : Labels :=
  match st.dist a.head with
  | none => st.lowerTo n a (plus du a.weight)
  | some d =>
    if plus du a.weight > d then st
    else if plus du a.weight = d then st.tie a
    else st.lowerTo n a (plus du a.weight)

end Labels

/-- Take nodes from the queue until it is empty. -/
def run (scan : Nat → Labels → Labels) : Nat → Labels → Labels
  | 0, st => st
  | fuel + 1, st =>
    match st.queue with
    | [] => st
    | u :: queue => run scan fuel (scan u { st with queue := queue })

/-- Pops that are enough: those queued at the start, and `n` for each node. -/
def enough : Nat := n + n * n + 1

end

namespace Network
variable (plus : Int → Int → Int) (net : Network)

/-- The arcs of a search from the reference, or to it. The reference is where the
search starts, never where it returns to. -/
def arcs (reverse : Bool) (u : Nat) : List Arc :=
  net.edges.filterMap (fun e =>
    let (src, dst) := if reverse then (e.dst, e.src) else (e.src, e.dst)
    if src = u ∧ dst ≠ reference then some ⟨dst, e.weight, e.cause⟩ else none)

/-- The arcs between subjects. -/
def inner (u : Nat) : List Arc :=
  net.edges.filterMap (fun e =>
    if e.src = u ∧ e.src ≠ reference ∧ e.dst ≠ reference then some ⟨e.dst, e.weight, e.cause⟩
    else none)

/-- One node of `shortest`: its distance is read before its arcs are relaxed. -/
def scanShortest (n : Nat) (reverse : Bool) (u : Nat) (st : Labels) : Labels :=
  match st.dist u with
  | none => st
  | some du => (net.arcs reverse u).foldl (Labels.relax plus n du) st

def shortest (n : Nat) (reverse : Bool) : Labels :=
  run (net.scanShortest plus n reverse) (enough n)
    { dist := setAt (fun _ => none) reference (some 0)
      cause := fun _ => none
      relaxations := fun _ => 0
      queue := [reference]
      onCycle := [] }

/-- One node of `negative_cycles`: its distance is read again for each arc. An equal
distance is left alone, and nothing is attributed. -/
def scanCycles (n : Nat) (u : Nat) (st : Labels) : Labels :=
  (net.inner u).foldl (fun st a =>
    match st.dist u with
    | none => st
    | some du =>
      if (st.dist a.head).any (fun d => d ≤ plus du a.weight) then st
      else st.lowerTo n a (plus du a.weight)) st

/-- The search from a virtual source over every node. -/
def cycleSearch (n : Nat) : Labels :=
  run (net.scanCycles plus n) (enough n)
    { dist := fun _ => some 0
      cause := fun _ => none
      relaxations := fun _ => 0
      queue := List.range n
      onCycle := [] }

/-- Push what is not seen yet, and name it. The top of the stack is its head. -/
def pushUnseen (wanted : Nat → Bool) (next : List Nat) (st : List Nat × List Nat × List Nat) :
    List Nat × List Nat × List Nat :=
  next.foldl (fun st v =>
    if v ∈ st.2.1 ∨ wanted v = false then st
    else (v :: st.1, v :: st.2.1, st.2.2 ++ [v])) st

/-- Spread what is named along `next`: the stack, the nodes seen, and those named. -/
def spread (wanted : Nat → Bool) (next : Nat → List Nat) :
    Nat → List Nat × List Nat × List Nat → List Nat × List Nat
  | 0, st => st.2
  | fuel + 1, (stack, seen, named) =>
    match stack with
    | [] => (seen, named)
    | u :: stack =>
      spread wanted next fuel (pushUnseen wanted (next u) (stack, seen, named))

/-- Whether `start` lies on a cycle, in `n * n` steps at most. -/
def isOnCycle (start : Nat) : Nat → List Nat → List Nat → Bool
  | 0, _, _ => false
  | _ + 1, [], _ => false
  | steps + 1, u :: stack, seen =>
    let heads := (net.inner u).map Arc.head
    if start ∈ heads then true
    else
      let pushed := heads.foldl (fun st v =>
        if v ∈ st.2 then st else (v :: st.1, v :: st.2)) (stack, seen)
      isOnCycle start steps pushed.1 pushed.2

/-- Every node a negative cycle reaches, and those on a cycle that lead there. -/
def negativeCycles (n : Nat) : List Nat :=
  let first := (net.cycleSearch plus n).onCycle
  if first.isEmpty then []
  else
    let forward := spread (fun _ => true) (fun u => (net.inner u).map Arc.head)
      (first.length + n) (first.reverse, first, first)
    let into := fun u => net.edges.filterMap (fun e =>
      if e.dst = u ∧ e.src ≠ reference ∧ e.dst ≠ reference then some e.src else none)
    let back := spread (fun v => net.isOnCycle v (n * n) [v] []) into
      (forward.2.length + n) (forward.2.reverse, forward.1, forward.2)
    (back.2.mergeSort (· ≤ ·)).dedup

/-- The tightest bound on every variable, or the subjects it is impossible for. -/
def solve : Solution :=
  let n := net.vars + 1
  let up := net.shortest plus n false
  let down := net.shortest plus n true
  let lo := fun v => (down.dist v).map (fun d => -d)
  let cycles := ((net.negativeCycles plus n).filter (fun v => v != reference)).map (fun v => v - 1)
  let crossed := (List.range net.vars).filter (fun v =>
    match lo (node v), up.dist (node v) with
    | some lo, some hi => decide (hi < lo)
    | _, _ => false)
  { upper := (List.range net.vars).map (fun v => up.dist (node v))
    lower := (List.range net.vars).map (fun v => lo (node v))
    upperBy := (List.range net.vars).map (fun v => up.cause (node v))
    lowerBy := (List.range net.vars).map (fun v => down.cause (node v))
    inconsistent := ((cycles ++ crossed).mergeSort (· ≤ ·)).dedup }

end Network
end Stn
end Smysl
