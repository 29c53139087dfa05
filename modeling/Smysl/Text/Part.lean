import Smysl.Text.Limits
import Smysl.Text.Reading

/-!
How a reader's nodes become parts. A part takes nodes until it is large enough or the next
would make it too large, and runs on to where the next part's first node starts, so that the
parts hold every byte of the text and not only what is in a node.
-/
namespace Smysl

/-- The size targets; the level whose nodes are grouped plays no part in the grouping. -/
structure Policy where
  targetMin : UInt64
  targetMax : UInt64
  deriving DecidableEq, Repr

/-- A byte range of the whole text, and the indices of the nodes in it. -/
structure PartPlan where
  range : ByteRange
  first : Nat
  last : Nat
  deriving DecidableEq, Repr

namespace Parts

/-- Where a part's nodes end, and how many more it takes. Sizes are of the nodes, not of the
range the part is stretched to. -/
def fill (policy : Policy) (extent : UInt64) : UInt64 → List ByteRange → UInt64 × Nat
  | stop, [] => (stop, 0)
  | stop, node :: rest =>
    let wouldBe := saturatingSub node.stop extent
    if policy.targetMin ≤ saturatingSub stop extent ∨ policy.targetMax < wouldBe then (stop, 0)
    else
      let more := fill policy extent (max stop node.stop) rest
      (more.1, more.2 + 1)

/-- Where a part runs to: the next part's first node, or the end of the text. -/
def runsTo (length stop start : UInt64) : List ByteRange → UInt64
  | next :: _ => max (max next.start stop) start
  | [] => max (max length stop) start

/-- The parts of the nodes from one on, the first of them beginning at `start`. Each takes a
node, so there are no more steps than nodes. -/
def groupFrom (policy : Policy) (length : UInt64) (budget : Budget) :
    Nat → Nat → UInt64 → List ByteRange → Except Limit (List PartPlan)
  | 0, _, _, _ => .ok []
  | _ + 1, _, _, [] => .ok []
  | steps + 1, first, start, node :: rest =>
    let filled := fill policy node.start node.stop rest
    let later := rest.drop filled.2
    let stop := runsTo length filled.1 start later
    match budget.part (saturatingSub stop start) with
    | .error e => .error e
    | .ok () =>
      match groupFrom policy length budget steps (first + 1 + filled.2) stop later with
      | .error e => .error e
      | .ok parts => .ok (⟨⟨start, stop⟩, first, first + 1 + filled.2⟩ :: parts)

def group (nodes : List ByteRange) (policy : Policy) (length : UInt64) (budget : Budget) :
    Except Limit (List PartPlan) :=
  groupFrom policy length budget nodes.length 0 0 nodes

/-- A mark, by a part's own offsets. -/
def localMark (range : ByteRange) (mark : Mark) : Mark :=
  { mark with start := mark.start - range.start, stop := mark.stop - range.start }

/-- A row, by a part's own offsets. -/
def localRow (range : ByteRange) (row : Segment) : Segment :=
  { row with
    start := row.start - range.start
    stop := row.stop - range.start
    reported := row.reported.map (localMark range) }

/-- The rows of one part. -/
def localRows (rows : List Segment) (range : ByteRange) : List Segment :=
  (rows.filter (fun r => range.start ≤ r.start ∧ r.stop ≤ range.stop)).map (localRow range)

/-! How a part ends, said of the nodes alone. -/

variable (policy : Policy) (length : UInt64) (nodes : List ByteRange)

def startAt (i : Nat) : UInt64 := (nodes[i]?.map ByteRange.start).getD 0

def stopAt (i : Nat) : UInt64 := (nodes[i]?.map ByteRange.stop).getD 0

/-- The part that node `j` opens has all nodes up to `m` and does not take `m`: it is large
enough, or it would be too large. -/
def Full (j m : Nat) : Prop :=
  policy.targetMin ≤ saturatingSub (stopAt nodes (m - 1)) (startAt nodes j) ∨
    policy.targetMax < saturatingSub (stopAt nodes m) (startAt nodes j)

/-- The part that node `j` opens has the nodes up to `k`. -/
structure Closes (j k : Nat) : Prop where
  opened : j < k
  within : k ≤ nodes.length
  takes : ∀ m, j < m → m < k → ¬ Full policy nodes j m
  full : k < nodes.length → Full policy nodes j k

/-- A part opens at this node. -/
inductive Opens : Nat → Prop
  | first : Opens 0
  | next {j k : Nat} (opened : Opens j) (closes : Closes policy nodes j k)
    (more : k < nodes.length) : Opens k

/-- Where the part that node `j` opens begins: the text's beginning is the first one's. -/
def place (j : Nat) : UInt64 := if j = 0 then 0 else startAt nodes j

/-- Where a part ends that has the nodes up to `k`. -/
def reach (k : Nat) : UInt64 := if k < nodes.length then startAt nodes k else length

/-- Nodes in document order and apart, inside the text. -/
structure Ascending : Prop where
  forward : ∀ n ∈ nodes, n.start ≤ n.stop
  apart : nodes.Pairwise (fun a b => a.stop ≤ b.start)
  inside : ∀ n ∈ nodes, n.stop ≤ length

/-- The parts from node `j` on, as the nodes determine them. -/
inductive Cut : Nat → UInt64 → List PartPlan → Prop
  | done {j : Nat} {start : UInt64} (none : nodes.length ≤ j) : Cut j start []
  | part {j k : Nat} {start : UInt64} {parts : List PartPlan} (closes : Closes policy nodes j k)
    (later : Cut k (reach length nodes k) parts) :
    Cut j start (⟨⟨start, reach length nodes k⟩, j, k⟩ :: parts)

section
variable {policy length nodes}

theorem closes_unique {j k k' : Nat} (one : Closes policy nodes j k)
    (two : Closes policy nodes j k') : k = k' := by
  have within := one.within
  have within' := two.within
  rcases Nat.lt_trichotomy k k' with less | same | less
  · exact absurd (one.full (by omega)) (two.takes k one.opened less)
  · exact same
  · exact absurd (two.full (by omega)) (one.takes k' two.opened less)

theorem start_at {i : Nat} {node : ByteRange} (here : nodes[i]? = some node) :
    startAt nodes i = node.start := by
  rw [startAt, here]
  rfl

theorem stop_at {i : Nat} {node : ByteRange} (here : nodes[i]? = some node) :
    stopAt nodes i = node.stop := by
  rw [stopAt, here]
  rfl

namespace Ascending

theorem start_stop (ascending : Ascending length nodes) {i : Nat} (inside : i < nodes.length) :
    startAt nodes i ≤ stopAt nodes i := by
  have here := List.getElem?_eq_getElem inside
  rw [start_at here, stop_at here]
  exact ascending.forward _ (List.getElem_mem inside)

theorem stop_start (ascending : Ascending length nodes) {i j : Nat} (less : i < j)
    (inside : j < nodes.length) : stopAt nodes i ≤ startAt nodes j := by
  rw [stop_at (List.getElem?_eq_getElem (less.trans inside)),
    start_at (List.getElem?_eq_getElem inside)]
  exact List.pairwise_iff_getElem.mp ascending.apart i j (less.trans inside) inside less

theorem stop_length (ascending : Ascending length nodes) {i : Nat} (inside : i < nodes.length) :
    stopAt nodes i ≤ length := by
  rw [stop_at (List.getElem?_eq_getElem inside)]
  exact ascending.inside _ (List.getElem_mem inside)

theorem start_start (ascending : Ascending length nodes) {i j : Nat} (le : i ≤ j)
    (inside : j < nodes.length) : startAt nodes i ≤ startAt nodes j := by
  rcases Nat.eq_or_lt_of_le le with rfl | less
  · exact UInt64.le_refl _
  · have first := ascending.start_stop (less.trans inside)
    have second := ascending.stop_start less inside
    exact UInt64.le_trans first second

/-- A node before a part's end is inside it. -/
theorem stop_reach (ascending : Ascending length nodes) {i k : Nat} (less : i < k)
    (inside : i < nodes.length) : stopAt nodes i ≤ reach length nodes k := by
  rw [reach]
  split
  · rename_i more
    exact ascending.stop_start less more
  · exact ascending.stop_length inside

theorem place_start (ascending : Ascending length nodes) {j i : Nat} (le : j ≤ i)
    (inside : i < nodes.length) : place nodes j ≤ startAt nodes i := by
  rw [place]
  split
  · exact UInt64.zero_le
  · exact ascending.start_start le inside

theorem place_reach (ascending : Ascending length nodes) {j k : Nat}
    (closes : Closes policy nodes j k) : place nodes j ≤ reach length nodes k := by
  have inside : j < nodes.length := lt_of_lt_of_le closes.opened closes.within
  have first := ascending.place_start (le_refl j) inside
  have second := ascending.start_stop inside
  have third := ascending.stop_reach closes.opened inside
  exact UInt64.le_trans first (UInt64.le_trans second third)

end Ascending

/-- A node that opens no part ends the part before it there. -/
theorem reach_place {k : Nat} (more : k < nodes.length) (positive : 0 < k) :
    reach length nodes k = place nodes k := by
  rw [reach, if_pos more, place, if_neg (by omega)]

end
end Parts
end Smysl
