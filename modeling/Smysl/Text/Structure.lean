import Smysl.Text.Limits
import Smysl.Text.Reading

/-!
The structure of a part: the segment table read as a tree, in one pass with a stack of the
rows that are still open. Rows are counted by unbounded numbers where the code has `u32`.
-/
namespace Smysl

/-- One row of the table, placed in the tree. -/
structure Node where
  row : Nat
  level : Level
  range : ByteRange
  locator : Locator
  children : Nat × Nat
  parent : Option Nat
  deriving DecidableEq

def Node.len (n : Node) : UInt64 := saturatingSub n.range.stop n.range.start

/-- Why a segment table is not a structure. -/
inductive Defect
  | backwards
  | outOfOrder
  | partialOverlap
  | pastTheEnd
  | duplicateLocator
  deriving DecidableEq, Repr

/-- What `build` refuses with: a defect and its row, or a resource cap. -/
inductive BuildError
  | defect (row : Nat) (defect : Defect)
  | limit (limit : Limit)
  deriving DecidableEq

/-- A part's structure: the nodes, their children flattened, and where each locator is. -/
structure Structure where
  nodes : List Node
  childIndex : List Nat
  roots : List Nat
  byLocator : List (Locator × Nat)
  length : UInt64

namespace Structure

/-- What has been built so far; the stack has the innermost open row first. -/
structure Building where
  nodes : List Node := []
  kids : List (List Nat) := []
  roots : List Nat := []
  byLocator : List (Locator × Nat) := []
  stack : List Nat := []
  prevStart : UInt64 := 0

/-- Where an open row ends. -/
def Building.stopOf (st : Building) (k : Nat) : UInt64 :=
  (st.nodes[k]?.map (fun n => n.range.stop)).getD 0

/-- Every row that a row is not inside of is closed; one it starts in and does not end in is
overlapped in part. -/
def close (st : Building) (row : Segment) : List Nat → Except Defect (List Nat)
  | [] => .ok []
  | top :: rest =>
    if st.stopOf top ≤ row.start then close st row rest
    else if st.stopOf top < row.stop then .error .partialOverlap
    else .ok (top :: rest)

/-- A row whose ancestors are open becomes a node, open in its turn. -/
def place (st : Building) (row : Segment) (stack : List Nat) : Building :=
  let idx := st.nodes.length
  let parent := stack.head?
  let kids := st.kids ++ [[]]
  { nodes := st.nodes ++ [⟨idx, row.level, ⟨row.start, row.stop⟩, row.locator, (0, 0), parent⟩]
    kids := match parent with
      | some p => kids.modify p (· ++ [idx])
      | none => kids
    roots := match parent with
      | some _ => st.roots
      | none => st.roots ++ [idx]
    byLocator := (row.locator, idx) :: st.byLocator
    stack := idx :: stack
    prevStart := row.start }

def step (length : UInt64) (st : Building) (row : Segment) : Except Defect Building :=
  if row.stop < row.start then .error .backwards
  else if length < row.stop then .error .pastTheEnd
  else if row.start < st.prevStart then .error .outOfOrder
  else
    match close st row st.stack with
    | .error defect => .error defect
    | .ok stack =>
      if (st.byLocator.lookup row.locator).isSome then .error .duplicateLocator
      else .ok (place st row stack)

/-- The pass over the rows, each charged before it is looked at. -/
def readRows (length : UInt64) : Nat → List Segment → Building → Budget →
    Except BuildError Building × Budget
  | _, [], st, budget => (.ok st, budget)
  | i, row :: rows, st, budget =>
    match budget.node with
    | (.error e, spent) => (.error (.limit e), spent)
    | (.ok (), spent) =>
      match step length st row with
      | .error defect => (.error (.defect i defect), spent)
      | .ok st => readRows length (i + 1) rows st spent

/-- Each node is given the range its children have in the flattened index. -/
def assignChildren : Nat → List Node → List (List Nat) → List Node
  | start, node :: nodes, list :: kids =>
    { node with children := (start, start + list.length) } ::
      assignChildren (start + list.length) nodes kids
  | _, nodes, _ => nodes

def finish (length : UInt64) (st : Building) : Structure where
  nodes := assignChildren 0 st.nodes st.kids
  childIndex := st.kids.flatten
  roots := st.roots
  byLocator := st.byLocator
  length := length

/-- `Structure::build`. -/
def build (rows : List Segment) (length : UInt64) (budget : Budget) :
    Except BuildError Structure × Budget :=
  match readRows length 0 rows {} budget with
  | (.error e, spent) => (.error e, spent)
  | (.ok st, spent) => (.ok (finish length st), spent)

def children (s : Structure) (n : Node) : List Nat :=
  (s.childIndex.take n.children.2).drop n.children.1

/-- The bytes a locator names: what the table has under it, or the hull of a range's ends. -/
def resolve (s : Structure) : Locator → Option ByteRange
  | .range first last =>
    match s.byLocator.lookup (.range first last) with
    | some i => s.nodes[i]?.map Node.range
    | none => do
      let lo ← s.resolve first
      let hi ← s.resolve last
      some ⟨lo.start, hi.stop⟩
  | single => (s.byLocator.lookup single).bind (fun i => s.nodes[i]?.map Node.range)

/-- One node of the search for the deepest: the last of the shortest is kept. -/
def deeper (offset : UInt64) (best : Option Node) (n : Node) : Option Node :=
  if n.range.start ≤ offset ∧ offset < n.range.stop then
    match best with
    | some b => if n.len ≤ b.len then some n else some b
    | none => some n
  else best

/-- The deepest node containing a byte offset. -/
def nodeAt (s : Structure) (offset : UInt64) : Option Node :=
  s.nodes.foldl (deeper offset) none

/-! What a table has to be, and what its tree is. -/

/-- A byte of a row. -/
def Covers (row : Segment) (offset : UInt64) : Prop := row.start ≤ offset ∧ offset < row.stop

/-- Two rows have a byte in common. -/
def Overlap (a b : Segment) : Prop := ∃ offset, Covers a offset ∧ Covers b offset

/-- The first row has all of the second. -/
def Contains (a b : Segment) : Prop := a.start ≤ b.start ∧ b.stop ≤ a.stop

structure Laminar (rows : List Segment) (length : UInt64) : Prop where
  forward : ∀ row ∈ rows, row.start ≤ row.stop
  inside : ∀ row ∈ rows, row.stop ≤ length
  order : rows.Pairwise (fun a b => a.start ≤ b.start)
  distinct : rows.Pairwise (fun a b => a.locator ≠ b.locator)
  nested : rows.Pairwise (fun a b => Overlap a b → Contains a b)

/-- The first row has all of the second, and ends after the second starts. -/
def Parents (a b : Segment) : Prop := Contains a b ∧ b.start < a.stop

/-- The latest row before row `i` that can be its parent. -/
def Latest (rows : List Segment) (i j : Nat) : Prop :=
  ∃ row, rows[i]? = some row ∧ j < i ∧ (∃ a, rows[j]? = some a ∧ Parents a row) ∧
    ∀ k a, j < k → k < i → rows[k]? = some a → ¬ Parents a row

/-- The innermost row over an offset: all rows over it contain this one, and of equal ones it
is the last. -/
def Innermost (rows : List Segment) (offset : UInt64) (j : Nat) : Prop :=
  ∃ row, rows[j]? = some row ∧ Covers row offset ∧
    ∀ k a, rows[k]? = some a → Covers a offset → Contains a row ∧ k ≤ j

end Structure
end Smysl
