import Smysl.Core.Ids
import Smysl.Lib.OrdMap
import Smysl.Lib.Ascending

/-!
The range tables of the index: rows in the order of their lower bounds, with a
tree of the greatest upper bounds over them. Where the code indexes, the model
answers none when the index is out of bounds.
-/
namespace Smysl

/-- One end of an interval: no bound, or a millisecond. -/
inductive Bound
  | unbounded
  | instant (ms : Int)
  deriving DecidableEq, Repr

namespace Bound

/-- No bound is below every instant in the derived order. -/
def rank : Bound → WithBot Int
  | unbounded => ⊥
  | instant ms => ms

theorem rank_injective : Function.Injective rank := by
  intro a b same
  cases a <;> cases b <;> simp_all [rank]

instance : LinearOrder Bound := LinearOrder.lift' rank rank_injective

/-- The later of two upper bounds. -/
def later : Bound → Bound → Bound
  | instant a, instant b => instant (max a b)
  | _, _ => unbounded

end Bound

/-- A half-open interval. -/
structure Interval where
  lo : Bound
  hi : Bound
  deriving DecidableEq, Repr

inductive TimeSubject
  | unit (uid : Uid)
  | manifest (mid : Mid)
  deriving DecidableEq

namespace TimeSubject

def rank : TimeSubject → Uid ⊕ₗ Mid
  | unit uid => toLex (Sum.inl uid)
  | manifest mid => toLex (Sum.inr mid)

theorem rank_injective : Function.Injective rank := by
  intro a b same
  cases a <;> cases b <;> simp_all [rank]

instance : LinearOrder TimeSubject := LinearOrder.lift' rank rank_injective

end TimeSubject

/-- `lo < hi` for two bounds of a half-open interval. -/
def before : Bound → Bound → Bool
  | .instant a, .instant b => a < b
  | _, _ => true

/-- One subject's interval on one axis. -/
structure RangeRow where
  lo : Bound
  hi : Bound
  subject : TimeSubject
  deriving DecidableEq

namespace RangeRow

def rank (r : RangeRow) : Bound ×ₗ Bound ×ₗ TimeSubject := toLex (r.lo, toLex (r.hi, r.subject))

theorem rank_injective : Function.Injective rank := by
  intro ⟨lo, hi, subject⟩ ⟨lo', hi', subject'⟩ same
  simp only [rank, EmbeddingLike.apply_eq_iff_eq, Prod.mk.injEq] at same
  simp [same]

instance : LinearOrder RangeRow := LinearOrder.lift' rank rank_injective

def overlaps (r : RangeRow) (window : Interval) : Bool :=
  before r.lo window.hi && before window.lo r.hi

def isDated (r : RangeRow) : Bool := !(r.lo == .unbounded && r.hi == .unbounded)

end RangeRow

/-- `max(hi)` of the rows from `lo` to `hi` at a node, and of the two halves at its
children. -/
def fill (rows : List RangeRow) (tree : List Bound) (node lo hi : Nat) :
    Option (List Bound × Bound) :=
  if hi - lo ≤ 1 then
    match rows[lo]? with
    | some r => if node < tree.length then some (tree.set node r.hi, r.hi) else none
    | none => none
  else
    let mid := lo + (hi - lo) / 2
    match fill rows tree (node * 2) lo mid with
    | none => none
    | some (tree, left) =>
      match fill rows tree (node * 2 + 1) mid hi with
      | none => none
      | some (tree, right) =>
        if node < tree.length then
          some (tree.set node (left.later right), left.later right)
        else none
termination_by hi - lo

def buildTree (rows : List RangeRow) : Option (List Bound) :=
  if rows.isEmpty then some []
  else
    (fill rows (List.replicate (4 * rows.length) (.instant (-2 ^ 63))) 1 0 rows.length).map Prod.fst

structure Ranges where
  rows : List RangeRow
  /-- Whether something dangled in the corpus when the table was built. -/
  danglers : Bool
  maxhi : List Bound

namespace Ranges

def of (rows : List RangeRow) (danglers : Bool) : Option Ranges :=
  let rows := Ascending.sortDedup (rows.filter RangeRow.isDated)
  (buildTree rows).map fun maxhi => ⟨rows, danglers, maxhi⟩

/-- The table with the rows of the subjects in `drop` replaced by `add`. -/
def spliced (t : Ranges) (drop : BTreeSet TimeSubject) (add : List RangeRow) (danglers : Bool) :
    Option Ranges :=
  let add := Ascending.sortDedup (add.filter RangeRow.isDated)
  let kept := t.rows.filter (fun r => !drop.contains r.subject)
  let rows := Ascending.mergeInto [] kept add
  (buildTree rows).map fun maxhi => ⟨rows, danglers, maxhi⟩

/-- One node of the descent: the subjects found, and how many rows were looked at. -/
def descend (t : Ranges) (node lo hi limit : Nat) (window : Interval) :
    Option (List TimeSubject × Nat) :=
  if limit ≤ lo ∨ hi ≤ lo then some ([], 0)
  else
    match t.maxhi[node]? with
    | none => none
    | some latest =>
      if !before window.lo latest then some ([], 0)
      else if hi - lo ≤ 1 then
        match t.rows[lo]? with
        | none => none
        | some row => some (if row.overlaps window then [row.subject] else [], 1)
      else
        let mid := lo + (hi - lo) / 2
        match t.descend (node * 2) lo mid limit window with
        | none => none
        | some (first, visited) =>
          match t.descend (node * 2 + 1) mid hi limit window with
          | none => none
          | some (second, visited') => some (first ++ second, visited + visited')
termination_by hi - lo

/-- `partition_point` of the rows that start before the window ends. -/
def startingBefore (t : Ranges) (window : Interval) : Nat :=
  (t.rows.takeWhile (fun r => before r.lo window.hi)).length

/-- The subjects whose interval overlaps the window, and how many rows were looked at. -/
def instrumented (t : Ranges) (window : Interval) : Option (List TimeSubject × Nat) :=
  if t.rows.isEmpty then some ([], 0)
  else
    let p := t.startingBefore window
    if p = 0 then some ([], 0) else t.descend 1 0 t.rows.length p window

/-- The subjects whose interval overlaps the window, in row order. -/
def during (t : Ranges) (window : Interval) : Option (List TimeSubject) :=
  (t.instrumented window).map Prod.fst

end Ranges

/-- The brute-force answer. -/
def scan (rows : List RangeRow) (window : Interval) : List TimeSubject :=
  Ascending.sortDedup ((rows.filter (fun r => r.overlaps window)).map (fun r => r.subject))

end Smysl
