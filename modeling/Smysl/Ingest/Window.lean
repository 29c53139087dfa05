import Smysl.Core.Edtf.Syntax
import Smysl.Lib.Filling
import Smysl.Text.Reading

/-!
Windows over a reading: whole nodes in order, filled to a budget, each opening with the last
node the one before it owned. A node over the budget is cut where sentences begin.
-/
namespace Smysl
open ByteString

namespace TextWindow

/-- A range, its end outside it. -/
structure Range where
  start : Nat
  stop : Nat
  deriving DecidableEq

/-- A node of a reading's structure. -/
structure Node where
  level : Level
  locator : Locator
  range : Range
  row : Nat

/-- One part, as windowing needs to see it: its text, its nodes, its rows, and what of it is
reported speech. -/
structure Pane where
  tid : Tid
  text : String
  structure_ : List Node
  rows : List Segment
  reported : List Range

/-- Where a piece of text comes from. -/
structure Origin where
  tid : Tid
  row : Nat
  locator : Locator
  /-- The bytes in the part; fewer than the node's when the node was split. -/
  part : Range
  split : Bool
  observed : Option UInt64
  speaker : Option String
  reported : List Range
  deriving DecidableEq

/-- A node, or one piece of one, before it is placed in a window. -/
structure Piece where
  origin : Origin
  text : Bytes
  tokens : Nat
  deriving DecidableEq

/-- A piece as a window holds it, with its bytes in the window's text. -/
structure Placed where
  origin : Origin
  at_ : Range
  deriving DecidableEq

end TextWindow

/-- One call's worth of text: what is carried over, if anything is, and then what is owned. -/
structure TextWindow where
  nodes : List TextWindow.Placed
  ownedFrom : Nat
  ownedTo : Nat
  overlap : Option Nat
  text : Bytes
  deriving DecidableEq

namespace TextWindow

def Range.contains (r : Range) (i : Nat) : Bool := decide (r.start ≤ i) && decide (i < r.stop)

/-- `Placed::into_part`. -/
def Placed.intoPart (p : Placed) (i : Nat) : Option Nat :=
  if !p.at_.contains i && i != p.at_.stop then none
  else some (p.origin.part.start + (i - p.at_.start))

def ownedNodes (w : TextWindow) : List Placed :=
  (w.nodes.drop w.ownedFrom).take (w.ownedTo - w.ownedFrom)

def nodeAt (w : TextWindow) (i : Nat) : Option Placed := w.nodes.find? (fun n => n.at_.contains i)

/-- A window offset as a part and an offset in it. -/
def map (w : TextWindow) (i : Nat) : Option (Tid × Nat) := do
  let n ← w.nodeAt i
  let offset ← n.intoPart i
  some (n.origin.tid, offset)

/-- `str::get`, as bytes. -/
def slice (text : String) (r : Range) : Option Bytes :=
  if r.start ≤ r.stop && Edtf.isCharBoundary (utf8 text) r.start &&
      Edtf.isCharBoundary (utf8 text) r.stop then
    some (((utf8 text).drop r.start).take (r.stop - r.start))
  else none

/-- Nothing in it but white space. -/
def blank (text : Bytes) : Bool := ((fromUtf8 text).map isBlank).getD true

/-- Marks that follow their like are dropped. -/
def dedup : List Range → List Range
  | a :: b :: rest => if a = b then dedup (b :: rest) else a :: dedup (b :: rest)
  | rest => rest

/-- The marks of a part, as far as they are within a range. -/
def clip (marks : List Range) (node : Range) : List Range :=
  dedup (marks.filterMap (fun m =>
    let start := max m.start node.start
    let stop := min m.stop node.stop
    if start < stop then some ⟨start, stop⟩ else none))

variable (count : Bytes → Nat) (sentences : Bytes → List Range)

def pieceOf (node : Piece) (from_ to_ : Nat) : Piece :=
  let text := (node.text.drop from_).take (to_ - from_)
  let part : Range := ⟨node.origin.part.start + from_, node.origin.part.start + to_⟩
  { origin := { node.origin with
      part := part
      split := true
      reported := clip node.origin.reported part }
    text := text
    tokens := count text }

/-- What has been cut off, where the piece being made begins, and what its sentences count. -/
structure Cutting where
  out : List Piece := []
  start : Nat := 0
  tokens : Nat := 0

/-- Cut before a sentence that would overflow, if something is held already. -/
def cutBefore (node : Piece) (budget : Nat) (c : Cutting) (s : Range) : Cutting :=
  let next := count ((node.text.drop s.start).take (s.stop - s.start))
  if 0 < c.tokens ∧ budget < c.tokens + next then
    { out := c.out ++ [pieceOf count node c.start s.start], start := s.start, tokens := next }
  else { c with tokens := c.tokens + next }

def splitAtSentences (node : Piece) (budget : Nat) : List Piece :=
  let found := sentences node.text
  if found.length < 2 then [{ node with origin := { node.origin with split := true } }]
  else
    let c := found.foldl (cutBefore count node budget) {}
    c.out ++ [pieceOf count node c.start node.text.length]

/-- A node that is not blank, whole. -/
def wholePiece (pane : Pane) (node : Node) : Option Piece :=
  match slice pane.text node.range with
  | none => none
  | some text =>
    if blank text then none
    else
      let row := pane.rows[node.row]?
      some {
        origin := {
          tid := pane.tid
          row := node.row
          locator := node.locator
          part := node.range
          split := false
          observed := row.bind Segment.observed
          speaker := row.bind Segment.speaker
          reported := clip pane.reported node.range }
        text := text
        tokens := count text }

/-- The nodes at a level that are not blank, in order. -/
def wholes (panes : List Pane) (level : Level) : List Piece :=
  panes.flatMap (fun pane =>
    (pane.structure_.filter (fun n => n.level = level)).filterMap (wholePiece count pane))

/-- One node's pieces: itself, or what it is cut into. -/
def cut (budget : Nat) (whole : Piece) : List Piece :=
  if whole.tokens ≤ budget then [whole] else splitAtSentences count sentences whole budget

/-- The separator between nodes. -/
def join : Bytes := [0x0A]

/-- One more piece in a window's text. -/
def push (w : Bytes × List Placed) (p : Piece) : Bytes × List Placed :=
  let text := if w.2.isEmpty then w.1 else w.1 ++ join
  (text ++ p.text, w.2 ++ [⟨p.origin, text.length, text.length + p.text.length⟩])

def render (held : Option Piece × List Piece) : TextWindow :=
  let all := held.1.toList ++ held.2
  let w := all.foldl push ([], [])
  { nodes := w.2
    ownedFrom := held.1.toList.length
    ownedTo := all.length
    overlap := if held.1.isSome then some 0 else none
    text := w.1 }

/-- `windows`, without its diagnostics. -/
def windows (panes : List Pane) (level : Level) (budget : Nat) : List TextWindow :=
  (Filling.fill Piece.tokens budget
    ((wholes count panes level).flatMap (cut count sentences budget))).map render

end TextWindow
end Smysl
