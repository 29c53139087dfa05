import Smysl.Lib.Spans
import Smysl.Text.Versification

/-!
Chunks of an input: its paragraphs, those over the window's budget broken on lines and then on
characters, grouped from the first on while their counts fit the budget. A chunk may begin
with the last paragraph of the one before it.
-/
namespace Smysl
namespace Chunking
open Utf8

/-- A text, as its characters, with its byte range in the input. -/
abbrev Piece := Stretch

/-- `text.len() as u32`, a quarter of it, rounded up. -/
def tokens (text : List Char) : Nat := (width text % 2 ^ 32 + 3) / 4

structure Window where
  /-- The tokens that are left for input text, a `u32`. -/
  budget : Nat
  /-- Whether the last paragraph of a chunk comes first in the next. -/
  overlap : Bool

structure Chunk where
  text : List Char
  index : Nat
  total : Nat
  start : Nat
  stop : Nat
  overlapped : Bool
  deriving DecidableEq

/-- The two line feeds paragraphs are split at and joined with. -/
def blankLine : List Char := ['\n', '\n']

/-- `split("\n\n")`. -/
def splitBlank : List Char → List (List Char)
  | [] => [[]]
  | [c] => [[c]]
  | c :: d :: rest =>
    if c = '\n' ∧ d = '\n' then [] :: splitBlank rest
    else (splitBlank (d :: rest)).modifyHead (c :: ·)

/-- The paragraphs of the raw pieces, the first of which starts at an offset. -/
def paragraphsFrom : Nat → List (List Char) → List Piece
  | _, [] => []
  | start, raw :: raws =>
    let stop := start + width raw
    let trimmed := trim raw
    let later := paragraphsFrom (stop + 2) raws
    if trimmed.isEmpty then later
    else
      let offset := (find trimmed raw).getD 0
      ⟨start + offset, start + offset + width trimmed, trimmed⟩ :: later

def paragraphs (input : List Char) : List Piece := paragraphsFrom 0 (splitBlank input)

/-- `split_inclusive('\n')`. -/
def splitInclusive : List Char → List (List Char)
  | [] => []
  | c :: rest =>
    if c = '\n' then [c] :: splitInclusive rest
    else
      match splitInclusive rest with
      | [] => [[c]]
      | line :: lines => (c :: line) :: lines

/-- A text cut at the first place between characters from a number of bytes on, or at its
end. -/
def cut : Nat → List Char → List Char × List Char
  | 0, cs => ([], cs)
  | _ + 1, [] => ([], [])
  | n + 1, c :: cs => ((cut (n + 1 - c.utf8Size) cs).map (c :: ·) id)

/-- A line cut by characters, `rest` of it from an offset on. A cut takes a character, so there
are no more cuts than characters. -/
def cutLine (per : Nat) : Nat → Nat → List Char → List Piece
  | 0, _, _ => []
  | _ + 1, _, [] => []
  | steps + 1, at_, c :: rest =>
    let (piece, rest) := cut per (c :: rest)
    ⟨at_, at_ + width piece, piece⟩ :: cutLine per steps (at_ + width piece) rest

/-- Where `split_oversized` is: what it has put out, the lines it holds back, where these start,
and where the next line starts. -/
structure Splitting where
  out : List Piece
  buf : List Char
  bufStart : Nat
  cursor : Nat

def Splitting.flushed (s : Splitting) : List Piece :=
  s.out ++ [⟨s.bufStart, s.cursor, trimEnd s.buf⟩]

/-- The bytes a cut takes: `budget.saturating_mul(4).max(1)`. -/
def per (budget : Nat) : Nat := max (min (budget * 4) (2 ^ 64 - 1)) 1

/-- What is held back is put out where the next line does not fit with it. -/
def Splitting.makeRoom (budget : Nat) (s : Splitting) (line : List Char) : Splitting :=
  if !s.buf.isEmpty && tokens (s.buf ++ line) > budget then
    { s with out := s.flushed, buf := [], bufStart := s.cursor }
  else s

/-- A line over the budget is cut by characters, and any other is held back. -/
def Splitting.take (budget : Nat) (s : Splitting) (line : List Char) : Splitting :=
  let cursor := s.cursor + width line
  if tokens line > budget then
    { s with
      out := s.out ++ cutLine (per budget) line.length s.cursor line
      cursor
      bufStart := cursor }
  else { s with buf := s.buf ++ line, cursor }

def Splitting.line (budget : Nat) (s : Splitting) (line : List Char) : Splitting :=
  (s.makeRoom budget line).take budget line

def splitOversized (text : List Char) (budget start : Nat) : List Piece :=
  if tokens text ≤ budget then [⟨start, start + width text, text⟩]
  else
    let s := (splitInclusive text).foldl (Splitting.line budget) ⟨[], [], start, start⟩
    if !(trim s.buf).isEmpty then s.flushed else s.out

def broken (budget : Nat) (p : Piece) : List Piece :=
  if tokens p.text > budget then splitOversized p.text budget p.start else [p]

/-- The paragraphs as they are grouped: those over the budget broken. -/
def pieces (input : List Char) (budget : Nat) : List Piece :=
  (paragraphs input).flatMap (broken budget)

/-- The groups, with the group that is being filled and its count, a `u32`. -/
def groupFrom (budget : Nat) : List Piece → Nat → List Piece → List (List Piece)
  | current, _, [] => if current.isEmpty then [] else [current]
  | current, used, p :: ps =>
    let cost := tokens p.text
    if !current.isEmpty && (used + cost) % 2 ^ 32 > budget then
      current :: groupFrom budget [p] cost ps
    else groupFrom budget (current ++ [p]) ((used + cost) % 2 ^ 32) ps

def groups (input : List Char) (budget : Nat) : List (List Piece) :=
  groupFrom budget [] 0 (pieces input budget)

/-- The texts, joined with a blank line. -/
def joined (ps : List Piece) : List Char := blankLine.intercalate (ps.map Stretch.text)

/-- The chunks of the groups, from an index on; the paragraph the first of them repeats is
there where there is one. -/
def chunksFrom (w : Window) (total : Nat) : Nat → Option Piece → List (List Piece) → List Chunk
  | _, _, [] => []
  | n, before, group :: rest =>
    let shown := if w.overlap then before.toList ++ group else group
    ⟨joined shown, n, total, (shown.head?.map Stretch.start).getD 0,
      (group.getLast?.map Stretch.stop).getD 0, w.overlap && before.isSome⟩ ::
      chunksFrom w total (n + 1) group.getLast? rest

def chunk (input : List Char) (w : Window) : List Chunk :=
  chunksFrom w (groups input w.budget).length 0 none (groups input w.budget)

end Chunking
end Smysl
