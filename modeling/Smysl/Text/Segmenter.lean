import Smysl.Lib.Spans
import Smysl.Surface.Hjson

/-!
Sentences. A splitter breaks a text into pieces; the segmenter trims each, and holds a boundary
between two pieces where the text is wrapped, where an abbreviation stands before it, or where
the piece after it begins in lower case. Marks that only close are given back to the sentence
before them.
-/
namespace Smysl
open Utf8

/-- The Unicode properties that the segmenter asks of a character. -/
class Letters where
  isLowercase : Char → Bool
  isUppercase : Char → Bool
  isAlphanumeric : Char → Bool

/-- A range of bytes. -/
structure Sentence where
  start : Nat
  stop : Nat
  deriving DecidableEq

structure Segmenter where
  lang : Option String
  abbr : List (List Char)

namespace Segmenter

inductive Why
  | softWrap
  | abbreviation (token : List Char)
  | continuation
  | closer (after : Nat)
  deriving DecidableEq

def terminators : List Char := ['.', '!', '?', '…']

def closers : List Char := ['"', '\'', '»', '’', '”', ')', ']', '}', '」']

def neverOpens : List Char := ['»', '’', '”', ')', ']', '}', '」']

/-- A range without the whitespace at its ends, if anything is left. -/
def trim (text : List Char) (start stop : Nat) : Option (Option Sentence) := do
  let piece ← slice start stop text
  let trimmed := Hjson.trim piece
  if trimmed.isEmpty then some none
  else
    let from_ := start + (width piece - width (Hjson.trimStart piece))
    some (some ⟨from_, from_ + width trimmed⟩)

/-- The loop of `closers_end`: `past` is what it has found, `pos` where it is. -/
def closersFrom (past pos : Nat) : List Char → Nat
  | [] => past
  | c :: cs =>
    if neverOpens.contains c then closersFrom (pos + c.utf8Size) (pos + c.utf8Size) cs
    else if c = ' ' ∨ c = '\u00A0' ∨ c = '\u202F' then closersFrom past (pos + c.utf8Size) cs
    else past

def closersEnd (text : List Char) (cur : Sentence) : Option Nat := do
  let piece ← slice cur.start cur.stop text
  some (closersFrom cur.start cur.start piece)

/-- `rest.trim_end().trim_end_matches(closers).trim_end()`. -/
def endOnce (rest : List Char) : List Char :=
  Hjson.trimEnd ((Hjson.trimEnd rest).rdropWhile closers.contains)

theorem end_once_length (rest : List Char) : (endOnce rest).length ≤ rest.length := by
  have trim (cs : List Char) : (Hjson.trimEnd cs).length ≤ cs.length :=
    (List.rdropWhile_prefix isWhitespace cs).length_le
  calc (endOnce rest).length ≤ ((Hjson.trimEnd rest).rdropWhile closers.contains).length := trim _
    _ ≤ (Hjson.trimEnd rest).length := (List.rdropWhile_prefix _ _).length_le
    _ ≤ rest.length := trim rest

/-- The loop of `ends_sentence`. -/
def endOf (rest : List Char) : List Char :=
  if (endOnce rest).length = rest.length then rest else endOf (endOnce rest)
termination_by rest.length
decreasing_by
  have := end_once_length rest
  omega

def endsSentence (piece : List Char) : Bool :=
  (endOf piece).getLast?.any terminators.contains

variable [Letters]

def trailingToken (piece : List Char) : Option (List Char) :=
  let piece := Hjson.trimEnd piece
  if piece.getLast? ≠ some '.' then none
  else
    let token := piece.rtakeWhile fun c => Letters.isAlphanumeric c || c == '.'
    if token.isEmpty then none else some token

def isAbbreviation (s : Segmenter) (token : List Char) : Bool :=
  s.abbr.contains token ||
    match token with
    | [c, '.'] => Letters.isUppercase c
    | _ => false

def suppression (s : Segmenter) (text : List Char) (prev cur : Sentence) :
    Option (Option Why) := do
  let gap ← slice prev.stop cur.start text
  if 2 ≤ gap.count '\n' then some none
  else
    let after ← closersEnd text cur
    if cur.start < after then some (some (.closer after))
    else
      let before ← slice prev.start prev.stop text
      if gap.contains '\n' && !endsSentence before then some (some .softWrap)
      else
        match (trailingToken before).filter s.isAbbreviation with
        | some token => some (some (.abbreviation token))
        | none =>
          let piece ← slice cur.start cur.stop text
          if piece.head?.any Letters.isLowercase then some (some .continuation) else some none

def joins (s : Segmenter) (text : List Char) (prev cur : Sentence) : Option Bool := do
  let why ← s.suppression text prev cur
  some why.isSome

/-- What is pushed, or joined to the last sentence. The sentences are kept last first. -/
def settle (s : Segmenter) (text : List Char) (prev : Sentence) (out : List Sentence)
    (cur : Sentence) : Option (List Sentence) := do
  if ← s.joins text prev cur then some (⟨prev.start, cur.stop⟩ :: out)
  else some (cur :: prev :: out)

/-- The body of the loop of `sentences`. -/
def step (s : Segmenter) (text : List Char) (out : List Sentence) (start : Nat)
    (piece : List Char) : Option (List Sentence) := do
  match ← trim text start (start + width piece) with
  | none => some out
  | some cur =>
    match out with
    | [] => some [cur]
    | prev :: out =>
      match ← s.suppression text prev cur with
      | some (.closer after) =>
        match ← trim text after cur.stop with
        | some rest => s.settle text ⟨prev.start, after⟩ out rest
        | none => some (⟨prev.start, after⟩ :: out)
      | _ => s.settle text prev out cur

/-- The loop, at an offset. -/
def sentencesFrom (s : Segmenter) (text : List Char) (out : List Sentence) (start : Nat) :
    List (List Char) → Option (List Sentence)
  | [] => some out
  | piece :: pieces => do
    let out ← s.step text out start piece
    s.sentencesFrom text out (start + width piece) pieces

/-- The sentences of a text, whose pieces the splitter gives. -/
def sentences (s : Segmenter) (split : List Char → List (List Char)) (text : List Char) :
    Option (List Sentence) :=
  (s.sentencesFrom text [] 0 (split text)).map List.reverse

end Segmenter
end Smysl
