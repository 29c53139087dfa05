import Smysl.Core.Text
import Smysl.Lib.Utf8

/-!
Quotes checked against a source. Both texts are brought to a comparison form and the quote is
looked for in the source's. While the source is brought to it two tracks are kept, of where in
the source each byte of the form began and where it ended, and a match is mapped back by them.
-/
namespace Smysl
open Utf8

/-- What the comparison forms ask of Unicode. -/
class Casing where
  toLowercase : Char → List Char
  isAlphanumeric : Char → Bool
  /-- One character alone has two in lower case. -/
  lower_dotted : toLowercase 'İ' = ['i', '\u0307']
  lower_single : ∀ c, c ≠ 'İ' → ∃ d, toLowercase c = [d]
  lower_solid : ∀ c, isWhitespace c = false → ∀ d ∈ toLowercase c, isWhitespace d = false

namespace Quote

inductive Support
  | present
  | loose
  | absent
  deriving DecidableEq

inductive Normaliser
  | v1
  | v2
  deriving DecidableEq

inductive Fold
  | drop
  | space
  | one (k : Char)
  | two (a b : Char)
  deriving DecidableEq

/-- `'\u{2010}'..='\u{2015}' | '\u{2212}'`. -/
def isDash (c : Char) : Bool := (0x2010 ≤ c.toNat && c.toNat ≤ 0x2015) || c == '\u2212'

def foldV2 (c : Char) (prevOut : Option Char) : Fold :=
  if c ∈ ['"', '\u201C', '\u201D', '\u201F', '\u201E', '\u201A', '\u00AB', '\u00BB', '\u2039',
      '\u203A', '\u300C', '\u300D', '\u300E', '\u300F'] then .drop
  else if c ∈ ['\'', '\u2018', '\u2019', '\u201B', '\u02BC', '\u2032'] then .one '\''
  else if c ∈ ['\u00BF', '\u00A1'] then .drop
  else if c = '\u0451' then .one '\u0435'
  else if c = '\u0308' ∧ prevOut = some '\u0435' then .drop
  else if c = '\u00DF' then .two 's' 's'
  else if c ∈ ['\u202F', '\u2009', '\u00A0'] then .space
  else if c ∈ ['`', '*'] then .drop
  else if isDash c then .one '-'
  else if isWhitespace c then .space
  else .one c

/-- V1's table: what a character is read as, if it is not deleted. -/
def foldV1 (raw : Char) : Option Char :=
  if raw ∈ ['`', '*'] then none
  else if raw ∈ ['\u2018', '\u2019', '\u201B', '\u201C', '\u201D', '\u201F', '\''] then some '"'
  else if isDash raw then some '-'
  else if raw = '\u00A0' then some ' '
  else some raw

structure Mapped where
  out : List Char
  starts : List Nat
  ends : List Nat

/-- What a walk over a text keeps. -/
structure Walk where
  out : List Char := []
  map : List Nat := []
  ends : List Nat := [0]
  space : Option Nat := none
  contentEnds : Nat := 0

/-- `Vec::resize`. -/
def resize (l : List Nat) (n x : Nat) : List Nat := l.take n ++ List.replicate (n - l.length) x

namespace Walk

/-- `space.get_or_insert`. -/
def blank (w : Walk) (at_ : Nat) : Walk := { w with space := some (w.space.getD at_) }

/-- A run of whitespace that is taken up: one space, unless nothing came before. -/
def flush (w : Walk) (at_ : Nat) : Walk :=
  match w.space with
  | none => w
  | some from_ =>
    if w.out.isEmpty then { w with space := none }
    else { w with
      out := w.out ++ [' '], map := w.map ++ [from_], ends := w.ends ++ [at_], space := none }

/-- What a character is written as, and the tracks as long as the text. -/
def push (w : Walk) (at_ stop : Nat) (ks : List Char) : Walk :=
  let before := width w.out
  let out := w.out ++ ks
  { w with
    out := out, map := resize w.map (max (width out) before) at_,
    contentEnds := stop, ends := resize w.ends (width out + 1) stop }

def mapped (w : Walk) : Mapped :=
  ⟨w.out, w.map.take (width w.out) ++ [w.contentEnds], w.ends.take (width w.out + 1)⟩

variable [Casing]

/-- The body of the loop of `normalise_mapped`. -/
def stepV1 (w : Walk) (at_ : Nat) (raw : Char) : Walk :=
  match foldV1 raw with
  | none => w
  | some c =>
    if isWhitespace c then w.blank at_
    else (w.flush at_).push at_ (at_ + raw.utf8Size) (Casing.toLowercase c)

/-- The body of the inner loop of `normalise_v2_mapped`. -/
def lowerV2 (w : Walk) (at_ stop : Nat) (lower : Char) : Walk :=
  match foldV2 lower w.out.getLast? with
  | .drop => w
  | .space => w.blank at_
  | .one k => (w.flush at_).push at_ stop [k]
  | .two a b => (w.flush at_).push at_ stop [a, b]

def stepV2 (w : Walk) (at_ : Nat) (c : Char) : Walk :=
  (Casing.toLowercase c).foldl (fun w lower => w.lowerV2 at_ (at_ + c.utf8Size) lower) w

/-- The loop over a text. -/
def overText (step : Walk → Nat → Char → Walk) (w : Walk) (at_ : Nat) : List Char → Walk
  | [] => w
  | c :: cs => overText step (step w at_ c) (at_ + c.utf8Size) cs

end Walk

variable [Casing]

def normaliseMapped (s : List Char) : Mapped := (Walk.overText Walk.stepV1 {} 0 s).mapped

def normaliseV2Mapped (s : List Char) : Mapped := (Walk.overText Walk.stepV2 {} 0 s).mapped

/-- The loop of `normalise`. -/
def normaliseFrom (out : List Char) (space : Bool) : List Char → List Char
  | [] => out
  | raw :: cs =>
    match foldV1 raw with
    | none => normaliseFrom out space cs
    | some c =>
      if isWhitespace c then normaliseFrom out true cs
      else
        let out := if space && !out.isEmpty then out ++ [' '] else out
        normaliseFrom (out ++ Casing.toLowercase c) false cs

def normalise (s : List Char) : List Char := normaliseFrom [] false s

def normaliseV2 (s : List Char) : List Char := (normaliseV2Mapped s).out

/-- The comparison form. -/
def form : Normaliser → List Char → List Char
  | .v1, s => normalise s
  | .v2, s => normaliseV2 s

def formMapped : Normaliser → List Char → Mapped
  | .v1, s => normaliseMapped s
  | .v2, s => normaliseV2Mapped s

/-! Words. -/

def isElision (token : List Char) : Bool :=
  !token.isEmpty && token.all fun c => c ∈ ['.', '\u2026', '[', ']']

/-- A word without the punctuation at its edges. -/
def bare (word : List Char) : List Char :=
  (word.dropWhile fun c => !Casing.isAlphanumeric c).rdropWhile fun c => !Casing.isAlphanumeric c

/-- The loop of `word_positions`: the word that has begun is kept with where it began. -/
def wordsFrom (at_ : Nat) : Option (Nat × List Char) → List Char → List (Nat × List Char)
  | start, [] => start.toList
  | start, c :: cs =>
    match isWhitespace c, start with
    | false, none => wordsFrom (at_ + c.utf8Size) (some (at_, [c])) cs
    | false, some (b, w) => wordsFrom (at_ + c.utf8Size) (some (b, w ++ [c])) cs
    | true, some word => word :: wordsFrom (at_ + c.utf8Size) none cs
    | true, none => wordsFrom (at_ + c.utf8Size) none cs

def wordPositions (s : List Char) : List (Nat × List Char) := wordsFrom 0 none s

/-- `str::split_whitespace`. -/
def splitWhitespace (s : List Char) : List (List Char) := (wordPositions s).map Prod.snd

/-- The words of a quote that are looked for. -/
def quoteWords (needle : List Char) : List (List Char) :=
  (((splitWhitespace needle).filter fun w => !isElision w).map bare).filter fun w => !w.isEmpty

/-- The loop of `loose_span`, over the words of the source that are left. -/
def findWords (hay : List (Nat × List Char)) (first : Option Nat) (last : Nat) :
    List (List Char) → Option (Nat × Nat)
  | [] => first.map fun f => (f, last)
  | w :: ws =>
    match hay.dropWhile fun h => bare h.2 != w with
    | [] => none
    | (start, text) :: hay => findWords hay (some (first.getD start)) (start + width text) ws

def looseSpan (needle haystack : List Char) : Option (Nat × Nat) :=
  let words := quoteWords needle
  if words.isEmpty then none else findWords (wordPositions haystack) none 0 words

def wordsInOrder (needle haystack : List Char) : Bool := (looseSpan needle haystack).isSome

/-! The two answers. -/

def supportWith (n : Normaliser) (quote source : List Char) : Support :=
  let q := form n quote
  if q.isEmpty then .absent
  else
    let s := form n source
    if (find q s).isSome then .present
    else if wordsInOrder q s then .loose
    else .absent

def supportSpanWith (n : Normaliser) (quote source : List Char) :
    Support × Option (Nat × Nat) :=
  let q := form n quote
  if q.isEmpty then (.absent, none)
  else
    let m := formMapped n source
    let start := fun i => m.starts[i]?.getD (width source)
    let stop := fun i => m.ends[i]?.getD (width source)
    match find q m.out with
    | some i => (.present, some (start i, stop (i + width q)))
    | none =>
      match looseSpan q m.out with
      | some (first, last) => (.loose, some (start first, stop last))
      | none => (.absent, none)

end Quote
end Smysl
