import Smysl.Core.Ids
import Smysl.Lib.Utf8

/-!
A pass over a document that gives every line one class, with the bytes it stands at.
-/
namespace Smysl
open ByteString Utf8

inductive LineClass
  | docHeader
  | recordStart
  | relLine
  | threadStart
  | step
  | gist
  | separator
  | blank
  | comment
  | text
  | schemaStart
  | withdrawStart
  | resolveStart
  | commitStart
  | manifestStart
  | redactStart
  | dateStart
  deriving DecidableEq, Repr

/-- Whether a line of this class is where recovery stops. A schema declaration is not. -/
def LineClass.startsRecord : LineClass → Bool
  | docHeader | recordStart | relLine | threadStart | withdrawStart | resolveStart
  | commitStart | manifestStart | redactStart | dateStart => true
  | _ => false

/-- A line without its terminator, and the byte it starts at. -/
structure Line where
  kind : LineClass
  start : Nat
  text : List Char

namespace Line

/-- The byte after the line's last. -/
def stop (l : Line) : Nat := l.start + width l.text

/-- The text after the sigil of a gist. -/
def gistText (l : Line) : List Char := (l.text.dropWhile (· = '~')).dropWhile isWhitespace

end Line

/-- `str::split_whitespace`. -/
def splitWhitespace (cs : List Char) : List (List Char) :=
  (cs.splitOnP isWhitespace).filter (fun w => !w.isEmpty)

/-- A word ends at white space or at an opening brace. -/
def wordEnds (c : Char) : Bool := isWhitespace c || c.toNat == 0x7B

def isRecordType (word : List Char) : Bool :=
  (KernelType.parse (String.ofList word)).isSome ||
    ("x.".toList.isPrefixOf word && (SchemaId.parse (String.ofList word)).isSome)

/-- Whether a word could name a type. -/
def isExtSegmentWord (w : List Char) : Bool :=
  !w.isEmpty && (bytes w).all fun c =>
    isAsciiLowercase c || isAsciiDigit c || c == 0x2D || c == 0x2E

/-- Whether what follows an unknown word is a label or an opening brace. -/
def hasLabelOrHeader (rest : List Char) : Bool :=
  let trimmed := (rest.dropWhile (fun c => !wordEnds c)).dropWhile isWhitespace
  if rest.all (fun c => !wordEnds c) then false
  else if trimmed.head?.any (fun c => c.toNat == 0x7B) then true
  else
    match (splitWhitespace trimmed).head? with
    | none => false
    | some next =>
      let ns := next.takeWhile (· ≠ '/')
      let name := (next.dropWhile (· ≠ '/')).drop 1
      next.contains '/' && !ns.isEmpty && !name.isEmpty && isExtSegmentWord ns

/-- The byte the first arrow stands at. -/
def findArrow (cs : List Char) : Option Nat :=
  match find [Char.ofNat 0x2192] cs, find "->".toList cs with
  | some a, some b => some (min a b)
  | some a, none => some a
  | none, b => b

/-- The width of the arrow that a text starts with. -/
def arrowLen (cs : List Char) : Nat :=
  if cs.head? = some (Char.ofNat 0x2192) then (Char.ofNat 0x2192).utf8Size else 2

/-- `is_step`: an arrow after a role, at an indent of two. -/
def isStep (line : List Char) : Option Bool :=
  if !"  ".toList.isPrefixOf line then some false
  else
    let rest := line.drop 2
    if rest.head? = some ' ' then some false
    else
      match findArrow rest with
      | none => some false
      | some arrow =>
        (sliceTo arrow rest).map fun before =>
          let role := (before.reverse.dropWhile isWhitespace).reverse
          !role.isEmpty && (bytes role).all fun c =>
            isAsciiLowercase c || c == 0x2D || isAsciiDigit c

/-- The class of a line that starts with `@`, by the word after it. -/
def classifyWord (rest : List Char) : LineClass :=
  let word := rest.takeWhile (fun c => !wordEnds c)
  if word = "doc".toList then .docHeader
  else if word = "rel".toList then .relLine
  else if word = "thread".toList then .threadStart
  else if word = "schema".toList then .schemaStart
  else if word = "withdraw".toList then .withdrawStart
  else if word = "resolve".toList then .resolveStart
  else if word = "commit".toList then .commitStart
  else if word = "manifest".toList then .manifestStart
  else if word = "redact".toList then .redactStart
  else if word = "date".toList then .dateStart
  else if isRecordType word then .recordStart
  else if isExtSegmentWord word && hasLabelOrHeader rest then .recordStart
  else .text

/-- `lex::classify`. There is no class where a line cannot be cut. -/
def classifyLine (line : List Char) : Option LineClass :=
  if line.all isWhitespace then some .blank
  else if (line.reverse.dropWhile isWhitespace).reverse = "--".toList ∧
      line.head? ≠ some ' ' then some .separator
  else if line.head? = some '#' ∨ "//".toList.isPrefixOf line then some .comment
  else if line.head? = some '@' then some (classifyWord (line.drop 1))
  else if "~ ".toList.isPrefixOf line ∨ line = "~".toList ∨ "~\t".toList.isPrefixOf line then
    some .gist
  else (isStep line).map fun step => if step then .step else .text

/-- A line's text: all carriage returns at its end are part of its terminator. -/
def lineText (raw : List Char) : List Char := (raw.reverse.dropWhile (· = '\r')).reverse

/-- The lines of `str::split` at newlines, from a byte on. An empty last one is dropped. -/
def lexFrom (length offset : Nat) : List (List Char) → Option (List Line)
  | [] => some []
  | raw :: raws => do
    let text := lineText raw
    let isLast := decide (length ≤ offset + width raw)
    let lines ← lexFrom length (offset + width raw + 1) raws
    if isLast && text.isEmpty && decide (0 < offset) then some lines
    else do
      let kind ← classifyLine text
      some (⟨kind, offset, text⟩ :: lines)

def lex (src : List Char) : Option (List Line) :=
  lexFrom (width src) 0 (src.splitOn '\n')

end Smysl
