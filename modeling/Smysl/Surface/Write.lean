import Smysl.Surface.Hjson

/-!
The writer of header values. Text goes without quotes where its content lets it, whatever way
its author wrote it; the text of a value is on one line. Beside it is the reader of a value
that is the whole of a text.
-/
namespace Smysl
open ByteString Utf8

/-- `parse_value`: a value with nothing around it. -/
def Hjson.parseValue (src : List Char) : Res HValue := do
  let s := bytes src
  let i ← skipTrivia s (s.length + 1) 0
  let (v, i) ← value src s (maxNesting + 2) 0 i
  let i ← skipTrivia s (s.length + 1) i
  if i < s.length then .error (.refused i) else .ok v

namespace Write

/-- The characters of bytes below 128. -/
def ascii (bs : Bytes) : List Char := bs.map fun b => Char.ofNat b.toNat

/-! Numbers. -/

/-- A minus sign, or nothing. -/
def minus (negative : Bool) : List Char := if negative then ['-'] else []

/-- `i64::to_string`. -/
def int (i : Int64) : List Char :=
  minus (decide (i.toInt < 0)) ++ ascii (Date.padded 1 i.toInt.natAbs)

/-- The nearest number of millionths to a finite value. -/
def millionths (f : F32) : Nat := roundHalfEven (f.units * 10 ^ 6) (2 ^ 149)

/-- `{:.6}`. -/
def fixed (f : F32) : List Char :=
  if f.isNan then "NaN".toList
  else if f.isFinite then
    minus f.negative ++ ascii (Date.padded 1 (millionths f / 10 ^ 6)) ++
      '.' :: ascii (Date.digits 6 (millionths f % 10 ^ 6))
  else minus f.negative ++ "inf".toList

def trimZeros (s : List Char) : List Char := (s.reverse.dropWhile (· == '0')).reverse

/-- A float without trailing zeros, but for one after the point. -/
def trimFloat (f : F32) : List Char :=
  let s := trimZeros (fixed f)
  if s.getLast? = some '.' then s ++ ['0'] else s

/-! Text. -/

/-- The words `str::parse::<f64>` takes beside decimals, in any case. -/
def isFloatWord (s : List Char) : Bool :=
  let word := (if s.head? = some '-' ∨ s.head? = some '+' then s.drop 1 else s).map Char.toLower
  word == "inf".toList || word == "infinity".toList || word == "nan".toList

/-- `str::parse::<f64>` of any text is well. -/
def parsesFloat (s : List Char) : Bool := (Hjson.parseDecimal (bytes s)).isSome || isFloatWord s

def isValueMark (c : Char) : Bool :=
  c == ',' || c == '}' || c == ']' || c == '{' || c == '[' || c == '"' || c == '\\' ||
    c == '\n' || c == '\r' || c == '\t'

/-- Whether a text would not survive without quotes as a value. -/
def valueNeedsQuotes (s : List Char) : Bool :=
  s.isEmpty || Hjson.trim s != s || s.any isValueMark ||
    (s == "true".toList || s == "false".toList || s == "null".toList) ||
    "#".toList.isPrefixOf s || "//".toList.isPrefixOf s || parsesFloat s

def isKeyMark (c : Char) : Bool :=
  isWhitespace c || c == ':' || c == ',' || c == '{' || c == '}' || c == '"' || c == '\\'

/-- `QUOTED_PAYLOAD_WORDS`. -/
def quotedPayloadWords : List (List Char) := ["lang".toList]

/-- Whether a text would not read back without quotes as a key. -/
def keyNeedsQuotes (s : List Char) : Bool :=
  s.isEmpty || "#".toList.isPrefixOf s || "//".toList.isPrefixOf s ||
    quotedPayloadWords.contains s || s.any isKeyMark

/-- The escape of a character, where it has one. -/
def escape (c : Char) : List Char :=
  if c = '"' then ['\\', '"']
  else if c = '\\' then ['\\', '\\']
  else if c = '\n' then ['\\', 'n']
  else if c = '\r' then ['\\', 'r']
  else if c = '\t' then ['\\', 't']
  else [c]

def quoted (s : List Char) : List Char := '"' :: s.flatMap escape ++ ['"']

def quotelessOrQuoted (s : List Char) : List Char := if valueNeedsQuotes s then quoted s else s

def quotedKey (s : List Char) : List Char := if keyNeedsQuotes s then quoted s else s

/-! Values. -/

/-- `join(", ")`. -/
def joined : List (List Char) → List Char := List.intercalate ", ".toList

mutual

def value : HValue → List Char
  | .null => "null".toList
  | .bool b => (if b then "true" else "false").toList
  | .int i => int i
  | .float f => trimFloat f.toF32
  | .str s => quotelessOrQuoted s.toList
  | .array items => '[' :: joined (values items) ++ [']']
  | .object o => "\x7b ".toList ++ joined (fields o) ++ " \x7d".toList

def values : List HValue → List (List Char)
  | [] => []
  | v :: items => value v :: values items

def fields : List (String × HValue) → List (List Char)
  | [] => []
  | (k, v) :: o => (quotedKey k.toList ++ ": ".toList ++ value v) :: fields o

end

end Write
end Smysl
