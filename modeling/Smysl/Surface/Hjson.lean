import Smysl.Cbor.Payload
import Smysl.Lib.Utf8

/-!
The reader of record headers. It looks at bytes, cuts texts out of the source where they
end, and refuses rather than descend past a depth; of a refusal only the place is kept.
Every loop is given as many steps as it could need, and is stuck where it needs more.
-/
namespace Smysl
open ByteString Utf8

/-- A key with the byte its spelling starts at, quotes included. -/
structure HKey where
  text : String
  start : Nat

/-- An object as it stands in a header. -/
abbrev Header := List (HKey × HValue)

/-- An object's value, without where its keys were. -/
def Header.plain (h : Header) : HObject := h.map (fun e => (e.1.text, e.2))

/-- The nearest `binary64` value to `num / den`, an infinity where it is past the last. -/
def F64.ofRatio (negative : Bool) (num den : Nat) : F64 :=
  let units := num * 2 ^ 1074
  let spare := Nat.log2 (units / den) - 52
  let u := roundHalfEven units (den * 2 ^ spare) * 2 ^ spare
  if u < 2 ^ 2098 then F64.ofUnits negative u else ⟨negative, 2047, 0⟩

/-- `as f64`. -/
def F64.ofInt (i : Int) : F64 := F64.ofRatio (decide (i < 0)) i.natAbs 1

namespace Hjson

/-- Why there is no value: the text is refused at a byte, or the reader cannot go on. -/
inductive Halt
  | refused (at_ : Nat)
  | stuck
  deriving DecidableEq

abbrev Res := Except Halt

/-- `u8::is_ascii_whitespace`. -/
def isAsciiWhitespace (b : UInt8) : Bool :=
  b == 0x20 || b == 0x09 || b == 0x0A || b == 0x0C || b == 0x0D

def trimStart (cs : List Char) : List Char := cs.dropWhile isWhitespace

def trimEnd (cs : List Char) : List Char := (cs.reverse.dropWhile isWhitespace).reverse

/-- `str::trim`. -/
def trim (cs : List Char) : List Char := trimEnd (trimStart cs)

/-! Tokens that are no string. -/

/-- `str::parse::<i64>`. -/
def parseInt (bs : Bytes) : Option Int64 := do
  let (negative, digits) :=
    match bs with
    | 0x2D :: rest => (true, rest)
    | 0x2B :: rest => (false, rest)
    | rest => (false, rest)
  if digits.isEmpty then none
  else
    let n ← Date.digitsValue digits
    let value : Int := if negative then -n else n
    if -2 ^ 63 ≤ value ∧ value < 2 ^ 63 then some (Int64.ofInt value) else none

/-- Digits, and what follows them. -/
def leadingDigits (bs : Bytes) : Bytes × Bytes := bs.span isAsciiDigit

/-- The exponent of a decimal. -/
def parseExponent : Bytes → Option Int
  | [] => some 0
  | e :: rest =>
    if e ≠ 0x65 ∧ e ≠ 0x45 then none
    else
      let (negative, digits) :=
        match rest with
        | 0x2D :: rest => (true, rest)
        | 0x2B :: rest => (false, rest)
        | rest => (false, rest)
      if digits.isEmpty then none
      else (Date.digitsValue digits).map (fun n => if negative then -n else n)

/-- `str::parse::<f64>`, of text without letters but for the exponent's. -/
def parseDecimal (bs : Bytes) : Option F64 := do
  let (negative, rest) :=
    match bs with
    | 0x2D :: rest => (true, rest)
    | 0x2B :: rest => (false, rest)
    | rest => (false, rest)
  let (whole, rest) := leadingDigits rest
  let (fraction, rest) :=
    match rest with
    | 0x2E :: rest => leadingDigits rest
    | rest => ([], rest)
  if whole.isEmpty && fraction.isEmpty then none
  else
    let exponent ← parseExponent rest
    let digits ← Date.digitsValue (whole ++ fraction)
    let scale := exponent - fraction.length
    some (F64.ofRatio negative (digits * 10 ^ scale.toNat) (10 ^ (-scale).toNat))

/-- Anything that is not a literal is a string. -/
def classify (raw : List Char) : HValue :=
  let text := String.ofList raw
  if text = "true" then .bool true
  else if text = "false" then .bool false
  else if text = "null" then .null
  else
    match parseInt (bytes raw) with
    | some i => .int i
    | none =>
      let numeric := (bytes raw).all fun c =>
        isAsciiDigit c || c == 0x2E || c == 0x2D || c == 0x2B || c == 0x65 || c == 0x45
      match if numeric then parseDecimal (bytes raw) else none with
      | some f => .float f
      | none => .str text

/-! What stands between values. -/

section
variable (s : Bytes)

/-- To the end of the line. -/
def skipLine (i : Nat) : Nat := i + ((s.drop i).takeWhile (· != 0x0A)).length

/-- How far the end of a block comment is. -/
def commentEnd : Bytes → Nat
  | [] => 0
  | b :: rest => if b = 0x2A ∧ rest.head? = some 0x2F then 0 else commentEnd rest + 1

def skipBlock (i : Nat) : Nat := min (i + commentEnd (s.drop i) + 2) s.length

/-- White space and comments. -/
def skipTrivia : Nat → Nat → Res Nat
  | 0, _ => .error .stuck
  | steps + 1, i =>
    match s[i]? with
    | none => .ok i
    | some c =>
      if isAsciiWhitespace c then skipTrivia steps (i + 1)
      else if c = 0x23 then skipTrivia steps (skipLine s i)
      else if c = 0x2F ∧ s[i + 1]? = some 0x2F then skipTrivia steps (skipLine s i)
      else if c = 0x2F ∧ s[i + 1]? = some 0x2A then skipTrivia steps (skipBlock s (i + 2))
      else .ok i

/-- Spaces and comments up to the end of the line, which is a separator. -/
def skipInlineTrivia : Nat → Nat → Res Nat
  | 0, _ => .error .stuck
  | steps + 1, i =>
    match s[i]? with
    | none => .ok i
    | some c =>
      if c = 0x20 ∨ c = 0x09 ∨ c = 0x0D then skipInlineTrivia steps (i + 1)
      else if c = 0x23 then skipInlineTrivia steps (skipLine s i)
      else if c = 0x2F ∧ s[i + 1]? = some 0x2F then skipInlineTrivia steps (skipLine s i)
      else .ok i

end

/-- A slice, where there is one. -/
def cut (slice : Option (List Char)) : Res (List Char) :=
  match slice with
  | some text => .ok text
  | none => .error .stuck

/-- `u32::from_str_radix(hex, 16)`. -/
def parseHex (hex : List Char) : Option Nat :=
  let digits := if hex.head? = some '+' then hex.drop 1 else hex
  if digits.isEmpty then none
  else digits.foldl (fun acc c => do
    let n ← acc
    let k := c.toNat
    if 0x30 ≤ k ∧ k ≤ 0x39 then some (n * 16 + (k - 0x30))
    else if 0x61 ≤ k ∧ k ≤ 0x66 then some (n * 16 + (k - 0x57))
    else if 0x41 ≤ k ∧ k ≤ 0x46 then some (n * 16 + (k - 0x37))
    else none) (some 0)

/-- `char::from_u32`. -/
def charFrom (n : Nat) : Option Char := if n.isValidChar then some (Char.ofNat n) else none

/-- What a one-letter escape stands for. -/
def escaped (e : UInt8) : Option Char :=
  if e = 0x22 then some '"'
  else if e = 0x5C then some '\\'
  else if e = 0x2F then some '/'
  else if e = 0x6E then some '\n'
  else if e = 0x74 then some '\t'
  else if e = 0x72 then some '\r'
  else if e = 0x62 then some (Char.ofNat 8)
  else if e = 0x66 then some (Char.ofNat 12)
  else none

section
variable (src : List Char) (s : Bytes)

/-- The rest of a quoted string. -/
def quotedFrom : Nat → Nat → List Char → Res (String × Nat)
  | 0, _, _ => .error .stuck
  | steps + 1, i, out =>
    match s[i]? with
    | none => .error (.refused i)
    | some c =>
      if c = 0x22 then .ok (String.ofList out, i + 1)
      else if c = 0x5C then
        match s[i + 1]? with
        | none => .error (.refused (i + 1))
        | some e =>
          match escaped e with
          | some ch => quotedFrom steps (i + 2) (out ++ [ch])
          | none =>
            if e = 0x75 then
              match slice (i + 2) (i + 6) src with
              | none => .error (.refused (i + 2))
              | some hex =>
                match (parseHex hex).bind charFrom with
                | none => .error (.refused (i + 2))
                | some ch => quotedFrom steps (i + 6) (out ++ [ch])
            else .error (.refused (i + 1))
      else
        match sliceFrom i src with
        | none => .error .stuck
        | some [] => .error (.refused i)
        | some (ch :: _) => quotedFrom steps (i + ch.utf8Size) (out ++ [ch])

def quoted (i : Nat) : Res (String × Nat) := quotedFrom src s (s.length + 1) (i + 1) []

def isKeyByte (c : UInt8) : Bool :=
  !(c == 0x3A || isAsciiWhitespace c || c == 0x2C || c == 0x7B || c == 0x7D)

def key (i : Nat) : Res (HKey × Nat) :=
  if s[i]? = some 0x22 then do
    let (text, j) ← quoted src s i
    .ok (⟨text, i⟩, j)
  else
    let j := i + ((s.drop i).takeWhile isKeyByte).length
    if j = i then .error (.refused i)
    else do
      let text ← cut (slice i j src)
      .ok (⟨String.ofList text, i⟩, j)

def isQuotelessByte (c : UInt8) : Bool :=
  !(c == 0x2C || c == 0x7D || c == 0x5D || c == 0x0A || c == 0x0D)

/-- A quoteless value, up to a separator, a closing bracket or the end of the line. -/
def quoteless (i : Nat) : Res (HValue × Nat) := do
  let j := i + ((s.drop i).takeWhile isQuotelessByte).length
  let text ← cut (slice i j src)
  let raw := trimEnd text
  if raw.isEmpty then .error (.refused i) else .ok (classify raw, i + width raw)

/-- The entries of an object after its opening brace. -/
def entriesFrom (value : Nat → Res (HValue × Nat)) :
    Nat → Nat → Header → Res (Header × Nat)
  | 0, _, _ => .error .stuck
  | steps + 1, i, obj => do
    let i ← skipTrivia s (s.length + 1) i
    match s[i]? with
    | none => .error (.refused i)
    | some c =>
      if c = 0x7D then .ok (obj, i + 1)
      else if c = 0x2C then entriesFrom value steps (i + 1) obj
      else do
        let (k, i) ← key src s i
        let i ← skipTrivia s (s.length + 1) i
        if s[i]? ≠ some 0x3A then .error (.refused i)
        else do
          let i ← skipInlineTrivia s (s.length + 1) (i + 1)
          let (v, i) ← value i
          entriesFrom value steps i (obj ++ [(k, v)])

def objectWith (value : Nat → Nat → Res (HValue × Nat)) (depth i : Nat) :
    Res (Header × Nat) :=
  if maxNesting < depth then .error (.refused i)
  else if s[i]? ≠ some 0x7B then .error (.refused i)
  else entriesFrom src s (value (depth + 1)) (s.length + 1) (i + 1) []

/-- The items of an array after its opening bracket. -/
def itemsFrom (value : Nat → Res (HValue × Nat)) :
    Nat → Nat → List HValue → Res (List HValue × Nat)
  | 0, _, _ => .error .stuck
  | steps + 1, i, items => do
    let i ← skipTrivia s (s.length + 1) i
    match s[i]? with
    | none => .error (.refused i)
    | some c =>
      if c = 0x5D then .ok (items, i + 1)
      else if c = 0x2C then itemsFrom value steps (i + 1) items
      else do
        let (v, i) ← value i
        itemsFrom value steps i (items ++ [v])

def arrayWith (value : Nat → Nat → Res (HValue × Nat)) (depth i : Nat) :
    Res (List HValue × Nat) :=
  if maxNesting < depth then .error (.refused i)
  else itemsFrom s (value (depth + 1)) (s.length + 1) (i + 1) []

/-- A value, with what is inside it read by one level fewer. -/
def value : Nat → Nat → Nat → Res (HValue × Nat)
  | 0, _, _ => .error .stuck
  | levels + 1, depth, i => do
    let i ← skipInlineTrivia s (s.length + 1) i
    match s[i]? with
    | none => .error (.refused i)
    | some c =>
      if c = 0x7B then do
        let (obj, j) ← objectWith src s (value levels) (depth + 1) i
        .ok (.object obj.plain, j)
      else if c = 0x5B then do
        let (items, j) ← arrayWith s (value levels) (depth + 1) i
        .ok (.array items, j)
      else if c = 0x22 then do
        let (text, j) ← quoted src s i
        .ok (.str text, j)
      else quoteless src s i

end

/-- `parse_object_prefix`: the object at the start of a text, and where it ends. -/
def parseObjectPrefix (src : List Char) : Res (Header × Nat × Nat) := do
  let s := bytes src
  let i ← skipTrivia s (s.length + 1) 0
  let (obj, j) ← objectWith src s (value src s (maxNesting + 2)) 0 i
  .ok (obj, i, j)

end Hjson
end Smysl
