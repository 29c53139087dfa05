import Smysl.Core.Ascii

/-!
EDTF levels 0 and 1: the values, their one spelling, and the parser, which works
on the bytes of the text and stops where a slice would cut a character.
-/
namespace Smysl
open ByteString

namespace Edtf

/-- How sure the source is. -/
inductive Qualifier
  | uncertain
  | approximate
  | both
  deriving DecidableEq, Repr

namespace Qualifier

def asChar : Qualifier → UInt8
  | uncertain => 0x3F
  | approximate => 0x7E
  | both => 0x25

def fromChar (c : UInt8) : Option Qualifier :=
  if c = 0x3F then some uncertain
  else if c = 0x7E then some approximate
  else if c = 0x25 then some both
  else none

end Qualifier

/-- A two-digit component: a number, or `XX`. -/
inductive Part
  | num (n : Nat)
  | unspecified
  deriving DecidableEq, Repr

/-- A year: four digits of which the rightmost may be `X`, or the `Y` spelling of
one that four digits cannot hold. -/
structure Year where
  value : Int
  unspecified : Nat
  long : Bool
  valid : (long = false ∧ unspecified ≤ 4 ∧ -9999 ≤ value ∧ value ≤ 9999 ∧
      value % 10 ^ unspecified = 0) ∨
    (long = true ∧ unspecified = 0 ∧ -2 ^ 31 ≤ value ∧ value < 2 ^ 31 ∧
      (value < -9999 ∨ 9999 < value))
  deriving DecidableEq

namespace Year

def new (value : Int) : Option Year :=
  if fits : -9999 ≤ value ∧ value ≤ 9999 then
    some ⟨value, 0, false, Or.inl ⟨rfl, by omega, fits.1, fits.2, by simp⟩⟩
  else none

/-- A year whose rightmost digits the source does not give; the value has zeros
there. -/
def masked (value : Int) (unspecified : Nat) : Option Year :=
  if fits : (1 ≤ unspecified ∧ unspecified ≤ 4) ∧ (-9999 ≤ value ∧ value ≤ 9999) ∧
      value % 10 ^ unspecified = 0 then
    some ⟨value, unspecified, false,
      Or.inl ⟨rfl, fits.1.2, fits.2.1.1, fits.2.1.2, fits.2.2⟩⟩
  else none

/-- `Year::long`, of a value that an `i32` holds. -/
def ofLong (value : Int) : Option Year :=
  if fits : (-2 ^ 31 ≤ value ∧ value < 2 ^ 31) ∧ (value < -9999 ∨ 9999 < value) then
    some ⟨value, 0, true, Or.inr ⟨rfl, rfl, fits.1.1, fits.1.2, fits.2⟩⟩
  else none

end Year

/-- A date at year, month or day precision. -/
structure Date where
  year : Year
  month : Option Part
  day : Option Part
  qualifier : Option Qualifier
  deriving DecidableEq

inductive Zone
  | utc
  | offset (minutes : Int)
  deriving DecidableEq, Repr

structure DateTime where
  year : Int
  month : Nat
  day : Nat
  hour : Nat
  minute : Nat
  second : Nat
  zone : Option Zone
  deriving DecidableEq, Repr

inductive End
  | date (d : Date)
  | opened
  | unknown
  deriving DecidableEq

end Edtf

inductive Edtf
  | date (d : Edtf.Date)
  | dateTime (t : Edtf.DateTime)
  | interval (lo hi : Edtf.End)
  deriving DecidableEq

namespace Edtf
open Smysl.Date (digits padded digitsValue)

/-! The one spelling of each value. -/

/-- A signed number: `{}`. -/
def numberText (n : Int) : Bytes :=
  (if n < 0 then [0x2D] else []) ++ padded 1 n.natAbs

/-- The digits of a plain year, the rightmost masked. -/
def Year.digitsText (y : Year) : Bytes :=
  let digits := padded 4 y.value.natAbs
  digits.take (digits.length - y.unspecified) ++ List.replicate y.unspecified 0x58

def Year.text (y : Year) : Bytes :=
  if y.long then 0x59 :: numberText y.value
  else (if y.value < 0 then [0x2D] else []) ++ y.digitsText

def Part.text : Part → Bytes
  | .num n => padded 2 n
  | .unspecified => [0x58, 0x58]

/-- What follows the year of a date. -/
def Date.restText (d : Date) : Bytes :=
  (match d.month with
    | some m => 0x2D :: m.text
    | none => []) ++
  (match d.day with
    | some m => 0x2D :: m.text
    | none => []) ++
  (match d.qualifier with
    | some q => [q.asChar]
    | none => [])

def Date.text (d : Date) : Bytes := d.year.text ++ d.restText

def Zone.text : Zone → Bytes
  | .utc => [0x5A]
  | .offset m =>
    (if m < 0 then 0x2D else 0x2B) :: (padded 2 (m.natAbs / 60) ++ 0x3A :: padded 2 (m.natAbs % 60))

/-- What follows the sign of a date-time. -/
def DateTime.restText (t : DateTime) : Bytes :=
  padded 4 t.year.natAbs ++ 0x2D :: (padded 2 t.month ++ 0x2D :: (padded 2 t.day ++
    0x54 :: (padded 2 t.hour ++ 0x3A :: (padded 2 t.minute ++ 0x3A :: (padded 2 t.second ++
      match t.zone with
      | some z => z.text
      | none => [])))))

def DateTime.text (t : DateTime) : Bytes := (if t.year < 0 then [0x2D] else []) ++ t.restText

def End.text : End → Bytes
  | .date d => d.text
  | .opened => [0x2E, 0x2E]
  | .unknown => []

def text : Edtf → Bytes
  | .date d => d.text
  | .dateTime t => t.text
  | .interval lo hi => lo.text ++ 0x2F :: hi.text

/-! The parser. -/

/-- Why the parser stops: it refuses the text, or a slice is off a character
boundary. -/
inductive Stop
  | refused (found : Bytes) (why : String)
  | panicked
  deriving DecidableEq

abbrev Res (α : Type) := Except Stop α

def err {α : Type} (found : Bytes) (why : String) : Res α := .error (.refused found why)

/-- `str::is_char_boundary`. -/
def isCharBoundary (s : Bytes) (i : Nat) : Bool :=
  i == 0 || i == s.length ||
    match s[i]? with
    | some b => !(0x80 ≤ b && b ≤ 0xBF)
    | none => false

/-- `str::split_at`. -/
def splitAt (s : Bytes) (mid : Nat) : Res (Bytes × Bytes) :=
  if isCharBoundary s mid then .ok (s.take mid, s.drop mid) else .error .panicked

/-- How many bytes of a year field are `X`. -/
def maskOf (digits : Bytes) : Nat := digits.countP (fun b => b == 0x58)

/-- Four digits, optionally signed, with the rightmost digits optionally masked. -/
def plainYear (whole : Bytes) (neg : Bool) (digits : Bytes) : Res Year :=
  if digits.length ≠ 4 then err whole "a year is four digits, zero-padded"
  else do
    let masked := maskOf digits
    let (known, tail) ← splitAt digits (digits.length - masked)
    if !tail.all (fun b => b == 0x58) then
      err whole "only the rightmost digits of a year may be `X`"
    else if !known.all isAsciiDigit then err whole "a year is four digits, zero-padded"
    else
      match digitsValue known with
      | none => err whole "a year is four digits, zero-padded"
      | some n =>
        let value : Int := n * 10 ^ masked
        let value := if neg then -value else value
        match (if masked = 0 then Year.new value else Year.masked value masked) with
        | some y => .ok y
        | none => err whole "a year is four digits, zero-padded"

inductive Component
  | month
  | day
  deriving DecidableEq, Repr

/-- The numbers a component may have. -/
def Component.takes : Component → Nat → Bool
  | month, n => (1 ≤ n && n ≤ 12) || (21 ≤ n && n ≤ 24)
  | day, n => 1 ≤ n && n ≤ 31

def Component.refusal : Component → String
  | month => "a month is 01 to 12, or a season 21 to 24"
  | day => "a day is 01 to 31"

def two (whole txt : Bytes) (which : Component) : Res Part :=
  if txt = [0x58, 0x58] then .ok .unspecified
  else if txt.length ≠ 2 ∨ !txt.all isAsciiDigit then
    err whole "a month and a day are two digits or `XX`, zero-padded"
  else
    match digitsValue txt with
    | none => err whole "a month and a day are two digits"
    | some n => if which.takes n then .ok (.num n) else err whole which.refusal

def fitsI32 (value : Int) : Bool := -2 ^ 31 ≤ value && value < 2 ^ 31

/-- The digits of a `Y` year, after its sign. -/
def longDigits (whole : Bytes) (neg : Bool) (digits : Bytes) : Res Year :=
  if digits.length < 5 ∨ !digits.all isAsciiDigit then
    err whole "a `Y` year is five digits or more, and four-digit years are written without it"
  else if digits.head? = some 0x30 then err whole "a `Y` year has no leading zero"
  else
    match digitsValue digits with
    | none => err whole "that year does not fit in a 32-bit integer"
    | some n =>
      let value : Int := if neg then -(n : Int) else n
      if !fitsI32 value then err whole "that year does not fit in a 32-bit integer"
      else
        match Year.ofLong value with
        | some y => .ok y
        | none => err whole "a `Y` year is five digits or more"

/-- The sign and what follows it. -/
def signOf (txt : Bytes) : Bool × Bytes :=
  if txt.head? = some 0x2D then (true, txt.drop 1) else (false, txt)

/-- `Y170000002` or `Y-170000002`. -/
def longYear (whole txt : Bytes) : Res Year :=
  let (neg, digits) := signOf (txt.drop 1)
  longDigits whole neg digits

def isLeap (y : Int) : Bool := (y % 4 == 0 && y % 100 != 0) || y % 400 == 0

def daysInMonth (year : Int) (month : Nat) : Nat :=
  match month with
  | 1 | 3 | 5 | 7 | 8 | 10 | 12 => 31
  | 4 | 6 | 9 | 11 => 30
  | 2 => if isLeap year then 29 else 28
  | _ => 0

/-- Whether a month and a day are one of a season, which has none. -/
def seasonDay : Option Part → Option Part → Bool
  | some (.num m), some _ => 21 ≤ m
  | _, _ => false

/-- Whether a day does not exist in its month. -/
def noSuchDay (year : Year) : Option Part → Option Part → Bool
  | some (.num m), some (.num d) => year.unspecified == 0 && daysInMonth year.value m < d
  | _, _ => false

/-- The text of a date without its qualifier. -/
def bodyOf (txt : Bytes) : Bytes × Option Qualifier :=
  match txt.getLast?.bind Qualifier.fromChar with
  | some q => (txt.dropLast, some q)
  | none => (txt, none)

/-- The sign and the fields of a date that is no long year. -/
def fieldsOf (body : Bytes) : Bool × List Bytes :=
  let (neg, unsigned) := signOf body
  (neg, splitAll 0x2D unsigned)

def optPart (whole : Bytes) (which : Component) : Option Bytes → Res (Option Part)
  | none => .ok none
  | some m => some <$> two whole m which

/-- A date that is no long year, from its fields. -/
def fieldDate (txt : Bytes) (neg : Bool) (fields : List Bytes) (qualifier : Option Qualifier) :
    Res Date := do
  let year ← plainYear txt neg (fields.headD [])
  let month ← optPart txt .month fields[1]?
  let day ← optPart txt .day fields[2]?
  if fields.length > 3 then err txt "a date has at most a year, a month and a day"
  else if day.isSome && month.isNone then err txt "a day needs a month"
  else if seasonDay month day then err txt "a season has no days"
  else if noSuchDay year month day then err txt "that day does not exist in that month"
  else .ok ⟨year, month, day, qualifier⟩

/-- `date`. -/
def parseDate (txt : Bytes) : Res Date :=
  let (body, qualifier) := bodyOf txt
  if body.head? = some 0x59 then do
    let year ← longYear txt body
    return ⟨year, none, none, qualifier⟩
  else
    let (neg, fields) := fieldsOf body
    fieldDate txt neg fields qualifier

def isSign (b : UInt8) : Bool := b == 0x2B || b == 0x2D

def twoDigits (txt : Bytes) : Option Nat :=
  if txt.length = 2 ∧ txt.all isAsciiDigit then digitsValue txt else none

def splitZone (whole t : Bytes) : Res (Bytes × Option Zone) :=
  if t.getLast? = some 0x5A then .ok (t.dropLast, some .utc)
  else
    -- the last sign, from the end
    match (t.reverse.span (fun b => !isSign b)) with
    | (_, []) => .ok (t, none)
    | (offset, sign :: clock) =>
      let east := sign == 0x2B
      match splitOnce 0x3A offset.reverse with
      | none => err whole "an offset is `+HH:MM` or `-HH:MM`"
      | some (h, m) =>
        match twoDigits h, twoDigits m with
        | some h, some m =>
          if h > 23 ∨ m > 59 then err whole "an offset runs to 23:59"
          else if h * 60 + m = 0 ∧ !east then
            err whole "`-00:00` is `Z`, and one value has one spelling"
          else .ok (clock.reverse, some (.offset (if east then h * 60 + m else -(h * 60 + m))))
        | _, _ => err whole "an offset is `+HH:MM` or `-HH:MM`, zero-padded"

/-- `date_time`. -/
def parseDateTime (txt : Bytes) : Res DateTime :=
  match splitOnce 0x54 txt with
  | none => err txt "a date-time separates its halves with `T`"
  | some (dTxt, tTxt) => do
    let d ← parseDate dTxt
    if d.qualifier.isSome then err txt "a date-time is level 0, and takes no qualifier"
    else
      match d.month, d.day with
      | some (.num month), some (.num day) =>
        if d.year.unspecified ≠ 0 ∨ d.year.long then
          err txt "a date-time needs a four-digit year with no `X`"
        else do
          let (clock, zone) ← splitZone txt tTxt
          match (splitAll 0x3A clock).map twoDigits with
          | [some hour, some minute, some second] =>
            if hour > 23 ∨ minute > 59 ∨ second > 59 then
              err txt "a time of day runs to 23:59:59"
            else .ok ⟨d.year.value, month, day, hour, minute, second, zone⟩
          | _ => err txt "a time of day is `HH:MM:SS`, zero-padded"
      | _, _ => err txt "a date-time needs a full date"

def parseEnd (whole txt : Bytes) : Res End :=
  if txt = [] then .ok .unknown
  else if txt = [0x2E, 0x2E] then .ok .opened
  else if txt.contains 0x54 then
    err whole "an interval end is a date, never a date-time (level 0)"
  else .date <$> parseDate txt

def End.isDate : End → Bool
  | .date _ => true
  | _ => false

def parse (s : Bytes) : Res Edtf :=
  if s = [] then err s "the value is empty"
  else
    match splitAll 0x2F s with
    | [lo, hi] => do
      let lo ← parseEnd s lo
      let hi ← parseEnd s hi
      if lo.isDate || hi.isDate then .ok (.interval lo hi)
      else err s "an interval needs a date at one end"
    | _ :: _ :: _ => err s "an interval has two ends, so one `/`"
    | _ => if s.contains 0x54 then .dateTime <$> parseDateTime s else .date <$> parseDate s

end Edtf
end Smysl
