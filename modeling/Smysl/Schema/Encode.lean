import Smysl.Cbor.Payload
import Smysl.Cbor.Encode

/-!
A schema revision's field table and lens steps, and the bytes a declaration holds for
them.
-/
namespace Smysl
open ByteString

inductive FieldType
  | text
  | int
  | bool
  | uid
  | edtf
  | enum
  | list (inner : FieldType)
  | other (name : String)

namespace FieldType

/-- What stands between `list<` and `>`. -/
def listed (s : List Char) : Option (List Char) :=
  if "list<".toList.isPrefixOf s ∧ s.getLast? = some '>' ∧ 6 ≤ s.length then
    some ((s.drop 5).dropLast)
  else none

/-- `FieldType::parse`, with one level for each character. -/
def parseWithin : Nat → List Char → FieldType
  | 0, s => other (String.ofList s)
  | levels + 1, s =>
    if s = "text".toList then text
    else if s = "int".toList then int
    else if s = "bool".toList then bool
    else if s = "uid".toList then uid
    else if s = "edtf".toList then edtf
    else if s = "enum".toList then enum
    else
      match listed s with
      | some inner => list (parseWithin levels inner)
      | none => other (String.ofList s)

def parse (s : String) : FieldType := parseWithin (s.toList.length + 1) s.toList

def asString : FieldType → String
  | text => "text"
  | int => "int"
  | bool => "bool"
  | uid => "uid"
  | edtf => "edtf"
  | enum => "enum"
  | list inner => "list<" ++ inner.asString ++ ">"
  | other name => name

end FieldType

/-- A condition on one key. -/
structure Cond where
  key : String
  value : HValue

/-- One payload key's entry in a revision's field table. -/
structure Field where
  ty : FieldType
  values : List String
  retiredIn : Option UInt32
  note : Option String
  requiredFrom : Option UInt32
  requiredWhen : Option Cond
  literals : List String

inductive LensOp
  | renameType (src dst : SchemaId)
  | renameRelation (src dst : RelKind)
  | renameKey (src dst : String)
  | mapValue (key : String) (map : BTreeMap String String)
  | splitValue (key src dst : String) (add : BTreeMap String HValue)
  | require (key : String) (when_ : Option Cond)
  | default (key : String) (value : HValue) (when_ : Option Cond)
  | retire (key : String)

/-- A step as it is built: its bytes are those of its parts. -/
structure LensStep where
  src : UInt32
  dst : UInt32
  ops : List LensOp

section
variable [Unicode]

def condBytes (c : Cond) : Bytes := writeObject [(c.key, c.value)]

def fieldBytes (f : Field) : Bytes :=
  Enc.map (put 0 (Enc.text f.ty.asString) ++
    putArray 1 (f.values.map Enc.text) ++
    putOpt 2 f.retiredIn (fun r => Enc.uint r.toNat) ++
    putOpt 3 f.note Enc.text ++
    putOpt 4 f.requiredFrom (fun r => Enc.uint r.toNat) ++
    putOpt 5 f.requiredWhen condBytes ++
    putArray 6 (f.literals.map Enc.text))

/-- A map of encoded entries, in the order of their keys. -/
def textMap (entries : List (Bytes × Bytes)) : Bytes :=
  let sorted := entries.insertionSort (fun a b => a.1 ≤ b.1)
  Enc.head 5 sorted.length ++ sorted.flatMap Enc.row

/-- `encode_shape`. -/
def encodeShape (fields : BTreeMap String Field) : Bytes :=
  Enc.map (put 0 (textMap (fields.entries.map fun e => (Enc.text e.1, fieldBytes e.2))))

/-- An op's tag and what it holds under the keys after it. -/
def opBytes (op : LensOp) : Bytes :=
  let (tag, held) : String × List (Nat × Bytes) :=
    match op with
    | .renameType src dst =>
      ("rename-type", put 1 (Enc.text src.asStr) ++ put 2 (Enc.text dst.asStr))
    | .renameRelation src dst =>
      ("rename-relation", put 1 (Enc.text src.asStr) ++ put 2 (Enc.text dst.asStr))
    | .renameKey src dst => ("rename-key", put 1 (Enc.text src) ++ put 2 (Enc.text dst))
    | .mapValue key map =>
      ("map-value", put 1 (Enc.text key) ++
        put 2 (writeObject (map.entries.map fun e => (e.1, HValue.str e.2))))
    | .splitValue key src dst add =>
      ("split-value", put 1 (Enc.text key) ++ put 2 (Enc.text src) ++ put 3 (Enc.text dst) ++
        put 4 (writeObject add.entries))
    | .require key when_ => ("require", put 1 (Enc.text key) ++ putOpt 2 when_ condBytes)
    | .default key value when_ =>
      ("default", put 1 (Enc.text key) ++ put 2 (writeValue value) ++ putOpt 3 when_ condBytes)
    | .retire key => ("retire", put 1 (Enc.text key))
  Enc.map (put 0 (Enc.text tag) ++ held)

/-- `step_bytes`: the list of ops is written even when it is empty. -/
def stepBytes (s : LensStep) : Bytes :=
  Enc.map (put 0 (Enc.uint s.src.toNat) ++ put 1 (Enc.uint s.dst.toNat) ++
    put 2 (Enc.array (s.ops.map opBytes)))

/-- `encode_lenses`. -/
def encodeLenses (steps : List LensStep) : Bytes := Enc.array (steps.map stepBytes)

end
end Smysl
