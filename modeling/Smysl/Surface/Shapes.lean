import Smysl.Schema.Encode
import Smysl.Surface.Hjson

/-!
The `fields` and `lenses` of a schema declaration in a document, as the bytes the
declaration holds. What is refused is told apart only by being refused.
-/
namespace Smysl
open ByteString

namespace HValue

def asStr : HValue → Option String
  | .str s => some s
  | _ => none

def asInt : HValue → Option Int64
  | .int i => some i
  | _ => none

/-- An integer counts as the number it is. -/
def asF64 : HValue → Option F64
  | .int i => some (F64.ofInt i.toInt)
  | .float f => some f
  | _ => none

def asBool : HValue → Option Bool
  | .bool b => some b
  | _ => none

def asArray : HValue → Option (List HValue)
  | .array items => some items
  | _ => none

def asObject : HValue → Option HObject
  | .object entries => some entries
  | _ => none

/-- A whole number of the unsigned type with `2 ^ bits` values. -/
def asUnsigned (bits : Nat) (v : HValue) : Option Nat :=
  v.asInt.bind fun i => if 0 ≤ i.toInt ∧ i.toInt < 2 ^ bits then some i.toInt.toNat else none

end HValue

namespace HObject

def get (o : HObject) (key : String) : Option HValue :=
  (o.find? (fun e => e.1 == key)).map Prod.snd

/-- Whether it has no key but these. -/
def only (o : HObject) (allowed : List String) : Bool := o.all (fun e => allowed.contains e.1)

end HObject

/-- A value that must be there. -/
def HObject.need {α : Type} (o : HObject) (key : String) (read : HValue → Option α) : Option α :=
  (HObject.get o key).bind read

/-- A value that may be there: absent, read, or (with no result) not read. -/
def HObject.may {α : Type} (o : HObject) (key : String) (read : HValue → Option α) :
    Option (Option α) :=
  match HObject.get o key with
  | none => some none
  | some v => (read v).map some

/-- `rev_of`. -/
def revOf (v : HValue) : Option UInt32 := (v.asUnsigned 32).map UInt32.ofNat

/-- `texts_of`. -/
def textsOf (v : HValue) : Option (List String) := v.asArray.bind (fun l => l.mapM HValue.asStr)

/-- `cond_of`: a map of exactly one key. -/
def condOf (v : HValue) : Option Cond :=
  match v with
  | .object [(key, value)] => some ⟨key, value⟩
  | _ => none

def fieldKeys : List String :=
  ["type", "values", "retired-in", "note", "required-from", "required-when", "literals"]

/-- One entry of `fields`. -/
def fieldOf (v : HValue) : Option Field := do
  let o ← v.asObject
  if !HObject.only o fieldKeys then none
  else
    let ty ← HObject.need o "type" HValue.asStr
    let values ← HObject.may o "values" textsOf
    let retiredIn ← HObject.may o "retired-in" revOf
    let note ← HObject.may o "note" HValue.asStr
    let requiredFrom ← HObject.may o "required-from" revOf
    let requiredWhen ← HObject.may o "required-when" condOf
    let literals ← HObject.may o "literals" textsOf
    some {
      ty := FieldType.parse ty
      values := values.getD []
      retiredIn
      note
      requiredFrom
      requiredWhen
      literals := literals.getD [] }

/-- One op of a lens step. -/
def opOf (v : HValue) : Option LensOp := do
  let o ← v.asObject
  let tag ← HObject.need o "tag" HValue.asStr
  let text key := HObject.need o key HValue.asStr
  let when_ := HObject.may o "when" condOf
  if tag = "rename-type" then
    if !HObject.only o ["tag", "from", "to"] then none
    else do
      let src ← (← text "from") |> SchemaId.parse
      let dst ← (← text "to") |> SchemaId.parse
      some (.renameType src dst)
  else if tag = "rename-relation" then
    if !HObject.only o ["tag", "from", "to"] then none
    else do
      let src ← (← text "from") |> RelKind.parse
      let dst ← (← text "to") |> RelKind.parse
      some (.renameRelation src dst)
  else if tag = "rename-key" then
    if !HObject.only o ["tag", "from", "to"] then none
    else do some (.renameKey (← text "from") (← text "to"))
  else if tag = "map-value" then
    if !HObject.only o ["tag", "key", "map"] then none
    else do
      let m ← HObject.need o "map" HValue.asObject
      let entries ← m.mapM (fun e => e.2.asStr.map (fun s => (e.1, s)))
      some (.mapValue (← text "key") (BTreeMap.ofList entries))
  else if tag = "split-value" then
    if !HObject.only o ["tag", "key", "from", "to", "add"] then none
    else do
      let add ← HObject.need o "add" HValue.asObject
      some (.splitValue (← text "key") (← text "from") (← text "to") (BTreeMap.ofList add))
  else if tag = "require" then
    if !HObject.only o ["tag", "key", "when"] then none
    else do some (.require (← text "key") (← when_))
  else if tag = "default" then
    if !HObject.only o ["tag", "key", "value", "when"] then none
    else do some (.default (← text "key") (← HObject.get o "value") (← when_))
  else if tag = "retire" then
    if !HObject.only o ["tag", "key"] then none
    else do some (.retire (← text "key"))
  else none

/-- One step of `lenses`. -/
def stepOf (v : HValue) : Option LensStep := do
  let o ← v.asObject
  if !HObject.only o ["from", "to", "ops"] then none
  else
    let src ← HObject.need o "from" revOf
    let dst ← HObject.need o "to" revOf
    if dst ≤ src then none
    else
      let ops ← HObject.may o "ops" (fun l => l.asArray.bind (fun l => l.mapM opOf))
      some ⟨src, dst, ops.getD []⟩

section
variable [Unicode]

def parseFields (v : HValue) : Option Bytes := do
  let o ← v.asObject
  let entries ← o.mapM (fun e => (fieldOf e.2).map (fun f => (e.1, f)))
  some (encodeShape (BTreeMap.ofList entries))

def parseLenses (v : HValue) : Option Bytes := do
  let items ← v.asArray
  let steps ← items.mapM stepOf
  some (encodeLenses steps)

end
end Smysl
