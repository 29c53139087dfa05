import Smysl.Cbor.Keyed
import Smysl.Schema.Revisions

/-!
Field tables and lens steps read back from the bytes a declaration holds for them. A step
keeps the bytes it was received as, and an op that is not read in full is kept as unknown.
-/
namespace Smysl.LensCodec
open ByteString Cursor Cursor.Parser Dec

/-- A step built from its parts, an unknown op as the bytes it was received as. -/
structure Parts where
  src : UInt32
  dst : UInt32
  ops : List HeldOp

section
variable [Unicode]

/-- `op_bytes`. -/
def writtenOp : HeldOp → Bytes
  | .known op => opBytes op
  | .unknown _ bytes => bytes

/-- `step_bytes`. -/
def writtenStep (s : Parts) : Bytes :=
  Enc.map (put 0 (Enc.uint s.src.toNat) ++ put 1 (Enc.uint s.dst.toNat) ++
    put 2 (Enc.array (s.ops.map writtenOp)))

/-- `encode_lenses`: each step's own bytes, in order. -/
def encodeSteps (steps : List Bytes) : Bytes := Enc.array steps

/-- What a reader makes of bytes from their start on. -/
def fromStart {α : Type} (p : Parser α) (b : Bytes) : Option α :=
  match p ⟨0, b⟩ with
  | .ok (a, _) => some a
  | .error _ => none

/-- What a reader makes of bytes, of which it leaves none. -/
def wholly {α : Type} (p : Parser α) (b : Bytes) : Option α :=
  match p ⟨0, b⟩ with
  | .ok (a, d) => if d.rest.isEmpty then some a else none
  | .error _ => none

def rev : Parser UInt32 := do
  let start ← position
  uint32 start

def texts : Parser (List String) := array text

/-- A value, of as many levels as the bytes at hand can hold. -/
def decValue : Parser HValue := fun d => readValue d.rest.length d

def decObject : Parser HObject := fun d => readEntries (readValue d.rest.length) d

def readCond : Parser Cond := do
  let start ← position
  let o ← decObject
  orFail (bad start) (match o with
    | [(key, value)] => some ⟨key, value⟩
    | _ => none)

/-- What a field's map has said so far. -/
structure FieldAcc where
  ty : Option FieldType := none
  values : List String := []
  retiredIn : Option UInt32 := none
  note : Option String := none
  requiredFrom : Option UInt32 := none
  requiredWhen : Option Cond := none
  literals : List String := []

def fieldArms : Arms FieldAcc
  | 0 => field text (fun v a => { a with ty := some (.parse v) })
  | 1 => field texts (fun v a => { a with values := v })
  | 2 => field rev (fun v a => { a with retiredIn := some v })
  | 3 => field text (fun v a => { a with note := some v })
  | 4 => field rev (fun v a => { a with requiredFrom := some v })
  | 5 => field readCond (fun v a => { a with requiredWhen := some v })
  | 6 => field texts (fun v a => { a with literals := v })
  | _ => none

def FieldAcc.finish (a : FieldAcc) : Option Field :=
  a.ty.map fun ty =>
    { ty := ty, values := a.values, retiredIn := a.retiredIn, note := a.note,
      requiredFrom := a.requiredFrom, requiredWhen := a.requiredWhen, literals := a.literals }

def readField : Parser Field := do
  let start ← position
  let a ← readKeyed fieldArms {}
  orFail (bad start) a.finish

/-- Text keys go by their length first, and then by their bytes. -/
def readRow (st : Option String × BTreeMap String Field) :
    Parser (Option String × BTreeMap String Field) := do
  let start ← position
  let key ← text
  if st.1.any (fun p => ¬ KeyOrdered p key) then fail (bad start)
  else do
    let f ← readField
    pure (some key, st.2.insert key f)

def fieldTable : Parser (BTreeMap String Field) := do
  let n ← mapHead
  let out ← loop readRow n (none, ∅)
  pure out.2

/-- A later revision may add keys beside the table, which are skipped. -/
def shapeArms : Arms (Option (BTreeMap String Field))
  | 0 => field fieldTable (fun v _ => some v)
  | _ => none

/-- `shape`. -/
def shape (b : Bytes) : Option (BTreeMap String Field) := (wholly (readKeyed shapeArms none) b).join

/-- The keys of an op are read into a table first, because which keys it has depends on its tag. -/
def opArms : Arms (BTreeMap Nat Bytes) :=
  fun k => field skipItem (fun raw keys => keys.insert k raw)

/-- The keys of the ops that are known. -/
def allowed : String → Option (List Nat)
  | "rename-type" | "rename-relation" | "rename-key" | "map-value" => some [0, 1, 2]
  | "split-value" => some [0, 1, 2, 3, 4]
  | "require" => some [0, 1, 2]
  | "default" => some [0, 1, 2, 3]
  | "retire" => some [0, 1]
  | _ => none

section
variable (keys : BTreeMap Nat Bytes)

def textAt (k : Nat) : Option String := (keys.get k).bind (fromStart text)

def optCond (k : Nat) : Option (Option Cond) :=
  match keys.get k with
  | none => some none
  | some b => (fromStart readCond b).map some

def addText (map : BTreeMap String String) (e : String × HValue) :
    Option (BTreeMap String String) :=
  match e.2 with
  | .str s => some (map.insert e.1 s)
  | _ => none

/-- The texts of an object, which holds nothing else. -/
def textsOf (o : HObject) : Option (BTreeMap String String) := o.foldlM addText ∅

/-- An op of a known tag. -/
def readKnown : String → Option LensOp
  | "rename-type" => do
    let src ← (textAt keys 1).bind SchemaId.parse
    let dst ← (textAt keys 2).bind SchemaId.parse
    some (.renameType src dst)
  | "rename-relation" => do
    let src ← (textAt keys 1).bind RelKind.parse
    let dst ← (textAt keys 2).bind RelKind.parse
    some (.renameRelation src dst)
  | "rename-key" => do
    let src ← textAt keys 1
    let dst ← textAt keys 2
    some (.renameKey src dst)
  | "map-value" => do
    let o ← (keys.get 2).bind (fromStart decObject)
    let map ← textsOf o
    let key ← textAt keys 1
    some (.mapValue key map)
  | "split-value" => do
    let o ← (keys.get 4).bind (fromStart decObject)
    let key ← textAt keys 1
    let src ← textAt keys 2
    let dst ← textAt keys 3
    some (.splitValue key src dst (.ofList o))
  | "require" => do
    let key ← textAt keys 1
    let when_ ← optCond keys 2
    some (.require key when_)
  | "default" => do
    let key ← textAt keys 1
    let value ← (keys.get 2).bind (fromStart decValue)
    let when_ ← optCond keys 3
    some (.default key value when_)
  | "retire" => do
    let key ← textAt keys 1
    some (.retire key)
  | _ => none

end

/-- `op`: one of an unknown tag, or of a known one with a key that is not, is unknown. -/
def readOp (raw : Bytes) : Option HeldOp := do
  let keys ← fromStart (readKeyed opArms ∅) raw
  let tag ← textAt keys 0
  match allowed tag with
  | none => some (.unknown tag raw)
  | some known =>
    if keys.keys.any (fun k => !known.contains k) then some (.unknown tag raw)
    else (readKnown keys tag).map .known

def readItem {α : Type} (read : Bytes → Option α) : Parser α := do
  let start ← position
  let raw ← skipItem
  orFail (bad start) (read raw)

/-- What a step's map has said so far. -/
structure StepAcc where
  src : Option UInt32 := none
  dst : Option UInt32 := none
  ops : Option (List HeldOp) := none

/-- A key that is not known could change what every op means, so the step is not read at all. -/
def stepArms : Arms StepAcc
  | 0 => field rev (fun v a => { a with src := some v })
  | 1 => field rev (fun v a => { a with dst := some v })
  | 2 => field (array (readItem readOp)) (fun v a => { a with ops := some v })
  | _ => some (do
    let start ← position
    fail (bad start))

def StepAcc.finish (raw : Bytes) (a : StepAcc) : Option HeldStep :=
  match a.src, a.dst, a.ops with
  | some src, some dst, some ops =>
    if rises : src < dst then some ⟨src, dst, ops, raw, rises⟩ else none
  | _, _, _ => none

/-- `step`. -/
def readStep (raw : Bytes) : Option HeldStep :=
  (fromStart (readKeyed stepArms {}) raw).bind (StepAcc.finish raw)

/-- `steps`. -/
def steps (b : Bytes) : Option (List HeldStep) := wholly (array (readItem readStep)) b

end
end Smysl.LensCodec
