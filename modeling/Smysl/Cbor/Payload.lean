import Smysl.Cbor.ValueReads
import Smysl.Core.Double
import Smysl.Lib.Firsts

/-!
Unknown header keys, carried as a map with text keys in `payload`: the values a
header can hold, how they are written, how they are read back, and the form that
reading what was written leaves them in.
-/
namespace Smysl
open ByteString Cursor Cursor.Parser Dec

/-- A value of a header, without the span it was read from. -/
inductive HValue
  | null
  | bool (b : Bool)
  | int (i : Int64)
  | float (f : F64)
  | str (s : String)
  | array (items : List HValue)
  | object (entries : List (String × HValue))

/-- An object keeps its keys in the order they were written in, repeats included. -/
abbrev HObject := List (String × HValue)

namespace HValue

/-- Induction on a value, with the values in an array or an object together. -/
theorem induct {motive : HValue → Prop} (null : motive .null) (bool : ∀ b, motive (.bool b))
    (int : ∀ i, motive (.int i)) (float : ∀ f, motive (.float f)) (str : ∀ s, motive (.str s))
    (array : ∀ items, (∀ v ∈ items, motive v) → motive (.array items))
    (object : ∀ entries : List (String × HValue), (∀ e ∈ entries, motive e.2) →
      motive (.object entries)) (v : HValue) : motive v :=
  HValue.rec (motive_1 := motive) (motive_2 := fun items => ∀ v ∈ items, motive v)
    (motive_3 := fun entries => ∀ e ∈ entries, motive e.2) (motive_4 := fun e => motive e.2)
    null bool int float str array object (by simp)
    (fun _ _ first rest => List.forall_mem_cons.mpr ⟨first, rest⟩) (by simp)
    (fun _ _ first rest => List.forall_mem_cons.mpr ⟨first, rest⟩) (fun _ _ value => value) v

end HValue

section
variable [Unicode]

/-- One entry of a map with text keys, as it stands in the map. -/
def Enc.row (r : Bytes × Bytes) : Bytes := r.1 ++ r.2

/-- A map of encoded entries, in the order of their keys, the first of each key kept. -/
def Enc.rows (entries : List (Bytes × Bytes)) : Bytes :=
  let kept := Firsts.kept Prod.fst entries
  head 5 kept.length ++ kept.flatMap row

mutual

def writeValue : HValue → Bytes
  | .null => [0xF6]
  | .bool false => [0xF4]
  | .bool true => [0xF5]
  | .int i => Enc.int i
  | .float f => Enc.f32q f.toF32
  | .str s => Enc.text s
  | .array items => Enc.array (writeItems items)
  | .object entries => Enc.rows (writeEntries entries)

def writeItems : List HValue → List Bytes
  | [] => []
  | v :: items => writeValue v :: writeItems items

def writeEntries : List (String × HValue) → List (Bytes × Bytes)
  | [] => []
  | (k, v) :: entries => (Enc.text k, writeValue v) :: writeEntries entries

end

def writeObject (o : HObject) : Bytes := Enc.rows (writeEntries o)

/-- An object of no keys is no payload, rather than an empty one. -/
def objectToPayload (o : HObject) : Option Bytes := if o.isEmpty then none else some (writeObject o)

/-- Text keys go by their length first, and then by their bytes. -/
def KeyOrdered (p key : String) : Prop :=
  (utf8 p).length < (utf8 key).length ∨
    ((utf8 p).length = (utf8 key).length ∧ utf8 p < utf8 key)

instance (p key : String) : Decidable (KeyOrdered p key) := inferInstanceAs (Decidable (_ ∨ _))

/-- A round of `read_object`'s loop, by how the values are read. -/
def readPair (value : Parser HValue) (start : Nat) (st : Option String × HObject) :
    Parser (Option String × HObject) := do
  let key ← text
  if st.1.any (fun p => ¬ KeyOrdered p key) then fail (.nonDeterministic start .unsortedMapKeys)
  else do
    let v ← value
    pure (some key, st.2 ++ [(key, v)])

def readEntries (value : Parser HValue) : Parser HObject := do
  let start ← position
  let n ← mapHead
  let out ← loop (readPair value start) n (none, [])
  pure out.2

/-- The arms of `read_value`, by the byte ahead. -/
def readArm (value : Parser HValue) (start : Nat) (b : UInt8) : Parser HValue :=
  if b = 0xF6 then do
    let _ ← byte
    pure .null
  else if b = 0xF4 then do
    let _ ← byte
    pure (.bool false)
  else if b = 0xF5 then do
    let _ ← byte
    pure (.bool true)
  else if b = 0xFA then do
    let v ← f32q
    pure (.float v.toF64)
  else if b.toNat / 32 = 0 then do
    let v ← uint
    if v.toNat < 2 ^ 63 then pure (.int (Int64.ofNat v.toNat)) else fail (bad start)
  else if b.toNat / 32 = 1 then do
    let h ← head
    if h.2 < 2 ^ 63 then pure (.int (Int64.ofInt (-1 - (h.2 : Int)))) else fail (bad start)
  else if b.toNat / 32 = 3 then do
    let s ← text
    pure (.str s)
  else if b.toNat / 32 = 4 then do
    let items ← array value
    pure (.array items)
  else if b.toNat / 32 = 5 then do
    let o ← readEntries value
    pure (.object o)
  else fail (bad start)

/-- `read_value`, by how many levels of nesting the bytes at hand can hold. -/
def readValue : Nat → Parser HValue
  | 0 => do
    let start ← position
    fail (.truncated start)
  | levels + 1 => do
    let start ← position
    let b ← peek
    readArm (readValue levels) start b

/-- A payload is read from its first byte; what follows the map is not looked at. -/
def payloadToObject (b : Bytes) : Except CodecError HObject :=
  match readEntries (readValue b.length) ⟨0, b⟩ with
  | .ok (o, _) => .ok o
  | .error e => .error e

/-- Keys in the order of their encodings, the first of each key as it was given. -/
def keysInOrder (entries : HObject) : HObject :=
  Firsts.sorted (fun e => Enc.text e.1) (Firsts.firsts Prod.fst entries)

mutual

/-- A value with its text normalised, its floats quantised and its keys in order. -/
def HValue.normal : HValue → HValue
  | .null => .null
  | .bool b => .bool b
  | .int i => .int i
  | .float f => .float f.toF32.quantise.toF64
  | .str s => .str (normalise s)
  | .array items => .array (normalItems items)
  | .object entries => .object (keysInOrder (normalEntries entries))

def normalItems : List HValue → List HValue
  | [] => []
  | v :: items => v.normal :: normalItems items

def normalEntries : List (String × HValue) → List (String × HValue)
  | [] => []
  | (k, v) :: entries => (normalise k, v.normal) :: normalEntries entries

end

def normalObject (o : HObject) : HObject := keysInOrder (normalEntries o)

@[simp] theorem write_items (items : List HValue) : writeItems items = items.map writeValue := by
  induction items with
  | nil => rfl
  | cons v items ih => rw [writeItems, ih, List.map_cons]

/-- An entry as it is written. -/
def writeEntry (e : String × HValue) : Bytes × Bytes := (Enc.text e.1, writeValue e.2)

/-- An entry with its key and its value, as it stands in the map. -/
def rowOf (e : String × HValue) : Bytes := Enc.row (writeEntry e)

@[simp] theorem write_entries (entries : HObject) :
    writeEntries entries = entries.map writeEntry := by
  induction entries with
  | nil => rfl
  | cons e entries ih => rw [writeEntries, ih, List.map_cons, writeEntry]

@[simp] theorem normal_items (items : List HValue) :
    normalItems items = items.map HValue.normal := by
  induction items with
  | nil => rfl
  | cons v items ih => rw [normalItems, ih, List.map_cons]

/-- An entry in its normal form. -/
def normalEntry (e : String × HValue) : String × HValue := (normalise e.1, e.2.normal)

@[simp] theorem normal_entries (entries : HObject) :
    normalEntries entries = entries.map normalEntry := by
  induction entries with
  | nil => rfl
  | cons e entries ih => rw [normalEntries, ih, List.map_cons, normalEntry]

end
end Smysl
