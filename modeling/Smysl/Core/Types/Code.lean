import Smysl.Lib.Bytes

/-!
Enumerations with a byte code on the wire. The closed ones refuse a code they
do not name; the open ones keep it next to their `Unknown` variant, so that it
leaves again as it arrived.
-/
namespace Smysl

/-- `as_u8` and `from_u8` of an enumeration, which undo each other. -/
class WireCode (α : Type) where
  asU8 : α → UInt8
  fromU8 : UInt8 → Option α
  fromU8_iff : ∀ c a, fromU8 c = some a ↔ asU8 a = c

export WireCode (asU8 fromU8)

theorem from_u8_as_u8 {α : Type} [WireCode α] (a : α) : fromU8 (asU8 a) = some a :=
  (WireCode.fromU8_iff _ a).mpr rfl

theorem as_u8_injective {α : Type} [WireCode α] : Function.Injective (asU8 : α → UInt8) := by
  intro a b same
  have found := from_u8_as_u8 a
  rw [same, from_u8_as_u8 b] at found
  exact (Option.some.inj found).symm

/-- An enumeration with an `Unknown` variant, whose own code is never written. -/
class OpenCode (α : Type) extends WireCode α where
  unknown : α
  unknown_code : asU8 unknown = 255

/-- An open enumeration's value next to the code it was read from, which is
held only for a code the enumeration does not name. -/
structure Open (α : Type) [OpenCode α] where
  kind : α
  code : Option UInt8
  coherent : ∀ c, code = some c →
    kind = OpenCode.unknown ∧ c ≠ 255 ∧ (fromU8 c : Option α) = none
  deriving DecidableEq

namespace Open
variable {α : Type} [OpenCode α]

def of (kind : α) : Open α := ⟨kind, none, fun _ held => nomatch held⟩

/-- `kind_code`, `role_code`, `schema_code`, `admission_code`. -/
def rawCode (o : Open α) : UInt8 := o.code.getD (asU8 o.kind)

/-- `with_unknown_kind` and its siblings: refuses 255 and any named code. -/
def withUnknown (c : UInt8) : Option (Open α) :=
  if named : c = 255 ∨ ((fromU8 c : Option α)).isSome = true then none
  else some ⟨OpenCode.unknown, some c, by
    rintro _ ⟨rfl⟩
    simpa using named⟩

/-- What the decoders make of a code: the variant it names, or `Unknown` with
the code beside it. -/
def read [DecidableEq α] (c : UInt8) : Option (Open α) :=
  let kind := (fromU8 c).getD OpenCode.unknown
  if kind = OpenCode.unknown then withUnknown c else some (of kind)

/-- Whether the value can be told apart on the wire: `Unknown` needs a code. -/
def Writable (o : Open α) : Prop := o.kind = OpenCode.unknown → o.code.isSome = true

theorem read_raw_code [DecidableEq α] {c : UInt8} {o : Open α} (found : read c = some o) :
    o.rawCode = c := by
  simp only [read] at found
  split at found
  · rw [withUnknown] at found
    split at found
    · cases found
    · cases found
      rfl
  · rename_i known
    cases found
    cases named : (fromU8 c : Option α) with
    | none => simp [named] at known
    | some a => exact (WireCode.fromU8_iff c a).mp named

theorem read_of_writable [DecidableEq α] (o : Open α) (writable : o.Writable) :
    read o.rawCode = some o := by
  obtain ⟨kind, code, coherent⟩ := o
  cases code with
  | some c =>
    obtain ⟨rfl, plain, unnamed⟩ := coherent c rfl
    simp [read, rawCode, unnamed, withUnknown, plain]
  | none =>
    have known : kind ≠ OpenCode.unknown := fun same => by simpa using writable same
    simp [read, rawCode, from_u8_as_u8, known, of]

end Open
end Smysl
