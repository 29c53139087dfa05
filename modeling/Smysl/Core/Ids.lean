import Smysl.Core.Text

/-!
Identities and names: 32-byte digests, label-shaped names, agents, schema ids
and language tags. Each name type holds its grammar, so a value of it is one
the constructor accepted.
-/
namespace Smysl
open ByteString

/-- `[u8; 32]`. -/
structure Bytes32 where
  bytes : Bytes
  width : bytes.length = 32
  deriving DecidableEq

namespace Bytes32

theorem width_of (b : UInt8) : (List.replicate 32 b).length = 32 := List.length_replicate

theorem width_zero : (List.replicate 32 (0 : UInt8)).length = 32 := width_of 0

theorem width_one : (List.replicate 32 (1 : UInt8)).length = 32 := width_of 1

theorem ext_bytes {a b : Bytes32} (same : a.bytes = b.bytes) : a = b := by
  cases a
  cases b
  cases same
  rfl

/-- `<[u8; 32]>::try_from`. -/
def tryFrom (bs : Bytes) : Option Bytes32 :=
  if width : bs.length = 32 then some ⟨bs, width⟩ else none

theorem try_from_iff (bs : Bytes) (a : Bytes32) : tryFrom bs = some a ↔ a.bytes = bs := by
  constructor
  · intro found
    rw [tryFrom] at found
    split at found
    · cases found
      rfl
    · cases found
  · rintro rfl
    rw [tryFrom, dif_pos a.width]

instance : LinearOrder Bytes32 := LinearOrder.lift' bytes (fun _ _ => ext_bytes)

end Bytes32

/-- BLAKE3-256, which the crate imports. -/
class Blake3 where
  hash : Bytes → Bytes32

inductive DigestKind
  | unit
  | part
  | manifest
  | dating
  | reading
  deriving DecidableEq

/-- A digest that says what it is the digest of. -/
structure Digest (kind : DigestKind) where
  raw : Bytes32
  deriving DecidableEq

namespace Digest
variable {kind : DigestKind}

instance lawful : LawfulBEq (Digest kind) := inferInstance

theorem ext_raw {a b : Digest kind} (same : a.raw = b.raw) : a = b := by
  cases a
  cases b
  cases same
  rfl

def asBytes (d : Digest kind) : Bytes := d.raw.bytes

theorem as_bytes_injective : Function.Injective (asBytes : Digest kind → Bytes) :=
  fun _ _ same => ext_raw (Bytes32.ext_bytes same)

instance : LinearOrder (Digest kind) := LinearOrder.lift' raw (fun _ _ => ext_raw)

end Digest

abbrev Uid := Digest .unit
abbrev Tid := Digest .part
abbrev Mid := Digest .manifest
abbrev Did := Digest .dating
abbrev Rdid := Digest .reading

/-- The domain byte that goes before the preimage of an identity. -/
def DigestKind.domain : DigestKind → Option UInt8
  | .unit => none
  | .part => some 0x0F
  | .manifest => some 0x0E
  | .dating => some 0x11
  | .reading => some 0x12

/-- `$name::of`: the identity of a preimage. -/
def Digest.of [Blake3] {kind : DigestKind} (preimage : Bytes) : Digest kind :=
  ⟨Blake3.hash (kind.domain.toList ++ preimage)⟩

/-- `is_ext_segment`. -/
def isExtSegment : Bytes → Bool
  | [] => false
  | c :: cs =>
    (isAsciiLowercase c || isAsciiDigit c) &&
      cs.all (fun c => isAsciiLowercase c || isAsciiDigit c || c == 0x2D || c == 0x5F || c == 0x2E)

/-- `is_ident`. -/
def isIdent : Bytes → Bool
  | [] => false
  | c :: cs =>
    isAsciiLowercase c &&
      cs.all (fun c => isAsciiLowercase c || isAsciiDigit c || c == 0x2D || c == 0x5F)

def isLabelShaped (s : String) : Bool :=
  match splitOnce 0x2F (utf8 s) with
  | some (a, b) => isIdent a && isIdent b
  | none => false

/-- `AgentId::is_valid`. -/
def isAgentId (s : String) : Bool :=
  match splitOnce 0x3A (utf8 s) with
  | none => false
  | some (kind, rest) =>
    if kind != utf8 "model" && kind != utf8 "human" && kind != utf8 "tool" then false
    else
      let (head, tail) :=
        match splitOnce 0x2F rest with
        | some (h, t) => (h, some t)
        | none => (rest, none)
      let plain (c : UInt8) : Bool :=
        isAsciiLowercase c || isAsciiDigit c || c == 0x2E || c == 0x5F || c == 0x2D
      let headOk := !head.isEmpty && head.all plain
      let tailOk :=
        match tail with
        | none => true
        | some t => !t.isEmpty && t.all (fun c => plain c || c == 0x3A || c == 0x2F)
      headOk && tailOk

/-- `LangTag::new`: what it accepts. -/
def isLangTag (s : String) : Bool :=
  let bs := utf8 s
  !bs.isEmpty && decide (bs.length ≤ 35) &&
    (splitAll 0x2D bs).all (fun seg => !seg.isEmpty && seg.all isAsciiAlphanumeric)

/-- The name types of the crate. -/
inductive NameKind
  | label
  | thread
  | view
  | contention
  | agent
  | lang
  deriving DecidableEq

def NameKind.accepts : NameKind → String → Bool
  | label | thread | view | contention => isLabelShaped
  | agent => isAgentId
  | lang => isLangTag

/-- A name together with the fact that its type accepts it. -/
structure Name (kind : NameKind) where
  text : String
  valid : kind.accepts text = true
  deriving DecidableEq

namespace Name
variable {kind : NameKind}

/-- `$name::new`. -/
def new (s : String) : Option (Name kind) :=
  if valid : kind.accepts s = true then some ⟨s, valid⟩ else none

theorem text_injective : Function.Injective (text : Name kind → String) := by
  intro a b same
  cases a
  cases b
  cases same
  rfl

theorem new_iff (s : String) (a : Name kind) : new s = some a ↔ a.text = s := by
  constructor
  · intro found
    rw [new] at found
    split at found
    · cases found
      rfl
    · cases found
  · rintro rfl
    rw [new, dif_pos a.valid]

instance : LinearOrder (Name kind) := LinearOrder.lift' text text_injective

end Name

abbrev Label := Name .label
abbrev ThreadId := Name .thread
abbrev ViewId := Name .view
abbrev ContentionId := Name .contention
abbrev AgentId := Name .agent
abbrev LangTag := Name .lang

/-! Names that worked records give. -/

theorem en_accepted : NameKind.lang.accepts "en" = true := by decide

theorem view_a_accepted : NameKind.view.accepts "v/a" = true := by decide

theorem human_a_accepted : NameKind.agent.accepts "human:a" = true := by decide

theorem tool_a_accepted : NameKind.agent.accepts "tool:a" = true := by decide

inductive KernelType
  | claim | evidence | definition | question | hypothesis | finding | procedure | decision
  | constraint | observation | data | artifactRef | prose | contention | packInfo
  deriving DecidableEq, Repr

namespace KernelType

def all : List KernelType :=
  [claim, evidence, definition, question, hypothesis, finding, procedure, decision, constraint,
    observation, data, artifactRef, prose, contention, packInfo]

def asStr : KernelType → String
  | claim => "claim"
  | evidence => "evidence"
  | definition => "definition"
  | question => "question"
  | hypothesis => "hypothesis"
  | finding => "finding"
  | procedure => "procedure"
  | decision => "decision"
  | constraint => "constraint"
  | observation => "observation"
  | data => "data"
  | artifactRef => "artifact-ref"
  | prose => "prose"
  | contention => "contention"
  | packInfo => "packinfo"

def parse (s : String) : Option KernelType := all.find? (fun k => k.asStr == s)

end KernelType

/-- A lookup by printed name that finds something finds what prints as asked. -/
theorem find_named {α : Type} {all : List α} {s : String} {a : α} (name : α → String)
    (found : all.find? (fun k => name k == s) = some a) : name a = s := by
  simpa using List.find?_some found

inductive SchemaId
  | kernel (type : KernelType)
  | kernelSchema (text : String)
  | extension (text : String)
  | unknownKernel (text : String)
  deriving DecidableEq, Repr

namespace SchemaId

def asStr : SchemaId → String
  | kernel k => k.asStr
  | kernelSchema s | extension s | unknownKernel s => s

/-- `SchemaId::parse`. -/
def parse (s : String) : Option SchemaId :=
  match KernelType.parse s with
  | some k => some (kernel k)
  | none =>
    match stripPrefix "smysl.kernel/" (utf8 s) with
    | some v => if isExtSegment v then some (kernelSchema s) else none
    | none => do
      let rest ← stripPrefix "x." (utf8 s)
      let (domain, ty) ← splitOnce 0x2F rest
      if isIdent domain && isExtSegment ty then some (extension s) else none

/-- `SchemaId::parse_forward`: a bare name no kernel type has is kept. -/
def parseForward (s : String) : Option SchemaId :=
  match parse s with
  | some id => some id
  | none =>
    let claimsANamespace :=
      (stripPrefix "x." (utf8 s)).isSome || (stripPrefix "smysl.kernel/" (utf8 s)).isSome ||
        (utf8 s).contains 0x2F
    if !claimsANamespace && isExtSegment (utf8 s) then some (unknownKernel s) else none

theorem parse_as_str {s : String} {id : SchemaId} (parsed : parse s = some id) :
    id.asStr = s := by
  rw [parse] at parsed
  split at parsed
  · rename_i k found
    cases parsed
    exact find_named KernelType.asStr found
  · split at parsed
    · split at parsed
      · cases parsed
        rfl
      · cases parsed
    · simp only [Option.bind_eq_bind, Option.bind_eq_some_iff] at parsed
      obtain ⟨rest, _, ⟨domain, ty⟩, _, last⟩ := parsed
      split at last
      · cases last
        rfl
      · cases last

theorem parse_forward_as_str {s : String} {id : SchemaId}
    (parsed : parseForward s = some id) : id.asStr = s := by
  simp only [parseForward] at parsed
  split at parsed
  · rename_i found
    cases parsed
    exact parse_as_str found
  · split at parsed
    · cases parsed
      rfl
    · cases parsed

/-- The derived order: by variant, then by what the variant holds. -/
def rank : SchemaId → ℕ ×ₗ ℕ ×ₗ String
  | kernel k => toLex (0, toLex (k.ctorIdx, ""))
  | kernelSchema s => toLex (1, toLex (0, s))
  | extension s => toLex (2, toLex (0, s))
  | unknownKernel s => toLex (3, toLex (0, s))

theorem rank_injective : Function.Injective rank := by
  intro a b same
  cases a <;> cases b <;> simp [rank] at same ⊢
  · rename_i k l
    revert same
    cases k <;> cases l <;> simp [KernelType.ctorIdx]
  all_goals exact same

instance : LinearOrder SchemaId := LinearOrder.lift' rank rank_injective

end SchemaId

end Smysl
