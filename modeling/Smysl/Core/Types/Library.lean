import Smysl.Core.Ascii
import Smysl.Core.Types.Annex

/-!
The library substrate, manifests, part texts and their readings, datings and
redactions, and the sum of all record types.
-/
namespace Smysl
open ByteString

inductive Carry
  | none
  | ref
  | text
  deriving DecidableEq, Repr

instance : WireCode Carry where
  asU8
    | .none => 0
    | .ref => 1
    | .text => 2
  fromU8
    | 0 => some .none
    | 1 => some .ref
    | 2 => some .text
    | _ => Option.none
  fromU8_iff c a := by
    constructor
    · intro found
      split at found <;> cases found <;> rfl
    · rintro rfl
      cases a <;> rfl

/-- An enumeration written as text: `as_str` and `parse` undo each other. -/
class WireName (α : Type) where
  asStr : α → String
  parse : String → Option α
  parse_iff : ∀ s a, parse s = some a ↔ asStr a = s
  ascii : ∀ a, Ascii (utf8 (asStr a))

inductive ParentKind
  | translation
  | edition
  | excerpt
  | transcription
  deriving DecidableEq, Repr

namespace ParentKind

def all : List ParentKind := [translation, edition, excerpt, transcription]

def asStr : ParentKind → String
  | translation => "translation"
  | edition => "edition"
  | excerpt => "excerpt"
  | transcription => "transcription"

def parse (s : String) : Option ParentKind := all.find? (fun k => k.asStr == s)

instance : WireName ParentKind where
  asStr := asStr
  parse := parse
  parse_iff s a := by
    constructor
    · exact find_named asStr
    · rintro rfl
      cases a <;> decide
  ascii a := by cases a <;> decide +kernel

end ParentKind

inductive Calendar
  | julian
  deriving DecidableEq, Repr

namespace Calendar

def asStr : Calendar → String
  | julian => "julian"

def parse (s : String) : Option Calendar := if s = "julian" then some julian else none

instance : WireName Calendar where
  asStr := asStr
  parse := parse
  parse_iff s a := by
    cases a
    simp [parse, asStr, eq_comm]
  ascii a := by
    cases a
    decide +kernel

end Calendar

structure PartEntry where
  tid : Tid
  length : UInt64
  structureHash : Bytes32
  rdid : Rdid
  lang : Option LangTag
  extra : Extra
  deriving DecidableEq

structure Manifest where
  aliasName : String
  parts : List PartEntry
  lang : LangTag
  reader : String
  licence : String
  carry : Carry
  title : Option String
  creators : List String
  published : Option String
  identifiers : BTreeMap String String
  origin : Option SourceRef
  parent : Option (Mid × ParentKind)
  supersedes : Option Mid
  versification : Option String
  lossy : Bool
  raw : Option Bytes
  partPolicy : String
  calendar : Option Calendar
  extra : Extra
  deriving DecidableEq

structure PartText where
  tid : Tid
  text : Bytes
  extra : Extra
  deriving DecidableEq

structure PartReading where
  tid : Tid
  reader : String
  segments : Bytes
  raw : Option Bytes
  extra : Extra
  deriving DecidableEq

inductive Axis
  | said
  | composed
  | about
  deriving DecidableEq, Repr

instance : WireCode Axis where
  asU8
    | .said => 0
    | .composed => 1
    | .about => 2
  fromU8
    | 0 => some .said
    | 1 => some .composed
    | 2 => some .about
    | _ => none
  fromU8_iff c a := by
    constructor
    · intro found
      split at found <;> cases found <;> rfl
    · rintro rfl
      cases a <;> rfl

inductive DatingTarget
  | unit (uid : Uid)
  | part (tid : Tid)
  | manifest (mid : Mid)
  | window (tid : Tid) (fromMs toMs : UInt64)
  deriving DecidableEq

namespace DatingTarget

def kind : DatingTarget → Nat
  | unit _ => 0
  | part _ => 1
  | manifest _ => 2
  | window .. => 3

end DatingTarget

inductive Allen
  | before
  | after
  | meets
  | overlaps
  | during
  | contains
  | equals
  deriving DecidableEq, Repr

namespace Allen

def all : List Allen := [before, after, meets, overlaps, during, contains, equals]

def asStr : Allen → String
  | before => "before"
  | after => "after"
  | meets => "meets"
  | overlaps => "overlaps"
  | during => "during"
  | contains => "contains"
  | equals => "equals"

def parse (s : String) : Option Allen := all.find? (fun a => a.asStr == s)

instance : WireName Allen where
  asStr := asStr
  parse := parse
  parse_iff s a := by
    constructor
    · exact find_named asStr
    · rintro rfl
      cases a <;> decide
  ascii a := by cases a <;> decide +kernel

end Allen

inductive DatingValue
  | absolute (text : String)
  | offset (ms : Int64)
  | relative (allen : Allen) (target : DatingTarget)
  deriving DecidableEq

structure Dating where
  target : DatingTarget
  axis : Axis
  value : DatingValue
  basis : Option Uid
  agent : AgentId
  ts : Hlc
  extra : Extra
  deriving DecidableEq

structure Redaction where
  tid : Tid
  agent : AgentId
  ts : Hlc
  reason : Option Uid
  extra : Extra
  deriving DecidableEq

inductive Record
  | unit (u : UnitCore)
  | attestation (a : Attestation)
  | relation (r : Relation)
  | thread (t : Thread)
  | view (v : View)
  | contention (c : Contention)
  | packInfo (p : PackInfo)
  | schemaDecl (d : SchemaDecl)
  | labelBinding (b : LabelBinding)
  | withdrawal (w : Withdrawal)
  | resolution (r : Resolution)
  | commit (c : Commit)
  | manifest (m : Manifest)
  | partText (p : PartText)
  | dating (d : Dating)
  | partReading (r : PartReading)
  | redaction (r : Redaction)
  | unknown (code : UInt64) (payload : Bytes)
  deriving DecidableEq

namespace Record

/-- `code::KNOWN`: the type codes this build has a decoder for. -/
def known : List UInt64 := [1, 2, 3, 4, 5, 6, 7, 8, 10, 11, 12, 13, 14, 15, 17, 18, 19]

def typeCode : Record → UInt64
  | unit _ => 1
  | attestation _ => 2
  | relation _ => 3
  | thread _ => 4
  | view _ => 5
  | contention _ => 6
  | packInfo _ => 7
  | schemaDecl _ => 8
  | labelBinding _ => 10
  | withdrawal _ => 11
  | resolution _ => 12
  | commit _ => 13
  | manifest _ => 14
  | partText _ => 15
  | dating _ => 17
  | partReading _ => 18
  | redaction _ => 19
  | unknown code _ => code

end Record
end Smysl
