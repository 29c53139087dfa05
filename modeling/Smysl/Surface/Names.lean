import Smysl.Cbor.Payload
import Smysl.Graph.Contention

/-!
The words a document is written in: the names of the enumerations, and the identities in
base32. An enumeration's word is looked up among those it gives out, so the unknown
variant of an open one has none.
-/
namespace Smysl
open ByteString

/-- The member of an enumeration that is written as asked. -/
def wordOf {α : Type} (all : List α) (asStr : α → String) (s : String) : Option α :=
  all.find? (fun a => asStr a == s)

namespace Status

def all : List Status := [unfounded, speculative, inferred, derived, cited, measured]

def asStr : Status → String
  | unfounded => "unfounded"
  | speculative => "speculative"
  | inferred => "inferred"
  | derived => "derived"
  | cited => "cited"
  | measured => "measured"

def parse : String → Option Status := wordOf all asStr

end Status

namespace SourceKind

def all : List SourceKind := [url, file, metric, tool, doc, node]

def asStr : SourceKind → String
  | url => "url"
  | file => "file"
  | metric => "metric"
  | tool => "tool"
  | doc => "doc"
  | node => "node"
  | unknown => "unknown"

def parse : String → Option SourceKind := wordOf all asStr

end SourceKind

namespace Commitment

def all : List Commitment := [floated, drafted, committed, canonical, retconned]

def asStr : Commitment → String
  | floated => "floated"
  | drafted => "drafted"
  | committed => "committed"
  | canonical => "canonical"
  | retconned => "retconned"

def parse : String → Option Commitment := wordOf all asStr

end Commitment

namespace Axis

def all : List Axis := [said, composed, about]

def asStr : Axis → String
  | said => "said"
  | composed => "composed"
  | about => "about"

def parse : String → Option Axis := wordOf all asStr

end Axis

namespace Carry

def all : List Carry := [none, ref, text]

def asStr : Carry → String
  | none => "none"
  | ref => "ref"
  | text => "text"

def parse : String → Option Carry := wordOf all asStr

end Carry

namespace ThreadSchema

def all : List ThreadSchema :=
  [analysis, narrative, brief, qa, plan, exposition, dialogue, dossier]

def asStr : ThreadSchema → String
  | analysis => "analysis"
  | narrative => "narrative"
  | brief => "brief"
  | qa => "qa"
  | plan => "plan"
  | exposition => "exposition"
  | dialogue => "dialogue"
  | dossier => "dossier"
  | unknown => "unknown"

def parse : String → Option ThreadSchema := wordOf all asStr

end ThreadSchema

namespace Role

def asStr : Role → String
  | context => "context"
  | tension => "tension"
  | approach => "approach"
  | finding => "finding"
  | rebuttal => "rebuttal"
  | implication => "implication"
  | next => "next"
  | setup => "setup"
  | complication => "complication"
  | turn => "turn"
  | resolution => "resolution"
  | coda => "coda"
  | bottomLine => "bottom-line"
  | support => "support"
  | risk => "risk"
  | ask => "ask"
  | question => "question"
  | evidence => "evidence"
  | answer => "answer"
  | caveat => "caveat"
  | goal => "goal"
  | constraint => "constraint"
  | step => "step"
  | decision => "decision"
  | introduces => "introduces"
  | develops => "develops"
  | exemplifies => "exemplifies"
  | concedes => "concedes"
  | concludes => "concludes"
  | utterance => "utterance"
  | reply => "reply"
  | uptake => "uptake"
  | reversal => "reversal"
  | definition => "definition"
  | introduction => "introduction"
  | characteristic => "characteristic"
  | counter => "counter"
  | reported => "reported"
  | contrast => "contrast"
  | openQuestion => "open-question"
  | related => "related"
  | cause => "cause"
  | hypothesis => "hypothesis"
  | holder => "holder"
  | stance => "stance"
  | revision => "revision"
  | location => "location"
  | dependent => "dependent"
  | gap => "gap"
  | unknown => "unknown"

def parse : String → Option Role := wordOf all asStr

end Role

namespace Admission

def all : List Admission := [singleAssertion, topical]

def asStr : Admission → String
  | singleAssertion => "single-assertion"
  | topical => "topical"
  | unknown => "unknown"

def parse : String → Option Admission := wordOf all asStr

end Admission

namespace GranularityProfile

def coarse : GranularityProfile :=
  { standard with profile := "coarse", l1Min := 120, l1Max := 400, admission := .of .topical }

def fine : GranularityProfile := { standard with profile := "fine", l1Min := 20, l1Max := 60 }

def preset (name : String) : Option GranularityProfile :=
  if name = "coarse" then some coarse
  else if name = "default" then some standard
  else if name = "fine" then some fine
  else none

end GranularityProfile

/-- The textual prefix of an identity. -/
def DigestKind.lead : DigestKind → String
  | .unit => "b3:"
  | .part => "t3:"
  | .manifest => "m3:"
  | .dating => "d3:"
  | .reading => "r3:"

/-- `decode_char`. -/
def decodeChar (c : UInt8) : Option Nat :=
  let i := alphabet.idxOf c
  if i < alphabet.length then some i else none

namespace Digest
variable {kind : DigestKind}

/-- `$name::parse`: the full width only. The four bits past the last byte are discarded. -/
def parse (s : String) : Option (Digest kind) := do
  let body ← stripPrefix kind.lead (utf8 s)
  if body.length ≠ 52 then none
  else
    let letters ← body.mapM decodeChar
    let value := letters.foldl (fun n five => n * 32 + five) 0
    (Bytes32.tryFrom (bigEndian 32 (value / 16))).map Digest.mk

/-- `as_uid`: the same bits in the slot a record has for a uid. -/
def asUid (d : Digest kind) : Uid := ⟨d.raw⟩

end Digest

/-- `is_alias`. -/
def isAlias (s : String) : Bool :=
  let bs := utf8 s
  !bs.isEmpty && decide (bs.length ≤ 128) &&
    ((splitAll 0x2F bs).flatMap (splitAll 0x3A)).all fun seg =>
      !seg.isEmpty && seg.all fun c =>
        isAsciiLowercase c || isAsciiDigit c || c == 0x2D || c == 0x5F || c == 0x2E

/-- `FORMAT_VERSIONS_SUPPORTED`. -/
def formatVersionSupported (version : String) : Bool :=
  version == "smysl/0.1" || version == "smysl/1.0"

/-- `str::parse::<u32>`. -/
def parseU32 (bs : Bytes) : Option Nat := do
  let digits := if bs.head? = some 0x2B then bs.drop 1 else bs
  if digits.isEmpty then none
  else
    let n ← Date.digitsValue digits
    if n < 2 ^ 32 then some n else none

/-- The major number of a kernel schema id. -/
def SchemaId.kernelMajor : SchemaId → Option Nat
  | .kernelSchema s => do
    let version ← stripPrefix "smysl.kernel/" (utf8 s)
    let major ← (splitAll 0x2E version).head?
    parseU32 major
  | _ => none

end Smysl
