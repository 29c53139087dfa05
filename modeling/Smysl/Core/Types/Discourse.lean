import Smysl.Core.Quantise
import Smysl.Core.Types.Unit

/-!
What relates units to each other and arranges them: relations, threads and the
views that ask for them.
-/
namespace Smysl
open ByteString

inductive RelKind
  | elaborates
  | contrasts
  | concedes
  | causes
  | enables
  | exemplifies
  | conditions
  | sequences
  | answers
  | rebuts
  | warrant
  | backs
  | supersedes
  | retracts
  | extension (text : String)
  deriving DecidableEq, Repr

namespace RelKind

/-- `RelKind::KERNEL`, in the order of the codes. -/
def kernel : List RelKind :=
  [elaborates, contrasts, concedes, causes, enables, exemplifies, conditions, sequences, answers,
    rebuts, warrant, backs, supersedes, retracts]

def code : RelKind → Option UInt8
  | elaborates => some 0
  | contrasts => some 1
  | concedes => some 2
  | causes => some 3
  | enables => some 4
  | exemplifies => some 5
  | conditions => some 6
  | sequences => some 7
  | answers => some 8
  | rebuts => some 9
  | warrant => some 10
  | backs => some 11
  | supersedes => some 12
  | retracts => some 13
  | extension _ => none

def fromCode (c : UInt8) : Option RelKind := kernel[c.toNat]?

def asStr : RelKind → String
  | elaborates => "elaborates"
  | contrasts => "contrasts"
  | concedes => "concedes"
  | causes => "causes"
  | enables => "enables"
  | exemplifies => "exemplifies"
  | conditions => "conditions"
  | sequences => "sequences"
  | answers => "answers"
  | rebuts => "rebuts"
  | warrant => "warrant"
  | backs => "backs"
  | supersedes => "supersedes"
  | retracts => "retracts"
  | extension s => s

/-- `x.domain/kind`, as an extension relation is named. -/
def isExtension (s : String) : Bool :=
  match (stripPrefix "x." (utf8 s)).bind (splitOnce 0x2F) with
  | none => false
  | some (domain, kind) => isIdent domain && isExtSegment kind

def parse (s : String) : Option RelKind :=
  match kernel.find? (fun k => k.asStr == s) with
  | some k => some k
  | none => if isExtension s then some (extension s) else none

def isKernel : RelKind → Bool
  | extension _ => false
  | _ => true

theorem from_code_some {c : UInt8} {k : RelKind} (found : fromCode c = some k) :
    k.code = some c := by
  obtain ⟨inside, _⟩ := List.getElem?_eq_some_iff.mp found
  have cases : ∀ n : Fin 14, ∀ k, kernel[n.val]? = some k → k.code = some (UInt8.ofNat n.val) := by
    decide
  have known := cases ⟨c.toNat, inside⟩ k found
  rwa [UInt8.ofNat_toNat] at known

theorem from_code_code {c : UInt8} {k : RelKind} (coded : k.code = some c) :
    fromCode c = some k := by
  cases k <;> cases coded <;> rfl

theorem parse_as_str {s : String} {k : RelKind} (parsed : parse s = some k) : k.asStr = s := by
  rw [parse] at parsed
  split at parsed
  · rename_i found
    cases parsed
    exact find_named asStr found
  · split at parsed
    · cases parsed
      rfl
    · cases parsed

/-- A parsed kind with a code was spelled by a kernel name. -/
theorem parse_named_iff {s : String} {k : RelKind} (parsed : parse s = some k) :
    k.code.isSome = true ↔ ∃ j ∈ kernel, j.asStr = s := by
  constructor
  · intro coded
    obtain ⟨c, coded⟩ := Option.isSome_iff_exists.mp coded
    exact ⟨k, List.mem_of_getElem? (from_code_code coded), parse_as_str parsed⟩
  · rintro ⟨j, mem, named⟩
    rw [parse] at parsed
    split at parsed
    · rename_i i found
      cases parsed
      have kernelMem := List.mem_of_find?_eq_some found
      revert kernelMem
      cases k <;> simp [kernel, code]
    · rename_i missing
      simpa [named] using List.find?_eq_none.mp missing j mem

end RelKind

structure Relation where
  kind : RelKind
  src : Uid
  dst : Uid
  weight : Option F32
  note : Option Uid
  attestations : BTreeSet Attestation
  extra : Extra
  deriving DecidableEq

inductive ThreadSchema
  | analysis
  | narrative
  | brief
  | qa
  | plan
  | exposition
  | dialogue
  | dossier
  | unknown
  deriving DecidableEq, Repr

instance : OpenCode ThreadSchema where
  asU8
    | .analysis => 0
    | .narrative => 1
    | .brief => 2
    | .qa => 3
    | .plan => 4
    | .exposition => 6
    | .dialogue => 7
    | .dossier => 8
    | .unknown => 255
  fromU8
    | 0 => some .analysis
    | 1 => some .narrative
    | 2 => some .brief
    | 3 => some .qa
    | 4 => some .plan
    | 6 => some .exposition
    | 7 => some .dialogue
    | 8 => some .dossier
    | 255 => some .unknown
    | _ => none
  fromU8_iff c a := by
    constructor
    · intro found
      split at found <;> cases found <;> rfl
    · rintro rfl
      cases a <;> rfl
  unknown := .unknown
  unknown_code := rfl

inductive Role
  | context | tension | approach | finding | rebuttal | implication | next
  | setup | complication | turn | resolution | coda
  | bottomLine | support | risk | ask
  | question | evidence | answer | caveat
  | goal | constraint | step | decision
  | introduces | develops | exemplifies | concedes | concludes
  | utterance | reply | uptake | reversal
  | definition | introduction | characteristic | counter | reported | contrast | openQuestion
  | related | cause | hypothesis | holder | stance | revision | location | dependent | gap
  | unknown
  deriving DecidableEq, Repr

namespace Role

/-- `Role::ALL`, each at the index that is its code. -/
def all : List Role :=
  [context, tension, approach, finding, rebuttal, implication, next, setup, complication, turn,
    resolution, coda, bottomLine, support, risk, ask, question, evidence, answer, caveat, goal,
    constraint, step, decision, introduces, develops, exemplifies, concedes, concludes, utterance,
    reply, uptake, reversal, definition, introduction, characteristic, counter, reported, contrast,
    openQuestion, related, cause, hypothesis, holder, stance, revision, location, dependent, gap]

def asU8 : Role → UInt8
  | context => 0 | tension => 1 | approach => 2 | finding => 3 | rebuttal => 4
  | implication => 5 | next => 6 | setup => 7 | complication => 8 | turn => 9
  | resolution => 10 | coda => 11 | bottomLine => 12 | support => 13 | risk => 14
  | ask => 15 | question => 16 | evidence => 17 | answer => 18 | caveat => 19
  | goal => 20 | constraint => 21 | step => 22 | decision => 23 | introduces => 24
  | develops => 25 | exemplifies => 26 | concedes => 27 | concludes => 28 | utterance => 29
  | reply => 30 | uptake => 31 | reversal => 32 | definition => 33 | introduction => 34
  | characteristic => 35 | counter => 36 | reported => 37 | contrast => 38 | openQuestion => 39
  | related => 40 | cause => 41 | hypothesis => 42 | holder => 43 | stance => 44
  | revision => 45 | location => 46 | dependent => 47 | gap => 48 | unknown => 255

def fromU8 (v : UInt8) : Option Role := if v = 255 then some unknown else all[v.toNat]?

end Role

instance : OpenCode Role where
  asU8 := Role.asU8
  fromU8 := Role.fromU8
  fromU8_iff c a := by
    constructor
    · intro found
      rw [Role.fromU8] at found
      split at found
      · rename_i same
        cases found
        exact same.symm
      · obtain ⟨inside, _⟩ := List.getElem?_eq_some_iff.mp found
        have table : ∀ n : Fin 49, ∀ a ∈ Role.all[n.val]?, a.asU8 = UInt8.ofNat n.val := by decide
        have known := table ⟨c.toNat, inside⟩ a found
        rwa [UInt8.ofNat_toNat] at known
    · rintro rfl
      cases a <;> rfl
  unknown := .unknown
  unknown_code := rfl

structure Step where
  role : Open Role
  unit : Uid
  note : Option String
  deriving DecidableEq

structure Thread where
  id : ThreadId
  schema : Open ThreadSchema
  owner : AgentId
  gist : String
  steps : List Step
  ts : Hlc
  extra : Extra
  deriving DecidableEq

inductive Admission
  | singleAssertion
  | topical
  | unknown
  deriving DecidableEq, Repr

instance : OpenCode Admission where
  asU8
    | .singleAssertion => 0
    | .topical => 1
    | .unknown => 255
  fromU8
    | 0 => some .singleAssertion
    | 1 => some .topical
    | 255 => some .unknown
    | _ => none
  fromU8_iff c a := by
    constructor
    · intro found
      split at found <;> cases found <;> rfl
    · rintro rfl
      cases a <;> rfl
  unknown := .unknown
  unknown_code := rfl

inductive TokenEstimator
  | utf8Div4
  | content1
  deriving DecidableEq, Repr

namespace TokenEstimator

def all : List TokenEstimator := [utf8Div4, content1]

def id : TokenEstimator → String
  | utf8Div4 => "smysl/utf8-div4"
  | content1 => "smysl/content/1"

def parse (s : String) : Option TokenEstimator := all.find? (fun e => e.id == s)

end TokenEstimator

inductive ProfileEstimator
  | unset
  | known (estimator : TokenEstimator)
  | unknown (text : String)
  deriving DecidableEq, Repr

namespace ProfileEstimator

/-- The id a profile is written with: none for the default, named or not. -/
def wireId : ProfileEstimator → Option String
  | unset => none
  | known .utf8Div4 => none
  | known e => some e.id
  | unknown s => some s

def fromWire (s : String) : ProfileEstimator :=
  match TokenEstimator.parse s with
  | some e => known e
  | none => unknown s

theorem wire_id_from_wire (s : String) :
    (fromWire s).wireId = if s = TokenEstimator.utf8Div4.id then none else some s := by
  rw [fromWire, TokenEstimator.parse]
  split
  · rename_i e found
    have named := find_named TokenEstimator.id found
    subst named
    cases e
    · rfl
    · rfl
  · rename_i missing
    have other : ¬ TokenEstimator.utf8Div4.id = s := by
      simpa using List.find?_eq_none.mp missing .utf8Div4 (by decide)
    rw [wireId, if_neg (Ne.symm other)]

end ProfileEstimator

structure GranularityProfile where
  profile : String
  l0Max : UInt32
  l1Min : UInt32
  l1Max : UInt32
  admission : Open Admission
  estimator : ProfileEstimator
  extra : Extra
  deriving DecidableEq

/-- `GranularityProfile::standard`, the default. -/
def GranularityProfile.standard : GranularityProfile where
  profile := "default"
  l0Max := 30
  l1Min := 40
  l1Max := 120
  admission := .of .singleAssertion
  estimator := .unset
  extra := ∅

structure View where
  id : ViewId
  roots : BTreeSet Uid
  threads : BTreeSet ThreadId
  requires : BTreeSet SchemaId
  granularity : GranularityProfile
  intent : String
  lang : LangTag
  extra : Extra
  deriving DecidableEq

end Smysl
