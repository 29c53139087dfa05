import Smysl.Core.Edtf.Syntax
import Smysl.Surface.Names
import Smysl.Surface.Resolve
import Smysl.Surface.Shapes

/-!
What the record parsers take out of a header once it is read. Where a value is refused
there is none; a text handed to the date reader may leave the parser stuck, and where it
can the result says so in its outer option.
-/
namespace Smysl
open ByteString

namespace Header

/-- Every entry under a key is removed, and the first one's value given. -/
def take (h : Header) (key : String) : Option HValue × Header :=
  ((h.find? (fun e => e.1.text == key)).map Prod.snd, h.filter (fun e => e.1.text != key))

/-- Where a key is spelled. -/
def keyStart (h : Header) (key : String) : Option Nat :=
  (h.find? (fun e => e.1.text == key)).map (fun e => e.1.start)

end Header

/-- An optional value: absent, read, or (with no result) refused. -/
def optional {α : Type} (v : Option HValue) (read : HValue → Option α) : Option (Option α) :=
  match v with
  | none => some none
  | some v => (read v).map some

/-- `parse_ref`. -/
def parseRef (s : String) : Option Ref :=
  if (stripPrefix "b3:" (utf8 s)).isSome then (Digest.parse s).map .uid
  else (Name.new s).map .label

def refOf (v : HValue) : Option Ref := v.asStr.bind parseRef

/-- `ref_list`: what is no reference is left out. -/
def refList (v : Option HValue) : List Ref :=
  match v.bind HValue.asArray with
  | none => []
  | some items => items.filterMap refOf

/-- `id_list`. -/
def idList {α : Type} [LinearOrder α] (read : String → Option α) (v : Option HValue) :
    BTreeSet α :=
  match v.bind HValue.asArray with
  | none => ∅
  | some items => BTreeSet.ofList (items.filterMap (fun i => i.asStr.bind read))

/-- `strict_list`: every item must be read. -/
def strictList {α : Type} (read : String → Option α) (v : HValue) : Option (List α) :=
  v.asArray.bind (fun items => items.mapM (fun i => i.asStr.bind read))

def agentOf (v : HValue) : Option AgentId := v.asStr.bind Name.new

/-- A clock of two numbers, with the agent as its own. -/
def hlcOf (owner : AgentId) (v : HValue) : Option Hlc :=
  match v with
  | .array [wall, counter] => do
    let wall ← wall.asUnsigned 64
    let counter ← counter.asUnsigned 32
    some ⟨UInt64.ofNat wall, UInt32.ofNat counter, owner⟩
  | _ => none

/-! Where content comes from. -/

def sourceKeys : List String :=
  ["kind", "ref", "reference", "captured", "observed", "published", "span", "manifest"]

/-- What a source says before its date is looked at. -/
structure SourceHead where
  fields : HObject
  kind : SourceKind
  reference : String
  captured : Option Date
  observed : Option UInt64

/-- The keys of a source, and those of its values that come before the date. -/
def sourceHead (v : HValue) : Option SourceHead := do
  let o ← v.asObject
  if !HObject.only o sourceKeys then none
  else
    let kind ← HObject.need o "kind" (fun k => k.asStr.bind SourceKind.parse)
    let reference ← ((HObject.get o "ref").orElse fun _ => HObject.get o "reference").bind
      HValue.asStr
    let captured ← HObject.may o "captured" (fun c => c.asStr.bind Date.parse)
    let observed ← HObject.may o "observed" (fun c => c.asUnsigned 64)
    some ⟨o, kind, reference, captured, observed.map UInt64.ofNat⟩

/-- Date text as a document gives it: an unquoted year is a number. -/
def dateText (v : HValue) : Option String :=
  match v.asStr with
  | some text => some text
  | none => v.asInt.map (fun i => toString i.toInt)

/-- The text, where the date reader accepts it. -/
def acceptDate (text : String) : Option (Option String) :=
  match Edtf.parse (utf8 text) with
  | .ok _ => some (some text)
  | .error .panicked => none
  | .error _ => some none

/-- A range of a manifestation, forward. -/
def spanOf (v : HValue) : Option (UInt64 × UInt64) :=
  match v with
  | .array [lo, hi] => do
    let lo ← lo.asUnsigned 64
    let hi ← hi.asUnsigned 64
    if lo < hi then some (UInt64.ofNat lo, UInt64.ofNat hi) else none
  | _ => none

def midOf (v : HValue) : Option Mid := v.asStr.bind Digest.parse

/-- A source with its date, range and manifestation. -/
def SourceHead.finish (h : SourceHead) (published : Option String) : Option SourceRef := do
  let span ← HObject.may h.fields "span" spanOf
  let manifest ← HObject.may h.fields "manifest" midOf
  match span, manifest with
  | some _, none => none
  | some (lo, hi), some mid =>
    if forward : lo < hi then
      some {
        kind := .of h.kind
        reference := h.reference
        captured := h.captured
        observed := h.observed
        published
        span := some (lo, hi)
        manifest := some mid
        extra := ∅
        span_forward := by
          rintro p ⟨rfl⟩
          exact forward
        span_located := fun _ => rfl }
    else none
  | none, manifest =>
    some {
      kind := .of h.kind
      reference := h.reference
      captured := h.captured
      observed := h.observed
      published
      span := none
      manifest
      extra := ∅
      span_forward := SourceRef.no_span
      span_located := fun located => nomatch located }

/-- `source`. -/
def source (v : HValue) : Option (Option SourceRef) :=
  match sourceHead v with
  | none => some none
  | some h =>
    match HObject.get h.fields "published" with
    | none => some (h.finish none)
    | some c =>
      match dateText c with
      | none => some none
      | some text => (acceptDate text).map fun accepted => accepted.bind fun t => h.finish (some t)

/-! Records with nothing but a header. -/

/-- The clock and agent that every act has, and what is left of the header. -/
def actOf (h : Header) : Option (AgentId × Hlc × Header) := do
  let (agent, h) := h.take "agent"
  let agent ← agent.bind agentOf
  let (ts, h) := h.take "ts"
  let ts ← ts.bind (hlcOf agent)
  some (agent, ts, h)

/-- A unit under a key that may be absent, of a header that must have nothing else left. -/
def lastRef (h : Header) (key : String) : Option (Option Ref) := do
  let (v, h) := h.take key
  let r ← optional v refOf
  if h.isEmpty then some r else none

/-- `commit_record`, after its header. -/
def commitOf (target : Ref) (h : Header) : Option RawCommit := do
  let (level, h) := h.take "level"
  let level ← level.bind (fun v => v.asStr.bind Commitment.parse)
  let (agent, ts, h) ← actOf h
  let note ← lastRef h "note"
  some ⟨target, level, agent, ts, note⟩

/-- `lifecycle_record`, after its header. -/
def lifecycleOf (withdraw : Bool) (target : RawTarget) (h : Header) : Option RawLifecycle := do
  let (agent, ts, h) ← actOf h
  let unit ← lastRef h (if withdraw then "reason" else "note")
  some ⟨withdraw, target, agent, ts, unit⟩

/-- `redact_record`, after its header. -/
def redactionOf (tid : Tid) (h : Header) : Option RawRedaction := do
  let (agent, ts, h) ← actOf h
  let reason ← lastRef h "reason"
  some ⟨tid, agent, ts, reason⟩

/-- `schema_decl`, after its header. -/
def schemaOf [Unicode] (id : SchemaId) (h : Header) : Option SchemaDecl := do
  let (version, h) := h.take "version"
  let version ← optional version (fun v => v.asUnsigned 32)
  let (types, h) := h.take "types"
  let types ← optional types (strictList SchemaId.parse)
  let (relations, h) := h.take "relations"
  let relations ← optional relations (strictList RelKind.parse)
  let (fields, h) := h.take "fields"
  let fields ← optional fields parseFields
  let (lenses, h) := h.take "lenses"
  let lenses ← optional lenses parseLenses
  if h.isEmpty then
    some {
      id
      version := UInt32.ofNat (version.getD 1)
      types := types.getD []
      relations := relations.getD []
      payloadShape := fields
      lenses
      extra := ∅ }
  else none

/-! Datings. -/

/-- `target_of`. -/
def targetOf (text : String) : Option DateTarget :=
  if (stripPrefix "t3:" (utf8 text)).isSome then (Digest.parse text).map .part
  else if (stripPrefix "m3:" (utf8 text)).isSome then (Digest.parse text).map .manifest
  else (parseRef text).map .unit

/-- A window narrows a part. -/
def windowOf (target : DateTarget) (v : Option HValue) : Option DateTarget :=
  match v with
  | none => some target
  | some v =>
    match target, v with
    | .part tid, .array [fromMs, toMs] => do
      let fromMs ← fromMs.asUnsigned 64
      let toMs ← toMs.asUnsigned 64
      some (.window tid (UInt64.ofNat fromMs) (UInt64.ofNat toMs))
    | _, _ => none

/-- What a dating says before its value, and what is left of the header. -/
def datingHead (target : DateTarget) (h : Header) : Option (Axis × DateTarget × Header) := do
  let (axis, h) := h.take "axis"
  let axis ← axis.bind (fun v => v.asStr.bind Axis.parse)
  let (window, h) := h.take "window"
  let target ← windowOf target window
  some (axis, target, h)

/-- What follows a dating's value. -/
def datingOf (target : DateTarget) (axis : Axis) (value : RawValue) (h : Header) :
    Option RawDating := do
  let (agent, ts, h) ← actOf h
  let basis ← lastRef h "basis"
  some ⟨target, axis, value, basis, agent, ts⟩

/-! Manifests. -/

def manifestKeys : List String :=
  ["parts", "lang", "reader", "licence", "carry", "title", "creators", "published",
    "identifiers", "origin", "parent", "parent-kind", "supersedes", "versification", "lossy",
    "part-policy", "calendar"]

def partKeys : List String := ["tid", "length", "structure", "rdid", "lang"]

/-- `id_value`. -/
def digestOf {kind : DigestKind} (v : HValue) : Option (Digest kind) := v.asStr.bind Digest.parse

def langOf (v : HValue) : Option LangTag := v.asStr.bind Name.new

/-- `part_entry`. -/
def partEntry (v : HValue) : Option PartEntry := do
  let o ← v.asObject
  if !HObject.only o partKeys then none
  else
    let tid : Tid ← HObject.need o "tid" digestOf
    let length ← HObject.need o "length" (fun l => l.asUnsigned 64)
    let structureHash : Uid ← HObject.need o "structure" digestOf
    let rdid : Rdid ← HObject.need o "rdid" digestOf
    let lang ← HObject.may o "lang" langOf
    some ⟨tid, UInt64.ofNat length, structureHash.raw, rdid, lang, ∅⟩

/-- A manifest as far as it is read before its origin, and what is left of the header. -/
structure ManifestHead where
  manifest : Manifest
  rest : Header

/-- `manifest_record`, after its header and before its origin. -/
def manifestHead (aliasName : String) (h : Header) : Option ManifestHead := do
  if !h.all (fun e => manifestKeys.contains e.1.text) then none
  else
    let (lang, h) := h.take "lang"
    let lang ← lang.bind langOf
    let (reader, h) := h.take "reader"
    let reader ← reader.bind HValue.asStr
    let (licence, h) := h.take "licence"
    let licence ← licence.bind HValue.asStr
    let (carry, h) := h.take "carry"
    let carry ← carry.bind (fun v => v.asStr.bind Carry.parse)
    let (partPolicy, h) := h.take "part-policy"
    let partPolicy ← partPolicy.bind HValue.asStr
    let (parts, h) := h.take "parts"
    let parts ← optional parts (fun v => v.asArray.bind (fun items => items.mapM partEntry))
    let (title, h) := h.take "title"
    let title ← optional title HValue.asStr
    let (creators, h) := h.take "creators"
    let creators ← optional creators (strictList some)
    let (published, h) := h.take "published"
    let published ← optional published dateText
    let (identifiers, h) := h.take "identifiers"
    let identifiers ← optional identifiers fun v => v.asObject.bind fun o =>
      o.mapM (fun e => e.2.asStr.map (fun text => (e.1, text)))
    some {
      manifest := {
        aliasName
        parts := parts.getD []
        lang
        reader
        licence
        carry
        title
        creators := creators.getD []
        published
        identifiers := BTreeMap.ofList (identifiers.getD [])
        origin := none
        parent := none
        supersedes := none
        versification := none
        lossy := false
        raw := none
        partPolicy
        calendar := none
        extra := ∅ }
      rest := h }

/-- `manifest_record`, after its origin. -/
def ManifestHead.finish (m : ManifestHead) (origin : Option SourceRef) (h : Header) :
    Option Manifest := do
  let (parent, h) := h.take "parent"
  let parent ← optional parent midOf
  let (kind, h) := h.take "parent-kind"
  let kind ← optional kind (fun v => v.asStr.bind ParentKind.parse)
  if parent.isSome ≠ kind.isSome then none
  else
    let (supersedes, h) := h.take "supersedes"
    let supersedes ← optional supersedes midOf
    let (versification, h) := h.take "versification"
    let versification ← optional versification HValue.asStr
    let (lossy, h) := h.take "lossy"
    let lossy ← optional lossy (fun v => if v.asBool = some true then some true else none)
    let (calendar, _) := h.take "calendar"
    let calendar ← optional calendar (fun v => v.asStr.bind Calendar.parse)
    some { m.manifest with
      origin
      parent := parent.bind (fun mid => kind.map (fun k => (mid, k)))
      supersedes
      versification
      lossy := lossy.getD false
      calendar }

/-- `manifest_record`, after its header. -/
def manifestOf (aliasName : String) (h : Header) : Option (Option Manifest) :=
  match manifestHead aliasName h with
  | none => some none
  | some m =>
    match m.rest.take "origin" with
    | (none, h) => some (m.finish none h)
    | (some v, h) => (source v).map fun origin => origin.bind fun o => m.finish (some o) h

end Smysl
