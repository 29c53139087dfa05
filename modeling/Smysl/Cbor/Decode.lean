import Smysl.Cbor.Reader
import Smysl.Cbor.Encode

/-!
Record decoding. A record's payload is read by one loop over its map; each
record says what it does with the keys it knows, in what it has collected so
far, and how the record is made of what was collected.
-/
namespace Smysl
open ByteString Cursor Cursor.Parser Dec

/-- For each known key, what reading its value does to what was collected. -/
abbrev Arms (σ : Type) := Nat → Option (Parser (σ → σ))

def field {σ α : Type} (p : Parser α) (set : α → σ → σ) : Option (Parser (σ → σ)) :=
  some (do
    let v ← p
    pure (set v))

/-- One entry of a payload map: an unknown key keeps its raw value. -/
def readEntry [Unicode] {σ : Type} (arms : Arms σ) (st : Option Nat × σ × Extra) :
    Parser (Option Nat × σ × Extra) := do
  let k ← mapKey st.1
  rejectNull
  match arms k with
  | some arm => do
    let update ← arm
    pure (some k, update st.2.1, st.2.2)
  | none => do
    let raw ← skipItem
    pure (some k, st.2.1, st.2.2.insert k raw)

/-- `read_map`. -/
def readMap [Unicode] {σ : Type} (arms : Arms σ) (init : σ) : Parser (σ × Extra) := do
  let n ← mapHead
  let out ← loop (readEntry arms) n (none, init, ∅)
  pure out.2

/-- A payload map read into a record; a record that cannot be made of what was
read is malformed where it starts. -/
def decMap [Unicode] {σ α : Type} (arms : Nat → Arms σ) (init : σ)
    (finish : σ → Extra → Option α) : Parser α := do
  let start ← position
  let read ← readMap (arms start) init
  orFail (bad start) (finish read.1 read.2)

section
variable [Unicode]

/-- Text of a type that has to accept it. -/
def named {α : Type} (start : Nat) (parse : String → Option α) : Parser α := do
  let s ← text
  orFail (bad start) (parse s)

def code (start : Nat) : Parser UInt8 := do
  let n ← uint
  orFail (bad start) (tryU8 n)

def uint32 (start : Nat) : Parser UInt32 := do
  let n ← uint
  orFail (bad start) (tryU32 n)

/-- A code of an enumeration that refuses the ones it does not name. -/
def closed {α : Type} [WireCode α] (start : Nat) : Parser α := do
  let c ← code start
  orFail (bad start) (fromU8 c)

/-- An array head that has to say `n`. -/
def tuple (start n : Nat) : Parser Unit := do
  let found ← arrayHead
  reject (found != n) (bad start)

def decBytes32 : Parser Bytes32 := do
  let start ← position
  let b ← bytes
  orFail (bad start) (Bytes32.tryFrom b)

def decDigest {kind : DigestKind} : Parser (Digest kind) := do
  let raw ← decBytes32
  pure ⟨raw⟩

def decSpan (start : Nat) : Parser (UInt64 × UInt64) := do
  tuple start 2
  let first ← uint
  let last ← uint
  reject (decide (last ≤ first)) (bad start)
  pure (first, last)

structure SourceAcc where
  kind : Option UInt8 := none
  reference : Option String := none
  captured : Option Date := none
  observed : Option UInt64 := none
  published : Option String := none
  span : Option (UInt64 × UInt64) := none
  manifest : Option Mid := none

def sourceArms (start : Nat) : Arms SourceAcc
  | 0 => field (code start) (fun v a => { a with kind := some v })
  | 1 => field text (fun v a => { a with reference := some v })
  | 2 => field (named start Date.parse) (fun v a => { a with captured := some v })
  | 3 => field uint (fun v a => { a with observed := some v })
  | 4 => field text (fun v a => { a with published := some v })
  | 5 => field (decSpan start) (fun v a => { a with span := some v })
  | 6 => field decDigest (fun v a => { a with manifest := some v })
  | _ => none

/-- A span without a manifestation names bytes of nothing. -/
def SourceAcc.finish (a : SourceAcc) (extra : Extra) : Option SourceRef := do
  let c ← a.kind
  let reference ← a.reference
  let kind ← Open.read c
  if sound : (∀ p, a.span = some p → p.1 < p.2) ∧ (a.span.isSome = true → a.manifest.isSome = true)
  then some {
    kind
    reference := normalise reference
    captured := a.captured
    observed := a.observed
    published := a.published
    span := a.span
    manifest := a.manifest
    extra
    span_forward := sound.1
    span_located := sound.2 }
  else none

def decSource : Parser SourceRef := decMap sourceArms {} SourceAcc.finish

def decHlc : Parser Hlc := do
  let start ← position
  tuple start 3
  let wallMs ← uint
  let counter ← uint32 start
  let agent ← named start Name.new
  pure { wallMs, counter, agent }

def decRelKind : Parser RelKind := do
  let start ← position
  let b ← peek
  if b.toNat / 32 = 0 then do
    let c ← code start
    orFail (bad start) (RelKind.fromCode c)
  else if b.toNat / 32 = 3 then named start RelKind.parse
  else fail (bad start)

structure UnitAcc where
  schema : Option SchemaId := none
  gist : Option String := none
  body : Option String := none
  detail : Option String := none
  deps : BTreeSet Uid := ∅
  grounds : BTreeSet Uid := ∅
  status : Option UInt8 := none
  source : Option SourceRef := none
  payload : Option Bytes := none
  lang : Option LangTag := none

def unitArms (start : Nat) : Arms UnitAcc
  | 0 => field (named start SchemaId.parseForward) (fun v a => { a with schema := some v })
  | 1 => field text (fun v a => { a with gist := some v })
  | 2 => field text (fun v a => { a with body := some v })
  | 3 => field text (fun v a => { a with detail := some v })
  | 4 => field uidSet (fun v a => { a with deps := v })
  | 5 => field uidSet (fun v a => { a with grounds := v })
  | 6 => field (code start) (fun v a => { a with status := some v })
  | 7 => field decSource (fun v a => { a with source := some v })
  | 8 => field bytes (fun v a => { a with payload := some v })
  | 9 => field (named start Name.new) (fun v a => { a with lang := some v })
  | _ => none

def UnitAcc.finish (a : UnitAcc) (extra : Extra) : Option UnitCore := do
  let schema ← a.schema
  let gist ← a.gist
  let c ← a.status
  let status ← fromU8 c
  (UnitCore.new {
    schema, gist, status, body := a.body, detail := a.detail, deps := a.deps,
    grounds := a.grounds, source := a.source, payload := a.payload, lang := a.lang, extra }).toOption

def decUnit : Parser UnitCore := decMap unitArms {} UnitAcc.finish

structure AttestationAcc where
  uid : Option Uid := none
  agent : Option AgentId := none
  hop : UInt32 := 0
  parents : BTreeSet Uid := ∅
  ts : Option Hlc := none
  op : Option UInt8 := none
  recipe : Option Bytes32 := none
  sig : Option Bytes := none
  rung : Option UInt8 := none
  family : Option Bytes32 := none

def attestationArms (start : Nat) : Arms AttestationAcc
  | 0 => field uid (fun v a => { a with uid := some v })
  | 1 => field (named start Name.new) (fun v a => { a with agent := some v })
  | 2 => field (uint32 start) (fun v a => { a with hop := v })
  | 3 => field uidSet (fun v a => { a with parents := v })
  | 4 => field decHlc (fun v a => { a with ts := some v })
  | 5 => field (code start) (fun v a => { a with op := some v })
  | 6 => field decBytes32 (fun v a => { a with recipe := some v })
  | 7 => field bytes (fun v a => { a with sig := some v })
  | 8 => field (code start) (fun v a => { a with rung := some v })
  | 9 => field decBytes32 (fun v a => { a with family := some v })
  | _ => none

def AttestationAcc.finish (a : AttestationAcc) (extra : Extra) : Option Attestation := do
  let uid ← a.uid
  let agent ← a.agent
  let ts ← a.ts
  let op ← a.op.bind fromU8
  let rung ← a.rung.bind fromU8
  some {
    uid, agent, hop := a.hop, parents := a.parents, ts, op, rung, recipe := a.recipe,
    family := a.family, sig := a.sig, extra }

def decAttestation : Parser Attestation := decMap attestationArms {} AttestationAcc.finish

structure RelationAcc where
  kind : Option RelKind := none
  src : Option Uid := none
  dst : Option Uid := none
  weight : Option F32 := none
  note : Option Uid := none

def relationArms (_ : Nat) : Arms RelationAcc
  | 0 => field decRelKind (fun v a => { a with kind := some v })
  | 1 => field uid (fun v a => { a with src := some v })
  | 2 => field uid (fun v a => { a with dst := some v })
  | 3 => field f32q (fun v a => { a with weight := some v })
  | 4 => field uid (fun v a => { a with note := some v })
  | _ => none

def RelationAcc.finish (a : RelationAcc) (extra : Extra) : Option Relation := do
  let kind ← a.kind
  let src ← a.src
  let dst ← a.dst
  some { kind, src, dst, weight := a.weight, note := a.note, attestations := ∅, extra }

def decRelation : Parser Relation := decMap relationArms {} RelationAcc.finish

def stepNote (present : Bool) : Parser (Option String) :=
  if present then do
    let s ← text
    pure (some s)
  else pure none

def decStep : Parser Step := do
  let start ← position
  let n ← arrayHead
  reject (!(n == 2 || n == 3)) (bad start)
  let c ← code start
  let unit ← uid
  let note ← stepNote (n == 3)
  let role ← orFail (bad start) (Open.read c)
  pure { role, unit, note }

structure ThreadAcc where
  id : Option ThreadId := none
  schema : Option UInt8 := none
  owner : Option AgentId := none
  gist : Option String := none
  steps : List Step := []
  ts : Option Hlc := none

def threadArms (start : Nat) : Arms ThreadAcc
  | 0 => field (named start Name.new) (fun v a => { a with id := some v })
  | 1 => field (code start) (fun v a => { a with schema := some v })
  | 2 => field (named start Name.new) (fun v a => { a with owner := some v })
  | 3 => field text (fun v a => { a with gist := some v })
  | 4 => field (array decStep) (fun v a => { a with steps := v })
  | 5 => field decHlc (fun v a => { a with ts := some v })
  | _ => none

def ThreadAcc.finish (a : ThreadAcc) (extra : Extra) : Option Thread := do
  let id ← a.id
  let schema ← a.schema.bind Open.read
  let owner ← a.owner
  let gist ← a.gist
  let ts ← a.ts
  some { id, schema, owner, gist, steps := a.steps, ts, extra }

def decThread : Parser Thread := decMap threadArms {} ThreadAcc.finish

/-- The profile as it is filled in: it starts as the default one. -/
structure GranularityAcc where
  profile : String := GranularityProfile.standard.profile
  l0Max : UInt32 := GranularityProfile.standard.l0Max
  l1Min : UInt32 := GranularityProfile.standard.l1Min
  l1Max : UInt32 := GranularityProfile.standard.l1Max
  admission : Option UInt8 := none
  estimator : ProfileEstimator := GranularityProfile.standard.estimator

def granularityArms (start : Nat) : Arms GranularityAcc
  | 0 => field text (fun v a => { a with profile := v })
  | 1 => field (uint32 start) (fun v a => { a with l0Max := v })
  | 2 => field (uint32 start) (fun v a => { a with l1Min := v })
  | 3 => field (uint32 start) (fun v a => { a with l1Max := v })
  | 4 => field (code start) (fun v a => { a with admission := some v })
  | 5 => field text (fun v a => { a with estimator := ProfileEstimator.fromWire v })
  | _ => none

def GranularityAcc.finish (a : GranularityAcc) (extra : Extra) : Option GranularityProfile := do
  let admission ← match a.admission with
    | none => some GranularityProfile.standard.admission
    | some c => Open.read c
  some {
    profile := a.profile, l0Max := a.l0Max, l1Min := a.l1Min, l1Max := a.l1Max, admission,
    estimator := a.estimator, extra }

def decGranularity : Parser GranularityProfile :=
  decMap granularityArms {} GranularityAcc.finish

structure ViewAcc where
  id : Option ViewId := none
  roots : BTreeSet Uid := ∅
  threads : BTreeSet ThreadId := ∅
  requires : BTreeSet SchemaId := ∅
  granularity : Option GranularityProfile := none
  intent : Option String := none
  lang : Option LangTag := none

def viewArms (start : Nat) : Arms ViewAcc
  | 0 => field (named start Name.new) (fun v a => { a with id := some v })
  | 1 => field uidSet (fun v a => { a with roots := v })
  | 2 => field (sortedArray (named start Name.new))
      (fun v a => { a with threads := BTreeSet.ofList v })
  | 3 => field (sortedArray (named start SchemaId.parse))
      (fun v a => { a with requires := BTreeSet.ofList v })
  | 4 => field decGranularity (fun v a => { a with granularity := some v })
  | 5 => field text (fun v a => { a with intent := some v })
  | 6 => field (named start Name.new) (fun v a => { a with lang := some v })
  | _ => none

def ViewAcc.finish (a : ViewAcc) (extra : Extra) : Option View := do
  let id ← a.id
  let granularity ← a.granularity
  let intent ← a.intent
  let lang ← a.lang
  some {
    id, roots := a.roots, threads := a.threads, requires := a.requires, granularity, intent,
    lang, extra }

def decView : Parser View := decMap viewArms {} ViewAcc.finish

def decDetected : Parser Detected := do
  let start ← position
  tuple start 2
  let c ← code start
  let ts ← decHlc
  let kind ← orFail (bad start) (Open.read c)
  pure { kind, ts }

structure ContentionAcc where
  id : Option ContentionId := none
  overUnit : Option Uid := none
  positions : List Uid := []
  detected : Option Detected := none
  status : Option UInt8 := none

def contentionArms (start : Nat) : Arms ContentionAcc
  | 0 => field (named start Name.new) (fun v a => { a with id := some v })
  | 1 => field uid (fun v a => { a with overUnit := some v })
  | 2 => field (array uid) (fun v a => { a with positions := v })
  | 3 => field decDetected (fun v a => { a with detected := some v })
  | 4 => field (code start) (fun v a => { a with status := some v })
  | _ => none

def ContentionAcc.finish (a : ContentionAcc) (extra : Extra) : Option Contention := do
  let id ← a.id
  let overUnit ← a.overUnit
  let detected ← a.detected
  let status ← a.status.bind fromU8
  some { id, overUnit, positions := a.positions, detected, status, extra }

def decContention : Parser Contention := decMap contentionArms {} ContentionAcc.finish

def decFate {α : Type} [WireCode α] : Parser (Uid × α) := do
  let start ← position
  tuple start 2
  let u ← uid
  let fate ← closed start
  pure (u, fate)

def decOptimality : Parser Optimality := do
  let start ← position
  tuple start 2
  let mode ← closed start
  let gap ← f32q
  pure { mode, gap }

structure PackInfoAcc where
  budget : Option UInt64 := none
  used : Option UInt64 := none
  thread : Option ThreadId := none
  dropped : List (Uid × DropReason) := []
  degraded : List (Uid × Lod) := []
  optimality : Option Optimality := none
  estimator : Option String := none
  reserved : UInt64 := 0

def packinfoArms (start : Nat) : Arms PackInfoAcc
  | 0 => field uint (fun v a => { a with budget := some v })
  | 1 => field uint (fun v a => { a with used := some v })
  | 2 => field (named start Name.new) (fun v a => { a with thread := some v })
  | 3 => field (array decFate) (fun v a => { a with dropped := v })
  | 4 => field (array decFate) (fun v a => { a with degraded := v })
  | 5 => field decOptimality (fun v a => { a with optimality := some v })
  | 6 => field text (fun v a => { a with estimator := some v })
  | 7 => field uint (fun v a => { a with reserved := v })
  | _ => none

def PackInfoAcc.finish (a : PackInfoAcc) (extra : Extra) : Option PackInfo := do
  let budget ← a.budget
  let used ← a.used
  let optimality ← a.optimality
  let estimator ← a.estimator
  some {
    budget, used, thread := a.thread, dropped := a.dropped, degraded := a.degraded, optimality,
    estimator, reserved := a.reserved, extra }

def decPackinfo : Parser PackInfo := decMap packinfoArms {} PackInfoAcc.finish

structure SchemaDeclAcc where
  id : Option SchemaId := none
  version : Option UInt32 := none
  types : List SchemaId := []
  relations : List RelKind := []
  payloadShape : Option Bytes := none
  lenses : Option Bytes := none

def schemaDeclArms (start : Nat) : Arms SchemaDeclAcc
  | 0 => field (named start SchemaId.parse) (fun v a => { a with id := some v })
  | 1 => field (uint32 start) (fun v a => { a with version := some v })
  | 2 => field (array (named start SchemaId.parse)) (fun v a => { a with types := v })
  | 3 => field (array decRelKind) (fun v a => { a with relations := v })
  | 4 => field bytes (fun v a => { a with payloadShape := some v })
  | 5 => field skipItem (fun v a => { a with lenses := some v })
  | _ => none

def SchemaDeclAcc.finish (a : SchemaDeclAcc) (extra : Extra) : Option SchemaDecl := do
  let id ← a.id
  let version ← a.version
  some {
    id, version, types := a.types, relations := a.relations, payloadShape := a.payloadShape,
    lenses := a.lenses, extra }

def decSchemaDecl : Parser SchemaDecl := decMap schemaDeclArms {} SchemaDeclAcc.finish

structure LabelBindingAcc where
  label : Option Label := none
  uid : Option Uid := none

def labelBindingArms (start : Nat) : Arms LabelBindingAcc
  | 0 => field (named start Name.new) (fun v a => { a with label := some v })
  | 1 => field uid (fun v a => { a with uid := some v })
  | _ => none

def LabelBindingAcc.finish (a : LabelBindingAcc) (extra : Extra) : Option LabelBinding := do
  let label ← a.label
  let uid ← a.uid
  some { label, uid, extra }

def decLabelBinding : Parser LabelBinding := decMap labelBindingArms {} LabelBindingAcc.finish

structure WithdrawalAcc where
  relation : Option Uid := none
  agent : Option AgentId := none
  ts : Option Hlc := none
  reason : Option Uid := none

def withdrawalArms (start : Nat) : Arms WithdrawalAcc
  | 0 => field uid (fun v a => { a with relation := some v })
  | 1 => field (named start Name.new) (fun v a => { a with agent := some v })
  | 2 => field decHlc (fun v a => { a with ts := some v })
  | 3 => field uid (fun v a => { a with reason := some v })
  | _ => none

def WithdrawalAcc.finish (a : WithdrawalAcc) (extra : Extra) : Option Withdrawal := do
  let relation ← a.relation
  let agent ← a.agent
  let ts ← a.ts
  some { relation, agent, ts, reason := a.reason, extra }

def decWithdrawal : Parser Withdrawal := decMap withdrawalArms {} WithdrawalAcc.finish

structure CommitAcc where
  unit : Option Uid := none
  level : Option Commitment := none
  agent : Option AgentId := none
  ts : Option Hlc := none
  note : Option Uid := none

def commitArms (start : Nat) : Arms CommitAcc
  | 0 => field uid (fun v a => { a with unit := some v })
  | 1 => field (closed start) (fun v a => { a with level := some v })
  | 2 => field (named start Name.new) (fun v a => { a with agent := some v })
  | 3 => field decHlc (fun v a => { a with ts := some v })
  | 4 => field uid (fun v a => { a with note := some v })
  | _ => none

def CommitAcc.finish (a : CommitAcc) (extra : Extra) : Option Commit := do
  let unit ← a.unit
  let level ← a.level
  let agent ← a.agent
  let ts ← a.ts
  some { unit, level, agent, ts, note := a.note, extra }

def decCommit : Parser Commit := decMap commitArms {} CommitAcc.finish

structure ResolutionAcc where
  contention : Option ContentionId := none
  relation : Option Uid := none
  agent : Option AgentId := none
  ts : Option Hlc := none
  note : Option Uid := none

def resolutionArms (start : Nat) : Arms ResolutionAcc
  | 0 => field (named start Name.new) (fun v a => { a with contention := some v })
  | 1 => field uid (fun v a => { a with relation := some v })
  | 2 => field (named start Name.new) (fun v a => { a with agent := some v })
  | 3 => field decHlc (fun v a => { a with ts := some v })
  | 4 => field uid (fun v a => { a with note := some v })
  | _ => none

/-- Exactly one target: both or neither cannot be written as what was read. -/
def ResolutionAcc.target (a : ResolutionAcc) : Option ResolutionTarget :=
  match a.contention, a.relation with
  | some c, none => some (.contention c)
  | none, some r => some (.relation r)
  | _, _ => none

def ResolutionAcc.finish (a : ResolutionAcc) (extra : Extra) : Option Resolution := do
  let target ← a.target
  let agent ← a.agent
  let ts ← a.ts
  some { target, agent, ts, note := a.note, extra }

def decResolution : Parser Resolution := decMap resolutionArms {} ResolutionAcc.finish

/-- `true`, and only `true`. -/
def decTrue : Parser Bool := do
  let start ← position
  let b ← peek
  if b ≠ 0xF5 then fail (bad start)
  else do
    let _ ← byte
    pure true

/-- A map with text keys, ascending by their encoded bytes. -/
def decTextMap : Parser (BTreeMap String String) := do
  let start ← position
  let n ← mapHead
  let out ← loop (fun (st : Option Bytes × BTreeMap String String) => do
    let kstart ← position
    let kbytes ← skipItem
    let k ← orFail (bad kstart)
      (match text ⟨0, kbytes⟩ with
        | .ok (k, _) => some k
        | .error _ => none)
    if st.1.any (fun p => kbytes ≤ p) then fail (bad kstart)
    else do
      rejectNull
      let v ← text
      if st.2.contains k then fail (bad start)
      else pure (some kbytes, st.2.insert k v)) n (none, ∅)
  pure out.2

structure PartEntryAcc where
  tid : Option Tid := none
  length : Option UInt64 := none
  structureHash : Option Bytes32 := none
  rdid : Option Rdid := none
  lang : Option LangTag := none

def partEntryArms (start : Nat) : Arms PartEntryAcc
  | 0 => field decDigest (fun v a => { a with tid := some v })
  | 1 => field uint (fun v a => { a with length := some v })
  | 2 => field decBytes32 (fun v a => { a with structureHash := some v })
  | 3 => field decDigest (fun v a => { a with rdid := some v })
  | 4 => field (named start Name.new) (fun v a => { a with lang := some v })
  | _ => none

def PartEntryAcc.finish (a : PartEntryAcc) (extra : Extra) : Option PartEntry := do
  let tid ← a.tid
  let length ← a.length
  let structureHash ← a.structureHash
  let rdid ← a.rdid
  some { tid, length, structureHash, rdid, lang := a.lang, extra }

def decPartEntry : Parser PartEntry := decMap partEntryArms {} PartEntryAcc.finish

structure ManifestAcc where
  aliasName : Option String := none
  parts : Option (List PartEntry) := none
  lang : Option LangTag := none
  reader : Option String := none
  licence : Option String := none
  carry : Option Carry := none
  title : Option String := none
  creators : List String := []
  published : Option String := none
  identifiers : BTreeMap String String := ∅
  origin : Option SourceRef := none
  parent : Option Mid := none
  parentKind : Option ParentKind := none
  supersedes : Option Mid := none
  versification : Option String := none
  lossy : Bool := false
  raw : Option Bytes := none
  partPolicy : Option String := none
  calendar : Option Calendar := none

def manifestArms (start : Nat) : Arms ManifestAcc
  | 0 => field text (fun v a => { a with aliasName := some v })
  | 1 => field (array decPartEntry) (fun v a => { a with parts := some v })
  | 2 => field (named start Name.new) (fun v a => { a with lang := some v })
  | 3 => field text (fun v a => { a with reader := some v })
  | 4 => field text (fun v a => { a with licence := some v })
  | 5 => field (closed start) (fun v a => { a with carry := some v })
  | 6 => field text (fun v a => { a with title := some v })
  | 7 => field (array text) (fun v a => { a with creators := v })
  | 8 => field text (fun v a => { a with published := some v })
  | 9 => field decTextMap (fun v a => { a with identifiers := v })
  | 10 => field decSource (fun v a => { a with origin := some v })
  | 11 => field decDigest (fun v a => { a with parent := some v })
  | 12 => field (named start ParentKind.parse) (fun v a => { a with parentKind := some v })
  | 13 => field decDigest (fun v a => { a with supersedes := some v })
  | 14 => field text (fun v a => { a with versification := some v })
  | 15 => field decTrue (fun v a => { a with lossy := v })
  | 16 => field skipItem (fun v a => { a with raw := some v })
  | 17 => field text (fun v a => { a with partPolicy := some v })
  | 18 => field (named start Calendar.parse) (fun v a => { a with calendar := some v })
  | _ => none

/-- The parent and what kind of parent it is come together or not at all. -/
def ManifestAcc.parentPair (a : ManifestAcc) : Option (Option (Mid × ParentKind)) :=
  match a.parent, a.parentKind with
  | some m, some k => some (some (m, k))
  | none, none => some none
  | _, _ => none

def ManifestAcc.finish (a : ManifestAcc) (extra : Extra) : Option Manifest := do
  let parent ← a.parentPair
  let aliasName ← a.aliasName
  let lang ← a.lang
  let reader ← a.reader
  let licence ← a.licence
  let partPolicy ← a.partPolicy
  let parts ← a.parts
  let carry ← a.carry
  some {
    aliasName, parts, lang, reader, licence, carry, title := a.title, creators := a.creators,
    published := a.published, identifiers := a.identifiers, origin := a.origin, parent,
    supersedes := a.supersedes, versification := a.versification, lossy := a.lossy, raw := a.raw,
    partPolicy, calendar := a.calendar, extra }

def decManifest : Parser Manifest := decMap manifestArms {} ManifestAcc.finish

structure PartTextAcc where
  tid : Option Tid := none
  text : Option Bytes := none

def partTextArms (_ : Nat) : Arms PartTextAcc
  | 0 => field decDigest (fun v a => { a with tid := some v })
  | 1 => field bytes (fun v a => { a with text := some v })
  | _ => none

/-- Whether the text has that identity is for the layer above to report. -/
def PartTextAcc.finish (a : PartTextAcc) (extra : Extra) : Option PartText := do
  let tid ← a.tid
  let text ← a.text
  some { tid, text, extra }

def decPartText : Parser PartText := decMap partTextArms {} PartTextAcc.finish

structure PartReadingAcc where
  tid : Option Tid := none
  reader : Option String := none
  segments : Option Bytes := none
  raw : Option Bytes := none

def partReadingArms (_ : Nat) : Arms PartReadingAcc
  | 0 => field decDigest (fun v a => { a with tid := some v })
  | 1 => field text (fun v a => { a with reader := some v })
  | 2 => field skipItem (fun v a => { a with segments := some v })
  | 3 => field skipItem (fun v a => { a with raw := some v })
  | _ => none

/-- An empty table is spelled as an empty array, as `PartReading::new` does. -/
def PartReadingAcc.finish (a : PartReadingAcc) (extra : Extra) : Option PartReading := do
  let tid ← a.tid
  let reader ← a.reader
  let segments ← a.segments
  some {
    tid, reader, segments := if segments.isEmpty then [0x80] else segments, raw := a.raw, extra }

def decPartReading : Parser PartReading := decMap partReadingArms {} PartReadingAcc.finish

def decDatingTarget : Parser DatingTarget := do
  let start ← position
  tuple start 2
  let kind ← uint
  if kind = 0 then do
    let u ← uid
    pure (.unit u)
  else if kind = 1 then do
    let tid ← decDigest
    pure (.part tid)
  else if kind = 2 then do
    let mid ← decDigest
    pure (.manifest mid)
  else if kind = 3 then do
    tuple start 3
    let tid ← decDigest
    let fromMs ← uint
    let toMs ← uint
    pure (.window tid fromMs toMs)
  else fail (bad start)

/-- Exactly one entry: a dating says one thing. -/
def decDatingValue : Parser DatingValue := do
  let start ← position
  let n ← mapHead
  reject (n != 1) (bad start)
  let key ← uint
  if key = 0 then do
    let t ← text
    pure (.absolute t)
  else if key = 1 then do
    let ms ← int
    pure (.offset ms)
  else if key = 2 then do
    tuple start 2
    let allen ← named start Allen.parse
    let target ← decDatingTarget
    pure (.relative allen target)
  else fail (bad start)

structure DatingAcc where
  target : Option DatingTarget := none
  axis : Option Axis := none
  value : Option DatingValue := none
  basis : Option Uid := none
  agent : Option AgentId := none
  ts : Option Hlc := none

def datingArms (start : Nat) : Arms DatingAcc
  | 0 => field decDatingTarget (fun v a => { a with target := some v })
  | 1 => field (closed start) (fun v a => { a with axis := some v })
  | 2 => field decDatingValue (fun v a => { a with value := some v })
  | 3 => field uid (fun v a => { a with basis := some v })
  | 4 => field (named start Name.new) (fun v a => { a with agent := some v })
  | 5 => field decHlc (fun v a => { a with ts := some v })
  | _ => none

def DatingAcc.finish (a : DatingAcc) (extra : Extra) : Option Dating := do
  let target ← a.target
  let axis ← a.axis
  let value ← a.value
  let agent ← a.agent
  let ts ← a.ts
  some { target, axis, value, basis := a.basis, agent, ts, extra }

def decDating : Parser Dating := decMap datingArms {} DatingAcc.finish

structure RedactionAcc where
  tid : Option Tid := none
  agent : Option AgentId := none
  ts : Option Hlc := none
  reason : Option Uid := none

def redactionArms (start : Nat) : Arms RedactionAcc
  | 0 => field decDigest (fun v a => { a with tid := some v })
  | 1 => field (named start Name.new) (fun v a => { a with agent := some v })
  | 2 => field decHlc (fun v a => { a with ts := some v })
  | 3 => field uid (fun v a => { a with reason := some v })
  | _ => none

def RedactionAcc.finish (a : RedactionAcc) (extra : Extra) : Option Redaction := do
  let tid ← a.tid
  let agent ← a.agent
  let ts ← a.ts
  some { tid, agent, ts, reason := a.reason, extra }

def decRedaction : Parser Redaction := decMap redactionArms {} RedactionAcc.finish

/-- The payload of an envelope. One of an unknown type is kept as it is. -/
def decPayload (code : UInt64) : Parser Record :=
  match code with
  | 1 => Record.unit <$> decUnit
  | 2 => Record.attestation <$> decAttestation
  | 3 => Record.relation <$> decRelation
  | 4 => Record.thread <$> decThread
  | 5 => Record.view <$> decView
  | 6 => Record.contention <$> decContention
  | 7 => Record.packInfo <$> decPackinfo
  | 8 => Record.schemaDecl <$> decSchemaDecl
  | 10 => Record.labelBinding <$> decLabelBinding
  | 11 => Record.withdrawal <$> decWithdrawal
  | 12 => Record.resolution <$> decResolution
  | 13 => Record.commit <$> decCommit
  | 14 => Record.manifest <$> decManifest
  | 15 => Record.partText <$> decPartText
  | 18 => Record.partReading <$> decPartReading
  | 17 => Record.dating <$> decDating
  | 19 => Record.redaction <$> decRedaction
  | other => Record.unknown other <$> skipItem

def decEnvelope : Parser Record := do
  let start ← position
  tuple start 2
  let c ← uint
  decPayload c

/-- One record, and how many bytes it took. -/
def fromCbor (bytes : Bytes) : Except CodecError (Record × Nat) :=
  match decEnvelope ⟨0, bytes⟩ with
  | .ok (record, d) => .ok (record, d.pos)
  | .error e => .error e

/-- The records up to the last complete one, and where that one ends. A
truncated tail is no error: a writer may be in the middle of it. -/
def seqFrom : Nat → Bytes → Nat → List Record → Except CodecError (List Record × Nat)
  | 0, _, off, out => .ok (out, off)
  | fuel + 1, bytes, off, out =>
    if off < bytes.length then
      match fromCbor (bytes.drop off) with
      | .ok (r, n) => seqFrom fuel bytes (off + n) (out ++ [r])
      | .error (.truncated _) => .ok (out, off)
      | .error e => .error e
    else .ok (out, off)

/-- Every record takes a byte, so one round for each byte is enough. -/
def fromCborSeq (bytes : Bytes) : Except CodecError (List Record × Nat) :=
  seqFrom bytes.length bytes 0 []

end
end Smysl
