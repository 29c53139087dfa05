import Smysl.Cbor.Writer

/-!
Record encoding: `[type_code, payload]`, each payload a map from small integer
keys. The keys are those of the crate's key tables, in their order.
-/
namespace Smysl
open ByteString

section
variable [Unicode]

def encHlc (h : Hlc) : Bytes :=
  Enc.arrayHead 3 ++ Enc.uint h.wallMs.toNat ++ Enc.uint h.counter.toNat ++ Enc.text h.agent.text

def encCode (c : UInt8) : Bytes := Enc.uint c.toNat

def encRelKind (k : RelKind) : Bytes :=
  match k.code with
  | some c => encCode c
  | none => Enc.text k.asStr

def encSpan (p : UInt64 × UInt64) : Bytes :=
  Enc.arrayHead 2 ++ Enc.uint p.1.toNat ++ Enc.uint p.2.toNat

def encSource (s : SourceRef) : Bytes :=
  Enc.map (put 0 (encCode s.kind.rawCode) ++
    put 1 (Enc.text s.reference) ++
    putOpt 2 s.captured (fun d => Enc.text d.toText) ++
    putOpt 3 s.observed (fun ms => Enc.uint ms.toNat) ++
    putOpt 4 s.published Enc.text ++
    putOpt 5 s.span encSpan ++
    putOpt 6 s.manifest Enc.digest ++
    putExtra s.extra)

/-- The payload map alone: the hash input of a unit's identity. -/
def unitCoreBytes (u : UnitCore) : Bytes :=
  Enc.map (put 0 (Enc.text u.schema.asStr) ++
    put 1 (Enc.text u.gist) ++
    putOpt 2 u.body Enc.text ++
    putOpt 3 u.detail Enc.text ++
    putUidSet 4 u.deps ++
    putUidSet 5 u.grounds ++
    put 6 (encCode (asU8 u.status)) ++
    putOpt 7 u.source encSource ++
    putOpt 8 u.payload Enc.bytes ++
    putOpt 9 u.lang (fun t => Enc.text t.text) ++
    putExtra u.extra)

def attestationBytes (a : Attestation) : Bytes :=
  Enc.map (put 0 (Enc.digest a.uid) ++
    put 1 (Enc.text a.agent.text) ++
    put 2 (Enc.uint a.hop.toNat) ++
    putUidSet 3 a.parents ++
    put 4 (encHlc a.ts) ++
    put 5 (encCode (asU8 a.op)) ++
    putOpt 6 a.recipe (fun r => Enc.bytes r.bytes) ++
    putOpt 7 a.sig Enc.bytes ++
    put 8 (encCode (asU8 a.rung)) ++
    putOpt 9 a.family (fun r => Enc.bytes r.bytes) ++
    putExtra a.extra)

/-- A relation's attestations are not written: they are records of their own. -/
def relationBytes (r : Relation) : Bytes :=
  Enc.map (put 0 (encRelKind r.kind) ++
    put 1 (Enc.digest r.src) ++
    put 2 (Enc.digest r.dst) ++
    putOpt 3 r.weight Enc.f32q ++
    putOpt 4 r.note Enc.digest ++
    putExtra r.extra)

def encStep (s : Step) : Bytes :=
  Enc.arrayHead (if s.note.isSome then 3 else 2) ++ encCode s.role.rawCode ++ Enc.digest s.unit ++
    match s.note with
    | some n => Enc.text n
    | none => []

def threadBytes (t : Thread) : Bytes :=
  Enc.map (put 0 (Enc.text t.id.text) ++
    put 1 (encCode t.schema.rawCode) ++
    put 2 (Enc.text t.owner.text) ++
    put 3 (Enc.text t.gist) ++
    putArray 4 (t.steps.map encStep) ++
    put 5 (encHlc t.ts) ++
    putExtra t.extra)

/-- The estimator is absent for the default: writing it would change the bytes
of every view that predates it. -/
def encGranularity (g : GranularityProfile) : Bytes :=
  Enc.map (put 0 (Enc.text g.profile) ++
    put 1 (Enc.uint g.l0Max.toNat) ++
    put 2 (Enc.uint g.l1Min.toNat) ++
    put 3 (Enc.uint g.l1Max.toNat) ++
    put 4 (encCode g.admission.rawCode) ++
    putOpt 5 g.estimator.wireId Enc.text ++
    putExtra g.extra)

def viewBytes (v : View) : Bytes :=
  Enc.map (put 0 (Enc.text v.id.text) ++
    putUidSet 1 v.roots ++
    putSortedSet 2 (v.threads.toList.map (fun t => Enc.text t.text)) ++
    putSortedSet 3 (v.requires.toList.map (fun s => Enc.text s.asStr)) ++
    put 4 (encGranularity v.granularity) ++
    put 5 (Enc.text v.intent) ++
    put 6 (Enc.text v.lang.text) ++
    putExtra v.extra)

def encDetected (d : Detected) : Bytes :=
  Enc.arrayHead 2 ++ encCode d.kind.rawCode ++ encHlc d.ts

def contentionBytes (c : Contention) : Bytes :=
  Enc.map (put 0 (Enc.text c.id.text) ++
    put 1 (Enc.digest c.overUnit) ++
    putArray 2 (c.positions.map Enc.digest) ++
    put 3 (encDetected c.detected) ++
    put 4 (encCode (asU8 c.status)) ++
    putExtra c.extra)

/-- A unit and what was done to it: `[uid, code]`. -/
def encFate {α : Type} [WireCode α] (e : Uid × α) : Bytes :=
  Enc.arrayHead 2 ++ Enc.digest e.1 ++ encCode (asU8 e.2)

def encOptimality (o : Optimality) : Bytes :=
  Enc.arrayHead 2 ++ encCode (asU8 o.mode) ++ Enc.f32q o.gap

/-- A pack that reserved nothing is written as before the key existed. -/
def packinfoBytes (p : PackInfo) : Bytes :=
  Enc.map (put 0 (Enc.uint p.budget.toNat) ++
    put 1 (Enc.uint p.used.toNat) ++
    putOpt 2 p.thread (fun t => Enc.text t.text) ++
    putArray 3 (p.dropped.map encFate) ++
    putArray 4 (p.degraded.map encFate) ++
    put 5 (encOptimality p.optimality) ++
    put 6 (Enc.text p.estimator) ++
    putWhen 7 (p.reserved != 0) (Enc.uint p.reserved.toNat) ++
    putExtra p.extra)

def schemaDeclBytes (d : SchemaDecl) : Bytes :=
  Enc.map (put 0 (Enc.text d.id.asStr) ++
    put 1 (Enc.uint d.version.toNat) ++
    putArray 2 (d.types.map (fun t => Enc.text t.asStr)) ++
    putArray 3 (d.relations.map encRelKind) ++
    putOpt 4 d.payloadShape Enc.bytes ++
    putOpt 5 d.lenses (fun l => l) ++
    putExtra d.extra)

def labelBindingBytes (b : LabelBinding) : Bytes :=
  Enc.map (put 0 (Enc.text b.label.text) ++
    put 1 (Enc.digest b.uid) ++
    putExtra b.extra)

def withdrawalBytes (w : Withdrawal) : Bytes :=
  Enc.map (put 0 (Enc.digest w.relation) ++
    put 1 (Enc.text w.agent.text) ++
    put 2 (encHlc w.ts) ++
    putOpt 3 w.reason Enc.digest ++
    putExtra w.extra)

def resolutionTarget : ResolutionTarget → List (Nat × Bytes)
  | .contention id => put 0 (Enc.text id.text)
  | .relation rid => put 1 (Enc.digest rid)

def resolutionBytes (r : Resolution) : Bytes :=
  Enc.map (resolutionTarget r.target ++
    put 2 (Enc.text r.agent.text) ++
    put 3 (encHlc r.ts) ++
    putOpt 4 r.note Enc.digest ++
    putExtra r.extra)

def commitBytes (c : Commit) : Bytes :=
  Enc.map (put 0 (Enc.digest c.unit) ++
    put 1 (encCode (asU8 c.level)) ++
    put 2 (Enc.text c.agent.text) ++
    put 3 (encHlc c.ts) ++
    putOpt 4 c.note Enc.digest ++
    putExtra c.extra)

/-- `true`, the only simple value written: `false` has no encoding. -/
def encTrue : Bytes := Enc.head 7 21

/-- An item carried without being read; no bytes are written as `empty`. -/
def encOpaque (empty : UInt8) (bytes : Bytes) : Bytes := if bytes.isEmpty then [empty] else bytes

/-- A map with text keys, in the order of its encoded keys. -/
def encTextMap (entries : List (String × String)) : Bytes :=
  let rows := (entries.map (fun e => (Enc.text e.1, Enc.text e.2))).insertionSort
    (fun a b => a.1 ≤ b.1)
  Enc.head 5 rows.length ++ rows.flatMap (fun r => r.1 ++ r.2)

def encPartEntry (p : PartEntry) : Bytes :=
  Enc.map (put 0 (Enc.digest p.tid) ++
    put 1 (Enc.uint p.length.toNat) ++
    put 2 (Enc.bytes p.structureHash.bytes) ++
    put 3 (Enc.digest p.rdid) ++
    putOpt 4 p.lang (fun l => Enc.text l.text) ++
    putExtra p.extra)

/-- `parts` is required and may be empty, so it is not put as other arrays. -/
def manifestBytes (m : Manifest) : Bytes :=
  Enc.map (put 0 (Enc.text m.aliasName) ++
    put 1 (Enc.array (m.parts.map encPartEntry)) ++
    put 2 (Enc.text m.lang.text) ++
    put 3 (Enc.text m.reader) ++
    put 4 (Enc.text m.licence) ++
    put 5 (encCode (asU8 m.carry)) ++
    putOpt 6 m.title Enc.text ++
    putArray 7 (m.creators.map Enc.text) ++
    putOpt 8 m.published Enc.text ++
    putWhen 9 (!m.identifiers.isEmpty) (encTextMap m.identifiers.entries) ++
    putOpt 10 m.origin encSource ++
    putOpt 11 (m.parent.map Prod.fst) Enc.digest ++
    putOpt 12 (m.parent.map Prod.snd) (fun k => Enc.text k.asStr) ++
    putOpt 13 m.supersedes Enc.digest ++
    putOpt 14 m.versification Enc.text ++
    putWhen 15 m.lossy encTrue ++
    putOpt 16 m.raw (encOpaque 0xA0) ++
    put 17 (Enc.text m.partPolicy) ++
    putOpt 18 m.calendar (fun c => Enc.text c.asStr) ++
    putExtra m.extra)

def partTextBytes (p : PartText) : Bytes :=
  Enc.map (put 0 (Enc.digest p.tid) ++
    put 1 (Enc.bytes p.text) ++
    putExtra p.extra)

def partReadingBytes (r : PartReading) : Bytes :=
  Enc.map (put 0 (Enc.digest r.tid) ++
    put 1 (Enc.text r.reader) ++
    put 2 (encOpaque 0x80 r.segments) ++
    putOpt 3 r.raw (encOpaque 0xA0) ++
    putExtra r.extra)

/-- `[kind, id]`; a window's id is itself an array. -/
def encDatingTarget (t : DatingTarget) : Bytes :=
  Enc.arrayHead 2 ++ Enc.uint t.kind ++
    match t with
    | .unit u => Enc.digest u
    | .part tid => Enc.digest tid
    | .manifest mid => Enc.digest mid
    | .window tid fromMs toMs =>
      Enc.arrayHead 3 ++ Enc.digest tid ++ Enc.uint fromMs.toNat ++ Enc.uint toMs.toNat

def encDatingValue (v : DatingValue) : Bytes :=
  Enc.map (match v with
    | .absolute t => put 0 (Enc.text t)
    | .offset ms => put 1 (Enc.int ms)
    | .relative allen target =>
      put 2 (Enc.arrayHead 2 ++ Enc.text allen.asStr ++ encDatingTarget target))

def datingBytes (d : Dating) : Bytes :=
  Enc.map (put 0 (encDatingTarget d.target) ++
    put 1 (encCode (asU8 d.axis)) ++
    put 2 (encDatingValue d.value) ++
    putOpt 3 d.basis Enc.digest ++
    put 4 (Enc.text d.agent.text) ++
    put 5 (encHlc d.ts) ++
    putExtra d.extra)

def redactionBytes (r : Redaction) : Bytes :=
  Enc.map (put 0 (Enc.digest r.tid) ++
    put 1 (Enc.text r.agent.text) ++
    put 2 (encHlc r.ts) ++
    putOpt 3 r.reason Enc.digest ++
    putExtra r.extra)

def payloadBytes : Record → Bytes
  | .unit u => unitCoreBytes u
  | .attestation a => attestationBytes a
  | .relation r => relationBytes r
  | .thread t => threadBytes t
  | .view v => viewBytes v
  | .contention c => contentionBytes c
  | .packInfo p => packinfoBytes p
  | .schemaDecl d => schemaDeclBytes d
  | .labelBinding b => labelBindingBytes b
  | .withdrawal w => withdrawalBytes w
  | .resolution r => resolutionBytes r
  | .commit c => commitBytes c
  | .manifest m => manifestBytes m
  | .partText p => partTextBytes p
  | .partReading r => partReadingBytes r
  | .dating d => datingBytes d
  | .redaction r => redactionBytes r
  | .unknown _ payload => payload

/-- One record as a complete envelope. -/
def toCbor (r : Record) : Bytes :=
  Enc.arrayHead 2 ++ Enc.uint r.typeCode.toNat ++ payloadBytes r

/-- A whole store as a bare sequence of envelopes. -/
def toCborSeq (records : List Record) : Bytes := records.flatMap toCbor

end
end Smysl
