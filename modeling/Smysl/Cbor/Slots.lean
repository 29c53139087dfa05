import Smysl.Cbor.MapLoop

/-!
What the encoder would write for each collection, key by key. A record made of
a collection is written as the filled slots and the unknown keys.
-/
namespace Smysl
open ByteString Cursor Cursor.Parser Dec OrdMap

@[simp] theorem put_opt_some {α : Type} (k : Nat) (v : α) (write : α → Bytes) :
    putOpt k (some v) write = put k (write v) := rfl

@[simp] theorem put_opt_none {α : Type} (k : Nat) (write : α → Bytes) :
    putOpt k none write = [] := rfl

@[simp] theorem put_opt_map {α : Type} (k : Nat) (slot : Option α) (write : α → Bytes) :
    putOpt k (slot.map write) (fun v => v) = putOpt k slot write := by
  cases slot <;> rfl

@[simp] theorem put_opt_when (k : Nat) (present : Bool) (value : Bytes) :
    putOpt k (slotWhen present value) (fun v => v) = putWhen k present value := by
  cases present <;> rfl

/-- The slot of a sequence in authored order. -/
def slotArray (items : List Bytes) : Option Bytes := slotWhen (!items.isEmpty) (Enc.array items)

@[simp] theorem slot_array_nil : slotArray [] = none := rfl

@[simp] theorem put_opt_array (k : Nat) (items : List Bytes) :
    putOpt k (slotArray items) (fun v => v) = putArray k items := put_opt_when k _ _

section
variable [Unicode]

/-- Free text a constructor normalises. -/
def normalText (s : String) : Bytes := Enc.text (normalise s)

def SourceAcc.slots (a : SourceAcc) : List (Option Bytes) :=
  [a.kind.map encCode, a.reference.map normalText, a.captured.map (fun d => Enc.text d.toText),
    a.observed.map (fun ms => Enc.uint ms.toNat), a.published.map Enc.text, a.span.map encSpan,
    a.manifest.map Enc.digest]

theorem source_made {a : SourceAcc} {extra : Extra} {s : SourceRef}
    (made : a.finish extra = some s) :
    encSource s = Enc.map (keyed a.slots ++ putExtra extra) := by
  simp only [SourceAcc.finish, Option.bind_eq_bind, Option.bind_eq_some_iff] at made
  obtain ⟨c, code, reference, refers, kind, found, made⟩ := made
  split at made
  · cases made
    simp [encSource, SourceAcc.slots, keyedFrom, code, refers, Open.read_raw_code found,
      normalText]
  · cases made

def UnitAcc.slots (a : UnitAcc) : List (Option Bytes) :=
  [a.schema.map (fun s => Enc.text s.asStr), a.gist.map normalText,
    (filledText a.body).map Enc.text, (filledText a.detail).map Enc.text,
    slotWhen (!a.deps.isEmpty) (Enc.uidSet a.deps),
    slotWhen (!a.grounds.isEmpty) (Enc.uidSet a.grounds),
    a.status.map encCode, a.source.map encSource, a.payload.map Enc.bytes,
    a.lang.map (fun t => Enc.text t.text)]

theorem unit_made {a : UnitAcc} {extra : Extra} {u : UnitCore} (made : a.finish extra = some u) :
    unitCoreBytes u = Enc.map (keyed a.slots ++ putExtra extra) := by
  simp only [UnitAcc.finish, Option.bind_eq_bind, Option.bind_eq_some_iff] at made
  obtain ⟨schema, named, gist, text, c, coded, status, found, made⟩ := made
  have same : asU8 status = c := (WireCode.fromU8_iff c _).mp found
  generalize built : UnitCore.new _ = result at made
  cases result <;> cases made
  obtain ⟨hschema, hgist, hbody, hdetail, hdeps, hgrounds, hstatus, hsource, hpayload, hlang,
    hextra⟩ := UnitCore.new_ok built
  simp [unitCoreBytes, UnitAcc.slots, keyedFrom, named, text, coded, same, normalText, putUidSet,
    hschema, hgist, hbody, hdetail, hdeps, hgrounds, hstatus, hsource, hpayload, hlang, hextra]

def AttestationAcc.slots (a : AttestationAcc) : List (Option Bytes) :=
  [a.uid.map Enc.digest, a.agent.map (fun n => Enc.text n.text), some (Enc.uint a.hop.toNat),
    slotWhen (!a.parents.isEmpty) (Enc.uidSet a.parents), a.ts.map encHlc, a.op.map encCode,
    a.recipe.map (fun r => Enc.bytes r.bytes), a.sig.map Enc.bytes, a.rung.map encCode,
    a.family.map (fun r => Enc.bytes r.bytes)]

theorem attestation_made {a : AttestationAcc} {extra : Extra} {r : Attestation}
    (made : a.finish extra = some r) :
    attestationBytes r = Enc.map (keyed a.slots ++ putExtra extra) := by
  simp only [AttestationAcc.finish, Option.bind_eq_bind, Option.bind_eq_some_iff] at made
  obtain ⟨uid, hasUid, agent, hasAgent, ts, hasTs, op, ⟨o, hasOp, opFound⟩, rung,
    ⟨g, hasRung, rungFound⟩, ⟨⟩⟩ := made
  simp [attestationBytes, AttestationAcc.slots, keyedFrom, hasUid, hasAgent, hasTs, hasOp, hasRung,
    (WireCode.fromU8_iff o _).mp opFound, (WireCode.fromU8_iff g _).mp rungFound, putUidSet]

def RelationAcc.slots (a : RelationAcc) : List (Option Bytes) :=
  [a.kind.map encRelKind, a.src.map Enc.digest, a.dst.map Enc.digest, a.weight.map Enc.f32q,
    a.note.map Enc.digest]

theorem relation_made {a : RelationAcc} {extra : Extra} {r : Relation}
    (made : a.finish extra = some r) :
    relationBytes r = Enc.map (keyed a.slots ++ putExtra extra) := by
  simp only [RelationAcc.finish, Option.bind_eq_bind, Option.bind_eq_some_iff] at made
  obtain ⟨kind, hasKind, src, hasSrc, dst, hasDst, ⟨⟩⟩ := made
  simp [relationBytes, RelationAcc.slots, keyedFrom, hasKind, hasSrc, hasDst]

def ThreadAcc.slots (a : ThreadAcc) : List (Option Bytes) :=
  [a.id.map (fun t => Enc.text t.text), a.schema.map encCode,
    a.owner.map (fun n => Enc.text n.text), a.gist.map Enc.text, slotArray (a.steps.map encStep),
    a.ts.map encHlc]

theorem thread_made {a : ThreadAcc} {extra : Extra} {t : Thread} (made : a.finish extra = some t) :
    threadBytes t = Enc.map (keyed a.slots ++ putExtra extra) := by
  simp only [ThreadAcc.finish, Option.bind_eq_bind, Option.bind_eq_some_iff] at made
  obtain ⟨id, hasId, schema, ⟨c, hasSchema, found⟩, owner, hasOwner, gist, hasGist, ts, hasTs,
    ⟨⟩⟩ := made
  simp [threadBytes, ThreadAcc.slots, keyedFrom, hasId, hasSchema, hasOwner, hasGist, hasTs,
    Open.read_raw_code found]

/-- The profile always writes its thresholds, so it has them from the start. -/
def GranularityAcc.slots (a : GranularityAcc) : List (Option Bytes) :=
  [some (Enc.text a.profile), some (Enc.uint a.l0Max.toNat), some (Enc.uint a.l1Min.toNat),
    some (Enc.uint a.l1Max.toNat),
    some (encCode (a.admission.getD GranularityProfile.standard.admission.rawCode)),
    a.estimator.wireId.map Enc.text]

theorem granularity_made {a : GranularityAcc} {extra : Extra} {g : GranularityProfile}
    (made : a.finish extra = some g) :
    encGranularity g = Enc.map (keyed a.slots ++ putExtra extra) := by
  have fields : ∃ admission : Open Admission, g = {
      profile := a.profile, l0Max := a.l0Max, l1Min := a.l1Min, l1Max := a.l1Max, admission,
      estimator := a.estimator, extra } ∧ admission.rawCode =
        a.admission.getD GranularityProfile.standard.admission.rawCode := by
    simp only [GranularityAcc.finish, Option.bind_eq_bind] at made
    cases said : a.admission with
    | none =>
      rw [said] at made
      cases made
      exact ⟨_, rfl, rfl⟩
    | some c =>
      rw [said] at made
      obtain ⟨admission, found, ⟨⟩⟩ := Option.bind_eq_some_iff.mp made
      exact ⟨admission, rfl, Open.read_raw_code found⟩
  obtain ⟨admission, rfl, same⟩ := fields
  simp [encGranularity, GranularityAcc.slots, keyedFrom, same]

def ViewAcc.slots (a : ViewAcc) : List (Option Bytes) :=
  [a.id.map (fun v => Enc.text v.text), slotWhen (!a.roots.isEmpty) (Enc.uidSet a.roots),
    slotWhen (!a.threads.toList.isEmpty)
      (Enc.sortedArray (a.threads.toList.map (fun t => Enc.text t.text))),
    slotWhen (!a.requires.toList.isEmpty)
      (Enc.sortedArray (a.requires.toList.map (fun s => Enc.text s.asStr))),
    a.granularity.map encGranularity, a.intent.map Enc.text, a.lang.map (fun t => Enc.text t.text)]

theorem view_made {a : ViewAcc} {extra : Extra} {v : View} (made : a.finish extra = some v) :
    viewBytes v = Enc.map (keyed a.slots ++ putExtra extra) := by
  simp only [ViewAcc.finish, Option.bind_eq_bind, Option.bind_eq_some_iff] at made
  obtain ⟨id, hasId, granularity, hasGranularity, intent, hasIntent, lang, hasLang, ⟨⟩⟩ := made
  simp [viewBytes, ViewAcc.slots, keyedFrom, hasId, hasGranularity, hasIntent, hasLang, putUidSet,
    putSortedSet]

def ContentionAcc.slots (a : ContentionAcc) : List (Option Bytes) :=
  [a.id.map (fun c => Enc.text c.text), a.overUnit.map Enc.digest,
    slotArray (a.positions.map Enc.digest), a.detected.map encDetected, a.status.map encCode]

theorem contention_made {a : ContentionAcc} {extra : Extra} {c : Contention}
    (made : a.finish extra = some c) :
    contentionBytes c = Enc.map (keyed a.slots ++ putExtra extra) := by
  simp only [ContentionAcc.finish, Option.bind_eq_bind, Option.bind_eq_some_iff] at made
  obtain ⟨id, hasId, unit, hasUnit, detected, hasDetected, status, ⟨c, hasStatus, found⟩, ⟨⟩⟩ := made
  simp [contentionBytes, ContentionAcc.slots, keyedFrom, hasId, hasUnit, hasDetected, hasStatus,
    (WireCode.fromU8_iff c _).mp found]

def PackInfoAcc.slots (a : PackInfoAcc) : List (Option Bytes) :=
  [a.budget.map (fun n => Enc.uint n.toNat), a.used.map (fun n => Enc.uint n.toNat),
    a.thread.map (fun t => Enc.text t.text), slotArray (a.dropped.map encFate),
    slotArray (a.degraded.map encFate), a.optimality.map encOptimality, a.estimator.map Enc.text,
    slotWhen (a.reserved != 0) (Enc.uint a.reserved.toNat)]

theorem packinfo_made {a : PackInfoAcc} {extra : Extra} {p : PackInfo}
    (made : a.finish extra = some p) :
    packinfoBytes p = Enc.map (keyed a.slots ++ putExtra extra) := by
  simp only [PackInfoAcc.finish, Option.bind_eq_bind, Option.bind_eq_some_iff] at made
  obtain ⟨budget, hasBudget, used, hasUsed, optimality, hasOptimality, estimator, hasEstimator,
    ⟨⟩⟩ := made
  simp [packinfoBytes, PackInfoAcc.slots, keyedFrom, hasBudget, hasUsed, hasOptimality,
    hasEstimator]

def SchemaDeclAcc.slots (a : SchemaDeclAcc) : List (Option Bytes) :=
  [a.id.map (fun s => Enc.text s.asStr), a.version.map (fun v => Enc.uint v.toNat),
    slotArray (a.types.map (fun t => Enc.text t.asStr)), slotArray (a.relations.map encRelKind),
    a.payloadShape.map Enc.bytes, a.lenses]

theorem schema_decl_made {a : SchemaDeclAcc} {extra : Extra} {d : SchemaDecl}
    (made : a.finish extra = some d) :
    schemaDeclBytes d = Enc.map (keyed a.slots ++ putExtra extra) := by
  simp only [SchemaDeclAcc.finish, Option.bind_eq_bind, Option.bind_eq_some_iff] at made
  obtain ⟨id, hasId, version, hasVersion, ⟨⟩⟩ := made
  simp [schemaDeclBytes, SchemaDeclAcc.slots, keyedFrom, hasId, hasVersion]

def LabelBindingAcc.slots (a : LabelBindingAcc) : List (Option Bytes) :=
  [a.label.map (fun l => Enc.text l.text), a.uid.map Enc.digest]

theorem label_binding_made {a : LabelBindingAcc} {extra : Extra} {b : LabelBinding}
    (made : a.finish extra = some b) :
    labelBindingBytes b = Enc.map (keyed a.slots ++ putExtra extra) := by
  simp only [LabelBindingAcc.finish, Option.bind_eq_bind, Option.bind_eq_some_iff] at made
  obtain ⟨label, hasLabel, uid, hasUid, ⟨⟩⟩ := made
  simp [labelBindingBytes, LabelBindingAcc.slots, keyedFrom, hasLabel, hasUid]

def WithdrawalAcc.slots (a : WithdrawalAcc) : List (Option Bytes) :=
  [a.relation.map Enc.digest, a.agent.map (fun n => Enc.text n.text), a.ts.map encHlc,
    a.reason.map Enc.digest]

theorem withdrawal_made {a : WithdrawalAcc} {extra : Extra} {w : Withdrawal}
    (made : a.finish extra = some w) :
    withdrawalBytes w = Enc.map (keyed a.slots ++ putExtra extra) := by
  simp only [WithdrawalAcc.finish, Option.bind_eq_bind, Option.bind_eq_some_iff] at made
  obtain ⟨relation, hasRelation, agent, hasAgent, ts, hasTs, ⟨⟩⟩ := made
  simp [withdrawalBytes, WithdrawalAcc.slots, keyedFrom, hasRelation, hasAgent, hasTs]

def ResolutionAcc.slots (a : ResolutionAcc) : List (Option Bytes) :=
  [a.contention.map (fun c => Enc.text c.text), a.relation.map Enc.digest,
    a.agent.map (fun n => Enc.text n.text), a.ts.map encHlc, a.note.map Enc.digest]

theorem resolution_made {a : ResolutionAcc} {extra : Extra} {r : Resolution}
    (made : a.finish extra = some r) :
    resolutionBytes r = Enc.map (keyed a.slots ++ putExtra extra) := by
  simp only [ResolutionAcc.finish, Option.bind_eq_bind, Option.bind_eq_some_iff] at made
  obtain ⟨target, aimed, agent, hasAgent, ts, hasTs, ⟨⟩⟩ := made
  simp only [ResolutionAcc.target] at aimed
  split at aimed
  · rename_i contention relation
    cases aimed
    simp [resolutionBytes, resolutionTarget, ResolutionAcc.slots, keyedFrom, contention, relation,
      hasAgent, hasTs]
  · rename_i contention relation
    cases aimed
    simp [resolutionBytes, resolutionTarget, ResolutionAcc.slots, keyedFrom, contention, relation,
      hasAgent, hasTs]
  · cases aimed

def CommitAcc.slots (a : CommitAcc) : List (Option Bytes) :=
  [a.unit.map Enc.digest, a.level.map (fun l => encCode (asU8 l)),
    a.agent.map (fun n => Enc.text n.text), a.ts.map encHlc, a.note.map Enc.digest]

theorem commit_made {a : CommitAcc} {extra : Extra} {c : Commit} (made : a.finish extra = some c) :
    commitBytes c = Enc.map (keyed a.slots ++ putExtra extra) := by
  simp only [CommitAcc.finish, Option.bind_eq_bind, Option.bind_eq_some_iff] at made
  obtain ⟨unit, hasUnit, level, hasLevel, agent, hasAgent, ts, hasTs, ⟨⟩⟩ := made
  simp [commitBytes, CommitAcc.slots, keyedFrom, hasUnit, hasLevel, hasAgent, hasTs]

def PartEntryAcc.slots (a : PartEntryAcc) : List (Option Bytes) :=
  [a.tid.map Enc.digest, a.length.map (fun n => Enc.uint n.toNat),
    a.structureHash.map (fun h => Enc.bytes h.bytes), a.rdid.map Enc.digest,
    a.lang.map (fun t => Enc.text t.text)]

theorem part_entry_made {a : PartEntryAcc} {extra : Extra} {p : PartEntry}
    (made : a.finish extra = some p) :
    encPartEntry p = Enc.map (keyed a.slots ++ putExtra extra) := by
  simp only [PartEntryAcc.finish, Option.bind_eq_bind, Option.bind_eq_some_iff] at made
  obtain ⟨tid, hasTid, length, hasLength, structure', hasStructure, rdid, hasRdid, ⟨⟩⟩ := made
  simp [encPartEntry, PartEntryAcc.slots, keyedFrom, hasTid, hasLength, hasStructure, hasRdid]

def ManifestAcc.slots (a : ManifestAcc) : List (Option Bytes) :=
  [a.aliasName.map Enc.text, a.parts.map (fun ps => Enc.array (ps.map encPartEntry)),
    a.lang.map (fun t => Enc.text t.text), a.reader.map Enc.text, a.licence.map Enc.text,
    a.carry.map (fun c => encCode (asU8 c)), a.title.map Enc.text,
    slotArray (a.creators.map Enc.text), a.published.map Enc.text,
    slotWhen (!a.identifiers.isEmpty) (encTextMap a.identifiers.entries),
    a.origin.map encSource, a.parent.map Enc.digest,
    a.parentKind.map (fun k => Enc.text k.asStr), a.supersedes.map Enc.digest,
    a.versification.map Enc.text, slotWhen a.lossy encTrue, a.raw.map (encOpaque 0xA0),
    a.partPolicy.map Enc.text, a.calendar.map (fun c => Enc.text c.asStr)]

theorem manifest_made {a : ManifestAcc} {extra : Extra} {m : Manifest}
    (made : a.finish extra = some m) :
    manifestBytes m = Enc.map (keyed a.slots ++ putExtra extra) := by
  simp only [ManifestAcc.finish, Option.bind_eq_bind, Option.bind_eq_some_iff] at made
  obtain ⟨parent, paired, aliasName, hasAlias, lang, hasLang, reader, hasReader, licence,
    hasLicence, partPolicy, hasPolicy, parts, hasParts, carry, hasCarry, ⟨⟩⟩ := made
  have halves : parent.map Prod.fst = a.parent ∧ parent.map Prod.snd = a.parentKind := by
    simp only [ManifestAcc.parentPair] at paired
    split at paired <;> cases paired <;> simp [*]
  simp [manifestBytes, ManifestAcc.slots, keyedFrom, halves, hasAlias, hasLang, hasReader,
    hasLicence, hasPolicy, hasParts, hasCarry]

def PartTextAcc.slots (a : PartTextAcc) : List (Option Bytes) :=
  [a.tid.map Enc.digest, a.text.map Enc.bytes]

omit [Unicode] in
theorem part_text_made {a : PartTextAcc} {extra : Extra} {p : PartText}
    (made : a.finish extra = some p) :
    partTextBytes p = Enc.map (keyed a.slots ++ putExtra extra) := by
  simp only [PartTextAcc.finish, Option.bind_eq_bind, Option.bind_eq_some_iff] at made
  obtain ⟨tid, hasTid, text, hasText, ⟨⟩⟩ := made
  simp [partTextBytes, PartTextAcc.slots, keyedFrom, hasTid, hasText]

def PartReadingAcc.slots (a : PartReadingAcc) : List (Option Bytes) :=
  [a.tid.map Enc.digest, a.reader.map Enc.text, a.segments.map (encOpaque 0x80),
    a.raw.map (encOpaque 0xA0)]

theorem part_reading_made {a : PartReadingAcc} {extra : Extra} {r : PartReading}
    (made : a.finish extra = some r) :
    partReadingBytes r = Enc.map (keyed a.slots ++ putExtra extra) := by
  simp only [PartReadingAcc.finish, Option.bind_eq_bind, Option.bind_eq_some_iff] at made
  obtain ⟨tid, hasTid, reader, hasReader, segments, hasSegments, ⟨⟩⟩ := made
  have same : encOpaque 0x80 (if segments = [] then [0x80] else segments) =
      encOpaque 0x80 segments := by
    cases segments <;> rfl
  simp [partReadingBytes, PartReadingAcc.slots, keyedFrom, hasTid, hasReader, hasSegments, same]

def DatingAcc.slots (a : DatingAcc) : List (Option Bytes) :=
  [a.target.map encDatingTarget, a.axis.map (fun x => encCode (asU8 x)),
    a.value.map encDatingValue, a.basis.map Enc.digest, a.agent.map (fun n => Enc.text n.text),
    a.ts.map encHlc]

theorem dating_made {a : DatingAcc} {extra : Extra} {d : Dating} (made : a.finish extra = some d) :
    datingBytes d = Enc.map (keyed a.slots ++ putExtra extra) := by
  simp only [DatingAcc.finish, Option.bind_eq_bind, Option.bind_eq_some_iff] at made
  obtain ⟨target, hasTarget, axis, hasAxis, value, hasValue, agent, hasAgent, ts, hasTs, ⟨⟩⟩ := made
  simp [datingBytes, DatingAcc.slots, keyedFrom, hasTarget, hasAxis, hasValue, hasAgent, hasTs]

def RedactionAcc.slots (a : RedactionAcc) : List (Option Bytes) :=
  [a.tid.map Enc.digest, a.agent.map (fun n => Enc.text n.text), a.ts.map encHlc,
    a.reason.map Enc.digest]

theorem redaction_made {a : RedactionAcc} {extra : Extra} {r : Redaction}
    (made : a.finish extra = some r) :
    redactionBytes r = Enc.map (keyed a.slots ++ putExtra extra) := by
  simp only [RedactionAcc.finish, Option.bind_eq_bind, Option.bind_eq_some_iff] at made
  obtain ⟨tid, hasTid, agent, hasAgent, ts, hasTs, ⟨⟩⟩ := made
  simp [redactionBytes, RedactionAcc.slots, keyedFrom, hasTid, hasAgent, hasTs]

end
end Smysl
