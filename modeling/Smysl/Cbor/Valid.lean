import Smysl.Cbor.Decode
import Smysl.Cbor.ValueReads

/-!
What the constructors and the decoders enforce beyond the types: text in normal
form, names that parse, quantised floats, unknown keys that hold complete items
and are not known ones.
-/
namespace Smysl
open ByteString Cursor Cursor.Parser Dec OrdMap

section
variable [Unicode]

/-- One complete item: `skip_item` takes all of it, whatever follows. -/
structure IsItem (raw : Bytes) : Prop where
  fits : raw.length < limit
  reads : Reads skipItem raw raw

/-- Unknown keys, where the keys below `known` are not. -/
def ExtraValid (known : Nat) (extra : Extra) : Prop :=
  ∀ e ∈ extra.entries, known ≤ e.1 ∧ e.1 < 2 ^ 16 ∧ IsItem e.2

structure SourceRef.Valid (s : SourceRef) : Prop where
  kind : s.kind.Writable
  reference : Nfc s.reference
  captured : ∀ d ∈ s.captured, d.year.toNat < 10000
  published : ∀ t ∈ s.published, Nfc t
  extra : ExtraValid 7 s.extra

structure UnitCore.Valid (u : UnitCore) : Prop where
  schema : SchemaId.parseForward u.schema.asStr = some u.schema
  gist : Nfc u.gist
  body : ∀ t ∈ u.body, Nfc t
  detail : ∀ t ∈ u.detail, Nfc t
  source : ∀ s ∈ u.source, s.Valid
  extra : ExtraValid 10 u.extra

def Attestation.Valid (a : Attestation) : Prop := ExtraValid 10 a.extra

/-- A relation's attestations are not written with it. -/
structure Relation.Valid (r : Relation) : Prop where
  kind : RelKind.parse r.kind.asStr = some r.kind
  weight : ∀ w ∈ r.weight, w.isQuantised = true
  bare : r.attestations = ∅
  extra : ExtraValid 5 r.extra

structure Step.Valid (s : Step) : Prop where
  role : s.role.Writable
  note : ∀ n ∈ s.note, Nfc n

structure Thread.Valid (t : Thread) : Prop where
  schema : t.schema.Writable
  gist : Nfc t.gist
  steps : ∀ s ∈ t.steps, s.Valid
  extra : ExtraValid 6 t.extra

/-- An estimator as a profile is written with it: the default one is not named,
and a name that is kept is not a known one. -/
def ProfileEstimator.Written : ProfileEstimator → Prop
  | unset => True
  | known e => e ≠ .utf8Div4
  | unknown s => TokenEstimator.parse s = none ∧ Nfc s

structure GranularityProfile.Valid (g : GranularityProfile) : Prop where
  profile : Nfc g.profile
  admission : g.admission.Writable
  estimator : g.estimator.Written
  extra : ExtraValid 6 g.extra

structure View.Valid (v : View) : Prop where
  requires : ∀ s ∈ v.requires.toList, SchemaId.parse s.asStr = some s
  granularity : v.granularity.Valid
  intent : Nfc v.intent
  extra : ExtraValid 7 v.extra

structure Contention.Valid (c : Contention) : Prop where
  detected : c.detected.kind.Writable
  extra : ExtraValid 5 c.extra

structure PackInfo.Valid (p : PackInfo) : Prop where
  gap : p.optimality.gap.isQuantised = true
  estimator : Nfc p.estimator
  extra : ExtraValid 8 p.extra

structure SchemaDecl.Valid (d : SchemaDecl) : Prop where
  id : SchemaId.parse d.id.asStr = some d.id
  types : ∀ t ∈ d.types, SchemaId.parse t.asStr = some t
  relations : ∀ k ∈ d.relations, RelKind.parse k.asStr = some k
  lenses : ∀ raw ∈ d.lenses, IsItem raw
  extra : ExtraValid 6 d.extra

structure Manifest.Valid (m : Manifest) : Prop where
  aliasName : Nfc m.aliasName
  parts : ∀ p ∈ m.parts, ExtraValid 5 p.extra
  reader : Nfc m.reader
  licence : Nfc m.licence
  title : ∀ t ∈ m.title, Nfc t
  creators : ∀ t ∈ m.creators, Nfc t
  published : ∀ t ∈ m.published, Nfc t
  identifiers : ∀ e ∈ m.identifiers.entries, Nfc e.1 ∧ Nfc e.2
  origin : ∀ s ∈ m.origin, s.Valid
  versification : ∀ t ∈ m.versification, Nfc t
  raw : ∀ raw ∈ m.raw, IsItem raw
  partPolicy : Nfc m.partPolicy
  extra : ExtraValid 19 m.extra

structure PartReading.Valid (r : PartReading) : Prop where
  reader : Nfc r.reader
  segments : IsItem r.segments
  raw : ∀ raw ∈ r.raw, IsItem raw
  extra : ExtraValid 4 r.extra

structure Dating.Valid (d : Dating) : Prop where
  value : ∀ t, d.value = .absolute t → Nfc t
  extra : ExtraValid 6 d.extra

/-- What a record has to satisfy to be written as something that reads back. -/
def Record.Valid : Record → Prop
  | unit u => u.Valid
  | attestation a => a.Valid
  | relation r => r.Valid
  | thread t => t.Valid
  | view v => v.Valid
  | contention c => c.Valid
  | packInfo p => p.Valid
  | schemaDecl d => d.Valid
  | labelBinding b => ExtraValid 2 b.extra
  | withdrawal w => ExtraValid 4 w.extra
  | resolution r => ExtraValid 5 r.extra
  | commit c => ExtraValid 5 c.extra
  | manifest m => m.Valid
  | partText p => ExtraValid 2 p.extra
  | partReading r => r.Valid
  | dating d => d.Valid
  | redaction r => ExtraValid 4 r.extra
  | unknown code payload => code ∉ Record.known ∧ IsItem payload

/-- An item starts, and not as null does. -/
theorem item_solid {raw : Bytes} (item : IsItem raw) : Solid raw := by
  have run := item.reads 0 [] (by simpa using item.fits)
  rw [List.append_nil] at run
  obtain ⟨out, d, spanned, _⟩ := bind_ok run
  obtain ⟨skipped, _⟩ := Steady.spanned_ok spanned
  obtain ⟨start, d₀, placed, skipped⟩ := bind_ok skipped
  cases placed
  obtain ⟨b, d₀, peeked, skipped⟩ := bind_ok skipped
  obtain ⟨_, first⟩ := peek_ok peeked
  refine ⟨b, first, ?_⟩
  rintro rfl
  cases skipped

end
end Smysl
