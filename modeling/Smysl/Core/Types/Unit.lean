import Smysl.Core.Ids
import Smysl.Core.Types.Code
import Smysl.Core.Types.Date
import Smysl.Lib.OrdMap

/-!
Units: what they assert, how well they are founded, where they come from, and
who attested them. A `UnitCore` and a `SourceRef` hold the conditions their
constructors check.
-/
namespace Smysl
open ByteString

/-- Keys a later minor version wrote, with their raw values. -/
abbrev Extra := BTreeMap Nat Bytes

inductive Status
  | unfounded
  | speculative
  | inferred
  | derived
  | cited
  | measured
  deriving DecidableEq, Repr

instance : WireCode Status where
  asU8
    | .unfounded => 0
    | .speculative => 1
    | .inferred => 2
    | .derived => 3
    | .cited => 4
    | .measured => 5
  fromU8
    | 0 => some .unfounded
    | 1 => some .speculative
    | 2 => some .inferred
    | 3 => some .derived
    | 4 => some .cited
    | 5 => some .measured
    | _ => none
  fromU8_iff c a := by
    constructor
    · intro found
      split at found <;> cases found <;> rfl
    · rintro rfl
      cases a <;> rfl

namespace Status

def requiresSource : Status → Bool
  | measured | cited => true
  | _ => false

def requiresGrounds : Status → Bool
  | derived | inferred => true
  | _ => false

end Status

/-- Levels of detail: the gist, the body, the detail. -/
inductive Lod
  | l0
  | l1
  | l2
  deriving DecidableEq, Repr

instance : WireCode Lod where
  asU8
    | .l0 => 0
    | .l1 => 1
    | .l2 => 2
  fromU8
    | 0 => some .l0
    | 1 => some .l1
    | 2 => some .l2
    | _ => none
  fromU8_iff c a := by
    constructor
    · intro found
      split at found <;> cases found <;> rfl
    · rintro rfl
      cases a <;> rfl

instance : LinearOrder Lod :=
  LinearOrder.lift' (fun l => (asU8 l).toNat)
    (fun _ _ same => as_u8_injective (UInt8.toNat_inj.mp same))

inductive SourceKind
  | url
  | file
  | metric
  | tool
  | doc
  | node
  | unknown
  deriving DecidableEq, Repr

instance : OpenCode SourceKind where
  asU8
    | .url => 0
    | .file => 1
    | .metric => 2
    | .tool => 3
    | .doc => 4
    | .node => 5
    | .unknown => 255
  fromU8
    | 0 => some .url
    | 1 => some .file
    | 2 => some .metric
    | 3 => some .tool
    | 4 => some .doc
    | 5 => some .node
    | 255 => some .unknown
    | _ => none
  fromU8_iff c a := by
    constructor
    · intro found
      split at found <;> cases found <;> rfl
    · rintro rfl
      cases a <;> rfl
  unknown := .unknown
  unknown_code := rfl

/-- Where a unit's content comes from. A span names bytes of a manifestation. -/
structure SourceRef where
  kind : Open SourceKind
  reference : String
  captured : Option Date
  observed : Option UInt64
  published : Option String
  span : Option (UInt64 × UInt64)
  manifest : Option Mid
  extra : Extra
  span_forward : ∀ p, span = some p → p.1 < p.2
  span_located : span.isSome = true → manifest.isSome = true
  deriving DecidableEq

theorem SourceRef.no_span : ∀ p : UInt64 × UInt64, none = some p → p.1 < p.2 := by
  rintro p ⟨⟩

theorem SourceRef.no_span_located : (none : Option (UInt64 × UInt64)).isSome = true →
    (none : Option Mid).isSome = true := id

structure UnitCoreBuilder where
  schema : SchemaId
  gist : String
  status : Status
  body : Option String := none
  detail : Option String := none
  deps : BTreeSet Uid := ∅
  grounds : BTreeSet Uid := ∅
  source : Option SourceRef := none
  payload : Option Bytes := none
  lang : Option LangTag := none
  extra : Extra := ∅

structure UnitCore where
  schema : SchemaId
  gist : String
  body : Option String
  detail : Option String
  deps : BTreeSet Uid
  grounds : BTreeSet Uid
  status : Status
  source : Option SourceRef
  payload : Option Bytes
  lang : Option LangTag
  extra : Extra
  gist_present : isBlank gist = false
  body_nonempty : body ≠ some ""
  detail_nonempty : detail ≠ some ""
  detail_has_body : detail.isSome = true → body.isSome = true
  authored : status ≠ .unfounded
  sourced : status.requiresSource = true → source.isSome = true
  grounded : status.requiresGrounds = true → grounds.isEmpty = false
  deriving DecidableEq

inductive ShapeError
  | missingGist
  | detailWithoutBody
  | groundsRequired
  | sourceRequired
  | unfoundedAuthored
  deriving DecidableEq, Repr

/-- Normalised text, where empty text is no text. -/
def filledText [Unicode] (text : Option String) : Option String :=
  (text.map normalise).filter (· ≠ "")

@[simp] theorem filled_text_none [Unicode] : filledText none = none := rfl

theorem filled_text_nonempty [Unicode] (text : Option String) : filledText text ≠ some "" := by
  intro empty
  simp [filledText, Option.filter_eq_some_iff] at empty

namespace UnitCore

def new [Unicode] (b : UnitCoreBuilder) : Except ShapeError UnitCore :=
  let gist := normalise b.gist
  let body := filledText b.body
  let detail := filledText b.detail
  if blank : isBlank gist = true then .error .missingGist
  else if bodyless : detail.isSome = true ∧ body.isNone = true then .error .detailWithoutBody
  else if unfounded : b.status = .unfounded then .error .unfoundedAuthored
  else if unsourced : b.status.requiresSource = true ∧ b.source.isNone = true then
    .error .sourceRequired
  else if ungrounded : b.status.requiresGrounds = true ∧ b.grounds.isEmpty = true then
    .error .groundsRequired
  else .ok {
    schema := b.schema
    gist, body, detail
    deps := b.deps
    grounds := b.grounds
    status := b.status
    source := b.source
    payload := b.payload
    lang := b.lang
    extra := b.extra
    gist_present := by simpa using blank
    body_nonempty := filled_text_nonempty _
    detail_nonempty := filled_text_nonempty _
    detail_has_body := fun held => by
      by_contra missing
      exact bodyless ⟨held, by simpa using missing⟩
    authored := unfounded
    sourced := fun needed => by
      by_contra missing
      exact unsourced ⟨needed, by simpa using missing⟩
    grounded := fun needed => by
      by_contra missing
      exact ungrounded ⟨needed, by simpa using missing⟩ }

theorem new_ok [Unicode] {b : UnitCoreBuilder} {u : UnitCore} (made : new b = .ok u) :
    u.schema = b.schema ∧ u.gist = normalise b.gist ∧ u.body = filledText b.body ∧
      u.detail = filledText b.detail ∧ u.deps = b.deps ∧ u.grounds = b.grounds ∧
      u.status = b.status ∧ u.source = b.source ∧ u.payload = b.payload ∧ u.lang = b.lang ∧
      u.extra = b.extra := by
  unfold new at made
  dsimp only at made
  split_ifs at made
  cases made
  simp

/-- The constructor returns a unit whose text is already normal. -/
theorem new_of_valid [Unicode] (u : UnitCore) (gist : Unicode.isNfc u.gist = true)
    (body : filledText u.body = u.body) (detail : filledText u.detail = u.detail) :
    new ⟨u.schema, u.gist, u.status, u.body, u.detail, u.deps, u.grounds, u.source, u.payload,
      u.lang, u.extra⟩ = .ok u := by
  have bodied : ¬ (u.detail.isSome = true ∧ u.body.isNone = true) := by
    rintro ⟨held, missing⟩
    have some := u.detail_has_body held
    simp_all
  have sourced : ¬ (u.status.requiresSource = true ∧ u.source.isNone = true) := by
    rintro ⟨needed, missing⟩
    have some := u.sourced needed
    simp_all
  have grounded : ¬ (u.status.requiresGrounds = true ∧ u.grounds.isEmpty = true) := by
    rintro ⟨needed, missing⟩
    have some := u.grounded needed
    simp_all
  unfold new
  simp only [normalise_of_nfc gist, body, detail]
  rw [dif_neg (by rw [u.gist_present]; simp), dif_neg bodied, dif_neg u.authored, dif_neg sourced,
    dif_neg grounded]

/-- The text at a level, where the unit has one. -/
def textAt (u : UnitCore) : Lod → Option String
  | .l0 => some u.gist
  | .l1 => u.body
  | .l2 => u.detail

def maxLod (u : UnitCore) : Lod :=
  if u.detail.isSome then .l2 else if u.body.isSome then .l1 else .l0

def isGistOnly (u : UnitCore) : Bool := u.body.isNone && u.detail.isNone

end UnitCore

/-- A hybrid logical clock reading. -/
structure Hlc where
  wallMs : UInt64
  counter : UInt32
  agent : AgentId
  deriving DecidableEq

namespace Hlc

/-- The derived order: by wall clock, then counter, then agent. -/
def rank (h : Hlc) : ℕ ×ₗ ℕ ×ₗ AgentId :=
  toLex (h.wallMs.toNat, toLex (h.counter.toNat, h.agent))

theorem rank_injective : Function.Injective rank := by
  rintro ⟨wall, counter, agent⟩ ⟨wall', counter', agent'⟩ same
  simp only [rank, EmbeddingLike.apply_eq_iff_eq, Prod.mk.injEq, UInt64.toNat_inj,
    UInt32.toNat_inj] at same
  simp [same]

instance : LinearOrder Hlc := LinearOrder.lift' rank rank_injective

end Hlc

inductive Op
  | authored
  | transformed
  | imported
  | attested
  deriving DecidableEq, Repr

instance : WireCode Op where
  asU8
    | .authored => 0
    | .transformed => 1
    | .imported => 2
    | .attested => 3
  fromU8
    | 0 => some .authored
    | 1 => some .transformed
    | 2 => some .imported
    | 3 => some .attested
    | _ => none
  fromU8_iff c a := by
    constructor
    · intro found
      split at found <;> cases found <;> rfl
    · rintro rfl
      cases a <;> rfl

inductive Rung
  | computed
  | document
  | web
  | model
  deriving DecidableEq, Repr

instance : WireCode Rung where
  asU8
    | .computed => 0
    | .document => 1
    | .web => 2
    | .model => 3
  fromU8
    | 0 => some .computed
    | 1 => some .document
    | 2 => some .web
    | 3 => some .model
    | _ => none
  fromU8_iff c a := by
    constructor
    · intro found
      split at found <;> cases found <;> rfl
    · rintro rfl
      cases a <;> rfl

structure Attestation where
  uid : Uid
  agent : AgentId
  hop : UInt32
  parents : BTreeSet Uid
  ts : Hlc
  op : Op
  rung : Rung
  recipe : Option Bytes32
  family : Option Bytes32
  sig : Option Bytes
  extra : Extra
  deriving DecidableEq

/-- A map as the derived order compares it: entry by entry. -/
def Extra.rank (extra : Extra) : List (ℕ ×ₗ Bytes) := extra.entries.map toLex

theorem Extra.rank_injective : Function.Injective Extra.rank := by
  rintro ⟨entries, asc⟩ ⟨entries', asc'⟩ same
  have eq : entries = entries' := List.map_injective_iff.mpr toLex.injective same
  cases eq
  rfl

theorem to_list_injective {α : Type} : Function.Injective (Option.toList : Option α → List α) := by
  intro a b same
  cases a <;> cases b <;> simp_all

namespace Attestation

/-- The derived order: field by field; an absent field is below a present one. -/
def rank (a : Attestation) : Uid ×ₗ AgentId ×ₗ ℕ ×ₗ List Uid ×ₗ Hlc ×ₗ ℕ ×ₗ ℕ ×ₗ
    List Bytes32 ×ₗ List Bytes32 ×ₗ List Bytes ×ₗ List (ℕ ×ₗ Bytes) :=
  toLex (a.uid, toLex (a.agent, toLex (a.hop.toNat, toLex (a.parents.toList, toLex (a.ts,
    toLex ((asU8 a.op).toNat, toLex ((asU8 a.rung).toNat, toLex (a.recipe.toList,
      toLex (a.family.toList, toLex (a.sig.toList, Extra.rank a.extra))))))))))

theorem rank_injective : Function.Injective rank := by
  rintro ⟨uid, agent, hop, parents, ts, op, rung, recipe, family, sig, extra⟩
    ⟨uid', agent', hop', parents', ts', op', rung', recipe', family', sig', extra'⟩ same
  simp only [rank, EmbeddingLike.apply_eq_iff_eq, Prod.mk.injEq, UInt32.toNat_inj,
    UInt8.toNat_inj, as_u8_injective.eq_iff, BTreeSet.toList_inj, to_list_injective.eq_iff,
    Extra.rank_injective.eq_iff] at same
  simp [same]

instance : LinearOrder Attestation := LinearOrder.lift' rank rank_injective

end Attestation
end Smysl
