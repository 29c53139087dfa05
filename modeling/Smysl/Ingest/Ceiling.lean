import Smysl.Surface.Names
import Smysl.Graph.Survivors

/-!
Rule T at the boundary: a unit whose status is above what its rung allows is rebuilt at the
strongest status its own shape supports. The rebuild names the fields it carries over, and
the language and the unknown keys are not among them.
-/
namespace Smysl

namespace Status

theorem rank_injective : Function.Injective (fun s : Status => (asU8 s).toNat) :=
  fun _ _ same => as_u8_injective (UInt8.toNat_inj.mp same)

/-- From the unfounded up to the measured. -/
instance : LinearOrder Status := LinearOrder.lift' _ rank_injective

end Status

namespace Rung

def asStr : Rung → String
  | computed => "computed"
  | document => "document"
  | web => "web"
  | model => "model"

/-- The highest status a rung may assign. -/
def ceiling : Rung → Status
  | computed => .derived
  | document => .cited
  | web => .cited
  | model => .inferred

end Rung

namespace UnitCore

/-- Whether a unit has what a status of it would require. -/
def supports (core : UnitCore) : Status → Bool
  | .measured | .cited => core.source.isSome
  | .derived | .inferred => !core.grounds.isEmpty
  | _ => true

/-- The strongest status at or below a cap that this unit's shape can carry. -/
def attainable (core : UnitCore) (cap : Status) : Status :=
  (Status.all.reverse.find? (fun s =>
    !(decide (cap < s) || s == .unfounded) && core.supports s)).getD .speculative

/-- The statuses an author may give a unit that has what they require, up to a cap. -/
def Attainable (core : UnitCore) (cap s : Status) : Prop :=
  s ≤ cap ∧ s ≠ .unfounded ∧ core.supports s = true

theorem attainable_spec (core : UnitCore) {cap : Status} (above : cap ≠ .unfounded) :
    core.Attainable cap (core.attainable cap) ∧
      ∀ s, core.Attainable cap s → s ≤ core.attainable cap := by
  have floor : core.Attainable cap .speculative := by
    refine ⟨?_, by decide, rfl⟩
    cases cap <;> first | exact absurd rfl above | decide
  have chosen (s : Status) : core.Attainable cap s ↔
      (!(decide (cap < s) || s == .unfounded) && core.supports s) = true := by
    rw [Attainable, Bool.and_eq_true, Bool.not_eq_true', Bool.or_eq_false_iff,
      decide_eq_false_iff_not, not_lt, beq_eq_false_iff_ne, and_assoc]
  rw [attainable]
  cases found : Status.all.reverse.find? (fun s =>
      !(decide (cap < s) || s == .unfounded) && core.supports s) with
  | none =>
    have none_ := List.find?_eq_none.mp found .speculative (by decide)
    exact absurd ((chosen _).mp floor) none_
  | some t =>
    obtain ⟨good, before, after, split, others⟩ := List.find?_eq_some_iff_append.mp found
    refine ⟨(chosen t).mpr good, fun s attains => ?_⟩
    have descending : Status.all.reverse.Pairwise (· ≥ ·) := by decide
    have mem : s ∈ Status.all.reverse := by
      cases s <;> decide
    rw [split] at mem descending
    rcases List.mem_append.mp mem with earlier | later
    · have refused := others s earlier
      rw [(chosen s).mp attains] at refused
      cases refused
    · rcases List.mem_cons.mp later with rfl | later
      · exact le_rfl
      · exact List.rel_of_pairwise_cons (List.pairwise_append.mp descending).2.1 later

/-- A unit as its constructor is given it. -/
def builder (core : UnitCore) : UnitCoreBuilder :=
  ⟨core.schema, core.gist, core.status, core.body, core.detail, core.deps, core.grounds,
    core.source, core.payload, core.lang, core.extra⟩

/-- A unit as its constructor leaves it: its texts are normal. -/
def Shaped [Unicode] (core : UnitCore) : Prop := UnitCore.new core.builder = .ok core

end UnitCore

namespace Ceiling

/-- A diagnostic `SMY-E033`, on a unit where there is one to name. -/
structure Downgrade where
  subject : Option Uid
  message : String
  deriving DecidableEq

/-- What the ceiling did to one unit. -/
structure Applied where
  core : UnitCore
  /-- The status asked for, where it is not the one that was got. -/
  claimed : Option Status
  diagnostics : List Downgrade
  deriving DecidableEq

def Applied.wasDowngraded (a : Applied) : Bool := a.claimed.isSome

/-- What the rebuild is given. -/
def lowering (core : UnitCore) (cap : Status) : UnitCoreBuilder where
  schema := core.schema
  gist := core.gist
  status := cap
  deps := core.deps
  grounds := core.grounds
  body := core.body
  detail := core.detail
  source := core.source
  payload := core.payload

section
variable [Unicode] [Blake3]

/-- Apply rule T to one unit. -/
def apply (core : UnitCore) (rung : Rung) (label : Option String) : Applied :=
  let ceiling := rung.ceiling
  if core.status ≤ ceiling then ⟨core, none, []⟩
  else
    let cap := core.attainable ceiling
    match UnitCore.new (lowering core cap) with
    | .error _ =>
      ⟨core, none, [⟨none, "status " ++ core.status.asStr ++ " exceeds the " ++ rung.asStr ++
        " ceiling of " ++ cap.asStr ++ ", and the unit could not be rebuilt at " ++ cap.asStr⟩]⟩
    | .ok lowered =>
      let why := if cap < ceiling then
          "; capped at " ++ cap.asStr ++ " rather than " ++ ceiling.asStr ++
            ", which its shape cannot support"
        else "; capped at " ++ cap.asStr
      ⟨lowered, some core.status, [⟨some (canonicalUid lowered), label.getD "unit" ++ " claimed " ++
        core.status.asStr ++ " from a " ++ rung.asStr ++ " source" ++ why⟩]⟩

omit [Blake3] in
/-- The constructor returns a unit whose texts it would leave as they are. -/
theorem shaped_iff (core : UnitCore) : core.Shaped ↔ normalise core.gist = core.gist ∧
    filledText core.body = core.body ∧ filledText core.detail = core.detail := by
  constructor
  · intro shaped
    obtain ⟨_, gist, body, detail, _⟩ := UnitCore.new_ok shaped
    exact ⟨gist.symm, body.symm, detail.symm⟩
  · rintro ⟨gist, body, detail⟩
    have bodied : ¬ (core.detail.isSome = true ∧ core.body.isNone = true) := by
      rintro ⟨held, missing⟩
      have some_ := core.detail_has_body held
      simp_all
    have sourced : ¬ (core.status.requiresSource = true ∧ core.source.isNone = true) := by
      rintro ⟨needed, missing⟩
      have some_ := core.sourced needed
      simp_all
    have grounded : ¬ (core.status.requiresGrounds = true ∧ core.grounds.isEmpty = true) := by
      rintro ⟨needed, missing⟩
      have some_ := core.grounded needed
      simp_all
    unfold UnitCore.Shaped UnitCore.new UnitCore.builder
    simp only [gist, body, detail]
    rw [dif_neg (by rw [core.gist_present]; simp), dif_neg bodied, dif_neg core.authored,
      dif_neg sourced, dif_neg grounded]

/-- The unit at a status its shape carries, without its language and its unknown keys. -/
def lowered (core : UnitCore) (cap : Status) (authored : cap ≠ .unfounded)
    (supported : core.supports cap = true) : UnitCore :=
  { core with
    status := cap
    lang := none
    extra := ∅
    authored := authored
    sourced := by
      intro needed
      cases cap <;> first | exact supported | cases needed
    grounded := by
      intro needed
      have grounded : (!core.grounds.isEmpty) = true := by
        cases cap <;> first | exact supported | cases needed
      rw [Bool.not_eq_true'] at grounded
      exact grounded }

/-- What the ceiling makes of a unit above it. -/
theorem apply_above {core : UnitCore} (shaped : core.Shaped) {rung : Rung}
    (above : ¬ core.status ≤ rung.ceiling) (label : Option String) :
    ∃ authored supported message,
      apply core rung label =
        ⟨lowered core (core.attainable rung.ceiling) authored supported, some core.status,
          [⟨some (canonicalUid (lowered core (core.attainable rung.ceiling) authored supported)),
            message⟩]⟩ := by
  have above_ : rung.ceiling ≠ .unfounded := by cases rung <;> decide
  obtain ⟨_, authored, supported⟩ := (core.attainable_spec above_).1
  refine ⟨authored, supported, ?_⟩
  have normal := (shaped_iff core).mp shaped
  have made : UnitCore.new (lowering core (core.attainable rung.ceiling)) =
      .ok (lowered core (core.attainable rung.ceiling) authored supported) :=
    (shaped_iff (lowered core (core.attainable rung.ceiling) authored supported)).mpr normal
  rw [apply, if_neg above]
  dsimp only
  rw [made]
  exact ⟨_, rfl⟩

/-- Every field but the status is the same. -/
structure SameBut (a b : UnitCore) : Prop where
  schema : a.schema = b.schema
  gist : a.gist = b.gist
  body : a.body = b.body
  detail : a.detail = b.detail
  deps : a.deps = b.deps
  grounds : a.grounds = b.grounds
  source : a.source = b.source
  payload : a.payload = b.payload
  lang : a.lang = b.lang
  extra : a.extra = b.extra

/-- What rule T promises of a unit at a rung. -/
structure Caps (core : UnitCore) (rung : Rung) (label : Option String) : Prop where
  within : (apply core rung label).core.status ≤ rung.ceiling
  strongest : if core.status ≤ rung.ceiling then (apply core rung label).core.status = core.status
    else core.Attainable rung.ceiling (apply core rung label).core.status ∧
      ∀ s, core.Attainable rung.ceiling s → s ≤ (apply core rung label).core.status
  unchanged : SameBut (apply core rung label).core core
  reported : ((apply core rung label).wasDowngraded = true ↔
      (apply core rung label).core.status ≠ core.status) ∧
    ((apply core rung label).diagnostics ≠ [] ↔
      (apply core rung label).core.status ≠ core.status)
  again : ∀ label', apply (apply core rung label).core rung label' =
    ⟨(apply core rung label).core, none, []⟩

theorem apply_within {core : UnitCore} {rung : Rung} (within : core.status ≤ rung.ceiling)
    (label : Option String) : apply core rung label = ⟨core, none, []⟩ := if_pos within

/-- A status and nothing else is capped, except that a unit above the ceiling loses its language
and its unknown keys. -/
theorem caps_iff (core : UnitCore) (shaped : core.Shaped) (rung : Rung) (label : Option String) :
    Caps core rung label ↔
      (core.status ≤ rung.ceiling ∨ core.lang = none ∧ core.extra = ∅) := by
  by_cases within : core.status ≤ rung.ceiling
  · refine iff_of_true ?_ (Or.inl within)
    have made := apply_within within
    constructor
    · rw [made]
      exact within
    · rw [if_pos within, made]
    · rw [made]
      constructor <;> rfl
    · rw [made]
      exact ⟨iff_of_false (fun none_ => nomatch none_) (fun moved => moved rfl),
        iff_of_false (fun some_ => some_ rfl) (fun moved => moved rfl)⟩
    · intro label'
      rw [made, made]
  · obtain ⟨authored, supported, message, made⟩ := apply_above shaped within label
    have above_ : rung.ceiling ≠ .unfounded := by cases rung <;> decide
    have spec := core.attainable_spec above_
    have moved : core.attainable rung.ceiling ≠ core.status :=
      fun same => within (same ▸ spec.1.1)
    rw [or_iff_right within]
    constructor
    · intro caps
      have kept := caps.unchanged
      rw [made] at kept
      exact ⟨kept.lang.symm, kept.extra.symm⟩
    · rintro ⟨lang, extra⟩
      constructor
      · rw [made]
        exact spec.1.1
      · rw [if_neg within, made]
        exact spec
      · rw [made]
        exact ⟨rfl, rfl, rfl, rfl, rfl, rfl, rfl, rfl, lang.symm, extra.symm⟩
      · rw [made]
        exact ⟨iff_of_true rfl moved, iff_of_true (fun none_ => nomatch none_) moved⟩
      · intro label'
        rw [made]
        exact apply_within spec.1.1 label'

end

section
local instance plainCeilingText : Unicode := .plain
local instance modPrimeCeilingHash : Blake3 := .modPrime

/-- A measured claim with a source, in a language or in none. -/
def measuredClaim (lang : Option LangTag) : UnitCore :=
  { bareClaim "a" present_a ∅ with
    status := .measured
    source := some ⟨⟨.metric, none, by simp⟩, "m", none, none, none, none, none, ∅,
      SourceRef.no_span, SourceRef.no_span_located⟩
    lang := lang
    authored := by simp
    sourced := fun _ => rfl
    grounded := by simp [Status.requiresGrounds] }

theorem measured_claim_shaped (lang : Option LangTag) : (measuredClaim lang).Shaped := by
  rw [shaped_iff]
  exact ⟨rfl, rfl, rfl⟩

theorem caps_without_language : Caps (measuredClaim none) .document none ↔
    ((measuredClaim none).status ≤ Rung.document.ceiling ∨
      (measuredClaim none).lang = none ∧ (measuredClaim none).extra = ∅) :=
  caps_iff _ (measured_claim_shaped none) .document none

def english : LangTag := ⟨"en", en_accepted⟩

/-- Capped, a claim is in no language any more. -/
theorem capped_language_lost : (measuredClaim (some english)).Shaped ∧
    (apply (measuredClaim (some english)) .document none).core.status = .cited ∧
    (apply (measuredClaim (some english)) .document none).core.lang = none ∧
    (measuredClaim (some english)).lang = some english := by
  refine ⟨measured_claim_shaped _, ?_, ?_, rfl⟩ <;> decide +kernel

end
end Ceiling
end Smysl
