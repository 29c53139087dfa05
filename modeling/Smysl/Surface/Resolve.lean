import Smysl.Graph.Interp

/-!
The end of a surface parse: labels become uids. A unit's uid is taken over the uids
of what it depends on and stands on, so units are resolved by a depth-first walk that
remembers what it has resolved and marks what it is in the middle of; everything else
looks its references up by name afterwards. What is reported on the way is left out.
-/
namespace Smysl
open ByteString

/-- A reference as authored: a label, or a full uid. -/
inductive Ref
  | label (l : Label)
  | uid (u : Uid)
  deriving DecidableEq

structure RawUnit where
  label : Option Label
  schema : SchemaId
  gist : String
  body : Option String
  detail : Option String
  deps : List Ref
  grounds : List Ref
  status : Status
  source : Option SourceRef
  payload : Option Bytes
  salience : Option F32
  lang : Option LangTag

structure RawRelation where
  kind : RelKind
  src : Ref
  dst : Ref
  weight : Option F32
  note : Option Ref

inductive RawTarget
  | edge (kind : RelKind) (src dst : Ref)
  | rid (u : Uid)
  | contention (id : ContentionId)

structure RawLifecycle where
  withdraw : Bool
  target : RawTarget
  agent : AgentId
  ts : Hlc
  unit : Option Ref

structure RawCommit where
  target : Ref
  level : Commitment
  agent : AgentId
  ts : Hlc
  note : Option Ref

structure RawRedaction where
  tid : Tid
  agent : AgentId
  ts : Hlc
  reason : Option Ref

inductive DateTarget
  | part (tid : Tid)
  | manifest (mid : Mid)
  | window (tid : Tid) (fromMs toMs : UInt64)
  | unit (r : Ref)

inductive RawValue
  | absolute (text : String)
  | offset (ms : Int64)
  | relative (allen : Allen) (target : DateTarget)

structure RawDating where
  target : DateTarget
  axis : Axis
  value : RawValue
  basis : Option Ref
  agent : AgentId
  ts : Hlc

structure RawThread where
  id : ThreadId
  schema : Open ThreadSchema
  owner : AgentId
  gist : String
  steps : List (Open Role × Ref × Option String)
  ts : Hlc

structure RawView where
  id : ViewId
  roots : List Ref
  threads : BTreeSet ThreadId
  requires : BTreeSet SchemaId
  granularity : GranularityProfile
  intent : String
  lang : LangTag

inductive SourcePolicy
  | fillMissing
  | override
  deriving DecidableEq

/-- The source a unit ends up with. -/
def SourcePolicy.apply (policy : SourcePolicy) (caller : SourceRef) (own : Option SourceRef) :
    Option SourceRef :=
  match policy, own with
  | .fillMissing, some own => some own
  | _, _ => some caller

/-- What the record parsers have collected when the last line is read. -/
structure RawDocument where
  source : Option (SourceRef × SourcePolicy)
  units : List RawUnit
  relations : List RawRelation
  threads : List RawThread
  schemas : List SchemaDecl
  lifecycle : List RawLifecycle
  commits : List RawCommit
  redactions : List RawRedaction
  datings : List RawDating
  manifests : List Manifest
  view : Option RawView

structure ParseOutcome where
  records : List Record
  view : Option View
  labels : BTreeMap Label Uid
  salience : BTreeMap Uid F32

/-- `clamp(0.0, 1.0)`: what is not a number stays what it is. -/
def F32.clampUnit (v : F32) : F32 :=
  if v.isNan then v
  else if v.negative = true ∧ v.units ≠ 0 then ⟨false, 0, 0⟩
  else if v.negative = false ∧ F32.units ⟨false, 127, 0⟩ < v.units then ⟨false, 127, 0⟩
  else v

/-- Where the walk stands: the uids found, the units it is in the middle of, and the
cores built. -/
structure Resolving where
  resolved : Nat → Option Uid
  visiting : Nat → Bool
  cores : Nat → Option UnitCore

namespace Resolving

def start : Resolving := ⟨fun _ => none, fun _ => false, fun _ => none⟩

def mark (st : Resolving) (i : Nat) (on : Bool) : Resolving :=
  { st with visiting := Function.update st.visiting i on }

def keep (st : Resolving) (i : Nat) (core : UnitCore) (uid : Uid) : Resolving :=
  { st with
    resolved := Function.update st.resolved i (some uid)
    cores := Function.update st.cores i (some core) }

@[simp] theorem mark_resolved (st : Resolving) (i : Nat) (on : Bool) :
    (st.mark i on).resolved = st.resolved := rfl

@[simp] theorem mark_cores (st : Resolving) (i : Nat) (on : Bool) :
    (st.mark i on).cores = st.cores := rfl

@[simp] theorem mark_visiting (st : Resolving) (i : Nat) (on : Bool) :
    (st.mark i on).visiting = Function.update st.visiting i on := rfl

@[simp] theorem keep_visiting (st : Resolving) (i : Nat) (core : UnitCore) (uid : Uid) :
    (st.keep i core uid).visiting = st.visiting := rfl

@[simp] theorem keep_resolved (st : Resolving) (i : Nat) (core : UnitCore) (uid : Uid) :
    (st.keep i core uid).resolved = Function.update st.resolved i (some uid) := rfl

@[simp] theorem keep_cores (st : Resolving) (i : Nat) (core : UnitCore) (uid : Uid) :
    (st.keep i core uid).cores = Function.update st.cores i (some core) := rfl

end Resolving

def RawUnit.builder (u : RawUnit) (deps grounds : BTreeSet Uid) : UnitCoreBuilder where
  schema := u.schema
  gist := u.gist
  status := u.status
  body := u.body
  detail := u.detail
  deps := deps
  grounds := grounds
  source := u.source
  payload := u.payload
  lang := u.lang

/-- The position of each label's unit, the last one's where a label is given twice. -/
def labelIndex (units : List RawUnit) : BTreeMap Label Nat :=
  BTreeMap.ofList (units.zipIdx.filterMap (fun e => e.1.label.map (fun l => (l, e.2))))

/-- The uids a list of references names, by how the unit at a position is resolved.
What names nothing is dropped. -/
def referenceSet (index : BTreeMap Label Nat)
    (inner : Nat → Resolving → Option (Option Uid × Resolving)) :
    List Ref → Resolving → BTreeSet Uid → Option (BTreeSet Uid × Resolving)
  | [], st, out => some (out, st)
  | .uid u :: refs, st, out => referenceSet index inner refs st (out.insert u)
  | .label l :: refs, st, out =>
    match index.get l with
    | none => referenceSet index inner refs st out
    | some j =>
      match inner j st with
      | none => none
      | some (none, st) => referenceSet index inner refs st out
      | some (some u, st) => referenceSet index inner refs st (out.insert u)

section
variable [Unicode] [Blake3]

/-- One unit's uid, after those of what it references. A unit met again before it is
resolved is on a cycle, and the reference to it is dropped. There is no result where the
walk goes deeper than `levels`, or to a unit that is not there. -/
def resolve (units : List RawUnit) (index : BTreeMap Label Nat) :
    Nat → Nat → Resolving → Option (Option Uid × Resolving)
  | 0, _, _ => none
  | levels + 1, i, st =>
    match st.resolved i with
    | some u => some (some u, st)
    | none =>
      if st.visiting i then some (none, st)
      else
        units[i]?.bind fun u =>
          (referenceSet index (resolve units index levels) u.deps (st.mark i true) ∅).bind
            fun deps =>
              (referenceSet index (resolve units index levels) u.grounds deps.2 ∅).bind
                fun grounds =>
                  match UnitCore.new (u.builder deps.1 grounds.1) with
                  | .ok core => some (some (canonicalUid core),
                      (grounds.2.mark i false).keep i core (canonicalUid core))
                  | .error _ => some (none, grounds.2.mark i false)

/-- Every unit resolved, in the order of the document. -/
def resolveAll (units : List RawUnit) : Option Resolving :=
  (List.range units.length).foldlM
    (fun st i => (resolve units (labelIndex units) (units.length + 1) i st).map Prod.snd)
    Resolving.start

/-- The names units were declared under, with what they resolved to. -/
def declared (units : List RawUnit) (st : Resolving) : List (Label × Uid) :=
  units.zipIdx.filterMap fun e => e.1.label.bind fun l => (st.resolved e.2).map fun u => (l, u)

/-- What references resolve through: every name, the last declaration's. -/
def aliasMap (names : List (Label × Uid)) : BTreeMap Label Uid := BTreeMap.ofList names

def namesByUid (names : List (Label × Uid)) : BTreeMap Uid (List Label) :=
  names.foldl (fun m e => m.alter e.2 (fun o => o.getD [] ++ [e.1])) ∅

/-- The name a unit keeps: the first in order of those that still name it. -/
def keeper (aliases : BTreeMap Label Uid) (uid : Uid) (names : List Label) : Option Label :=
  ((names.filter (fun l => aliases.get l = some uid)).insertionSort (· ≤ ·)).head?

/-- One name for each uid. -/
def boundLabels (names : List (Label × Uid)) : BTreeMap Label Uid :=
  (namesByUid names).entries.foldl (fun labels e =>
    match keeper (aliasMap names) e.1 e.2 with
    | none => labels
    | some l => labels.insert l e.1) ∅

/-- A reference by name. -/
def Ref.lookup (aliases : BTreeMap Label Uid) : Ref → Option Uid
  | .uid u => some u
  | .label l => aliases.get l

/-- An optional reference: absent, found, or (with no result) not found. -/
def Ref.lookupOpt (aliases : BTreeMap Label Uid) : Option Ref → Option (Option Uid)
  | none => some none
  | some r => (r.lookup aliases).map some

/-- A relation between two units that are found; a note that is not is left off. -/
def RawRelation.record (aliases : BTreeMap Label Uid) (r : RawRelation) : Option Record :=
  (r.src.lookup aliases).bind fun src => (r.dst.lookup aliases).map fun dst =>
    .relation {
      kind := r.kind
      src := src
      dst := dst
      weight := r.weight.map (fun w => w.clampUnit.quantise)
      note := r.note.bind (Ref.lookup aliases)
      attestations := ∅
      extra := ∅ }

/-- A thread, without the steps whose unit is not found. -/
def RawThread.record (aliases : BTreeMap Label Uid) (t : RawThread) : Record :=
  .thread {
    id := t.id
    schema := t.schema
    owner := t.owner
    gist := t.gist
    steps := t.steps.filterMap (fun s => (s.2.1.lookup aliases).map (fun u => ⟨s.1, u, s.2.2⟩))
    ts := t.ts
    extra := ∅ }

def RawTarget.lookup (aliases : BTreeMap Label Uid) : RawTarget → Option ResolutionTarget
  | .edge kind src dst =>
    (src.lookup aliases).bind fun f => (dst.lookup aliases).map fun t =>
      .relation (Relation.uid ⟨kind, f, t, none, none, ∅, ∅⟩)
  | .rid u => some (.relation u)
  | .contention id => some (.contention id)

def RawLifecycle.record (aliases : BTreeMap Label Uid) (r : RawLifecycle) : Option Record :=
  (r.target.lookup aliases).bind fun target => (Ref.lookupOpt aliases r.unit).bind fun unit =>
    match r.withdraw, target with
    | true, .relation rid => some (.withdrawal ⟨rid, r.agent, r.ts, unit, ∅⟩)
    | false, target => some (.resolution ⟨target, r.agent, r.ts, unit, ∅⟩)
    | true, .contention _ => none

def RawCommit.record (aliases : BTreeMap Label Uid) (c : RawCommit) : Option Record :=
  (c.target.lookup aliases).bind fun unit => (Ref.lookupOpt aliases c.note).map fun note =>
    .commit ⟨unit, c.level, c.agent, c.ts, note, ∅⟩

def RawRedaction.record (aliases : BTreeMap Label Uid) (r : RawRedaction) : Option Record :=
  (Ref.lookupOpt aliases r.reason).map fun reason => .redaction ⟨r.tid, r.agent, r.ts, reason, ∅⟩

def DateTarget.lookup (aliases : BTreeMap Label Uid) : DateTarget → Option DatingTarget
  | .part tid => some (.part tid)
  | .manifest mid => some (.manifest mid)
  | .window tid fromMs toMs => some (.window tid fromMs toMs)
  | .unit r => (r.lookup aliases).map .unit

def RawValue.lookup (aliases : BTreeMap Label Uid) : RawValue → Option DatingValue
  | .absolute text => some (.absolute text)
  | .offset ms => some (.offset ms)
  | .relative allen target => (target.lookup aliases).map (.relative allen)

def RawDating.record (aliases : BTreeMap Label Uid) (d : RawDating) : Option Record :=
  (d.target.lookup aliases).bind fun target => (d.value.lookup aliases).bind fun value =>
    (Ref.lookupOpt aliases d.basis).map fun basis =>
      .dating ⟨target, d.axis, value, basis, d.agent, d.ts, ∅⟩

/-- A view of the roots that are found. -/
def RawView.view (aliases : BTreeMap Label Uid) (v : RawView) : View where
  id := v.id
  roots := BTreeSet.ofList (v.roots.filterMap (Ref.lookup aliases))
  threads := v.threads
  requires := v.requires
  granularity := v.granularity
  intent := v.intent
  lang := v.lang
  extra := ∅

namespace RawDocument

/-- The units with the caller's source applied. -/
def sourced (d : RawDocument) : List RawUnit :=
  match d.source with
  | none => d.units
  | some (caller, policy) =>
    d.units.map (fun u => { u with source := policy.apply caller u.source })

/-- The records of a document whose labels are resolved, in the order they are emitted. -/
def recordsOf (d : RawDocument) (cores : List UnitCore) (labels aliases : BTreeMap Label Uid) :
    List Record :=
  d.schemas.map .schemaDecl ++ d.manifests.map .manifest ++ cores.map .unit ++
    labels.entries.map (fun e => .labelBinding ⟨e.1, e.2, ∅⟩) ++
    d.relations.filterMap (RawRelation.record aliases) ++
    d.threads.map (RawThread.record aliases) ++
    d.lifecycle.filterMap (RawLifecycle.record aliases) ++
    d.commits.filterMap (RawCommit.record aliases) ++
    d.redactions.filterMap (RawRedaction.record aliases) ++
    d.datings.filterMap (RawDating.record aliases) ++
    (d.view.map (fun v => Record.view (v.view aliases))).toList

/-- What the salience of each unit comes to: the last one given for a uid, of the units
that have a core. -/
def salienceOf (units : List RawUnit) (st : Resolving) : BTreeMap Uid F32 :=
  BTreeMap.ofList (units.zipIdx.filterMap fun e => (st.cores e.2).bind fun _ =>
    e.1.salience.bind fun s => (st.resolved e.2).map fun u => (u, s.clampUnit.quantise))

/-- `finish`. -/
def finish (d : RawDocument) : Option ParseOutcome :=
  (resolveAll d.sourced).map fun st =>
    let names := declared d.sourced st
    let aliases := aliasMap names
    let labels := boundLabels names
    let cores := (List.range d.sourced.length).filterMap st.cores
    { records := d.recordsOf cores labels aliases
      view := d.view.map (RawView.view aliases)
      labels
      salience := salienceOf d.sourced st }

end RawDocument
end
end Smysl
