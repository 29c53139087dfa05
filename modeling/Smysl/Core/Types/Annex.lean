import Smysl.Core.Types.Discourse

/-!
The remaining kernel records: contentions and what settles them, pack reports,
schema declarations, label bindings, withdrawals and commitments.
-/
namespace Smysl
open ByteString

inductive DetectionKind
  | supersessionFork
  | liveRebuttal
  | labelCollision
  | commitmentFork
  | datingNotApplied
  | temporalInconsistency
  | unknown
  deriving DecidableEq, Repr

instance : OpenCode DetectionKind where
  asU8
    | .supersessionFork => 0
    | .liveRebuttal => 1
    | .labelCollision => 2
    | .commitmentFork => 3
    | .datingNotApplied => 4
    | .temporalInconsistency => 5
    | .unknown => 255
  fromU8
    | 0 => some .supersessionFork
    | 1 => some .liveRebuttal
    | 2 => some .labelCollision
    | 3 => some .commitmentFork
    | 4 => some .datingNotApplied
    | 5 => some .temporalInconsistency
    | 255 => some .unknown
    | _ => none
  fromU8_iff c a := by
    constructor
    · intro found
      split at found <;> cases found <;> rfl
    · rintro rfl
      cases a <;> rfl
  unknown := .unknown
  unknown_code := rfl

structure Detected where
  kind : Open DetectionKind
  ts : Hlc
  deriving DecidableEq

inductive ContentionStatus
  | stillOpen
  | resolved
  | stale
  deriving DecidableEq, Repr

instance : WireCode ContentionStatus where
  asU8
    | .stillOpen => 0
    | .resolved => 1
    | .stale => 2
  fromU8
    | 0 => some .stillOpen
    | 1 => some .resolved
    | 2 => some .stale
    | _ => none
  fromU8_iff c a := by
    constructor
    · intro found
      split at found <;> cases found <;> rfl
    · rintro rfl
      cases a <;> rfl

structure Contention where
  id : ContentionId
  overUnit : Uid
  positions : List Uid
  detected : Detected
  status : ContentionStatus
  extra : Extra
  deriving DecidableEq

inductive DropReason
  | budget
  | closureCost
  | lowValue
  | outOfScope
  deriving DecidableEq, Repr

instance : WireCode DropReason where
  asU8
    | .budget => 0
    | .closureCost => 1
    | .lowValue => 2
    | .outOfScope => 3
  fromU8
    | 0 => some .budget
    | 1 => some .closureCost
    | 2 => some .lowValue
    | 3 => some .outOfScope
    | _ => none
  fromU8_iff c a := by
    constructor
    · intro found
      split at found <;> cases found <;> rfl
    · rintro rfl
      cases a <;> rfl

inductive PackMode
  | greedy
  | exact
  deriving DecidableEq, Repr

instance : WireCode PackMode where
  asU8
    | .greedy => 0
    | .exact => 1
  fromU8
    | 0 => some .greedy
    | 1 => some .exact
    | _ => none
  fromU8_iff c a := by
    constructor
    · intro found
      split at found <;> cases found <;> rfl
    · rintro rfl
      cases a <;> rfl

structure Optimality where
  mode : PackMode
  gap : F32
  deriving DecidableEq

structure PackInfo where
  budget : UInt64
  used : UInt64
  thread : Option ThreadId
  dropped : List (Uid × DropReason)
  degraded : List (Uid × Lod)
  optimality : Optimality
  estimator : String
  reserved : UInt64
  extra : Extra
  deriving DecidableEq

structure SchemaDecl where
  id : SchemaId
  version : UInt32
  types : List SchemaId
  relations : List RelKind
  payloadShape : Option Bytes
  lenses : Option Bytes
  extra : Extra
  deriving DecidableEq

structure LabelBinding where
  label : Label
  uid : Uid
  extra : Extra
  deriving DecidableEq

structure Withdrawal where
  relation : Uid
  agent : AgentId
  ts : Hlc
  reason : Option Uid
  extra : Extra
  deriving DecidableEq

inductive ResolutionTarget
  | contention (id : ContentionId)
  | relation (rid : Uid)
  deriving DecidableEq

structure Resolution where
  target : ResolutionTarget
  agent : AgentId
  ts : Hlc
  note : Option Uid
  extra : Extra
  deriving DecidableEq

inductive Commitment
  | floated
  | drafted
  | committed
  | canonical
  | retconned
  deriving DecidableEq, Repr

instance : WireCode Commitment where
  asU8
    | .floated => 0
    | .drafted => 1
    | .committed => 2
    | .canonical => 3
    | .retconned => 4
  fromU8
    | 0 => some .floated
    | 1 => some .drafted
    | 2 => some .committed
    | 3 => some .canonical
    | 4 => some .retconned
    | _ => none
  fromU8_iff c a := by
    constructor
    · intro found
      split at found <;> cases found <;> rfl
    · rintro rfl
      cases a <;> rfl

structure Commit where
  unit : Uid
  level : Commitment
  agent : AgentId
  ts : Hlc
  note : Option Uid
  extra : Extra
  deriving DecidableEq

end Smysl
