import Smysl.Lib.Routes
import Smysl.Schema.Encode

/-!
Every revision of every schema id in a store, and the chain of steps from one revision
of an id up to another.
-/
namespace Smysl

instance instLinearOrderUInt32 : LinearOrder UInt32 where
  le_refl := UInt32.le_refl
  le_trans _ _ _ := UInt32.le_trans
  le_antisymm _ _ := UInt32.le_antisymm
  le_total := UInt32.le_total
  lt_iff_le_not_ge a b := by
    simp only [UInt32.le_iff_toNat_le, UInt32.lt_iff_toNat_lt]
    omega
  toDecidableLE := inferInstance

/-- Equality of `f64`: no NaN is equal to anything, and the two zeros are equal. -/
def F64.same (a b : F64) : Bool :=
  let nan (v : F64) : Bool := v.exponent.val = 2047 && v.mantissa.val ≠ 0
  !nan a && !nan b && (a = b || a.units = 0 && b.units = 0)

mutual

def HValue.same : HValue → HValue → Bool
  | .null, .null => true
  | .bool a, .bool b => a = b
  | .int a, .int b => a = b
  | .float a, .float b => a.same b
  | .str a, .str b => a = b
  | .array a, .array b => HValue.sameItems a b
  | .object a, .object b => HValue.sameEntries a b
  | _, _ => false

def HValue.sameItems : List HValue → List HValue → Bool
  | [], [] => true
  | a :: as, b :: bs => a.same b && HValue.sameItems as bs
  | _, _ => false

def HValue.sameEntries : List (String × HValue) → List (String × HValue) → Bool
  | [], [] => true
  | (k, a) :: as, (l, b) :: bs => k = l && a.same b && HValue.sameEntries as bs
  | _, _ => false

end

def Cond.same (c d : Cond) : Bool := c.key = d.key && c.value.same d.value

def sameWhen : Option Cond → Option Cond → Bool
  | none, none => true
  | some c, some d => c.same d
  | _, _ => false

/-- Whether `rev` is past this key's retirement. -/
def Field.retiredAt (f : Field) (rev : UInt32) : Bool := f.retiredIn.any (fun r => r ≤ rev)

/-- A revision's field table: typed, opaque where it does not match, or absent. -/
inductive Fields
  | typed (table : BTreeMap String Field)
  | opaque_
  | absent

namespace Fields

def table : Fields → Option (BTreeMap String Field)
  | typed table => some table
  | opaque_ | absent => none

def get (f : Fields) (key : String) : Option Field := f.table.bind (fun t => t.get key)

end Fields

/-- An op as it was read: one this build does not know is kept as its bytes. -/
inductive HeldOp
  | known (op : LensOp)
  | unknown (tag : String) (bytes : List UInt8)

def LensOp.tag : LensOp → String
  | .renameType _ _ => "rename-type"
  | .renameRelation _ _ => "rename-relation"
  | .renameKey _ _ => "rename-key"
  | .mapValue _ _ => "map-value"
  | .splitValue _ _ _ _ => "split-value"
  | .require _ _ => "require"
  | .default _ _ _ => "default"
  | .retire _ => "retire"

/-- A step with the bytes it was received as. Steps go up: one that does not is not read. -/
structure HeldStep where
  src : UInt32
  dst : UInt32
  ops : List HeldOp
  bytes : List UInt8
  rises : src < dst

theorem first_rises : (1 : UInt32) < 2 := by decide

theorem second_rises : (2 : UInt32) < 3 := by decide

/-- One declaration of a schema id at one version. -/
structure Revision where
  id : SchemaId
  version : UInt32
  declHash : List UInt8
  types : List SchemaId
  relations : List RelKind
  fields : Fields
  lenses : List HeldStep

/-- The declarations of a store, grouped by id, and the versions declared more than once with
different bytes. -/
structure SchemaSet where
  revisionsById : BTreeMap String (List Revision)
  forks : List (String × UInt32)

inductive LensError
  | noPath (id : SchemaId) (src dst : UInt32)
  | illFormed (id : SchemaId) (src dst : UInt32) (reason : String)

def isWidening (source : Option Field) (dst : String) : Bool :=
  source.any (fun f => f.values.contains dst)

namespace HeldStep

def requires (s : HeldStep) (key : String) (when_ : Option Cond) : Bool :=
  s.ops.any fun
    | .known (.require k w) => k = key && sameWhen w when_
    | _ => false

def defaults (s : HeldStep) (key : String) (when_ : Option Cond) : Bool :=
  s.ops.any fun
    | .known (.default k _ w) => k = key && sameWhen w when_
    | _ => false

/-- A `default` needs a `require` of the same key under the same condition. -/
def unrequired (s : HeldStep) : LensOp → Option String
  | .default key _ when_ =>
    if s.requires key when_ then none
    else some ("`default " ++ key ++ "` has no `require " ++ key ++ "` under the same condition")
  | _ => none

/-- The key that an op works on, where the revision it leaves has to declare it. -/
def namedKey : LensOp → Option String
  | .renameKey src _ => some src
  | .mapValue key _ | .splitValue key _ _ _ | .retire key => some key
  | _ => none

def undeclared (s : HeldStep) (source : Fields) (op : LensOp) : Option String :=
  match source.table, namedKey op with
  | some table, some k =>
    if (table.get k).any (fun f => !f.retiredAt s.src) then none
    else some ("`" ++ op.tag ++ "` names `" ++ k ++ "`, which revision " ++ toString s.src ++
      " does not declare")
  | _, _ => none

/-- A widening needs a key beside it, required and given a default under its condition. -/
def unpaired (s : HeldStep) (source : Fields) : LensOp → Option String
  | .splitValue key _ dst add =>
    if isWidening (source.get key) dst then
      let when_ := some ⟨key, .str dst⟩
      if add.isEmpty then
        some ("`split-value " ++ key ++ "` widens `" ++ dst ++ "` and pairs no key with it")
      else
        (add.keys.find? fun k => !s.requires k when_ || !s.defaults k when_).map fun k =>
          "`split-value " ++ key ++ "` widens `" ++ dst ++ "`; `" ++ k ++
            "` needs a `require` and a `default` when " ++ key ++ " = " ++ dst
    else none
  | _ => none

end HeldStep

/-- What makes a step ill-formed against the revision it leaves, if anything does. -/
def validate (id : SchemaId) (s : HeldStep) (source : Fields) : Option LensError :=
  (s.ops.findSome? fun
    | .known op => (s.unrequired op).or ((s.undeclared source op).or (s.unpaired source op))
    | .unknown _ _ => none).map (LensError.illFormed id s.src s.dst)

/-- Of steps in a row with the same bytes the first is kept. -/
def distinctAfter (s : HeldStep) : List HeldStep → List HeldStep
  | [] => [s]
  | t :: rest => if t.bytes = s.bytes then distinctAfter s rest else s :: distinctAfter t rest

namespace SchemaSet

def empty : SchemaSet := ⟨∅, []⟩

def ids (set : SchemaSet) : List String := set.revisionsById.keys

/-- Every revision of an id, by version. -/
def revisions (set : SchemaSet) (id : SchemaId) : List Revision :=
  (set.revisionsById.get id.asStr).getD []

def insert (set : SchemaSet) (r : Revision) : SchemaSet :=
  let list := set.revisions r.id
  if list.any (fun x => x.declHash = r.declHash) then set
  else
    { revisionsById := set.revisionsById.insert r.id.asStr
        ((list ++ [r]).insertionSort fun a b =>
          a.version < b.version ∨ a.version = b.version ∧ a.declHash ≤ b.declHash)
      forks :=
        if list.any (fun x => x.version = r.version) then
          if set.forks.contains (r.id.asStr, r.version) then set.forks
          else set.forks ++ [(r.id.asStr, r.version)]
        else set.forks }

/-- The revision at a version, none when there is none or it is forked. -/
def revision (set : SchemaSet) (id : SchemaId) (version : UInt32) : Option Revision :=
  if set.forks.contains (id.asStr, version) then none
  else (set.revisions id).find? (fun r => r.version = version)

/-- Every distinct step that a revision of the id carries. -/
def steps (set : SchemaSet) (id : SchemaId) : List HeldStep :=
  match ((set.revisions id).flatMap Revision.lenses).insertionSort fun a b =>
      a.src < b.src ∨ a.src = b.src ∧
        (a.dst < b.dst ∨ a.dst = b.dst ∧ a.bytes ≤ b.bytes) with
  | [] => []
  | s :: rest => distinctAfter s rest

def fieldsAt (set : SchemaSet) (id : SchemaId) (version : UInt32) : Fields :=
  ((set.revision id version).map Revision.fields).getD .absent

/-- The steps of the chain from `src` up to `dst`: the shortest path, the first in step order
on a tie. -/
def chain (set : SchemaSet) (id : SchemaId) (src dst : UInt32) :
    Except LensError (List HeldStep) :=
  if dst < src then .error (.noPath id src dst)
  else if src = dst then .ok []
  else
    match Routes.route HeldStep.src HeldStep.dst (set.steps id) (fun v => v ≤ dst) dst.toNat
        src dst with
    | none => .error (.noPath id src dst)
    | some path =>
      match path.findSome? (fun s => validate id s (set.fieldsAt id s.src)) with
      | some bad => .error bad
      | none => .ok path

/-- A walk along the steps of an id. -/
abbrev Walk (set : SchemaSet) (id : SchemaId) : UInt32 → UInt32 → List HeldStep → Prop :=
  Routes.Walk HeldStep.src HeldStep.dst (set.steps id)

variable {set : SchemaSet} {id : SchemaId} {src dst : UInt32} {path : List HeldStep}

theorem steps_rise (s : HeldStep) (_ : s ∈ set.steps id) : s.src.toNat < s.dst.toNat := s.rises

/-- Where every step is well-formed, the chain between two revisions that steps join is one of
the walks between them. -/
theorem chain_walk (wellFormed : ∀ s ∈ set.steps id, validate id s (set.fieldsAt id s.src) = none)
    (walk : set.Walk id src dst path) :
    ∃ found, set.chain id src dst = .ok found ∧ set.Walk id src dst found := by
  obtain ⟨up, between⟩ := Routes.walk_between steps_rise walk
  rw [chain, if_neg (not_lt.mpr (UInt32.le_iff_toNat_le.mpr up))]
  by_cases same : src = dst
  · rw [if_pos same, same]
    exact ⟨[], rfl, .stay dst⟩
  · rw [if_neg same]
    have inside : ∀ s ∈ path, decide (s.dst ≤ dst) = true :=
      fun s mem => decide_eq_true (UInt32.le_iff_toNat_le.mpr (between s mem).2.2)
    obtain ⟨found, here, joins⟩ := Routes.route_walk (fun v => decide (v ≤ dst)) steps_rise
      (le_refl dst.toNat) walk inside
    rw [here]
    have clean : found.findSome? (fun s => validate id s (set.fieldsAt id s.src)) = none := by
      apply List.findSome?_eq_none_iff.mpr
      intro s mem
      exact wellFormed s ((Routes.walk_between steps_rise joins).2 s mem).1
    dsimp only
    rw [clean]
    exact ⟨found, rfl, joins⟩

end SchemaSet
end Smysl
