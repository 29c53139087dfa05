import Smysl.Schema.Revisions

/-!
The lens engine: chains of steps, their hash and composition, and what a chain makes of a
unit's reading, forward and backward.
-/
namespace BTreeMap
variable {K V : Type} [LinearOrder K]

/-- `BTreeMap::remove`, without what it returns. -/
def remove (m : BTreeMap K V) (k : K) : BTreeMap K V := m.filter fun j _ => j != k

/-- Every entry put in, in order. -/
def insertAll (m : BTreeMap K V) (es : List (K × V)) : BTreeMap K V :=
  es.foldl (fun m e => m.insert e.1 e.2) m

end BTreeMap

namespace Routes
open BTreeSet Worklist

/-- A route that is found is a walk. -/
theorem walk_of_route {K E : Type} [LinearOrder K] {src dst : E → K} {edges : List E}
    {rank : K → Nat} {within : K → Bool} {long : Nat} {start target : K} {path : List E}
    (rises : ∀ e ∈ edges, rank (src e) < rank (dst e)) (enough : rank target ≤ long)
    (found : route src dst edges within long start target = some path) :
    Walk src dst edges start target path := by
  have few : remaining dst edges (begin_ start) ≤ edges.length + 1 := by
    have part : unseen (edges.map dst) (BTreeSet.empty.insert start) ≤ edges.length := by
      rw [unseen]
      exact (List.length_filter_le _ _).trans (List.length_map (f := dst)).le
    rw [remaining, begin_]
    exact Nat.add_le_add_right part 1
  have ended := search_ended target (begin_sound src dst edges start)
    (begin_explored edges within start) few
  rw [route] at found
  split at found
  · rename_i seen
    obtain ⟨whole, here, walk⟩ := back_walk rises ended.sound seen enough (.stay target)
    rw [here] at found
    cases found
    exact walk
  · cases found

end Routes

namespace Smysl
open ByteString

/-- A lensed reading of a unit: its type and payload, by name. -/
@[ext] structure UnitView where
  ty : SchemaId
  payload : BTreeMap String HValue

/-- What a lens did with one unit. -/
inductive UnitView.Mapped
  | whole
  /-- These keys hold a name or value the chain could not carry. -/
  | part (unmappable : BTreeSet String)
  /-- A step on the path has an op this build does not know. -/
  | unusable

/-- Why a chain is refused backward. -/
inductive LensRefusal
  | retire (id : SchemaId) (src dst : UInt32) (key : String)
  | notInvertible (id : SchemaId) (src dst : UInt32) (op : String)
  | unusable (id : SchemaId) (src dst : UInt32) (tag : String)
  deriving DecidableEq

/-- A declared widening, with the keys paired with it. -/
structure Widening where
  src : UInt32
  dst : UInt32
  key : String
  value : String
  paired : List String

/-- Whether what a payload holds under a key, if anything, is a value. -/
def heldSame (payload : BTreeMap String HValue) (key : String) (value : HValue) : Bool :=
  (payload.get key).any fun x => x.same value

def Cond.holds (c : Cond) (payload : BTreeMap String HValue) : Bool :=
  heldSame payload c.key c.value

/-- `holds`. -/
def holdsWhen (when_ : Option Cond) (payload : BTreeMap String HValue) : Bool :=
  when_.all fun c => c.holds payload

/-- Whether a value is one this field admits: an enum only admits its values and literals. -/
def Field.admits (f : Field) (v : HValue) : Bool :=
  match f.ty, v with
  | .enum, .str s => f.values.contains s || f.literals.contains s
  | .enum, _ => false
  | _, _ => true

namespace HeldOp

def isInvertible : HeldOp → Bool
  | known (.retire _) | unknown _ _ => false
  | known (.mapValue _ map) => decide map.values.Nodup
  | known _ => true

def isUnknown : HeldOp → Bool
  | unknown _ _ => true
  | known _ => false

def isRetire : HeldOp → Bool
  | known (.retire _) => true
  | _ => false

/-- `forward_op`. -/
def forward : HeldOp → UnitView → UnitView
  | known (.renameType src dst), v => if v.ty = src then { v with ty := dst } else v
  | known (.renameKey src dst), v =>
    match v.payload.get src with
    | some x => { v with payload := (v.payload.remove src).insert dst x }
    | none => v
  | known (.mapValue key map), v =>
    match v.payload.get key with
    | some (.str s) =>
      match map.get s with
      | some n => { v with payload := v.payload.insert key (.str n) }
      | none => v
    | _ => v
  | known (.splitValue key src dst add), v =>
    if heldSame v.payload key (.str src) then
      { v with payload := (v.payload.insert key (.str dst)).insertAll add.entries }
    else v
  | known (.default key value when_), v =>
    if !v.payload.contains key && holdsWhen when_ v.payload then
      { v with payload := v.payload.insert key value }
    else v
  | known (.retire key), v => { v with payload := v.payload.remove key }
  | known (.renameRelation _ _), v | known (.require _ _), v | unknown _ _, v => v

/-- `backward_op`. -/
def backward : HeldOp → UnitView → UnitView
  | known (.renameType src dst), v => if v.ty = dst then { v with ty := src } else v
  | known (.renameKey src dst), v =>
    match v.payload.get dst with
    | some x => { v with payload := (v.payload.remove dst).insert src x }
    | none => v
  | known (.mapValue key map), v =>
    match v.payload.get key with
    | some (.str s) =>
      match map.entries.find? fun e => e.2 == s with
      | some old => { v with payload := v.payload.insert key (.str old.1) }
      | none => v
    | _ => v
  | known (.splitValue key src dst add), v =>
    if heldSame v.payload key (.str dst) && add.entries.all fun e => heldSame v.payload e.1 e.2 then
      { v with payload := add.keys.foldl BTreeMap.remove (v.payload.insert key (.str src)) }
    else v
  | known (.default key value when_), v =>
    if heldSame v.payload key value && holdsWhen when_ v.payload then
      { v with payload := v.payload.remove key }
    else v
  | known (.renameRelation _ _), v | known (.require _ _), v | known (.retire _), v
  | unknown _ _, v => v

def relationForward : HeldOp → RelKind → RelKind
  | known (.renameRelation src dst), k => if k = src then dst else k
  | _, k => k

def relationBackward : HeldOp → RelKind → RelKind
  | known (.renameRelation src dst), k => if k = dst then src else k
  | _, k => k

/-- Why an op cannot be taken back, if it cannot. -/
def refusal (id : SchemaId) (src dst : UInt32) : HeldOp → Option LensRefusal
  | unknown tag _ => some (.unusable id src dst tag)
  | known (.retire key) => some (.retire id src dst key)
  | known op => if (known op).isInvertible then none else some (.notInvertible id src dst op.tag)

end HeldOp

namespace HeldStep

def isUsable (s : HeldStep) : Bool := !s.ops.any HeldOp.isUnknown

def isInvertible (s : HeldStep) : Bool := s.ops.all HeldOp.isInvertible

def hasRetire (s : HeldStep) : Bool := s.ops.any HeldOp.isRetire

end HeldStep

/-- The keys of a view that do not read at a revision under its fields. -/
def unmappable (view : UnitView) (fields : Fields) (rev : UInt32) (backward : Bool) :
    UnitView.Mapped :=
  match fields.table with
  | none => .whole
  | some table =>
    let bad := view.payload.entries.filter fun e =>
      match table.get e.1 with
      | some f => if f.retiredAt rev then backward else !f.admits e.2
      | none => backward
    if bad.isEmpty then .whole else .part (.ofList (bad.map Prod.fst))

/-- Whether steps lead from one revision to another. -/
def joins (src : UInt32) : List HeldStep → UInt32 → Bool
  | [], dst => src == dst
  | s :: rest, dst => s.src == src && joins s.dst rest dst

theorem joins_append {src mid dst : UInt32} {steps more : List HeldStep}
    (first : joins src steps mid = true) (next : joins mid more dst = true) :
    joins src (steps ++ more) dst = true := by
  induction steps generalizing src with
  | nil => exact beq_iff_eq.mp first ▸ next
  | cons s rest ih =>
    rw [joins, Bool.and_eq_true] at first
    rw [List.cons_append, joins, Bool.and_eq_true]
    exact ⟨first.1, ih first.2⟩

theorem walk_joins {edges : List HeldStep} {src dst : UInt32} {path : List HeldStep}
    (walk : Routes.Walk HeldStep.src HeldStep.dst edges src dst path) :
    joins src path dst = true := by
  induction walk with
  | stay n => exact beq_self_eq_true n
  | step _ _ ih => rw [joins, beq_self_eq_true, Bool.true_and, ih]

theorem chain_joins {set : SchemaSet} {id : SchemaId} {src dst : UInt32} {path : List HeldStep}
    (found : set.chain id src dst = .ok path) : joins src path dst = true := by
  rw [SchemaSet.chain] at found
  split at found
  · cases found
  split at found
  · rename_i same
    cases found
    rw [joins, same, beq_self_eq_true]
  split at found
  · cases found
  · rename_i _ walked
    split at found
    · cases found
    · cases found
      exact walk_joins (Routes.walk_of_route SchemaSet.steps_rise (le_refl dst.toNat) walked)

section
variable [Unicode] [Blake3]

/-- BLAKE3 of the chain's bytes, each step as received. -/
def chainHash (id : SchemaId) (src dst : UInt32) (steps : List HeldStep) : Bytes32 :=
  Blake3.hash (utf8 "smysl/lens-chain/1" ++ [0] ++ (Enc.head 4 4 ++ Enc.text id.asStr ++
    Enc.uint src.toNat ++ Enc.uint dst.toNat ++ Enc.head 4 steps.length ++
    steps.flatMap HeldStep.bytes))

/-- A path of steps from one revision of a schema id up to another, each with the field table of
the revision that it leaves. -/
structure LensChain where
  id : SchemaId
  src : UInt32
  dst : UInt32
  steps : List HeldStep
  sources : List Fields
  target : Fields
  hash : Bytes32
  joined : joins src steps dst = true
  paired : sources.length = steps.length
  hashed : hash = chainHash id src dst steps

namespace LensChain

/-- The field table of the revision the chain starts at. -/
def sourceFields (c : LensChain) : Fields := c.sources.head?.getD c.target

/-- The empty chain at one revision. -/
def identity (id : SchemaId) (rev : UInt32) : LensChain where
  id := id
  src := rev
  dst := rev
  steps := []
  sources := []
  target := .absent
  hash := chainHash id rev rev []
  joined := beq_self_eq_true rev
  paired := rfl
  hashed := rfl

/-- A chain from steps alone, with no field tables. -/
def fromSteps (id : SchemaId) (src dst : UInt32) (steps : List HeldStep) :
    Except LensError LensChain :=
  if joined : joins src steps dst = true then
    .ok { id, src, dst, steps, sources := List.replicate steps.length .absent, target := .absent
          hash := chainHash id src dst steps, joined, paired := List.length_replicate
          hashed := rfl }
  else .error (.noPath id src dst)

/-- `self` then `next`. Composing with an identity keeps the other side's table. -/
def compose (c next : LensChain) : Except LensError LensChain :=
  if meets : c.id = next.id ∧ c.dst = next.src then
    .ok { id := c.id, src := c.src, dst := next.dst, steps := c.steps ++ next.steps
          sources := c.sources ++ next.sources
          target :=
            match next.steps, next.target with
            | [], .absent => c.target
            | _, _ => next.target
          hash := chainHash c.id c.src next.dst (c.steps ++ next.steps)
          joined := joins_append c.joined (meets.2 ▸ next.joined)
          paired := by rw [List.length_append, List.length_append, c.paired, next.paired]
          hashed := rfl }
  else .error (.noPath c.id c.src next.dst)

def isUsable (c : LensChain) : Bool := c.steps.all HeldStep.isUsable

def isInvertible (c : LensChain) : Bool := c.steps.all fun s => s.isUsable && s.isInvertible

def hasRetire (c : LensChain) : Bool := c.steps.any HeldStep.hasRetire

/-- Every op on the path, in the order it is applied. -/
def ops (c : LensChain) : List HeldOp := c.steps.flatMap HeldStep.ops

/-- The declared widenings on the path. -/
def widenings (c : LensChain) : List Widening :=
  (c.steps.zip c.sources).flatMap fun s =>
    s.1.ops.filterMap fun
      | .known (.splitValue key _ dst add) =>
        if isWidening (s.2.get key) dst then
          some { src := s.1.src, dst := s.1.dst, key, value := dst, paired := add.keys }
        else none
      | _ => none

/-- An edge kind as the target revision names it. -/
def relationForward (c : LensChain) (kind : RelKind) : RelKind :=
  c.steps.foldl (fun k s => s.ops.foldl (fun k op => op.relationForward k) k) kind

/-- An edge kind as the source revision names it. -/
def relationBackward (c : LensChain) (kind : RelKind) : RelKind :=
  c.steps.reverse.foldl (fun k s => s.ops.reverse.foldl (fun k op => op.relationBackward k) k) kind

/-- A view at the source revision as the target revision names it. -/
def forward (c : LensChain) (view : UnitView) : UnitView × UnitView.Mapped :=
  if c.isUsable then
    let view := c.steps.foldl (fun v s => s.ops.foldl (fun v op => op.forward v) v) view
    (view, unmappable view c.target c.dst false)
  else (view, .unusable)

/-- A view at the target revision as the source revision names it: refused before anything is
applied if some op has no inverse. -/
def backward (c : LensChain) (view : UnitView) :
    Except LensRefusal (UnitView × UnitView.Mapped) :=
  match c.steps.findSome? fun s => s.ops.findSome? (HeldOp.refusal c.id s.src s.dst) with
  | some refused => .error refused
  | none =>
    let view := c.steps.reverse.foldl
      (fun v s => s.ops.reverse.foldl (fun v op => op.backward v) v) view
    .ok (view, unmappable view c.sourceFields c.src true)

end LensChain

/-- `SchemaSet::chain`: the steps with the field tables of the revisions they leave. -/
def SchemaSet.lens (set : SchemaSet) (id : SchemaId) (src dst : UInt32) :
    Except LensError LensChain :=
  match found : set.chain id src dst with
  | .error e => .error e
  | .ok steps =>
    .ok { id, src, dst, steps, sources := steps.map fun s => set.fieldsAt id s.src
          target := set.fieldsAt id dst, hash := chainHash id src dst steps
          joined := chain_joins found, paired := List.length_map _, hashed := rfl }

end

end Smysl
