import Smysl.Schema.RuleN

/-!
A pointer lens is a schema declaration whose steps name pointers. A pointer compiles to
the pointer that each revision of each such lens spells it as.
-/
namespace Smysl.Pointer

def isPointer (k : String) : Bool := k.toList.head? = some '/'

/-- Whether a step names pointers. -/
def namesPointers (s : HeldStep) : Bool :=
  s.ops.any fun
    | .known (.renameKey src dst) => isPointer src || isPointer dst
    | .known (.retire key) => isPointer key
    | _ => false

/-- What of `p` is under `top`: nothing, or what starts with a `/`. -/
def rest (p top : String) : Option (List Char) :=
  if p = top then some []
  else if top.toList.isPrefixOf p.toList then
    let r := p.toList.drop top.toList.length
    if r.head? = some '/' then some r else none
  else none

/-- `p` with a renamed prefix replaced, if `src` is `p` or above it. -/
def moved (p src dst : String) : Option String := (rest p src).map fun r => dst ++ String.ofList r

def under (p top : String) : Bool := (rest p top).isSome

def forwardOp (p : String) : HeldOp → Option String
  | .known (.renameKey src dst) => some ((moved p src dst).getD p)
  | .known (.retire key) => if under p key then none else some p
  | _ => some p

/-- One step forward: none once retired. -/
def forward (p : String) (s : HeldStep) : Option String := s.ops.foldlM forwardOp p

def backwardOp (p : String) : HeldOp → String
  | .known (.renameKey src dst) => (moved p dst src).getD p
  | _ => p

/-- One step backward: renames undone, ops in reverse. -/
def backward (p : String) (s : HeldStep) : String := s.ops.reverse.foldl backwardOp p

/-- The pointer lenses of a store. -/
def lenses (set : SchemaSet) : List SchemaId :=
  (set.ids.filterMap SchemaId.parse).filter fun id => (set.steps id).any namesPointers

def versions (set : SchemaSet) (id : SchemaId) : List UInt32 :=
  (BTreeSet.ofList ((set.revisions id).map Revision.version)).toList

/-- Whether a step moves `p` or its parent away. -/
def movesAway (p : String) (s : HeldStep) : Bool :=
  s.ops.any fun
    | .known (.renameKey src _) => (moved p src "").isSome
    | .known (.retire key) => under p key
    | _ => false

/-- Whether a step has to do with `p` at all. -/
def touches (p : String) (s : HeldStep) : Bool :=
  s.ops.any fun
    | .known (.renameKey src dst) => (moved p src "").isSome || (moved p dst "").isSome
    | .known (.retire key) => under p key
    | _ => false

/-- The revision `p` is spelled at: the last before a step moves it or its parent away. -/
def speltAt (set : SchemaSet) (id : SchemaId) (current : UInt32) (p : String) : UInt32 :=
  ((((set.steps id).filter (movesAway p)).map HeldStep.src).min?).getD current

/-- What revision `v` spells `p` as, where revision `at_` spells it `p`. -/
def nameAt (set : SchemaSet) (id : SchemaId) (p : String) (at_ v : UInt32) : Option String :=
  if v = at_ then some p
  else if at_ < v then
    match set.chain id at_ v with
    | .ok steps => steps.foldlM forward p
    | .error _ => none
  else
    match set.chain id v at_ with
    | .ok steps => some (steps.reverse.foldl backward p)
    | .error _ => none

/-- The rows of one lens. -/
def rows (set : SchemaSet) (id : SchemaId) (p : String) : List (UInt32 × Option String) :=
  match (versions set id).getLast? with
  | none => []
  | some current =>
    if (set.steps id).any (touches p) then
      (versions set id).map fun v => (v, nameAt set id p (speltAt set id current p) v)
    else []

structure PointerPlan where
  pointer : String
  across : List (String × UInt32 × Option String)

/-- Compile `pointer(p)` against the store's pointer lenses. -/
def compile (set : SchemaSet) (p : String) : PointerPlan where
  pointer := p
  across := (lenses set).flatMap fun id => (rows set id p).map fun row => (id.asStr, row)

/-- The mapping across the revisions of one schema id. -/
def PointerPlan.mapping (plan : PointerPlan) (id : SchemaId) : List (UInt32 × Option String) :=
  (plan.across.filter fun row => row.1 = id.asStr).map Prod.snd

end Smysl.Pointer
