import Smysl.Graph.Compact
import Smysl.Ingest.Ceiling
import Smysl.Lib.Insertion
import Smysl.Pack.Cost

/-!
Threads derived from a store: a role for each unit by the schema's rules, the most salient
of each role, an order, and then whatever the steps rest on, put in before what rests on it.
-/
namespace Smysl

/-- Roles in the order of their codes. -/
instance : LinearOrder Role :=
  LinearOrder.lift' (fun r => (WireCode.asU8 r).toNat)
    (fun _ _ same => as_u8_injective (UInt8.toNat_inj.mp same))

/-- Where a unit sits in the ordering chain. -/
inductive Position
  | first
  | last
  | middle
  | band (i n : Nat)
  deriving DecidableEq

/-- A rule for assigning a unit to a role. -/
inductive Matcher
  | type (k : KernelType)
  | sourceOf (k : RelKind)
  | targetOf (k : RelKind)
  | sourceOfExt (name : String)
  | targetOfExt (name : String)
  | statusAtLeast (s : Status)
  | salienceTop (n : Nat)
  | at_ (position : Position)
  | any
  deriving DecidableEq

/-- A schema's table: its roles in narrative order, how many units each may hold, which unit
takes which role, and whether the units' own order leads instead of the roles'. -/
structure SchemaDef where
  roles : List Role
  arity : List (Role × Nat × Nat)
  rules : List (Matcher × Role)
  inOrder : Bool

namespace SchemaDef

/-- How many units a role may hold; any number of one the table does not mention. -/
def arityOf (d : SchemaDef) (role : Role) : Nat × Nat :=
  ((d.arity.find? (fun a => a.1 == role)).map Prod.snd).getD (0, 2 ^ 64 - 1)

def positionOf (d : SchemaDef) (role : Role) : Option Nat := d.roles.idxOf? role

def analysis : SchemaDef where
  roles := [.context, .tension, .approach, .finding, .rebuttal, .implication, .next]
  arity := [(.context, 0, 2), (.tension, 1, 2), (.approach, 0, 2), (.finding, 1, 3),
    (.rebuttal, 0, 3), (.implication, 0, 2), (.next, 0, 1)]
  rules := [(.sourceOf .rebuts, .rebuttal), (.type .definition, .context),
    (.type .constraint, .context), (.type .question, .tension), (.type .observation, .tension),
    (.type .data, .tension), (.type .hypothesis, .approach), (.type .procedure, .approach),
    (.type .finding, .finding), (.type .decision, .next), (.type .claim, .implication),
    (.any, .context)]
  inOrder := false

def narrative : SchemaDef where
  roles := [.setup, .complication, .turn, .resolution, .coda]
  arity := [(.setup, 1, 1), (.complication, 0, 2), (.turn, 0, 2), (.resolution, 0, 2),
    (.coda, 0, 1)]
  rules := [(.at_ .first, .setup), (.at_ .last, .coda), (.at_ (.band 1 5), .complication),
    (.at_ (.band 2 5), .turn), (.at_ (.band 3 5), .resolution), (.any, .complication)]
  inOrder := false

def brief : SchemaDef where
  roles := [.bottomLine, .support, .risk, .ask]
  arity := [(.bottomLine, 1, 1), (.support, 1, 3), (.risk, 0, 2), (.ask, 0, 1)]
  rules := [(.sourceOf .rebuts, .risk), (.type .finding, .bottomLine), (.type .decision, .ask),
    (.type .question, .ask), (.type .evidence, .support), (.type .observation, .support),
    (.type .data, .support), (.type .hypothesis, .risk), (.any, .support)]
  inOrder := false

def qa : SchemaDef where
  roles := [.question, .evidence, .answer, .caveat]
  arity := [(.question, 1, 1), (.evidence, 0, 3), (.answer, 1, 2), (.caveat, 0, 2)]
  rules := [(.sourceOf .rebuts, .caveat), (.type .question, .question),
    (.sourceOf .answers, .answer), (.type .finding, .answer), (.type .evidence, .evidence),
    (.type .observation, .evidence), (.type .data, .evidence), (.type .hypothesis, .caveat),
    (.any, .evidence)]
  inOrder := false

def plan : SchemaDef where
  roles := [.goal, .constraint, .step, .decision, .risk]
  arity := [(.goal, 1, 1), (.constraint, 0, 3), (.step, 1, 5), (.decision, 0, 2), (.risk, 0, 2)]
  rules := [(.sourceOf .rebuts, .risk), (.type .constraint, .constraint), (.type .procedure, .step),
    (.type .decision, .decision), (.type .finding, .goal), (.type .question, .goal),
    (.type .hypothesis, .risk), (.any, .step)]
  inOrder := false

def exposition : SchemaDef where
  roles := [.introduces, .develops, .exemplifies, .concedes, .concludes]
  arity := [(.introduces, 1, 1), (.develops, 1, 4), (.exemplifies, 0, 3), (.concedes, 0, 2),
    (.concludes, 0, 1)]
  rules := [(.sourceOf .rebuts, .concedes), (.at_ .first, .introduces), (.at_ .last, .concludes),
    (.at_ (.band 0 2), .develops), (.at_ (.band 1 2), .exemplifies), (.any, .develops)]
  inOrder := true

def dialogue : SchemaDef where
  roles := [.utterance, .reply, .uptake, .reversal]
  arity := [(.utterance, 1, 4), (.reply, 0, 4), (.uptake, 0, 3), (.reversal, 0, 2)]
  rules := [(.sourceOf .rebuts, .reversal), (.targetOfExt "x.text/replies", .uptake),
    (.sourceOfExt "x.text/replies", .reply), (.any, .utterance)]
  inOrder := true

def dossier : SchemaDef where
  roles := [.question, .definition, .introduction, .characteristic, .exemplifies, .evidence,
    .support, .counter, .reported, .contrast, .openQuestion, .related, .cause, .hypothesis, .holder,
    .stance, .revision, .location, .dependent, .gap]
  arity := [(.question, 1, 1), (.definition, 0, 3), (.introduction, 0, 3), (.characteristic, 0, 3),
    (.exemplifies, 0, 3), (.evidence, 0, 5), (.support, 0, 5), (.counter, 0, 3), (.reported, 0, 3),
    (.contrast, 0, 3), (.openQuestion, 0, 3), (.related, 0, 5), (.cause, 0, 3), (.hypothesis, 0, 3),
    (.holder, 0, 3), (.stance, 0, 3), (.revision, 0, 3), (.location, 0, 3), (.dependent, 0, 5),
    (.gap, 0, 20)]
  rules := []
  inOrder := false

end SchemaDef

/-- The table for a schema; the most general where there is none. -/
def definition : ThreadSchema → SchemaDef
  | .analysis => .analysis
  | .narrative => .narrative
  | .brief => .brief
  | .qa => .qa
  | .plan => .plan
  | .exposition => .exposition
  | .dialogue => .dialogue
  | .dossier => .dossier
  | .unknown => .analysis

/-- What derivation is asked for: more or fewer of a role, and the units to keep to. -/
structure DeriveOptions where
  arity : BTreeMap Role Nat := ∅
  scope : BTreeSet Uid := ∅

structure DeriveReport where
  /-- Units inserted by coherence repair, with the step that needed them. -/
  repaired : List (Uid × Uid) := []
  /-- Roles the schema requires that no unit could fill. -/
  unfilled : List Role := []
  unselected : Nat := 0

/-- Where each unit is along the chain: in the whole graph, and within the scope. -/
structure Ordering where
  index : BTreeMap Uid Nat := ∅
  rank : BTreeMap Uid Nat := ∅
  first : BTreeSet Uid := ∅
  last : BTreeSet Uid := ∅

def Ordering.inBand (o : Ordering) (uid : Uid) (i n : Nat) : Bool :=
  if n == 0 || o.rank.isEmpty then false
  else
    match o.rank.get uid with
    | some r => r * n / o.rank.keys.length == i
    | none => false

namespace Salience

/-- Most salient first, and by uid where that leaves two as they are. -/
def ahead (sal : Salience) (a b : Uid) : Bool :=
  decide (sal.of b < sal.of a) || (decide (sal.of a = sal.of b) && decide (a ≤ b))

/-- `SalienceReport::top`. -/
def top (sal : Salience) (n : Nat) : List Uid := (sal.keys.insertionSort (sal.ahead · ·)).take n

end Salience

def Step.new (role : Role) (unit : Uid) : Step := ⟨.of role, unit, none⟩

namespace Derive
variable (store : StoreRead) (d : SchemaDef) (opts : DeriveOptions) (order : Ordering)
  (sal : Salience)

section
variable [Blake3]

def holds (ranked : List Uid) (uid : Uid) (m : Matcher) : Bool :=
  match store.units.get uid with
  | none => false
  | some unit =>
    match m with
    | .any => true
    | .type k => unit.core.schema == .kernel k
    | .statusAtLeast s => decide (s ≤ unit.core.status)
    | .sourceOf k => (store.relationsOfKind k).any (fun r => r.src == uid)
    | .targetOf k => (store.relationsOfKind k).any (fun r => r.dst == uid)
    | .sourceOfExt name => (store.relationsOfKind (.extension name)).any (fun r => r.src == uid)
    | .targetOfExt name => (store.relationsOfKind (.extension name)).any (fun r => r.dst == uid)
    | .salienceTop n => (ranked.take n).contains uid
    | .at_ .first => order.first.contains uid
    | .at_ .last => order.last.contains uid
    | .at_ .middle => !order.first.contains uid && !order.last.contains uid
    | .at_ (.band i n) => order.inBand uid i n

/-- The role of each unit in scope: that of the first rule to match. -/
def assign (scope : List Uid) : BTreeMap Uid Role :=
  scope.foldl (fun out uid =>
    match d.rules.find? (fun rule => holds store order (sal.top scope.length) uid rule.1) with
    | some (_, role) => out.insert uid role
    | none => out) ∅

end

/-- The most salient of a role, as many as it may hold. -/
def candidates (roles : BTreeMap Uid Role) (role : Role) : List Uid :=
  let sorted := ((roles.entries.filter (fun e => e.2 == role)).map Prod.fst).insertionSort
    (sal.ahead · ·)
  sorted.take (min ((opts.arity.get role).getD (d.arityOf role).2) sorted.length)

def select (roles : BTreeMap Uid Role) : BTreeMap Role (List Uid) × List Role :=
  d.roles.foldl (fun (picked, unfilled) role =>
    let chosen := candidates d opts sal roles role
    (if chosen.isEmpty then picked else picked.insert role chosen,
      if chosen.length < (d.arityOf role).1 then unfilled ++ [role] else unfilled)) (∅, [])

/-- A step, with the position of its role and of its unit. -/
structure Placed where
  rolePos : Nat
  chain : Nat
  uid : Uid
  role : Role

/-- By role, then along the chain, then the more salient, then by uid. -/
def Placed.ahead (a b : Placed) : Bool :=
  decide (a.rolePos < b.rolePos) || (a.rolePos == b.rolePos &&
    (decide (a.chain < b.chain) || (a.chain == b.chain && sal.ahead a.uid b.uid)))

def place (role : Role) (uid : Uid) : Placed where
  rolePos := if d.inOrder then 0 else (d.positionOf role).getD (2 ^ 64 - 1)
  chain := ((if d.inOrder then order.rank else order.index).get uid).getD (2 ^ 64 - 1)
  uid := uid
  role := role

def orderSteps (picked : BTreeMap Role (List Uid)) : List Step :=
  ((picked.entries.flatMap (fun e => e.2.map (place d order e.1))).insertionSort
    (Placed.ahead sal · ·)).map (fun p => Step.new p.role p.uid)

/-- What a unit rests on and the store holds, in order. -/
def heldDeps (uid : Uid) : List Uid :=
  match store.units.get uid with
  | some unit => unit.core.deps.toList.filter store.containsUid
  | none => []

/-- Insert what a step rests on and no step has, immediately before the first such step and
in its role, until nothing is missing. -/
def repair (steps : List Step) : List Step × List (Uid × Uid) :=
  Insertion.close Step.unit (heldDeps store) (fun s dep => ⟨s.role, dep, none⟩)
    store.units.keys.length (steps, [])

section
variable [Blake3]

def scope : List Uid :=
  if opts.scope.isEmpty then store.units.keys else opts.scope.toList.filter store.containsUid

/-- The steps that were selected, in the order they were given. -/
def selected : List Step :=
  orderSteps d order sal (select d opts sal (assign store d order sal (scope store opts))).1

/-- `derive_thread`, as far as its steps and its report. -/
def deriveThread (schema : ThreadSchema) : List Step × DeriveReport :=
  let d := definition schema
  let scope := scope store opts
  let (picked, unfilled) := select d opts sal (assign store d order sal scope)
  let (steps, repaired) := repair store (orderSteps d order sal picked)
  (steps, { repaired, unfilled, unselected := scope.length - steps.length })

end
end Derive
end Smysl
