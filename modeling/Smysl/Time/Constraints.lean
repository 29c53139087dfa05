import Smysl.Graph.Contention
import Smysl.Surface.Names
import Smysl.Time.Interval

/-!
What rule E asks of a store, and the free constraints the store implies: the
orderings nobody wrote a dating for.
-/
namespace Smysl

/-- How well a time value is evidenced. -/
inductive TimeStatus
  | speculative
  | derived
  | cited
  | measured
  deriving DecidableEq, Repr

namespace TimeStatus

def rank : TimeStatus → Nat
  | speculative => 0
  | derived => 1
  | cited => 2
  | measured => 3

theorem rank_injective : Function.Injective rank := by
  intro a b same
  cases a <;> cases b <;> first | rfl | cases same

instance : LinearOrder TimeStatus := LinearOrder.lift' rank rank_injective

/-- Highest first. -/
def strata : List TimeStatus := [measured, cited, derived, speculative]

end TimeStatus

/-- A unit's epistemic status as a time status. -/
def ofStatus : Status → TimeStatus
  | .measured => .measured
  | .cited => .cited
  | .derived => .derived
  | _ => .speculative

/-- Which rule produced a constraint. -/
inductive FreeKind
  | quotation
  | derivation
  | supersession
  | reply
  | firstSeen
  deriving DecidableEq, Repr

namespace FreeKind

def rank : FreeKind → Nat
  | quotation => 0
  | derivation => 1
  | supersession => 2
  | reply => 3
  | firstSeen => 4

theorem rank_injective : Function.Injective rank := by
  intro a b same
  cases a <;> cases b <;> first | rfl | cases same

instance : LinearOrder FreeKind := LinearOrder.lift' rank rank_injective

end FreeKind

inductive Free
  | order (kind : FreeKind) (earlier later : Subject) (status : TimeStatus)
  | noLater (kind : FreeKind) (subject : Subject) (than : Instant) (status : TimeStatus)
  deriving DecidableEq

namespace Free

def kind : Free → FreeKind
  | order kind .. | noLater kind .. => kind

def status : Free → TimeStatus
  | order _ _ _ status | noLater _ _ _ status => status

/-- By kind, then by subject. -/
def key : Free → FreeKind ×ₗ Subject ×ₗ WithBot Subject ×ₗ WithBot Instant
  | order kind earlier later _ => toLex (kind, toLex (earlier, toLex (some later, none)))
  | noLater kind subject than _ => toLex (kind, toLex (subject, toLex (none, some than)))

end Free

/-- What a store derives from its manifests and datings. -/
structure StoreLibrary where
  manifests : BTreeMap Mid Manifest := ∅
  byTid : BTreeMap Tid (BTreeSet Uid) := ∅
  datings : BTreeMap Did Dating := ∅

def StoreLibrary.unitsWithTid (l : StoreLibrary) (tid : Tid) : List Uid :=
  ((l.byTid.get tid).getD ∅).toList

/-- A store as rule E reads it. -/
structure Corpus where
  read : StoreRead
  library : StoreLibrary

namespace Corpus

def attestationsOf (c : Corpus) (uid : Uid) : List Attestation :=
  (c.read.units.get uid).elim [] (fun u => u.attestations.toList)

def coreOf (c : Corpus) (uid : Uid) : Option UnitCore := (c.read.units.get uid).map HeldUnit.core

/-- The units that anybody has attested. -/
def attestedUnits (c : Corpus) : List Uid :=
  (c.read.units.entries.filter (fun e => !e.2.attestations.isEmpty)).map Prod.fst

/-- Units whose effective status under the strict policy is `unfounded`. -/
def isUnfounded [Blake3] (c : Corpus) (uid : Uid) : Bool :=
  c.read.interp.relations.keys.any (fun k => (ofLex k).1 == RelKind.retracts.asStr) &&
    c.read.units.contains uid && (effectiveStatus c.read .strict).get uid == some .unfounded

def withdrawals (c : Corpus) : List Withdrawal :=
  c.read.interp.withdrawals.values.flatMap BTreeSet.toList

/-- Whether a dating can name it: the store holds it. -/
def holds (c : Corpus) : Subject → Bool
  | .unit uid => c.read.containsUid uid
  | .manifest mid => c.library.manifests.contains mid

end Corpus

/-- Leave out an element that is the same as the one kept before it. -/
def dedupBy {α : Type} (same : α → α → Bool) : List α → List α
  | [] => []
  | a :: as => keepAfter a as
where
  keepAfter (last : α) : List α → List α
    | [] => [last]
    | a :: as => if same last a then keepAfter last as else last :: keepAfter a as

def repliesKind : RelKind := .extension "x.text/replies"
def quotesKind : RelKind := .extension "x.text/quotes"

/-- Each attested unit, and when it was first attested. -/
def earliestSeen (c : Corpus) : BTreeMap Uid Nat :=
  .ofList (c.attestedUnits.filterMap (fun uid =>
    ((c.attestationsOf uid).map (fun a => a.ts.wallMs.toNat)).min?.map (fun ms => (uid, ms))))

/-- Every free constraint a store implies. -/
def free (c : Corpus) : List Free :=
  let replies := c.read.relations.filterMap (fun r =>
    if r.kind = repliesKind then some (Free.order .reply (.unit r.dst) (.unit r.src) .cited)
    else none)
  let quotations := c.read.relations.filterMap (fun r =>
    if r.kind = quotesKind then
      (c.coreOf r.src).map (fun quoting =>
        Free.order .quotation (.unit r.dst) (.unit r.src) (ofStatus quoting.status))
    else none)
  let chains := c.library.manifests.entries.flatMap (fun e =>
    [(FreeKind.derivation, e.2.parent.map Prod.fst), (.supersession, e.2.supersedes)].filterMap
      (fun link => link.2.bind (fun other =>
        if c.library.manifests.contains other then
          some (Free.order link.1 (.manifest other) (.manifest e.1) .cited)
        else none)))
  let seen := (earliestSeen c).entries.filterMap (fun e =>
    if (e.2 : Int) ≤ maxInstant then
      some (Free.noLater .firstSeen (.unit e.1) (saturatingAdd e.2 1) .derived)
    else none)
  let listed := c.library.manifests.entries.filterMap (fun e =>
    let first := ((e.2.parts.flatMap (fun p => c.library.unitsWithTid p.tid)).filterMap
      (earliestSeen c).get).min?
    first.bind (fun ms =>
      if (ms : Int) ≤ maxInstant then
        some (Free.noLater .firstSeen (.manifest e.1) (saturatingAdd ms 1) .derived)
      else none))
  let all := replies ++ quotations ++ chains ++ seen ++ listed
  dedupBy (fun a b => a == b) (all.mergeSort (fun a b => a.key ≤ b.key))

end Smysl
