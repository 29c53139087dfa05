import Smysl.Cbor.Decode
import Smysl.Graph.Adjacency
import Smysl.Lib.Worklist

/-!
The reachable closure of a view, as a sequence of records to be read alone. What
is kept grows along the edges, and along what records name without an edge, and
a record is included when what it is about is kept.
-/
namespace Smysl
open ByteString

namespace Adjacency

/-- Outgoing neighbours along every kind of edge. -/
def out (g : Adjacency) (n : Uid) : List Uid :=
  (BTreeSet.ofList (((g.fwd.get n).getD ∅).toList.map (fun e => (ofLex e).2))).toList

/-- Everything reachable from those of the roots that are nodes, themselves
included. -/
def closure (g : Adjacency) (roots : List Uid) : BTreeSet Uid :=
  Worklist.run g.out g.order.length
    ((roots.filter (fun u => decide (u ∈ g.order))).foldl Worklist.push (∅, []))

end Adjacency

/-- What a bundle does with records this build cannot interpret. -/
inductive UnknownRecords
  | keep
  | drop
  deriving DecidableEq, Repr

structure BundleReport where
  units : Nat
  /-- Kept because a record names it and no edge reaches it. -/
  pulledInByReference : Nat
  records : Nat
  unknownRecords : Nat
  deriving DecidableEq, Repr

namespace Store
section
variable [Unicode] [Blake3]

/-- Whether both ends of the relation a rid names are kept. -/
def edgeKept (s : Store) (keep : BTreeSet Uid) (rid : Uid) : Bool :=
  (s.interp.relationById rid).any (fun rel => keep.contains rel.src && keep.contains rel.dst)

def onAKeptThing (s : Store) (keep : BTreeSet Uid) : ResolutionTarget → Bool
  | .relation rid => s.edgeKept keep rid
  | .contention id =>
    s.interp.contentions.any (fun c => c.id == id && keep.contains c.overUnit)

/-- What a record about something kept names without an edge. -/
def named (s : Store) (view : View) (keep : BTreeSet Uid) : Record → List Uid
  | .commit c => if keep.contains c.unit then c.note.toList else []
  | .withdrawal w => if s.edgeKept keep w.relation then w.reason.toList else []
  | .resolution res => if s.onAKeptThing keep res.target then res.note.toList else []
  | .thread th => if view.threads.contains th.id then th.steps.map Step.unit else []
  | _ => []

/-- And is not kept yet. -/
def wanted (s : Store) (view : View) (keep : BTreeSet Uid) : List Uid :=
  (s.records.flatMap (s.named view keep)).filter (fun u => !keep.contains u)

/-- A newly wanted unit arrives with its own closure. -/
def pull (s : Store) (keep : BTreeSet Uid) (u : Uid) : BTreeSet Uid :=
  (keep.insert u).extend (s.adjacency.closure [u]).toList

/-- Grow what is kept until nothing more is wanted, in at most so many rounds. -/
def closeKeepSet (s : Store) (view : View) : Nat → BTreeSet Uid → BTreeSet Uid
  | 0, keep => keep
  | rounds + 1, keep =>
    let added := s.wanted view keep
    if added.isEmpty then keep else s.closeKeepSet view rounds (added.foldl s.pull keep)

/-- Whatever a record could make wanted: each round but the last keeps one more
of these. -/
def nameable (s : Store) : List Uid :=
  s.records.flatMap fun r =>
    match r with
    | .commit c => c.note.toList
    | .withdrawal w => w.reason.toList
    | .resolution res => res.note.toList
    | .thread th => th.steps.map Step.unit
    | _ => []

def reachable (s : Store) (view : View) : BTreeSet Uid := s.adjacency.closure view.roots.toList

def keepSet (s : Store) (view : View) : BTreeSet Uid :=
  s.closeKeepSet view s.nameable.length (s.reachable view)

/-- Whether a record goes into the bundle; `byTid` is which units came out of a
text. -/
def included (s : Store) (byTid : BTreeMap Tid (BTreeSet Uid)) (view : View)
    (keep : BTreeSet Uid) (unknown : UnknownRecords) : Record → Bool
  | .unit u => keep.contains (canonicalUid u)
  | .attestation a => keep.contains a.uid || s.edgeKept keep a.uid
  | .relation rel => keep.contains rel.src && keep.contains rel.dst
  | .thread t => view.threads.contains t.id
  | .view v => v.id == view.id
  | .contention c => keep.contains c.overUnit
  | .labelBinding b => keep.contains b.uid
  | .withdrawal w => s.edgeKept keep w.relation
  | .resolution res => s.onAKeptThing keep res.target
  | .commit c => keep.contains c.unit
  | .schemaDecl d => s.records.any fun r =>
    match r with
    | .unit u => keep.contains (canonicalUid u) && u.schema == d.id
    | _ => false
  | .unknown _ _ => unknown == .keep
  | .manifest m => m.parts.any fun part =>
    (byTid.get part.tid).any (fun units => units.toList.any keep.contains)
  | _ => false

/-- The records a bundle puts out. -/
def emitted (s : Store) (byTid : BTreeMap Tid (BTreeSet Uid)) (view : View)
    (keep : BTreeSet Uid) (unknown : UnknownRecords) : List Record :=
  s.records.filter (s.included byTid view keep unknown)

def emitWith (s : Store) (byTid : BTreeMap Tid (BTreeSet Uid)) (view : View)
    (keep : BTreeSet Uid) (unknown : UnknownRecords) : Bytes :=
  toCborSeq (s.emitted byTid view keep unknown)

/-- The records in a sequence, and none when it does not decode. -/
def readBack (bytes : Bytes) : List Record :=
  match fromCborSeq bytes with
  | .ok (records, _) => records
  | .error _ => []

def isUnknown : Record → Bool
  | .unknown _ _ => true
  | _ => false

/-- A bundle, and what went into it. -/
def bundleReportWith (s : Store) (byTid : BTreeMap Tid (BTreeSet Uid)) (view : View)
    (unknown : UnknownRecords) : Bytes × BundleReport :=
  let keep := s.keepSet view
  let bytes := s.emitWith byTid view keep unknown
  let keptAll := match unknown with
    | .keep => bytes
    | .drop => s.emitWith byTid view keep .keep
  (bytes, {
    units := keep.toList.length
    pulledInByReference := keep.toList.length - (s.reachable view).toList.length
    records := (readBack bytes).length
    unknownRecords := ((readBack keptAll).filter isUnknown).length })

end
end Store
end Smysl
