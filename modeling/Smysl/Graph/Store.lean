import Smysl.Graph.Interp

/-!
An append-only log and what is derived from it by folding its records: the
units with their attestations, the interpretive layer, and the attestations
still waiting for what they name.
-/
namespace Smysl
open ByteString

/-- A unit as a store holds it: its core and who attested it. -/
structure HeldUnit where
  core : UnitCore
  attestations : BTreeSet Attestation := ∅
  deriving DecidableEq

structure AppendReport where
  added : Nat
  duplicates : Nat
  bytesWritten : Nat
  deriving DecidableEq, Repr

inductive AppendError
  | textInLog (record : UInt64)
  | derivedContention (kind : UInt8)
  deriving DecidableEq, Repr

structure Store where
  records : List Record
  logLen : Nat
  logHash : Bytes32
  /-- What the rolling hash of the log has been fed. -/
  logHasher : Bytes
  /-- Attestations that named a unit or edge the store did not hold yet. -/
  pendingAttestations : List Attestation
  units : BTreeMap Uid HeldUnit
  interp : Interpretive
  recordHashes : BTreeSet Bytes32
  deriving DecidableEq

/-- A kind of contention that is derived and never written. -/
def Detected.isDerivedOnly (d : Detected) : Bool :=
  d.kind == .of .datingNotApplied || d.kind == .of .temporalInconsistency

/-- Why no log accepts a record: text, and a derived contention. -/
def unloggable : Record → Option AppendError
  | .partText _ => some (.textInLog 15)
  | .partReading _ => some (.textInLog 18)
  | .contention c =>
    if c.detected.isDerivedOnly then some (.derivedContention c.detected.kind.rawCode) else none
  | _ => none

def refuseUnloggable (records : List Record) : Except AppendError Unit :=
  match records.findSome? unloggable with
  | some e => .error e
  | none => .ok ()

/-- The records that name no unit as an endpoint. -/
def isText : Record → Bool
  | .manifest _ => true
  | .partText _ => true
  | .partReading _ => true
  | .redaction _ => true
  | .dating _ => true
  | _ => false

namespace Store
section
variable [Unicode] [Blake3]

/-- What makes two records the same record. -/
def recordHash (r : Record) : Bytes32 := hashBytes (toCbor r)

/-- An empty in-memory store. -/
def new : Store where
  records := []
  logLen := 0
  logHash := hashBytes []
  logHasher := []
  pendingAttestations := []
  units := ∅
  interp := {}
  recordHashes := ∅

/-- Attach an attestation to the unit it names, or else to the edge; none when
neither has arrived. -/
def attach (s : Store) (a : Attestation) : Option Store :=
  match s.units.get a.uid with
  | some u =>
    some { s with
      units := s.units.insert a.uid { u with attestations := u.attestations.insert a } }
  | none =>
    match s.interp.rids.get a.uid with
    | some key =>
      match s.interp.relations.get key with
      | some rel =>
        some { s with interp := { s.interp with
          relations := s.interp.relations.insert key
            { rel with attestations := rel.attestations.insert a } } }
      | none => none
    | none => none

/-- Attach an attestation, or keep it waiting. -/
def attachOrWait (s : Store) (a : Attestation) : Store :=
  match s.attach a with
  | some attached => attached
  | none => { s with pendingAttestations := s.pendingAttestations ++ [a] }

/-- Fold one record into the derived structures. -/
def absorbRecord (s : Store) (r : Record) : Store :=
  match r with
  | .unit u => { s with units := s.units.orInsert (canonicalUid u) { core := u } }
  | .attestation a => s.attachOrWait a
  | r => { s with interp := s.interp.absorbHot r }

/-- Retry the attestations still waiting. -/
def rebuildAdjacency (s : Store) : Store :=
  s.pendingAttestations.foldl attachOrWait { s with pendingAttestations := [] }

def movesEdges (records : List Record) : Bool := !records.all isText

def absorbHashed (s : Store) (records : List Record) (hashes : List Bytes32) : Store :=
  let hashed := { s with recordHashes := s.recordHashes.extend hashes }
  let folded := records.foldl absorbRecord hashed
  let logged := { folded with records := folded.records ++ records }
  if movesEdges records then logged.rebuildAdjacency else logged

def absorb (s : Store) (records : List Record) : Store :=
  s.absorbHashed records (records.map recordHash)

/-- The attestations a repeated relation carries in memory join the edge's. -/
def unionEdgeAttestations (s : Store) (repeated : List Record) : Store :=
  repeated.foldl (fun s r =>
    match r with
    | .relation rel => { s with interp := { s.interp with
        relations := s.interp.relations.modify (relKey rel) (fun existing =>
          existing.attest rel.attestations.toList) } }
    | _ => s) s

/-- Records whose hash was not held, and the repeats of the ones that were. -/
def splitFresh (held : BTreeSet Bytes32) : List Record → List Record × List Record
  | [] => ([], [])
  | r :: rs =>
    if recordHash r ∈ held then
      let (fresh, repeated) := splitFresh held rs
      (fresh, r :: repeated)
    else
      let (fresh, repeated) := splitFresh (held.insert (recordHash r)) rs
      (r :: fresh, repeated)

/-- Build in memory from records; one given twice is held once. -/
def fromRecords (records : List Record) : Store :=
  let (kept, repeated) := splitFresh ∅ records
  let bytes := toCborSeq kept
  let absorbed := new.absorbHashed kept (kept.map recordHash)
  { absorbed.unionEdgeAttestations repeated with
    logHasher := bytes
    logLen := bytes.length
    logHash := hashBytes bytes }

/-- The store of a log's complete records, repeats included. -/
def ofLog (records : List Record) (log : Bytes) : Store :=
  { new.absorb records with
    logLen := log.length
    logHash := hashBytes log
    logHasher := log }

/-- Append records, with the bytes that go to the end of the log. -/
def append (s : Store) (records : List Record) : Except AppendError (Store × AppendReport × Bytes) :=
  match refuseUnloggable records with
  | .error e => .error e
  | .ok () =>
    let (fresh, repeated) := splitFresh s.recordHashes records
    if fresh.isEmpty then
      .ok (s.unionEdgeAttestations repeated, ⟨0, repeated.length, 0⟩, [])
    else
      let bytes := toCborSeq fresh
      let absorbed := (s.absorbHashed fresh (fresh.map recordHash)).unionEdgeAttestations repeated
      .ok ({ absorbed with
          logLen := absorbed.logLen + bytes.length
          logHasher := absorbed.logHasher ++ bytes
          logHash := hashBytes (absorbed.logHasher ++ bytes) },
        ⟨fresh.length, repeated.length, bytes.length⟩, bytes)

/-- Rebuild the derived structures from the stored records alone. -/
def rebuilt (s : Store) : Store :=
  { new.absorb s.records with
    logLen := s.logLen
    logHash := s.logHash
    logHasher := s.logHasher }

/-- A store that the operations can have led to. -/
inductive Reachable : Store → Prop
  | fromRecords (records : List Record) : Reachable (fromRecords records)
  | ofLog (records : List Record) (log : Bytes) : Reachable (ofLog records log)
  | append {s s' : Store} {records : List Record} {report : AppendReport} {bytes : Bytes}
    (before : Reachable s) (run : s.append records = .ok (s', report, bytes)) : Reachable s'
  | rebuilt {s : Store} (before : Reachable s) : Reachable s.rebuilt

end
end Store
end Smysl
