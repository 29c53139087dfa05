import Smysl.Cbor.Encode
import Smysl.Core.Types.Order

/-!
The interpretive layer: what a store holds about its units rather than the
units, and the one fold every store derives it by.
-/
namespace Smysl
open ByteString

/-- A stand-in that tells the strings of an example apart: the string as a
number, modulo a prime. -/
@[reducible] def Blake3.modPrime : Blake3 where
  hash b := ⟨bigEndian 32 (b.foldl (fun n c => n * 257 + c.toNat + 1) 0 % (2 ^ 255 - 19)), by simp⟩

section
variable [Unicode] [Blake3]

/-- `hash_bytes`. -/
def hashBytes (b : Bytes) : Bytes32 := Blake3.hash b

/-- The uid of a core. -/
def canonicalUid (core : UnitCore) : Uid := ⟨hashBytes (unitCoreBytes core)⟩

/-- What an edge is hashed as; the code of its envelope keeps it from being a
unit. -/
def Relation.identity (r : Relation) : Bytes :=
  0x03 :: (utf8 r.kind.asStr ++ 0 :: (r.src.asBytes ++ r.dst.asBytes))

def Relation.uid (r : Relation) : Uid := ⟨hashBytes r.identity⟩

def RelKind.isLifecycle : RelKind → Bool
  | supersedes => true
  | retracts => true
  | _ => false

end

/-- A relation's key: `(kind, from, to)`, the canonical relation order. -/
abbrev RelKey := String ×ₗ Uid ×ₗ Uid

def relKey (r : Relation) : RelKey := toLex (r.kind.asStr, toLex (r.src, r.dst))

abbrev ThreadKey := ThreadId ×ₗ AgentId

def threadKey (t : Thread) : ThreadKey := toLex (t.id, t.owner)

structure Interpretive where
  relations : BTreeMap RelKey Relation := ∅
  /-- Each relation's rid, to its key in `relations`. -/
  rids : BTreeMap Uid RelKey := ∅
  threads : BTreeMap ThreadKey Thread := ∅
  views : BTreeMap ViewId View := ∅
  contentions : List Contention := []
  /-- Withdrawals by the rid they name, whether or not that relation has arrived. -/
  withdrawals : BTreeMap Uid (BTreeSet Withdrawal) := ∅
  resolutions : BTreeSet Resolution := ∅
  /-- Commitments by the unit they name, whether or not that unit has arrived. -/
  commits : BTreeMap Uid (BTreeSet Commit) := ∅
  deriving DecidableEq

def Relation.attest (r : Relation) (attestations : List Attestation) : Relation :=
  { r with attestations := r.attestations.extend attestations }

/-- Put one element into the set held at a key. -/
def insertAt {K V : Type} [LinearOrder K] [LinearOrder V] (m : BTreeMap K (BTreeSet V)) (k : K)
    (v : V) : BTreeMap K (BTreeSet V) :=
  m.alter k (fun o => (o.getD ∅).insert v)

namespace Interpretive
section
variable [Unicode] [Blake3]

/-- Whether `t` replaces what is held: a later one does, and of two at the same
time the one with the greater encoding. -/
def replaces (t : Thread) : Option Thread → Bool
  | none => true
  | some existing =>
    match compare existing.ts t.ts with
    | .lt => true
    | .gt => false
    | .eq => decide (toCbor (.thread existing) < toCbor (.thread t))

/-- Fold one record into the layer; a record of another layer leaves it. -/
def absorbHot (i : Interpretive) (r : Record) : Interpretive :=
  match r with
  | .relation rel =>
    { i with
      rids := i.rids.insert rel.uid (relKey rel)
      relations := i.relations.alter (relKey rel) (fun held =>
        match held with
        | some existing => existing.attest rel.attestations.toList
        | none => rel) }
  | .thread t =>
    if replaces t (i.threads.get (threadKey t)) then
      { i with threads := i.threads.insert (threadKey t) t }
    else i
  | .view v => { i with views := i.views.insert v.id v }
  | .contention c =>
    if i.contentions.any (fun e => e.id == c.id) then i
    else { i with contentions := i.contentions ++ [c] }
  | .withdrawal w => { i with withdrawals := insertAt i.withdrawals w.relation w }
  | .resolution r => { i with resolutions := i.resolutions.insert r }
  | .commit c => { i with commits := insertAt i.commits c.unit c }
  | _ => i

/-- Whether a relation has been withdrawn; one of a lifecycle kind never is. -/
def isWithdrawn (i : Interpretive) (rel : Relation) : Bool :=
  !rel.kind.isLifecycle && i.withdrawals.contains rel.uid

def relationById (i : Interpretive) (rid : Uid) : Option Relation :=
  (i.rids.get rid).bind i.relations.get

end
end Interpretive
end Smysl
