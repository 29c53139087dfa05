import Smysl.Graph.Sound
import Smysl.Lib.OrdMapRel

/-!
The reference graph of a store and the index derived from it. A node is a uid:
the dense ids of the adjacency are the positions of the uids in ascending
order, so an order by id is the order by uid.
-/
namespace Smysl
open ByteString

/-- What kind of edge connects two units. -/
inductive EdgeKind
  | deps
  | grounds
  | kernel (code : UInt8)
  | extension (index : UInt16)
  deriving DecidableEq, Repr

namespace EdgeKind

/-- The wire code used in the index, which is also the order. -/
def code : EdgeKind → Nat
  | deps => 0
  | grounds => 1
  | kernel c => 2 + c.toNat
  | extension i => 1024 + i.toNat

theorem code_injective : Function.Injective code := by
  intro a b same
  cases a <;> cases b <;> simp only [code] at same
  case kernel.kernel c d =>
    have eq : c.toNat = d.toNat := by omega
    rw [UInt8.toNat_inj.mp eq]
  case extension.extension i j =>
    have eq : i.toNat = j.toNat := by omega
    rw [UInt16.toNat_inj.mp eq]
  all_goals first
    | rfl
    | omega
    | (rename_i c d; have := UInt8.toNat_lt c; omega)
    | (rename_i c d; have := UInt8.toNat_lt d; omega)

instance : LinearOrder EdgeKind := LinearOrder.lift' code code_injective

end EdgeKind

/-- An edge and its other end. -/
abbrev Edge := EdgeKind ×ₗ Uid

structure Adjacency where
  order : List Uid
  present : BTreeSet Uid
  fwd : BTreeMap Uid (BTreeSet Edge)
  rev : BTreeMap Uid (BTreeSet Edge)
  /-- The extension kinds, interned. -/
  extensions : List String
  deriving DecidableEq

namespace Adjacency

/-- `EdgeKind::kernel`, or the index an extension kind was interned at. -/
def edgeKind (extensions : List String) (kind : RelKind) : EdgeKind :=
  match kind.code with
  | some c => .kernel c
  | none => .extension (UInt16.ofNat (extensions.idxOf kind.asStr))

/-- The edges, each with its ends. -/
def links (extensions : List String) (units : List (Uid × UnitCore)) (relations : List Relation) :
    List (Uid × Uid × EdgeKind) :=
  units.flatMap (fun e =>
    e.2.deps.toList.map (fun d => (e.1, d, EdgeKind.deps)) ++
      e.2.grounds.toList.map (fun g => (e.1, g, EdgeKind.grounds))) ++
  relations.map (fun r => (r.src, r.dst, edgeKind extensions r.kind))

def fromParts (units : List (Uid × UnitCore)) (relations : List Relation) : Adjacency :=
  let named := units.flatMap (fun e => e.1 :: (e.2.deps.toList ++ e.2.grounds.toList)) ++
    relations.flatMap (fun r => r.src :: r.dst :: r.note.toList)
  let extensions := (BTreeSet.ofList
    ((relations.filter (fun r => !r.kind.isKernel)).map (fun r => r.kind.asStr))).toList
  let edges := links extensions units relations
  { order := (BTreeSet.ofList named).toList
    present := BTreeSet.ofList (units.map Prod.fst)
    fwd := edges.foldl (fun m e => insertAt m e.1 (toLex (e.2.2, e.2.1))) ∅
    rev := edges.foldl (fun m e => insertAt m e.2.1 (toLex (e.2.2, e.1))) ∅
    extensions }

end Adjacency

structure IndexEntry where
  offset : Nat
  len : Nat
  typeCode : UInt8
  deriving DecidableEq

structure Index where
  logLen : Nat
  logHash : Bytes32
  entries : BTreeMap Uid IndexEntry := ∅
  threads : BTreeMap ThreadKey Nat := ∅
  contentions : List Nat := []
  fwdAdj : BTreeMap Uid (BTreeSet Edge) := ∅
  revAdj : BTreeMap Uid (BTreeSet Edge) := ∅
  /-- The authored status of each unit. -/
  cache : List (Uid × Status) := []
  deriving DecidableEq

namespace Store
section
variable [Unicode] [Blake3]

/-- The units, without who attested them. -/
def cores (s : Store) : List (Uid × UnitCore) := s.units.entries.map (fun e => (e.1, e.2.core))

/-- The adjacency every traversal reads: a withdrawn edge is kept and not
followed. -/
def adjacency (s : Store) : Adjacency :=
  .fromParts s.cores (s.interp.relations.values.filter (fun r => !s.interp.isWithdrawn r))

/-- Where one record stands in the log. -/
def indexRecord (at_ : Nat × Index) (r : Record) : Nat × Index :=
  let len := (toCbor r).length
  let ix := match r with
    | .unit u => { at_.2 with entries := at_.2.entries.insert (canonicalUid u) ⟨at_.1, len, 1⟩ }
    | .thread t => { at_.2 with threads := at_.2.threads.insert (threadKey t) at_.1 }
    | .contention _ => { at_.2 with contentions := at_.2.contentions ++ [at_.1] }
    | _ => at_.2
  (at_.1 + len, ix)

/-- The derived index for the current contents. -/
def index (s : Store) : Index :=
  { (s.records.foldl indexRecord (0, { logLen := s.logLen, logHash := s.logHash })).2 with
    fwdAdj := s.adjacency.fwd
    revAdj := s.adjacency.rev
    cache := s.cores.map (fun e => (e.1, e.2.status)) }

end
end Store
end Smysl
