import Smysl.Graph.Sidecar

/-!
The sidecar of a store. It reads back as what was written exactly when the names
of every thread are shorter than a text's field, every extension kind of an edge is
interned below the codes that wrap, and every collection is within its count.
-/
namespace Smysl
open ByteString Sidecar

/-- The edges held for a node, in order. -/
def edgesAt (adj : BTreeMap Uid (BTreeSet Edge)) (n : Uid) : List (EdgeKind × Uid) :=
  ((adj.get n).getD ∅).toList.map (fun e => ofLex e)

/-- The nodes that have edges, each with its own. -/
def neighbours (order : List Uid) (adj : BTreeMap Uid (BTreeSet Edge)) : Neighbours :=
  .ofList ((order.filter (fun n => !(edgesAt adj n).isEmpty)).map (fun n => (n, edgesAt adj n)))

/-- The uid a unit's record is entered under. -/
def enteredUid [Unicode] [Blake3] : Record → Option Uid
  | .unit u => some (canonicalUid u)
  | _ => none

def enteredThread : Record → Option ThreadKey
  | .thread t => some (threadKey t)
  | _ => none

def isContention : Record → Bool
  | .contention _ => true
  | _ => false

namespace Store
section
variable [Unicode] [Blake3]

/-- Where one record stands in the log. -/
def sidecarRecord (at_ : UInt64 × Sidecar.Index) (r : Record) : UInt64 × Sidecar.Index :=
  let len := UInt32.ofNat (toCbor r).length
  let ix := match r with
    | .unit u => { at_.2 with entries := at_.2.entries.insert (canonicalUid u) ⟨at_.1, len, 1⟩ }
    | .thread t => { at_.2 with threads := at_.2.threads.insert (threadKey t) at_.1 }
    | .contention _ => { at_.2 with contentions := at_.2.contentions ++ [at_.1] }
    | _ => at_.2
  (at_.1 + len.toUInt64, ix)

/-- `Store::index`, in the widths of the sidecar. The units of a store have no
labels and no salience of their own. -/
def sidecar (s : Store) : Sidecar.Index :=
  let start : Sidecar.Index := { logLen := UInt64.ofNat s.logLen, logHash := s.logHash }
  { (s.records.foldl sidecarRecord (0, start)).2 with
    fwdAdj := neighbours s.adjacency.order s.adjacency.fwd
    revAdj := neighbours s.adjacency.order s.adjacency.rev
    cache := .ofList (s.units.entries.map (fun e => (e.1, ⟨e.2.core.status, 0⟩))) }

end
end Store

/-! The edges. -/

namespace Adjacency

/-- An extension's index is below the codes that wrap. -/
def Interned (extensions : List String) (kind : RelKind) : Prop :=
  kind.isKernel = false → extensions.idxOf kind.asStr % 65536 < 64512

theorem coded_edge_kind (extensions : List String) (kind : RelKind) :
    (edgeKind extensions kind).Coded ↔ Interned extensions kind := by
  have index : (UInt16.ofNat (extensions.idxOf kind.asStr)).toNat =
      extensions.idxOf kind.asStr % 65536 := UInt16.toNat_ofNat'
  cases kind with
  | extension text =>
    rw [edgeKind, RelKind.code, EdgeKind.Coded, index, Interned]
    exact ⟨fun small _ => small, fun small => small rfl⟩
  | _ =>
    refine iff_of_true ?_ ?_
    · simp [edgeKind, RelKind.code, EdgeKind.Coded]
    · intro extension
      cases extension

variable {units : List (Uid × UnitCore)} {relations : List Relation}

/-- Every edge has a kind of its own code exactly when every relation's kind is. -/
theorem coded_links (extensions : List String) :
    (∀ link ∈ links extensions units relations, link.2.2.Coded) ↔
      ∀ r ∈ relations, Interned extensions r.kind := by
  constructor
  · intro coded r mem
    have linked := List.mem_map_of_mem (f := fun r : Relation =>
      (r.src, r.dst, edgeKind extensions r.kind)) mem
    exact (coded_edge_kind extensions r.kind).mp (coded _ (List.mem_append_right _ linked))
  · intro interned link mem
    rcases List.mem_append.mp mem with mem | mem
    · obtain ⟨e, _, mem⟩ := List.mem_flatMap.mp mem
      rcases List.mem_append.mp mem with mem | mem
      · obtain ⟨d, _, same⟩ := List.mem_map.mp mem
        rw [← same]
        exact True.intro
      · obtain ⟨g, _, same⟩ := List.mem_map.mp mem
        rw [← same]
        exact True.intro
    · obtain ⟨r, held, same⟩ := List.mem_map.mp mem
      rw [← same]
      exact (coded_edge_kind extensions r.kind).mpr (interned r held)

/-- The ends of a link are nodes. -/
theorem link_nodes {link : Uid × Uid × EdgeKind}
    (mem : link ∈ links (fromParts units relations).extensions units relations) :
    link.1 ∈ (fromParts units relations).order ∧ link.2.1 ∈ (fromParts units relations).order := by
  generalize (fromParts units relations).extensions = extensions at mem
  simp only [fromParts, BTreeSet.mem_toList, BTreeSet.mem_ofList, List.mem_append,
    List.mem_flatMap]
  rcases List.mem_append.mp mem with mem | mem
  · obtain ⟨e, held, mem⟩ := List.mem_flatMap.mp mem
    rcases List.mem_append.mp mem with mem | mem
    · obtain ⟨d, dep, same⟩ := List.mem_map.mp mem
      rw [← same]
      exact ⟨Or.inl ⟨e, held, by simp⟩, Or.inl ⟨e, held, by simp [dep]⟩⟩
    · obtain ⟨g, ground, same⟩ := List.mem_map.mp mem
      rw [← same]
      exact ⟨Or.inl ⟨e, held, by simp⟩, Or.inl ⟨e, held, by simp [ground]⟩⟩
  · obtain ⟨r, held, same⟩ := List.mem_map.mp mem
    rw [← same]
    exact ⟨Or.inr ⟨r, held, by simp⟩, Or.inr ⟨r, held, by simp⟩⟩

end Adjacency

section
variable {adj : BTreeMap Uid (BTreeSet Edge)} {order : List Uid}

theorem mem_edges_at (n : Uid) (e : EdgeKind × Uid) :
    e ∈ edgesAt adj n ↔ toLex e ∈ (adj.get n).getD ∅ := by
  rw [edgesAt, List.mem_map]
  constructor
  · intro found
    obtain ⟨edge, mem, same⟩ := found
    rw [← same]
    exact (BTreeSet.mem_toList _ _).mp mem
  · intro held
    exact ⟨toLex e, (BTreeSet.mem_toList _ _).mpr held, rfl⟩

theorem neighbours_perm (distinct : order.Nodup) : (neighbours order adj).entries.Perm
    ((order.filter (fun n => !(edgesAt adj n).isEmpty)).map (fun n => (n, edgesAt adj n))) := by
  apply BTreeMap.entries_ofList_perm
  rw [List.map_map]
  have same : (Prod.fst ∘ fun n => (n, edgesAt adj n)) = id := rfl
  rw [same, List.map_id]
  exact distinct.filter _

/-- What is asked of the edges of every entry is asked of those of every node. -/
theorem neighbours_all (distinct : order.Nodup) {Q : List (EdgeKind × Uid) → Prop} (none : Q []) :
    (∀ e ∈ (neighbours order adj).entries, Q e.2) ↔ ∀ n ∈ order, Q (edgesAt adj n) := by
  constructor
  · intro all n mem
    by_cases empty : edgesAt adj n = []
    · rw [empty]
      exact none
    · refine all (n, edgesAt adj n) ((neighbours_perm distinct).mem_iff.mpr ?_)
      refine List.mem_map_of_mem (f := fun n => (n, edgesAt adj n)) (List.mem_filter.mpr ⟨mem, ?_⟩)
      simp [empty]
  · intro all e mem
    obtain ⟨n, kept, same⟩ := List.mem_map.mp ((neighbours_perm distinct).mem_iff.mp mem)
    rw [← same]
    exact all n (List.mem_filter.mp kept).1

end

/-- Every edge that leads from a node, and every one that leads to a node, has a kind of its own
code exactly when every link has. -/
theorem Adjacency.coded_edges (units : List (Uid × UnitCore)) (relations : List Relation) :
    let g := Adjacency.fromParts units relations
    let coded := ∀ r ∈ relations, Adjacency.Interned g.extensions r.kind
    ((∀ n ∈ g.order, ∀ e ∈ edgesAt g.fwd n, e.1.Coded) ↔ coded) ∧
      ((∀ n ∈ g.order, ∀ e ∈ edgesAt g.rev n, e.1.Coded) ↔ coded) := by
  intro g coded
  have links : (∀ link ∈ links g.extensions units relations, link.2.2.Coded) ↔ coded :=
    Adjacency.coded_links g.extensions
  constructor
  · rw [← links]
    constructor
    · intro all link mem
      refine all link.1 (Adjacency.link_nodes mem).1 (link.2.2, link.2.1) ?_
      exact (mem_edges_at _ _).mpr ((Adjacency.mem_fwd units relations _ _).mpr
        ⟨link, mem, rfl, rfl⟩)
    · intro all n _ e mem
      obtain ⟨link, linked, _, same⟩ :=
        (Adjacency.mem_fwd units relations _ _).mp ((mem_edges_at _ _).mp mem)
      have kind : link.2.2 = e.1 := congrArg Prod.fst (toLex.injective same)
      rw [← kind]
      exact all link linked
  · rw [← links]
    constructor
    · intro all link mem
      refine all link.2.1 (Adjacency.link_nodes mem).2 (link.2.2, link.1) ?_
      exact (mem_edges_at _ _).mpr ((Adjacency.mem_rev units relations _ _).mpr
        ⟨link, mem, rfl, rfl⟩)
    · intro all n _ e mem
      obtain ⟨link, linked, _, same⟩ :=
        (Adjacency.mem_rev units relations _ _).mp ((mem_edges_at _ _).mp mem)
      have kind : link.2.2 = e.1 := congrArg Prod.fst (toLex.injective same)
      rw [← kind]
      exact all link linked

/-! The records. -/

/-- A map has as many entries as it has distinct keys. -/
theorem entries_length_of_keys {K V : Type} [LinearOrder K] {m : BTreeMap K V} {ks : List K}
    (same : ∀ k, m.contains k = true ↔ k ∈ ks) :
    m.entries.length = (BTreeSet.ofList ks).toList.length := by
  have perm : m.keys.Perm (BTreeSet.ofList ks).toList := by
    refine (List.perm_ext_iff_of_nodup m.keys_nodup (BTreeSet.toList_nodup _)).mpr fun k => ?_
    rw [BTreeMap.mem_keys_iff, same, BTreeSet.mem_toList, BTreeSet.mem_ofList]
  rw [← perm.length_eq, BTreeMap.keys, List.length_map]

theorem contains_insert {K V : Type} [LinearOrder K] (m : BTreeMap K V) (k j : K) (v : V) :
    (m.insert k v).contains j = true ↔ m.contains j = true ∨ j = k := by
  rw [BTreeMap.contains, BTreeMap.get_insert, BTreeMap.contains]
  by_cases here : j = k
  · rw [if_pos here]
    exact iff_of_true rfl (Or.inr here)
  · rw [if_neg here]
    exact (or_iff_left here).symm

namespace Store
section
variable [Unicode] [Blake3]

/-- What reading records has added to an index. -/
structure Scanned (records : List Record) (before after : Sidecar.Index) : Prop where
  entries : ∀ k, after.entries.contains k = true ↔
    before.entries.contains k = true ∨ k ∈ records.filterMap enteredUid
  threads : ∀ k, after.threads.contains k = true ↔
    before.threads.contains k = true ∨ k ∈ records.filterMap enteredThread
  contentions : after.contentions.length =
    before.contentions.length + (records.filter isContention).length
  labels : after.labels = before.labels

theorem scanned_one (at_ : UInt64 × Sidecar.Index) (r : Record) :
    Scanned [r] at_.2 (sidecarRecord at_ r).2 := by
  cases r with
  | unit u =>
    refine ⟨fun k => ?_, fun k => ?_, rfl, rfl⟩
    · simpa [enteredUid, sidecarRecord] using contains_insert _ _ _ _
    · simp [enteredThread, sidecarRecord]
  | thread t =>
    refine ⟨fun k => ?_, fun k => ?_, rfl, rfl⟩
    · simp [enteredUid, sidecarRecord]
    · simpa [enteredThread, sidecarRecord] using contains_insert _ _ _ _
  | contention c =>
    refine ⟨fun k => ?_, fun k => ?_, ?_, rfl⟩
    · simp [enteredUid, sidecarRecord]
    · simp [enteredThread, sidecarRecord]
    · exact List.length_append
  | _ =>
    refine ⟨fun k => ?_, fun k => ?_, rfl, rfl⟩
    · simp [enteredUid, sidecarRecord]
    · simp [enteredThread, sidecarRecord]

theorem scanned (records : List Record) (at_ : UInt64 × Sidecar.Index) :
    Scanned records at_.2 (records.foldl sidecarRecord at_).2 := by
  induction records generalizing at_ with
  | nil => exact ⟨fun k => by simp, fun k => by simp, rfl, rfl⟩
  | cons r records ih =>
    have one := scanned_one at_ r
    have rest := ih (sidecarRecord at_ r)
    rw [List.foldl_cons]
    refine ⟨fun k => ?_, fun k => ?_, ?_, rest.labels.trans one.labels⟩
    · rw [rest.entries, one.entries, or_assoc, ← List.mem_append, ← List.filterMap_append]
      rfl
    · rw [rest.threads, one.threads, or_assoc, ← List.mem_append, ← List.filterMap_append]
      rfl
    · rw [rest.contentions, one.contentions, Nat.add_assoc, ← List.length_append,
        ← List.filter_append]
      rfl

/-- What the fields of the sidecar need of a store. -/
structure SidecarHolds (s : Store) : Prop where
  named : ∀ t, Record.thread t ∈ s.records → Short t.id.text ∧ Short t.owner.text
  interned : ∀ r ∈ s.interp.relations.values.filter (fun r => !s.interp.isWithdrawn r),
    Adjacency.Interned s.adjacency.extensions r.kind
  entered : Few (BTreeSet.ofList (s.records.filterMap enteredUid)).toList
  threads : Few (BTreeSet.ofList (s.records.filterMap enteredThread)).toList
  contentions : Few (s.records.filter isContention)
  units : Few s.units.entries
  sources : Few (s.adjacency.order.filter (fun n => !(edgesAt s.adjacency.fwd n).isEmpty))
  targets : Few (s.adjacency.order.filter (fun n => !(edgesAt s.adjacency.rev n).isEmpty))
  out : ∀ n ∈ s.adjacency.order, Few (edgesAt s.adjacency.fwd n)
  back : ∀ n ∈ s.adjacency.order, Few (edgesAt s.adjacency.rev n)

variable (s : Store)

theorem sidecar_scanned : Scanned s.records
    { logLen := UInt64.ofNat s.logLen, logHash := s.logHash } s.sidecar := by
  have run := scanned s.records (0, { logLen := UInt64.ofNat s.logLen, logHash := s.logHash })
  exact ⟨run.entries, run.threads, run.contentions, run.labels⟩

theorem sidecar_entries_length : s.sidecar.entries.entries.length =
    (BTreeSet.ofList (s.records.filterMap enteredUid)).toList.length :=
  entries_length_of_keys fun k => ((sidecar_scanned s).entries k).trans
    (or_iff_right (fun held => nomatch held))

theorem sidecar_thread_iff (k : ThreadKey) :
    s.sidecar.threads.contains k = true ↔ k ∈ s.records.filterMap enteredThread :=
  ((sidecar_scanned s).threads k).trans (or_iff_right (fun held => nomatch held))

theorem sidecar_contentions_length :
    s.sidecar.contentions.length = (s.records.filter isContention).length :=
  (sidecar_scanned s).contentions.trans (Nat.zero_add _)

theorem sidecar_cache_length : s.sidecar.cache.entries.length = s.units.entries.length := by
  have distinct : ((s.units.entries.map
      (fun e => (e.1, (⟨e.2.core.status, 0⟩ : Cached)))).map Prod.fst).Nodup := by
    rw [List.map_map]
    exact s.units.keys_nodup
  exact (BTreeMap.entries_ofList_perm distinct).length_eq.trans (List.length_map _)

omit [Unicode] in
theorem order_nodup : s.adjacency.order.Nodup := BTreeSet.toList_nodup _

omit [Unicode] in
theorem sidecar_nodes_length (adj : BTreeMap Uid (BTreeSet Edge)) :
    (neighbours s.adjacency.order adj).entries.length =
      (s.adjacency.order.filter (fun n => !(edgesAt adj n).isEmpty)).length :=
  (neighbours_perm (order_nodup s)).length_eq.trans (List.length_map _)

omit [Unicode] in
theorem sidecar_listed_iff (adj : BTreeMap Uid (BTreeSet Edge)) :
    (∀ n ∈ (neighbours s.adjacency.order adj).entries, Sidecar.Listed n.2) ↔
      (∀ n ∈ s.adjacency.order, Few (edgesAt adj n)) ∧
        ∀ n ∈ s.adjacency.order, ∀ e ∈ edgesAt adj n, e.1.Coded := by
  rw [neighbours_all (Q := Sidecar.Listed) (order_nodup s)
    ⟨Nat.zero_lt_succ _, List.forall_mem_nil _⟩]
  constructor
  · intro listed
    exact ⟨fun n mem => (listed n mem).few, fun n mem => (listed n mem).coded⟩
  · rintro ⟨few, coded⟩ n mem
    exact ⟨few n mem, coded n mem⟩

/-- The names of the threads entered are those of the thread records. -/
theorem sidecar_owned_iff : (∀ t ∈ s.sidecar.threads.entries, ShortKey t.1) ↔
    ∀ t, Record.thread t ∈ s.records → Short t.id.text ∧ Short t.owner.text := by
  constructor
  · intro owned t mem
    have entered : threadKey t ∈ s.records.filterMap enteredThread :=
      List.mem_filterMap.mpr ⟨.thread t, mem, rfl⟩
    have held := (sidecar_thread_iff s _).mpr entered
    rw [← BTreeMap.mem_keys_iff] at held
    obtain ⟨e, mem, key⟩ := List.mem_map.mp held
    have short := owned e mem
    rwa [key] at short
  · intro named e mem
    have key : e.1 ∈ s.sidecar.threads.keys := List.mem_map_of_mem mem
    rw [BTreeMap.mem_keys_iff, sidecar_thread_iff] at key
    obtain ⟨r, mem, entered⟩ := List.mem_filterMap.mp key
    cases r with
    | thread t =>
      rw [← Option.some.inj entered]
      exact named t mem
    | _ => cases entered

theorem sidecar_fits_iff : s.sidecar.Fits ↔ s.SidecarHolds := by
  have edges := Adjacency.coded_edges s.cores
    (s.interp.relations.values.filter (fun r => !s.interp.isWithdrawn r))
  have fwd := sidecar_listed_iff s s.adjacency.fwd
  have rev := sidecar_listed_iff s s.adjacency.rev
  have unlabelled : s.sidecar.labels = ∅ := (sidecar_scanned s).labels
  constructor
  · intro fits
    have out := fwd.mp fits.fwd
    have back := rev.mp fits.rev
    exact {
      named := (sidecar_owned_iff s).mp fits.owned
      interned := edges.1.mp out.2
      entered := (sidecar_entries_length s).symm.trans_lt fits.entries
      threads := (entries_length_of_keys (sidecar_thread_iff s)).symm.trans_lt fits.threads
      contentions := (sidecar_contentions_length s).symm.trans_lt fits.contentions
      units := (sidecar_cache_length s).symm.trans_lt fits.cache
      sources := (sidecar_nodes_length s _).symm.trans_lt fits.fwdNodes
      targets := (sidecar_nodes_length s _).symm.trans_lt fits.revNodes
      out := out.1
      back := back.1 }
  · intro holds
    exact {
      entries := (sidecar_entries_length s).trans_lt holds.entered
      fwdNodes := (sidecar_nodes_length s _).trans_lt holds.sources
      fwd := fwd.mpr ⟨holds.out, edges.1.mpr holds.interned⟩
      revNodes := (sidecar_nodes_length s _).trans_lt holds.targets
      rev := rev.mpr ⟨holds.back, edges.2.mpr holds.interned⟩
      labels := by
        rw [unlabelled]
        exact Nat.zero_lt_succ _
      labelled := by
        rw [unlabelled]
        exact List.forall_mem_nil _
      threads := (entries_length_of_keys (sidecar_thread_iff s)).trans_lt holds.threads
      owned := (sidecar_owned_iff s).mpr holds.named
      contentions := (sidecar_contentions_length s).trans_lt holds.contentions
      cache := (sidecar_cache_length s).trans_lt holds.units }

/-- The sidecar of a store reads back as it was exactly when its fields hold the store. -/
theorem sidecar_reads_back_iff :
    Sidecar.Index.fromBytes s.sidecar.toBytes = .ok s.sidecar ↔ s.SidecarHolds :=
  (from_bytes_iff s.sidecar).trans (sidecar_fits_iff s)

end
end Store

section

def longIdBytes (n : Nat) : Bytes := 0x61 :: 0x2F :: List.replicate (n + 1) 0x61

theorem long_id_ascii (n : Nat) : ∀ b ∈ longIdBytes n, b.toNat < 128 := by
  intro b mem
  have letter : b = 0x61 ∨ b = 0x2F := by
    simp only [longIdBytes, List.mem_cons, List.mem_replicate] at mem
    tauto
  rcases letter with rfl | rfl <;> decide

theorem utf8_long_id (n : Nat) : utf8 (asciiText (longIdBytes n)) = longIdBytes n :=
  utf8_ascii_text (long_id_ascii n)

/-- `a/a`, with `n` more of the last letter. -/
def longId (n : Nat) : ThreadId where
  text := asciiText (longIdBytes n)
  valid := by
    change isLabelShaped _ = true
    have halves : splitOnce 0x2F (longIdBytes n) = some ([0x61], List.replicate (n + 1) 0x61) := rfl
    rw [isLabelShaped, utf8_long_id, halves]
    simp [isIdent, List.replicate_succ, isAsciiLowercase]

theorem long_id_length (n : Nat) : (utf8 (longId n).text).length = n + 3 := by
  rw [longId, utf8_long_id, longIdBytes, List.length_cons, List.length_cons,
    List.length_replicate]

def longThread (n : Nat) : Thread where
  id := longId n
  schema := .of .narrative
  owner := ⟨"tool:a", tool_a_accepted⟩
  gist := ""
  steps := []
  ts := ⟨0, 0, ⟨"tool:a", tool_a_accepted⟩⟩
  extra := ∅

local instance plainSidecarText : Unicode := .plain
local instance modPrimeSidecarHash : Blake3 := .modPrime

/-- A thread may be named at any length, and the sidecar has sixteen bits for it. -/
theorem long_thread_id_lost : ¬ ∀ s : Store, s.Reachable →
    Sidecar.Index.fromBytes s.sidecar.toBytes = .ok s.sidecar := by
  intro reads
  have fits := (from_bytes_iff _).mp (reads _ (.fromRecords [.thread (longThread 70000)]))
  have mem : Record.thread (longThread 70000) ∈
      (Store.fromRecords [.thread (longThread 70000)]).records := List.mem_cons_self
  have short : (utf8 (longId 70000).text).length < 65536 :=
    ((Store.sidecar_owned_iff _).mp fits.owned _ mem).1
  rw [long_id_length] at short
  omega

end
end Smysl
