import Smysl.Graph.BundleClosed
import Smysl.Lib.Fixed

/-!
The index sidecar: the index of a store in its serialised form, fixed-width
big-endian numbers and counted collections. Writing takes a count or a text's
length modulo the width of its field; what comes back is the index itself
exactly when every field holds what it was given.
-/
namespace Smysl
open ByteString Fixed

/-- Why a sidecar could not be used. -/
inductive IndexError
  | badMagic
  | unsupportedVersion (version : UInt16)
  | truncated
  | malformed (what : String)
  deriving DecidableEq

/-- The wire code of an edge kind. The sum wraps: an extension interned at
`64512` or beyond is given the code of another kind, or of none. -/
def EdgeKind.wire (kind : EdgeKind) : UInt16 := UInt16.ofNat kind.code

/-- `EdgeKind::from_code`. -/
def EdgeKind.fromCode (c : UInt16) : Option EdgeKind :=
  if c.toNat = 0 then some .deps
  else if c.toNat = 1 then some .grounds
  else if c.toNat ≤ 15 then some (.kernel (UInt8.ofNat (c.toNat - 2)))
  else if 1024 ≤ c.toNat then some (.extension (UInt16.ofNat (c.toNat - 1024)))
  else none

/-- The kinds that have a code of their own. -/
def EdgeKind.Coded : EdgeKind → Prop
  | .deps | .grounds => True
  | .kernel c => c.toNat ≤ 13
  | .extension i => i.toNat < 64512

theorem EdgeKind.from_code_iff (kind : EdgeKind) :
    EdgeKind.fromCode kind.wire = some kind ↔ kind.Coded := by
  have wrapped : kind.wire.toNat = kind.code % 65536 := UInt16.toNat_ofNat'
  cases kind with
  | deps => exact iff_of_true rfl True.intro
  | grounds => exact iff_of_true rfl True.intro
  | kernel c =>
    have small := c.toNat_lt
    have plain : (EdgeKind.kernel c).wire.toNat = 2 + c.toNat :=
      wrapped.trans (Nat.mod_eq_of_lt (by simp only [EdgeKind.code]; omega))
    rw [EdgeKind.fromCode, plain, if_neg (by omega), if_neg (by omega), EdgeKind.Coded]
    by_cases low : c.toNat ≤ 13
    · rw [if_pos (by omega), Nat.add_sub_cancel_left, UInt8.ofNat_toNat]
      exact iff_of_true rfl low
    · rw [if_neg (by omega), if_neg (by omega)]
      exact iff_of_false (Option.some_ne_none _).symm low
  | extension i =>
    have small := i.toNat_lt
    rw [EdgeKind.Coded]
    by_cases low : i.toNat < 64512
    · have plain : (EdgeKind.extension i).wire.toNat = 1024 + i.toNat :=
        wrapped.trans (Nat.mod_eq_of_lt (by simp only [EdgeKind.code]; omega))
      rw [EdgeKind.fromCode, plain, if_neg (by omega), if_neg (by omega), if_neg (by omega),
        if_pos (by omega), Nat.add_sub_cancel_left, UInt16.ofNat_toNat]
      exact iff_of_true rfl low
    · -- The sum has wrapped to a code below those of the extensions.
      have around : (EdgeKind.extension i).wire.toNat < 1024 := by
        have sum : (EdgeKind.extension i).code = 1024 + i.toNat := rfl
        omega
      refine iff_of_false (fun same => ?_) low
      rw [EdgeKind.fromCode] at same
      split_ifs at same <;> first | omega | cases same

theorem EdgeKind.wire_of_from_code {c : UInt16} {kind : EdgeKind}
    (read : EdgeKind.fromCode c = some kind) : kind.wire = c := by
  have small := c.toNat_lt
  rw [EdgeKind.fromCode] at read
  apply UInt16.toNat_inj.mp
  rw [EdgeKind.wire, UInt16.toNat_ofNat']
  split_ifs at read <;> cases read <;> simp only [EdgeKind.code]
  · omega
  · omega
  · rw [UInt8.toNat_ofNat']
    omega
  · rw [UInt16.toNat_ofNat']
    omega

theorem EdgeKind.coded_of_from_code {c : UInt16} {kind : EdgeKind}
    (read : EdgeKind.fromCode c = some kind) : kind.Coded := by
  rwa [← EdgeKind.from_code_iff, EdgeKind.wire_of_from_code read]

/-- A map made from entries holds only some of them. -/
theorem BTreeMap.entries_ofList_subset {K V : Type} [LinearOrder K] (es : List (K × V)) :
    (BTreeMap.ofList es).entries ⊆ es := by
  have general : ∀ (es : List (K × V)) (m : BTreeMap K V),
      (es.foldl (fun m e => m.insert e.1 e.2) m).entries ⊆ m.entries ++ es := by
    intro es
    induction es with
    | nil =>
      intro m
      rw [List.append_nil]
      exact List.Subset.refl _
    | cons e es ih =>
      intro m x mem
      rw [List.mem_append, List.mem_cons]
      rcases List.mem_append.mp (ih _ mem) with held | later
      · obtain ⟨k, v⟩ := x
        rw [BTreeMap.mem_entries_iff, BTreeMap.get_insert] at held
        split at held
        · rename_i same
          cases held
          exact Or.inr (Or.inl (by rw [same]))
        · exact Or.inl ((BTreeMap.mem_entries_iff _ _ _).mpr held)
      · exact Or.inr (Or.inr later)
  exact general es BTreeMap.empty

theorem BTreeMap.entries_ofList_le {K V : Type} [LinearOrder K] (es : List (K × V)) :
    (BTreeMap.ofList es).entries.length ≤ es.length := by
  have distinct : (BTreeMap.ofList es).entries.Nodup := (BTreeMap.ofList es).keys_nodup.of_map
  exact (distinct.subperm (BTreeMap.entries_ofList_subset es)).length_le

namespace Sidecar

/-- Where a record lives in the log. -/
structure Entry where
  offset : UInt64
  len : UInt32
  typeCode : UInt8
  deriving DecidableEq

/-- The cached facts of a unit. -/
structure Cached where
  status : Status
  salienceQ : UInt16
  deriving DecidableEq

abbrev Neighbours := BTreeMap Uid (List (EdgeKind × Uid))

structure Index where
  logLen : UInt64
  logHash : Bytes32
  entries : BTreeMap Uid Entry := ∅
  fwdAdj : Neighbours := ∅
  revAdj : Neighbours := ∅
  labels : BTreeMap Label Uid := ∅
  threads : BTreeMap ThreadKey UInt64 := ∅
  contentions : List UInt64 := []
  cache : BTreeMap Uid Cached := ∅
  deriving DecidableEq

def magic : Bytes := utf8 "SMYSLIDX"

def version : UInt16 := 1

/-! `Writer`. -/

def u16 (v : UInt16) : Bytes := bigEndian 2 v.toNat

def u32 (v : UInt32) : Bytes := bigEndian 4 v.toNat

def u64 (v : UInt64) : Bytes := bigEndian 8 v.toNat

def text (s : String) : Bytes := u16 (UInt16.ofNat (utf8 s).length) ++ utf8 s

/-- A collection: its count, then what it holds. -/
def counted {α : Type} (raw : α → Bytes) (as : List α) : Bytes :=
  u32 (UInt32.ofNat as.length) ++ as.flatMap raw

def entryBytes (e : Uid × Entry) : Bytes :=
  e.1.asBytes ++ (u64 e.2.offset ++ (u32 e.2.len ++ [e.2.typeCode]))

def edgeBytes (e : EdgeKind × Uid) : Bytes := u16 e.1.wire ++ e.2.asBytes

def nodeBytes (n : Uid × List (EdgeKind × Uid)) : Bytes := n.1.asBytes ++ counted edgeBytes n.2

def labelBytes (l : Label × Uid) : Bytes := text l.1.text ++ l.2.asBytes

def threadBytes (t : ThreadKey × UInt64) : Bytes :=
  text (ofLex t.1).1.text ++ (text (ofLex t.1).2.text ++ u64 t.2)

def cachedBytes (c : Uid × Cached) : Bytes :=
  c.1.asBytes ++ (asU8 c.2.status :: u16 c.2.salienceQ)

def Index.toBytes (ix : Index) : Bytes :=
  magic ++ (u16 version ++ (u64 ix.logLen ++ (ix.logHash.bytes ++
    (counted entryBytes ix.entries.entries ++
    (counted nodeBytes ix.fwdAdj.entries ++ (counted nodeBytes ix.revAdj.entries ++
    (counted labelBytes ix.labels.entries ++ (counted threadBytes ix.threads.entries ++
    (counted u64 ix.contentions ++ counted cachedBytes ix.cache.entries)))))))))

/-! `Reader`. -/

abbrev Read (α : Type) : Type := Reader IndexError α

def take (n : Nat) : Read Bytes := Reader.take .truncated n

def readU8 : Read UInt8 := do
  let b ← take 1
  pure (UInt8.ofNat (fromBigEndian b))

def readU16 : Read UInt16 := do
  let b ← take 2
  pure (UInt16.ofNat (fromBigEndian b))

def readU32 : Read UInt32 := do
  let b ← take 4
  pure (UInt32.ofNat (fromBigEndian b))

def readU64 : Read UInt64 := do
  let b ← take 8
  pure (UInt64.ofNat (fromBigEndian b))

def readBytes32 : Read Bytes32 := do
  let b ← take 32
  Reader.orFail .truncated (Bytes32.tryFrom b)

def readUid : Read Uid := do
  let raw ← readBytes32
  pure ⟨raw⟩

def readText : Read String := do
  let n ← readU16
  let b ← take n.toNat
  Reader.orFail (.malformed "text") (fromUtf8 b)

def readName {kind : NameKind} (what : String) : Read (Name kind) := do
  let s ← readText
  Reader.orFail (.malformed what) (Name.new s)

/-- As many values as the count before them says. -/
def readCounted {α : Type} (p : Read α) : Read (List α) := do
  let n ← readU32
  Reader.times p n.toNat

def readMap {K V : Type} [LinearOrder K] (p : Read (K × V)) : Read (BTreeMap K V) := do
  let es ← readCounted p
  pure (BTreeMap.ofList es)

def readEntry : Read (Uid × Entry) := do
  let uid ← readUid
  let offset ← readU64
  let len ← readU32
  let typeCode ← readU8
  pure (uid, ⟨offset, len, typeCode⟩)

def readEdge : Read (EdgeKind × Uid) := do
  let code ← readU16
  let kind ← Reader.orFail (.malformed "edge kind") (EdgeKind.fromCode code)
  let uid ← readUid
  pure (kind, uid)

def readNode : Read (Uid × List (EdgeKind × Uid)) := do
  let uid ← readUid
  let edges ← readCounted readEdge
  pure (uid, edges)

def readLabel : Read (Label × Uid) := do
  let label ← readName "label"
  let uid ← readUid
  pure (label, uid)

def readThread : Read (ThreadKey × UInt64) := do
  let id ← readName "thread id"
  let owner ← readName "agent id"
  let offset ← readU64
  pure (toLex (id, owner), offset)

def readCached : Read (Uid × Cached) := do
  let uid ← readUid
  let code ← readU8
  let status ← Reader.orFail (.malformed "status") (fromU8 code)
  let salienceQ ← readU16
  pure (uid, ⟨status, salienceQ⟩)

/-- The magic and the version, before anything else. -/
def readHeader : Read Unit := do
  let m ← take 8
  if m = magic then do
    let v ← readU16
    if v = version then pure () else Reader.fail (.unsupportedVersion v)
  else Reader.fail .badMagic

def readIndex : Read Index := do
  let _ ← readHeader
  let logLen ← readU64
  let logHash ← readBytes32
  let entries ← readMap readEntry
  let fwdAdj ← readMap readNode
  let revAdj ← readMap readNode
  let labels ← readMap readLabel
  let threads ← readMap readThread
  let contentions ← readCounted readU64
  let cache ← readMap readCached
  pure { logLen, logHash, entries, fwdAdj, revAdj, labels, threads, contentions, cache }

/-- Bytes after the index are left unread. -/
def Index.fromBytes (b : Bytes) : Except IndexError Index := Prod.fst <$> readIndex b

/-! What is recovered, piece by piece. -/

theorem recovers_number (width n : Nat) :
    Recovers (take width) (bigEndian width n) (bigEndian width n) :=
  Recovers.take _ (big_endian_length width n)

theorem recovers_u8 (v : UInt8) : Recovers readU8 [v] v := by
  have whole : Recovers (take 1) [v] [v] := Recovers.take _ rfl
  have run := whole.map (fun b => UInt8.ofNat (fromBigEndian b))
  have same : UInt8.ofNat (fromBigEndian [v]) = v := by
    simp [fromBigEndian]
  rwa [same] at run

theorem recovers_u16 (v : UInt16) : Recovers readU16 (u16 v) v := by
  have run := (recovers_number 2 v.toNat).map (fun b => UInt16.ofNat (fromBigEndian b))
  rwa [from_big_endian_of_number, Nat.mod_eq_of_lt (show v.toNat < 256 ^ 2 from v.toNat_lt),
    UInt16.ofNat_toNat] at run

theorem recovers_u32 (v : UInt32) : Recovers readU32 (u32 v) v := by
  have run := (recovers_number 4 v.toNat).map (fun b => UInt32.ofNat (fromBigEndian b))
  rwa [from_big_endian_of_number, Nat.mod_eq_of_lt (show v.toNat < 256 ^ 4 from v.toNat_lt),
    UInt32.ofNat_toNat] at run

theorem recovers_u64 (v : UInt64) : Recovers readU64 (u64 v) v := by
  have run := (recovers_number 8 v.toNat).map (fun b => UInt64.ofNat (fromBigEndian b))
  rwa [from_big_endian_of_number, Nat.mod_eq_of_lt (show v.toNat < 256 ^ 8 from v.toNat_lt),
    UInt64.ofNat_toNat] at run

theorem recovers_bytes32 (d : Bytes32) : Recovers readBytes32 d.bytes d :=
  (Recovers.take _ d.width).bind_end (Recovers.orFail _ ((Bytes32.try_from_iff _ d).mpr rfl))

theorem recovers_uid (uid : Uid) : Recovers readUid uid.asBytes uid :=
  (recovers_bytes32 uid.raw).map Digest.mk

/-- What a text's field holds. -/
def Short (s : String) : Prop := (utf8 s).length < 65536

theorem recovers_text {s : String} (short : Short s) : Recovers readText (text s) s := by
  have length : (UInt16.ofNat (utf8 s).length).toNat = (utf8 s).length :=
    UInt16.toNat_ofNat_of_lt' short
  have whole : Recovers (take (UInt16.ofNat (utf8 s).length).toNat) (utf8 s) (utf8 s) :=
    Recovers.take _ length.symm
  exact (recovers_u16 _).bind (whole.bind_end (Recovers.orFail _ ((from_utf8_iff _ _).mpr rfl)))

theorem recovers_name {kind : NameKind} {name : Name kind} (what : String)
    (short : Short name.text) : Recovers (readName what) (text name.text) name :=
  (recovers_text short).bind_end (Recovers.orFail _ ((Name.new_iff _ _).mpr rfl))

/-- What the count of a collection holds. -/
def Few {α : Type} (as : List α) : Prop := as.length < 4294967296

theorem recovers_counted {α : Type} {p : Read α} {raw : α → Bytes} {as : List α} (few : Few as)
    (each : ∀ a ∈ as, Recovers p (raw a) a) : Recovers (readCounted p) (counted raw as) as := by
  have length : (UInt32.ofNat as.length).toNat = as.length := UInt32.toNat_ofNat_of_lt' few
  refine (recovers_u32 _).bind ?_
  rw [length]
  exact Recovers.times each

theorem recovers_map {K V : Type} [LinearOrder K] {p : Read (K × V)} {raw : K × V → Bytes}
    {m : BTreeMap K V} (few : Few m.entries) (each : ∀ e ∈ m.entries, Recovers p (raw e) e) :
    Recovers (readMap p) (counted raw m.entries) m := by
  have run := (recovers_counted few each).map BTreeMap.ofList
  rwa [BTreeMap.ofList_perm (List.Perm.refl _)] at run

theorem recovers_entry (e : Uid × Entry) : Recovers readEntry (entryBytes e) e :=
  (recovers_uid e.1).bind ((recovers_u64 e.2.offset).bind
    ((recovers_u32 e.2.len).bind ((recovers_u8 e.2.typeCode).bind_end (Recovers.pure _))))

theorem recovers_edge {e : EdgeKind × Uid} (coded : e.1.Coded) :
    Recovers readEdge (edgeBytes e) e :=
  (recovers_u16 _).bind ((Recovers.orFail _ ((EdgeKind.from_code_iff _).mpr coded)).bind
    ((recovers_uid e.2).bind_end (Recovers.pure _)))

/-- The edges of one node, in a count and codes that hold them. -/
structure Listed (edges : List (EdgeKind × Uid)) : Prop where
  few : Few edges
  coded : ∀ e ∈ edges, e.1.Coded

theorem recovers_node {n : Uid × List (EdgeKind × Uid)} (listed : Listed n.2) :
    Recovers readNode (nodeBytes n) n :=
  (recovers_uid n.1).bind ((recovers_counted listed.few
    (fun e mem => recovers_edge (listed.coded e mem))).bind_end (Recovers.pure _))

theorem recovers_label {l : Label × Uid} (short : Short l.1.text) :
    Recovers readLabel (labelBytes l) l :=
  (recovers_name "label" short).bind ((recovers_uid l.2).bind_end (Recovers.pure _))

/-- A thread's key, each of its names in a length that holds it. -/
def ShortKey (key : ThreadKey) : Prop := Short (ofLex key).1.text ∧ Short (ofLex key).2.text

theorem recovers_thread {t : ThreadKey × UInt64} (short : ShortKey t.1) :
    Recovers readThread (threadBytes t) t :=
  (recovers_name "thread id" short.1).bind ((recovers_name "agent id" short.2).bind
    ((recovers_u64 t.2).bind_end (Recovers.pure _)))

theorem recovers_cached (c : Uid × Cached) : Recovers readCached (cachedBytes c) c :=
  (recovers_uid c.1).bind ((recovers_u8 (asU8 c.2.status)).bind
    ((Recovers.orFail _ (from_u8_as_u8 c.2.status)).bind
      ((recovers_u16 c.2.salienceQ).bind_end (Recovers.pure _))))

/-- Every field of the index holds what it is given. -/
structure Index.Fits (ix : Index) : Prop where
  entries : Few ix.entries.entries
  fwdNodes : Few ix.fwdAdj.entries
  fwd : ∀ n ∈ ix.fwdAdj.entries, Listed n.2
  revNodes : Few ix.revAdj.entries
  rev : ∀ n ∈ ix.revAdj.entries, Listed n.2
  labels : Few ix.labels.entries
  labelled : ∀ l ∈ ix.labels.entries, Short l.1.text
  threads : Few ix.threads.entries
  owned : ∀ t ∈ ix.threads.entries, ShortKey t.1
  contentions : Few ix.contentions
  cache : Few ix.cache.entries

theorem recovers_header : Recovers readHeader (magic ++ u16 version) () := by
  have named : magic.length = 8 := by decide
  refine (Recovers.take _ named).bind ?_
  rw [if_pos rfl]
  refine (recovers_u16 version).bind_end ?_
  rw [if_pos rfl]
  exact Recovers.pure ()

theorem recovers_index {ix : Index} (fits : ix.Fits) : Recovers readIndex ix.toBytes ix := by
  rw [Index.toBytes, ← List.append_assoc]
  refine recovers_header.bind ?_
  refine (recovers_u64 ix.logLen).bind ?_
  refine (recovers_bytes32 ix.logHash).bind ?_
  refine (recovers_map fits.entries (fun e _ => recovers_entry e)).bind ?_
  refine (recovers_map fits.fwdNodes (fun n mem => recovers_node (fits.fwd n mem))).bind ?_
  refine (recovers_map fits.revNodes (fun n mem => recovers_node (fits.rev n mem))).bind ?_
  refine (recovers_map fits.labels (fun l mem => recovers_label (fits.labelled l mem))).bind ?_
  refine (recovers_map fits.threads (fun t mem => recovers_thread (fits.owned t mem))).bind ?_
  refine (recovers_counted fits.contentions (fun o _ => recovers_u64 o)).bind ?_
  exact (recovers_map fits.cache (fun c _ => recovers_cached c)).bind_end (Recovers.pure _)

theorem from_bytes_of_fits {ix : Index} (fits : ix.Fits) :
    Index.fromBytes ix.toBytes = .ok ix := by
  have run := recovers_index fits []
  rw [List.append_nil] at run
  rw [Index.fromBytes, run]
  rfl

/-! What is known of whatever the reader returns. -/

theorem returns_text : Returns readText Short := by
  refine (Returns.trivial readU16).bind (fun n _ => (Returns.take _ _).bind (fun b width => ?_))
  refine (Returns.orFail _ _).mono (fun s read => ?_)
  rw [Short, (from_utf8_iff _ _).mp read, width]
  exact n.toNat_lt

theorem returns_name {kind : NameKind} (what : String) :
    Returns (readName what : Read (Name kind)) (fun name => Short name.text) := by
  refine returns_text.bind (fun s short => (Returns.orFail _ _).mono (fun name made => ?_))
  rwa [(Name.new_iff _ _).mp made]

theorem returns_counted {α : Type} {p : Read α} {Q : α → Prop} (each : Returns p Q) :
    Returns (readCounted p) (fun as => Few as ∧ ∀ a ∈ as, Q a) := by
  refine (Returns.trivial readU32).bind (fun n _ => (Returns.times each _).mono ?_)
  rintro as ⟨length, all⟩
  refine ⟨?_, all⟩
  rw [Few, length]
  exact n.toNat_lt

theorem returns_map {K V : Type} [LinearOrder K] {p : Read (K × V)} {Q : K × V → Prop}
    (each : Returns p Q) :
    Returns (readMap p) (fun m => Few m.entries ∧ ∀ e ∈ m.entries, Q e) := by
  refine (returns_counted each).bind (fun es all => Returns.pure ⟨?_, fun e mem => ?_⟩)
  · exact (BTreeMap.entries_ofList_le es).trans_lt all.1
  · exact all.2 e (BTreeMap.entries_ofList_subset es mem)

theorem returns_edge : Returns readEdge (fun e => e.1.Coded) := by
  refine (Returns.trivial readU16).bind (fun c _ => (Returns.orFail _ _).bind (fun kind read => ?_))
  exact (Returns.trivial readUid).bind
    (fun uid _ => Returns.pure (EdgeKind.coded_of_from_code read))

theorem returns_node : Returns readNode (fun n => Listed n.2) :=
  (Returns.trivial readUid).bind (fun _ _ => (returns_counted returns_edge).bind
    (fun _ all => Returns.pure ⟨all.1, all.2⟩))

theorem returns_label : Returns readLabel (fun l => Short l.1.text) :=
  (returns_name "label").bind (fun _ short => (Returns.trivial readUid).bind
    (fun _ _ => Returns.pure short))

theorem returns_thread : Returns readThread (fun t => ShortKey t.1) :=
  (returns_name "thread id").bind (fun _ id => (returns_name "agent id").bind
    (fun _ owner => (Returns.trivial readU64).bind (fun _ _ => Returns.pure ⟨id, owner⟩)))

theorem returns_index : Returns readIndex Index.Fits := by
  refine (Returns.trivial readHeader).bind (fun _ _ => ?_)
  refine (Returns.trivial readU64).bind (fun logLen _ => ?_)
  refine (Returns.trivial readBytes32).bind (fun logHash _ => ?_)
  refine (returns_map (Returns.trivial readEntry)).bind (fun entries all => ?_)
  refine (returns_map returns_node).bind (fun fwd forward => ?_)
  refine (returns_map returns_node).bind (fun rev backward => ?_)
  refine (returns_map returns_label).bind (fun labels labelled => ?_)
  refine (returns_map returns_thread).bind (fun threads owned => ?_)
  refine (returns_counted (Returns.trivial readU64)).bind (fun contentions conts => ?_)
  refine (returns_map (Returns.trivial readCached)).bind (fun cache cached => ?_)
  exact Returns.pure {
    entries := all.1
    fwdNodes := forward.1
    fwd := forward.2
    revNodes := backward.1
    rev := backward.2
    labels := labelled.1
    labelled := labelled.2
    threads := owned.1
    owned := owned.2
    contentions := conts.1
    cache := cached.1 }

/-- The index comes back exactly when its fields hold it. -/
theorem from_bytes_iff (ix : Index) : Index.fromBytes ix.toBytes = .ok ix ↔ ix.Fits := by
  refine ⟨fun same => ?_, from_bytes_of_fits⟩
  rw [Index.fromBytes] at same
  cases run : readIndex ix.toBytes with
  | error e =>
    rw [run] at same
    cases same
  | ok result =>
    rw [run] at same
    cases same
    exact returns_index _ _ _ run

end Sidecar
end Smysl
