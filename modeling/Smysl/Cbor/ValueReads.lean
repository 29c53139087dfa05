import Smysl.Cbor.Values

/-!
The values below the record level are read back from the encoder's bytes,
wherever these stand and whatever follows them.
-/
namespace Smysl
open ByteString Cursor Cursor.Parser Dec OrdMap

/-- An item that starts, and not as null does. -/
class Solid (raw : Bytes) : Prop where
  starts : ∃ b, raw.head? = some b ∧ b ≠ 0xF6

instance Solid.append (a b : Bytes) [first : Solid a] : Solid (a ++ b) := by
  obtain ⟨c, head, other⟩ := first.starts
  refine ⟨c, ?_, other⟩
  rw [List.head?_append, head]
  rfl

theorem solid_head {major : Nat} (small : major < 7) (n : Nat) : Solid (Enc.head major n) := by
  obtain ⟨b, first, top⟩ := head_first major n [] (by omega)
  rw [List.append_nil] at first
  refine ⟨b, first, ?_⟩
  rintro rfl
  have null : (0xF6 : UInt8).toNat / 32 = 7 := rfl
  omega

instance (n : Nat) : Solid (Enc.uint n) := solid_head (by norm_num) n

instance (n : Nat) : Solid (Enc.arrayHead n) := solid_head (by norm_num) n

instance (v : Int64) : Solid (Enc.int v) := by
  unfold Enc.int
  split
  · exact solid_head (by norm_num) _
  · exact solid_head (by norm_num) _

instance (b : Bytes) : Solid (Enc.bytes b) := by
  have first := @solid_head 2 (by norm_num) b.length
  unfold Enc.bytes
  infer_instance

instance {kind : DigestKind} (d : Digest kind) : Solid (Enc.digest d) :=
  inferInstanceAs (Solid (Enc.bytes d.asBytes))

instance (v : F32) : Solid (Enc.f32q v) := ⟨0xFA, rfl, by decide⟩

instance : Solid encTrue := ⟨0xF5, rfl, by decide⟩

instance (c : UInt8) : Solid (encCode c) := inferInstanceAs (Solid (Enc.uint c.toNat))

instance (items : List Bytes) : Solid (Enc.array items) :=
  inferInstanceAs (Solid (Enc.arrayHead _ ++ _))

instance (set : BTreeSet Uid) : Solid (Enc.uidSet set) := inferInstanceAs (Solid (Enc.array _))

instance (items : List Bytes) : Solid (Enc.sortedArray items) :=
  inferInstanceAs (Solid (Enc.array _))

instance (es : List (Nat × Bytes)) : Solid (Enc.mapOf es) := by
  have first := @solid_head 5 (by norm_num) es.length
  unfold Enc.mapOf
  infer_instance

instance (es : List (Nat × Bytes)) : Solid (Enc.map es) := inferInstanceAs (Solid (Enc.mapOf _))

instance (p : UInt64 × UInt64) : Solid (encSpan p) := by
  unfold encSpan
  infer_instance

instance {α : Type} [WireCode α] (e : Uid × α) : Solid (encFate e) := by
  unfold encFate
  infer_instance

instance (o : Optimality) : Solid (encOptimality o) := by
  unfold encOptimality
  infer_instance

instance (t : DatingTarget) : Solid (encDatingTarget t) := by
  unfold encDatingTarget
  infer_instance

theorem solid_nonempty (raw : Bytes) [solid : Solid raw] : raw ≠ [] := by
  obtain ⟨b, first, _⟩ := solid.starts
  rintro rfl
  cases first

theorem peek_bind_reads {raw : Bytes} {b : UInt8} (first : raw.head? = some b) {α : Type}
    {f : UInt8 → Parser α} {a : α} (later : Reads (f b) raw a) : Reads (peek >>= f) raw a := by
  intro pos more fits
  cases raw with
  | nil => cases first
  | cons c cs =>
    cases first
    rw [bind_of_ok (show peek ⟨pos, b :: cs ++ more⟩ = .ok (b, _) from rfl)]
    exact later pos more fits

theorem reject_null_reads {raw : Bytes} [solid : Solid raw] {α : Type} {f : Unit → Parser α}
    {a : α} (later : Reads (f ()) raw a) : Reads (rejectNull >>= f) raw a := by
  obtain ⟨b, first, other⟩ := solid.starts
  intro pos more fits
  obtain ⟨c, cs, rfl⟩ := List.exists_cons_of_ne_nil (solid_nonempty raw)
  cases first
  have passed : rejectNull ⟨pos, b :: cs ++ more⟩ = .ok ((), ⟨pos, b :: cs ++ more⟩) := by
    rw [rejectNull, bind_of_ok (show position _ = _ from rfl),
      bind_of_ok (show peek ⟨pos, b :: cs ++ more⟩ = .ok (b, _) from rfl), if_neg other]
    rfl
  rw [bind_of_ok passed, later pos more fits]

theorem code_reads (start : Nat) (c : UInt8) : Reads (code start) (encCode c) c := by
  have read := uint_reads (UInt64.ofNat c.toNat)
  have value : (UInt64.ofNat c.toNat).toNat = c.toNat := by
    rw [UInt64.toNat_ofNat']
    have := c.toNat_lt
    omega
  rw [value] at read
  exact Reads.bind_end read (Reads.orFail ((try_u8_iff _ c).mpr value.symm))

theorem uint32_reads (start : Nat) (v : UInt32) :
    Reads (uint32 start) (Enc.uint v.toNat) v := by
  have read := uint_reads (UInt64.ofNat v.toNat)
  have value : (UInt64.ofNat v.toNat).toNat = v.toNat := by
    rw [UInt64.toNat_ofNat']
    have := v.toNat_lt
    omega
  rw [value] at read
  exact Reads.bind_end read (Reads.orFail ((try_u32_iff _ v).mpr value.symm))

theorem closed_reads {α : Type} [WireCode α] (start : Nat) (a : α) :
    Reads (closed start) (encCode (asU8 a)) a :=
  Reads.bind_end (code_reads start (asU8 a)) (Reads.orFail (from_u8_as_u8 a))

theorem tuple_reads (start : Nat) {n : Nat} (small : n < 2 ^ 64) :
    Reads (tuple start n) (Enc.arrayHead n) () := by
  refine Reads.bind_end (expect_reads (by norm_num) small) ?_
  rw [reject, if_neg (by simp)]
  exact Reads.pure ()

theorem bytes_reads_all (b : Bytes) : Reads bytes (Enc.bytes b) b := by
  refine Reads.of_fits fun fits => bytes_reads b ?_
  rw [Enc.bytes, List.length_append] at fits
  exact lt_of_le_of_lt (Nat.le_add_left _ _) fits

theorem bytes32_reads (b : Bytes32) : Reads decBytes32 (Enc.bytes b.bytes) b := by
  refine Reads.position_bind fun start => Reads.bind_end (bytes_reads_all b.bytes) ?_
  exact Reads.orFail ((Bytes32.try_from_iff _ b).mpr rfl)

theorem digest_reads {kind : DigestKind} (d : Digest kind) :
    Reads decDigest (Enc.digest d) d :=
  Reads.bind_end (bytes32_reads d.raw) (Reads.pure d)

theorem span_reads (start : Nat) {p : UInt64 × UInt64} (forward : p.1 < p.2) :
    Reads (decSpan start) (encSpan p) p := by
  rw [encSpan, List.append_assoc]
  refine Reads.bind (tuple_reads start (by norm_num)) ?_
  refine Reads.bind (uint_reads p.1) (Reads.bind_end (uint_reads p.2) ?_)
  exact Reads.reject_bind (by simpa using forward) (Reads.pure p)

theorem fate_reads {α : Type} [WireCode α] (e : Uid × α) : Reads decFate (encFate e) e := by
  rw [encFate, List.append_assoc]
  refine Reads.position_bind fun start => Reads.bind (tuple_reads start (by norm_num)) ?_
  refine Reads.bind (uid_reads e.1) (Reads.bind_end (closed_reads start e.2) ?_)
  exact Reads.pure e

theorem optimality_reads {o : Optimality} (quantised : o.gap.isQuantised = true) :
    Reads decOptimality (encOptimality o) o := by
  rw [encOptimality, List.append_assoc]
  refine Reads.position_bind fun start => Reads.bind (tuple_reads start (by norm_num)) ?_
  refine Reads.bind (closed_reads start o.mode) (Reads.bind_end (f32q_reads quantised) ?_)
  exact Reads.pure o

theorem true_reads : Reads decTrue encTrue true := by
  refine Reads.position_bind fun start => ?_
  intro pos more fits
  rfl

/-- There are no more items than bytes. -/
theorem count_le_bytes {τ : Type} {raw : τ → Bytes} {items : List τ}
    (filled : ∀ x ∈ items, raw x ≠ []) : items.length ≤ (items.flatMap raw).length := by
  induction items with
  | nil => simp
  | cons x items ih =>
    have first := List.length_pos_iff.mpr (filled x List.mem_cons_self)
    have rest := ih fun y mem => filled y (List.mem_cons_of_mem _ mem)
    rw [List.flatMap_cons, List.length_append, List.length_cons]
    omega

theorem part_le_bytes {τ : Type} {raw : τ → Bytes} {items : List τ} {x : τ} (mem : x ∈ items) :
    (raw x).length ≤ (items.flatMap raw).length := by
  have inside : raw x ∈ items.map raw := List.mem_map_of_mem mem
  rw [List.flatMap_def]
  exact (List.sublist_flatten_of_mem inside).length_le

theorem array_count {items : List Bytes} (solid : ∀ i ∈ items, Solid i)
    (fits : (Enc.array items).length < Cursor.limit) : items.length < 2 ^ 64 := by
  have count := count_le_bytes fun i mem => @solid_nonempty i (solid i mem)
  rw [List.flatMap_id'] at count
  rw [Enc.array, List.length_append, Cursor.limit] at fits
  omega

theorem solid_map {α : Type} {write : α → Bytes} {l : List α} (solid : ∀ a, Solid (write a)) :
    ∀ i ∈ l.map write, Solid i := by
  intro i mem
  obtain ⟨a, _, rfl⟩ := List.mem_map.mp mem
  exact solid a

theorem array_reads {α : Type} {p : Parser α} {write : α → Bytes} {l : List α}
    (each : ∀ a ∈ l, Reads p (write a) a) (solid : ∀ a, Solid (write a)) :
    Reads (array p) (Enc.array (l.map write)) l := by
  refine Reads.of_fits fun fits => ?_
  have count := array_count (solid_map solid) fits
  rw [List.length_map] at count
  rw [Enc.array, Enc.arrayHead, List.length_map]
  refine Reads.bind (expect_reads (by norm_num) count) (Reads.times ?_)
  clear count fits
  induction l with
  | nil => exact .nil
  | cons a l ih =>
    exact .cons (each a List.mem_cons_self) (ih fun b mem => each b (List.mem_cons_of_mem _ mem))

theorem not_any_above {κ : Type} [LinearOrder κ] {prev : Option κ} {k : κ}
    (above : ∀ p ∈ prev, p < k) : ¬ (prev.any (fun p => k ≤ p)) = true := by
  simp only [Option.any_eq_true, decide_eq_true_eq, not_exists, not_and, not_le]
  exact above

theorem uid_set_reads (set : BTreeSet Uid) : Reads uidSet (Enc.uidSet set) set := by
  refine Reads.of_fits fun fits => ?_
  have count := array_count (solid_map fun u : Uid => inferInstance) fits
  rw [List.length_map] at count
  rw [Enc.uidSet, Enc.array, Enc.arrayHead, List.length_map, ← List.flatMap_def]
  refine Reads.position_bind fun start => Reads.bind (expect_reads (by norm_num) count) ?_
  refine Reads.loop_ascending_bind BTreeSet.insert (fun st u _ above => ?_) set.toList_pairwise fun last => ?_
  · refine Reads.bind_end (uid_reads u) ?_
    rw [if_neg (not_any_above above)]
    exact Reads.pure _
  · have same : set.toList.foldl BTreeSet.insert ∅ = set := BTreeSet.ofList_toList set
    rw [same]
    exact Reads.pure set

/-- A set written in the order of its encoded elements is read in that order. -/
theorem sorted_set_reads {α : Type} [LinearOrder α] {p : Parser α} {write : α → Bytes}
    {set : BTreeSet α} (each : ∀ a ∈ set.toList, Reads p (write a) a)
    (solid : ∀ a, Solid (write a)) : ∃ l, BTreeSet.ofList l = set ∧
      Reads (sortedArray p) (Enc.sortedArray (set.toList.map write)) l := by
  let below (a b : α) : Prop := write a ≤ write b
  have : Std.Total below := ⟨fun a b => le_total (write a) (write b)⟩
  have : IsTrans α below := ⟨fun a b c => le_trans⟩
  let l := set.toList.insertionSort below
  have perm : l.Perm set.toList := List.perm_insertionSort _ _
  have written : Enc.sortedArray (set.toList.map write) = Enc.array (l.map write) := by
    rw [Enc.sortedArray, ← List.map_insertionSort below _ write _ fun _ _ _ _ => Iff.rfl]
  have members : BTreeSet.ofList l = set := by
    refine BTreeSet.ext_mem fun a => ?_
    rw [BTreeSet.mem_ofList, perm.mem_iff, BTreeSet.mem_toList]
  refine ⟨l, members, ?_⟩
  rw [written]
  refine Reads.of_fits fun fits => ?_
  have count := array_count (solid_map solid) fits
  rw [List.length_map] at count
  have short : ∀ a ∈ l, (write a).length < Cursor.limit := by
    intro a mem
    have part := @part_le_bytes _ write l a mem
    rw [Enc.array, ← List.flatMap_def, List.length_append] at fits
    omega
  have ascending : l.Pairwise (fun a b => write a < write b) := by
    have sorted : l.Pairwise below := List.pairwise_insertionSort below set.toList
    have nodup : l.Nodup := perm.nodup_iff.mpr set.toList_nodup
    refine (sorted.and nodup).imp_of_mem fun memA memB both => lt_of_le_of_ne both.1 fun same => ?_
    have readA := each _ (perm.mem_iff.mp memA)
    have readB := each _ (perm.mem_iff.mp memB)
    rw [← same] at readB
    exact both.2 (Reads.unique readA readB (short _ memA))
  rw [Enc.array, Enc.arrayHead, List.length_map, ← List.flatMap_def]
  refine Reads.position_bind fun start => Reads.bind (expect_reads (by norm_num) count) ?_
  refine Reads.loop_ascending_bind (fun seen a => seen ++ [a]) (fun st a mem above => ?_)
    ascending fun last => ?_
  · refine Reads.bind_end (Reads.spanned (each a (perm.mem_iff.mp mem))) ?_
    rw [if_neg (not_any_above above)]
    exact Reads.pure _
  · have same : l.foldl (fun seen a => seen ++ [a]) [] = l := by
      simp [← List.flatMap_def]
    rw [same]
    exact Reads.pure l

theorem dating_target_reads (t : DatingTarget) : Reads decDatingTarget (encDatingTarget t) t := by
  have kinds : ∀ n : Nat, n < 4 → (UInt64.ofNat n).toNat = n := by
    intro n low
    rw [UInt64.toNat_ofNat']
    omega
  have kindReads : ∀ n : Nat, n < 4 → Reads uint (Enc.uint n) (UInt64.ofNat n) := by
    intro n low
    have read := uint_reads (UInt64.ofNat n)
    rwa [kinds n low] at read
  unfold encDatingTarget
  rw [List.append_assoc]
  refine Reads.position_bind fun start => Reads.bind (tuple_reads start (by norm_num)) ?_
  cases t with
  | unit u =>
    refine Reads.bind (kindReads 0 (by norm_num)) ?_
    exact Reads.bind_end (uid_reads u) (Reads.pure _)
  | part tid =>
    refine Reads.bind (kindReads 1 (by norm_num)) ?_
    exact Reads.bind_end (digest_reads tid) (Reads.pure _)
  | manifest mid =>
    refine Reads.bind (kindReads 2 (by norm_num)) ?_
    exact Reads.bind_end (digest_reads mid) (Reads.pure _)
  | window tid fromMs toMs =>
    refine Reads.bind (kindReads 3 (by norm_num)) ?_
    dsimp only
    rw [List.append_assoc, List.append_assoc]
    refine Reads.bind (tuple_reads start (by norm_num)) (Reads.bind (digest_reads tid) ?_)
    exact Reads.bind (uint_reads fromMs) (Reads.bind_end (uint_reads toMs) (Reads.pure _))

section
variable [Unicode]

/-- Text in normal form. -/
def Nfc (s : String) : Prop := Unicode.isNfc s = true

theorem text_reads_all {s : String} (nfc : Nfc s) : Reads text (Enc.text s) s := by
  refine Reads.of_fits fun fits => text_reads nfc ?_
  rw [Enc.text, normalise_of_nfc nfc, List.length_append] at fits
  exact lt_of_le_of_lt (Nat.le_add_left _ _) fits

theorem named_reads {α : Type} (start : Nat) {parse : String → Option α} {s : String} {a : α}
    (parsed : parse s = some a) (ascii : Ascii (utf8 s)) :
    Reads (named start parse) (Enc.text s) a :=
  Reads.bind_end (text_reads_all (nfc_of_ascii ascii)) (Reads.orFail parsed)

theorem name_reads {kind : NameKind} (start : Nat) (a : Name kind) :
    Reads (named start Name.new) (Enc.text a.text) a :=
  named_reads start ((Name.new_iff a.text a).mpr rfl) (name_ascii a)

theorem wire_name_reads {α : Type} [WireName α] (start : Nat) (a : α) :
    Reads (named start WireName.parse) (Enc.text (WireName.asStr a)) a :=
  named_reads start ((WireName.parse_iff _ a).mpr rfl) (WireName.ascii a)

instance (s : String) : Solid (Enc.text s) := by
  have first := @solid_head 3 (by norm_num) (utf8 (normalise s)).length
  unfold Enc.text
  infer_instance

instance (h : Hlc) : Solid (encHlc h) := by
  unfold encHlc
  infer_instance

instance (k : RelKind) : Solid (encRelKind k) := by
  unfold encRelKind
  split <;> infer_instance

instance (s : Step) : Solid (encStep s) := by
  unfold encStep
  infer_instance

instance (d : Detected) : Solid (encDetected d) := by
  unfold encDetected
  infer_instance

instance (p : PartEntry) : Solid (encPartEntry p) := by
  unfold encPartEntry
  infer_instance

theorem hlc_reads (h : Hlc) : Reads decHlc (encHlc h) h := by
  rw [encHlc, List.append_assoc, List.append_assoc]
  refine Reads.position_bind fun start => Reads.bind (tuple_reads start (by norm_num)) ?_
  refine Reads.bind (uint_reads h.wallMs) (Reads.bind (uint32_reads start h.counter) ?_)
  exact Reads.bind_end (name_reads start h.agent) (Reads.pure h)

/-- A code for a kernel relation, its name for any other. -/
theorem rel_kind_reads {k : RelKind} (parsed : RelKind.parse k.asStr = some k) :
    Reads decRelKind (encRelKind k) k := by
  refine Reads.position_bind fun start => ?_
  cases coded : k.code with
  | some c =>
    have written : encRelKind k = encCode c := by rw [encRelKind, coded]
    rw [written]
    obtain ⟨b, first, top⟩ := head_first 0 c.toNat [] (by norm_num)
    rw [List.append_nil] at first
    refine peek_bind_reads first ?_
    rw [if_pos top]
    exact Reads.bind_end (code_reads start c) (Reads.orFail (RelKind.from_code_code coded))
  | none =>
    have written : encRelKind k = Enc.text k.asStr := by rw [encRelKind, coded]
    rw [written]
    obtain ⟨b, first, top⟩ := head_first 3 (utf8 (normalise k.asStr)).length
      (utf8 (normalise k.asStr)) (by norm_num)
    refine peek_bind_reads first ?_
    rw [if_neg (by omega), if_pos top]
    exact named_reads start parsed (rel_kind_ascii parsed)

theorem step_reads {s : Step} (writable : s.role.Writable) (note : ∀ n ∈ s.note, Nfc n) :
    Reads decStep (encStep s) s := by
  have known := Open.read_of_writable s.role writable
  obtain ⟨role, unit, said⟩ := s
  refine Reads.position_bind fun start => ?_
  cases said with
  | none =>
    simp only [encStep, Option.isSome_none, Bool.false_eq_true, if_false, List.append_nil,
      List.append_assoc]
    refine Reads.bind (expect_reads (by norm_num) (by norm_num)) (Reads.reject_bind rfl ?_)
    refine Reads.bind (code_reads start role.rawCode) (Reads.bind_end (uid_reads unit) ?_)
    exact Reads.bind_end (Reads.pure none) (Reads.orFail_bind known (Reads.pure _))
  | some n =>
    simp only [encStep, Option.isSome_some, if_true, List.append_assoc]
    refine Reads.bind (expect_reads (by norm_num) (by norm_num)) (Reads.reject_bind rfl ?_)
    refine Reads.bind (code_reads start role.rawCode) (Reads.bind (uid_reads unit) ?_)
    have noted : Reads (stepNote true) (Enc.text n) (some n) :=
      Reads.bind_end (text_reads_all (note n rfl)) (Reads.pure _)
    exact Reads.bind_end noted (Reads.orFail_bind known (Reads.pure _))

theorem detected_reads {d : Detected} (kind : d.kind.Writable) :
    Reads decDetected (encDetected d) d := by
  rw [encDetected, List.append_assoc]
  refine Reads.position_bind fun start => Reads.bind (tuple_reads start (by norm_num)) ?_
  refine Reads.bind (code_reads start d.kind.rawCode) (Reads.bind_end (hlc_reads d.ts) ?_)
  exact Reads.orFail_bind (Open.read_of_writable d.kind kind) (Reads.pure d)

theorem dating_value_reads {v : DatingValue} (nfc : ∀ t, v = .absolute t → Nfc t) :
    Reads decDatingValue (encDatingValue v) v := by
  have single : ∀ (k : Nat) (raw : Bytes), Enc.map (put k raw) =
      Enc.head 5 1 ++ (Enc.uint k ++ raw) := by
    intro k raw
    simp [Enc.map, Enc.mapOf, Enc.entry, put]
  have keyReads : ∀ n : Nat, n < 3 → Reads uint (Enc.uint n) (UInt64.ofNat n) := by
    intro n low
    have read := uint_reads (UInt64.ofNat n)
    have value : (UInt64.ofNat n).toNat = n := by
      rw [UInt64.toNat_ofNat']
      omega
    rwa [value] at read
  refine Reads.position_bind fun start => ?_
  cases v with
  | absolute t =>
    rw [encDatingValue, single]
    refine Reads.bind (expect_reads (by norm_num) (by norm_num)) (Reads.reject_bind rfl ?_)
    refine Reads.bind (keyReads 0 (by norm_num)) ?_
    exact Reads.bind_end (text_reads_all (nfc t rfl)) (Reads.pure _)
  | offset ms =>
    rw [encDatingValue, single]
    refine Reads.bind (expect_reads (by norm_num) (by norm_num)) (Reads.reject_bind rfl ?_)
    refine Reads.bind (keyReads 1 (by norm_num)) ?_
    exact Reads.bind_end (int_reads ms) (Reads.pure _)
  | relative allen target =>
    rw [encDatingValue, single]
    refine Reads.bind (expect_reads (by norm_num) (by norm_num)) (Reads.reject_bind rfl ?_)
    refine Reads.bind (keyReads 2 (by norm_num)) ?_
    rw [List.append_assoc]
    refine Reads.bind (tuple_reads start (by norm_num)) ?_
    refine Reads.bind (wire_name_reads start allen) ?_
    exact Reads.bind_end (dating_target_reads target) (Reads.pure _)

/-- Text is an item. -/
theorem skip_text_reads {s : String} (nfc : Nfc s) :
    Reads skipItem (Enc.text s) (Enc.text s) := by
  refine Reads.of_fits fun fits => ?_
  rw [Enc.text, normalise_of_nfc nfc, List.length_append, Cursor.limit] at fits
  obtain ⟨b, first, top⟩ := head_first 3 (utf8 s).length (utf8 s) (by norm_num)
  have item : Reads (skipOne (maxNesting + 1)) (Enc.text s) () := by
    rw [Enc.text, normalise_of_nfc nfc]
    refine Reads.position_bind fun start => peek_bind_reads first ?_
    have null : ¬ b = 0xF6 := by
      rintro rfl
      have : (0xF6 : UInt8).toNat / 32 = 7 := rfl
      omega
    rw [if_neg null, if_neg (by omega)]
    refine Reads.bind (head_reads (by norm_num) (by omega)) (Reads.position_bind fun after => ?_)
    rw [if_neg (by norm_num), if_neg (by norm_num), if_pos rfl]
    have body : Reads (textOf after (utf8 s).length) (utf8 s) s := by
      refine Reads.bind_end (take_reads (utf8 s)) ?_
      refine Reads.orFail_bind ((from_utf8_iff _ s).mpr rfl) ?_
      have accepted : Unicode.isNfc s = true := nfc
      rw [if_pos accepted]
      exact Reads.pure s
    exact Reads.bind_end body (Reads.pure ())
  exact Reads.bind_end (Reads.spanned item) (Reads.pure _)

/-- The entries of a text map, in the order of their encoded keys, above what
was already read. -/
theorem text_entries_read {body : Option Bytes × BTreeMap String String →
      Parser (Option Bytes × BTreeMap String String)} {es : List (String × String)}
    (round : ∀ st : Option Bytes × BTreeMap String String, ∀ e ∈ es,
      (∀ p ∈ st.1, p < Enc.text e.1) → st.2.contains e.1 = false → Reads (body st)
        (Enc.text e.1 ++ Enc.text e.2) (some (Enc.text e.1), st.2.insert e.1 e.2))
    (ascending : es.Pairwise (fun e f => Enc.text e.1 < Enc.text f.1))
    (st : Option Bytes × BTreeMap String String)
    (above : ∀ p ∈ st.1, ∀ e ∈ es, p < Enc.text e.1)
    (fresh : ∀ e ∈ es, st.2.contains e.1 = false) : ∃ last,
      Reads (loop body es.length st) (es.flatMap fun e => Enc.text e.1 ++ Enc.text e.2)
        (last, es.foldl (fun m e => m.insert e.1 e.2) st.2) := by
  induction es generalizing st with
  | nil => exact ⟨st.1, Reads.pure _⟩
  | cons e es ih =>
    obtain ⟨least, ascending⟩ := List.pairwise_cons.mp ascending
    have first := round st e List.mem_cons_self (fun p held => above p held e List.mem_cons_self)
      (fresh e List.mem_cons_self)
    obtain ⟨last, later⟩ := ih (fun st f mem => round st f (List.mem_cons_of_mem _ mem)) ascending
      (some (Enc.text e.1), st.2.insert e.1 e.2) (by
        rintro p ⟨rfl⟩ f mem
        exact least f mem) (by
        intro f mem
        have other : f.1 ≠ e.1 := by
          intro same
          have step := least f mem
          rw [same] at step
          exact absurd step (lt_irrefl _)
        have before := fresh f (List.mem_cons_of_mem _ mem)
        rw [BTreeMap.contains] at before ⊢
        rw [BTreeMap.get_insert, if_neg other]
        exact before)
    exact ⟨last, Reads.bind first later⟩

theorem text_entries_bind {α : Type} {body : Option Bytes × BTreeMap String String →
      Parser (Option Bytes × BTreeMap String String)} {es : List (String × String)}
    {f : Option Bytes × BTreeMap String String → Parser α} {a : α}
    (round : ∀ st : Option Bytes × BTreeMap String String, ∀ e ∈ es,
      (∀ p ∈ st.1, p < Enc.text e.1) → st.2.contains e.1 = false → Reads (body st)
        (Enc.text e.1 ++ Enc.text e.2) (some (Enc.text e.1), st.2.insert e.1 e.2))
    (ascending : es.Pairwise (fun e f => Enc.text e.1 < Enc.text f.1))
    (finish : ∀ last, Reads (f (last, es.foldl (fun m e => m.insert e.1 e.2) ∅)) [] a) :
    Reads (loop body es.length (none, ∅) >>= f)
      (es.flatMap fun e => Enc.text e.1 ++ Enc.text e.2) a := by
  obtain ⟨last, run⟩ := text_entries_read round ascending (none, ∅) (fun p held => nomatch held)
    (fun e _ => rfl)
  exact Reads.bind_end run (finish last)

/-- A map of texts is read back by a body that reads back its entries. -/
theorem text_map_read {body : Nat → Option Bytes × BTreeMap String String →
      Parser (Option Bytes × BTreeMap String String)} {m : BTreeMap String String}
    (nfc : ∀ e ∈ m.entries, Nfc e.1 ∧ Nfc e.2)
    (round : ∀ start st, ∀ e : String × String, Nfc e.1 → Nfc e.2 →
      (Enc.text e.1).length < Cursor.limit → (∀ p ∈ st.1, p < Enc.text e.1) →
        st.2.contains e.1 = false → Reads (body start st) (Enc.text e.1 ++ Enc.text e.2)
          (some (Enc.text e.1), st.2.insert e.1 e.2)) :
    Reads (do
      let start ← position
      let n ← mapHead
      let out ← loop (body start) n (none, ∅)
      pure out.2) (encTextMap m.entries) m := by
  refine Reads.of_fits fun fits => ?_
  let below (e f : String × String) : Prop := Enc.text e.1 ≤ Enc.text f.1
  have : Std.Total below := ⟨fun e f => le_total (Enc.text e.1) (Enc.text f.1)⟩
  have : IsTrans (String × String) below := ⟨fun a b c => le_trans⟩
  let row (e : String × String) : Bytes := Enc.text e.1 ++ Enc.text e.2
  generalize sortedBy : m.entries.insertionSort below = es
  have perm : es.Perm m.entries := sortedBy ▸ List.perm_insertionSort _ _
  have written : encTextMap m.entries = Enc.head 5 es.length ++ es.flatMap row := by
    simp only [encTextMap]
    rw [← List.map_insertionSort below _ (fun e => (Enc.text e.1, Enc.text e.2)) _
      fun _ _ _ _ => Iff.rfl, sortedBy, List.length_map, List.flatMap_map]
  have nfcAll : ∀ e ∈ es, Nfc e.1 ∧ Nfc e.2 := fun e mem => nfc e (perm.mem_iff.mp mem)
  rw [written] at fits ⊢
  rw [List.length_append, Cursor.limit] at fits
  have count := @count_le_bytes _ row es fun e _ => solid_nonempty _
  have small : ∀ e ∈ es, (Enc.text e.1).length < Cursor.limit := by
    intro e mem
    have part := @part_le_bytes _ row es e mem
    rw [List.length_append] at part
    rw [Cursor.limit]
    omega
  have ascending : es.Pairwise (fun e f => Enc.text e.1 < Enc.text f.1) := by
    have sorted : es.Pairwise below := sortedBy ▸ List.pairwise_insertionSort below m.entries
    have nodup : (es.map Prod.fst).Nodup := (perm.map Prod.fst).nodup_iff.mpr m.keys_nodup
    refine (sorted.and (List.pairwise_map.mp nodup)).imp_of_mem fun {e f} memE memF both => ?_
    refine lt_of_le_of_ne both.1 fun same => both.2 ?_
    have readF := text_reads_all (nfcAll f memF).1
    rw [← same] at readF
    exact Reads.unique (text_reads_all (nfcAll e memE).1) readF (small e memE)
  refine Reads.position_bind fun start => Reads.bind (expect_reads (by norm_num) (by omega)) ?_
  have same : es.foldl (fun m e => m.insert e.1 e.2) ∅ = m := BTreeMap.ofList_perm perm
  refine text_entries_bind (fun st e mem above fresh => ?_) ascending fun last => ?_
  · obtain ⟨nfcK, nfcV⟩ := nfcAll e mem
    exact round start st e nfcK nfcV (small e mem) above fresh
  · rw [same]
    exact Reads.pure m

/-- A key read on its own, from the bytes kept of it. -/
theorem text_key_read {s : String} (nfc : Nfc s) (fits : (Enc.text s).length < Cursor.limit) :
    text ⟨0, Enc.text s⟩ = .ok (s, ⟨(Enc.text s).length, []⟩) := by
  have read := text_reads_all nfc 0 [] (by rw [Cursor.limit] at fits ⊢; omega)
  rw [List.append_nil, Nat.zero_add] at read
  exact read

theorem text_key_kept {s : String} (nfc : Nfc s) (fits : (Enc.text s).length < Cursor.limit) :
    (match text ⟨0, Enc.text s⟩ with
      | .ok (k, _) => some k
      | .error _ => none) = some s := by
  rw [text_key_read nfc fits]

theorem text_map_reads {m : BTreeMap String String} (nfc : ∀ e ∈ m.entries, Nfc e.1 ∧ Nfc e.2) :
    Reads decTextMap (encTextMap m.entries) m := by
  apply text_map_read nfc
  intro start st e nfcK nfcV fits above fresh
  refine Reads.position_bind fun kstart => Reads.bind (skip_text_reads nfcK) ?_
  refine Reads.orFail_bind (text_key_kept nfcK fits) ?_
  rw [if_neg (not_any_above above)]
  refine reject_null_reads (Reads.bind_end (text_reads_all nfcV) ?_)
  rw [if_neg (by simp [fresh])]
  exact Reads.pure _

end
end Smysl
