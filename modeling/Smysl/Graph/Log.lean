import Smysl.Cbor.RoundTrip
import Smysl.Graph.Identity

/-!
A log on disk: opening it reads the records up to the last complete one, and
appending writes at the physical end of the file, whatever is there.
-/
namespace Smysl
open ByteString Cursor Dec

section
variable [Unicode] [Blake3]

namespace Store

/-- The store of a log file. A truncated tail is not an error. -/
def openLog (file : Bytes) : Except CodecError Store :=
  match fromCborSeq file with
  | .ok (records, consumed) => .ok (ofLog records (file.take consumed))
  | .error e => .error e

/-- Records a log accepts, as long as their encodings can be read back. -/
def Loggable (records : List Record) : Prop :=
  refuseUnloggable records = .ok () ∧ (∀ r ∈ records, r.Valid)

/-- Opened on `file`, a store takes `added` and the file then opens with what
the store held and what was fresh of it. -/
def AppendsSafely (file : Bytes) (held added : List Record) : Prop :=
  ∃ s, openLog file = .ok s ∧ s.records = held ∧
    ∃ s' report bytes, s.append added = .ok (s', report, bytes) ∧
      ∃ s'', openLog (file ++ bytes) = .ok s'' ∧
        s''.records = held ++ (splitFresh s.recordHashes added).1

theorem of_log_records (records : List Record) (log : Bytes) :
    (ofLog records log).records = records := absorb_hashed_records new records _

theorem append_bytes {s : Store} {added : List Record}
    (loggable : refuseUnloggable added = .ok ()) :
    ∃ s' report, s.append added =
      .ok (s', report, toCborSeq (splitFresh s.recordHashes added).1) := by
  rw [append, loggable]
  dsimp only
  split
  · rename_i none
    rw [List.isEmpty_iff.mp none]
    exact ⟨_, _, rfl⟩
  · exact ⟨_, _, rfl⟩

/-- What a file opens with. -/
theorem open_log_ok {file : Bytes} {records : List Record} {n : Nat}
    (read : fromCborSeq file = .ok (records, n)) :
    openLog file = .ok (ofLog records (file.take n)) := by
  rw [openLog, read]

theorem open_log_records {file : Bytes} {s : Store} (opened : openLog file = .ok s) :
    ∃ n, fromCborSeq file = .ok (s.records, n) := by
  rw [openLog] at opened
  split at opened
  · rename_i records n read
    cases opened
    exact ⟨n, by rw [of_log_records, read]⟩
  · cases opened

end Store

theorem Store.of_log_hashes (records : List Record) (log : Bytes) (h : Bytes32) :
    h ∈ (ofLog records log).recordHashes ↔ h ∈ records.map recordHash := by
  have same : (ofLog records log).recordHashes = new.recordHashes.extend (records.map recordHash) :=
    (absorb_hashed_alike new records _).hashes.trans (Store.fold_hashes records _)
  rw [same, BTreeSet.mem_extend]
  exact or_iff_left (BTreeSet.not_mem_emptyCollection h)

/-- An unknown record with a payload of one zero byte. -/
def probe (code : UInt64) : Record := .unknown code [0]

omit [Blake3] in
theorem zero_item : IsItem [0] where
  fits := by decide
  reads := by
    have item : Reads (skipOne (maxNesting + 1)) [0] () := by
      refine Reads.position_bind fun start => @peek_bind_reads [0] 0 rfl _ _ _ ?_
      rw [if_neg (by decide), if_neg (by decide)]
      have first : Reads head (Enc.head 0 0) (0, 0) := head_reads (by norm_num) (by norm_num)
      refine Reads.bind_end first (Reads.position_bind fun after => ?_)
      rw [if_pos (Or.inl rfl)]
      exact Reads.pure ()
    exact Reads.bind_end (Reads.spanned item) (Reads.pure _)

omit [Blake3] in
theorem probe_valid {code : UInt64} (beyond : code ∉ Record.known) : (probe code).Valid :=
  ⟨beyond, zero_item⟩

omit [Blake3] in
/-- A record of an unknown type is read only from its own encoding. -/
theorem unknown_encoding {bytes : Bytes} {code : UInt64} {payload : Bytes} {n : Nat}
    (beyond : code ∉ Record.known) (read : fromCbor bytes = .ok (.unknown code payload, n)) :
    toCbor (.unknown code payload) = bytes.take n := by
  obtain ⟨d, raw, _, taken, exact⟩ := from_cbor_parts read
  have plain : CanonicalPayload code d := by
    unfold CanonicalPayload
    split <;> trivial
  rw [taken, toCbor, exact.mpr plain]

omit [Blake3] in
/-- After a torn record no probe reads as itself. -/
theorem probe_not_after_torn {code : UInt64} (beyond : code ∉ Record.known)
    (nonzero : 0 ∉ Enc.uint code.toNat) {r : Record} (valid : r.Valid)
    (fits : (toCbor r).length < limit) {torn s : Bytes} (cut : toCbor r = torn ++ s) (left : s ≠ [])
    (begun : torn ≠ []) : ¬ toCbor (probe code) <+: torn ++ toCbor (probe code) := by
  intro reads
  have leftover : 0 < s.length := List.length_pos_iff.mpr left
  have start : 0 < torn.length := List.length_pos_iff.mpr begun
  have total : (toCbor r).length = torn.length + s.length := by rw [cut, List.length_append]
  by_cases short : (toCbor (probe code)).length ≤ torn.length
  · -- the torn record starts with the probe, so it is the probe and was complete
    obtain ⟨more, whole⟩ := List.prefix_of_prefix_length_le reads (List.prefix_append _ _) short
    have asProbe := from_cbor_reads (probe_valid beyond) (by omega) (more ++ s)
    rw [← List.append_assoc, whole, ← cut] at asProbe
    have asRecord := from_cbor_reads valid fits []
    rw [List.append_nil, asProbe] at asRecord
    injection asRecord with same
    injection same with _ length
    omega
  · -- the probe ends in its only zero byte, which would have to come earlier again
    obtain ⟨w, split⟩ := List.prefix_of_prefix_length_le (List.prefix_append torn _) reads (by omega)
    have again : w <+: toCbor (probe code) := by
      have both := reads
      rw [← split, List.prefix_append_right_inj] at both
      rwa [split] at both
    let body := Enc.arrayHead 2 ++ Enc.uint code.toNat
    have shape : toCbor (probe code) = body ++ [0] := rfl
    have size := congrArg List.length split
    rw [List.length_append] at size
    have early : w <+: body := by
      refine List.prefix_of_prefix_length_le again ⟨[0], shape.symm⟩ ?_
      rw [shape, List.length_append, List.length_singleton] at size
      omega
    have last : (0 : UInt8) ∈ w := by
      rw [shape] at split
      have filled : w ≠ [] := by
        rintro rfl
        rw [List.length_nil] at size
        omega
      have ends := congrArg List.getLast? split
      rw [List.getLast?_append_of_ne_nil _ filled, List.getLast?_concat] at ends
      exact List.mem_of_getLast? ends
    have inBody := early.subset last
    rcases List.mem_append.mp inBody with mem | mem
    · exact absurd mem (by decide)
    · exact nonzero mem

omit [Blake3] in
/-- Reading on after valid records. -/
theorem seq_from_after {vs : List Record} (valid : ∀ r ∈ vs, r.Valid)
    (fits : (toCborSeq vs).length < limit) {bytes more : Bytes} {fuel off : Nat}
    (out : List Record) (left : bytes.drop off = toCborSeq vs ++ more) (enough : vs.length ≤ fuel) :
    seqFrom fuel bytes off out =
      seqFrom (fuel - vs.length) bytes (off + (toCborSeq vs).length) (out ++ vs) := by
  induction vs generalizing fuel off out with
  | nil => simp [toCborSeq]
  | cons r vs ih =>
    have split : toCborSeq (r :: vs) = toCbor r ++ toCborSeq vs := rfl
    rw [split, List.length_append] at fits
    rw [split, List.append_assoc] at left
    rw [List.length_cons] at enough
    obtain ⟨fuel, rfl⟩ : ∃ f, fuel = f + 1 := ⟨fuel - 1, by omega⟩
    have filled : 0 < (toCbor r).length := List.length_pos_iff.mpr (to_cbor_nonempty r)
    have here : off < bytes.length := by
      by_contra past
      rw [List.drop_eq_nil_of_le (by omega)] at left
      simp [to_cbor_nonempty] at left
    have next : bytes.drop (off + (toCbor r).length) = toCborSeq vs ++ more := by
      rw [← List.drop_drop, left, List.drop_left]
    have first := from_cbor_reads (valid r List.mem_cons_self) (by omega) (toCborSeq vs ++ more)
    rw [seqFrom, if_pos here, left, first]
    dsimp only
    rw [ih (fun x mem => valid x (List.mem_cons_of_mem _ mem)) (by omega) (out ++ [r]) next
      (by omega), split, List.length_append, List.append_assoc, List.length_cons,
      Nat.add_sub_add_right, Nat.add_assoc]
    rfl

omit [Blake3] in
/-- What was read stays read. -/
theorem seq_from_extends {fuel off n : Nat} {bytes : Bytes} {out records : List Record}
    (run : seqFrom fuel bytes off out = .ok (records, n)) : out <+: records := by
  induction fuel generalizing off out with
  | zero =>
    cases run
    exact List.prefix_refl _
  | succ fuel ih =>
    rw [seqFrom] at run
    split at run
    · split at run
      · exact (List.prefix_append _ _).trans (ih run)
      · cases run
        exact List.prefix_refl _
      · cases run
    · cases run
      exact List.prefix_refl _

omit [Blake3] in
theorem to_cbor_seq_append (rs ts : List Record) :
    toCborSeq (rs ++ ts) = toCborSeq rs ++ toCborSeq ts := List.flatMap_append

omit [Blake3] in
theorem ReadsComplete.unique {rs : List Record} {t : Bytes} {j k : Nat}
    (one : ReadsComplete rs t j) (other : ReadsComplete rs t k) : j = k := by
  have below : ∀ {a b : Nat}, ReadsComplete rs t a → ReadsComplete rs t b → ¬ a < b := by
    intro a b first second less
    have most := first.most (by have := second.some; omega)
    have grows := (to_cbor_seq_taken (rs.take b) (a + 1)).length_le
    rw [List.take_take, min_eq_left (by omega)] at grows
    have := second.complete
    omega
  have := below one other
  have := below other one
  omega

omit [Blake3] in
/-- A file that is not cut at the end of a record ends in part of one. -/
theorem cut_record {rs : List Record} {t : Bytes} {k : Nat} (cut : t <+: toCborSeq rs)
    (complete : ReadsComplete rs t k) (other : t ≠ toCborSeq (rs.take k)) :
    ∃ r ∈ rs, ∃ torn s, t = toCborSeq (rs.take k) ++ torn ∧ toCbor r = torn ++ s ∧ torn ≠ [] ∧
      s ≠ [] := by
  obtain ⟨torn, whole⟩ := List.prefix_of_prefix_length_le (to_cbor_seq_taken rs k) cut
    complete.complete
  have begun : torn ≠ [] := by
    rintro rfl
    rw [List.append_nil] at whole
    exact other whole.symm
  have parts := to_cbor_seq_append (rs.take k) (rs.drop k)
  rw [List.take_append_drop] at parts
  have tail : torn <+: toCborSeq (rs.drop k) := by
    rw [← whole, parts, List.prefix_append_right_inj] at cut
    exact cut
  have inside : k < rs.length := by
    by_contra past
    rw [List.drop_eq_nil_of_le (by omega)] at tail
    exact begun (List.prefix_nil.mp tail)
  have short := complete.most inside
  rw [← whole, List.take_succ_eq_append_getElem inside, to_cbor_seq_append, List.length_append,
    List.length_append] at short
  have alone : toCborSeq [rs[k]] = toCbor rs[k] := List.append_nil _
  rw [alone] at short
  rw [List.drop_eq_getElem_cons inside] at tail
  obtain ⟨s, split⟩ := List.prefix_of_prefix_length_le tail (List.prefix_append (toCbor rs[k]) _)
    (by omega)
  refine ⟨rs[k], List.getElem_mem inside, torn, s, whole.symm, split.symm, begun, ?_⟩
  rintro rfl
  rw [List.append_nil] at split
  rw [split] at short
  omega

omit [Blake3] in
/-- A file cut inside a record does not read on to a probe written after it. -/
theorem torn_file_misreads {code : UInt64} (beyond : code ∉ Record.known)
    {vs : List Record} (valid : ∀ r ∈ vs, r.Valid) (fits : (toCborSeq vs).length < limit) {torn : Bytes}
    (apart : ¬ toCbor (probe code) <+: torn ++ toCbor (probe code)) (n : Nat) :
    fromCborSeq (toCborSeq vs ++ (torn ++ toCbor (probe code))) ≠ .ok (vs ++ [probe code], n) := by
  intro run
  let more := torn ++ toCbor (probe code)
  have counted : vs.length ≤ (toCborSeq vs).length := by
    have count := @count_le_bytes _ toCbor vs fun r _ => to_cbor_nonempty r
    exact count
  have filled : 0 < more.length := by
    have := List.length_pos_iff.mpr (to_cbor_nonempty (probe code))
    rw [List.length_append]
    omega
  rw [fromCborSeq, @seq_from_after _ vs valid fits _ more _ 0 [] rfl (by
    rw [List.length_append]
    omega)] at run
  obtain ⟨fuel, again⟩ : ∃ f, (toCborSeq vs ++ more).length - vs.length = f + 1 :=
    ⟨(toCborSeq vs ++ more).length - vs.length - 1, by rw [List.length_append]; omega⟩
  rw [show torn ++ toCbor (probe code) = more from rfl, again, seqFrom, Nat.zero_add,
    if_pos (by rw [List.length_append]; omega), List.drop_left] at run
  split at run
  · rename_i r m read
    have first := seq_from_extends run
    rw [List.nil_append, List.prefix_append_right_inj] at first
    have same : r = probe code := by
      obtain ⟨rest, eq⟩ := first
      exact (List.cons.inj eq).1
    rw [same] at read
    have own : toCbor (probe code) = more.take m := unknown_encoding beyond read
    refine apart ?_
    show toCbor (probe code) <+: more
    rw [own]
    exact List.take_prefix _ _
  · injection run with same
    injection same with records
    exact absurd (congrArg List.length records) (by simp)
  · cases run

namespace Store

theorem safe_at_boundary {rs xs : List Record} (valid : ∀ r ∈ rs, r.Valid)
    (loggable : Loggable xs) (fits : (toCborSeq rs).length + (toCborSeq xs).length < limit) :
    AppendsSafely (toCborSeq rs) rs xs := by
  have read := from_cbor_seq_reads valid (by omega)
  obtain ⟨s', report, run⟩ := @append_bytes _ _ (ofLog rs ((toCborSeq rs).take (toCborSeq rs).length))
    xs loggable.1
  refine ⟨_, open_log_ok read, of_log_records _ _, s', report, _, run, ?_⟩
  have fresh := split_fresh_sublist
    (ofLog rs ((toCborSeq rs).take (toCborSeq rs).length)).recordHashes xs
  generalize (splitFresh _ xs).1 = kept at fresh ⊢
  have shorter : (toCborSeq kept).length ≤ (toCborSeq xs).length :=
    (fresh.flatMap toCbor).length_le
  have both : toCborSeq rs ++ toCborSeq kept = toCborSeq (rs ++ kept) := by
    rw [toCborSeq, toCborSeq, toCborSeq, List.flatMap_append]
  rw [both]
  refine ⟨_, open_log_ok (from_cbor_seq_reads ?_ ?_), of_log_records _ _⟩
  · intro r mem
    rcases List.mem_append.mp mem with old | new
    · exact valid r old
    · exact loggable.2 r (fresh.subset new)
  · rw [← both, List.length_append]
    omega

/-- Whatever is appended after a crash is read back with what was complete
exactly when the crash left the file at the end of a record. -/
theorem append_after_crash_iff {rs : List Record} (valid : ∀ r ∈ rs, r.Valid)
    (fits : (toCborSeq rs).length < 2 ^ 63) {t : Bytes} (cut : t <+: toCborSeq rs)
    (room : ∃ code ∉ Record.known, 0 ∉ Enc.uint code.toNat ∧
      ∀ r ∈ rs, recordHash r ≠ recordHash (probe code)) :
    (∀ k xs, ReadsComplete rs t k → Loggable xs → (toCborSeq xs).length < 2 ^ 63 →
      AppendsSafely t (rs.take k) xs) ↔ ∃ k, t = toCborSeq (rs.take k) := by
  have small : (toCborSeq rs).length < limit := by
    rw [limit]
    omega
  constructor
  · intro safe
    obtain ⟨code, beyond, nonzero, room⟩ := room
    obtain ⟨k, complete, read⟩ := from_cbor_seq_cut valid small cut
    have validPart : ∀ r ∈ rs.take k, r.Valid := fun r mem => valid r (List.take_subset _ _ mem)
    refine ⟨k, ?_⟩
    by_contra other
    obtain ⟨r, mem, torn, s, whole, split, begun, left⟩ := cut_record cut complete other
    have length := congrArg List.length whole
    rw [List.length_append] at length
    have bounds := cut.length_le
    have fitsR : (toCbor r).length < limit := by
      have := @part_le_bytes _ toCbor rs r mem
      exact lt_of_le_of_lt this small
    have apart := probe_not_after_torn beyond nonzero (valid r mem) fitsR split left begun
    have loggable : Loggable [probe code] := by
      refine ⟨rfl, fun x mem => ?_⟩
      rw [List.mem_singleton.mp mem]
      exact probe_valid beyond
    have short : (toCborSeq [probe code]).length < 2 ^ 63 := by
      have size := uint_length code.toNat
      have shape : toCborSeq [probe code] = Enc.arrayHead 2 ++ Enc.uint code.toNat ++ [0] ++ [] := rfl
      rw [shape, List.length_append, List.length_append, List.length_append]
      have : (Enc.arrayHead 2).length = 1 := rfl
      simp only [List.length_nil, List.length_singleton]
      omega
    obtain ⟨opened, first, held, s', report, bytes, run, again, reopened, final⟩ :=
      safe k [probe code] complete loggable short
    -- the probe is fresh, so it is what was written
    have hashes : recordHash (probe code) ∉ opened.recordHashes := by
      rw [open_log_ok read] at first
      injection first with first
      rw [← first, of_log_hashes]
      intro old
      obtain ⟨x, memX, same⟩ := List.mem_map.mp old
      exact room x (List.take_subset _ _ memX) same
    have fresh : (splitFresh opened.recordHashes [probe code]).1 = [probe code] := by
      rw [splitFresh, if_neg hashes]
      rfl
    obtain ⟨s'', report', written⟩ := @append_bytes _ _ opened _ loggable.1
    rw [run, fresh] at written
    injection written with same
    injection same with _ rest
    injection rest with _ sameBytes
    obtain ⟨n, reread⟩ := open_log_records reopened
    rw [final, fresh, sameBytes, whole, List.append_assoc,
      show toCborSeq [probe code] = toCbor (probe code) from List.append_nil _] at reread
    exact torn_file_misreads beyond validPart (by omega) apart n reread
  · rintro ⟨j, rfl⟩ k xs complete loggable short
    have part := (to_cbor_seq_taken rs j).length_le
    have validPart : ∀ r ∈ rs.take j, r.Valid := fun r mem => valid r (List.take_subset _ _ mem)
    have fitsPart : (toCborSeq (rs.take j)).length + (toCborSeq xs).length < limit := by
      rw [limit]
      omega
    obtain ⟨i, whole, read⟩ := from_cbor_seq_cut valid small (to_cbor_seq_taken rs j)
    rw [from_cbor_seq_reads validPart (by omega)] at read
    injection read with read
    injection read with same _
    rw [complete.unique whole, ← same]
    exact safe_at_boundary validPart loggable fitsPart

end Store
end

section
local instance plainLogText : Unicode := .plain
local instance modPrimeLogHash : Blake3 := .modPrime

theorem append_after_torn_part : (∀ k xs, ReadsComplete [twoBytePart] [0x82] k → Store.Loggable xs →
      (toCborSeq xs).length < 2 ^ 63 → Store.AppendsSafely [0x82] ([twoBytePart].take k) xs) ↔
    ∃ k, [0x82] = toCborSeq ([twoBytePart].take k) := by
  refine Store.append_after_crash_iff (fun r mem => ?_) (by decide) ⟨_, rfl⟩
    ⟨20, by decide, by decide, by decide +kernel⟩
  rw [List.mem_singleton.mp mem]
  exact fun e mem => nomatch mem

/-- One byte of a record is left, and what is written after it makes the file
unreadable. -/
theorem append_after_torn_part_unreadable :
    ¬ Store.AppendsSafely ((toCborSeq [probe 20]).take 1) [] [probe 21] := by
  rintro ⟨s, opened, _, s', report, bytes, run, s'', reopened, _⟩
  cases opened
  obtain ⟨t', report', written⟩ := @Store.append_bytes _ _
    (Store.ofLog [] (List.take 0 ((toCborSeq [probe 20]).take 1))) [probe 21] rfl
  rw [run] at written
  injection written with same
  injection same with _ rest
  injection rest with _ sameBytes
  obtain ⟨n, reread⟩ := Store.open_log_records reopened
  have torn : (fromCborSeq ((toCborSeq [probe 20]).take 1 ++ bytes)).isOk = false := by
    rw [sameBytes]
    decide +kernel
  rw [reread] at torn
  cases torn

end
end Smysl
