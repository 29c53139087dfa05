import Smysl.Cbor.Decode
import Smysl.Cbor.Primitives

/-!
The decoders of values below the record level: each is steady, and each but the
ones that open a map consumes exactly what the encoder writes for its value.
-/
namespace Smysl
open ByteString Cursor Cursor.Parser Dec

/-- What a decoder consumed is what the encoder writes for what it returned. -/
abbrev Mirrors {α : Type} (p : Parser α) (write : α → Bytes) : Prop :=
  Yields p (fun a raw => raw = write a)

instance (start : Nat) : Steady (code start) := by
  unfold code
  infer_instance

instance (start : Nat) : Steady (uint32 start) := by
  unfold uint32
  infer_instance

instance {α : Type} [WireCode α] (start : Nat) : Steady (closed start : Parser α) := by
  unfold closed
  infer_instance

instance (start n : Nat) : Steady (tuple start n) := by
  unfold tuple
  infer_instance

instance : Steady decBytes32 := by
  unfold decBytes32
  infer_instance

instance {kind : DigestKind} : Steady (decDigest : Parser (Digest kind)) := by
  unfold decDigest
  infer_instance

instance (start : Nat) : Steady (decSpan start) := by
  unfold decSpan
  infer_instance

instance {α : Type} [WireCode α] : Steady (decFate : Parser (Uid × α)) := by
  unfold decFate
  infer_instance

instance : Steady decOptimality := by
  unfold decOptimality
  infer_instance

instance : Steady decTrue := by
  unfold decTrue
  infer_instance

instance : Steady decDatingTarget := by
  unfold decDatingTarget
  infer_instance

theorem code_mirrors (start : Nat) : Mirrors (code start) encCode := by
  refine Yields.bind uint_yields ?_
  rintro n _ rfl
  refine Yields.orFail fun c fits => ?_
  rw [encCode, (try_u8_iff n c).mp fits, List.append_nil]

theorem uint32_mirrors (start : Nat) : Mirrors (uint32 start) (fun v => Enc.uint v.toNat) := by
  refine Yields.bind uint_yields ?_
  rintro n _ rfl
  refine Yields.orFail fun c fits => ?_
  dsimp only
  rw [(try_u32_iff n c).mp fits, List.append_nil]

theorem closed_mirrors {α : Type} [WireCode α] (start : Nat) :
    Mirrors (closed start : Parser α) (fun a => encCode (asU8 a)) := by
  refine Yields.bind (code_mirrors start) ?_
  rintro c _ rfl
  refine Yields.orFail fun a found => ?_
  dsimp only
  rw [(WireCode.fromU8_iff c a).mp found, List.append_nil]

theorem tuple_mirrors (start n : Nat) : Mirrors (tuple start n) (fun _ => Enc.arrayHead n) := by
  refine Yields.bind (expect_yields 4) ?_
  rintro m _ ⟨rfl, _⟩
  intro d d' u run
  by_cases same : m = n
  · subst same
    simp only [bne_self_eq_false, reject, Bool.false_eq_true, if_false] at run
    cases run
    exact ⟨[], rfl, List.append_nil _⟩
  · have wrong : (m != n) = true := by simpa using same
    rw [wrong] at run
    cases run

theorem bytes32_mirrors : Mirrors decBytes32 (fun b => Enc.bytes b.bytes) := by
  refine Yields.position_bind fun start => Yields.bind bytes_yields ?_
  rintro b _ rfl
  refine Yields.orFail fun a found => ?_
  dsimp only
  rw [(Bytes32.try_from_iff b a).mp found, List.append_nil]

theorem digest_mirrors {kind : DigestKind} :
    Mirrors (decDigest : Parser (Digest kind)) Enc.digest := by
  refine Yields.bind bytes32_mirrors ?_
  rintro b _ rfl
  exact Yields.pure (List.append_nil _)

theorem span_mirrors (start : Nat) : Mirrors (decSpan start) encSpan := by
  refine Yields.bind (tuple_mirrors start 2) ?_
  rintro _ _ rfl
  refine Yields.bind uint_yields ?_
  rintro first _ rfl
  refine Yields.bind uint_yields ?_
  rintro last _ rfl
  refine Yields.reject_bind fun _ => Yields.pure ?_
  simp [encSpan]

theorem fate_mirrors {α : Type} [WireCode α] : Mirrors (decFate : Parser (Uid × α)) encFate := by
  refine Yields.position_bind fun start => Yields.bind (tuple_mirrors start 2) ?_
  rintro _ _ rfl
  refine Yields.bind uid_yields ?_
  rintro u _ rfl
  refine Yields.bind (closed_mirrors start) ?_
  rintro fate _ rfl
  refine Yields.pure ?_
  simp [encFate]

theorem optimality_mirrors : Mirrors decOptimality encOptimality := by
  refine Yields.position_bind fun start => Yields.bind (tuple_mirrors start 2) ?_
  rintro _ _ rfl
  refine Yields.bind (closed_mirrors start) ?_
  rintro mode _ rfl
  refine Yields.bind f32q_yields ?_
  rintro gap _ rfl
  refine Yields.pure ?_
  simp [encOptimality]

theorem true_mirrors : Yields decTrue (fun b raw => b = true ∧ raw = encTrue) := by
  refine Yields.position_bind fun start => ?_
  intro d d' b run
  obtain ⟨c, d₁, peeked, run⟩ := bind_ok run
  obtain ⟨pos, rest⟩ := d
  cases rest with
  | nil => cases peeked
  | cons c' cs =>
    cases peeked
    split at run
    · cases run
    · rename_i isTrue
      rw [not_not] at isTrue
      subst isTrue
      cases run
      exact ⟨[0xF5], rfl, rfl, rfl⟩

theorem array_yields {α : Type} {f : Parser α} {write : α → Bytes} (each : Mirrors f write) :
    Yields (array f) (fun l raw => raw = Enc.array (l.map write) ∧ l.length < 2 ^ 64) := by
  refine Yields.bind (expect_yields 4) ?_
  rintro n _ ⟨rfl, bound⟩
  refine (Yields.times each n).mono ?_
  rintro l _ ⟨raws, rfl, rfl, all⟩
  have written : raws = l.map write := by
    clear bound
    induction all with
    | nil => rfl
    | cons first _ ih => rw [ih, first, List.map_cons]
  refine ⟨?_, bound⟩
  rw [written, Enc.array, Enc.arrayHead, List.length_map]

theorem array_mirrors {α : Type} {f : Parser α} {write : α → Bytes} (each : Mirrors f write) :
    Mirrors (array f) (fun l => Enc.array (l.map write)) :=
  (array_yields each).mono fun _ _ h => h.1

/-- A uid set is read in ascending order, so it holds what was read. -/
theorem uid_set_mirrors : Mirrors uidSet Enc.uidSet := by
  refine Yields.position_bind fun start => Yields.bind (expect_yields 4) ?_
  rintro n _ ⟨rfl, _⟩
  let step (st st' : Option Uid × BTreeSet Uid) (raw : Bytes) : Prop :=
    ∃ u, st' = (some u, st.2.insert u) ∧ raw = Enc.digest u ∧ ∀ p ∈ st.1, p < u
  have round : ∀ st : Option Uid × BTreeSet Uid, Yields (do
      let u ← uid
      if st.1.any (fun p => u ≤ p) then fail (.nonDeterministic start .unsortedSet)
      else pure (some u, st.2.insert u)) (step st) := by
    intro st
    refine Yields.bind uid_yields ?_
    rintro u _ rfl
    split
    · exact Yields.fail _
    · rename_i above
      refine Yields.pure ⟨u, rfl, List.append_nil _, fun p held => ?_⟩
      by_contra low
      exact above (by simpa [Option.any_eq_true] using ⟨p, held, not_lt.mp low⟩)
  have run : ∀ {n st st' raw}, Rounds step n st st' raw → ∃ us : List Uid,
      us.length = n ∧ raw = (us.map Enc.digest).flatten ∧ st'.2 = st.2.extend us ∧
        us.Pairwise (· < ·) ∧ ∀ p ∈ st.1, ∀ u ∈ us, p < u := by
    intro n st st' raw rounds
    induction rounds with
    | done st => exact ⟨[], rfl, rfl, rfl, .nil, by simp⟩
    | next first later ih =>
      obtain ⟨u, rfl, rfl, above⟩ := first
      obtain ⟨us, len, rfl, out, asc, beyond⟩ := ih
      have least : ∀ v ∈ us, u < v := beyond u rfl
      refine ⟨u :: us, by simp [len], by simp, out, .cons least asc, fun p held v mem => ?_⟩
      rcases List.mem_cons.mp mem with rfl | mem
      · exact above p held
      · exact (above p held).trans (least v mem)
  refine Yields.bind (Yields.loop round n (none, ∅)) ?_
  rintro st _ rounds
  obtain ⟨us, rfl, rfl, out, asc, _⟩ := run rounds
  refine Yields.pure ?_
  have listed : st.2.toList = us := by
    rw [out]
    exact BTreeSet.toList_ofList asc
  rw [Enc.uidSet, listed, Enc.array, Enc.arrayHead, List.length_map, List.append_nil]

/-- What a sorted array yields: elements whose encodings strictly ascend. -/
theorem sorted_array_yields {α : Type} {f : Parser α} [Steady f] {write : α → Bytes}
    (each : Mirrors f write) : Yields (sortedArray f) (fun l raw =>
      raw = Enc.array (l.map write) ∧ (l.map write).Pairwise (· < ·)) := by
  refine Yields.position_bind fun start => Yields.bind (expect_yields 4) ?_
  rintro n _ ⟨rfl, _⟩
  let step (st st' : Option Bytes × List α) (raw : Bytes) : Prop :=
    ∃ v, st' = (some (write v), st.2 ++ [v]) ∧ raw = write v ∧ ∀ p ∈ st.1, p < write v
  have round : ∀ st : Option Bytes × List α, Yields (do
      let v ← spanned f
      if st.1.any (fun p => v.2 ≤ p) then fail (.nonDeterministic start .unsortedSet)
      else pure (some v.2, st.2 ++ [v.1])) (step st) := by
    intro st
    refine Yields.bind (Yields.spanned each) ?_
    rintro ⟨v, r⟩ _ ⟨rfl, written⟩
    change r = write v at written
    subst written
    split
    · exact Yields.fail _
    · rename_i above
      refine Yields.pure ⟨v, rfl, List.append_nil _, fun p held => ?_⟩
      by_contra low
      exact above (by simpa [Option.any_eq_true] using ⟨p, held, not_lt.mp low⟩)
  have run : ∀ {n st st' raw}, Rounds step n st st' raw → ∃ vs : List α,
      vs.length = n ∧ raw = (vs.map write).flatten ∧ st'.2 = st.2 ++ vs ∧
        (vs.map write).Pairwise (· < ·) ∧ ∀ p ∈ st.1, ∀ r ∈ vs.map write, p < r := by
    intro n st st' raw rounds
    induction rounds with
    | done st => exact ⟨[], rfl, rfl, by simp, .nil, by simp⟩
    | next first later ih =>
      obtain ⟨v, rfl, rfl, above⟩ := first
      obtain ⟨vs, len, rfl, out, asc, beyond⟩ := ih
      have least : ∀ r ∈ vs.map write, write v < r := beyond _ rfl
      refine ⟨v :: vs, by simp [len], by simp, by simp [out], .cons least asc,
        fun p held r mem => ?_⟩
      rcases List.mem_cons.mp mem with rfl | mem
      · exact above p held
      · exact (above p held).trans (least r mem)
  refine Yields.bind (Yields.loop round n (none, [])) ?_
  rintro st _ rounds
  obtain ⟨vs, rfl, rfl, out, asc, _⟩ := run rounds
  refine Yields.pure ?_
  simp only [List.nil_append] at out
  rw [out, Enc.array, Enc.arrayHead, List.length_map, List.append_nil]
  exact ⟨rfl, asc⟩

/-- A set read from a sorted array is written as that array. -/
theorem sorted_set_mirrors {α : Type} [LinearOrder α] {f : Parser α} [Steady f]
    {write : α → Bytes} (each : Mirrors f write) : Yields (sortedArray f) (fun l raw =>
      raw = Enc.sortedArray ((BTreeSet.ofList l).toList.map write) ∧
        (BTreeSet.ofList l).toList.length = l.length) := by
  refine (sorted_array_yields each).mono ?_
  rintro l _ ⟨rfl, asc⟩
  have nodup : l.Nodup := by
    have images : (l.map write).Nodup := asc.imp ne_of_lt
    exact images.of_map
  have perm := BTreeSet.toList_ofList_perm nodup
  refine ⟨?_, perm.length_eq⟩
  have sorted : ((BTreeSet.ofList l).toList.map write).insertionSort (· ≤ ·) = l.map write := by
    refine List.Perm.eq_of_pairwise' ?_ (asc.imp le_of_lt)
      ((List.perm_insertionSort _ _).trans (perm.map write))
    exact List.pairwise_insertionSort _ _
  rw [Enc.sortedArray, sorted]

theorem dating_target_mirrors : Mirrors decDatingTarget encDatingTarget := by
  refine Yields.position_bind fun start => Yields.bind (tuple_mirrors start 2) ?_
  rintro _ _ rfl
  refine Yields.bind uint_yields ?_
  rintro kind _ rfl
  split
  · rename_i zero
    subst zero
    refine Yields.bind uid_yields ?_
    rintro u _ rfl
    exact Yields.pure (by simp [encDatingTarget, DatingTarget.kind])
  split
  · rename_i one
    subst one
    refine Yields.bind digest_mirrors ?_
    rintro tid _ rfl
    exact Yields.pure (by simp [encDatingTarget, DatingTarget.kind])
  split
  · rename_i two
    subst two
    refine Yields.bind digest_mirrors ?_
    rintro mid _ rfl
    exact Yields.pure (by simp [encDatingTarget, DatingTarget.kind])
  split
  · rename_i three
    subst three
    refine Yields.bind (tuple_mirrors start 3) ?_
    rintro _ _ rfl
    refine Yields.bind digest_mirrors ?_
    rintro tid _ rfl
    refine Yields.bind uint_yields ?_
    rintro fromMs _ rfl
    refine Yields.bind uint_yields ?_
    rintro toMs _ rfl
    exact Yields.pure (by simp [encDatingTarget, DatingTarget.kind])
  · exact Yields.fail _

/-- An item that starts as text is that text and nothing more. -/
def WholeText (raw : Bytes) : Prop :=
  raw ≠ [] ∧ ∀ n tail, n < 2 ^ 64 → raw = Enc.head 3 n ++ tail → tail.length = n

theorem simple_whole {b : UInt8} {raw : Bytes} (simple : b.toNat / 32 = 7)
    (consumed : raw ≠ []) (first : raw.head? = some b) : WholeText raw := by
  refine ⟨consumed, fun n tail _ eq => ?_⟩
  obtain ⟨c, head, major⟩ := head_first 3 n tail (by norm_num)
  rw [← eq, first] at head
  cases head
  omega

section
variable [Unicode]

instance {α : Type} (start : Nat) (parse : String → Option α) : Steady (named start parse) := by
  unfold named
  infer_instance

instance : Steady decHlc := by
  unfold decHlc
  infer_instance

instance : Steady decRelKind := by
  unfold decRelKind
  infer_instance

instance (present : Bool) : Steady (stepNote present) := by
  unfold stepNote
  infer_instance

instance : Steady decStep := by
  unfold decStep
  infer_instance

instance : Steady decDetected := by
  unfold decDetected
  infer_instance

instance : Steady decTextMap := by
  unfold decTextMap
  infer_instance

set_option synthInstance.maxSize 512 in
instance : Steady decDatingValue := by
  unfold decDatingValue
  infer_instance

theorem named_mirrors {α : Type} (start : Nat) {parse : String → Option α} {print : α → String}
    (faithful : ∀ s a, parse s = some a → print a = s) :
    Mirrors (named start parse) (fun a => Enc.text (print a)) := by
  refine Yields.bind text_yields ?_
  rintro s _ ⟨rfl, _⟩
  refine Yields.orFail fun a parsed => ?_
  dsimp only
  rw [faithful s a parsed, List.append_nil]

theorem name_mirrors {kind : NameKind} (start : Nat) :
    Mirrors (named start Name.new : Parser (Name kind)) (fun a => Enc.text a.text) :=
  named_mirrors start fun s a => (Name.new_iff s a).mp

theorem wire_name_mirrors {α : Type} [WireName α] (start : Nat) :
    Mirrors (named start WireName.parse : Parser α) (fun a => Enc.text (WireName.asStr a)) :=
  named_mirrors start fun s a => (WireName.parse_iff s a).mp

theorem hlc_mirrors : Mirrors decHlc encHlc := by
  refine Yields.position_bind fun start => Yields.bind (tuple_mirrors start 3) ?_
  rintro _ _ rfl
  refine Yields.bind uint_yields ?_
  rintro wall _ rfl
  refine Yields.bind (uint32_mirrors start) ?_
  rintro counter _ rfl
  refine Yields.bind (name_mirrors start) ?_
  rintro agent _ rfl
  refine Yields.pure ?_
  simp [encHlc]

theorem step_note_yields {n : Nat} (right : (!(n == 2 || n == 3)) = false) :
    Yields (stepNote (n == 3)) (fun note raw =>
      (if note.isSome then 3 else 2) = n ∧ raw = match note with
        | some s => Enc.text s
        | none => []) := by
  rw [stepNote]
  split
  · rename_i three
    refine Yields.bind text_yields ?_
    rintro s _ ⟨rfl, _⟩
    exact Yields.pure ⟨(beq_iff_eq.mp three).symm, List.append_nil _⟩
  · rename_i other
    refine Yields.pure ⟨?_, rfl⟩
    rw [Bool.not_eq_true] at other
    rw [other, Bool.or_false, Bool.not_eq_false', beq_iff_eq] at right
    exact right.symm

theorem step_mirrors : Mirrors decStep encStep := by
  refine Yields.position_bind fun start => Yields.bind (expect_yields 4) ?_
  rintro n _ ⟨rfl, _⟩
  refine Yields.reject_bind fun right => Yields.bind (code_mirrors start) ?_
  rintro c _ rfl
  refine Yields.bind uid_yields ?_
  rintro unit _ rfl
  refine Yields.bind (step_note_yields right) ?_
  rintro note _ ⟨rfl, rfl⟩
  refine Yields.orFail_bind fun role found => Yields.pure ?_
  cases note <;> simp [encStep, Open.read_raw_code found, encCode, Enc.arrayHead]

theorem detected_mirrors : Mirrors decDetected encDetected := by
  refine Yields.position_bind fun start => Yields.bind (tuple_mirrors start 2) ?_
  rintro _ _ rfl
  refine Yields.bind (code_mirrors start) ?_
  rintro c _ rfl
  refine Yields.bind hlc_mirrors ?_
  rintro ts _ rfl
  refine Yields.orFail_bind fun kind found => Yields.pure ?_
  simp [encDetected, Open.read_raw_code found]

theorem dating_value_mirrors : Mirrors decDatingValue encDatingValue := by
  refine Yields.position_bind fun start => Yields.bind (expect_yields 5) ?_
  rintro n _ ⟨rfl, _⟩
  refine Yields.reject_bind fun single => ?_
  have one : n = 1 := by simpa using single
  subst one
  refine Yields.bind uint_yields ?_
  rintro key _ rfl
  split
  · rename_i zero
    subst zero
    refine Yields.bind text_yields ?_
    rintro t _ ⟨rfl, _⟩
    exact Yields.pure (by simp [encDatingValue, Enc.map, Enc.mapOf, Enc.entry, put])
  split
  · rename_i one
    subst one
    refine Yields.bind int_yields ?_
    rintro ms _ rfl
    exact Yields.pure (by simp [encDatingValue, Enc.map, Enc.mapOf, Enc.entry, put])
  split
  · rename_i two
    subst two
    refine Yields.bind (tuple_mirrors start 2) ?_
    rintro _ _ rfl
    refine Yields.bind (wire_name_mirrors start) ?_
    rintro allen _ rfl
    refine Yields.bind dating_target_mirrors ?_
    rintro target _ rfl
    refine Yields.pure ?_
    simp [encDatingValue, Enc.map, Enc.mapOf, Enc.entry, put, WireName.asStr]
  · exact Yields.fail _

theorem skip_headed_yields (inner : Parser Unit) [Steady inner] :
    Yields (skipHeaded inner) (fun _ raw => WholeText raw) := by
  have other : ∀ {p : Parser Unit} [Steady p] {m arg : Nat}, m < 8 → arg < 2 ^ 64 → m ≠ 3 →
      Yields p (fun _ raw => WholeText (Enc.head m arg ++ raw)) := by
    intro p steady m arg small bound notText d d' _ run
    obtain ⟨⟨raw, eq, _⟩, _⟩ := steady.ok run
    refine ⟨raw, eq, head_bytes_nonempty _ _ _, fun n tail fits same => ?_⟩
    exact absurd (head_apart small (by norm_num) bound fits same).1 notText
  refine Yields.bind head_yields ?_
  rintro ⟨m, arg⟩ _ ⟨rfl, small, bound⟩
  refine Yields.position_bind fun after => ?_
  dsimp only at small bound ⊢
  split
  · rename_i number
    exact other small bound (by omega)
  split
  · rename_i bytes
    exact other small bound (by omega)
  split
  · rename_i text
    subst text
    refine Yields.bind (text_of_yields after arg) ?_
    rintro s _ ⟨rfl, len, _⟩
    refine Yields.pure ⟨head_bytes_nonempty _ _ _, fun n tail fits same => ?_⟩
    rw [List.append_nil] at same
    obtain ⟨_, rfl, rfl⟩ := head_apart small small bound fits same
    exact len
  split
  · rename_i array
    exact other small bound (by omega)
  split
  · rename_i map
    exact other small bound (by omega)
  · exact Yields.fail _

theorem skip_one_yields (levels : Nat) :
    Yields (skipOne levels) (fun _ raw => WholeText raw) := by
  cases levels with
  | zero => exact Yields.position_bind fun start => Yields.fail _
  | succ levels =>
    refine Yields.position_bind fun start => peek_bind_yields fun b => ?_
    split
    · exact Yields.fail _
    split
    · rename_i simple
      rw [skipSimple]
      split
      · refine Yields.bind f32q_yields ?_
        rintro v _ rfl
        have consumed : Enc.f32q v ++ [] ≠ [] := by simp [Enc.f32q]
        exact Yields.pure ⟨consumed, simple_whole simple consumed⟩
      split
      · refine Yields.bind byte_yields ?_
        rintro c _ rfl
        have consumed : [c] ++ [] ≠ [] := by simp
        exact Yields.pure ⟨consumed, simple_whole simple consumed⟩
      · exact Yields.fail _
    · exact (skip_headed_yields (skipOne levels)).mono fun _ raw whole => ⟨whole.1, fun _ => whole⟩

/-- A skipped item is kept as it stood. -/
theorem skip_item_yields : Yields skipItem (fun b raw => raw = b ∧ WholeText b) := by
  refine Yields.bind (Yields.spanned (skip_one_yields (maxNesting + 1))) ?_
  rintro ⟨_, _⟩ raw ⟨rfl, whole⟩
  exact Yields.pure ⟨List.append_nil _, whole⟩

theorem skip_item_mirrors : Mirrors skipItem (fun b => b) :=
  skip_item_yields.mono fun _ _ h => h.1

/-- Text found at the start of a skipped item is all of the item. -/
theorem whole_text_key {b : Bytes} {k : String} {d : Cursor.Dec} (whole : WholeText b)
    (run : text ⟨0, b⟩ = .ok (k, d)) : b = Enc.text k := by
  have short : (utf8 k).length < 2 ^ 64 := by
    obtain ⟨_, _, _, run⟩ := bind_ok run
    obtain ⟨n, d₁, head, run⟩ := bind_ok run
    obtain ⟨_, _, _, bound⟩ := expect_yields 3 head
    obtain ⟨_, _, rfl, len, _⟩ := text_of_yields _ n run
    rw [len]
    exact bound
  obtain ⟨raw, eq, rfl, nfc⟩ := text_yields run
  change b = Enc.text k ++ d.rest at eq
  rw [Enc.text, normalise_of_nfc nfc] at eq ⊢
  have len := whole.2 _ (utf8 k ++ d.rest) short (by rw [eq, List.append_assoc])
  have nothing : d.rest = [] := by simpa using len
  rw [eq, nothing, List.append_nil]

/-- What one entry of a text map adds: its key is above the one before it. -/
def TextEntry (st st' : Option Bytes × BTreeMap String String) (raw : Bytes) : Prop :=
  ∃ e : String × String, st' = (some (Enc.text e.1), st.2.insert e.1 e.2) ∧
    raw = Enc.text e.1 ++ Enc.text e.2 ∧ ∀ p ∈ st.1, p < Enc.text e.1

/-- A map of such entries is read in the order of its encoded keys, which is the order
it is written in. -/
theorem text_entries_yield {body : Nat → Option Bytes × BTreeMap String String →
      Parser (Option Bytes × BTreeMap String String)}
    (round : ∀ start st, Yields (body start st) (TextEntry st)) : Yields (do
      let start ← position
      let n ← mapHead
      let out ← loop (body start) n (none, ∅)
      pure out.2) (fun m raw => ∃ n, n < 2 ^ 64 ∧
        m.entries.length = n ∧ raw = encTextMap m.entries) := by
  refine Yields.position_bind fun start => Yields.bind (expect_yields 5) ?_
  rintro n _ ⟨rfl, bound⟩
  let row (e : String × String) : Bytes × Bytes := (Enc.text e.1, Enc.text e.2)
  let flat (r : Bytes × Bytes) : Bytes := r.1 ++ r.2
  have run : ∀ {n st st' raw}, Rounds TextEntry n st st' raw → ∃ es : List (String × String),
      es.length = n ∧ raw = (es.map row).flatMap flat ∧
        st'.2 = es.foldl (fun m e => m.insert e.1 e.2) st.2 ∧
        es.Pairwise (fun e f => (row e).1 < (row f).1) ∧ ∀ p ∈ st.1, ∀ e ∈ es, p < (row e).1 := by
    intro n st st' raw rounds
    induction rounds with
    | done st => exact ⟨[], rfl, rfl, rfl, .nil, by simp⟩
    | next first later ih =>
      obtain ⟨e, rfl, rfl, above⟩ := first
      obtain ⟨es, len, rfl, out, asc, beyond⟩ := ih
      have least : ∀ f ∈ es, (row e).1 < (row f).1 := beyond _ rfl
      refine ⟨e :: es, by simp [len], by simp [row, flat], out, .cons least asc,
        fun p held f mem => ?_⟩
      rcases List.mem_cons.mp mem with rfl | mem
      · exact above p held
      · exact (above p held).trans (least f mem)
  refine Yields.bind (Yields.loop (round start) n (none, ∅)) ?_
  rintro st _ rounds
  obtain ⟨es, rfl, rfl, out, asc, _⟩ := run rounds
  have sorted : (es.map row).Pairwise (fun a b => a.1 < b.1) := List.pairwise_map.mpr asc
  have keys : ((es.map row).map Prod.fst).Nodup := List.pairwise_map.mpr (sorted.imp ne_of_lt)
  have distinct : (es.map Prod.fst).Nodup := by
    have same : (es.map row).map Prod.fst = (es.map Prod.fst).map Enc.text := by simp [row]
    exact (same ▸ keys).of_map
  have perm : st.2.entries.Perm es := by
    rw [out]
    exact BTreeMap.entries_ofList_perm distinct
  have rows : (st.2.entries.map row).insertionSort (fun a b => a.1 ≤ b.1) = es.map row := by
    have same := (List.perm_insertionSort (fun a b => a.1 ≤ b.1) _).trans (perm.map row)
    refine List.Perm.eq_of_pairwise (fun a b memA memB ab ba => ?_)
      (List.pairwise_insertionSort _ _) (sorted.imp le_of_lt) same
    exact List.inj_on_of_nodup_map keys (same.subset memA) memB (le_antisymm ab ba)
  refine Yields.pure ⟨es.length, bound, perm.length_eq, ?_⟩
  simp only [encTextMap]
  rw [rows, List.length_map, List.append_nil]

theorem text_map_yields : Yields decTextMap (fun m raw => ∃ n, n < 2 ^ 64 ∧
    m.entries.length = n ∧ raw = encTextMap m.entries) := by
  apply text_entries_yield
  intro start st
  refine Yields.position_bind fun kstart => Yields.bind skip_item_yields ?_
  rintro kbytes raw ⟨same, whole⟩
  subst same
  refine Yields.orFail_bind fun k found => ?_
  have key : raw = Enc.text k := by
    split at found
    · rename_i run
      cases found
      exact whole_text_key whole run
    · cases found
  subst key
  split
  · exact Yields.fail _
  · rename_i above
    refine Yields.bind reject_null_yields ?_
    rintro _ _ rfl
    refine Yields.bind text_yields ?_
    rintro v _ ⟨rfl, _⟩
    split
    · exact Yields.fail _
    · refine Yields.pure ⟨(k, v), rfl, ?_, fun p held => ?_⟩
      · simp
      · by_contra low
        exact above (by simpa [Option.any_eq_true] using ⟨p, held, not_lt.mp low⟩)

end
end Smysl
