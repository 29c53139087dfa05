import Smysl.Cbor.PayloadForm

/-!
A value written is read back as its normal form, and a value read was written in
just the bytes it was read from, at any depth.
-/
namespace Smysl
open ByteString Cursor Cursor.Parser Dec

section
variable [Unicode]

/-! Reading what was written. -/

omit [Unicode] in
/-- A byte that starts a head is not one of the simple values. -/
theorem not_simple {c : UInt8} (low : c.toNat / 32 < 7) :
    c ≠ 0xF6 ∧ c ≠ 0xF4 ∧ c ≠ 0xF5 ∧ c ≠ 0xFA := by
  constructor
  · rintro rfl
    exact absurd low (by decide)
  constructor
  · rintro rfl
    exact absurd low (by decide)
  constructor
  · rintro rfl
    exact absurd low (by decide)
  · rintro rfl
    exact absurd low (by decide)

/-- The arm taken for a byte that starts a head. -/
theorem arm_of_head {value : Parser HValue} {start : Nat} {c : UInt8} (low : c.toNat / 32 < 7) :
    readArm value start c =
      if c.toNat / 32 = 0 then do
        let v ← uint
        if v.toNat < 2 ^ 63 then pure (.int (Int64.ofNat v.toNat)) else fail (bad start)
      else if c.toNat / 32 = 1 then do
        let h ← head
        if h.2 < 2 ^ 63 then pure (.int (Int64.ofInt (-1 - (h.2 : Int)))) else fail (bad start)
      else if c.toNat / 32 = 3 then do
        let s ← text
        pure (.str s)
      else if c.toNat / 32 = 4 then do
        let items ← array value
        pure (.array items)
      else if c.toNat / 32 = 5 then do
        let o ← readEntries value
        pure (.object o)
      else fail (bad start) := by
  obtain ⟨null, no, yes, float⟩ := not_simple low
  rw [readArm, if_neg null, if_neg no, if_neg yes, if_neg float]

theorem value_of_arm {levels : Nat} {raw : Bytes} {c : UInt8} {v : HValue}
    (first : raw.head? = some c)
    (arm : ∀ start, Reads (readArm (readValue levels) start c) raw v) :
    Reads (readValue (levels + 1)) raw v :=
  Reads.position_bind fun start => peek_bind_reads first (arm start)

theorem int_value_reads (levels : Nat) (i : Int64) :
    Reads (readValue (levels + 1)) (Enc.int i) (.int i) := by
  have low := Int64.le_toInt i
  have high := Int64.toInt_lt i
  rw [Enc.int]
  split
  · rename_i positive
    obtain ⟨c, first, top⟩ := head_first 0 i.toInt.toNat [] (by omega)
    rw [List.append_nil] at first
    apply value_of_arm first
    intro start
    rw [arm_of_head (by omega), if_pos top]
    have same : (UInt64.ofNat i.toInt.toNat).toNat = i.toInt.toNat := by
      rw [UInt64.toNat_ofNat', Nat.mod_eq_of_lt (by omega)]
    have read := uint_reads (UInt64.ofNat i.toInt.toNat)
    rw [same] at read
    have value : Int64.ofNat i.toInt.toNat = i := by
      apply Int64.toInt_inj.mp
      rw [Int64.toInt_ofNat_of_lt (by omega), Int.toNat_of_nonneg positive]
    apply Reads.bind_end read
    rw [same, if_pos (by omega), value]
    exact Reads.pure _
  · rename_i negative
    obtain ⟨c, first, top⟩ := head_first 1 (-i.toInt - 1).toNat [] (by omega)
    rw [List.append_nil] at first
    apply value_of_arm first
    intro start
    rw [arm_of_head (by omega), if_neg (by omega), if_pos top]
    have value : Int64.ofInt (-1 - ((-i.toInt - 1).toNat : Int)) = i := by
      rw [Int.toNat_of_nonneg (by omega)]
      have back : -1 - (-i.toInt - 1) = i.toInt := by omega
      rw [back, Int64.ofInt_toInt]
    apply Reads.bind_end (head_reads (by norm_num) (by omega))
    rw [if_pos (by omega), value]
    exact Reads.pure _

theorem write_nonempty (v : HValue) : writeValue v ≠ [] := by
  cases v with
  | null => rw [writeValue]; exact List.cons_ne_nil _ _
  | bool b => cases b <;> exact List.cons_ne_nil _ _
  | int i => exact solid_nonempty (Enc.int i)
  | float f => exact List.cons_ne_nil _ _
  | str s => exact solid_nonempty (Enc.text s)
  | array items => exact head_bytes_nonempty 4 _ _
  | object entries => exact head_bytes_nonempty 5 _ _

theorem text_length (s : String) : (utf8 (normalise s)).length < (Enc.text s).length := by
  rw [Enc.text, List.length_append]
  have filled := List.length_pos_iff.mpr (head_bytes_nonempty 3 (utf8 (normalise s)).length [])
  rw [List.append_nil] at filled
  omega

/-- Entries in order are read back by a reader that reads back their values. -/
theorem entries_read {value : Parser HValue} {es : HObject} (nfc : ∀ e ∈ es, Nfc e.1)
    (ascending : Firsts.Ascending (fun e : String × HValue => Enc.text e.1) es)
    (values : ∀ e ∈ es, Reads value (writeValue e.2) e.2) :
    Reads (readEntries value)
      (Enc.head 5 es.length ++ es.flatMap rowOf) es := by
  apply Reads.of_fits
  intro fits
  rw [List.length_append, Cursor.limit] at fits
  have filled : ∀ e ∈ es, rowOf e ≠ [] := by
    intro e _
    exact List.append_ne_nil_of_left_ne_nil (solid_nonempty (Enc.text e.1)) _
  have count := count_le_bytes filled
  have short : ∀ e ∈ es, (utf8 e.1).length < 2 ^ 64 := by
    intro e mem
    have part := @part_le_bytes _ rowOf es e mem
    have key := text_length e.1
    rw [normalise_of_nfc (nfc e mem)] at key
    have start : (Enc.text e.1).length ≤ (rowOf e).length := by
      rw [rowOf, Enc.row, writeEntry, List.length_append]
      exact Nat.le_add_right _ _
    omega
  have ordered : es.Pairwise (fun e f => KeyOrdered e.1 f.1) := by
    apply ascending.imp_of_mem
    intro e f memE memF low
    exact key_ordered_of_lt (nfc e memE) (nfc f memF) (short e memE) low
  apply Reads.position_bind
  intro start
  apply Reads.bind (expect_reads (by norm_num) (by omega))
  have round : ∀ st : Option String × HObject, ∀ e ∈ es, (∀ p ∈ st.1, KeyOrdered p e.1) →
      Reads (readPair value start st) (rowOf e) (some e.1, st.2 ++ [e]) := by
    intro st e mem above
    apply Reads.bind (text_reads_all (nfc e mem))
    have passed : ¬ (st.1.any (fun p => ¬ KeyOrdered p e.1)) = true := by
      simp only [Option.any_eq_true, decide_eq_true_eq, not_exists, not_and, not_not]
      exact above
    rw [if_neg passed]
    exact Reads.bind_end (values e mem) (Reads.pure _)
  apply Reads.loop_ascending_bind (fun acc e => acc ++ [e]) round ordered
  intro last
  have all : es.foldl (fun acc e => acc ++ [e]) [] = es := by
    simp [← List.flatMap_def]
  rw [all]
  exact Reads.pure es

theorem row_length (e : String × HValue) :
    (rowOf e).length = (Enc.text e.1).length + (writeValue e.2).length := by
  rw [rowOf, Enc.row, writeEntry, List.length_append]

omit [Unicode] in
theorem head_length_pos (major n : Nat) : 0 < (Enc.head major n).length := by
  have filled := List.length_pos_iff.mpr (head_bytes_nonempty major n [])
  rwa [List.append_nil] at filled

/-- The values of an array are read back, where each of them is. -/
theorem items_read {value : Parser HValue} {items : List HValue}
    (values : ∀ v ∈ items, Reads value (writeValue v) v.normal) :
    Reads (array value) (Enc.array (items.map writeValue)) (items.map HValue.normal) := by
  apply Reads.of_fits
  intro fits
  have count := @count_le_bytes _ writeValue items fun v _ => write_nonempty v
  rw [List.flatMap_def] at count
  rw [Enc.array, Enc.arrayHead, List.length_append, Cursor.limit] at fits
  have each : List.Forall₂ (fun v raw => Reads value raw v)
      (items.map HValue.normal) (items.map writeValue) := by
    rw [List.forall₂_map_left_iff, List.forall₂_map_right_iff, List.forall₂_same]
    exact values
  have read := Reads.times each
  rw [List.length_map] at read
  rw [Enc.array, Enc.arrayHead]
  rw [List.length_map] at fits ⊢
  exact Reads.bind (expect_reads (by norm_num) (by omega)) read

/-- A value takes a level to read, as it takes a byte to write. -/
theorem level_of_value {v : HValue} {levels : Nat} (enough : (writeValue v).length ≤ levels) :
    ∃ below, levels = below + 1 := by
  have filled := List.length_pos_iff.mpr (write_nonempty v)
  exact ⟨levels - 1, by omega⟩

section
variable (settled : ∀ s : String, Nfc (Unicode.nfc s))
include settled

/-- The entries of a normal form are read back, where the values of the entries it
was made of read as their normal forms. -/
theorem normal_entries_read {value : Parser HValue} {o : HObject}
    (values : ∀ e ∈ o, normalEntry e ∈ normalObject o →
      Reads value (writeValue e.2) e.2.normal) :
    Reads (readEntries value) (writeObject o) (normalObject o) := by
  have made : ∀ e ∈ normalObject o, ∃ f ∈ o, normalEntry f = e := by
    intro e mem
    rw [normalObject, normal_entries] at mem
    exact List.mem_map.mp (keys_in_order_subset settled o mem)
  rw [write_object settled]
  apply entries_read
  · intro e mem
    obtain ⟨f, _, rfl⟩ := made e mem
    exact normalise_nfc settled f.1
  · rw [normalObject, normal_entries]
    exact keys_in_order_ascending settled o
  · intro e mem
    obtain ⟨f, held, rfl⟩ := made e mem
    have read := values f held mem
    rw [← write_normal settled] at read
    exact read

/-- An entry's value is shorter than the object it stands in. -/
theorem value_shorter {o : HObject} (e : String × HValue) (mem : e ∈ normalObject o) :
    (writeValue e.2).length < (writeObject o).length := by
  have part := @part_le_bytes _ rowOf (normalObject o) e mem
  have start := head_length_pos 5 (normalObject o).length
  rw [row_length] at part
  rw [write_object settled, List.length_append]
  omega

/-- Every value written is read back as its normal form. -/
theorem value_reads (v : HValue) : ∀ levels, (writeValue v).length ≤ levels →
    Reads (readValue levels) (writeValue v) v.normal := by
  intro levels enough
  induction v using HValue.induct generalizing levels with
  | null =>
    obtain ⟨levels, rfl⟩ := level_of_value enough
    exact value_of_arm rfl fun start => Reads.bind_end (byte_reads _) (Reads.pure _)
  | bool b =>
    obtain ⟨levels, rfl⟩ := level_of_value enough
    cases b with
    | false => exact value_of_arm rfl fun start => Reads.bind_end (byte_reads _) (Reads.pure _)
    | true => exact value_of_arm rfl fun start => Reads.bind_end (byte_reads _) (Reads.pure _)
  | int i =>
    obtain ⟨levels, rfl⟩ := level_of_value enough
    exact int_value_reads levels i
  | float f =>
    obtain ⟨levels, rfl⟩ := level_of_value enough
    have same : Enc.f32q f.toF32 = Enc.f32q f.toF32.quantise := by
      rw [Enc.f32q, Enc.f32q, F32.quantise_quantise]
    rw [writeValue, same, HValue.normal]
    exact value_of_arm rfl fun start =>
      Reads.bind_end (f32q_reads (F32.quantise_is_quantised _)) (Reads.pure _)
  | str s =>
    obtain ⟨levels, rfl⟩ := level_of_value enough
    obtain ⟨c, first, top⟩ := head_first 3 (utf8 (normalise s)).length (utf8 (normalise s))
      (by omega)
    rw [writeValue, HValue.normal]
    apply value_of_arm first
    intro start
    have read := text_reads_all (normalise_nfc settled s)
    rw [text_normalise settled] at read
    rw [arm_of_head (by omega), if_neg (by omega), if_neg (by omega), if_pos top]
    exact Reads.bind_end read (Reads.pure _)
  | array items ih =>
    obtain ⟨levels, rfl⟩ := level_of_value enough
    obtain ⟨c, first, top⟩ := head_first 4 (items.map writeValue).length
      (items.map writeValue).flatten (by omega)
    rw [writeValue, write_items] at enough ⊢
    rw [HValue.normal, normal_items]
    apply value_of_arm first
    intro start
    rw [arm_of_head (by omega), if_neg (by omega), if_neg (by omega), if_neg (by omega),
      if_pos top]
    have read := items_read fun v mem => by
      have part := @part_le_bytes _ writeValue items v mem
      have before := head_length_pos 4 (items.map writeValue).length
      rw [List.flatMap_def] at part
      rw [Enc.array, Enc.arrayHead, List.length_append] at enough
      exact ih v mem levels (by omega)
    exact Reads.bind_end read (Reads.pure _)
  | object entries ih =>
    obtain ⟨levels, rfl⟩ := level_of_value enough
    obtain ⟨c, first, top⟩ := head_first 5 (normalObject entries).length
      ((normalObject entries).flatMap rowOf) (by omega)
    rw [← write_object settled] at first
    apply value_of_arm first
    intro start
    rw [arm_of_head (by omega), if_neg (by omega), if_neg (by omega), if_neg (by omega),
      if_neg (by omega), if_pos top]
    have read := normal_entries_read settled fun e mem held => by
      have short := value_shorter settled (normalEntry e) held
      rw [normalEntry, write_normal settled, writeObject] at short
      rw [writeValue] at enough
      exact ih e mem levels (by omega)
    exact Reads.bind_end read (Reads.pure _)

end

/-! Writing what was read. -/

theorem short_text_yields : Yields text
    (fun s raw => raw = Enc.text s ∧ Nfc s ∧ (utf8 s).length < 2 ^ 64) := by
  apply Yields.position_bind
  intro start
  apply Yields.bind (expect_yields 3)
  rintro n _ ⟨rfl, bound⟩
  apply (text_of_yields start n).mono
  rintro s _ ⟨rfl, rfl, nfc⟩
  rw [Enc.text, normalise_of_nfc nfc]
  exact ⟨rfl, nfc, bound⟩

omit [Unicode] in
theorem key_ordered_trans {p q k : String} (first : KeyOrdered p q) (second : KeyOrdered q k) :
    KeyOrdered p k := by
  rcases first with shorter | ⟨same, low⟩
  · rcases second with shorter' | ⟨same', _⟩
    · exact .inl (shorter.trans shorter')
    · exact .inl (by omega)
  · rcases second with shorter' | ⟨same', low'⟩
    · exact .inl (by omega)
    · exact .inr ⟨same.trans same', low.trans low'⟩

/-- A value in its normal form, and the bytes it is written as. -/
def WrittenAs (v : HValue) (raw : Bytes) : Prop := raw = writeValue v ∧ v.normal = v

/-- What one round of the reader adds: an entry above the one before it. -/
def PairAdded (st st' : Option String × HObject) (raw : Bytes) : Prop :=
  ∃ e : String × HValue, st' = (some e.1, st.2 ++ [e]) ∧ raw = rowOf e ∧
    (Nfc e.1 ∧ (utf8 e.1).length < 2 ^ 64 ∧ e.2.normal = e.2) ∧ ∀ p ∈ st.1, KeyOrdered p e.1

theorem pair_yields {value : Parser HValue} (each : Yields value WrittenAs)
    (start : Nat) (st : Option String × HObject) :
    Yields (readPair value start st) (PairAdded st) := by
  apply Yields.bind short_text_yields
  rintro key _ ⟨rfl, nfc, short⟩
  split
  · exact Yields.fail _
  · rename_i passed
    apply Yields.bind each
    rintro v _ ⟨rfl, normal⟩
    apply Yields.pure
    refine ⟨(key, v), rfl, ?_, ⟨nfc, short, normal⟩, ?_⟩
    · rw [List.append_nil]
      rfl
    · intro p held
      by_contra unordered
      apply passed
      rw [Option.any_eq_true]
      exact ⟨p, held, decide_eq_true unordered⟩

theorem pairs_added {n : Nat} {st st' : Option String × HObject} {raw : Bytes}
    (rounds : Rounds PairAdded n st st' raw) : ∃ es : HObject, es.length = n ∧
      raw = es.flatMap rowOf ∧ st'.2 = st.2 ++ es ∧
        (∀ e ∈ es, Nfc e.1 ∧ (utf8 e.1).length < 2 ^ 64 ∧ e.2.normal = e.2) ∧
          es.Pairwise (fun e f => KeyOrdered e.1 f.1) ∧
            ∀ p ∈ st.1, ∀ e ∈ es, KeyOrdered p e.1 := by
  induction rounds with
  | done st => exact ⟨[], rfl, rfl, by simp, by simp, .nil, by simp⟩
  | next first later ih =>
    obtain ⟨e, rfl, rfl, plain, above⟩ := first
    obtain ⟨es, rfl, rfl, out, plains, ordered, beyond⟩ := ih
    have least : ∀ f ∈ es, KeyOrdered e.1 f.1 := beyond _ rfl
    refine ⟨e :: es, rfl, rfl, ?_, List.forall_mem_cons.mpr ⟨plain, plains⟩,
      .cons least ordered, ?_⟩
    · rw [out, List.append_assoc]
      rfl
    · intro p held f mem
      rcases List.mem_cons.mp mem with rfl | mem
      · exact above p held
      · exact key_ordered_trans (above p held) (least f mem)

section
variable (settled : ∀ s : String, Nfc (Unicode.nfc s))
include settled

/-- Entries are read in the order they would be written in. -/
theorem entries_yield {value : Parser HValue} (each : Yields value WrittenAs) :
    Yields (readEntries value) (fun o raw => raw = writeObject o ∧ normalObject o = o) := by
  apply Yields.position_bind
  intro start
  apply Yields.bind (expect_yields 5)
  rintro n _ ⟨rfl, _⟩
  apply Yields.bind (Yields.loop (pair_yields each start) n (none, []))
  rintro st _ rounds
  obtain ⟨es, rfl, rfl, out, plains, ordered, _⟩ := pairs_added rounds
  have ascending : Firsts.Ascending (fun e : String × HValue => Enc.text e.1) es := by
    apply ordered.imp_of_mem
    intro e f memE memF low
    exact key_ordered_lt (plains e memE).1 (plains f memF).1 (plains f memF).2.1 low
  have normal : es.map normalEntry = es := by
    have each_ : es.map normalEntry = es.map id := by
      apply List.map_congr_left
      intro e mem
      obtain ⟨nfc, _, same⟩ := plains e mem
      rw [normalEntry, normalise_of_nfc nfc, same, id]
    rw [each_, List.map_id]
  have own : normalObject es = es := by
    rw [normalObject, normal_entries, keys_in_order_kept settled, normal]
    exact Firsts.kept_of_ascending ascending
  apply Yields.pure
  rw [out, List.append_nil, List.nil_append, write_object settled, own]
  exact ⟨rfl, rfl⟩

omit settled in
theorem items_yield {value : Parser HValue} (each : Yields value WrittenAs) :
    Yields (array value) (fun items raw => raw = Enc.array (items.map writeValue) ∧
      items.map HValue.normal = items) := by
  apply Yields.bind (expect_yields 4)
  rintro n _ ⟨rfl, bound⟩
  apply (Yields.times each n).mono
  rintro items _ ⟨raws, rfl, rfl, written⟩
  clear bound
  have same : raws = items.map writeValue ∧ items.map HValue.normal = items := by
    induction written with
    | nil => exact ⟨rfl, rfl⟩
    | cons first _ ih =>
      rw [first.1, ih.1, List.map_cons, List.map_cons, first.2, ih.2]
      exact ⟨rfl, rfl⟩
  rw [same.1, Enc.array, Enc.arrayHead, List.length_map]
  exact ⟨rfl, same.2⟩

omit [Unicode] settled in
theorem quantised_yields : Yields f32q
    (fun v raw => raw = Enc.f32q v ∧ v.isQuantised = true) := by
  apply Yields.position_bind
  intro start
  apply Yields.bind byte_yields
  rintro b _ rfl
  split
  · exact Yields.fail _
  · rename_i float
    rw [not_not] at float
    subst float
    apply Yields.bind (take_yields 4)
    rintro s _ ⟨rfl, four⟩
    split
    · rename_i quantised
      apply Yields.pure
      rw [Enc.f32q, F32.quantise_of_quantised quantised, F32.to_be_bytes_from_be_bytes _ four,
        List.append_nil]
      exact ⟨rfl, quantised⟩
    · exact Yields.fail _

omit [Unicode] settled in
theorem int_of_nat {n : Nat} (fits : n < 2 ^ 63) : Enc.int (Int64.ofNat n) = Enc.head 0 n := by
  have value : (Int64.ofNat n).toInt = n := Int64.toInt_ofNat_of_lt fits
  rw [Enc.int, value, if_pos (by omega), Int.toNat_natCast]

omit [Unicode] settled in
theorem int_of_negative {n : Nat} (fits : n < 2 ^ 63) :
    Enc.int (Int64.ofInt (-1 - (n : Int))) = Enc.head 1 n := by
  have value : (Int64.ofInt (-1 - (n : Int))).toInt = -1 - (n : Int) := by
    apply Int64.toInt_ofInt_of_le
    · norm_num
      omega
    · omega
  have back : (-(-1 - (n : Int)) - 1).toNat = n := by omega
  rw [Enc.int, value, if_neg (by omega), back]

/-- Each arm takes the bytes its value is written as. -/
theorem arm_yields {value : Parser HValue} (each : Yields value WrittenAs) (start : Nat)
    (b : UInt8) : Yields (readArm value start b)
      (fun v raw => raw ≠ [] ∧ (raw.head? = some b → WrittenAs v raw)) := by
  rw [readArm]
  split
  · rename_i null
    apply Yields.bind byte_yields
    rintro c _ rfl
    apply Yields.pure
    exact ⟨List.cons_ne_nil _ _, fun first => by cases first; rw [null]; exact ⟨rfl, rfl⟩⟩
  split
  · rename_i no
    apply Yields.bind byte_yields
    rintro c _ rfl
    apply Yields.pure
    exact ⟨List.cons_ne_nil _ _, fun first => by cases first; rw [no]; exact ⟨rfl, rfl⟩⟩
  split
  · rename_i yes
    apply Yields.bind byte_yields
    rintro c _ rfl
    apply Yields.pure
    exact ⟨List.cons_ne_nil _ _, fun first => by cases first; rw [yes]; exact ⟨rfl, rfl⟩⟩
  split
  · apply Yields.bind quantised_yields
    rintro v _ ⟨rfl, quantised⟩
    apply Yields.pure
    have back := F32.to_f64_to_f32 (F32.finite_of_quantised quantised)
    rw [List.append_nil, WrittenAs, writeValue, HValue.normal, back,
      F32.quantise_of_quantised quantised]
    exact ⟨List.cons_ne_nil _ _, fun _ => ⟨rfl, rfl⟩⟩
  split
  · apply Yields.bind uint_yields
    rintro v _ rfl
    split
    · rename_i fits
      apply Yields.pure
      rw [List.append_nil, WrittenAs, writeValue, int_of_nat fits]
      exact ⟨solid_nonempty (Enc.uint v.toNat), fun _ => ⟨rfl, rfl⟩⟩
    · exact Yields.fail _
  split
  · rename_i negative
    apply Yields.bind head_yields
    rintro ⟨m, arg⟩ _ ⟨rfl, small, _⟩
    dsimp only at small ⊢
    split
    · rename_i fits
      obtain ⟨c, first, top⟩ := head_first m arg [] small
      apply Yields.pure
      constructor
      · exact head_bytes_nonempty m arg []
      · intro starts
        have same : c = b := Option.some.inj (first.symm.trans starts)
        have one : m = 1 := by rw [← top, same, negative]
        rw [List.append_nil, WrittenAs, writeValue, int_of_negative fits, one]
        exact ⟨rfl, rfl⟩
    · exact Yields.fail _
  split
  · apply Yields.bind short_text_yields
    rintro s _ ⟨rfl, nfc, _⟩
    apply Yields.pure
    rw [List.append_nil, WrittenAs, HValue.normal, normalise_of_nfc nfc]
    exact ⟨solid_nonempty _, fun _ => ⟨rfl, rfl⟩⟩
  split
  · apply Yields.bind (items_yield each)
    rintro items _ ⟨rfl, normal⟩
    apply Yields.pure
    rw [List.append_nil, WrittenAs, writeValue, write_items, HValue.normal, normal_items, normal]
    exact ⟨head_bytes_nonempty 4 _ _, fun _ => ⟨rfl, rfl⟩⟩
  split
  · apply Yields.bind (entries_yield settled each)
    rintro o _ ⟨rfl, normal⟩
    apply Yields.pure
    rw [List.append_nil, WrittenAs, HValue.normal]
    exact ⟨write_nonempty (.object o), fun _ => ⟨rfl, congrArg HValue.object normal⟩⟩
  · exact Yields.fail _

/-- A value is read in its normal form, from just the bytes it is written as. -/
theorem value_yields (levels : Nat) :
    Yields (readValue levels) WrittenAs := by
  induction levels with
  | zero =>
    apply Yields.position_bind
    intro start
    exact Yields.fail _
  | succ levels ih =>
    apply Yields.position_bind
    intro start
    apply peek_bind_yields
    intro b
    exact arm_yields settled ih start b

end

end
end Smysl
