import Smysl.Cbor.MapLoop
import Smysl.Cbor.RoundTrip
import Smysl.Cbor.PayloadExact

/-!
Items that are skipped and maps that are read by their integer keys: what an encoder
writes is an item, and is read back entry by entry.
-/
namespace Smysl
open ByteString Cursor Cursor.Parser Dec

section
variable [Unicode]

/-! An item is skipped. -/

theorem headed_skips {major arg : Nat} {raw : Bytes} (small : major < 7) {levels : Nat}
    (inner : Reads (skipHeaded (skipOne levels)) (Enc.head major arg ++ raw) ()) :
    Reads (skipOne (levels + 1)) (Enc.head major arg ++ raw) () := by
  obtain ⟨b, first, top⟩ := head_first major arg raw (by omega)
  refine Reads.position_bind fun start => peek_bind_reads first ?_
  have null : ¬ b = 0xF6 := by
    rintro rfl
    have : (0xF6 : UInt8).toNat / 32 = 7 := rfl
    omega
  rw [if_neg null, if_neg (by omega)]
  exact inner

/-- A number, which is its head alone. -/
theorem number_skips {major arg : Nat} (number : major = 0 ∨ major = 1) (short : arg < 2 ^ 64)
    (levels : Nat) : Reads (skipOne (levels + 1)) (Enc.head major arg) () := by
  have item : Reads (skipOne (levels + 1)) (Enc.head major arg ++ []) () := by
    refine headed_skips (by omega) ?_
    refine Reads.bind (head_reads (by omega) short) (Reads.position_bind fun after => ?_)
    rw [if_pos number]
    exact Reads.pure ()
  rwa [List.append_nil] at item

theorem uint_skips (v : UInt64) (levels : Nat) :
    Reads (skipOne (levels + 1)) (Enc.uint v.toNat) () :=
  number_skips (Or.inl rfl) v.toNat_lt levels

theorem bytes_skips (b : Bytes) (levels : Nat) : Reads (skipOne (levels + 1)) (Enc.bytes b) () := by
  refine Reads.of_fits fun fits => ?_
  rw [Enc.bytes, List.length_append, Cursor.limit] at fits
  refine headed_skips (by norm_num) ?_
  refine Reads.bind (head_reads (by norm_num) (by omega)) (Reads.position_bind fun after => ?_)
  rw [if_neg (by norm_num), if_pos rfl]
  exact Reads.bind_end (take_reads b) (Reads.pure ())

theorem text_skips {s : String} (nfc : Nfc s) (levels : Nat) :
    Reads (skipOne (levels + 1)) (Enc.text s) () := by
  refine Reads.of_fits fun fits => ?_
  rw [Enc.text, normalise_of_nfc nfc, List.length_append, Cursor.limit] at fits
  rw [Enc.text, normalise_of_nfc nfc]
  refine headed_skips (by norm_num) ?_
  refine Reads.bind (head_reads (by norm_num) (by omega)) (Reads.position_bind fun after => ?_)
  rw [if_neg (by norm_num), if_neg (by norm_num), if_pos rfl]
  have body : Reads (textOf after (utf8 s).length) (utf8 s) s := by
    refine Reads.bind_end (take_reads (utf8 s)) ?_
    refine Reads.orFail_bind ((from_utf8_iff _ s).mpr rfl) ?_
    have accepted : Unicode.isNfc s = true := nfc
    rw [if_pos accepted]
    exact Reads.pure s
  exact Reads.bind_end body (Reads.pure ())

/-- An array of items is an item. -/
theorem array_skips {items : List Bytes} {levels : Nat}
    (each : ∀ raw ∈ items, Reads (skipOne levels) raw ())
    (filled : ∀ raw ∈ items, raw ≠ []) :
    Reads (skipOne (levels + 1)) (Enc.array items) () := by
  refine Reads.of_fits fun fits => ?_
  have count := @count_le_bytes _ id items filled
  rw [List.flatMap_id] at count
  rw [Enc.array, Enc.arrayHead, List.length_append, Cursor.limit] at fits
  refine headed_skips (by norm_num) ?_
  refine Reads.bind (head_reads (by norm_num) (by omega)) (Reads.position_bind fun after => ?_)
  rw [if_neg (by norm_num), if_neg (by norm_num), if_neg (by norm_num), if_pos rfl]
  have all := @loop_reads _ _ id items each
  rwa [List.flatMap_id] at all

section Entries
variable {τ : Type} {key value : τ → Bytes}

omit [Unicode] in
theorem entries_loop {body : Option Bytes → Parser (Option Bytes)} {es : List τ}
    (each : ∀ st, ∀ e ∈ es, (∀ p ∈ st, p < key e) →
      Reads (body st) (key e ++ value e) (some (key e)))
    (ascending : es.Pairwise (fun e f => key e < key f)) (st : Option Bytes)
    (above : ∀ p ∈ st, ∀ e ∈ es, p < key e) :
    ∃ last, Reads (loop body es.length st) (es.flatMap fun e => key e ++ value e) last := by
  induction es generalizing st with
  | nil => exact ⟨st, Reads.pure st⟩
  | cons e es ih =>
    obtain ⟨least, ascending⟩ := List.pairwise_cons.mp ascending
    have first := each st e List.mem_cons_self fun p held => above p held e List.mem_cons_self
    obtain ⟨last, later⟩ :=
      ih (fun st f mem => each st f (List.mem_cons_of_mem _ mem)) ascending
      (some (key e)) (by
        rintro p ⟨rfl⟩ f mem
        exact least f mem)
    exact ⟨last, Reads.bind first later⟩

/-- A map of items, in the order of its encoded keys, is an item. -/
theorem entries_skip (key value : τ → Bytes) {levels : Nat} {es : List τ}
    (count : es.length < 2 ^ 64)
    (ascending : es.Pairwise (fun e f => key e < key f))
    (keys : ∀ e ∈ es, Reads (skipOne levels) (key e) ())
    (items : ∀ e ∈ es, Reads (skipOne levels) (value e) ()) :
    Reads (skipOne (levels + 1)) (Enc.head 5 es.length ++ es.flatMap fun e => key e ++ value e)
      () := by
  refine headed_skips (by norm_num) ?_
  refine Reads.bind (head_reads (by norm_num) count) (Reads.position_bind fun after => ?_)
  rw [if_neg (by norm_num), if_neg (by norm_num), if_neg (by norm_num), if_neg (by norm_num),
    if_pos rfl]
  have each : ∀ st : Option Bytes, ∀ e ∈ es, (∀ p ∈ st, p < key e) → Reads (do
      let kstart ← position
      let found ← spanned (skipOne levels)
      if st.any (fun p => found.2 = p) then fail (.nonDeterministic kstart .duplicateMapKey)
      else if st.any (fun p => found.2 < p) then fail (.nonDeterministic kstart .unsortedMapKeys)
      else do
        skipOne levels
        pure (some found.2)) (key e ++ value e) (some (key e)) := by
    intro st e mem above
    refine Reads.position_bind fun kstart => Reads.bind (Reads.spanned (keys e mem)) ?_
    have fresh : st.any (fun p => decide (key e = p)) = false := by
      cases st with
      | none => rfl
      | some p => simpa using (ne_of_gt (above p rfl))
    have sorted : st.any (fun p => decide (key e < p)) = false := by
      cases st with
      | none => rfl
      | some p => simpa using le_of_lt (above p rfl)
    dsimp only
    rw [fresh, sorted, if_neg (by decide), if_neg (by decide)]
    exact Reads.bind_end (items e mem) (Reads.pure _)
  obtain ⟨last, run⟩ := entries_loop each ascending none fun p held => nomatch held
  exact Reads.bind_end run (Reads.pure ())

end Entries

/-- A map of items by ascending integer keys is an item. -/
theorem map_skips (levels : Nat) (es : List (Nat × Bytes)) (count : es.length < 2 ^ 64)
    (small : ∀ e ∈ es, e.1 < 2 ^ 16)
    (ascending : es.Pairwise (fun e f => Enc.uint e.1 < Enc.uint f.1))
    (items : ∀ e ∈ es, Reads (skipOne (levels + 1)) e.2 ()) :
    Reads (skipOne (levels + 2)) (Enc.mapOf es) () := by
  refine entries_skip (fun e : Nat × Bytes => Enc.uint e.1) Prod.snd count ascending ?_ items
  intro e mem
  have value : (UInt64.ofNat e.1).toNat = e.1 := by
    have := small e mem
    rw [UInt64.toNat_ofNat']
    omega
  have key := uint_skips (UInt64.ofNat e.1) levels
  rwa [value] at key

/-! A payload value is skipped where it holds no null and is not nested too deep. -/

mutual

/-- Whether so many levels of nesting are enough for the value, which holds no null. -/
def HValue.fits : HValue → Nat → Bool
  | .null, _ => false
  | .bool _, levels | .int _, levels | .float _, levels | .str _, levels => 0 < levels
  | .array items, levels => 0 < levels && HValue.itemsFit items (levels - 1)
  | .object entries, levels => 0 < levels && HValue.entriesFit entries (levels - 1)

def HValue.itemsFit : List HValue → Nat → Bool
  | [], _ => true
  | v :: items, levels => v.fits levels && HValue.itemsFit items levels

def HValue.entriesFit : List (String × HValue) → Nat → Bool
  | [], _ => true
  | e :: entries, levels => e.2.fits levels && HValue.entriesFit entries levels

end

omit [Unicode] in
theorem items_fit {items : List HValue} {levels : Nat} (fit : HValue.itemsFit items levels = true) :
    ∀ v ∈ items, v.fits levels = true := by
  induction items with
  | nil => exact fun _ mem => nomatch mem
  | cons v items ih =>
    rw [HValue.itemsFit, Bool.and_eq_true] at fit
    exact List.forall_mem_cons.mpr ⟨fit.1, ih fit.2⟩

omit [Unicode] in
theorem entries_fit {entries : HObject} {levels : Nat}
    (fit : HValue.entriesFit entries levels = true) :
    ∀ e ∈ entries, e.2.fits levels = true := by
  induction entries with
  | nil => exact fun _ mem => nomatch mem
  | cons e entries ih =>
    rw [HValue.entriesFit, Bool.and_eq_true] at fit
    exact List.forall_mem_cons.mpr ⟨fit.1, ih fit.2⟩

omit [Unicode] in
theorem fits_level {v : HValue} {levels : Nat} (fit : v.fits levels = true) :
    ∃ below, levels = below + 1 := by
  have positive : 0 < levels := by
    cases v <;> simp only [HValue.fits, Bool.and_eq_true, decide_eq_true_eq, Bool.false_eq_true]
      at fit
    all_goals first | exact fit | exact fit.1
  exact ⟨levels - 1, by omega⟩

section
variable (settled : ∀ s : String, Nfc (Unicode.nfc s))
include settled

theorem value_skips (v : HValue) : ∀ levels, v.fits levels = true →
    Reads (skipOne levels) (writeValue v) () := by
  intro levels fit
  induction v using HValue.induct generalizing levels with
  | null => cases fit
  | bool b =>
    obtain ⟨levels, rfl⟩ := fits_level fit
    have simple (c : UInt8) (here : c = 0xF4 ∨ c = 0xF5) :
        Reads (skipOne (levels + 1)) [c] () := by
      refine Reads.position_bind fun start => peek_bind_reads rfl ?_
      have null : ¬ c = 0xF6 := by rcases here with rfl | rfl <;> decide
      have major : c.toNat / 32 = 7 := by rcases here with rfl | rfl <;> rfl
      have float : ¬ c = 0xFA := by rcases here with rfl | rfl <;> decide
      rw [if_neg null, if_pos major, skipSimple, if_neg float, if_pos here]
      exact Reads.bind_end (byte_reads c) (Reads.pure ())
    cases b with
    | false => exact simple _ (Or.inl rfl)
    | true => exact simple _ (Or.inr rfl)
  | int i =>
    obtain ⟨levels, rfl⟩ := fits_level fit
    have low := Int64.le_toInt i
    have high := Int64.toInt_lt i
    rw [writeValue, Enc.int]
    split
    · exact number_skips (Or.inl rfl) (by omega) levels
    · exact number_skips (Or.inr rfl) (by omega) levels
  | float f =>
    obtain ⟨levels, rfl⟩ := fits_level fit
    have same : Enc.f32q f.toF32 = Enc.f32q f.toF32.quantise := by
      rw [Enc.f32q, Enc.f32q, F32.quantise_quantise]
    rw [writeValue, same]
    refine Reads.position_bind fun start => peek_bind_reads (b := 0xFA) rfl ?_
    have major : (0xFA : UInt8).toNat / 32 = 7 := rfl
    rw [if_neg (by decide), if_pos major, skipSimple, if_pos rfl]
    exact Reads.bind_end (f32q_reads (F32.quantise_is_quantised _)) (Reads.pure ())
  | str s =>
    obtain ⟨levels, rfl⟩ := fits_level fit
    rw [writeValue, ← text_normalise settled]
    exact text_skips (normalise_nfc settled s) levels
  | array items ih =>
    obtain ⟨levels, rfl⟩ := fits_level fit
    rw [HValue.fits, Bool.and_eq_true] at fit
    rw [writeValue, write_items]
    apply array_skips
    · intro raw mem
      obtain ⟨v, held, rfl⟩ := List.mem_map.mp mem
      exact ih v held levels (items_fit fit.2 v held)
    · intro raw mem
      obtain ⟨v, _, rfl⟩ := List.mem_map.mp mem
      exact write_nonempty v
  | object entries ih =>
    obtain ⟨levels, rfl⟩ := fits_level fit
    rw [HValue.fits, Bool.and_eq_true] at fit
    change Reads _ (writeObject entries) ()
    rw [write_object settled]
    refine Reads.of_fits fun short => ?_
    have count := @count_le_bytes _ rowOf (normalObject entries) fun e _ => by
      exact List.append_ne_nil_of_left_ne_nil (solid_nonempty (Enc.text e.1)) _
    rw [List.length_append, Cursor.limit] at short
    have made : ∀ e ∈ normalObject entries, ∃ f ∈ entries, normalEntry f = e := by
      intro e mem
      rw [normalObject, normal_entries] at mem
      exact List.mem_map.mp (keys_in_order_subset settled entries mem)
    refine entries_skip (fun e : String × HValue => Enc.text e.1) (fun e => writeValue e.2)
      (by omega) ?_ ?_ ?_
    · rw [normalObject, normal_entries]
      exact keys_in_order_ascending settled entries
    · intro e mem
      obtain ⟨f, held, rfl⟩ := made e mem
      obtain ⟨below, rfl⟩ := fits_level (entries_fit fit.2 f held)
      exact text_skips (normalise_nfc settled f.1) below
    · intro e mem
      obtain ⟨f, held, rfl⟩ := made e mem
      have inner := ih f held levels (entries_fit fit.2 f held)
      rwa [← write_normal settled f.2] at inner

theorem object_skips {o : HObject} {levels : Nat} (fit : (HValue.object o).fits levels = true) :
    Reads (skipOne levels) (writeObject o) () := value_skips settled (.object o) levels fit

end

/-! Fields are read. -/

/-- The entries of a map that is read in order of its keys; one with no arm is skipped. -/
def readKeyed {σ : Type} (arms : Arms σ) (init : σ) : Parser σ := do
  let n ← mapHead
  let out ← loop (fun (st : Option Nat × σ) => do
    let k ← mapKey st.1
    match arms k with
    | some arm => do
      let update ← arm
      pure (some k, update st.2)
    | none => do
      let _ ← skipItem
      pure (some k, st.2)) n (none, init)
  pure out.2

/-- A map whose entries each have an arm is read entry by entry. -/
theorem keyed_reads {σ : Type} (arms : Arms σ) (rows : List (Nat × Bytes × (σ → σ)))
    (each : ∀ r ∈ rows, r.1 < 2 ^ 16 ∧ ∃ arm, arms r.1 = some arm ∧ Reads arm r.2.1 r.2.2)
    (ascending : rows.Pairwise (fun r s => r.1 < s.1)) (count : rows.length < 2 ^ 64) (init : σ) :
    Reads (readKeyed arms init) (Enc.mapOf (rows.map (fun r => (r.1, r.2.1))))
      (rows.foldl (fun s r => r.2.2 s) init) := by
  rw [Enc.mapOf, List.length_map, List.flatMap_map]
  refine Reads.bind (expect_reads (by norm_num) count) ?_
  refine Reads.loop_ascending_bind (fun s r => r.2.2 s) (fun st r mem above => ?_) ascending
    fun last => Reads.pure _
  obtain ⟨small, arm, known, reads⟩ := each r mem
  refine Reads.bind (map_key_reads small above) ?_
  rw [known]
  exact Reads.bind_end reads (Reads.pure _)

omit [Unicode] in
theorem of_field {σ α : Type} {p : Parser α} {raw : Bytes} {v : α} (reads : Reads p raw v)
    (set : α → σ → σ) : ∃ arm, field p set = some arm ∧ Reads arm raw (set v) :=
  ⟨_, rfl, Reads.bind_end reads (Reads.pure _)⟩

/-! Slots by their places. -/

omit [Unicode] in
theorem slot_of_keyed {k : Nat} {slots : List (Option Bytes)} {e : Nat × Bytes}
    (mem : e ∈ keyedFrom k slots) : some e.2 ∈ slots := by
  induction slots generalizing k with
  | nil => cases mem
  | cons slot slots ih =>
    rcases List.mem_append.mp mem with first | later
    · cases slot with
      | none => cases first
      | some v =>
        have same : e = (k, v) := List.mem_singleton.mp first
        rw [same]
        exact List.mem_cons_self
    · exact List.mem_cons_of_mem _ (ih later)

omit [Unicode] in
theorem keyed_length_le (k : Nat) (slots : List (Option Bytes)) :
    (keyedFrom k slots).length ≤ slots.length := by
  induction slots generalizing k with
  | nil => exact le_refl 0
  | cons slot slots ih =>
    have rest := ih (k + 1)
    rw [keyedFrom, List.length_append, List.length_cons]
    have one : (putOpt k slot fun v => v).length ≤ 1 := by cases slot <;> simp [putOpt]
    omega

omit [Unicode] in
theorem uint_ascending {a b : Nat} (low : a < b) (small : b < 2 ^ 64) :
    Enc.uint a < Enc.uint b := by
  have less : Enc.head 0 a ++ [] < Enc.head 0 b ++ [] := head_lt (by norm_num) low small [] []
  rwa [List.append_nil, List.append_nil] at less

/-- A map of slots that hold items is an item. -/
theorem keyed_skips {levels : Nat} {slots : List (Option Bytes)} (few : slots.length < 2 ^ 16)
    (items : ∀ v, some v ∈ slots → Reads (skipOne (levels + 1)) v ()) :
    Reads (skipOne (levels + 2)) (Enc.map (keyed slots)) () := by
  have asc := keyed_ascending 0 slots
  have count := keyed_length_le 0 slots
  rw [sorted_map asc]
  refine map_skips levels _ (by omega) (fun e mem => ?_) ?_ fun e mem => ?_
  · have bounds := keyed_key_bounds mem
    omega
  · refine asc.imp_of_mem fun {e f} memE memF low => uint_ascending low ?_
    have bounds := keyed_key_bounds memF
    omega
  · exact items e.2 (slot_of_keyed mem)

section Filled
variable {σ : Type}

/-- The filled slots by their places, each with what its arm makes of the state. -/
def filledFrom : Nat → List (Option (Bytes × (σ → σ))) → List (Nat × Bytes × (σ → σ))
  | _, [] => []
  | k, slot :: slots => (slot.map fun x => (k, x)).toList ++ filledFrom (k + 1) slots

omit [Unicode] in
theorem filled_keyed (k : Nat) (slots : List (Option (Bytes × (σ → σ)))) :
    (filledFrom k slots).map (fun r => (r.1, r.2.1)) =
      keyedFrom k (slots.map (Option.map Prod.fst)) := by
  induction slots generalizing k with
  | nil => rfl
  | cons slot slots ih =>
    rw [filledFrom, List.map_append, ih, List.map_cons, keyedFrom]
    cases slot <;> rfl

omit [Unicode] in
theorem mem_filled {k : Nat} {slots : List (Option (Bytes × (σ → σ)))}
    {r : Nat × Bytes × (σ → σ)} (mem : r ∈ filledFrom k slots) :
    ∃ i, r.1 = k + i ∧ i < slots.length ∧ slots[i]? = some (some r.2) := by
  induction slots generalizing k with
  | nil => cases mem
  | cons slot slots ih =>
    rcases List.mem_append.mp mem with first | later
    · cases slot with
      | none => cases first
      | some x =>
        have same : r = (k, x) := List.mem_singleton.mp first
        rw [same]
        exact ⟨0, rfl, Nat.succ_pos _, rfl⟩
    · obtain ⟨i, place, inside, here⟩ := ih later
      refine ⟨i + 1, by omega, ?_, here⟩
      rw [List.length_cons]
      omega

/-- What the slots make of a state, one after the other. -/
def applied (slots : List (Option (Bytes × (σ → σ)))) (s : σ) : σ :=
  slots.foldl (fun s slot => (slot.map fun x => x.2 s).getD s) s

omit [Unicode] in
theorem filled_applied (k : Nat) (slots : List (Option (Bytes × (σ → σ)))) (s : σ) :
    (filledFrom k slots).foldl (fun s r => r.2.2 s) s = applied slots s := by
  induction slots generalizing k s with
  | nil => rfl
  | cons slot slots ih =>
    rw [filledFrom, List.foldl_append, ih]
    cases slot <;> rfl

/-- A map of slots is read slot by slot, where each that is filled has an arm. -/
theorem slots_read (arms : Arms σ) {slots : List (Option (Bytes × (σ → σ)))}
    (few : slots.length < 2 ^ 16)
    (each : ∀ i x, slots[i]? = some (some x) → ∃ arm, arms i = some arm ∧ Reads arm x.1 x.2)
    (init : σ) :
    Reads (readKeyed arms init) (Enc.map (keyed (slots.map (Option.map Prod.fst))))
      (applied slots init) := by
  have asc := keyed_ascending 0 (slots.map (Option.map Prod.fst))
  have count := keyed_length_le 0 (slots.map (Option.map Prod.fst))
  rw [sorted_map asc, ← filled_applied 0]
  rw [← filled_keyed, List.length_map, List.length_map] at count
  rw [← filled_keyed] at asc
  have apart : (filledFrom 0 slots).Pairwise (fun r s => r.1 < s.1) := by
    rw [OrdMap.Ascending, List.pairwise_map] at asc
    exact asc
  change Reads _ (Enc.mapOf (keyedFrom 0 _)) _
  rw [← filled_keyed]
  refine keyed_reads arms _ (fun r mem => ?_) apart (by omega) init
  obtain ⟨i, place, inside, here⟩ := mem_filled mem
  rw [Nat.zero_add] at place
  rw [place]
  exact ⟨by omega, each i r.2 here⟩

end Filled

end
end Smysl
