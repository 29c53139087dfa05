import Smysl.Cbor.PayloadReads

/-!
A payload is written in the one form it is read in. Reading what was written
gives the object in its normal form, and writing what was read gives the bytes
back, where nothing follows the map and the map has a key.
-/
namespace Smysl
open ByteString Cursor Cursor.Parser Dec

/-! Where the item at the front of a buffer ends, by its heads alone. -/

/-- Past what a head is the head of, by how the items inside are passed. -/
def skimRest (inner : Parser Unit) (h : Nat × Nat) : Parser Unit :=
  if h.1 = 2 ∨ h.1 = 3 then do
    let _ ← take h.2
    pure ()
  else if h.1 = 4 then loop (fun _ => inner) h.2 ()
  else if h.1 = 5 then
    loop (fun _ => do
      inner
      inner) h.2 ()
  else pure ()

/-- Past one item, by how many levels of nesting are still allowed. -/
def skim : Nat → Parser Unit
  | 0 => do
    let start ← position
    fail (.truncated start)
  | levels + 1 => do
    let b ← peek
    if b = 0xFA then do
      let _ ← take 5
      pure ()
    else do
      let h ← head
      skimRest (skim levels) h

/-- One item, with nothing after it. -/
def isOneItem (b : Bytes) : Bool :=
  match skim b.length ⟨0, b⟩ with
  | .ok (_, d) => d.rest.isEmpty
  | .error _ => false

theorem skim_head {levels major arg : Nat} {tail : Bytes} (small : major < 7)
    (argSmall : arg < 2 ^ 64) (later : Reads (skimRest (skim levels) (major, arg)) tail ()) :
    Reads (skim (levels + 1)) (Enc.head major arg ++ tail) () := by
  obtain ⟨c, first, top⟩ := head_first major arg tail (by omega)
  apply peek_bind_reads first
  obtain ⟨_, _, _, float⟩ := not_simple (c := c) (by omega)
  rw [if_neg float]
  exact Reads.bind (head_reads (by omega) argSmall) later

theorem skim_simple {levels arg : Nat} (low : arg < 24) :
    Reads (skim (levels + 1)) (Enc.head 7 arg) () := by
  have one : Enc.head 7 arg = [UInt8.ofNat (7 * 32 + arg)] := by
    rw [Enc.head, if_pos low]
  have other : UInt8.ofNat (7 * 32 + arg) ≠ 0xFA := by
    intro same
    have value := congrArg UInt8.toNat same
    rw [UInt8.toNat_ofNat', Nat.mod_eq_of_lt (by omega)] at value
    have float : (0xFA : UInt8).toNat = 250 := rfl
    omega
  apply peek_bind_reads (b := UInt8.ofNat (7 * 32 + arg)) (by rw [one]; rfl)
  rw [if_neg other]
  apply Reads.bind_end (head_reads (by norm_num) (by omega))
  exact Reads.pure ()

theorem loop_reads {inner : Parser Unit} {τ : Type} {raw : τ → Bytes} {items : List τ}
    (each : ∀ x ∈ items, Reads inner (raw x) ()) :
    Reads (loop (fun _ => inner) items.length ()) (items.flatMap raw) () := by
  induction items with
  | nil => exact Reads.pure ()
  | cons x items ih =>
    exact Reads.bind (each x List.mem_cons_self)
      (ih fun y mem => each y (List.mem_cons_of_mem x mem))

section
variable [Unicode]

theorem skim_text (levels : Nat) (s : String) : Reads (skim (levels + 1)) (Enc.text s) () := by
  apply Reads.of_fits
  intro fits
  rw [Enc.text, List.length_append, Cursor.limit] at fits
  rw [Enc.text]
  apply skim_head (by norm_num) (by omega)
  exact Reads.bind_end (take_reads _) (Reads.pure ())

section
variable (settled : ∀ s : String, Nfc (Unicode.nfc s))
include settled

/-- Every value written is one item. -/
theorem skim_value (v : HValue) : ∀ levels, (writeValue v).length ≤ levels →
    Reads (skim levels) (writeValue v) () := by
  intro levels enough
  induction v using HValue.induct generalizing levels with
  | null =>
    obtain ⟨levels, rfl⟩ := level_of_value enough
    exact @skim_simple levels 22 (by norm_num)
  | bool b =>
    obtain ⟨levels, rfl⟩ := level_of_value enough
    cases b with
    | false => exact @skim_simple levels 20 (by norm_num)
    | true => exact @skim_simple levels 21 (by norm_num)
  | int i =>
    obtain ⟨levels, rfl⟩ := level_of_value enough
    have low := Int64.le_toInt i
    have high := Int64.toInt_lt i
    rw [writeValue, Enc.int]
    split
    · rw [← List.append_nil (Enc.head 0 _)]
      exact skim_head (by norm_num) (by omega) (Reads.pure ())
    · rw [← List.append_nil (Enc.head 1 _)]
      exact skim_head (by norm_num) (by omega) (Reads.pure ())
  | float f =>
    obtain ⟨levels, rfl⟩ := level_of_value enough
    have five : (writeValue (.float f)).length = 5 := by
      rw [writeValue, Enc.f32q, List.length_cons, F32.toBeBytes, big_endian_length]
    apply peek_bind_reads (b := 0xFA) rfl
    rw [if_pos rfl, ← five]
    exact Reads.bind_end (take_reads _) (Reads.pure ())
  | str s =>
    obtain ⟨levels, rfl⟩ := level_of_value enough
    exact skim_text levels s
  | array items ih =>
    obtain ⟨levels, rfl⟩ := level_of_value enough
    rw [writeValue, write_items, Enc.array, Enc.arrayHead, List.length_map,
      ← List.flatMap_def] at enough ⊢
    apply Reads.of_fits
    intro fits
    have before := head_length_pos 4 items.length
    have count := @count_le_bytes _ writeValue items fun v _ => write_nonempty v
    rw [List.length_append] at enough fits
    rw [Cursor.limit] at fits
    apply skim_head (by norm_num) (by omega)
    apply loop_reads
    intro v mem
    have part := @part_le_bytes _ writeValue items v mem
    exact ih v mem levels (by omega)
  | object entries ih =>
    obtain ⟨levels, rfl⟩ := level_of_value enough
    rw [writeValue] at enough ⊢
    change Reads _ (writeObject entries) ()
    change (writeObject entries).length ≤ _ at enough
    rw [write_object settled] at enough ⊢
    apply Reads.of_fits
    intro fits
    have before := head_length_pos 5 (normalObject entries).length
    have count := @count_le_bytes _ rowOf (normalObject entries) fun e _ => by
      exact List.append_ne_nil_of_left_ne_nil (solid_nonempty (Enc.text e.1)) _
    rw [List.length_append] at enough fits
    rw [Cursor.limit] at fits
    apply skim_head (by norm_num) (by omega)
    apply loop_reads
    intro e mem
    have part := @part_le_bytes _ rowOf (normalObject entries) e mem
    have key := List.length_pos_iff.mpr (solid_nonempty (Enc.text e.1))
    have value := List.length_pos_iff.mpr (write_nonempty e.2)
    rw [row_length] at part
    obtain ⟨f, held, rfl⟩ := List.mem_map.mp (by
      rw [normalObject, normal_entries] at mem
      exact keys_in_order_subset settled entries mem)
    have inner : (writeValue (normalEntry f).2).length ≤ levels →
        Reads (skim levels) (writeValue (normalEntry f).2) () := by
      have plain := ih f held levels
      rwa [← write_normal settled f.2] at plain
    have passed := inner (by omega)
    obtain ⟨lower, rfl⟩ : ∃ lower, levels = lower + 1 := ⟨levels - 1, by omega⟩
    exact Reads.bind (skim_text lower _) passed

theorem skim_object {o : HObject} {levels : Nat} (enough : (writeObject o).length ≤ levels) :
    Reads (skim levels) (writeObject o) () :=
  skim_value settled (.object o) levels enough

theorem object_reads {o : HObject} {levels : Nat} (enough : (writeObject o).length ≤ levels) :
    Reads (readEntries (readValue levels)) (writeObject o) (normalObject o) := by
  apply normal_entries_read settled
  intro e mem held
  have short := value_shorter settled (normalEntry e) held
  rw [normalEntry, write_normal settled] at short
  exact value_reads settled e.2 levels (by omega)

theorem normal_nil_iff (o : HObject) : normalObject o = [] ↔ o = [] := by
  rw [normalObject, normal_entries, keys_in_order_kept settled, Firsts.kept_nil_iff,
    List.map_eq_nil_iff]

/-- The empty object is the only one written in one byte. -/
theorem written_empty_iff (o : HObject) : writeObject o = [0xA0] ↔ o = [] := by
  constructor
  · intro one
    have length := congrArg List.length one
    have count := @count_le_bytes _ rowOf (normalObject o) fun e _ => by
      exact List.append_ne_nil_of_left_ne_nil (solid_nonempty (Enc.text e.1)) _
    have start := head_length_pos 5 (normalObject o).length
    rw [write_object settled, List.length_append, List.length_singleton] at length
    apply (normal_nil_iff settled o).mp
    exact List.length_eq_zero_iff.mp (by omega)
  · rintro rfl
    rfl

/-- What is accepted is what is written of the object read, and what is left over. -/
theorem accepted {b : Bytes} {o : HObject} (accepts : payloadToObject b = .ok o) :
    ∃ more, b = writeObject o ++ more := by
  rw [payloadToObject] at accepts
  split at accepts
  · rename_i o' d run
    cases accepts
    obtain ⟨raw, eq, rfl, _⟩ := entries_yield settled (value_yields settled b.length) run
    exact ⟨d.rest, eq⟩
  · cases accepts

/-- A map that is read with any number of levels is read with as many as it has bytes. -/
theorem levels_enough {levels : Nat} {b : Bytes} {o : HObject} {d : Cursor.Dec}
    (fits : b.length < Cursor.limit) (run : readEntries (readValue levels) ⟨0, b⟩ = .ok (o, d)) :
    payloadToObject b = .ok o := by
  obtain ⟨raw, eq, rfl, normal⟩ := entries_yield settled (value_yields settled levels) run
  dsimp only at eq
  have total := congrArg List.length eq
  rw [List.length_append] at total
  have enough : (writeObject o).length ≤ b.length := by omega
  have again := object_reads settled enough 0 d.rest (by omega)
  rw [← eq, normal] at again
  rw [payloadToObject, again]

theorem one_item_iff {o : HObject} {more : Bytes}
    (fits : (writeObject o ++ more).length < Cursor.limit) :
    isOneItem (writeObject o ++ more) = true ↔ more = [] := by
  have enough : (writeObject o).length ≤ (writeObject o ++ more).length := by
    rw [List.length_append]
    omega
  have run := skim_object settled enough 0 more (by omega)
  rw [isOneItem, run]
  exact List.isEmpty_iff

end

/-- Decoding a payload gives its object in normal form; the normal form decides the
payload; and an accepted payload is given back exactly when it is one item, and not the
map with no keys. -/
theorem payload_exact_iff (settled : ∀ s : String, Nfc (Unicode.nfc s)) :
    (∀ o, objectToPayload o = none ↔ o = []) ∧
    (∀ o b, b.length < Cursor.limit → objectToPayload o = some b →
      payloadToObject b = .ok (normalObject o)) ∧
    (∀ o o', normalObject o = normalObject o' → objectToPayload o = objectToPayload o') ∧
    (∀ b o, b.length < Cursor.limit → payloadToObject b = .ok o →
      (objectToPayload o = some b ↔ isOneItem b = true ∧ b ≠ [0xA0])) := by
  have written : ∀ o : HObject, o ≠ [] → objectToPayload o = some (writeObject o) := by
    intro o filled
    rw [objectToPayload, if_neg (by rwa [List.isEmpty_iff])]
  constructor
  · intro o
    constructor
    · intro absent
      by_contra filled
      rw [written o filled] at absent
      cases absent
    · rintro rfl
      rfl
  constructor
  · intro o b fits some_
    have filled : o ≠ [] := by
      rintro rfl
      cases some_
    rw [written o filled] at some_
    cases some_
    have run := object_reads settled (le_refl (writeObject o).length) 0 [] (by omega)
    rw [List.append_nil] at run
    rw [payloadToObject, run]
  constructor
  · intro o o' same
    have bytes : writeObject o = writeObject o' := by
      rw [← write_normal_object settled o, same, write_normal_object settled]
    have empty : o = [] ↔ o' = [] := by
      rw [← normal_nil_iff settled o, same, normal_nil_iff settled]
    by_cases none_ : o = []
    · rw [none_, empty.mp none_]
    · rw [written o none_, written o' (mt empty.mpr none_), bytes]
  · intro b o fits accepts
    obtain ⟨more, rfl⟩ := accepted settled accepts
    rw [one_item_iff settled fits]
    by_cases none_ : o = []
    · rw [none_]
      constructor
      · intro absent
        cases absent
      · rintro ⟨rfl, other⟩
        exact absurd (List.append_nil _) other
    · rw [written o none_, Option.some.injEq, List.self_eq_append_right]
      constructor
      · rintro rfl
        rw [List.append_nil]
        exact ⟨rfl, fun one => none_ ((written_empty_iff settled o).mp one)⟩
      · exact And.left

end

section
local instance plainPayloadText : Unicode := .plain

/-- A payload of one key, which comes back as it was. -/
theorem one_key_payload :
    payloadToObject [0xA1, 0x61, 0x61, 0x01] = .ok (normalObject [("a", .int 1)]) ∧
    (objectToPayload [("a", .int 1)] = some [0xA1, 0x61, 0x61, 0x01] ↔
      isOneItem [0xA1, 0x61, 0x61, 0x01] = true ∧ [0xA1, 0x61, 0x61, 0x01] ≠ [(0xA0 : UInt8)]) := by
  have exact_ := payload_exact_iff fun _ => rfl
  constructor
  · exact exact_.2.1 [("a", .int 1)] _ (by decide) (by decide +kernel)
  · exact exact_.2.2.2 [0xA1, 0x61, 0x61, 0x01] [("a", .int 1)] (by decide) rfl

/-- A byte after the map is accepted and not given back, and so is a map of no keys. -/
theorem trailing_byte_dropped :
    payloadToObject [0xA1, 0x61, 0x61, 0x01, 0x00] = .ok [("a", .int 1)] ∧
    objectToPayload [("a", .int 1)] ≠ some [0xA1, 0x61, 0x61, 0x01, 0x00] ∧
    payloadToObject [0xA0] = .ok [] ∧ objectToPayload [] ≠ some [0xA0] :=
  ⟨rfl, by decide +kernel, rfl, by decide⟩

end
end Smysl
