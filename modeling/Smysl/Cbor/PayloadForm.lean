import Smysl.Cbor.Payload

/-!
The order of encoded text keys, and the normal form of a header's values: what is
written of a value is what is written of its normal form, entry by entry in the
order of the encoded keys.
-/
namespace Smysl
open ByteString Cursor Cursor.Parser Dec

/-! The order of encoded keys is the order the reader asks for. -/

theorem append_lt {l x y : Bytes} (low : x < y) : l ++ x < l ++ y := by
  induction l with
  | nil => exact low
  | cons b l ih => exact List.cons_lt_cons_iff.mpr (.inr ⟨rfl, ih⟩)

theorem byte_lt {a b : Nat} (low : a < b) (small : b < 256) (x y : Bytes) :
    UInt8.ofNat a :: x < UInt8.ofNat b :: y := by
  apply List.cons_lt_cons_iff.mpr
  left
  rw [UInt8.lt_iff_toNat_lt, UInt8.toNat_ofNat', UInt8.toNat_ofNat']
  omega

theorem big_endian_lt {width a b : Nat} (low : a < b) (small : b < 256 ^ width) (x y : Bytes) :
    bigEndian width a ++ x < bigEndian width b ++ y := by
  induction width generalizing a b x y with
  | zero =>
    rw [pow_zero] at small
    omega
  | succ width ih =>
    rw [pow_succ] at small
    rw [bigEndian, bigEndian, List.append_assoc, List.append_assoc]
    by_cases above : a / 256 < b / 256
    · exact ih above (by omega) _ _
    · have same : a / 256 = b / 256 := by omega
      rw [same]
      apply append_lt
      have last : UInt8.ofNat a :: x < UInt8.ofNat b :: y := by
        apply List.cons_lt_cons_iff.mpr
        left
        rw [UInt8.lt_iff_toNat_lt, UInt8.toNat_ofNat', UInt8.toNat_ofNat']
        omega
      exact last

/-- Heads of one major type are in the order of their arguments. -/
theorem head_lt {major a b : Nat} (majorSmall : major < 8) (low : a < b) (small : b < 2 ^ 64)
    (x y : Bytes) : Enc.head major a ++ x < Enc.head major b ++ y := by
  have wider : ∀ width info, b < 256 ^ width →
      UInt8.ofNat info :: bigEndian width a ++ x < UInt8.ofNat info :: bigEndian width b ++ y :=
    fun width info fits => List.cons_lt_cons_iff.mpr (.inr ⟨rfl, big_endian_lt low fits x y⟩)
  rw [Enc.head, Enc.head]
  -- Of two widths the wider starts higher; within one the arguments decide.
  split_ifs
  all_goals first
    | exact byte_lt (by omega) (by omega) _ _
    | exact wider _ _ (by omega)

theorem head_length_le {major a b : Nat} (low : a ≤ b) :
    (Enc.head major a).length ≤ (Enc.head major b).length := by
  rw [Enc.head, Enc.head]
  split_ifs <;> simp <;> omega

section
variable [Unicode]

theorem key_ordered_lt {p k : String} (nfcP : Nfc p) (nfcK : Nfc k)
    (bound : (utf8 k).length < 2 ^ 64) (ordered : KeyOrdered p k) : Enc.text p < Enc.text k := by
  rw [Enc.text, Enc.text, normalise_of_nfc nfcP, normalise_of_nfc nfcK]
  rcases ordered with shorter | ⟨same, low⟩
  · exact head_lt (by omega) shorter bound _ _
  · rw [same]
    exact append_lt low

theorem key_ordered_of_lt {p k : String} (nfcP : Nfc p) (nfcK : Nfc k)
    (bound : (utf8 p).length < 2 ^ 64) (low : Enc.text p < Enc.text k) : KeyOrdered p k := by
  by_contra unordered
  have back : KeyOrdered k p ∨ p = k := by
    rw [KeyOrdered, not_or, not_and] at unordered
    by_cases same : (utf8 p).length = (utf8 k).length
    · rcases lt_or_eq_of_le (not_lt.mp (unordered.2 same)) with lower | equal
      · exact .inl (.inr ⟨same.symm, lower⟩)
      · exact .inr (utf8_injective equal.symm)
    · exact .inl (.inl (by omega))
  rcases back with ordered | rfl
  · exact absurd (low.trans (key_ordered_lt nfcK nfcP bound ordered)) (lt_irrefl _)
  · exact absurd low (lt_irrefl _)

theorem text_injective {s t : String} (same : Enc.text s = Enc.text t) :
    normalise s = normalise t := by
  rw [Enc.text, Enc.text] at same
  have total := congrArg List.length same
  rw [List.length_append, List.length_append] at total
  have equal : (utf8 (normalise s)).length = (utf8 (normalise t)).length := by
    rcases Nat.lt_trichotomy (utf8 (normalise s)).length (utf8 (normalise t)).length with
      low | equal | high
    · have heads := @head_length_le 3 _ _ (Nat.le_of_lt low)
      omega
    · exact equal
    · have heads := @head_length_le 3 _ _ (Nat.le_of_lt high)
      omega
  rw [equal] at same
  exact utf8_injective (List.append_cancel_left same)

/-! The normal form, where what normalising gives is in normal form. -/

section
variable (settled : ∀ s : String, Nfc (Unicode.nfc s))
include settled

theorem normalise_nfc (s : String) : Nfc (normalise s) := by
  rw [normalise]
  split
  · rename_i nfc
    exact nfc
  · exact settled s

theorem normalise_normalise (s : String) : normalise (normalise s) = normalise s :=
  normalise_of_nfc (normalise_nfc settled s)

theorem text_normalise (s : String) : Enc.text (normalise s) = Enc.text s := by
  rw [Enc.text, Enc.text, normalise_normalise settled]

/-- The order and the repeats of normalised keys, as their encodings have them. -/
theorem keys_in_order_kept (entries : HObject) : keysInOrder (entries.map normalEntry) =
    Firsts.kept (fun e : String × HValue => Enc.text e.1) (entries.map normalEntry) := by
  have keys : Firsts.firsts (fun e : String × HValue => Enc.text e.1) (entries.map normalEntry) =
      Firsts.firsts Prod.fst (entries.map normalEntry) := by
    apply Firsts.firsts_congr
    intro a memA b memB
    obtain ⟨e, _, rfl⟩ := List.mem_map.mp memA
    obtain ⟨f, _, rfl⟩ := List.mem_map.mp memB
    constructor
    · intro same
      have equal := text_injective same
      rwa [normalEntry, normalEntry, normalise_normalise settled,
        normalise_normalise settled] at equal
    · intro same
      rw [same]
  rw [keysInOrder, Firsts.kept_eq, keys]

theorem keys_in_order_ascending (entries : HObject) :
    Firsts.Ascending (fun e : String × HValue => Enc.text e.1)
      (keysInOrder (entries.map normalEntry)) := by
  rw [keys_in_order_kept settled]
  exact Firsts.kept_ascending _

theorem keys_in_order_subset (entries : HObject) :
    keysInOrder (entries.map normalEntry) ⊆ entries.map normalEntry := by
  rw [keys_in_order_kept settled]
  exact Firsts.kept_subset _

/-- Entries whose values are written as their normal forms are come out in the order
of the normal form. -/
theorem rows_keys_in_order {entries : HObject}
    (same : ∀ e ∈ entries, writeValue e.2.normal = writeValue e.2) :
    Firsts.kept Prod.fst (entries.map writeEntry) =
      (keysInOrder (entries.map normalEntry)).map writeEntry := by
  have rows : (entries.map normalEntry).map writeEntry = entries.map writeEntry := by
    rw [List.map_map]
    apply List.map_congr_left
    intro e mem
    rw [Function.comp_apply, writeEntry, normalEntry, writeEntry, text_normalise settled,
      same e mem]
  rw [← rows, Firsts.kept_map, keys_in_order_kept settled]
  rfl

/-- What is written of a value is what is written of its normal form. -/
theorem write_normal (v : HValue) : writeValue v.normal = writeValue v := by
  induction v using HValue.induct with
  | null => rfl
  | bool b => rfl
  | int i => rfl
  | float f =>
    rw [HValue.normal, writeValue, writeValue,
      F32.to_f64_to_f32 (F32.finite_of_quantised (F32.quantise_is_quantised _)), Enc.f32q,
      Enc.f32q, F32.quantise_quantise]
  | str s => rw [HValue.normal, writeValue, writeValue, text_normalise settled]
  | array items ih =>
    have same : items.map (writeValue ∘ HValue.normal) = items.map writeValue :=
      List.map_congr_left ih
    rw [HValue.normal, writeValue, writeValue, write_items, write_items, normal_items,
      List.map_map, same]
  | object entries ih =>
    rw [HValue.normal, writeValue, writeValue, write_entries, write_entries, normal_entries,
      Enc.rows, Enc.rows, rows_keys_in_order settled ih]
    have again : Firsts.kept Prod.fst ((keysInOrder (entries.map normalEntry)).map writeEntry) =
        (keysInOrder (entries.map normalEntry)).map writeEntry := by
      rw [Firsts.kept_map]
      congr 1
      exact Firsts.kept_of_ascending (keys_in_order_ascending settled entries)
    rw [again]

/-- What is written of an object: the entries of its normal form, one after the other. -/
theorem write_object (o : HObject) : writeObject o = Enc.head 5 (normalObject o).length ++
    (normalObject o).flatMap rowOf := by
  rw [writeObject, normalObject, write_entries, normal_entries, Enc.rows,
    rows_keys_in_order settled fun e _ => write_normal settled e.2, List.length_map,
    List.flatMap_map]
  rfl

theorem write_normal_object (o : HObject) : writeObject (normalObject o) = writeObject o := by
  have written := write_normal settled (.object o)
  rwa [HValue.normal, writeValue, writeValue] at written

end

end
end Smysl
