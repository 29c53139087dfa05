import Smysl.Cbor.Keyed
import Smysl.Ingest.Journal

/-!
What is read back of a journal. An entry is read back from its encoding; whole frames are read
back in order, and a torn tail is not mistaken for one.
-/
namespace Smysl
open ByteString Cursor Cursor.Parser Dec

namespace Journal
section
variable [Unicode]

/-! Fields are read. -/

/-- A map whose entries each have an arm is read entry by entry. -/
theorem fields_read {σ : Type} (arms : Arms σ) (rows : List (Nat × Bytes × (σ → σ)))
    (each : ∀ r ∈ rows, r.1 < 2 ^ 16 ∧ ∃ arm, arms r.1 = some arm ∧ Reads arm r.2.1 r.2.2)
    (ascending : rows.Pairwise (fun r s => r.1 < s.1)) (count : rows.length < 2 ^ 64) (init : σ) :
    Reads (readFields arms init) (Enc.mapOf (rows.map (fun r => (r.1, r.2.1))))
      (rows.foldl (fun s r => r.2.2 s) init) := keyed_reads arms rows each ascending count init

omit [Unicode] in
theorem low32_reads (v : UInt32) : Reads low32 (Enc.uint v.toNat) v := by
  have small := v.toNat_lt
  have value : (UInt64.ofNat v.toNat).toNat = v.toNat := by
    rw [UInt64.toNat_ofNat']
    omega
  have read := uint_reads (UInt64.ofNat v.toNat)
  rw [value] at read
  have back : (UInt64.ofNat v.toNat).toUInt32 = v := by
    apply UInt32.toNat_inj.mp
    rw [UInt64.toNat_toUInt32, value]
    omega
  have taken : Reads low32 (Enc.uint v.toNat) (UInt64.ofNat v.toNat).toUInt32 :=
    Reads.bind_end read (Reads.pure _)
  rwa [back] at taken

def keyAcc (k : JournalKey) : KeyAcc := ⟨k.aliasName, some k.tid, k.owned, k.recipe⟩

theorem key_fields_read {k : JournalKey} (nfc : Nfc k.aliasName) :
    Reads (readFields keyArms {}) (encodeKey k) (keyAcc k) := by
  have whole := fields_read keyArms [
    (9, Enc.text k.aliasName, fun a => { a with aliasName := k.aliasName }),
    (10, Enc.digest k.tid, fun a => { a with tid := some k.tid }),
    (11, Enc.uint k.owned.1.toNat, fun a => { a with owned := (k.owned.1, a.owned.2) }),
    (12, Enc.uint k.owned.2.toNat, fun a => { a with owned := (a.owned.1, k.owned.2) }),
    (13, Enc.bytes k.recipe.bytes, fun a => { a with recipe := k.recipe })]
    (by
      simp only [List.forall_mem_cons, List.not_mem_nil]
      refine ⟨⟨by norm_num, of_field (text_reads_all nfc) _⟩,
        ⟨by norm_num, of_field (digest_reads k.tid) _⟩,
        ⟨by norm_num, of_field (uint_reads k.owned.1) _⟩,
        ⟨by norm_num, of_field (uint_reads k.owned.2) _⟩,
        ⟨by norm_num, of_field (bytes32_reads k.recipe) _⟩, fun _ absurd => absurd.elim⟩)
    (by simp) (by simp) {}
  exact whole

/-- The key's map is one item. -/
theorem key_item_reads {k : JournalKey} (nfc : Nfc k.aliasName) :
    Reads skipItem (encodeKey k) (encodeKey k) := by
  have item := map_skips 127 [
    (9, Enc.text k.aliasName), (10, Enc.digest k.tid), (11, Enc.uint k.owned.1.toNat),
    (12, Enc.uint k.owned.2.toNat), (13, Enc.bytes k.recipe.bytes)]
    (by simp) (by simp) (by simp only [List.pairwise_cons, List.forall_mem_cons]; decide) (by
      simp only [List.forall_mem_cons, List.not_mem_nil]
      exact ⟨text_skips nfc _, bytes_skips k.tid.asBytes _, uint_skips k.owned.1 _,
        uint_skips k.owned.2 _, bytes_skips k.recipe.bytes _, fun _ absurd => absurd.elim⟩)
  exact Reads.bind_end (Reads.spanned item) (Reads.pure _)

theorem key_reads {k : JournalKey} (nfc : Nfc k.aliasName) :
    Reads readKey (encodeKey k) (keyAcc k) := by
  refine Reads.of_fits fun fits => Reads.position_bind fun start =>
    Reads.bind_end (key_item_reads nfc) (Reads.orFail ?_)
  have inner := key_fields_read nfc 0 [] (by omega)
  rw [List.append_nil] at inner
  rw [inner]

/-- The texts of an entry that are written as they are. -/
def Written (e : JournalEntry) : Prop := Nfc e.key.aliasName ∧ Nfc e.lang

def entryAcc (e : JournalEntry) : EntryAcc :=
  ⟨keyAcc e.key, e.batch, e.digest, e.inputTokens, e.outputTokens, e.verdicts, e.lang, e.calls,
    e.retries, e.pivots⟩

theorem entry_fields_read {e : JournalEntry} (nfc : Written e) :
    Reads (readFields entryArms {}) (encode e) (entryAcc e) := by
  have whole := fields_read entryArms [
    (1, encodeKey e.key, fun a => { a with key := keyAcc e.key }),
    (2, Enc.bytes e.batch.bytes, fun a => { a with batch := e.batch }),
    (3, Enc.bytes e.digest.bytes, fun a => { a with digest := e.digest }),
    (4, Enc.uint e.inputTokens.toNat, fun a => { a with inputTokens := e.inputTokens }),
    (5, Enc.uint e.outputTokens.toNat, fun a => { a with outputTokens := e.outputTokens }),
    (6, Enc.uint e.verdicts.present.toNat,
      fun a => { a with verdicts := { a.verdicts with present := e.verdicts.present } }),
    (7, Enc.uint e.verdicts.loose.toNat,
      fun a => { a with verdicts := { a.verdicts with loose := e.verdicts.loose } }),
    (8, Enc.uint e.verdicts.absent.toNat,
      fun a => { a with verdicts := { a.verdicts with absent := e.verdicts.absent } }),
    (14, Enc.text e.lang, fun a => { a with lang := e.lang }),
    (15, Enc.uint e.calls.toNat, fun a => { a with calls := e.calls }),
    (16, Enc.uint e.retries.toNat, fun a => { a with retries := e.retries }),
    (17, Enc.uint e.pivots.toNat, fun a => { a with pivots := e.pivots })]
    (by
      simp only [List.forall_mem_cons, List.not_mem_nil]
      refine ⟨⟨by norm_num, of_field (key_reads nfc.1) _⟩,
        ⟨by norm_num, of_field (bytes32_reads e.batch) _⟩,
        ⟨by norm_num, of_field (bytes32_reads e.digest) _⟩,
        ⟨by norm_num, of_field (uint_reads e.inputTokens) _⟩,
        ⟨by norm_num, of_field (uint_reads e.outputTokens) _⟩,
        ⟨by norm_num, of_field (low32_reads e.verdicts.present) _⟩,
        ⟨by norm_num, of_field (low32_reads e.verdicts.loose) _⟩,
        ⟨by norm_num, of_field (low32_reads e.verdicts.absent) _⟩,
        ⟨by norm_num, of_field (text_reads_all nfc.2) _⟩,
        ⟨by norm_num, of_field (low32_reads e.calls) _⟩,
        ⟨by norm_num, of_field (low32_reads e.retries) _⟩,
        ⟨by norm_num, of_field (low32_reads e.pivots) _⟩, fun _ absurd => absurd.elim⟩)
    (by simp) (by simp) {}
  exact whole

theorem decode_encode {e : JournalEntry} (nfc : Written e)
    (short : (encode e).length < Frames.most) : decode (encode e) = some e := by
  have whole := entry_fields_read nfc 0 [] (by
    rw [Cursor.limit]
    rw [Frames.most] at short
    omega)
  rw [List.append_nil] at whole
  rw [decode, whole]
  rfl

end
end Journal
end Smysl
