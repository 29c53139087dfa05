import Smysl.Cbor.Reader

/-!
What the decoder's primitives do: each is steady, each consumes exactly what
the encoder writes for the value it returns, and each reads back what the
encoder wrote.
-/
namespace Smysl
open ByteString Cursor Cursor.Parser

namespace Dec

instance : Steady peek where
  ok {d d' a} run := by
    obtain ⟨pos, rest⟩ := d
    cases rest with
    | nil => cases run
    | cons b bs =>
      cases run
      exact ⟨⟨[], rfl, rfl⟩, fun _ => rfl⟩
  err {d e} run long := by
    obtain ⟨pos, rest⟩ := d
    cases rest with
    | nil =>
      cases run
      exact absurd ⟨pos, rfl⟩ long
    | cons b bs => cases run

instance : Steady byte where
  ok {d d' a} run := by
    obtain ⟨pos, rest⟩ := d
    cases rest with
    | nil => cases run
    | cons b bs =>
      cases run
      exact ⟨⟨[_], rfl, rfl⟩, fun _ => rfl⟩
  err {d e} run long := by
    obtain ⟨pos, rest⟩ := d
    cases rest with
    | nil =>
      cases run
      exact absurd ⟨pos, rfl⟩ long
    | cons b bs => cases run

theorem take_ok {n : Nat} {d d' : Cursor.Dec} {a : Bytes} (run : take n d = .ok (a, d')) :
    d.pos + n < limit ∧ n ≤ d.rest.length ∧ a = d.rest.take n ∧ d' = d.advance n := by
  rw [take] at run
  split at run
  · cases run
  · split at run
    · cases run
    · cases run
      exact ⟨by omega, by omega, rfl, rfl⟩

theorem take_of_length {n : Nat} {d : Cursor.Dec} (fits : d.pos + n < limit)
    (enough : n ≤ d.rest.length) : take n d = .ok (d.rest.take n, d.advance n) := by
  rw [take, if_neg (by omega), if_neg (by omega)]

instance (n : Nat) : Steady (take n) where
  ok {d d' a} run := by
    obtain ⟨fits, enough, rfl, rfl⟩ := take_ok run
    have width : (d.rest.take n).length = n := by simp [enough]
    refine ⟨⟨d.rest.take n, by simp [Cursor.Dec.advance], by simp [Cursor.Dec.advance, width]⟩,
      fun more => ?_⟩
    rw [take_of_length (by simpa using fits) (by simp; omega)]
    simp [Cursor.Dec.advance, Cursor.Dec.extend, List.take_append_of_le_length enough,
      List.drop_append_of_le_length enough]
  err {d e} run long more := by
    rw [take] at run ⊢
    by_cases beyond : limit ≤ d.pos + n
    · rw [if_pos beyond] at run
      rw [if_pos (by simpa using beyond)]
      exact run
    · rw [if_neg beyond] at run
      split at run
      · cases run
        exact absurd ⟨d.pos, rfl⟩ long
      · cases run

instance (start width least : Nat) : Steady (argument start width least) := by
  unfold argument
  infer_instance

instance : Steady head := by
  unfold head
  infer_instance

instance (want : Nat) : Steady (expect want) := by
  unfold expect
  infer_instance

instance : Steady uint := by
  unfold uint
  infer_instance

instance : Steady int := by
  unfold int
  infer_instance

instance : Steady bytes := by
  unfold bytes
  infer_instance

instance [Unicode] (start n : Nat) : Steady (textOf start n) := by
  unfold textOf
  infer_instance

instance [Unicode] : Steady text := by
  unfold text
  infer_instance

instance : Steady f32q := by
  unfold f32q
  infer_instance

instance : Steady uid := by
  unfold uid
  infer_instance

instance : Steady arrayHead := inferInstanceAs (Steady (expect 4))

instance : Steady uidSet := by
  unfold uidSet
  infer_instance

instance {α : Type} (f : Parser α) [Steady f] : Steady (sortedArray f) := by
  unfold sortedArray
  infer_instance

instance {α : Type} (f : Parser α) [Steady f] : Steady (array f) := by
  unfold array
  infer_instance

instance : Steady mapHead := inferInstanceAs (Steady (expect 5))

instance (prev : Option Nat) : Steady (mapKey prev) := by
  unfold mapKey
  infer_instance

instance : Steady rejectNull := by
  unfold rejectNull
  infer_instance

instance (start : Nat) (b : UInt8) : Steady (skipSimple start b) := by
  unfold skipSimple
  infer_instance

instance (inner : Parser Unit) [Steady inner] (n : Nat) : Steady (skipEntries inner n) := by
  unfold skipEntries
  infer_instance

instance [Unicode] (inner : Parser Unit) [Steady inner] : Steady (skipHeaded inner) := by
  unfold skipHeaded
  infer_instance

instance [Unicode] (levels : Nat) : Steady (skipOne levels) := by
  induction levels with
  | zero =>
    unfold skipOne
    infer_instance
  | succ levels ih =>
    unfold skipOne
    infer_instance

instance [Unicode] : Steady skipItem := by
  unfold skipItem
  infer_instance

/-! What a successful read has consumed. -/

theorem byte_yields : Yields byte (fun b raw => raw = [b]) := by
  intro d d' b run
  obtain ⟨pos, rest⟩ := d
  cases rest with
  | nil => cases run
  | cons c cs =>
    cases run
    exact ⟨[_], rfl, rfl⟩

theorem peek_ok {d d' : Cursor.Dec} {b : UInt8} (run : peek d = .ok (b, d')) :
    d' = d ∧ d.rest.head? = some b := by
  obtain ⟨pos, rest⟩ := d
  cases rest with
  | nil => cases run
  | cons c cs =>
    cases run
    exact ⟨rfl, rfl⟩

theorem peek_yields : Yields peek (fun _ raw => raw = []) := by
  intro d d' b run
  obtain ⟨rfl, _⟩ := peek_ok run
  exact ⟨[], rfl, rfl⟩

theorem take_yields (n : Nat) : Yields (take n) (fun a raw => raw = a ∧ a.length = n) := by
  intro d d' a run
  obtain ⟨_, enough, rfl, rfl⟩ := take_ok run
  exact ⟨d.rest.take n, by simp [Cursor.Dec.advance], rfl, by simp [enough]⟩

theorem argument_yields (start width least : Nat) : Yields (argument start width least)
    (fun v raw => raw = bigEndian width v ∧ least ≤ v ∧ v < 256 ^ width) := by
  refine Yields.bind (take_yields width) ?_
  rintro s _ ⟨rfl, rfl⟩
  dsimp only
  split
  · exact Yields.fail _
  · rename_i large
    refine Yields.pure ⟨?_, by omega, from_big_endian_lt _⟩
    rw [List.append_nil, big_endian_of_bytes]

/-- A head byte is its major type and its additional information. -/
theorem byte_split (b : UInt8) (major info : Nat) (top : b.toNat / 32 = major)
    (low : b.toNat % 32 = info) : UInt8.ofNat (major * 32 + info) = b := by
  have whole : major * 32 + info = b.toNat := by omega
  rw [whole, UInt8.ofNat_toNat]

theorem head_yields : Yields head
    (fun h raw => raw = Enc.head h.1 h.2 ∧ h.1 < 8 ∧ h.2 < 2 ^ 64) := by
  refine Yields.position_bind fun start => Yields.bind byte_yields ?_
  rintro b _ rfl
  have small : b.toNat < 256 := b.toNat_lt
  have major : b.toNat / 32 < 8 := by omega
  have longer : ∀ info width least, b.toNat % 32 = info → 256 ^ width ≤ 2 ^ 64 →
      (∀ v, least ≤ v → v < 256 ^ width → Enc.head (b.toNat / 32) v =
        UInt8.ofNat (b.toNat / 32 * 32 + info) :: bigEndian width v) →
      Yields (do
        let v ← argument start width least
        pure (b.toNat / 32, v))
        (fun h raw => [b] ++ raw = Enc.head h.1 h.2 ∧ h.1 < 8 ∧ h.2 < 2 ^ 64) := by
    intro info width least low narrow shape
    refine Yields.bind (argument_yields start width least) ?_
    rintro v _ ⟨rfl, large, bound⟩
    refine Yields.pure ⟨?_, major, by omega⟩
    rw [shape v large bound, byte_split b _ _ rfl low, List.append_nil]
    rfl
  dsimp only
  split
  · exact Yields.fail _
  split
  · rename_i short
    refine Yields.pure ⟨?_, major, by omega⟩
    rw [Enc.head, if_pos short, byte_split b _ _ rfl rfl]
    rfl
  split
  · rename_i low
    refine longer 24 1 24 low (by norm_num) fun v large bound => ?_
    rw [Enc.head, if_neg (by omega), if_pos (by omega)]
  split
  · rename_i low
    refine longer 25 2 0x100 low (by norm_num) fun v large bound => ?_
    rw [Enc.head, if_neg (by omega), if_neg (by omega), if_pos (by omega)]
  split
  · rename_i low
    refine longer 26 4 0x10000 low (by norm_num) fun v large bound => ?_
    rw [Enc.head, if_neg (by omega), if_neg (by omega), if_neg (by omega), if_pos (by omega)]
  split
  · rename_i low
    refine longer 27 8 0x100000000 low (by norm_num) fun v large bound => ?_
    rw [Enc.head, if_neg (by omega), if_neg (by omega), if_neg (by omega), if_neg (by omega)]
  · exact Yields.fail _

theorem expect_yields (want : Nat) : Yields (expect want)
    (fun n raw => raw = Enc.head want n ∧ n < 2 ^ 64) := by
  refine Yields.position_bind fun start => Yields.bind head_yields ?_
  rintro ⟨m, arg⟩ _ ⟨rfl, _, bound⟩
  dsimp only
  split
  · exact Yields.fail _
  · rename_i same
    rw [not_not] at same
    subst same
    exact Yields.pure ⟨List.append_nil _, bound⟩

theorem uint_yields : Yields uint (fun v raw => raw = Enc.uint v.toNat) := by
  refine Yields.bind (expect_yields 0) ?_
  rintro n _ ⟨rfl, bound⟩
  refine Yields.pure ?_
  rw [UInt64.toNat_ofNat', Nat.mod_eq_of_lt bound, List.append_nil]
  rfl

theorem try_u8_iff (v : UInt64) (c : UInt8) : tryU8 v = some c ↔ c.toNat = v.toNat := by
  rw [tryU8]
  have small : c.toNat < 256 := c.toNat_lt
  split
  · rename_i fits
    rw [Option.some.injEq, ← UInt8.toNat_inj, UInt64.toNat_toUInt8, Nat.mod_eq_of_lt fits, eq_comm]
  · rename_i large
    simp only [reduceCtorEq, false_iff]
    omega

theorem try_u32_iff (v : UInt64) (c : UInt32) : tryU32 v = some c ↔ c.toNat = v.toNat := by
  rw [tryU32]
  have small : c.toNat < 2 ^ 32 := c.toNat_lt
  split
  · rename_i fits
    rw [Option.some.injEq, ← UInt32.toNat_inj, UInt64.toNat_toUInt32, Nat.mod_eq_of_lt fits,
      eq_comm]
  · rename_i large
    simp only [reduceCtorEq, false_iff]
    omega

theorem int_yields : Yields int (fun v raw => raw = Enc.int v) := by
  refine Yields.position_bind fun start => Yields.bind head_yields ?_
  rintro ⟨m, arg⟩ _ ⟨rfl, _, bound⟩
  dsimp only
  split
  · rename_i positive
    subst positive
    split
    · rename_i fits
      refine Yields.pure ?_
      have value : (Int64.ofNat arg).toInt = arg := Int64.toInt_ofNat_of_lt (by simpa using fits)
      rw [Enc.int, value, if_pos (by omega), Int.toNat_natCast, List.append_nil]
    · exact Yields.fail _
  split
  · rename_i negative
    subst negative
    split
    · rename_i fits
      refine Yields.pure ?_
      have value : (Int64.ofInt (-(arg : Int) - 1)).toInt = -(arg : Int) - 1 := by
        apply Int64.toInt_ofInt_of_le
        · norm_num
          omega
        · omega
      have back : (- (-(arg : Int) - 1) - 1).toNat = arg := by omega
      rw [Enc.int, value, if_neg (by omega), back, List.append_nil]
    · exact Yields.fail _
  · exact Yields.fail _

theorem bytes_yields : Yields bytes (fun b raw => raw = Enc.bytes b) := by
  refine Yields.bind (expect_yields 2) ?_
  rintro n _ ⟨rfl, _⟩
  refine (take_yields n).mono ?_
  rintro b _ ⟨rfl, rfl⟩
  rfl

theorem text_of_yields [Unicode] (start n : Nat) : Yields (textOf start n)
    (fun s raw => raw = utf8 s ∧ raw.length = n ∧ Unicode.isNfc s = true) := by
  refine Yields.bind (take_yields n) ?_
  rintro b _ ⟨rfl, rfl⟩
  refine Yields.orFail_bind fun s found => ?_
  rw [from_utf8_iff] at found
  split
  · rename_i nfc
    refine Yields.pure ?_
    rw [List.append_nil]
    exact ⟨found.symm, rfl, nfc⟩
  · exact Yields.fail _

theorem text_yields [Unicode] : Yields text
    (fun s raw => raw = Enc.text s ∧ Unicode.isNfc s = true) := by
  refine Yields.position_bind fun start => Yields.bind (expect_yields 3) ?_
  rintro n _ ⟨rfl, _⟩
  refine (text_of_yields start n).mono ?_
  rintro s _ ⟨rfl, rfl, nfc⟩
  rw [Enc.text, normalise_of_nfc nfc]
  exact ⟨rfl, nfc⟩

theorem f32q_yields : Yields f32q (fun v raw => raw = Enc.f32q v) := by
  refine Yields.position_bind fun start => Yields.bind byte_yields ?_
  rintro b _ rfl
  split
  · exact Yields.fail _
  · rename_i float
    rw [not_not] at float
    subst float
    refine Yields.bind (take_yields 4) ?_
    rintro s _ ⟨rfl, four⟩
    split
    · rename_i quantised
      refine Yields.pure ?_
      rw [Enc.f32q, F32.quantise_of_quantised quantised, F32.to_be_bytes_from_be_bytes _ four,
        List.append_nil]
      rfl
    · exact Yields.fail _

theorem uid_yields : Yields uid (fun u raw => raw = Enc.digest u) := by
  refine Yields.position_bind fun start => Yields.bind bytes_yields ?_
  rintro b _ rfl
  refine Yields.orFail_bind fun raw found => Yields.pure ?_
  rw [List.append_nil, Enc.digest, Digest.asBytes, (Bytes32.try_from_iff b raw).mp found]

theorem reject_null_yields : Yields rejectNull (fun _ raw => raw = []) := by
  refine Yields.position_bind fun start => Yields.bind peek_yields ?_
  rintro b _ rfl
  split
  · exact Yields.fail _
  · exact Yields.pure rfl

/-- A peeked byte is the first one consumed, where any is. -/
theorem peek_bind_yields {α : Type} {f : UInt8 → Parser α} {post : α → Bytes → Prop}
    (second : ∀ b, Yields (f b) (fun a raw => raw ≠ [] ∧ (raw.head? = some b → post a raw))) :
    Yields (peek >>= f) post := by
  intro d d' a run
  obtain ⟨b, d₁, peeked, run⟩ := bind_ok run
  obtain ⟨pos, rest⟩ := d
  cases rest with
  | nil => cases peeked
  | cons c cs =>
    cases peeked
    obtain ⟨raw, eq, consumed, holds⟩ := second _ run
    refine ⟨raw, eq, holds ?_⟩
    cases raw with
    | nil => exact absurd rfl consumed
    | cons r rs =>
      cases eq
      rfl

theorem head_bytes_nonempty (major arg : Nat) (tail : Bytes) : Enc.head major arg ++ tail ≠ [] := by
  rw [Enc.head]
  split_ifs <;> simp

/-- The first byte of a head carries its major type. -/
theorem head_first (major arg : Nat) (tail : Bytes) (small : major < 8) :
    ∃ b, (Enc.head major arg ++ tail).head? = some b ∧ b.toNat / 32 = major := by
  have top : ∀ info, info < 32 → (UInt8.ofNat (major * 32 + info)).toNat / 32 = major := by
    intro info low
    rw [UInt8.toNat_ofNat']
    omega
  rw [Enc.head]
  split_ifs with h
  · exact ⟨_, rfl, top arg (by omega)⟩
  · exact ⟨_, rfl, top 24 (by norm_num)⟩
  · exact ⟨_, rfl, top 25 (by norm_num)⟩
  · exact ⟨_, rfl, top 26 (by norm_num)⟩
  · exact ⟨_, rfl, top 27 (by norm_num)⟩

/-! What is read back from the encoder's bytes. -/

theorem byte_reads (b : UInt8) : Reads byte [b] b := fun _ _ _ => rfl

theorem take_reads (raw : Bytes) : Reads (take raw.length) raw raw := by
  intro pos more fits
  rw [take_of_length (by exact fits) (by simp)]
  simp [Cursor.Dec.advance]

theorem argument_reads {start width least v : Nat} (large : least ≤ v) (small : v < 256 ^ width) :
    Reads (argument start width least) (bigEndian width v) v := by
  have value : fromBigEndian (bigEndian width v) = v := by
    rw [from_big_endian_of_number, Nat.mod_eq_of_lt small]
  have first := take_reads (bigEndian width v)
  rw [big_endian_length] at first
  refine Reads.bind_end first ?_
  simp only [value]
  rw [if_neg (by omega)]
  exact Reads.pure v

theorem head_reads {major arg : Nat} (majorSmall : major < 8) (argSmall : arg < 2 ^ 64) :
    Reads head (Enc.head major arg) (major, arg) := by
  have split : ∀ info, info < 32 → (UInt8.ofNat (major * 32 + info)).toNat / 32 = major ∧
      (UInt8.ofNat (major * 32 + info)).toNat % 32 = info := by
    intro info small
    rw [UInt8.toNat_ofNat']
    omega
  have longer : ∀ start info width least, least ≤ arg → arg < 256 ^ width →
      Reads (do
        let v ← argument start width least
        pure ((UInt8.ofNat (major * 32 + info)).toNat / 32, v))
        (bigEndian width arg) ((UInt8.ofNat (major * 32 + info)).toNat / 32, arg) := by
    intro start info width least large small
    exact Reads.bind_end (argument_reads large small) (Reads.pure _)
  refine Reads.position_bind fun start => ?_
  rw [Enc.head]
  split
  · rename_i short
    obtain ⟨top, low⟩ := split arg (by omega)
    refine Reads.bind_end (byte_reads _) ?_
    simp only [top, low]
    rw [if_neg (by omega), if_pos short]
    exact Reads.pure _
  split
  · obtain ⟨top, low⟩ := split 24 (by omega)
    refine Reads.cons_bind (byte_reads _) ?_
    have value := longer start 24 1 24 (by omega) (by omega)
    simp only [top, low] at value ⊢
    exact value
  split
  · obtain ⟨top, low⟩ := split 25 (by omega)
    refine Reads.cons_bind (byte_reads _) ?_
    have value := longer start 25 2 0x100 (by omega) (by omega)
    simp only [top, low] at value ⊢
    exact value
  split
  · obtain ⟨top, low⟩ := split 26 (by omega)
    refine Reads.cons_bind (byte_reads _) ?_
    have value := longer start 26 4 0x10000 (by omega) (by omega)
    simp only [top, low] at value ⊢
    exact value
  · obtain ⟨top, low⟩ := split 27 (by omega)
    refine Reads.cons_bind (byte_reads _) ?_
    have value := longer start 27 8 0x100000000 (by omega) (by omega)
    simp only [top, low] at value ⊢
    exact value

/-- A head ends where it says: two of them that start one string are the same. -/
theorem head_apart {major major' arg arg' : Nat} {x y : Bytes} (majorSmall : major < 8)
    (majorSmall' : major' < 8) (argSmall : arg < 2 ^ 64) (argSmall' : arg' < 2 ^ 64)
    (same : Enc.head major arg ++ x = Enc.head major' arg' ++ y) :
    major = major' ∧ arg = arg' ∧ x = y := by
  have width : ∀ m a, (Enc.head m a).length < limit := by
    intro m a
    simp only [Enc.head, limit]
    split_ifs <;> simp
  have one := head_reads majorSmall argSmall 0 x (by simpa using width major arg)
  have two := head_reads majorSmall' argSmall' 0 y (by simpa using width major' arg')
  rw [same, two] at one
  simp only [Except.ok.injEq, Prod.mk.injEq, Cursor.Dec.mk.injEq] at one
  exact ⟨one.1.1.symm, one.1.2.symm, one.2.2.symm⟩

theorem expect_reads {want arg : Nat} (majorSmall : want < 8) (argSmall : arg < 2 ^ 64) :
    Reads (expect want) (Enc.head want arg) arg := by
  refine Reads.position_bind fun start =>
    Reads.bind_end (head_reads majorSmall argSmall) ?_
  rw [if_neg (by simp)]
  exact Reads.pure arg

theorem uint_reads (v : UInt64) : Reads uint (Enc.uint v.toNat) v := by
  have value : UInt64.ofNat v.toNat = v := UInt64.ofNat_toNat
  have read : Reads uint (Enc.uint v.toNat) (UInt64.ofNat v.toNat) :=
    Reads.bind_end (expect_reads (by norm_num) v.toNat_lt) (Reads.pure _)
  rwa [value] at read

theorem int_reads (v : Int64) : Reads int (Enc.int v) v := by
  have low := Int64.le_toInt v
  have high := Int64.toInt_lt v
  refine Reads.position_bind fun start => ?_
  rw [Enc.int]
  split
  · rename_i positive
    refine Reads.bind_end (head_reads (by norm_num) (by omega)) ?_
    have value : Int64.ofNat v.toInt.toNat = v := by
      apply Int64.toInt_inj.mp
      rw [Int64.toInt_ofNat_of_lt (by omega), Int.toNat_of_nonneg positive]
    dsimp only
    rw [if_pos rfl, if_pos (by omega), value]
    exact Reads.pure v
  · rename_i negative
    refine Reads.bind_end (head_reads (by norm_num) (by omega)) ?_
    have value : Int64.ofInt (-((-v.toInt - 1).toNat : Int) - 1) = v := by
      rw [Int.toNat_of_nonneg (by omega)]
      have back : -(-v.toInt - 1) - 1 = v.toInt := by omega
      rw [back, Int64.ofInt_toInt]
    dsimp only
    rw [if_neg (by norm_num), if_pos rfl, if_pos (by omega), value]
    exact Reads.pure v

theorem bytes_reads (b : Bytes) (short : b.length < 2 ^ 64) : Reads bytes (Enc.bytes b) b :=
  Reads.bind (expect_reads (by norm_num) short) (take_reads b)

theorem text_reads [Unicode] {s : String} (nfc : Unicode.isNfc s = true)
    (short : (utf8 s).length < 2 ^ 64) : Reads text (Enc.text s) s := by
  rw [Enc.text, normalise_of_nfc nfc]
  refine Reads.position_bind fun start => Reads.bind (expect_reads (by norm_num) short) ?_
  refine Reads.bind_end (take_reads (utf8 s)) ?_
  refine Reads.orFail_bind ((from_utf8_iff _ s).mpr rfl) ?_
  rw [if_pos nfc]
  exact Reads.pure s

theorem f32q_reads {v : F32} (quantised : v.isQuantised = true) :
    Reads f32q (Enc.f32q v) v := by
  have value := F32.from_be_bytes_to_be_bytes v
  have four : v.toBeBytes.length = 4 := big_endian_length 4 _
  rw [Enc.f32q, F32.quantise_of_quantised quantised]
  refine Reads.position_bind fun start => Reads.cons_bind (byte_reads _) ?_
  rw [if_neg (by simp)]
  refine Reads.bind_end (four ▸ take_reads v.toBeBytes) ?_
  rw [value, if_pos quantised]
  exact Reads.pure v

theorem uid_reads (u : Uid) : Reads uid (Enc.digest u) u := by
  have width : u.raw.bytes.length < 2 ^ 64 := by
    rw [u.raw.width]
    norm_num
  refine Reads.position_bind fun start =>
    Reads.bind_end (bytes_reads u.raw.bytes width) ?_
  refine Reads.orFail_bind ((Bytes32.try_from_iff _ u.raw).mpr rfl) ?_
  exact Reads.pure u

end Dec
end Smysl
