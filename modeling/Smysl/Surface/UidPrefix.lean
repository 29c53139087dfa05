import Smysl.Lib.Bits
import Smysl.Surface.Names

/-!
Identities as text: the base32 forms of a digest, and the prefixes that abbreviate a uid. A
prefix is matched against a uid or turned into a range of uids; the two agree, and both say
that the uid begins with the bits that the characters of the prefix spell.
-/
namespace Smysl
open ByteString

inductive IntegrityError
  | truncatedUid (found : String)
  deriving DecidableEq

namespace Bytes32

def setBit (b : Bytes32) (n : Nat) : Bytes32 :=
  ⟨ByteString.setBit b.bytes n, (set_bit_length _ _).trans b.width⟩

def bit (b : Bytes32) (n : Nat) : Bool := bitAt b.bytes n

/-- `[0u8; 32]`. -/
def zero : Bytes32 := ⟨List.replicate 32 0, width_zero⟩

theorem ext_bit {a b : Bytes32} (same : ∀ n < 256, a.bit n = b.bit n) : a = b :=
  ext_bytes (ext_bits (a.width.trans b.width.symm) fun n inside =>
    same n (by rw [a.width] at inside; exact inside))

theorem bit_set_bit (b : Bytes32) {n : Nat} (inside : n < 256) (m : Nat) :
    (b.setBit n).bit m = (b.bit m || decide (m = n)) :=
  ByteString.bit_set_bit (by rw [b.width]; exact inside) m

end Bytes32

/-! Text. -/

/-- The loop over the 5 bits: it returns at the first bit past the end. -/
def putBits (off v : Nat) : List Nat → Bytes32 → Bytes32
  | [], bytes => bytes
  | k :: ks, bytes =>
    let bit := off + k
    if 256 ≤ bit then bytes
    else putBits off v ks (if v.testBit (4 - k) then bytes.setBit bit else bytes)

def putFiveBits (bytes : Bytes32) (off v : Nat) : Bytes32 := putBits off v (List.range 5) bytes

/-- The loop over the characters of a body, from the `i`th on. -/
def readBody (found : String) : Nat → Bytes → Bytes32 → Except IntegrityError Bytes32
  | _, [], bytes => .ok bytes
  | i, c :: cs, bytes =>
    match decodeChar c with
    | none => .error (.truncatedUid found)
    | some v => readBody found (i + 1) cs (putFiveBits bytes (i * 5) v)

def shortChars : Nat := 26
def fullChars : Nat := 52

namespace Digest
variable {kind : DigestKind}

def encode (d : Digest kind) (chars : Nat) : String :=
  asciiText (utf8 kind.lead ++
    (List.range chars).map (fun i => alphabet.getD (fiveBitsAt d.raw.bytes (i * 5)) 0x61))

def short (d : Digest kind) : String := d.encode shortChars

def canonical (d : Digest kind) : String := d.encode fullChars

/-- `$name::parse`, with its loop over the bits and its error. -/
def parseBits (kind : DigestKind) (s : String) : Except IntegrityError (Digest kind) :=
  match stripPrefix kind.lead (utf8 s) with
  | none => .error (.truncatedUid s)
  | some body =>
    if body.length ≠ fullChars then .error (.truncatedUid s)
    else (readBody s 0 body .zero).map Digest.mk

end Digest

/-- An abbreviated uid: its first bits. -/
structure UidPrefix where
  bits : Nat
  bytes : Bytes32
  within : bits ≤ 256
  deriving DecidableEq

namespace UidPrefix

def parse (s : String) : Except IntegrityError UidPrefix :=
  match stripPrefix DigestKind.unit.lead (utf8 s) with
  | none => .error (.truncatedUid s)
  | some body =>
    if ¬ (shortChars ≤ body.length ∧ body.length ≤ fullChars) then .error (.truncatedUid s)
    else (readBody s 0 body .zero).map fun bytes =>
      ⟨min (body.length * 5) 256, bytes, min_le_right _ _⟩

/-- `0xFFu8 << (8 - rest)`. -/
def mask (rest : Nat) : UInt8 := 0xFF <<< UInt8.ofNat (8 - rest)

/-- One end of the range: the whole bytes of the prefix, then `fill`, with `part` at the byte
that the prefix covers partly. -/
def endOf (p : UidPrefix) (fill part : UInt8) : Bytes32 where
  bytes :=
    let copied := p.bytes.bytes.take (p.bits / 8) ++ (List.replicate 32 fill).drop (p.bits / 8)
    if 0 < p.bits % 8 then copied.set (p.bits / 8) part else copied
  width := by
    have within := p.within
    have width := p.bytes.width
    split <;> simp <;> omega

/-- The lowest and the highest uid that the prefix matches. -/
def range (p : UidPrefix) : Uid × Uid :=
  let rest := p.bits % 8
  let byte := p.bytes.bytes.getD (p.bits / 8) 0
  (⟨p.endOf 0 (byte &&& mask rest)⟩, ⟨p.endOf 0xFF (byte &&& mask rest ||| ~~~mask rest)⟩)

end UidPrefix

def UidPrefix.matches (p : UidPrefix) (uid : Uid) : Bool :=
  let full := p.bits / 8
  let rest := p.bits % 8
  if uid.raw.bytes.take full ≠ p.bytes.bytes.take full then false
  else if rest = 0 then true
  else
    uid.raw.bytes.getD full 0 &&& mask rest == p.bytes.bytes.getD full 0 &&& mask rest

/-! The bits of a text. -/

theorem decode_alphabet {v : Nat} (inside : v < 32) :
    decodeChar (alphabet.getD v 0x61) = some v := by
  have table : ∀ v < 32, decodeChar (alphabet.getD v 0x61) = some v := by decide +kernel
  exact table v inside

theorem bit_put_bits (off v : Nat) {ks : List Nat} (ascending : ks.Pairwise (· < ·))
    (bytes : Bytes32) {m : Nat} (inside : m < 256) : (putBits off v ks bytes).bit m =
      (bytes.bit m || ks.any (fun k => decide (m = off + k) && v.testBit (4 - k))) := by
  induction ks generalizing bytes with
  | nil => rw [putBits, List.any_nil, Bool.or_false]
  | cons k ks ih =>
    obtain ⟨below, ascending⟩ := List.pairwise_cons.mp ascending
    rw [putBits]
    by_cases past : 256 ≤ off + k
    · -- the loop returns, and the bits it leaves out are past the end as well
      have none' : (k :: ks).any (fun k => decide (m = off + k) && v.testBit (4 - k)) = false := by
        refine List.any_eq_false.mpr fun j mem => ?_
        have later : k ≤ j := by
          rcases List.mem_cons.mp mem with rfl | mem
          · exact le_refl _
          · exact le_of_lt (below j mem)
        rw [decide_eq_false (by omega : ¬ m = off + j), Bool.false_and]
        exact Bool.false_ne_true
      rw [if_pos past, none', Bool.or_false]
    · rw [if_neg past, ih ascending, List.any_cons]
      cases v.testBit (4 - k) with
      | true =>
        rw [if_pos rfl, Bytes32.bit_set_bit _ (by omega), Bool.and_true, Bool.or_assoc]
      | false => rw [if_neg Bool.false_ne_true, Bool.and_false, Bool.false_or]

theorem bit_put_five (bytes : Bytes32) (off v : Nat) {m : Nat} (inside : m < 256) :
    (putFiveBits bytes off v).bit m = (bytes.bit m ||
      (decide (off ≤ m ∧ m < off + 5) && v.testBit (4 - (m - off)))) := by
  rw [putFiveBits, bit_put_bits off v List.pairwise_lt_range bytes inside]
  congr 1
  rw [Bool.eq_iff_iff, List.any_eq_true]
  simp only [Bool.and_eq_true, decide_eq_true_eq, List.mem_range]
  constructor
  · rintro ⟨k, low, rfl, set'⟩
    rw [Nat.add_sub_cancel_left]
    exact ⟨by omega, set'⟩
  · rintro ⟨⟨low, high⟩, set'⟩
    exact ⟨m - off, by omega, by omega, set'⟩

/-- The bit that the characters of a body spell at a place. -/
def spelledBit (body : Bytes) (n : Nat) : Bool :=
  ((decodeChar (body.getD (n / 5) 0)).getD 0).testBit (4 - n % 5)

theorem spelled_cons (c : UInt8) (cs : Bytes) (n : Nat) :
    spelledBit (c :: cs) (n + 5) = spelledBit cs n := by
  rw [spelledBit, spelledBit, Nat.add_div_right _ (by decide), Nat.add_mod_right,
    List.getD_cons_succ]

theorem spelled_first {c : UInt8} {v n : Nat} (cs : Bytes) (decoded : decodeChar c = some v)
    (first : n < 5) : spelledBit (c :: cs) n = v.testBit (4 - n) := by
  rw [spelledBit, Nat.div_eq_of_lt first, Nat.mod_eq_of_lt first, List.getD_cons_zero, decoded,
    Option.getD_some]

theorem read_body_bits {found : String} {i : Nat} {cs : Bytes} {bytes read : Bytes32}
    (done : readBody found i cs bytes = .ok read) {m : Nat} (inside : m < 256) :
    read.bit m = (bytes.bit m ||
      (decide (i * 5 ≤ m ∧ m < (i + cs.length) * 5) && spelledBit cs (m - i * 5))) := by
  induction cs generalizing i bytes with
  | nil =>
    cases done
    rw [decide_eq_false (by rw [List.length_nil]; omega), Bool.false_and, Bool.or_false]
  | cons c cs ih =>
    rw [readBody] at done
    split at done
    · cases done
    · rename_i v decoded
      rw [ih done, bit_put_five _ _ _ inside, Bool.or_assoc]
      congr 1
      by_cases here : i * 5 ≤ m ∧ m < i * 5 + 5
      · rw [decide_eq_true here, decide_eq_false (by omega),
          decide_eq_true (by rw [List.length_cons]; omega),
          spelled_first cs decoded (by omega), Bool.false_and, Bool.or_false]
      · rw [decide_eq_false here, Bool.false_and, Bool.false_or]
        by_cases later : (i + 1) * 5 ≤ m ∧ m < (i + 1 + cs.length) * 5
        · rw [decide_eq_true later, decide_eq_true (by rw [List.length_cons]; omega),
            show m - i * 5 = m - (i + 1) * 5 + 5 by omega, spelled_cons]
        · rw [decide_eq_false later, decide_eq_false (by rw [List.length_cons]; omega),
            Bool.false_and, Bool.false_and]

theorem read_body_zero {found : String} {body : Bytes} {read : Bytes32}
    (done : readBody found 0 body .zero = .ok read) {m : Nat} (inside : m < 256)
    (within : m < body.length * 5) : read.bit m = spelledBit body m := by
  rw [read_body_bits done inside, Bytes32.bit, Bytes32.zero, bit_zeros, Bool.false_or,
    decide_eq_true (by omega), Bool.true_and, Nat.zero_mul, Nat.sub_zero]

theorem read_body_done {found : String} {i : Nat} {cs : Bytes} {bytes : Bytes32}
    (known : ∀ c ∈ cs, ∃ v, decodeChar c = some v) :
    ∃ read, readBody found i cs bytes = .ok read := by
  induction cs generalizing i bytes with
  | nil => exact ⟨bytes, rfl⟩
  | cons c cs ih =>
    obtain ⟨v, decoded⟩ := known c List.mem_cons_self
    rw [readBody, decoded]
    exact ih fun c mem => known c (List.mem_cons_of_mem _ mem)

/-! The text of a digest. -/

/-- Five bits as a number. -/
theorem five_bits (b : Nat → Bool) :
    (List.range 5).foldl (fun v k => 2 * v + (b k).toNat) 0 < 32 ∧
    ∀ k < 5, ((List.range 5).foldl (fun v k => 2 * v + (b k).toNat) 0).testBit (4 - k) = b k := by
  have table : ∀ b0 b1 b2 b3 b4 : Bool,
      let v := 2 * (2 * (2 * (2 * (2 * 0 + b0.toNat) + b1.toNat) + b2.toNat) + b3.toNat) + b4.toNat
      v < 32 ∧ v.testBit 4 = b0 ∧ v.testBit 3 = b1 ∧ v.testBit 2 = b2 ∧ v.testBit 1 = b3 ∧
        v.testBit 0 = b4 := by
    decide
  obtain ⟨low, zero, one, two, three, four⟩ := table (b 0) (b 1) (b 2) (b 3) (b 4)
  refine ⟨low, fun k inside => ?_⟩
  match k, inside with
  | 0, _ => exact zero
  | 1, _ => exact one
  | 2, _ => exact two
  | 3, _ => exact three
  | 4, _ => exact four

theorem five_bits_lt (bytes : Bytes) (n : Nat) : fiveBitsAt bytes n < 32 :=
  (five_bits fun k => decide (n + k < 256) && bitAt bytes (n + k)).1

theorem test_five_bits (bytes : Bytes) (n : Nat) {k : Nat} (inside : k < 5) :
    (fiveBitsAt bytes n).testBit (4 - k) = (decide (n + k < 256) && bitAt bytes (n + k)) :=
  (five_bits fun k => decide (n + k < 256) && bitAt bytes (n + k)).2 k inside

/-- The characters of a digest spell its bits. -/
theorem spelled_digest (bytes : Bytes) {chars n : Nat} (inside : n < 256)
    (within : n < chars * 5) : spelledBit ((List.range chars).map fun i =>
      alphabet.getD (fiveBitsAt bytes (i * 5)) 0x61) n = bitAt bytes n := by
  rw [spelledBit, List.getD_eq_getElem?_getD, List.getElem?_map,
    List.getElem?_range (by omega), Option.map_some, Option.getD_some,
    decode_alphabet (five_bits_lt bytes _), Option.getD_some,
    test_five_bits bytes _ (Nat.mod_lt n (by decide)), Nat.div_add_mod', decide_eq_true inside,
    Bool.true_and]

namespace Digest
variable {kind : DigestKind}

theorem utf8_encode (d : Digest kind) (chars : Nat) : utf8 (d.encode chars) = utf8 kind.lead ++
    (List.range chars).map (fun i => alphabet.getD (fiveBitsAt d.raw.bytes (i * 5)) 0x61) := by
  have leads : ∀ b ∈ utf8 kind.lead, b.toNat < 128 := by
    cases kind <;> decide +kernel
  have letters : ∀ v < 32, (alphabet.getD v 0x61).toNat < 128 := by decide +kernel
  refine utf8_ascii_text fun b mem => ?_
  rcases List.mem_append.mp mem with front | back
  · exact leads b front
  · obtain ⟨i, _, rfl⟩ := List.mem_map.mp back
    exact letters _ (five_bits_lt _ _)

theorem strip_lead (lead : String) (body : Bytes) :
    stripPrefix lead (utf8 lead ++ body) = some body := by
  rw [stripPrefix, if_pos (List.isPrefixOf_iff_prefix.mpr (List.prefix_append _ _)),
    List.drop_left]

/-- A digest is read back from its canonical text. -/
theorem parse_canonical (d : Digest kind) : parseBits kind d.canonical = .ok d := by
  rw [parseBits, canonical, utf8_encode, strip_lead]
  obtain ⟨read, done⟩ : ∃ read, readBody (d.encode fullChars) 0 ((List.range fullChars).map
      fun i => alphabet.getD (fiveBitsAt d.raw.bytes (i * 5)) 0x61) .zero = .ok read := by
    refine read_body_done fun c mem => ?_
    obtain ⟨i, _, rfl⟩ := List.mem_map.mp mem
    exact ⟨_, decode_alphabet (five_bits_lt _ _)⟩
  have same : read = d.raw := by
    refine Bytes32.ext_bit fun n inside => ?_
    have chars : n < fullChars * 5 := lt_of_lt_of_le inside (by decide)
    rw [read_body_zero done inside (by rw [List.length_map, List.length_range]; exact chars),
      spelled_digest _ inside chars]
    rfl
  simp only [List.length_map, List.length_range, ne_eq, not_true_eq_false, if_false, done, same]
  rfl

end Digest

/-! The text as a number. -/

theorem decode_lt {c : UInt8} {v : Nat} (decoded : decodeChar c = some v) : v < 2 ^ 5 := by
  have size : alphabet.length = 2 ^ 5 := by decide +kernel
  simp only [decodeChar] at decoded
  split at decoded
  · rename_i inside
    cases decoded
    rwa [size] at inside
  · cases decoded

theorem number_shift {letters : List Nat} (low : ∀ v ∈ letters, v < 2 ^ 5) (n j : Nat) :
    (letters.foldl (fun n five => n * 32 + five) n).testBit (5 * letters.length + j) =
      n.testBit j := by
  induction letters generalizing n j with
  | nil => rw [List.foldl_nil, List.length_nil, Nat.mul_zero, Nat.zero_add]
  | cons v letters ih =>
    have small := low v List.mem_cons_self
    rw [List.foldl_cons, List.length_cons,
      show 5 * (letters.length + 1) + j = 5 * letters.length + (j + 5) by omega,
      ih fun v mem => low v (List.mem_cons_of_mem _ mem), Nat.mul_comm n,
      show 32 = 2 ^ 5 by rfl, Nat.testBit_two_pow_mul_add _ small, if_neg (by omega),
      Nat.add_sub_cancel]

theorem letters_of {body : Bytes} {letters : List Nat}
    (decoded : body.mapM decodeChar = some letters) :
    letters.length = body.length ∧ ∀ v ∈ letters, v < 2 ^ 5 := by
  induction body generalizing letters with
  | nil =>
    cases decoded
    exact ⟨rfl, by simp⟩
  | cons c cs ih =>
    rw [List.mapM_cons] at decoded
    obtain ⟨v, first, decoded⟩ := Option.bind_eq_some_iff.mp decoded
    obtain ⟨rest, later, same⟩ := Option.bind_eq_some_iff.mp decoded
    cases same
    obtain ⟨width, low⟩ := ih later
    refine ⟨by rw [List.length_cons, List.length_cons, width], fun u mem => ?_⟩
    rcases List.mem_cons.mp mem with rfl | mem
    · exact decode_lt first
    · exact low u mem

theorem number_spelled {body : Bytes} {letters : List Nat}
    (decoded : body.mapM decodeChar = some letters) (n : Nat) {i : Nat}
    (inside : i < 5 * body.length) :
    (letters.foldl (fun n five => n * 32 + five) n).testBit (5 * body.length - 1 - i) =
      spelledBit body i := by
  induction body generalizing letters n i with
  | nil => exact absurd inside (by rw [List.length_nil]; omega)
  | cons c cs ih =>
    rw [List.mapM_cons] at decoded
    obtain ⟨v, first, decoded⟩ := Option.bind_eq_some_iff.mp decoded
    obtain ⟨rest, later, same⟩ := Option.bind_eq_some_iff.mp decoded
    cases same
    obtain ⟨width, low⟩ := letters_of later
    rw [List.length_cons] at inside
    rw [List.foldl_cons, List.length_cons]
    by_cases here : i < 5
    · rw [spelled_first cs first here,
        show 5 * (cs.length + 1) - 1 - i = 5 * rest.length + (4 - i) by omega, number_shift low,
        Nat.mul_comm n, show 32 = 2 ^ 5 by rfl, Nat.testBit_two_pow_mul_add _ (decode_lt first),
        if_pos (by omega)]
    · rw [show 5 * (cs.length + 1) - 1 - i = 5 * cs.length - 1 - (i - 5) by omega,
        ih later _ (by omega), ← spelled_cons c cs, Nat.sub_add_cancel (by omega)]

theorem read_body_letters {found : String} {i : Nat} {cs : Bytes} {bytes read : Bytes32}
    (done : readBody found i cs bytes = .ok read) :
    ∃ letters, cs.mapM decodeChar = some letters := by
  induction cs generalizing i bytes with
  | nil => exact ⟨[], rfl⟩
  | cons c cs ih =>
    rw [readBody] at done
    split at done
    · cases done
    · rename_i v decoded
      obtain ⟨letters, later⟩ := ih done
      exact ⟨v :: letters, by rw [List.mapM_cons, decoded, later]; rfl⟩

theorem read_body_stuck {found : String} {i : Nat} {cs : Bytes} {bytes : Bytes32}
    {e : IntegrityError} (failed : readBody found i cs bytes = .error e) :
    cs.mapM decodeChar = none := by
  induction cs generalizing i bytes with
  | nil => cases failed
  | cons c cs ih =>
    rw [readBody] at failed
    rw [List.mapM_cons]
    split at failed
    · rename_i unknown
      rw [unknown]
      rfl
    · rename_i v decoded
      rw [decoded, ih failed]
      rfl

/-- Read bit by bit or as a number, a text is the same digest. -/
theorem Digest.parse_bits_option (kind : DigestKind) (s : String) :
    (Digest.parseBits kind s).toOption = (Digest.parse s : Option (Digest kind)) := by
  rw [Digest.parseBits, Digest.parse]
  cases stripped : stripPrefix kind.lead (utf8 s) with
  | none => rfl
  | some body =>
    by_cases full : body.length = 52
    · simp only [fullChars, ne_eq, full, not_true_eq_false, if_false, Option.bind_eq_bind,
        Option.bind_some]
      cases done : readBody s 0 body .zero with
      | error e =>
        rw [read_body_stuck done]
        rfl
      | ok bytes =>
        obtain ⟨letters, decoded⟩ := read_body_letters done
        rw [decoded, Option.bind_some, Bytes32.tryFrom, dif_pos (big_endian_length _ _)]
        refine congrArg (fun raw => some (Digest.mk raw)) (Bytes32.ext_bit fun n inside => ?_)
        rw [read_body_zero done inside (by omega), Bytes32.bit, bit_big_endian _ _ inside,
          show 16 = 2 ^ 4 by rfl, Nat.testBit_div_two_pow, ← number_spelled decoded 0 (by omega)]
        congr 1
        omega
    · simp only [fullChars, ne_eq, full, not_false_eq_true, if_true, Option.bind_eq_bind,
        Option.bind_some]
      rfl

/-! Prefixes. -/

namespace UidPrefix

theorem parse_spelled {s : String} {p : UidPrefix} (read : parse s = .ok p) :
    ∃ body, stripPrefix "b3:" (utf8 s) = some body ∧ 26 ≤ body.length ∧ body.length ≤ 52 ∧
      p.bits = min (5 * body.length) 256 ∧ ∀ n < p.bits, p.bytes.bit n = spelledBit body n := by
  rw [parse] at read
  split at read
  · cases read
  · rename_i body stripped
    split at read
    · cases read
    · rename_i wide
      obtain ⟨short, long⟩ := not_not.mp wide
      obtain ⟨bytes, done, rfl⟩ : ∃ bytes, readBody s 0 body .zero = .ok bytes ∧
          (⟨min (body.length * 5) 256, bytes, min_le_right _ _⟩ : UidPrefix) = p := by
        cases done : readBody s 0 body .zero with
        | error e =>
          rw [done] at read
          cases read
        | ok bytes =>
          rw [done] at read
          cases read
          exact ⟨bytes, rfl, rfl⟩
      refine ⟨body, stripped, short, long, by rw [Nat.mul_comm], fun n inside => ?_⟩
      rw [lt_min_iff] at inside
      exact read_body_zero done inside.2 inside.1

/-- A prefix matches the uids whose first bits are its own. -/
theorem matches_iff (p : UidPrefix) (uid : Uid) :
    p.matches uid ↔ ∀ n < p.bits, uid.raw.bit n = p.bytes.bit n := by
  have within : p.bits ≤ 8 * uid.raw.bytes.length := by
    rw [uid.raw.width]
    exact p.within
  have split' := first_bits_iff (uid.raw.width.trans p.bytes.width.symm) within
  rw [show (∀ n < p.bits, uid.raw.bit n = p.bytes.bit n) ↔ _ from split', UidPrefix.matches]
  by_cases whole : uid.raw.bytes.take (p.bits / 8) = p.bytes.bytes.take (p.bits / 8)
  · rw [if_neg (not_not.mpr whole), and_iff_right whole]
    by_cases rest : p.bits % 8 = 0
    · -- no bit of the next byte counts
      rw [if_pos rest, rest]
      have none' (x : UInt8) : x.toNat / 2 ^ (8 - 0) = 0 := Nat.div_eq_of_lt x.toNat_lt
      rw [none', none']
      exact iff_of_true rfl rfl
    · rw [if_neg rest, beq_iff_eq]
      exact masked_eq_iff _ _ (by omega) (by omega)
  · rw [if_pos whole]
    exact iff_of_false Bool.false_ne_true fun both => whole both.1

theorem end_of_bytes (p : UidPrefix) (fill part : UInt8) : (p.endOf fill part).bytes =
    p.bytes.bytes.take (p.bits / 8) ++
      if 0 < p.bits % 8 then part :: List.replicate (31 - p.bits / 8) fill
      else List.replicate (32 - p.bits / 8) fill := by
  have within := p.within
  have width : (p.bytes.bytes.take (p.bits / 8)).length = p.bits / 8 := by
    rw [List.length_take, p.bytes.width]
    omega
  change (if 0 < p.bits % 8 then (_ ++ (List.replicate 32 fill).drop (p.bits / 8)).set _ _
    else _ ++ (List.replicate 32 fill).drop (p.bits / 8)) = _
  rw [List.drop_replicate]
  by_cases rest : 0 < p.bits % 8
  · rw [if_pos rest, if_pos rest,
      List.set_append_right _ _ (le_of_eq width), width, Nat.sub_self,
      show 32 - p.bits / 8 = (31 - p.bits / 8) + 1 by omega, List.replicate_succ,
      List.set_cons_zero]
  · rw [if_neg rest, if_neg rest]

/-- The uids of the range are those whose first bits are the prefix's. -/
theorem range_iff (p : UidPrefix) (uid : Uid) :
    (p.range.1 ≤ uid ∧ uid ≤ p.range.2) ↔ ∀ n < p.bits, uid.raw.bit n = p.bytes.bit n := by
  have within : p.bits ≤ 8 * uid.raw.bytes.length := by
    rw [uid.raw.width]
    exact p.within
  have split' := first_bits_iff (uid.raw.width.trans p.bytes.width.symm) within
  rw [show (∀ n < p.bits, uid.raw.bit n = p.bytes.bit n) ↔ _ from split']
  change ((p.endOf _ _).bytes ≤ uid.raw.bytes ∧ uid.raw.bytes ≤ (p.endOf _ _).bytes) ↔ _
  have width : (p.bytes.bytes.take (p.bits / 8)).length = p.bits / 8 := by
    rw [List.length_take, p.bytes.width]
    have within := p.within
    omega
  rw [end_of_bytes, end_of_bytes, between_append, width]
  refine and_congr_right fun _ => ?_
  by_cases rest : 0 < p.bits % 8
  · have inside : p.bits / 8 < uid.raw.bytes.length := by omega
    have left : 31 - p.bits / 8 = (uid.raw.bytes.drop (p.bits / 8 + 1)).length := by
      rw [List.length_drop, uid.raw.width]
      omega
    rw [if_pos rest, if_pos rest, List.drop_eq_getElem_cons inside, left, between_cons,
      ← List.getD_eq_getElem _ 0 inside]
    exact masked_between _ _ (by omega) (by omega)
  · -- the prefix ends with a byte, and any bytes may follow
    have left : 32 - p.bits / 8 = (uid.raw.bytes.drop (p.bits / 8)).length := by
      rw [List.length_drop, uid.raw.width]
    have none' (x : UInt8) : x.toNat / 2 ^ (8 - p.bits % 8) = 0 := by
      rw [show p.bits % 8 = 0 by omega]
      exact Nat.div_eq_of_lt x.toNat_lt
    rw [if_neg rest, if_neg rest, left, none', none']
    exact iff_of_true ⟨zeros_le _, le_ones _⟩ rfl

/-- A prefix matches exactly the uids of its range, which are those that begin with the bits
its characters spell; and a uid is read back from its canonical text. -/
theorem prefix_agrees {s : String} {p : UidPrefix} (read : parse s = .ok p) (uid : Uid) :
    (p.matches uid ↔ p.range.1 ≤ uid ∧ uid ≤ p.range.2) ∧
    (∃ body, stripPrefix "b3:" (utf8 s) = some body ∧ 26 ≤ body.length ∧ body.length ≤ 52 ∧
      (p.matches uid ↔ ∀ n < min (5 * body.length) 256, uid.raw.bit n = spelledBit body n)) ∧
    Digest.parseBits .unit uid.canonical = .ok uid := by
  refine ⟨(matches_iff p uid).trans (range_iff p uid).symm, ?_, Digest.parse_canonical uid⟩
  obtain ⟨body, stripped, short, long, width, spelled⟩ := parse_spelled read
  refine ⟨body, stripped, short, long, (matches_iff p uid).trans ?_⟩
  rw [← width]
  exact forall₂_congr fun n inside => by rw [spelled n inside]

/-- The shortest prefix of zeros and the uid of zeros. -/
theorem zeros_agree : ∃ p : UidPrefix, parse "b3:aaaaaaaaaaaaaaaaaaaaaaaaaa" = .ok p ∧
    (p.matches ⟨.zero⟩ ↔ p.range.1 ≤ ⟨.zero⟩ ∧ ⟨.zero⟩ ≤ p.range.2) ∧
    Digest.parseBits .unit (Digest.canonical (⟨.zero⟩ : Uid)) = .ok ⟨.zero⟩ := by
  have read : parse "b3:aaaaaaaaaaaaaaaaaaaaaaaaaa" = .ok ⟨130, .zero, by decide⟩ := by
    decide +kernel
  have agrees := prefix_agrees read ⟨.zero⟩
  exact ⟨_, read, agrees.1, agrees.2.2⟩

end UidPrefix
end Smysl
