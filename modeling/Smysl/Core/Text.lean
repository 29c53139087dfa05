import Smysl.Lib.Bytes

/-!
Text as the codec and the identifier types see it: UTF-8 bytes, the Unicode
normalisation the crate imports, and the byte classes of the identifier
grammars.
-/
namespace Smysl
open ByteString

/-- The two functions the `unicode-normalization` crate provides. ASCII text is
its own normal form. -/
class Unicode where
  isNfc : String → Bool
  nfc : String → String
  ascii_nfc : ∀ s : String, (∀ c ∈ s.toList, c.toNat < 128) → isNfc s = true

/-- The two functions on text that needs no normalising. -/
@[reducible] def Unicode.plain : Unicode where
  isNfc _ := true
  nfc s := s
  ascii_nfc _ _ := rfl

/-- `types::normalise`: text already in NFC is returned as it is. -/
def normalise [Unicode] (s : String) : String :=
  if Unicode.isNfc s then s else Unicode.nfc s

theorem normalise_of_nfc [Unicode] {s : String} (nfc : Unicode.isNfc s = true) :
    normalise s = s := by
  rw [normalise, if_pos nfc]

def utf8 (s : String) : Bytes := s.toByteArray.data.toList

/-- `core::str::from_utf8`. -/
def fromUtf8 (bs : Bytes) : Option String := String.fromUTF8? ⟨bs.toArray⟩

theorem from_utf8_iff (bs : Bytes) (s : String) : fromUtf8 bs = some s ↔ utf8 s = bs := by
  simp only [fromUtf8, String.fromUTF8?, utf8]
  constructor
  · intro found
    split at found
    · cases found
      rfl
    · cases found
  · rintro rfl
    have valid : (ByteArray.mk s.toByteArray.data.toList.toArray).IsValidUTF8 := s.isValidUTF8
    rw [dif_pos valid]
    rfl

theorem utf8_injective : Function.Injective utf8 := by
  intro s t same
  have found := (from_utf8_iff (utf8 t) s).mpr same
  rw [(from_utf8_iff (utf8 t) t).mpr rfl] at found
  exact (Option.some.inj found).symm

/-- The text of a string of ASCII bytes. -/
def asciiText (bs : Bytes) : String := String.ofList (bs.map (fun b => Char.ofNat b.toNat))

theorem char_of_ascii {n : Nat} (ascii : n < 128) : (Char.ofNat n).toNat = n := by
  have valid : n.isValidChar := Or.inl (by omega)
  rw [Char.ofNat, dif_pos valid]
  rfl

theorem utf8_ascii_text {bs : Bytes} (ascii : ∀ b ∈ bs, b.toNat < 128) :
    utf8 (asciiText bs) = bs := by
  rw [utf8, asciiText, String.toByteArray_ofList, List.utf8Encode, List.toList_data_toByteArray]
  induction bs with
  | nil => rfl
  | cons b bs ih =>
    have low := ascii b List.mem_cons_self
    have single : String.utf8EncodeChar (Char.ofNat b.toNat) = [b] := by
      have value : (Char.ofNat b.toNat).val.toNat = b.toNat := char_of_ascii low
      simp only [String.utf8EncodeChar, value]
      rw [if_pos (by omega), UInt8.ofNat_toNat]
    rw [List.map_cons, List.flatMap_cons, single,
      ih (fun b mem => ascii b (List.mem_cons_of_mem _ mem)), List.singleton_append]

/-- Text of ASCII bytes is in normal form. -/
theorem nfc_of_ascii [Unicode] {s : String} (ascii : ∀ b ∈ utf8 s, b.toNat < 128) :
    Unicode.isNfc s = true := by
  have same : asciiText (utf8 s) = s := utf8_injective (utf8_ascii_text ascii)
  refine Unicode.ascii_nfc s fun c mem => ?_
  rw [← same, asciiText, String.toList_ofList, List.mem_map] at mem
  obtain ⟨b, held, rfl⟩ := mem
  rw [char_of_ascii (ascii b held)]
  exact ascii b held

/-- `char::is_whitespace`: the Unicode property `White_Space`. -/
def isWhitespace (c : Char) : Bool :=
  let n := c.toNat
  (0x09 ≤ n && n ≤ 0x0D) || n == 0x20 || n == 0x85 || n == 0xA0 || n == 0x1680 ||
    (0x2000 ≤ n && n ≤ 0x200A) || n == 0x2028 || n == 0x2029 || n == 0x202F || n == 0x205F ||
    n == 0x3000

/-- `s.trim().is_empty()`. -/
def isBlank (s : String) : Bool := s.toList.all isWhitespace

def isAsciiLowercase (c : UInt8) : Bool := 0x61 ≤ c && c ≤ 0x7A

def isAsciiUppercase (c : UInt8) : Bool := 0x41 ≤ c && c ≤ 0x5A

def isAsciiDigit (c : UInt8) : Bool := 0x30 ≤ c && c ≤ 0x39

def isAsciiAlphanumeric (c : UInt8) : Bool :=
  isAsciiLowercase c || isAsciiUppercase c || isAsciiDigit c

/-- `str::split_once` at an ASCII character. -/
def splitOnce (c : UInt8) : Bytes → Option (Bytes × Bytes)
  | [] => none
  | b :: bs =>
    if b = c then some ([], bs)
    else (splitOnce c bs).map (fun halves => (b :: halves.1, halves.2))

/-- `str::split` at an ASCII character. -/
def splitAll (c : UInt8) : Bytes → List Bytes
  | [] => [[]]
  | b :: bs =>
    match splitAll c bs with
    | [] => [[b]]
    | part :: parts => if b = c then [] :: part :: parts else (b :: part) :: parts

/-- `str::strip_prefix`. -/
def stripPrefix (lead : String) (bs : Bytes) : Option Bytes :=
  if (utf8 lead).isPrefixOf bs then some (bs.drop (utf8 lead).length) else none

end Smysl
