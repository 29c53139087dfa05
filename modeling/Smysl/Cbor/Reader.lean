import Smysl.Lib.Cursor
import Smysl.Cbor.Writer

/-!
The strict decoder. It refuses whatever the encoder would not write: a longer
head, an unsorted set or map, a null, text that is not in NFC, a float that is
not a multiple of 1/1024.
-/
namespace Smysl
open ByteString Cursor

inductive NonDetReason
  | nonShortestInt
  | indefiniteLength
  | unsortedMapKeys
  | duplicateMapKey
  | nullOptional
  | nonNfcText
  | unsortedSet
  deriving DecidableEq, Repr

inductive CodecError
  | malformedEnvelope (pos : Nat)
  | nonDeterministic (pos : Nat) (reason : NonDetReason)
  | float (pos : Nat)
  | truncatedUid (pos len : Nat)
  | truncated (pos : Nat)
  | nestingTooDeep (pos limit : Nat)
  deriving DecidableEq, Repr

instance : Short CodecError where
  short e := ∃ pos, e = .truncated pos

abbrev Parser (α : Type) := Cursor.Parser CodecError α

def bad (pos : Nat) : CodecError := .malformedEnvelope pos

/-- `cbor::MAX_NESTING`. -/
def maxNesting : Nat := 128

namespace Dec
open Cursor.Parser

def peek : Parser UInt8 := fun d =>
  match d.rest with
  | b :: _ => .ok (b, d)
  | [] => .error (.truncated d.pos)

/-- The next byte, consumed. -/
def byte : Parser UInt8 := fun d =>
  match d.rest with
  | b :: _ => .ok (b, d.advance 1)
  | [] => .error (.truncated d.pos)

def take (n : Nat) : Parser Bytes := fun d =>
  if limit ≤ d.pos + n then .error (bad d.pos)
  else if d.rest.length < n then .error (.truncated d.pos)
  else .ok (d.rest.take n, d.advance n)

/-- A head's argument of `width` bytes, which has to need that many. -/
def argument (start width least : Nat) : Parser Nat := do
  let s ← take width
  let v := fromBigEndian s
  if v < least then fail (.nonDeterministic start .nonShortestInt) else pure v

/-- A head: the major type and its argument, in shortest form. -/
def head : Parser (Nat × Nat) := do
  let start ← position
  let b ← byte
  let m := b.toNat / 32
  let ai := b.toNat % 32
  if ai = 31 then fail (.nonDeterministic start .indefiniteLength)
  else if ai < 24 then pure (m, ai)
  else if ai = 24 then do
    let v ← argument start 1 24
    pure (m, v)
  else if ai = 25 then do
    let v ← argument start 2 0x100
    pure (m, v)
  else if ai = 26 then do
    let v ← argument start 4 0x10000
    pure (m, v)
  else if ai = 27 then do
    let v ← argument start 8 0x100000000
    pure (m, v)
  else fail (bad (start + 1))

def expect (want : Nat) : Parser Nat := do
  let start ← position
  let h ← head
  if h.1 ≠ want then fail (bad start) else pure h.2

def uint : Parser UInt64 := do
  let n ← expect 0
  pure (UInt64.ofNat n)

/-- `u8::try_from`. -/
def tryU8 (v : UInt64) : Option UInt8 := if v.toNat < 2 ^ 8 then some v.toUInt8 else none

/-- `u32::try_from`. -/
def tryU32 (v : UInt64) : Option UInt32 := if v.toNat < 2 ^ 32 then some v.toUInt32 else none

/-- A signed integer; one no `i64` holds is malformed. -/
def int : Parser Int64 := do
  let start ← position
  let h ← head
  if h.1 = 0 then
    if h.2 < 2 ^ 63 then pure (Int64.ofNat h.2) else fail (bad start)
  else if h.1 = 1 then
    if h.2 < 2 ^ 63 then pure (Int64.ofInt (-(h.2 : Int) - 1)) else fail (bad start)
  else fail (bad start)

def bytes : Parser Bytes := do
  let n ← expect 2
  take n

/-- The text of `n` bytes, refused when it is not in NFC. -/
def textOf [Unicode] (start n : Nat) : Parser String := do
  let raw ← take n
  let s ← orFail (bad start) (fromUtf8 raw)
  if Unicode.isNfc s then pure s else fail (.nonDeterministic start .nonNfcText)

def text [Unicode] : Parser String := do
  let start ← position
  let n ← expect 3
  textOf start n

def f32q : Parser F32 := do
  let start ← position
  let b ← byte
  if b ≠ 0xFA then fail (.float start)
  else do
    let s ← take 4
    if (F32.fromBeBytes s).isQuantised then pure (F32.fromBeBytes s) else fail (.float start)

/-- A uid; a shorter byte string is an abbreviation, not an identity. -/
def uid : Parser Uid := do
  let start ← position
  let b ← bytes
  let raw ← orFail (.truncatedUid start b.length) (Bytes32.tryFrom b)
  pure ⟨raw⟩

def arrayHead : Parser Nat := expect 4

/-- An array of uids, refused when it is not strictly ascending. -/
def uidSet : Parser (BTreeSet Uid) := do
  let start ← position
  let n ← arrayHead
  let out ← loop (fun (st : Option Uid × BTreeSet Uid) => do
    let u ← uid
    if st.1.any (fun p => u ≤ p) then fail (.nonDeterministic start .unsortedSet)
    else pure (some u, st.2.insert u)) n (none, ∅)
  pure out.2

/-- An array whose encoded elements are strictly ascending. -/
def sortedArray {α : Type} (f : Parser α) : Parser (List α) := do
  let start ← position
  let n ← arrayHead
  let out ← loop (fun (st : Option Bytes × List α) => do
    let v ← spanned f
    if st.1.any (fun p => v.2 ≤ p) then fail (.nonDeterministic start .unsortedSet)
    else pure (some v.2, st.2 ++ [v.1])) n (none, [])
  pure out.2

/-- An array in authored order. -/
def array {α : Type} (f : Parser α) : Parser (List α) := do
  let n ← arrayHead
  times f n

def mapHead : Parser Nat := expect 5

/-- A map key, strictly above the one before it. -/
def mapKey (prev : Option Nat) : Parser Nat := do
  let start ← position
  let k ← uint
  if 2 ^ 16 ≤ k.toNat then fail (bad start)
  else if prev.any (fun p => k.toNat = p) then fail (.nonDeterministic start .duplicateMapKey)
  else if prev.any (fun p => k.toNat < p) then fail (.nonDeterministic start .unsortedMapKeys)
  else pure k.toNat

def rejectNull : Parser Unit := do
  let start ← position
  let b ← peek
  if b = 0xF6 then fail (.nonDeterministic start .nullOptional) else pure ()

/-- The simple values: a float carries four bytes, a boolean none. -/
def skipSimple (start : Nat) (b : UInt8) : Parser Unit :=
  if b = 0xFA then do
    let _ ← f32q
    pure ()
  else if b = 0xF4 ∨ b = 0xF5 then do
    let _ ← byte
    pure ()
  else fail (bad start)

/-- The entries of a map of arbitrary keys, ascending by encoded key: a payload
may key by text where the kernel keys by integer. -/
def skipEntries (inner : Parser Unit) (n : Nat) : Parser Unit := do
  let _ ← loop (fun (prev : Option Bytes) => do
    let kstart ← position
    let key ← spanned inner
    if prev.any (fun p => key.2 = p) then fail (.nonDeterministic kstart .duplicateMapKey)
    else if prev.any (fun p => key.2 < p) then fail (.nonDeterministic kstart .unsortedMapKeys)
    else do
      inner
      pure (some key.2)) n none
  pure ()

/-- An item with a head, whose own items `inner` skips. -/
def skipHeaded [Unicode] (inner : Parser Unit) : Parser Unit := do
  let h ← head
  let after ← position
  if h.1 = 0 ∨ h.1 = 1 then pure ()
  else if h.1 = 2 then do
    let _ ← take h.2
    pure ()
  else if h.1 = 3 then do
    let _ ← textOf after h.2
    pure ()
  else if h.1 = 4 then loop (fun _ => inner) h.2 ()
  else if h.1 = 5 then skipEntries inner h.2
  else fail (bad after)

/-- `skip_one`, by how many levels of nesting are still allowed. -/
def skipOne [Unicode] : Nat → Parser Unit
  | 0 => do
    let start ← position
    fail (.nestingTooDeep start maxNesting)
  | levels + 1 => do
    let start ← position
    let b ← peek
    if b = 0xF6 then fail (.nonDeterministic start .nullOptional)
    else if b.toNat / 32 = 7 then skipSimple start b
    else skipHeaded (skipOne levels)

/-- One complete item, as its raw bytes. -/
def skipItem [Unicode] : Parser Bytes := do
  let item ← spanned (skipOne (maxNesting + 1))
  pure item.2

end Dec
end Smysl
