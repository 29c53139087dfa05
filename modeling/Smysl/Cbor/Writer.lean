import Smysl.Core.Types.Library

/-!
The deterministic encoder: heads in shortest form, text normalised on the way
out, sets sorted by their encoded elements, maps sorted by key.
-/
namespace Smysl
open ByteString

namespace Enc

/-- A head in shortest form. -/
def head (major arg : Nat) : Bytes :=
  if arg < 24 then [UInt8.ofNat (major * 32 + arg)]
  else if arg < 0x100 then UInt8.ofNat (major * 32 + 24) :: bigEndian 1 arg
  else if arg < 0x10000 then UInt8.ofNat (major * 32 + 25) :: bigEndian 2 arg
  else if arg < 0x100000000 then UInt8.ofNat (major * 32 + 26) :: bigEndian 4 arg
  else UInt8.ofNat (major * 32 + 27) :: bigEndian 8 arg

def uint (v : Nat) : Bytes := head 0 v

/-- A signed integer, from either of the two integer major types. -/
def int (v : Int64) : Bytes :=
  if 0 ≤ v.toInt then head 0 v.toInt.toNat else head 1 (-v.toInt - 1).toNat

def bytes (b : Bytes) : Bytes := head 2 b.length ++ b

/-- Text, normalised here rather than assumed to be. -/
def text [Unicode] (s : String) : Bytes :=
  head 3 (utf8 (normalise s)).length ++ utf8 (normalise s)

def f32q (v : F32) : Bytes := 0xFA :: v.quantise.toBeBytes

def arrayHead (n : Nat) : Bytes := head 4 n

def digest {kind : DigestKind} (d : Digest kind) : Bytes := bytes d.asBytes

def array (items : List Bytes) : Bytes := arrayHead items.length ++ items.flatten

/-- A set of uids: its order is already the order of the encoded elements. -/
def uidSet (set : BTreeSet Uid) : Bytes := array (set.toList.map digest)

def sortedArray (items : List Bytes) : Bytes := array (items.insertionSort (· ≤ ·))

/-- One key and its value, as they stand in a map. -/
def entry (e : Nat × Bytes) : Bytes := uint e.1 ++ e.2

def mapOf (entries : List (Nat × Bytes)) : Bytes :=
  head 5 entries.length ++ entries.flatMap entry

def map (entries : List (Nat × Bytes)) : Bytes :=
  mapOf (entries.insertionSort (fun a b => a.1 ≤ b.1))

end Enc

/-! What `MapBuilder` adds for a field, by how the field is kept. -/

def put (key : Nat) (value : Bytes) : List (Nat × Bytes) := [(key, value)]

/-- An absent optional is omitted, never null. -/
def putOpt {α : Type} (key : Nat) (value : Option α) (write : α → Bytes) : List (Nat × Bytes) :=
  (value.map (fun v => (key, write v))).toList

def putWhen (key : Nat) (present : Bool) (value : Bytes) : List (Nat × Bytes) :=
  if present then [(key, value)] else []

/-- An empty set is written as an absent one. -/
def putUidSet (key : Nat) (set : BTreeSet Uid) : List (Nat × Bytes) :=
  putWhen key (!set.isEmpty) (Enc.uidSet set)

def putSortedSet (key : Nat) (items : List Bytes) : List (Nat × Bytes) :=
  putWhen key (!items.isEmpty) (Enc.sortedArray items)

/-- A sequence in authored order, only if there is any. -/
def putArray (key : Nat) (items : List Bytes) : List (Nat × Bytes) :=
  putWhen key (!items.isEmpty) (Enc.array items)

/-- Unknown keys of a future minor version, verbatim. -/
def putExtra (extra : Extra) : List (Nat × Bytes) := extra.entries

end Smysl
