import Smysl.Cbor.RoundTrip
import Smysl.Graph.Contention
import Smysl.Lib.Frames

/-!
The ingest journal: one frame for each window whose batch was staged, appended to one file.
It is read back at the start of a run, up to a torn tail, and the newest entry for a key
wins.
-/
namespace Smysl
open ByteString Cursor Cursor.Parser Dec

/-- What identifies one window's work: the expression, the part, the bytes of it the window
owned, and the recipe. -/
structure JournalKey where
  aliasName : String
  tid : Tid
  owned : UInt64 × UInt64
  recipe : Bytes32
  deriving DecidableEq

/-- How the quotes of one window came out. -/
structure Verdicts where
  present : UInt32 := 0
  loose : UInt32 := 0
  absent : UInt32 := 0
  deriving DecidableEq

structure JournalEntry where
  key : JournalKey
  batch : Bytes32
  digest : Bytes32
  inputTokens : UInt64
  outputTokens : UInt64
  lang : String
  calls : UInt32
  retries : UInt32
  pivots : UInt32
  verdicts : Verdicts
  deriving DecidableEq

namespace Journal

/-- `Tid::canonical`. -/
def tidText (tid : Tid) : Bytes := utf8 "t3:" ++ base32 tid.raw 52

/-- One part of a key's preimage, with its length before it. -/
def part (x : Bytes) : Bytes := bigEndian 4 x.length ++ x ++ [0x1F]

/-- The key as stored: one hash over its parts. -/
def keyDigest [Blake3] (k : JournalKey) : Bytes32 :=
  Blake3.hash (part (utf8 k.aliasName) ++ part (tidText k.tid) ++
    part (bigEndian 8 k.owned.1.toNat) ++ part (bigEndian 8 k.owned.2.toNat) ++
      part k.recipe.bytes)

section
variable [Unicode]

def encodeKey (k : JournalKey) : Bytes :=
  Enc.map (put 9 (Enc.text k.aliasName) ++ put 10 (Enc.digest k.tid) ++
    put 11 (Enc.uint k.owned.1.toNat) ++ put 12 (Enc.uint k.owned.2.toNat) ++
      put 13 (Enc.bytes k.recipe.bytes))

def encode (e : JournalEntry) : Bytes :=
  Enc.map (put 1 (encodeKey e.key) ++ put 2 (Enc.bytes e.batch.bytes) ++
    put 3 (Enc.bytes e.digest.bytes) ++ put 4 (Enc.uint e.inputTokens.toNat) ++
    put 5 (Enc.uint e.outputTokens.toNat) ++ put 6 (Enc.uint e.verdicts.present.toNat) ++
    put 7 (Enc.uint e.verdicts.loose.toNat) ++ put 8 (Enc.uint e.verdicts.absent.toNat) ++
    put 14 (Enc.text e.lang) ++ put 15 (Enc.uint e.calls.toNat) ++
    put 16 (Enc.uint e.retries.toNat) ++ put 17 (Enc.uint e.pivots.toNat))

/-- The entries of a map that is read in order of its keys; one with no arm is skipped. -/
def readFields {σ : Type} (arms : Arms σ) (init : σ) : Parser σ := do
  let n ← mapHead
  let out ← loop (fun (st : Option Nat × σ) => do
    let k ← mapKey st.1
    match arms k with
    | some arm => do
      let update ← arm
      pure (some k, update st.2)
    | none => do
      let _ ← skipItem
      pure (some k, st.2)) n (none, init)
  pure out.2

/-- What a key's map has said so far. -/
structure KeyAcc where
  aliasName : String := ""
  tid : Option Tid := none
  owned : UInt64 × UInt64 := (0, 0)
  recipe : Bytes32 := ⟨List.replicate 32 0, Bytes32.width_zero⟩

/-- What an entry's map has said so far. -/
structure EntryAcc where
  key : KeyAcc := {}
  batch : Bytes32 := ⟨List.replicate 32 0, Bytes32.width_zero⟩
  digest : Bytes32 := ⟨List.replicate 32 0, Bytes32.width_zero⟩
  inputTokens : UInt64 := 0
  outputTokens : UInt64 := 0
  verdicts : Verdicts := {}
  lang : String := ""
  calls : UInt32 := 0
  retries : UInt32 := 0
  pivots : UInt32 := 0

def keyArms : Arms KeyAcc
  | 9 => field text (fun v a => { a with aliasName := v })
  | 10 => field decDigest (fun v a => { a with tid := some v })
  | 11 => field uint (fun v a => { a with owned := (v, a.owned.2) })
  | 12 => field uint (fun v a => { a with owned := (a.owned.1, v) })
  | 13 => field decBytes32 (fun v a => { a with recipe := v })
  | _ => none

/-- The key's map, read from the item it is. -/
def readKey : Parser KeyAcc := do
  let start ← position
  let inner ← skipItem
  orFail (bad start) (match readFields keyArms {} ⟨0, inner⟩ with
    | .ok (a, _) => some a
    | .error _ => none)

/-- `as u32`. -/
def low32 : Parser UInt32 := do
  let n ← uint
  pure n.toUInt32

def entryArms : Arms EntryAcc
  | 1 => field readKey (fun v a => { a with key := v })
  | 2 => field decBytes32 (fun v a => { a with batch := v })
  | 3 => field decBytes32 (fun v a => { a with digest := v })
  | 4 => field uint (fun v a => { a with inputTokens := v })
  | 5 => field uint (fun v a => { a with outputTokens := v })
  | 6 => field low32 (fun v a => { a with verdicts := { a.verdicts with present := v } })
  | 7 => field low32 (fun v a => { a with verdicts := { a.verdicts with loose := v } })
  | 8 => field low32 (fun v a => { a with verdicts := { a.verdicts with absent := v } })
  | 14 => field text (fun v a => { a with lang := v })
  | 15 => field low32 (fun v a => { a with calls := v })
  | 16 => field low32 (fun v a => { a with retries := v })
  | 17 => field low32 (fun v a => { a with pivots := v })
  | _ => none

def EntryAcc.finish (a : EntryAcc) : Option JournalEntry := do
  let tid ← a.key.tid
  some {
    key := ⟨a.key.aliasName, tid, a.key.owned, a.key.recipe⟩
    batch := a.batch
    digest := a.digest
    inputTokens := a.inputTokens
    outputTokens := a.outputTokens
    lang := a.lang
    calls := a.calls
    retries := a.retries
    pivots := a.pivots
    verdicts := a.verdicts }

def decode (bytes : Bytes) : Option JournalEntry :=
  match readFields entryArms {} ⟨0, bytes⟩ with
  | .ok (a, _) => a.finish
  | .error _ => none

end

section
variable [Unicode] [Blake3]

/-- One more frame, which is passed over if it does not decode. -/
def readFrame (out : BTreeMap Bytes32 JournalEntry) (frame : Bytes) :
    BTreeMap Bytes32 JournalEntry :=
  match decode frame with
  | some e => out.insert (keyDigest e.key) e
  | none => out

/-- A journal file's entries by key, the newest for each, up to a torn tail. -/
def entries (file : Bytes) : BTreeMap Bytes32 JournalEntry :=
  (Frames.split file).1.foldl readFrame ∅

end
end Journal

/-- A journal, open for reading and appending. -/
structure Journal where
  file : Bytes
  done : BTreeMap Bytes32 JournalEntry

namespace Journal
variable [Unicode] [Blake3]

/-- `Journal::open`, on what the file holds. -/
def openOn (file : Bytes) : Journal := ⟨file, entries file⟩

/-- The bytes a record appends. -/
def written (e : JournalEntry) : Bytes := Frames.frame (encode e)

def record (j : Journal) (e : JournalEntry) : Journal :=
  ⟨j.file ++ written e, j.done.insert (keyDigest e.key) e⟩

/-- Forget an expression's entries in memory; the file keeps its history. -/
def forget (j : Journal) (aliasName : String) : Journal :=
  ⟨j.file, j.done.filter (fun _ e => e.key.aliasName != aliasName)⟩

/-- What can happen to a journal. A kill cuts a record short after some of its bytes, and
what comes next opens the file again. -/
inductive Event
  | record (e : JournalEntry)
  | kill (e : JournalEntry) (bytes : Nat)
  | reopen
  | forget (aliasName : String)

def step (j : Journal) : Event → Journal
  | .record e => j.record e
  | .kill e bytes => openOn (j.file ++ (written e).take bytes)
  | .reopen => openOn j.file
  | .forget aliasName => j.forget aliasName

/-- Every run begins with no file. -/
def run (events : List Event) : Journal := events.foldl step (openOn [])

/-- The entry whose record was completed: a kill after the last byte comes too late. -/
def completed : Event → Option JournalEntry
  | .record e => some e
  | .kill e bytes => if (written e).length ≤ bytes then some e else none
  | .reopen => none
  | .forget _ => none

end Journal
end Smysl
