import Smysl.Cbor.Canonical
import Smysl.Cbor.RoundTrip
import Smysl.Text.Locator

/-!
The segment table of a reading: one row for each node of the structure, in
document order, each with its range, its level, its locator and what the reader
knew about it.
-/
namespace Smysl
open ByteString Cursor Cursor.Parser Dec OrdMap

def isLevel (s : String) : Bool :=
  match s.toList with
  | [] => false
  | first :: rest => first.isLower && rest.all (fun c => c.isLower || c.isDigit || c == '-')

/-- What a reader calls the kind of a node. -/
structure Level where
  text : String
  shaped : isLevel text = true
  deriving DecidableEq

theorem verse_shaped : isLevel "verse" = true := by decide

namespace Level

def new (s : String) : Option Level := if shaped : isLevel s = true then some ⟨s, shaped⟩ else none

theorem new_iff (s : String) (l : Level) : new s = some l ↔ l.text = s := by
  constructor
  · intro found
    rw [new] at found
    split at found
    · cases found
      rfl
    · cases found
  · rintro rfl
    rw [new, dif_pos l.shaped]

theorem ascii (l : Level) : ∀ c ∈ l.text.toList, c.toNat < 128 := by
  have lower : ∀ c : Char, c.isLower = true → c.toNat < 128 := by
    intro c low
    simp only [Char.isLower, Bool.and_eq_true, decide_eq_true_eq] at low
    have high : c.toNat ≤ 122 := low.2
    omega
  have digit : ∀ c : Char, c.isDigit = true → c.toNat < 128 := by
    intro c low
    simp only [Char.isDigit, Bool.and_eq_true, decide_eq_true_eq] at low
    have high : c.toNat ≤ 57 := low.2
    omega
  have shaped := l.shaped
  rw [isLevel] at shaped
  split at shaped
  · cases shaped
  · rename_i first rest same
    rw [Bool.and_eq_true, List.all_eq_true] at shaped
    intro c mem
    rw [same] at mem
    rcases List.mem_cons.mp mem with rfl | later
    · exact lower c shaped.1
    · have held := shaped.2 c later
      simp only [Bool.or_eq_true, beq_iff_eq] at held
      rcases held with (low | low) | rfl
      · exact lower c low
      · exact digit c low
      · decide

end Level

/-- A span that a source marks as reported speech. -/
structure Mark where
  start : UInt64
  stop : UInt64
  who : Option String
  extra : Extra
  deriving DecidableEq

namespace Mark

/-- The derived order, field by field; no name is below every name. -/
def rank (m : Mark) : ℕ ×ₗ ℕ ×ₗ List String ×ₗ List (ℕ ×ₗ Bytes) :=
  toLex (m.start.toNat, toLex (m.stop.toNat, toLex (m.who.toList, m.extra.rank)))

theorem rank_injective : Function.Injective rank := by
  rintro ⟨start, stop, who, extra⟩ ⟨start', stop', who', extra'⟩ same
  simp only [rank, EmbeddingLike.apply_eq_iff_eq, Prod.mk.injEq, to_list_injective.eq_iff,
    Extra.rank_injective.eq_iff, UInt64.toNat_inj] at same
  simp [same]

instance : LinearOrder Mark := LinearOrder.lift' rank rank_injective

end Mark

/-- One row of the table. -/
structure Segment where
  start : UInt64
  stop : UInt64
  level : Level
  locator : Locator
  lang : Option LangTag
  speaker : Option String
  observed : Option UInt64
  ids : BTreeMap String String
  tzOffset : Option Int32
  reported : List Mark
  extra : Extra
  deriving DecidableEq

section
variable [Unicode]

/-! Writing. -/

def encMark (m : Mark) : Bytes :=
  Enc.map (put 0 (Enc.uint m.start.toNat) ++
    put 1 (Enc.uint m.stop.toNat) ++
    putOpt 2 m.who Enc.text ++
    putExtra m.extra)

/-- In the order of the list, which has to be the sorted one. -/
def encMarks (marks : List Mark) : Bytes := Enc.array (marks.map encMark)

def encSegment (s : Segment) : Bytes :=
  Enc.map (put 0 (Enc.uint s.start.toNat) ++
    put 1 (Enc.uint s.stop.toNat) ++
    put 2 (Enc.text s.level.text) ++
    put 3 (Enc.text s.locator.toText) ++
    putOpt 4 s.lang (fun l => Enc.text l.text) ++
    putOpt 5 s.speaker Enc.text ++
    putOpt 6 s.observed (fun o => Enc.uint o.toNat) ++
    putWhen 7 (!s.ids.isEmpty) (encTextMap s.ids.entries) ++
    putOpt 8 s.tzOffset (fun tz => Enc.int tz.toInt64) ++
    putWhen 9 (!s.reported.isEmpty) (encMarks s.reported) ++
    putExtra s.extra)

/-- The rows in document order. -/
def encodeTable (rows : List Segment) : Bytes :=
  Enc.arrayHead rows.length ++ (rows.map encSegment).flatten

/-! Reading. -/

/-- A map read into a value, with a fixed place for what is found wrong of it. -/
def decMapAt {σ α : Type} (start : Nat) (arms : Arms σ) (init : σ)
    (finish : σ → Extra → Option α) : Parser α := do
  let read ← readMap arms init
  orFail (bad start) (finish read.1 read.2)

structure MarkAcc where
  start : Option UInt64 := none
  stop : Option UInt64 := none
  who : Option String := none

def markArms (_ : Nat) : Arms MarkAcc
  | 0 => field uint (fun v a => { a with start := some v })
  | 1 => field uint (fun v a => { a with stop := some v })
  | 2 => field text (fun v a => { a with who := some v })
  | _ => none

def MarkAcc.finish (a : MarkAcc) (extra : Extra) : Option Mark := do
  let start ← a.start
  let stop ← a.stop
  if stop < start then none else some { start, stop, who := a.who, extra }

/-- Sorted and not overlapping. -/
def ordered : List Mark → Bool
  | a :: b :: rest => decide (a < b) && decide (a.stop ≤ b.start) && ordered (b :: rest)
  | _ => true

/-- The marks of a row. What is wrong with one of them is reported where their array
starts. -/
def decMarks : Parser (List Mark) := do
  let start ← position
  let marks ← array (decMapAt start (markArms start) {} MarkAcc.finish)
  reject (!ordered marks) (.nonDeterministic start .unsortedSet)
  pure marks

/-- `Dec::new(&kbytes).text()`: errors are placed from the start of the key. -/
def keyText (kbytes : Bytes) : Parser String := fun d =>
  match text ⟨0, kbytes⟩ with
  | .ok (k, _) => .ok (k, d)
  | .error e => .error e

/-- The key is kept as it stands, so that the order is checked of what is on the wire. -/
def idEntry (start : Nat) (st : Option Bytes × BTreeMap String String) :
    Parser (Option Bytes × BTreeMap String String) := do
  let kbytes ← skipItem
  let key ← keyText kbytes
  if st.1.any (fun p => kbytes ≤ p) then fail (.nonDeterministic start .unsortedMapKeys)
  else do
    let v ← text
    pure (some kbytes, st.2.insert key v)

def decIds : Parser (BTreeMap String String) := do
  let start ← position
  let n ← mapHead
  let out ← loop (idEntry start) n (none, ∅)
  pure out.2

/-- `i32::try_from`. -/
def tryI32 (v : Int64) : Option Int32 :=
  if -2 ^ 31 ≤ v.toInt ∧ v.toInt < 2 ^ 31 then some v.toInt32 else none

def decTz (start : Nat) : Parser Int32 := do
  let v ← int
  orFail (bad start) (tryI32 v)

structure SegmentAcc where
  start : Option UInt64 := none
  stop : Option UInt64 := none
  level : Option Level := none
  locator : Option Locator := none
  lang : Option LangTag := none
  speaker : Option String := none
  observed : Option UInt64 := none
  ids : BTreeMap String String := ∅
  tz : Option Int32 := none
  reported : List Mark := []

def segmentArms (start : Nat) : Arms SegmentAcc
  | 0 => field uint (fun v a => { a with start := some v })
  | 1 => field uint (fun v a => { a with stop := some v })
  | 2 => field (named start Level.new) (fun v a => { a with level := some v })
  | 3 => field (named start (fun s => (Locator.parse s).toOption))
      (fun v a => { a with locator := some v })
  | 4 => field (named start Name.new) (fun v a => { a with lang := some v })
  | 5 => field text (fun v a => { a with speaker := some v })
  | 6 => field uint (fun v a => { a with observed := some v })
  | 7 => field decIds (fun v a => { a with ids := v })
  | 8 => field (decTz start) (fun v a => { a with tz := some v })
  | 9 => field decMarks (fun v a => { a with reported := v })
  | _ => none

def SegmentAcc.finish (a : SegmentAcc) (extra : Extra) : Option Segment := do
  let start ← a.start
  let stop ← a.stop
  let level ← a.level
  let locator ← a.locator
  some {
    start, stop, level, locator, lang := a.lang, speaker := a.speaker, observed := a.observed,
    ids := a.ids, tzOffset := a.tz, reported := a.reported, extra }

def decSegment : Parser Segment := decMap segmentArms {} SegmentAcc.finish

/-- What stands after the table is not looked at. -/
def decodeTable (bytes : Bytes) : Except CodecError (List Segment) :=
  (array decSegment ⟨0, bytes⟩).map Prod.fst

/-! What the decoder checks of a row. -/

structure Mark.Valid (m : Mark) : Prop where
  forward : m.start ≤ m.stop
  who : ∀ w ∈ m.who, Nfc w
  extra : ExtraValid 3 m.extra

structure Segment.Valid (s : Segment) : Prop where
  locator : s.locator.Valid
  locatorText : Nfc s.locator.toText
  speaker : ∀ t ∈ s.speaker, Nfc t
  ids : ∀ e ∈ s.ids.entries, Nfc e.1 ∧ Nfc e.2
  marks : ∀ m ∈ s.reported, m.Valid
  sorted : ordered s.reported = true
  extra : ExtraValid 10 s.extra

end
end Smysl
