import Smysl.Ingest.JournalReads

/-!
What survives a kill. A record cut short leaves a torn tail, which the reader stops at and
nothing takes away: what was recorded before it is kept, and what is recorded after it is
read at the wrong place.
-/
namespace Smysl
open ByteString

namespace Journal
section
variable [Blake3]

/-- The newest entry for a key. -/
def newest (recorded : List JournalEntry) (key : Bytes32) : Option JournalEntry :=
  recorded.reverse.find? (fun e => keyDigest e.key == key)

theorem get_inserted (recorded : List JournalEntry) (key : Bytes32) :
    (recorded.foldl (fun out e => out.insert (keyDigest e.key) e)
      (∅ : BTreeMap Bytes32 JournalEntry)).get key = newest recorded key := by
  induction recorded using List.reverseRecOn with
  | nil => rfl
  | append_singleton recorded e ih =>
    rw [newest, List.foldl_append, List.reverse_append, List.reverse_singleton,
      List.singleton_append, List.find?_cons, List.foldl_cons, List.foldl_nil,
      BTreeMap.get_insert]
    by_cases same : keyDigest e.key = key
    · rw [if_pos same.symm, beq_iff_eq.mpr same]
    · rw [if_neg fun other => same other.symm, beq_false_of_ne same]
      exact ih

/-- Where no two keys are taken for one, the newest entry of a key's digest is the key's. -/
theorem newest_of_apart {recorded : List JournalEntry} {key : JournalKey}
    (apart : ∀ e ∈ recorded, keyDigest e.key = keyDigest key → e.key = key) :
    newest recorded (keyDigest key) = recorded.reverse.find? (fun e => e.key == key) := by
  refine List.find?_congr fun e mem => ?_
  rw [Bool.eq_iff_iff, beq_iff_eq, beq_iff_eq]
  exact ⟨apart e (List.mem_reverse.mp mem), congrArg keyDigest⟩

end

section
variable [Unicode]

/-- An entry that is read back as it was written. -/
def Fits (e : JournalEntry) : Prop := Written e ∧ (encode e).length < Frames.most

/-- Whole frames of what was recorded, and perhaps what a kill left of another. -/
structure Holds (file : Bytes) (recorded : List JournalEntry) : Prop where
  fits : ∀ e ∈ recorded, Fits e
  torn : ∃ tail, file = Frames.join (recorded.map encode) ++ tail ∧ Frames.Torn tail

namespace Holds
variable {file : Bytes} {recorded : List JournalEntry}

theorem split (self : Holds file recorded) :
    ∃ tail, Frames.split file = (recorded.map encode, tail) ∧
      file = Frames.join (recorded.map encode) ++ tail := by
  obtain ⟨tail, rfl, torn⟩ := self.torn
  refine ⟨tail, Frames.split_of_join ?_ torn, rfl⟩
  exact List.forall_mem_map.mpr fun e mem => (self.fits e mem).2

theorem start : Holds [] [] :=
  ⟨fun _ mem => (nomatch mem), [], rfl, Frames.torn_nil⟩

/-- A file that ends with a whole frame is that of what was recorded. -/
theorem whole (self : Holds file recorded) (whole : Frames.Whole file) :
    file = Frames.join (recorded.map encode) := by
  obtain ⟨tail, split, same⟩ := self.split
  rw [Frames.Whole, split] at whole
  rw [same, show tail = [] from whole, List.append_nil]

theorem record (self : Holds file recorded) (whole : Frames.Whole file) {e : JournalEntry}
    (fits : Fits e) : Holds (file ++ written e) (recorded ++ [e]) := by
  refine ⟨?_, [], ?_, Frames.torn_nil⟩
  · intro other mem
    rcases List.mem_append.mp mem with mem | same
    · exact self.fits other mem
    · rw [List.mem_singleton.mp same]
      exact fits
  · rw [self.whole whole, List.map_append, Frames.join, Frames.join, List.flatMap_append,
      List.append_nil, List.map_singleton, List.flatMap_singleton, written]

theorem cut (self : Holds file recorded) (whole : Frames.Whole file) {e : JournalEntry}
    (short : (encode e).length < Frames.most) {n : ℕ} (part : n < (written e).length) :
    Holds (file ++ (written e).take n) recorded :=
  ⟨self.fits, _, congrArg (· ++ (written e).take n) (self.whole whole),
    Frames.torn_take short part⟩

theorem frames_read [Blake3] (fits : ∀ e ∈ recorded, Fits e)
    (out : BTreeMap Bytes32 JournalEntry) :
    (recorded.map encode).foldl readFrame out =
      recorded.foldl (fun out e => out.insert (keyDigest e.key) e) out := by
  induction recorded generalizing out with
  | nil => rfl
  | cons e recorded ih =>
    obtain ⟨first, fits⟩ := List.forall_mem_cons.mp fits
    have one : readFrame out (encode e) = out.insert (keyDigest e.key) e := by
      rw [readFrame, decode_encode first.1 first.2]
    rw [List.map_cons, List.foldl_cons, List.foldl_cons, one, ih fits]

theorem entries [Blake3] (self : Holds file recorded) (key : Bytes32) :
    (entries file).get key = newest recorded key := by
  obtain ⟨tail, split, -⟩ := self.split
  rw [Journal.entries, split, ← get_inserted, frames_read self.fits]

end Holds

/-- What a journal has to be like, and what is recorded, for a step to lose nothing: bytes
are only ever added to a file that ends with a whole frame. -/
def Met (file : Bytes) : Event → Prop
  | .record e => Frames.Whole file ∧ Fits e
  | .kill e n => n = 0 ∨ Frames.Whole file ∧ (encode e).length < Frames.most ∧
      ((written e).length ≤ n → Written e)
  | .reopen => True
  | .forget _ => True

variable [Blake3]

theorem step_holds {j : Journal} {recorded : List JournalEntry} (holds : Holds j.file recorded)
    {event : Event} (met : Met j.file event) :
    Holds (step j event).file (recorded ++ (completed event).toList) := by
  cases event with
  | record e => exact holds.record met.1 met.2
  | kill e n =>
    rw [completed]
    split
    · rename_i late
      rcases met with rfl | ⟨whole, short, nfc⟩
      · rw [written, Frames.frame_length] at late
        omega
      · have all : (written e).take n = written e := List.take_of_length_le late
        rw [step, openOn, all]
        exact holds.record whole ⟨nfc late, short⟩
    · rename_i part
      rw [Option.toList_none, List.append_nil]
      rcases met with rfl | ⟨whole, short, -⟩
      · rw [step, openOn, List.take_zero, List.append_nil]
        exact holds
      · exact holds.cut whole short (by omega)
  | reopen =>
    rw [completed, Option.toList_none, List.append_nil]
    exact holds
  | forget aliasName =>
    rw [completed, Option.toList_none, List.append_nil]
    exact holds

/-- Every step is taken where it loses nothing. -/
def Sound (j : Journal) : List Event → Prop
  | [] => True
  | event :: events => Met j.file event ∧ Sound (step j event) events

theorem sound_upto {events reached : List Event} {j : Journal} (sound : Sound j events)
    (part : reached <+: events) : Sound j reached := by
  induction reached generalizing j events with
  | nil => trivial
  | cons event reached ih =>
    obtain ⟨after, rfl⟩ := part
    exact ⟨sound.1, ih sound.2 ⟨after, rfl⟩⟩

theorem run_holds {events : List Event} {j : Journal} {recorded : List JournalEntry}
    (holds : Holds j.file recorded) (sound : Sound j events) :
    Holds (events.foldl step j).file (recorded ++ events.filterMap completed) := by
  induction events generalizing j recorded with
  | nil =>
    rw [List.filterMap_nil, List.append_nil]
    exact holds
  | cons event events ih =>
    have later := ih (step_holds holds sound.1) sound.2
    have split : (event :: events).filterMap completed =
        (completed event).toList ++ events.filterMap completed := by
      cases done : completed event <;> simp [done]
    rw [split, ← List.append_assoc]
    exact later

/-- In every run that only ever adds to whole frames, whatever has been reached, what is read
back is the newest entry whose record was completed, for every key. -/
theorem journal_survives (events : List Event) (sound : Sound (openOn []) events)
    (reached : List Event) (part : reached <+: events) :
    let read := openOn (run reached).file
    let recorded := reached.filterMap completed
    (∀ digest, read.done.get digest = newest recorded digest) ∧
      ∀ key : JournalKey,
        (∀ e ∈ recorded, keyDigest e.key = keyDigest key → e.key = key) →
          read.done.get (keyDigest key) = recorded.reverse.find? (fun e => e.key == key) := by
  have holds := run_holds Holds.start (sound_upto sound part)
  refine ⟨holds.entries, fun key apart => ?_⟩
  rw [← newest_of_apart apart]
  exact holds.entries (keyDigest key)

end

section
local instance plainJournalText : Unicode := .plain
local instance modPrimeJournalHash : Blake3 := .modPrime

def windowAt (first : UInt64) : JournalEntry where
  key := ⟨"kjv", ⟨⟨List.replicate 32 1, Bytes32.width_one⟩⟩, (first, first + 100),
    ⟨List.replicate 32 2, List.length_replicate⟩⟩
  batch := ⟨List.replicate 32 7, List.length_replicate⟩
  digest := ⟨List.replicate 32 9, List.length_replicate⟩
  inputTokens := 1200
  outputTokens := 340
  lang := "en"
  calls := 3
  retries := 1
  pivots := 0
  verdicts := ⟨3, 1, 0⟩

/-- A kill in the middle of the second record. -/
theorem kill_keeps_earlier :
    (openOn (run [.record (windowAt 0), .kill (windowAt 100) 5, .reopen]).file).done.get
      (keyDigest (windowAt 0).key) = some (windowAt 0) := by
  have survives := (journal_survives [.record (windowAt 0), .kill (windowAt 100) 5, .reopen]
    ⟨⟨by decide +kernel, ⟨rfl, rfl⟩, by decide +kernel⟩,
      ⟨Or.inr ⟨by decide +kernel, by decide +kernel, fun _ => ⟨rfl, rfl⟩⟩, trivial, trivial⟩⟩ _
    List.prefix_rfl).1 (keyDigest (windowAt 0).key)
  rw [survives]
  decide +kernel

/-- A window recorded after a torn tail is recorded and not read back. -/
theorem torn_tail_loses_later :
    newest ([Event.kill (windowAt 0) 5, .reopen, .record (windowAt 100)].filterMap completed)
      (keyDigest (windowAt 100).key) = some (windowAt 100) ∧
    (openOn (run [.kill (windowAt 0) 5, .reopen, .record (windowAt 100)]).file).done.get
      (keyDigest (windowAt 100).key) = none := by
  refine ⟨?_, ?_⟩ <;> decide +kernel

end
end Journal
end Smysl
