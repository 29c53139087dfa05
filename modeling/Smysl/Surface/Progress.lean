import Smysl.Core.Edtf.Canonical
import Smysl.Surface.OrderFree
import Smysl.Surface.Slices

/-!
The record loop moves on. Every record parser, where it is not stuck, leaves the cursor past
the line it started at, whether it has a value or gives up; it is stuck just where it hands
the date reader a text with a year cut inside a character. So a document is read, or
refused, unless the loop comes to such a line.
-/
open Relation

namespace Smysl
open ByteString Utf8 Attempt

/-! The date a record hands to the date reader. -/

/-- The date text of a source, where it comes to it. -/
def sourceDate (v : HValue) : Option String := do
  let h ← sourceHead v
  let c ← HObject.get h.fields "published"
  dateText c

/-- The date text of the record at a line, where its parser comes to it: what a dating says
under `when`, and what a unit's or a manifest's source says under `published`. -/
def handedDate (src : List Char) (l : Line) : Option String :=
  match l.kind with
  | .dateStart => do
    let (target, header, _) ← (recordLine src "@date" dateTarget l).join
    let (_, _, header) ← datingHead target header
    let v ← (header.take "when").1
    dateText v
  | .manifestStart => do
    let (aliasName, header, _) ← (recordLine src "@manifest" manifestAlias l).join
    let m ← manifestHead aliasName header
    let v ← (m.rest.take "origin").1
    sourceDate v
  | .recordStart => do
    let u ← (unitHead src l).join
    let v ← (u.rest.take "source").1
    sourceDate v
  | _ => none

/-- Its date has a year that is cut inside a character. -/
def HandsCutDate (src : List Char) (l : Line) : Prop :=
  ∃ text, handedDate src l = some text ∧ Edtf.Cut (utf8 text)

theorem accept_date_stuck_iff (text : String) :
    acceptDate text = none ↔ Edtf.Cut (utf8 text) := by
  rw [← Edtf.parse_panics_iff, acceptDate]
  split
  · rename_i run
    rw [run]
    exact ⟨nofun, nofun⟩
  · rename_i run
    exact ⟨fun _ => run, fun _ => rfl⟩
  · rename_i refusal other run
    rw [run]
    exact ⟨nofun, fun same => absurd (Except.error.inj same) other⟩

theorem source_stuck_iff (v : HValue) :
    source v = none ↔ ∃ text, sourceDate v = some text ∧ Edtf.Cut (utf8 text) := by
  rw [source, sourceDate]
  cases head : sourceHead v with
  | none => simp
  | some h =>
    dsimp only [Option.bind_eq_bind, Option.bind_some]
    cases published : HObject.get h.fields "published" with
    | none => simp
    | some c =>
      dsimp only [Option.bind_some]
      cases text : dateText c with
      | none => simp
      | some t => simp [accept_date_stuck_iff]

/-- At a line. -/
def Scan.At (i : Nat) (s : Scan) : Prop := s.i = i

/-- Past a line. -/
def Scan.Past (i : Nat) (s : Scan) : Prop := i < s.i

/-- From a line it goes past it, with a value or without. -/
def Moves {α : Type} (i : Nat) (p : Attempt Scan α) : Prop :=
  Ensures (Scan.At i) p (fun _ => Scan.Past i) (Scan.Past i)

/-- From past a line it stays past it. -/
def StaysPast {α : Type} (i : Nat) (p : Attempt Scan α) : Prop :=
  Ensures (Scan.Past i) p (fun _ => Scan.Past i) (Scan.Past i)

/-! The cursor. -/

section
variable {α β : Type} {lines : List Line} {i : Nat}

/-- A line that starts before a byte is passed on the way past it. -/
theorem line_past_moves {l : Line} {stop : Nat} (here : lines[i]? = some l)
    (before : l.start < stop) : i < linePast lines stop i := by
  obtain ⟨inside, same⟩ := List.getElem?_eq_some_iff.mp here
  rw [linePast, List.drop_eq_getElem_cons inside, same, List.takeWhile_cons, if_pos (by simpa)]
  simp

/-- Skipping to the next record goes past the line. -/
theorem refuse_moves {P : Scan → Prop} {Q : α → Scan → Prop} (le : ∀ s, P s → i ≤ s.i) :
    Ensures P (refuse lines) Q (Scan.Past i) := by
  apply Ensures.bind (Q := fun _ => Scan.Past i)
  · apply Ensures.update
    intro s before
    have at_ := le s before
    change i < s.i + 1 + _
    omega
  · intro _
    exact Ensures.failed (fun s past => past)

theorem or_refuse_moves {P : Scan → Prop} (le : ∀ s, P s → i ≤ s.i) (o : Option α) :
    Ensures P (orRefuse lines o) (fun a s => o = some a ∧ P s) (Scan.Past i) := by
  cases o with
  | none => exact refuse_moves le
  | some a => exact Ensures.pure (fun s before => ⟨rfl, before⟩)

theorem or_refuse_at (o : Option α) :
    Ensures (Scan.At i) (orRefuse lines o) (fun _ => Scan.At i) (Scan.Past i) :=
  (or_refuse_moves (fun _ at_ => at_.ge) o).weaken (fun _ at_ => at_) (fun _ _ held => held.2)
    (fun _ past => past)

/-- A reading that is not stuck gives its value at the same line. -/
theorem read_or_at {o : Option (Option α)} (returns : ∃ a, o = some a) :
    Ensures (Scan.At i) (readOr lines o) (fun a s => o = some (some a) ∧ Scan.At i s)
      (Scan.Past i) := by
  obtain ⟨read, rfl⟩ := returns
  apply Ensures.bind (Q := fun a s => a = read ∧ Scan.At i s)
  · exact Ensures.taken rfl (fun _ at_ => ⟨rfl, at_⟩)
  · intro a
    apply (or_refuse_moves (P := fun s => a = read ∧ Scan.At i s) (fun _ held => held.2.ge)
      a).weaken (fun _ held => held) _ (fun _ past => past)
    rintro b s ⟨rfl, rfl, at_⟩
    exact ⟨rfl, at_⟩

theorem given_past (o : Option α) : StaysPast i (given o) :=
  Ensures.given (fun _ _ _ past => past) (fun _ past => past)

theorem advance_moves {l : Line} {stop : Nat} {P R : Scan → Prop} (here : lines[i]? = some l)
    (before : ∀ s, P s → Scan.At i s ∧ l.start < stop) :
    Ensures P (advancePast lines stop) (fun _ => Scan.Past i) R := by
  apply Ensures.update
  intro s held
  obtain ⟨rfl, starts⟩ := before s held
  exact line_past_moves here starts

theorem forward_past (n : Nat) : StaysPast i (forward n) :=
  Ensures.update (fun s past => Nat.lt_of_lt_of_le past (Nat.le_add_right s.i n))

theorem StaysPast.bind {p : Attempt Scan α} {f : α → Attempt Scan β} (first : StaysPast i p)
    (next : ∀ a, StaysPast i (f a)) : StaysPast i (p >>= f) :=
  Ensures.bind first next

theorem Moves.bind {p : Attempt Scan α} {f : α → Attempt Scan β} (first : Moves i p)
    (next : ∀ a, StaysPast i (f a)) : Moves i (p >>= f) :=
  Ensures.bind first next

theorem current_past : StaysPast i (current : Attempt Scan Scan) :=
  Ensures.current (fun _ past => past)

theorem pure_past (a : α) : StaysPast i (pure a : Attempt Scan α) :=
  Ensures.pure (fun _ past => past)

theorem failed_past : StaysPast i (failed : Attempt Scan α) :=
  Ensures.failed (fun _ past => past)

theorem taken_past {o : Option α} (returns : ∃ a, o = some a) : StaysPast i (taken o) := by
  obtain ⟨a, held⟩ := returns
  exact Ensures.taken held (fun _ past => past)

theorem taken_at {o : Option α} {R : Scan → Prop} (returns : ∃ a, o = some a) :
    Ensures (Scan.At i) (taken o) (fun _ => Scan.At i) R := by
  obtain ⟨a, held⟩ := returns
  exact Ensures.taken held (fun _ at_ => at_)

end

/-! Up to a record's header. -/

section
variable {src : List Char} {lines : List Line} {i : Nat} {l : Line}

/-- A line of a record: one of the document's, at the cursor. -/
structure RecordLine (src : List Char) (lines : List Line) (i : Nat) (l : Line) : Prop where
  here : lines[i]? = some l
  in_ : l.In src
  filled : l.text ≠ []
  classed : ∀ l ∈ lines, classifyLine l.text = some l.kind

theorem header_returns (r : RecordLine src lines i l) : ∃ h, headerObject src l = some h := by
  rcases header_object_returns r.in_ r.filled with refused | ⟨h, stop, read, _⟩
  · exact ⟨none, refused⟩
  · exact ⟨_, read⟩

/-- A header ends past the start of its line. -/
theorem header_past {h : Header} {stop : Nat} (r : RecordLine src lines i l)
    (read : headerObject src l = some (some (h, stop))) : l.start < stop := by
  rcases header_object_returns r.in_ r.filled with refused | ⟨h', stop', read', past⟩
  · rw [refused] at read
    cases read
  · rw [read'] at read
    cases read
    exact past

theorem header_or_at (r : RecordLine src lines i l) :
    Ensures (Scan.At i) (readOr lines (headerObject src l))
      (fun h s => Scan.At i s ∧ l.start < h.2) (Scan.Past i) := by
  apply (read_or_at (header_returns r)).weaken (fun _ at_ => at_) _ (fun _ past => past)
  rintro ⟨h, stop⟩ s ⟨read, at_⟩
  exact ⟨at_, header_past r read⟩

variable {τ : Type} {word : String} {target : List Char → Option (Option τ)}

theorem record_line_returns (returns : ∀ text, ∃ t, target text = some t)
    (r : RecordLine src lines i l) : ∃ x, recordLine src word target l = some x := by
  obtain ⟨text, cut⟩ := target_text_returns word l
  obtain ⟨h, read⟩ := header_returns r
  rw [recordLine, cut]
  cases text with
  | none => exact ⟨none, rfl⟩
  | some text =>
    obtain ⟨t, named⟩ := returns text
    dsimp only [Option.bind_eq_bind, Option.bind_some]
    rw [named, read]
    cases t <;> exact ⟨_, rfl⟩

theorem record_line_past {t : τ} {h : Header} {stop : Nat} (r : RecordLine src lines i l)
    (read : recordLine src word target l = some (some (t, h, stop))) : l.start < stop := by
  obtain ⟨text, _, read⟩ := Option.bind_eq_some_iff.mp read
  cases text with
  | none => cases read
  | some text =>
    obtain ⟨named, _, read⟩ := Option.bind_eq_some_iff.mp read
    cases named with
    | none => cases read
    | some named =>
      obtain ⟨header, at_, same⟩ := Option.map_eq_some_iff.mp read
      cases header with
      | none => cases same
      | some header =>
        cases same
        exact header_past r at_

/-- A header that is read is passed. -/
theorem record_head_moves (returns : ∀ text, ∃ t, target text = some t)
    (r : RecordLine src lines i l) :
    Ensures (Scan.At i) (recordHead src lines word target l)
      (fun x s => (∃ stop, recordLine src word target l = some (some (x.1, x.2, stop))) ∧
        Scan.Past i s) (Scan.Past i) := by
  apply Ensures.bind (read_or_at (record_line_returns returns r))
  rintro ⟨t, header, stop⟩ s ⟨read, at_⟩
  have starts := lt_of_lt_of_le (record_line_past r read) (Nat.le_max_left stop l.stop)
  have moved : Ensures (Scan.At i) (advancePast lines (max stop l.stop)) (fun _ => Scan.Past i)
      (Scan.Past i) := advance_moves r.here (fun _ at_ => ⟨at_, starts⟩)
  apply Ensures.bind moved _ s at_
  intro _
  exact Ensures.pure (fun _ past => ⟨⟨stop, read⟩, past⟩)

theorem record_moves {β : Type} {f : τ → Header → Option β}
    (returns : ∀ text, ∃ t, target text = some t) (r : RecordLine src lines i l) :
    Moves i (recordHead src lines word target l >>= fun x => given (f x.1 x.2)) := by
  apply Ensures.bind (record_head_moves returns r)
  rintro ⟨target, header⟩
  exact (given_past _).weaken (fun _ held => held.2) (fun _ _ past => past) (fun _ past => past)

theorem commit_moves (r : RecordLine src lines i l) : Moves i (commitRecord src lines l) :=
  record_moves (fun _ => ⟨_, rfl⟩) r

theorem lifecycle_moves (withdraw : Bool) (r : RecordLine src lines i l) :
    Moves i (lifecycleRecord src lines withdraw l) :=
  record_moves (lifecycle_target_returns withdraw) r

theorem redact_moves (r : RecordLine src lines i l) : Moves i (redactRecord src lines l) :=
  record_moves (fun _ => ⟨_, rfl⟩) r

theorem schema_decl_moves [Unicode] (r : RecordLine src lines i l) :
    Moves i (schemaDecl src lines l) := by
  apply Ensures.bind (or_refuse_at _)
  intro id
  apply Ensures.bind (header_or_at r)
  rintro ⟨header, stop⟩
  apply Ensures.bind (advance_moves r.here _)
  · intro _
    exact given_past _
  · rintro s ⟨at_, starts⟩
    exact ⟨at_, lt_of_lt_of_le starts (Nat.le_max_left stop l.stop)⟩

/-! Texts under a header. -/

theorem block_past (through : Bool) : StaysPast i (block lines through) := by
  apply StaysPast.bind current_past
  intro s
  apply StaysPast.bind (Ensures.update _)
  · intro _
    exact pure_past _
  · intro s past
    exact Nat.lt_of_lt_of_le past (Nat.le_add_right s.i _)

theorem gist_moves (here : lines[i]? = some l) {stop : Nat} (starts : l.start < stop) :
    Moves i (gistBodyDetail lines stop) := by
  apply Moves.bind (advance_moves here (fun _ at_ => ⟨at_, starts⟩))
  intro _
  apply StaysPast.bind current_past
  intro s
  apply StaysPast.bind (given_past _)
  intro gist_line
  split
  · exact failed_past
  · apply StaysPast.bind (forward_past _)
    intro _
    dsimp only
    split
    · exact failed_past
    · apply StaysPast.bind (block_past false)
      intro body
      apply StaysPast.bind current_past
      intro s
      split
      · apply StaysPast.bind (forward_past 1)
        intro _
        apply StaysPast.bind (block_past true)
        intro detail
        exact pure_past _
      · apply StaysPast.bind (pure_past none)
        intro detail
        exact pure_past _

theorem thread_moves (r : RecordLine src lines i l) : Moves i (thread src lines l) := by
  apply Ensures.bind (taken_at (head_text_returns r.in_))
  intro head
  apply Ensures.bind (or_refuse_at _)
  intro id
  apply Ensures.bind (header_or_at r)
  rintro ⟨header, stop⟩
  by_cases starts : l.start < stop
  · apply Ensures.bind (Q := fun _ => Scan.At i)
    · exact (or_refuse_at _).weaken (fun _ held => held.1) (fun _ _ at_ => at_) (fun _ past => past)
    · intro schema
      apply Ensures.bind (or_refuse_at _)
      intro owner
      apply Moves.bind (advance_moves r.here (fun _ at_ => ⟨at_, starts⟩))
      intro _
      apply StaysPast.bind current_past
      intro s
      apply StaysPast.bind (forward_past _)
      intro _
      apply StaysPast.bind current_past
      intro s
      apply StaysPast.bind (taken_past (thread_steps_returns _))
      · rintro ⟨steps, passed⟩
        apply StaysPast.bind (forward_past _)
        intro _
        exact pure_past _
      · intro k mem
        exact r.classed k (List.mem_of_mem_drop mem)
  · exact fun s held => absurd held.2 starts

/-- A line of a record starts with its sigil. -/
theorem record_sigil {line : List Char} (start : classifyLine line = some .recordStart) :
    ∃ rest, line = '@' :: rest := by
  rw [classifyLine] at start
  split_ifs at start with blank separator comment sigil gist
  case pos => cases start
  case pos => cases start
  case pos => cases start
  case pos => exact List.head?_eq_some_iff.mp sigil
  case pos => cases start
  case neg =>
    obtain ⟨step, _, same⟩ := Option.map_eq_some_iff.mp start
    split at same <;> cases same

theorem unit_name_returns (r : RecordLine src lines i l) (start : l.kind = .recordStart) :
    ∃ named, unitName src l = some named := by
  have mem : l ∈ lines := List.mem_of_getElem? r.here
  obtain ⟨rest, text⟩ := record_sigil (start ▸ r.classed l mem)
  obtain ⟨head, cut⟩ := head_text_returns r.in_
  have sliced : sliceFrom 1 l.text = some rest := by
    rw [text]
    exact slice_from_append ['@'] rest
  rw [unitName, sliced, cut]
  dsimp only [Option.bind_eq_bind, Option.bind_some]
  split
  · exact ⟨_, rfl⟩
  · split <;> exact ⟨_, rfl⟩

theorem unit_head_returns (r : RecordLine src lines i l) (start : l.kind = .recordStart) :
    ∃ u, unitHead src l = some u := by
  obtain ⟨named, name⟩ := unit_name_returns r start
  obtain ⟨h, read⟩ := header_returns r
  rw [unitHead, name, read]
  cases named <;> exact ⟨_, rfl⟩

theorem unit_head_past {u : UnitHead} (r : RecordLine src lines i l)
    (read : unitHead src l = some (some u)) : l.start < u.stop := by
  obtain ⟨named, _, read⟩ := Option.bind_eq_some_iff.mp read
  cases named with
  | none => cases read
  | some named =>
    obtain ⟨header, at_, same⟩ := Option.map_eq_some_iff.mp read
    cases header with
    | none => cases same
    | some header =>
      obtain ⟨h, stop⟩ := header
      dsimp only [Option.bind_some] at same
      obtain ⟨status, _, same⟩ := Option.bind_eq_some_iff.mp same
      cases same
      exact header_past r at_

theorem unit_from_moves [Unicode] (here : lines[i]? = some l) {u : UnitHead}
    (starts : l.start < u.stop) (source : Option SourceRef) (h : Header) :
    Moves i (unitFrom src lines u source h) := by
  apply Ensures.bind (or_refuse_at _)
  rintro ⟨lang, h⟩
  apply Moves.bind
  · exact Ensures.rescue (gist_moves here starts) (refuse_moves (fun _ past => le_of_lt past))
  · rintro ⟨gist, body, detail⟩
    exact pure_past _

/-! Records with a date. -/

theorem allen_value_past (allens : List Allen) (h : Header) (found : Option RawValue) :
    StaysPast i (allenValue lines allens h found) := by
  induction allens generalizing h found with
  | nil =>
    apply StaysPast.bind (given_past found)
    intro value
    exact pure_past _
  | cons allen rest ih =>
    rw [allenValue]
    split
    · exact ih h found
    · split
      · exact failed_past
      · apply StaysPast.bind (given_past _)
        intro text
        apply StaysPast.bind
        · exact (or_refuse_moves (fun _ past => le_of_lt past) _).weaken (fun _ past => past)
            (fun _ _ held => held.2) (fun _ past => past)
        · intro target
          exact ih _ _

theorem date_offset_past (rest : Header) (absolute : Option RawValue) : StaysPast i (do
    let found ← match (rest.take "offset").1 with
      | none => pure absolute
      | some v =>
        if absolute.isSome then failed
        else do
          let ms ← given v.asInt
          pure (some (RawValue.offset ms))
    allenValue lines Allen.all (rest.take "offset").2 found) := by
  split
  · apply StaysPast.bind (pure_past absolute)
    exact allen_value_past Allen.all _
  · split
    · apply StaysPast.bind failed_past
      exact allen_value_past Allen.all _
    · apply StaysPast.bind (given_past _)
      intro ms
      apply StaysPast.bind (pure_past _)
      exact allen_value_past Allen.all _

/-- A value is read where the date reader is not stuck. -/
theorem date_value_past {h : Header}
    (read : ∀ v text, (h.take "when").1 = some v → dateText v = some text →
      ¬ Edtf.Cut (utf8 text)) : StaysPast i (dateValue lines h) := by
  rw [dateValue]
  rcases taken : h.take "when" with ⟨when_, rest⟩
  dsimp only
  split
  · apply StaysPast.bind (pure_past none)
    exact date_offset_past rest
  · rename_i v
    apply Ensures.bind (Q := fun text s => dateText v = some text ∧ Scan.Past i s)
    · exact Ensures.given (fun _ _ same past => ⟨same, past⟩) (fun _ past => past)
    · rintro text s ⟨same, past⟩
      have not_cut := read v text (by rw [taken]) same
      have accepts : ∃ a, acceptDate text = some a :=
        Option.ne_none_iff_exists'.mp fun stuck => not_cut ((accept_date_stuck_iff text).mp stuck)
      apply StaysPast.bind (taken_past accepts) _ s past
      intro accepted
      apply StaysPast.bind (given_past accepted)
      intro text
      apply StaysPast.bind (pure_past _)
      exact date_offset_past rest

theorem date_value_stuck {h : Header} {v : HValue} {text : String} (s : Scan)
    (when_ : (h.take "when").1 = some v) (same : dateText v = some text)
    (cut : Edtf.Cut (utf8 text)) : dateValue lines h s = none := by
  rw [dateValue]
  rcases taken : h.take "when" with ⟨value, rest⟩
  rw [taken] at when_
  cases when_
  dsimp only
  rw [same]
  apply (bind_value (show given (some text) s = some (some text, s) from rfl)).trans
  apply bind_stuck
  change (acceptDate text).map _ = none
  rw [(accept_date_stuck_iff text).mpr cut]
  rfl

theorem date_record_moves (r : RecordLine src lines i l) (start : l.kind = .dateStart)
    (read : ¬ HandsCutDate src l) : Moves i (dateRecord src lines l) := by
  have named : ∀ text, ∃ t, dateTarget text = some t := fun _ => ⟨_, rfl⟩
  apply Ensures.bind (record_head_moves named r)
  rintro ⟨target, header⟩ s ⟨⟨stop, at_⟩, past⟩
  apply Ensures.bind (Q := fun x s => datingHead target header = some x ∧ Scan.Past i s) _ _ s past
  · exact Ensures.given (fun _ _ same past => ⟨same, past⟩) (fun _ past => past)
  · rintro ⟨axis, narrowed, rest⟩ s ⟨headed, past⟩
    apply StaysPast.bind (date_value_past _) _ s past
    · intro v text when_ same cut
      refine read ⟨text, ?_, cut⟩
      simp [handedDate, start, at_, headed, when_, same]
    · rintro ⟨value, header⟩
      exact given_past _

theorem record_head_runs (lines : List Line) {t : τ} {h : Header} {stop : Nat} (s : Scan)
    (read : recordLine src word target l = some (some (t, h, stop))) :
    ∃ s', recordHead src lines word target l s = some (some (t, h), s') := by
  rw [recordHead, readOr, read]
  exact ⟨_, rfl⟩

theorem date_record_stuck (s : Scan) (start : l.kind = .dateStart) (cut : HandsCutDate src l) :
    dateRecord src lines l s = none := by
  obtain ⟨text, handed, cut⟩ := cut
  rw [handedDate, start] at handed
  dsimp only at handed
  obtain ⟨⟨target, header, stop⟩, at_, handed⟩ := Option.bind_eq_some_iff.mp handed
  obtain ⟨⟨axis, narrowed, rest⟩, headed, handed⟩ := Option.bind_eq_some_iff.mp handed
  obtain ⟨v, when_, same⟩ := Option.bind_eq_some_iff.mp handed
  obtain ⟨s', run⟩ := record_head_runs lines s (Option.join_eq_some_iff.mp at_)
  rw [dateRecord, bind_value run]
  dsimp only
  rw [headed]
  apply (bind_value (show given _ s' = some (some (axis, narrowed, rest), s') from rfl)).trans
  exact bind_stuck (date_value_stuck s' when_ same cut)

theorem unit_moves [Unicode] (r : RecordLine src lines i l) (start : l.kind = .recordStart)
    (read : ¬ HandsCutDate src l) : Moves i (unit src lines l) := by
  apply Ensures.bind (read_or_at (unit_head_returns r start))
  rintro u s ⟨headed, at_⟩
  have past := unit_head_past r headed
  rcases taken : u.rest.take "source" with ⟨v, h⟩
  cases v with
  | none =>
    dsimp only
    exact unit_from_moves r.here past none h s at_
  | some v =>
    dsimp only
    have returns : ∃ o, source v = some o := by
      apply Option.ne_none_iff_exists'.mp
      intro stuck
      obtain ⟨text, dated, cut⟩ := (source_stuck_iff v).mp stuck
      exact read ⟨text, by simp [handedDate, start, headed, taken, dated], cut⟩
    apply Ensures.bind ((read_or_at returns).weaken (fun _ at_ => at_) (fun _ _ held => held.2)
      (fun _ past => past)) _ s at_
    intro source
    exact unit_from_moves r.here past (some source) h

theorem unit_stuck [Unicode] (s : Scan) (start : l.kind = .recordStart)
    (cut : HandsCutDate src l) : unit src lines l s = none := by
  obtain ⟨text, handed, cut⟩ := cut
  rw [handedDate, start] at handed
  dsimp only at handed
  obtain ⟨u, headed, handed⟩ := Option.bind_eq_some_iff.mp handed
  obtain ⟨v, source_, dated⟩ := Option.bind_eq_some_iff.mp handed
  rcases taken : u.rest.take "source" with ⟨value, h⟩
  rw [taken] at source_
  cases source_
  have stuck := (source_stuck_iff v).mpr ⟨text, dated, cut⟩
  have run : readOr lines (unitHead src l) s = some (some u, s) := by
    rw [readOr, Option.join_eq_some_iff.mp headed]
    rfl
  rw [unit, bind_value run, taken]
  dsimp only
  apply bind_stuck
  rw [readOr, stuck]
  rfl

theorem manifest_moves (r : RecordLine src lines i l) (start : l.kind = .manifestStart)
    (read : ¬ HandsCutDate src l) : Moves i (manifestRecord src lines l) := by
  have named : ∀ text, ∃ t, manifestAlias text = some t := fun _ => ⟨_, rfl⟩
  apply Ensures.bind (record_head_moves named r)
  rintro ⟨aliasName, header⟩ s ⟨⟨stop, at_⟩, past⟩
  have returns : ∃ m, manifestOf aliasName header = some m := by
    rw [manifestOf]
    cases headed : manifestHead aliasName header with
    | none => exact ⟨none, rfl⟩
    | some m =>
      rcases taken : m.rest.take "origin" with ⟨v, h⟩
      cases v with
      | none =>
        simp only [taken]
        exact ⟨_, rfl⟩
      | some v =>
        obtain ⟨o, origin⟩ : ∃ o, source v = some o := by
          apply Option.ne_none_iff_exists'.mp
          intro stuck
          obtain ⟨text, dated, cut⟩ := (source_stuck_iff v).mp stuck
          exact read ⟨text, by simp [handedDate, start, at_, headed, taken, dated], cut⟩
        simp only [taken, origin, Option.map_some]
        exact ⟨_, rfl⟩
  apply StaysPast.bind (taken_past returns) _ s past
  intro manifest
  exact given_past manifest

theorem manifest_stuck (s : Scan) (start : l.kind = .manifestStart) (cut : HandsCutDate src l) :
    manifestRecord src lines l s = none := by
  obtain ⟨text, handed, cut⟩ := cut
  rw [handedDate, start] at handed
  dsimp only at handed
  obtain ⟨⟨aliasName, header, stop⟩, at_, handed⟩ := Option.bind_eq_some_iff.mp handed
  obtain ⟨m, headed, handed⟩ := Option.bind_eq_some_iff.mp handed
  obtain ⟨v, origin, dated⟩ := Option.bind_eq_some_iff.mp handed
  rcases taken : m.rest.take "origin" with ⟨value, h⟩
  rw [taken] at origin
  cases origin
  have stuck := (source_stuck_iff v).mpr ⟨text, dated, cut⟩
  obtain ⟨s', run⟩ := record_head_runs lines s (Option.join_eq_some_iff.mp at_)
  rw [manifestRecord, bind_value run]
  apply bind_stuck
  rw [manifestOf, headed]
  simp only [taken, stuck, Option.map_none]
  rfl

end

/-! The loop. -/

section
variable [Unicode] {src : List Char} {lines : List Line}

/-- At a line the document is refused, or the cursor moves on. -/
def MovesOn (src : List Char) (lines : List Line) (l : Line) (st : SurfaceParser) : Prop :=
  (∃ e, atLine src lines l st = some (.error e)) ∨
    ∃ st', atLine src lines l st = some (.ok st') ∧ st.scan.i < st'.scan.i

omit [Unicode] in
theorem collect_moves {α : Type} {p : Attempt Scan α} {push : α → RawDocument → RawDocument}
    {st : SurfaceParser} (moves : Moves st.scan.i p) :
    ∃ st', collect p push st = some st' ∧ st.scan.i < st'.scan.i := by
  rw [collect]
  rcases moves st.scan rfl with ⟨a, s', run, past⟩ | ⟨s', run, past⟩
  all_goals
    rw [run]
    exact ⟨_, rfl, past⟩

omit [Unicode] in
theorem update_moves {i : Nat} {f : Scan → Scan} (later : ∀ s, Scan.At i s → Scan.Past i (f s)) :
    Moves i (update f) :=
  Ensures.update later

omit [Unicode] in
theorem recover_moves (i : Nat) : Moves i (recover lines) := by
  apply update_moves
  rintro s rfl
  change s.i < s.i + 1 + _
  omega

omit [Unicode] in
theorem forward_moves (i : Nat) : Moves i (forward 1) := by
  apply update_moves
  rintro s rfl
  exact Nat.lt_succ_self s.i

omit [Unicode] in
theorem record_line {l : Line} {i : Nat} (lexed : lex src = some lines)
    (here : lines[i]? = some l) (filled : l.kind ≠ .blank) : RecordLine src lines i l := by
  obtain ⟨lines', lexed', each⟩ := lex_returns src
  rw [lexed] at lexed'
  cases lexed'
  obtain ⟨in_, classed⟩ := each l (List.mem_of_getElem? here)
  refine ⟨here, in_, ?_, fun k mem => (each k mem).2⟩
  intro empty
  rw [empty] at classed
  exact filled (Option.some.inj classed).symm

theorem collected_moves_on {α : Type} {p : Attempt Scan α}
    {push : α → RawDocument → RawDocument} {l : Line} {st : SurfaceParser}
    (same : atLine src lines l st = (collect p push st).map .ok) (moves : Moves st.scan.i p) :
    MovesOn src lines l st := by
  have moved : ∃ st', collect p push st = some st' ∧ st.scan.i < st'.scan.i :=
    collect_moves moves
  obtain ⟨st', run, past⟩ := moved
  exact .inr ⟨st', by rw [same, run]; rfl, past⟩

theorem at_doc_header {l : Line} {st : SurfaceParser} (kind : l.kind = .docHeader) :
    atLine src lines l st = (docHeader src l).map fun header =>
      header.map fun (version, view, stop) =>
        { st with
          scan := { st.scan with i := linePast lines stop st.scan.i }
          formatVersion := version
          document := { st.document with view := some view } } := by
  rw [atLine, kind]

theorem doc_header_moves_on {l : Line} {st : SurfaceParser} (kind : l.kind = .docHeader)
    (r : RecordLine src lines st.scan.i l) : MovesOn src lines l st := by
  rw [MovesOn, at_doc_header kind, docHeader]
  dsimp only
  split
  · exact .inl ⟨_, rfl⟩
  · rcases header_object_returns r.in_ r.filled with refused | ⟨h, stop, read, past⟩
    · rw [refused]
      exact .inl ⟨_, rfl⟩
    · rw [read]
      dsimp only [Option.map_some]
      split
      · exact .inl ⟨_, rfl⟩
      · exact .inr ⟨_, rfl, line_past_moves r.here past⟩

/-- A relation's line is passed, whatever is read of it. -/
theorem relation_moves_on {l : Line} {st : SurfaceParser} (kind : l.kind = .relLine)
    (r : RecordLine src lines st.scan.i l) : MovesOn src lines l st := by
  obtain ⟨relation, read⟩ := relation_returns r.in_
  rw [MovesOn, atLine, kind]
  dsimp only
  rw [read]
  cases relation with
  | none => exact .inr ⟨_, rfl, Nat.lt_succ_self _⟩
  | some relation => exact .inr ⟨_, rfl, Nat.lt_succ_self _⟩

/-- Each line is refused or passed, unless its record hands over a date that is cut. -/
theorem at_line_moves {l : Line} {st : SurfaceParser} (lexed : lex src = some lines)
    (here : lines[st.scan.i]? = some l) (read : ¬ HandsCutDate src l) :
    MovesOn src lines l st := by
  have r := record_line lexed here
  cases kind : l.kind with
  | blank =>
    exact collected_moves_on (by rw [atLine, kind]) (forward_moves _)
  | comment =>
    apply collected_moves_on (by rw [atLine, kind])
    apply update_moves
    intro s at_
    exact at_ ▸ Nat.lt_succ_self s.i
  | docHeader => exact doc_header_moves_on kind (r (by simp [kind]))
  | recordStart =>
    exact collected_moves_on (by rw [atLine, kind]) (unit_moves (r (by simp [kind])) kind read)
  | relLine => exact relation_moves_on kind (r (by simp [kind]))
  | threadStart =>
    exact collected_moves_on (by rw [atLine, kind]) (thread_moves (r (by simp [kind])))
  | schemaStart =>
    exact collected_moves_on (by rw [atLine, kind]) (schema_decl_moves (r (by simp [kind])))
  | withdrawStart =>
    exact collected_moves_on (by rw [atLine, kind]) (lifecycle_moves true (r (by simp [kind])))
  | resolveStart =>
    exact collected_moves_on (by rw [atLine, kind]) (lifecycle_moves false (r (by simp [kind])))
  | commitStart =>
    exact collected_moves_on (by rw [atLine, kind]) (commit_moves (r (by simp [kind])))
  | manifestStart =>
    exact collected_moves_on (by rw [atLine, kind])
      (manifest_moves (r (by simp [kind])) kind read)
  | redactStart =>
    exact collected_moves_on (by rw [atLine, kind]) (redact_moves (r (by simp [kind])))
  | dateStart =>
    exact collected_moves_on (by rw [atLine, kind])
      (date_record_moves (r (by simp [kind])) kind read)
  | step => exact collected_moves_on (by rw [atLine, kind]) (recover_moves _)
  | gist => exact collected_moves_on (by rw [atLine, kind]) (recover_moves _)
  | separator => exact collected_moves_on (by rw [atLine, kind]) (recover_moves _)
  | text => exact collected_moves_on (by rw [atLine, kind]) (recover_moves _)

theorem at_line_stuck {l : Line} {st : SurfaceParser} (cut : HandsCutDate src l) :
    atLine src lines l st = none := by
  cases kind : l.kind with
  | recordStart =>
    rw [atLine, kind]
    dsimp only
    rw [collect, unit_stuck st.scan kind cut]
    rfl
  | manifestStart =>
    rw [atLine, kind]
    dsimp only
    rw [collect, manifest_stuck st.scan kind cut]
    rfl
  | dateStart =>
    rw [atLine, kind]
    dsimp only
    rw [collect, date_record_stuck st.scan kind cut]
    rfl
  | _ =>
    obtain ⟨text, handed, _⟩ := cut
    rw [handedDate, kind] at handed
    cases handed

/-- One step of the loop. -/
def Steps (src : List Char) (lines : List Line) (st st' : SurfaceParser) : Prop :=
  ∃ l, lines[st.scan.i]? = some l ∧ atLine src lines l st = some (.ok st')

/-- The loop comes to a line whose record hands over a date that is cut. -/
def ComesToCut (src : List Char) (lines : List Line) (st : SurfaceParser) : Prop :=
  ∃ st' l, ReflTransGen (Steps src lines) st st' ∧ lines[st'.scan.i]? = some l ∧
    HandsCutDate src l

theorem run_stuck_of_comes {st : SurfaceParser} (comes : ComesToCut src lines st) (steps : Nat) :
    run src lines steps st = none := by
  obtain ⟨last, cut_line, reached, here, cut⟩ := comes
  induction reached using ReflTransGen.head_induction_on generalizing steps with
  | refl =>
    cases steps with
    | zero => rfl
    | succ steps =>
      rw [run, here]
      dsimp only
      rw [at_line_stuck cut]
  | head step _ ih =>
    cases steps with
    | zero => rfl
    | succ steps =>
      obtain ⟨l, at_, run_⟩ := step
      rw [run, at_]
      dsimp only
      rw [run_]
      exact ih steps

/-- With a step for each line that is left, the loop ends where it comes to no such line. -/
theorem run_returns (lexed : lex src = some lines) (steps : Nat) {st : SurfaceParser}
    (enough : lines.length - st.scan.i < steps) (reads : ¬ ComesToCut src lines st) :
    ∃ result, run src lines steps st = some result := by
  induction steps generalizing st with
  | zero => omega
  | succ steps ih =>
    rw [run]
    cases here : lines[st.scan.i]? with
    | none => exact ⟨_, rfl⟩
    | some l =>
      have read : ¬ HandsCutDate src l := fun cut => reads ⟨st, l, .refl, here, cut⟩
      rcases at_line_moves lexed here read with ⟨e, run_⟩ | ⟨st', run_, past⟩
      · dsimp only
        rw [run_]
        exact ⟨_, rfl⟩
      · have inside := (List.getElem?_eq_some_iff.mp here).1
        dsimp only
        rw [run_]
        apply ih (by omega)
        rintro ⟨last, k, reached, at_, cut⟩
        exact reads ⟨last, k, .head ⟨l, here, run_⟩ reached, at_, cut⟩

/-- Every line of a document is refused or passed unless its record hands over a date that
is cut, and the document is read or refused unless the loop comes to such a line. -/
theorem parse_surface_returns_iff [Blake3] (source : Option (SourceRef × SourcePolicy))
    (text : String) :
    ∃ lines, lex text.toList = some lines ∧
      (∀ (st : SurfaceParser) (l : Line), lines[st.scan.i]? = some l →
        (MovesOn text.toList lines l st ↔ ¬ HandsCutDate text.toList l)) ∧
      ((∃ result, parseSurface source text = some result) ↔
        ¬ ComesToCut text.toList lines (SurfaceParser.start source)) := by
  obtain ⟨lines, lexed, _⟩ := lex_returns text.toList
  refine ⟨lines, lexed, ?_, ?_, ?_⟩
  · intro st l here
    constructor
    · rintro moves cut
      rw [MovesOn, at_line_stuck cut] at moves
      rcases moves with ⟨e, run⟩ | ⟨st', run, _⟩ <;> cases run
    · exact at_line_moves lexed here
  · rintro ⟨result, read⟩ comes
    rw [parseSurface] at read
    dsimp only [Option.bind_eq_bind] at read
    rw [lexed, Option.bind_some, run_stuck_of_comes comes] at read
    cases read
  · intro reads
    obtain ⟨result, run⟩ := run_returns lexed (lines.length + 1)
      (show lines.length - 0 < lines.length + 1 by omega) reads
    rw [parseSurface]
    dsimp only [Option.bind_eq_bind]
    rw [lexed, Option.bind_some, run, Option.bind_some]
    cases result with
    | error e => exact ⟨_, rfl⟩
    | ok st =>
      obtain ⟨resolved, settled⟩ := resolve_all_returns st.document.sourced
      dsimp only
      rw [RawDocument.finish, settled]
      exact ⟨_, rfl⟩

end

/-- The year of `X€` is four bytes, of which one is masked; it is split at its third, inside
the character. -/
theorem cut_year_never_returns :
    @parseSurface .plain .modPrime none "@date c/x{axis:said,when:X€}" = none := by
  decide +kernel

end Smysl
