import Smysl.Text.Reading

/-!
The segment table is written as it was read exactly when it uses none of the
spellings the decoder tolerates, and what is written is read back.
-/
namespace Smysl
open ByteString Cursor Cursor.Parser Dec OrdMap

section
variable [Unicode]

/-! A map read with another place for its errors. -/

theorem dec_map_at_ok {σ α : Type} {arms : Nat → Arms σ} {start : Nat} {init : σ}
    {finish : σ → Extra → Option α} (fixed : ∀ here, arms here = arms start)
    (d d' : Cursor.Dec) (a : α) : decMapAt start (arms start) init finish d = .ok (a, d') ↔
      decMap arms init finish d = .ok (a, d') := by
  have same : decMap arms init finish d =
      decMapAt d.pos (arms start) init finish d := by
    rw [decMap, bind_of_ok (show position d = _ from rfl), fixed d.pos]
    rfl
  rw [same, decMapAt, decMapAt]
  cases read : readMap (arms start) init d with
  | error e => simp [bind_run, read]
  | ok out =>
    obtain ⟨⟨s, extra⟩, d₁⟩ := out
    rw [bind_of_ok read, bind_of_ok read]
    cases finish s extra with
    | none => simp [orFail]
    | some b => rfl

/-! Marks. -/

def MarkAcc.slots (a : MarkAcc) : List (Option Bytes) :=
  [a.start.map (fun v => Enc.uint v.toNat), a.stop.map (fun v => Enc.uint v.toNat),
    a.who.map Enc.text]

theorem mark_made {a : MarkAcc} {extra : Extra} {m : Mark} (made : a.finish extra = some m) :
    encMark m = Enc.map (keyed a.slots ++ putExtra extra) := by
  simp only [MarkAcc.finish, Option.bind_eq_bind, Option.bind_eq_some_iff] at made
  obtain ⟨start, hasStart, stop, hasStop, made⟩ := made
  split at made
  · cases made
  · cases made
    simp [encMark, MarkAcc.slots, keyedFrom, hasStart, hasStop]

theorem mark_fills : ArmsFill markArms MarkAcc.slots 3 (fun _ _ => True) where
  slots _ := rfl
  narrow := by norm_num
  unknown start := unknown_of (fun k low => by interval_cases k <;> rfl) fun _ => rfl
  plain _ _ _ := trivial
  known start k arm here := by
    match k with
    | 0 => exact mirror_fills uint_yields here fun _ _ => rfl
    | 1 => exact mirror_fills uint_yields here fun _ _ => rfl
    | 2 => exact mirror_fills text_mirrors here fun _ _ => rfl
    | _ + 3 => cases here

theorem mark_mirrors (start : Nat) :
    Mirrors (decMapAt start (markArms start) {} MarkAcc.finish) encMark := by
  have mirrors : Mirrors (decMap markArms {} MarkAcc.finish) encMark :=
    dec_map_mirrors mark_fills (nothing_written (by simp [MarkAcc.slots])) fun _ _ _ => mark_made
  intro d d' m run
  exact mirrors ((dec_map_at_ok (fun _ => rfl) d d' m).mp run)

theorem marks_mirrors : Mirrors decMarks encMarks := by
  refine Yields.position_bind fun start => ?_
  refine Yields.bind (array_mirrors (mark_mirrors start)) ?_
  rintro marks _ rfl
  refine Yields.reject_bind fun _ => Yields.pure ?_
  rw [List.append_nil]
  rfl

theorem marks_shown : ∀ ⦃d d' : Cursor.Dec⦄ ⦃l : List Mark⦄, decMarks d = .ok (l, d') →
    ((!l.isEmpty) = true ∧ True ↔ ¬ EmptyItem 4 d) := by
  refine shown_of_head (marks_mirrors.mono ?_)
  rintro l _ rfl
  exact ⟨_, _, rfl, by cases l <;> simp⟩

theorem mark_reads (start : Nat) {m : Mark} (valid : m.Valid) :
    Reads (decMapAt start (markArms start) {} MarkAcc.finish) (encMark m) m := by
  have made : MarkAcc.finish ⟨some m.start, some m.stop, m.who⟩ m.extra = some m := by
    simp [MarkAcc.finish, valid.forward]
  have reads : Reads (decMap markArms {} MarkAcc.finish) (encMark m) m := by
    rw [mark_made made]
    refine dec_map_reads mark_fills (fun start => ?_) valid.extra made
    refine .here (uint_reads m.start) rfl ?_
    dsimp only
    refine .here (uint_reads m.stop) rfl ?_
    dsimp only
    refine .opt (fun o a => { a with who := o }) (fun w held => text_reads_all (valid.who w held))
      rfl rfl ?_
    dsimp only
    exact .done _ _
  intro pos more fits
  exact (dec_map_at_ok (fun _ => rfl) _ _ m).mpr (reads pos more fits)

instance (m : Mark) : Solid (encMark m) := by
  unfold encMark
  infer_instance

instance (marks : List Mark) : Solid (encMarks marks) := inferInstanceAs (Solid (Enc.array _))

theorem marks_read {marks : List Mark} (valid : ∀ m ∈ marks, m.Valid)
    (sorted : ordered marks = true) : Reads decMarks (encMarks marks) marks := by
  refine Reads.position_bind fun start => ?_
  refine Reads.bind_end (array_reads (fun m mem => mark_reads start (valid m mem))
    fun m => inferInstance) ?_
  refine Reads.reject_bind (by simp [sorted]) ?_
  exact Reads.pure marks

/-! The reader's own identifiers. -/

theorem ids_yield : Yields decIds (fun m raw => ∃ n, n < 2 ^ 64 ∧
    m.entries.length = n ∧ raw = encTextMap m.entries) := by
  apply text_entries_yield
  intro start st
  refine Yields.bind skip_item_yields ?_
  rintro kbytes raw ⟨rfl, whole⟩
  intro d d' st' run
  obtain ⟨k, d₁, keyRun, run⟩ := bind_ok run
  rw [keyText] at keyRun
  split at keyRun
  · rename_i k' d₂ read
    cases keyRun
    have key := whole_text_key whole read
    split at run
    · cases run
    · rename_i above
      obtain ⟨v, d₃, valueRun, done⟩ := bind_ok run
      cases done
      obtain ⟨raw', eq, rfl, _⟩ := text_yields valueRun
      refine ⟨_, eq, (k, v), by rw [key], by rw [key], fun p held => ?_⟩
      by_contra low
      rw [← key] at low
      exact above (by simpa [Option.any_eq_true] using ⟨p, held, not_lt.mp low⟩)
  · cases keyRun

theorem ids_mirror : Mirrors decIds (fun m => encTextMap m.entries) :=
  ids_yield.mono fun _ _ ⟨_, _, _, same⟩ => same

theorem ids_shown : ∀ ⦃d d' : Cursor.Dec⦄ ⦃m : BTreeMap String String⦄, decIds d = .ok (m, d') →
    ((!m.isEmpty) = true ∧ True ↔ ¬ EmptyItem 5 d) := by
  refine shown_of_head (ids_mirror.mono ?_)
  rintro m _ rfl
  refine ⟨_, _, rfl, ?_⟩
  rw [List.length_insertionSort, List.length_map]
  simp [BTreeMap.isEmpty]

theorem ids_read {m : BTreeMap String String} (nfc : ∀ e ∈ m.entries, Nfc e.1 ∧ Nfc e.2) :
    Reads decIds (encTextMap m.entries) m := by
  apply text_map_read nfc
  intro start st e nfcK nfcV fits above fresh
  refine Reads.bind (skip_text_reads nfcK) ?_
  have key : Reads (keyText (Enc.text e.1)) [] e.1 := by
    intro pos more _
    rw [keyText, text_key_read nfcK fits]
    rfl
  rw [← List.nil_append (Enc.text e.2)]
  refine Reads.bind key ?_
  rw [if_neg (not_any_above above)]
  exact Reads.bind_end (text_reads_all nfcV) (Reads.pure _)

/-! The offset of the clock. -/

omit [Unicode] in
theorem try_i32_iff (v : Int64) (tz : Int32) : tryI32 v = some tz ↔ tz.toInt64 = v := by
  rw [tryI32]
  constructor
  · intro found
    split at found
    · rename_i fits
      cases found
      apply Int64.toInt_inj.mp
      rw [Int32.toInt_toInt64, Int64.toInt_toInt32, Int.bmod_eq_of_le] <;> omega
    · cases found
  · rintro rfl
    have low := Int32.le_toInt tz
    have high := Int32.toInt_lt tz
    rw [Int32.toInt_toInt64, if_pos ⟨low, high⟩, Int32.toInt32_toInt64]

omit [Unicode] in
theorem tz_mirrors (start : Nat) : Mirrors (decTz start) (fun tz => Enc.int tz.toInt64) := by
  refine Yields.bind int_yields ?_
  rintro v _ rfl
  refine Yields.orFail fun tz found => ?_
  dsimp only
  rw [(try_i32_iff v tz).mp found, List.append_nil]

omit [Unicode] in
theorem tz_reads (start : Nat) (tz : Int32) : Reads (decTz start) (Enc.int tz.toInt64) tz :=
  Reads.bind_end (int_reads tz.toInt64) (Reads.orFail ((try_i32_iff _ tz).mpr rfl))

/-! Levels and locators. -/

theorem level_mirrors (start : Nat) :
    Mirrors (named start Level.new) (fun l => Enc.text l.text) :=
  named_mirrors start fun s l => (Level.new_iff s l).mp

theorem level_reads (start : Nat) (l : Level) :
    Reads (named start Level.new) (Enc.text l.text) l :=
  Reads.bind_end (text_reads_all (Unicode.ascii_nfc _ l.ascii))
    (Reads.orFail ((Level.new_iff _ l).mpr rfl))

/-- The text that stands here is a range whose two ends are the same. -/
def SameEnds (d : Cursor.Dec) : Prop :=
  ∃ s d', text d = .ok (s, d') ∧ Locator.Doubled s.toList

/-- A text that starts as another one does is the other one. -/
theorem text_starts {s t : String} {x y : Bytes} (nfc : Unicode.isNfc s = true)
    (nfc' : Unicode.isNfc t = true) (short : (utf8 s).length < 2 ^ 64)
    (short' : (utf8 t).length < 2 ^ 64) (same : Enc.text s ++ x = Enc.text t ++ y) : s = t := by
  rw [Enc.text, Enc.text, normalise_of_nfc nfc, normalise_of_nfc nfc', List.append_assoc,
    List.append_assoc] at same
  obtain ⟨_, len, bodies⟩ := head_apart (by norm_num) (by norm_num) short short' same
  exact utf8_injective (List.append_inj bodies len).1

omit [Unicode] in
theorem utf8_append (s t : String) : utf8 (s ++ t) = utf8 s ++ utf8 t := by
  simp [utf8, String.toByteArray_append, ByteArray.data_append]

theorem text_read_short {d d' : Cursor.Dec} {s : String} (read : text d = .ok (s, d')) :
    (utf8 s).length < 2 ^ 64 := by
  obtain ⟨_, _, _, read⟩ := bind_ok read
  obtain ⟨n, d₁, head, read⟩ := bind_ok read
  obtain ⟨_, _, _, bound⟩ := expect_yields 3 head
  obtain ⟨_, _, rfl, len, _⟩ := text_of_yields _ n read
  rw [len]
  exact bound

/-- A locator is written as it was read, unless it was a range with equal ends. -/
theorem locator_spells (start : Nat) :
    Spells (named start (fun s => (Locator.parse s).toOption))
      (fun l => Enc.text l.toText) (fun d => ¬ SameEnds d) := by
  intro d d' l run
  obtain ⟨s, d₁, read, run⟩ := bind_ok run
  obtain ⟨raw, eq, rfl, nfc⟩ := text_yields read
  have short := text_read_short read
  dsimp only at run ⊢
  have ends : SameEnds d ↔ Locator.Doubled s.toList := by
    constructor
    · rintro ⟨t, d₂, again, doubled⟩
      rw [read] at again
      cases again
      exact doubled
    · exact fun doubled => ⟨s, d₁, read, doubled⟩
  cases parsed : Locator.parse s with
  | error e =>
    rw [parsed] at run
    cases run
  | ok l' =>
    rw [parsed] at run
    cases run
    have kept := Locator.parse_text parsed
    by_cases doubled : Locator.Doubled s.toList
    · -- the shorter text of the end is told from the range by its length
      obtain ⟨single, twice⟩ := Locator.parse_chars_doubled parsed doubled
      have ascii : Unicode.isNfc l.toText = true := by
        apply Unicode.ascii_nfc
        rw [Locator.toText, String.toList_ofList]
        exact fun c mem => ((Locator.single_chars single).2.2 c mem).2.2
      have longer : (utf8 l.toText).length < 2 ^ 64 := by
        have whole : s = l.toText ++ String.ofList ('-' :: l.toChars) := by
          rw [Locator.toText, ← String.ofList_append, ← twice, String.ofList_toList]
        rw [whole, utf8_append, List.length_append] at short
        omega
      have apart : ∀ x y, Enc.text l.toText ++ x ≠ Enc.text s ++ y := by
        intro x y same
        exact absurd doubled (kept.mp (text_starts ascii nfc longer short same))
      refine ⟨Enc.text s, eq, ?_, fun x y same => absurd same (apart x y)⟩
      constructor
      · intro same
        exact absurd (by rw [same]) (apart [] [])
      · intro other
        exact absurd (ends.mpr doubled) other
    · have same := kept.mpr doubled
      refine ⟨Enc.text s, eq, ?_, fun x y _ => by rw [same]⟩
      simp [same, ends, doubled]

/-! Rows. -/

def SegmentAcc.slots (a : SegmentAcc) : List (Option Bytes) :=
  [a.start.map (fun v => Enc.uint v.toNat), a.stop.map (fun v => Enc.uint v.toNat),
    a.level.map (fun l => Enc.text l.text), a.locator.map (fun l => Enc.text l.toText),
    a.lang.map (fun l => Enc.text l.text), a.speaker.map Enc.text,
    a.observed.map (fun v => Enc.uint v.toNat), slotWhen (!a.ids.isEmpty) (encTextMap a.ids.entries),
    a.tz.map (fun tz => Enc.int tz.toInt64), slotWhen (!a.reported.isEmpty) (encMarks a.reported)]

theorem segment_made {a : SegmentAcc} {extra : Extra} {s : Segment}
    (made : a.finish extra = some s) :
    encSegment s = Enc.map (keyed a.slots ++ putExtra extra) := by
  simp only [SegmentAcc.finish, Option.bind_eq_bind, Option.bind_eq_some_iff] at made
  obtain ⟨start, hasStart, stop, hasStop, level, hasLevel, locator, hasLocator, ⟨⟩⟩ := made
  simp [encSegment, SegmentAcc.slots, keyedFrom, hasStart, hasStop, hasLevel, hasLocator]

/-- The second spellings: a range with equal ends, and empty maps and arrays. -/
def segmentSpelled : Nat → Cursor.Dec → Prop
  | 3, d => ¬ SameEnds d
  | 7, d => ¬ EmptyItem 5 d
  | 9, d => ¬ EmptyItem 4 d
  | _, _ => True

theorem segment_fills : ArmsFill segmentArms SegmentAcc.slots 10 segmentSpelled where
  slots _ := rfl
  narrow := by norm_num
  unknown start := unknown_of (fun k low => by interval_cases k <;> rfl) fun _ => rfl
  plain k d far := by
    obtain ⟨j, rfl⟩ := Nat.exists_eq_add_of_le' far
    trivial
  known start k arm here := by
    match k with
    | 0 => exact mirror_fills uint_yields here fun _ _ => rfl
    | 1 => exact mirror_fills uint_yields here fun _ _ => rfl
    | 2 => exact mirror_fills (level_mirrors start) here fun _ _ => rfl
    | 3 => exact field_fills (locator_spells start) here fun _ _ => rfl
    | 4 => exact mirror_fills (name_mirrors start) here fun _ _ => rfl
    | 5 => exact mirror_fills text_mirrors here fun _ _ => rfl
    | 6 => exact mirror_fills uint_yields here fun _ _ => rfl
    | 7 => exact field_fills_when ids_mirror.spells here (fun _ _ => rfl) ids_shown
    | 8 => exact mirror_fills (tz_mirrors start) here fun _ _ => rfl
    | 9 => exact field_fills_when marks_mirrors.spells here (fun _ _ => rfl) marks_shown
    | _ + 10 => cases here

def CanonicalSegment : Cursor.Dec → Prop := SpelledMap segmentArms segmentSpelled []

theorem segment_spells : Spells decSegment encSegment CanonicalSegment :=
  dec_map_spells segment_fills (none_always (by simp [SegmentAcc.slots])) fun _ _ _ => segment_made

theorem segment_reads {s : Segment} (valid : s.Valid) : Reads decSegment (encSegment s) s := by
  have made : SegmentAcc.finish ⟨some s.start, some s.stop, some s.level, some s.locator, s.lang,
      s.speaker, s.observed, s.ids, s.tzOffset, s.reported⟩ s.extra = some s := rfl
  rw [segment_made made]
  refine dec_map_reads segment_fills (fun start => ?_) valid.extra made
  refine .here (uint_reads s.start) rfl ?_
  dsimp only
  refine .here (uint_reads s.stop) rfl ?_
  dsimp only
  refine .here (level_reads start s.level) rfl ?_
  dsimp only
  have parsed : (Locator.parse s.locator.toText).toOption = some s.locator := by
    rw [Locator.parse_to_text valid.locator]
    rfl
  refine .here (Reads.bind_end (text_reads_all valid.locatorText) (Reads.orFail parsed)) rfl ?_
  dsimp only
  refine .opt (fun o a => { a with lang := o }) (fun l _ => name_reads start l) rfl rfl ?_
  dsimp only
  refine .opt (fun o a => { a with speaker := o })
    (fun t held => text_reads_all (valid.speaker t held)) rfl rfl ?_
  dsimp only
  refine .opt (fun o a => { a with observed := o }) (fun v _ => uint_reads v) rfl rfl ?_
  dsimp only
  refine .shown (ids_read valid.ids) rfl (fun empty => by rw [map_blank empty]) ?_
  dsimp only
  refine .opt (fun o a => { a with tz := o }) (fun tz _ => tz_reads start tz) rfl rfl ?_
  dsimp only
  refine .shown (marks_read valid.marks valid.sorted) rfl
    (fun empty => by
      have none : s.reported = [] := by simpa using empty
      rw [none]) ?_
  dsimp only
  exact .done _ _

instance (s : Segment) : Solid (encSegment s) := by
  unfold encSegment
  infer_instance

theorem encode_table_eq (rows : List Segment) :
    encodeTable rows = Enc.array (rows.map encSegment) := by
  rw [encodeTable, Enc.array, List.length_map]

/-- Nothing stands after the table, and every row is spelled as the encoder spells it. -/
def CanonicalTable (b : Bytes) : Prop :=
  ∃ places d, arrayPlaces decSegment ⟨0, b⟩ = .ok (places, d) ∧ d.rest = [] ∧
    ∀ p ∈ places, CanonicalSegment p

omit [Unicode] in
theorem array_places {α : Type} {f : Parser α} {d d' : Cursor.Dec} {l : List α}
    (run : array f d = .ok (l, d')) : ∃ places, arrayPlaces f d = .ok (places, d') := by
  obtain ⟨n, d₁, head, run⟩ := bind_ok run
  have walk : ∀ {n : Nat} {d d' : Cursor.Dec} {l : List α}, times f n d = .ok (l, d') →
      ∃ places, times (do
        let place ← here
        let _ ← f
        pure place) n d = .ok (places, d') := by
    intro n
    induction n with
    | zero =>
      intro d d' l run
      cases run
      exact ⟨[], rfl⟩
    | succ n ih =>
      intro d d' l run
      obtain ⟨a, d₁, first, run⟩ := bind_ok run
      obtain ⟨as, d₂, later, done⟩ := bind_ok run
      cases done
      obtain ⟨places, walked⟩ := ih later
      refine ⟨d :: places, ?_⟩
      have one : (do
          let place ← here
          let _ ← f
          pure place : Parser Cursor.Dec) d = .ok (d, d₁) := by
        rw [bind_of_ok (show here d = .ok (d, d) from rfl), bind_of_ok first]
        rfl
      rw [times, bind_of_ok one, bind_of_ok walked]
      rfl
  obtain ⟨places, walked⟩ := walk run
  exact ⟨places, by rw [arrayPlaces, bind_of_ok head, walked]⟩

theorem decode_table_exact_iff {b : Bytes} {rows : List Segment}
    (read : decodeTable b = .ok rows) : encodeTable rows = b ↔ CanonicalTable b := by
  rw [decodeTable] at read
  cases run : array decSegment ⟨0, b⟩ with
  | error e =>
    rw [run] at read
    cases read
  | ok out =>
    obtain ⟨rows', d⟩ := out
    rw [run] at read
    cases read
    obtain ⟨raw, eq, exact, apart⟩ := array_spells segment_spells run
    obtain ⟨places, walked⟩ := array_places run
    dsimp only at eq exact apart
    have spelled : SpelledArray decSegment CanonicalSegment ⟨0, b⟩ ↔
        ∀ p ∈ places, CanonicalSegment p := by
      rw [SpelledArray, walked]
    rw [encode_table_eq]
    constructor
    · intro same
      have start := apart [] d.rest (by rw [List.append_nil, same, eq])
      rw [same, eq] at start
      have ended : d.rest = [] := by simpa using start
      rw [ended, List.append_nil] at eq
      refine ⟨places, d, walked, ended, spelled.mp (exact.mp ?_)⟩
      rw [same, eq]
    · rintro ⟨places', d', again, ended, all⟩
      rw [walked] at again
      cases again
      rw [exact.mpr (spelled.mpr all), eq, ended, List.append_nil]

theorem encode_table_reads {rows : List Segment} (valid : ∀ r ∈ rows, r.Valid)
    (fits : (encodeTable rows).length < limit) : decodeTable (encodeTable rows) = .ok rows := by
  rw [encode_table_eq] at fits ⊢
  have reads : Reads (array decSegment) (Enc.array (rows.map encSegment)) rows :=
    array_reads (fun r mem => segment_reads (valid r mem)) fun r => inferInstance
  have run := reads 0 [] (by rwa [Nat.zero_add])
  rw [List.append_nil] at run
  rw [decodeTable, run]
  rfl

end

/-- A row of one line. -/
def oneLine : Segment :=
  ⟨0, 1, ⟨"line", by decide⟩, .line 1, none, none, none, ∅, none, [], ∅⟩

/-- One line whose map of identifiers is there and empty. -/
def spelledEmptyIds : Bytes :=
  [0x81, 0xA5, 0x00, 0x00, 0x01, 0x01, 0x02, 0x64, 0x6C, 0x69, 0x6E, 0x65, 0x03, 0x62, 0x4C, 0x31,
    0x07, 0xA0]

end Smysl
