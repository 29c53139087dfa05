import Smysl.Surface.HjsonUses
import Smysl.Surface.WriteHolds

/-!
Where the writer puts quotes that the reader could take for a key or an element: a text that
begins as a block comment does has its own only where the writer puts it in quotes.
-/
namespace Smysl
open ByteString Utf8

namespace Hjson

section
variable {src r : List Char} {K : String} {i j : Nat}

theorem entry_quote {p : Nat} (here : entry src K p = true) :
    led (bytes src) p = true ∧ (bytes src)[p]? = some 0x22 := by
  simp only [entry, Bool.and_eq_true, beq_iff_eq] at here
  exact here.1

theorem entries_none (le : i ≤ j) (none' : ∀ p, i ≤ p → p < j → entry src K p = false) :
    entries src K j = entries src K i := by
  induction j, le using Nat.le_induction with
  | base => rfl
  | succ j le ih =>
    rw [entries, Nat.count_succ, if_neg, Nat.add_zero]
    · exact ih fun p above below => none' p above (Nat.lt_succ_of_lt below)
    · rw [none' j le (Nat.lt_succ_self j)]
      exact Bool.false_ne_true

theorem entries_past {b : UInt8} (here : (bytes src)[i]? = some b) (other : b ≠ 0x22) :
    entries src K (i + 1) = entries src K i :=
  entries_none (Nat.le_succ i) fun p above below => by
    obtain rfl : p = i := by omega
    by_contra found
    have quote := (entry_quote (Bool.not_eq_false _ ▸ found)).2
    rw [here] at quote
    exact other (Option.some.inj quote)

/-- A text without quotes has none. -/
theorem entries_text {t : List Char} (rest : Rest src i (t ++ r)) (none' : '"' ∉ t) :
    entries src K (i + width t) = entries src K i :=
  entries_none (Nat.le_add_right _ _) fun p above below => by
    by_contra found
    have quote := (entry_quote (Bool.not_eq_false _ ▸ found)).2
    have inside := rest.byte (p - i)
    rw [Nat.add_sub_cancel' above, quote, bytes_append,
      List.getElem?_append_left (by rw [length_bytes]; omega)] at inside
    obtain ⟨c, mem, code⟩ := char_of_byte (List.mem_of_getElem? inside.symm) (by decide)
    exact none' ((Char.toNat_inj.mp code : c = '"') ▸ mem)

/-- Quotes right after a backslash or a colon are not led. -/
theorem not_led_after {b : UInt8} (here : (bytes src)[i]? = some b) (mark : b = 0x3A ∨ b = 0x5C)
    (white : ∀ k, i < k → k < j → ∃ w, (bytes src)[k]? = some w ∧ isAsciiWhitespace w = true)
    (later : i < j) : led (bytes src) j = false := by
  have solid : isAsciiWhitespace b = false := by
    rcases mark with rfl | rfl <;> decide
  rw [led, led_after here solid white later]
  rcases mark with rfl | rfl <;> decide

/-- What goes on after quotes with neither a slash nor a backslash begins no block comment. -/
theorem not_entry_before (comment : "/*".toList <+: K.toList)
    (after : ∀ b ∈ (bytes src)[i + 1]?, b ≠ 0x2F ∧ b ≠ 0x5C) : entry src K i = false := by
  have begins : ∃ more, K.toList = '/' :: '*' :: more := by
    obtain ⟨more, same⟩ := comment
    exact ⟨more, same.symm⟩
  obtain ⟨more, spelled⟩ := begins
  by_contra found
  rw [Bool.not_eq_false] at found
  simp only [entry, Bool.and_eq_true] at found
  have read := found.2
  cases text : quoted src (bytes src) i with
  | error halt =>
    rw [text] at read
    cases read
  | ok out =>
    obtain ⟨t, j⟩ := out
    rw [text] at read
    obtain rfl : t = K := by simpa using read
    rw [quoted] at text
    cases steps : (bytes src).length with
    | zero =>
      rw [steps, Nat.zero_add, quotedFrom] at text
      rw [List.getElem?_eq_none (by omega)] at text
      cases text
    | succ n =>
      rw [steps, quotedFrom] at text
      cases here : (bytes src)[i + 1]? with
      | none =>
        rw [here] at text
        cases text
      | some c =>
        obtain ⟨no_slash, no_back⟩ := after c here
        rw [here] at text
        dsimp only at text
        by_cases closed : c = 0x22
        · rw [if_pos closed] at text
          cases text
          cases spelled
        · rw [if_neg closed, if_neg no_back] at text
          cases left : sliceFrom (i + 1) src with
          | none =>
            rw [left] at text
            cases text
          | some cs =>
            rw [left] at text
            cases cs with
            | nil => cases text
            | cons ch cs =>
              obtain ⟨_, _, _, front⟩ := quoted_from_ready text
              rw [spelled, List.nil_append, List.cons_prefix_cons] at front
              obtain ⟨b, head, code⟩ := head_bytes ch cs
              have same := (slice_from_split left).head
              rw [here, head] at same
              cases same
              rw [front.1] at head
              cases head
              exact no_slash rfl

end

end Hjson

namespace Write
open Hjson

section
variable {src r : List Char} {K : String} {i : Nat}

/-- What does not go on from quotes to a block comment. -/
def Apart (r : List Char) : Prop := ∀ b ∈ (bytes r).head?, b ≠ 0x2F ∧ b ≠ 0x5C

theorem Closes.apart (closes : Closes r) : Apart r := by
  obtain ⟨blank, rest, rfl, spaces, stops⟩ := closes
  intro b head
  cases blank with
  | nil =>
    have stop := stops b head
    constructor <;> rintro rfl <;> exact absurd stop (by decide)
  | cons c blank =>
    rw [spaces c List.mem_cons_self] at head
    cases head
    decide

/-- The quotes in a text are escaped. -/
theorem entries_escaped (t : List Char) (rest : Rest src i (t.flatMap escape ++ r)) :
    entries src K (i + width (t.flatMap escape)) = entries src K i := by
  induction t generalizing i with
  | nil => rfl
  | cons c t ih =>
    rw [List.flatMap_cons, List.append_assoc] at rest
    rw [List.flatMap_cons, width_append, ← Nat.add_assoc, ih rest.later]
    by_cases plain : escape c = [c]
    · rw [plain] at rest ⊢
      refine entries_text rest fun mem => ?_
      exact (escape_plain plain).1 (List.mem_singleton.mp mem).symm
    · obtain ⟨e, spelled, _⟩ := escaped_byte plain
      have two : width (escape c) = 2 := by
        rw [← length_bytes, spelled]
        rfl
      have back : (bytes src)[i]? = some 0x5C := by
        rw [rest.head, bytes_append, spelled]
        rfl
      rw [two, entries_none (i := i + 1) (Nat.le_succ _) fun p above below => ?_,
        entries_past back (by decide)]
      obtain rfl : p = i + 1 := by omega
      by_contra found
      have led' := (entry_quote (Bool.not_eq_false _ ▸ found)).1
      rw [not_led_after back (.inr rfl) (fun k above below => by omega) (Nat.lt_succ_self i)]
        at led'
      cases led'

/-- A text in quotes has one place, if they are led and it is the text. -/
theorem entries_quoted (comment : "/*".toList <+: K.toList) {t : List Char}
    (rest : Rest src i (quoted t ++ r)) (after : Apart r) :
    entries src K (i + width (quoted t)) ≤
      entries src K i + (if led (bytes src) i = true ∧ t = K.toList then 1 else 0) := by
  have shape : Rest src i ('"' :: (t.flatMap escape ++ (['"'] ++ r))) := by
    simpa only [quoted, List.cons_append, List.append_assoc] using rest
  have inside : Rest src (i + 1) (t.flatMap escape ++ (['"'] ++ r)) := shape.next
  have closing := inside.later
  have last := closing.later
  have wide : i + width (quoted t) = i + 1 + width (t.flatMap escape) + 1 := by
    rw [quoted, List.cons_append, width_cons, width_append]
    change i + (1 + (_ + 1)) = _
    omega
  have first : entries src K (i + 1) ≤
      entries src K i + (if led (bytes src) i = true ∧ t = K.toList then 1 else 0) := by
    cases here : entry src K i with
    | true =>
      rw [entries_succ here, if_pos]
      refine ⟨(entry_quote here).1, ?_⟩
      have read := quoted_reads_back rest
      simp only [entry, Bool.and_eq_true, read, beq_iff_eq] at here
      rw [← here.2, String.toList_ofList]
    | false =>
      rw [entries_none (Nat.le_succ i) fun p above below => ?_]
      · exact Nat.le_add_right _ _
      · obtain rfl : p = i := by omega
        exact here
  rw [wide, entries_none (Nat.le_succ _) fun p above below => ?_, entries_escaped t inside]
  · exact first
  · obtain rfl : p = i + 1 + width (t.flatMap escape) := by omega
    refine not_entry_before comment ?_
    rw [show (bytes src)[i + 1 + width (t.flatMap escape) + 1]? = (bytes r).head? from last.head]
    exact after

/-- What the quotes that a text needs count. -/
def quotesFor (needsQuotes : List Char → Bool) (K : String) : Nat :=
  if needsQuotes K.toList then 1 else 0

/-- A text with the quotes that it needs has a place only if it is the text and in them. -/
theorem entries_needed (comment : "/*".toList <+: K.toList) {needsQuotes : List Char → Bool}
    {t : List Char} (bare : needsQuotes t = false → '"' ∉ t)
    (rest : Rest src i ((if needsQuotes t then quoted t else t) ++ r)) (after : Apart r) :
    entries src K (i + width (if needsQuotes t then quoted t else t)) ≤ entries src K i +
      (if led (bytes src) i = true ∧ t = K.toList then quotesFor needsQuotes K else 0) := by
  cases plain : needsQuotes t with
  | true =>
    rw [plain, if_pos rfl] at rest
    rw [if_pos rfl]
    refine (entries_quoted comment rest after).trans (Nat.add_le_add_left ?_ _)
    split
    · rename_i same
      rw [quotesFor, ← same.2, plain]
      exact le_refl _
    · exact Nat.zero_le _
  | false =>
    rw [plain, if_neg Bool.false_ne_true] at rest
    rw [if_neg Bool.false_ne_true, entries_text rest (bare plain)]
    exact Nat.le_add_right _ _

theorem value_bare {t : List Char} (plain : valueNeedsQuotes t = false) : '"' ∉ t := by
  intro mem
  have mark := (value_plain plain).2.2.1 _ mem
  cases mark

theorem key_bare {t : List Char} (plain : keyNeedsQuotes t = false) : '"' ∉ t := by
  intro mem
  have mark := (key_plain plain).2.2.2 _ mem
  cases mark

theorem words_bare {t : List Char} (words : ∀ c ∈ t, isWordChar c = true) : '"' ∉ t := by
  intro mem
  have word := words _ mem
  cases word

/-! Values. -/

/-- What a value counts in its place. -/
def weight (p : Place) (K : String) (a b : Nat) (v : HValue) : Nat :=
  (if p = .element then asElement K b v else 0) + uses K a b v

/-- What the writer puts in quotes. -/
def written (p : Place) (K : String) (v : HValue) : Nat :=
  weight p K (quotesFor keyNeedsQuotes K) (quotesFor valueNeedsQuotes K) v

/-- A value with no more places for a text than the writer puts it in quotes. -/
def Marks (src : List Char) (K : String) (v : HValue) : Prop :=
  ∀ i r, Rest src i (value v ++ r) → Closes r →
    entries src K (i + width (value v)) ≤ entries src K i + written .element K v ∧
      (led (bytes src) i = false →
        entries src K (i + width (value v)) ≤ entries src K i + written .field K v)

/-- A value without quotes in its text has no place. -/
theorem bare_marks {v : HValue} (bare : '"' ∉ value v) : Marks src K v := by
  intro i r rest _
  rw [entries_text rest bare]
  exact ⟨Nat.le_add_right _ _, fun _ => Nat.le_add_right _ _⟩

theorem text_marks (comment : "/*".toList <+: K.toList) (s : String) : Marks src K (.str s) := by
  intro i r rest closes
  rw [value, quotelessOrQuoted] at rest ⊢
  have most := @entries_needed src r K i comment valueNeedsQuotes s.toList value_bare rest
    closes.apart
  constructor
  · refine most.trans (Nat.add_le_add_left ?_ _)
    split
    · rename_i same
      rw [written, weight, if_pos rfl, asElement, if_pos (String.toList_inj.mp same.2)]
      exact Nat.le_add_right _ _
    · exact Nat.zero_le _
  · intro later
    have none' : ¬ (led (bytes src) i = true ∧ s.toList = K.toList) := fun both =>
      Bool.false_ne_true (later ▸ both.1)
    rw [if_neg none'] at most
    exact most.trans (Nat.add_le_add_left (Nat.zero_le _) _)

/-- A value in brackets is no element that is a text. -/
theorem bracket_marks {v : HValue} (other : ∀ b, asElement K b v = 0)
    (most : ∀ i r, Rest src i (value v ++ r) →
      entries src K (i + width (value v)) ≤ entries src K i + written .field K v) :
    Marks src K v := by
  intro i r rest _
  have bound := most i r rest
  refine ⟨?_, fun _ => bound⟩
  rw [written, weight, if_pos rfl, other]
  exact bound

theorem field_weight (a b : Nat) (v : HValue) : weight .field K a b v = uses K a b v :=
  Nat.zero_add _

theorem items_marks {items : List HValue} (marks : ∀ v ∈ items, Marks src K v)
    (rest : Rest src i (itemsTail items r)) :
    entries src K (i + width ((values items).flatMap (", ".toList ++ ·)) + 1) ≤
      entries src K i +
        usesItems K (quotesFor keyNeedsQuotes K) (quotesFor valueNeedsQuotes K) items := by
  induction items generalizing i with
  | nil =>
    have head : (bytes src)[i]? = some 0x5D := rest.head
    exact (entries_past head (by decide)).le
  | cons v items ih =>
    have parts : itemsTail (v :: items) r = ", ".toList ++ (value v ++ itemsTail items r) := by
      rw [itemsTail, values, List.flatMap_cons, itemsTail]
      simp
    rw [parts] at rest
    have inside := rest.later
    have item := (marks v List.mem_cons_self _ _ inside (closes_items items r)).1
    have more := ih (fun w mem => marks w (List.mem_cons_of_mem _ mem)) inside.later
    rw [entries_text rest (by decide)] at item
    rw [values, List.flatMap_cons, width_append, width_append, usesItems]
    rw [written, weight, if_pos rfl] at item
    simp only [Nat.add_assoc] at item more ⊢
    omega

theorem array_marks {items : List HValue} (marks : ∀ v ∈ items, Marks src K v) :
    Marks src K (.array items) := by
  refine bracket_marks (fun _ => rfl) fun i r rest => ?_
  have head : (bytes src)[i]? = some 0x5B := rest.head.trans (array_head items r)
  have first := entries_past (K := K) head (by decide)
  rw [written, field_weight, uses]
  cases items with
  | nil =>
    have inside : Rest src (i + 1) (itemsTail [] r) := rest.next
    have more := items_marks (K := K) (fun v mem => by cases mem) inside
    rw [first] at more
    exact more
  | cons v items =>
    have parts : value (.array (v :: items)) ++ r =
        '[' :: (value v ++ itemsTail items r) := by
      rw [value, values, joined_cons, itemsTail]
      simp
    rw [parts] at rest
    have inside : Rest src (i + 1) (value v ++ itemsTail items r) := rest.next
    have item := (marks v List.mem_cons_self _ _ inside (closes_items items r)).1
    have more := items_marks (fun w mem => marks w (List.mem_cons_of_mem _ mem)) inside.later
    have wide : i + width (value (.array (v :: items))) = i + 1 + width (value v) +
        width ((values items).flatMap (", ".toList ++ ·)) + 1 := by
      rw [value, values, joined_cons, List.cons_append, width_cons, width_append, width_append]
      change i + (1 + (_ + _ + 1)) = _
      omega
    rw [wide, usesItems]
    rw [written, weight, if_pos rfl, first] at item
    omega

/-- One field: its key, and its value after the colon. -/
theorem field_marks (comment : "/*".toList <+: K.toList) {k : String} {v : HValue}
    (marks : Marks src K v) (closes : Closes r)
    (rest : Rest src i (quotedKey k.toList ++ ':' :: ' ' :: (value v ++ r))) :
    entries src K (i + width (quotedKey k.toList) + 2 + width (value v)) ≤ entries src K i +
      ((if k = K then quotesFor keyNeedsQuotes K else 0) + written .field K v) := by
  have after : Apart (':' :: ' ' :: (value v ++ r)) := by
    rintro b ⟨rfl⟩
    decide
  have colon := rest.later
  have space : Rest src (i + width (quotedKey k.toList) + 1) (' ' :: (value v ++ r)) := colon.next
  have inside : Rest src (i + width (quotedKey k.toList) + 2) (value v ++ r) := space.next
  have at_colon : (bytes src)[i + width (quotedKey k.toList)]? = some 0x3A := colon.head
  have at_space : (bytes src)[i + width (quotedKey k.toList) + 1]? = some 0x20 := space.head
  have not_led : led (bytes src) (i + width (quotedKey k.toList) + 2) = false :=
    not_led_after at_colon (.inl rfl) (fun p above below => by
      obtain rfl : p = i + width (quotedKey k.toList) + 1 := by omega
      exact ⟨0x20, at_space, rfl⟩) (by omega)
  have taken := (marks _ _ inside closes).2 not_led
  have keyed : entries src K (i + width (quotedKey k.toList)) ≤ entries src K i +
      (if k = K then quotesFor keyNeedsQuotes K else 0) := by
    refine (entries_needed comment key_bare rest after).trans (Nat.add_le_add_left ?_ _)
    split
    · rename_i same
      rw [if_pos (String.toList_inj.mp same.2)]
    · exact Nat.zero_le _
  have passed : entries src K (i + width (quotedKey k.toList) + 2) =
      entries src K (i + width (quotedKey k.toList)) :=
    (entries_past at_space (by decide)).trans (entries_past at_colon (by decide))
  omega

theorem fields_marks (comment : "/*".toList <+: K.toList) {o : List (String × HValue)}
    (marks : ∀ e ∈ o, Marks src K e.2) (rest : Rest src i (fieldsTail o r)) :
    entries src K (i + width ((fields o).flatMap (", ".toList ++ ·)) + 2) ≤ entries src K i +
      usesFields K (quotesFor keyNeedsQuotes K) (quotesFor valueNeedsQuotes K) o := by
  induction o generalizing i with
  | nil =>
    have closing : Rest src i (" \x7d".toList ++ r) := rest
    exact (entries_text closing (by decide)).le
  | cons e o ih =>
    obtain ⟨k, v⟩ := e
    rw [field_tail] at rest
    have inside : Rest src (i + 2) (quotedKey k.toList ++
        ':' :: ' ' :: (value v ++ fieldsTail o r)) := rest.next.next
    have marked : Marks src K v := marks (k, v) List.mem_cons_self
    have item := field_marks comment marked (closes_fields o r) inside
    have after : Rest src (i + 2 + width (quotedKey k.toList) + 2 + width (value v))
        (fieldsTail o r) := inside.later.next.next.later
    have more := ih (fun e mem => marks e (List.mem_cons_of_mem _ mem)) after
    have spaces : Rest src i (", ".toList ++ (quotedKey k.toList ++
        ':' :: ' ' :: (value v ++ fieldsTail o r))) := rest
    have skipped : entries src K (i + 2) = entries src K i := entries_text spaces (by decide)
    have wide : i + width ((fields ((k, v) :: o)).flatMap (", ".toList ++ ·)) =
        i + 2 + width (quotedKey k.toList) + 2 + width (value v) +
          width ((fields o).flatMap (", ".toList ++ ·)) := by
      rw [fields, List.flatMap_cons]
      simp only [width_append]
      change i + (2 + (_ + 2 + _) + _) = _
      omega
    rw [wide, usesFields]
    rw [written, field_weight] at item
    omega

theorem object_marks (comment : "/*".toList <+: K.toList) {o : List (String × HValue)}
    (marks : ∀ e ∈ o, Marks src K e.2) : Marks src K (.object o) := by
  refine bracket_marks (fun _ => rfl) fun i r rest => ?_
  rw [written, field_weight, uses]
  cases o with
  | nil =>
    rw [entries_text rest (by decide)]
    exact Nat.le_add_right _ _
  | cons e o =>
    obtain ⟨k, v⟩ := e
    have parts : value (.object ((k, v) :: o)) ++ r = "\x7b ".toList ++
        (quotedKey k.toList ++ ':' :: ' ' :: (value v ++ fieldsTail o r)) := by
      rw [value, fields, joined_cons, fieldsTail]
      simp
    rw [parts] at rest
    have inside : Rest src (i + 2) (quotedKey k.toList ++
        ':' :: ' ' :: (value v ++ fieldsTail o r)) := rest.later
    have marked : Marks src K v := marks (k, v) List.mem_cons_self
    have item := field_marks comment marked (closes_fields o r) inside
    have after : Rest src (i + 2 + width (quotedKey k.toList) + 2 + width (value v))
        (fieldsTail o r) := inside.later.next.next.later
    have more := fields_marks comment (fun e mem => marks e (List.mem_cons_of_mem _ mem)) after
    have skipped : entries src K (i + 2) = entries src K i := entries_text rest (by decide)
    have wide : i + width (value (.object ((k, v) :: o))) =
        i + 2 + width (quotedKey k.toList) + 2 + width (value v) +
          width ((fields o).flatMap (", ".toList ++ ·)) + 2 := by
      rw [value, fields, joined_cons]
      simp only [width_append]
      change i + (2 + (_ + 2 + _ + _) + 2) = _
      omega
    rw [wide, usesFields]
    rw [written, field_weight] at item
    omega

/-- The writer puts no more quotes that could be taken for a text than it puts the text in. -/
theorem value_marks (comment : "/*".toList <+: K.toList) (v : HValue) : Marks src K v := by
  induction v using HValue.induct with
  | null => exact bare_marks (by decide)
  | bool b => cases b <;> exact bare_marks (by decide)
  | int i => exact bare_marks (words_bare (int_words i).2)
  | float f => exact bare_marks (words_bare (trim_float_words f.toF32).2)
  | str s => exact text_marks comment s
  | array items ih => exact array_marks ih
  | object o ih => exact object_marks comment ih

end

end Write
end Smysl
