import Smysl.Surface.WriteUses

/-!
When the text of a value is read back as the value: exactly when no text without quotes begins
a block comment where one is skipped, nothing is deeper than the reader goes, and every float is
one that `as f32` and six places keep. The text of a value is on one line whatever it holds.
-/
namespace Smysl
open ByteString Utf8

namespace Write
open Hjson

/-! Lines. -/

/-- Whether a text is on one line. -/
def oneLine (t : List Char) : Bool := t.all fun c => c != '\n' && c != '\r'

theorem one_line_append {t r : List Char} (one : oneLine t = true) (two : oneLine r = true) :
    oneLine (t ++ r) = true := by
  rw [oneLine, List.all_append, Bool.and_eq_true]
  exact ⟨one, two⟩

theorem one_line_flat {α : Type} {f : α → List Char} {xs : List α}
    (lines : ∀ x ∈ xs, oneLine (f x) = true) : oneLine (xs.flatMap f) = true := by
  rw [oneLine, List.all_flatMap, List.all_eq_true]
  exact lines

theorem one_line_of {t : List Char} {p : Char → Bool} (all : ∀ c ∈ t, p c = true)
    (ends : p '\n' = false ∧ p '\r' = false) : oneLine t = true := by
  rw [oneLine, List.all_eq_true]
  intro c mem
  have fine := all c mem
  rw [Bool.and_eq_true, bne_iff_ne, bne_iff_ne]
  constructor
  · rintro rfl
    rw [ends.1] at fine
    cases fine
  · rintro rfl
    rw [ends.2] at fine
    cases fine

theorem escape_line (c : Char) : oneLine (escape c) = true := by
  rw [escape]
  split
  · rfl
  · split
    · rfl
    · split
      · rfl
      · split
        · rfl
        · split
          · rfl
          · simp_all [oneLine]

theorem needed_line {needsQuotes : List Char → Bool} {t : List Char}
    (bare : needsQuotes t = false → oneLine t = true) :
    oneLine (if needsQuotes t then quoted t else t) = true := by
  cases plain : needsQuotes t with
  | true =>
    have inside : oneLine (t.flatMap escape) = true := one_line_flat fun c _ => escape_line c
    exact one_line_append (one_line_append (t := ['"']) rfl inside) (r := ['"']) rfl
  | false => exact bare plain

theorem text_line (t : List Char) : oneLine (quotelessOrQuoted t) = true :=
  needed_line fun plain => one_line_of (p := fun c => !isValueMark c)
    (fun c mem => by rw [(value_plain plain).2.2.1 c mem]; rfl) ⟨rfl, rfl⟩

theorem key_line (t : List Char) : oneLine (quotedKey t) = true :=
  needed_line fun plain => one_line_of (p := fun c => !isKeyMark c)
    (fun c mem => by rw [(key_plain plain).2.2.2 c mem]; rfl) ⟨rfl, rfl⟩

theorem joined_line {ts : List (List Char)} (lines : ∀ t ∈ ts, oneLine t = true) :
    oneLine (joined ts) = true := by
  cases ts with
  | nil => rfl
  | cons t ts =>
    rw [joined_cons]
    exact one_line_append (lines t List.mem_cons_self) (one_line_flat fun u mem =>
      one_line_append (t := ", ".toList) rfl (lines u (List.mem_cons_of_mem _ mem)))

theorem values_eq_map (items : List HValue) : values items = items.map value := by
  induction items with
  | nil => rfl
  | cons v items ih => rw [values, ih, List.map_cons]

theorem fields_eq_map (o : List (String × HValue)) :
    fields o = o.map fun e => quotedKey e.1.toList ++ ": ".toList ++ value e.2 := by
  induction o with
  | nil => rfl
  | cons e o ih =>
    obtain ⟨k, v⟩ := e
    rw [fields, ih, List.map_cons]

/-- The text of a value is on one line. -/
theorem value_line (v : HValue) : oneLine (value v) = true := by
  induction v using HValue.induct with
  | null => rfl
  | bool b => cases b <;> rfl
  | int i => exact one_line_of (int_words i).2 ⟨rfl, rfl⟩
  | float f => exact one_line_of (trim_float_words f.toF32).2 ⟨rfl, rfl⟩
  | str s => exact text_line s.toList
  | array items ih =>
    have inside : oneLine (joined (values items)) = true := by
      rw [values_eq_map]
      exact joined_line (List.forall_mem_map.mpr ih)
    exact one_line_append (one_line_append (t := ['[']) rfl inside) (r := [']']) rfl
  | object o ih =>
    have inside : oneLine (joined (fields o)) = true := by
      rw [fields_eq_map]
      exact joined_line (List.forall_mem_map.mpr fun e mem =>
        one_line_append (one_line_append (key_line _) (r := ": ".toList) rfl) (ih e mem))
    exact one_line_append (one_line_append (t := "\x7b ".toList) rfl inside)
      (r := " \x7d".toList) rfl

theorem value_no_feed (v : HValue) : '\n' ∉ value v ∧ '\r' ∉ value v := by
  have line := value_line v
  rw [oneLine, List.all_eq_true] at line
  constructor
  · intro mem
    have one := line _ mem
    cases one
  · intro mem
    have one := line _ mem
    cases one

/-! What holds everywhere. -/

section
variable {key key' : List Char → Bool} {here here' : Place → Nat → HValue → Bool}

theorem everywhere_items {depth : Nat} {items : List HValue} :
    everywhereItems key here depth items = true ↔
      ∀ v ∈ items, everywhere key here .element depth v = true := by
  induction items with
  | nil => exact ⟨fun _ v mem => (List.not_mem_nil mem).elim, fun _ => rfl⟩
  | cons v items ih => rw [everywhereItems, Bool.and_eq_true, ih, List.forall_mem_cons]

theorem everywhere_fields {depth : Nat} {o : List (String × HValue)} :
    everywhereFields key here depth o = true ↔
      ∀ e ∈ o, key e.1.toList = true ∧ everywhere key here .field depth e.2 = true := by
  induction o with
  | nil => exact ⟨fun _ v mem => (List.not_mem_nil mem).elim, fun _ => rfl⟩
  | cons e o ih =>
    obtain ⟨k, v⟩ := e
    rw [everywhereFields, Bool.and_eq_true, Bool.and_eq_true, ih, List.forall_mem_cons]

/-- Two things that hold everywhere do so together. -/
theorem everywhere_both (v : HValue) {p : Place} {depth : Nat}
    (one : everywhere key here p depth v = true) (two : everywhere key' here' p depth v = true) :
    everywhere (fun k => key k && key' k) (fun p depth v => here p depth v && here' p depth v)
      p depth v = true := by
  induction v using HValue.induct generalizing p depth with
  | array items ih =>
    rw [everywhere, Bool.and_eq_true, everywhere_items] at one two ⊢
    rw [Bool.and_eq_true]
    exact ⟨⟨one.1, two.1⟩, fun v mem => ih v mem (one.2 v mem) (two.2 v mem)⟩
  | object o ih =>
    rw [everywhere, Bool.and_eq_true, everywhere_fields] at one two ⊢
    rw [Bool.and_eq_true]
    refine ⟨⟨one.1, two.1⟩, fun e mem => ⟨?_, ih e mem (one.2 e mem).2 (two.2 e mem).2⟩⟩
    rw [Bool.and_eq_true]
    exact ⟨(one.2 e mem).1, (two.2 e mem).1⟩
  | _ =>
    rw [everywhere] at one two ⊢
    rw [Bool.and_eq_true]
    exact ⟨one, two⟩
    all_goals simp

end

/-! Floats. -/

/-- Whether a value is no float that something does not hold of. -/
def onFloat (q : F64 → Bool) : HValue → Bool
  | .float f => q f
  | _ => true

/-- Whether something holds of every float. -/
def floats (q : F64 → Bool) : HValue → Bool :=
  everywhere (fun _ => true) (fun _ _ v => onFloat q v) .element 0

theorem reread_items_iff {items : List HValue} :
    rereadItems items = items ↔ ∀ v ∈ items, reread v = v := by
  induction items with
  | nil => exact ⟨fun _ v mem => (List.not_mem_nil mem).elim, fun _ => rfl⟩
  | cons v items ih => rw [rereadItems, List.cons.injEq, ih, List.forall_mem_cons]

theorem reread_fields_iff {o : List (String × HValue)} :
    rereadFields o = o ↔ ∀ e ∈ o, reread e.2 = e.2 := by
  induction o with
  | nil => exact ⟨fun _ v mem => (List.not_mem_nil mem).elim, fun _ => rfl⟩
  | cons e o ih =>
    obtain ⟨k, v⟩ := e
    rw [rereadFields, List.cons.injEq, ih, List.forall_mem_cons, Prod.mk.injEq]
    exact and_congr_left fun _ => and_iff_right rfl

/-- A value is read back as itself when each of its floats is. -/
theorem reread_iff (v : HValue) {p : Place} {depth : Nat}
    (thousandths : everywhere (fun _ => true) (fun _ _ v => onFloat F64.isThousandths v)
      p depth v = true) :
    reread v = v ↔ everywhere (fun _ => true) (fun _ _ v => onFloat F64.isSixPlaces v)
      p depth v = true := by
  induction v using HValue.induct generalizing p depth with
  | float f => exact float_reads_iff thousandths
  | array items ih =>
    rw [everywhere, Bool.and_eq_true, everywhere_items] at thousandths
    rw [everywhere, Bool.and_eq_true, everywhere_items, reread, HValue.array.injEq,
      reread_items_iff]
    refine Iff.trans ?_ (and_iff_right rfl).symm
    exact forall₂_congr fun v mem => ih v mem (thousandths.2 v mem)
  | object o ih =>
    rw [everywhere, Bool.and_eq_true, everywhere_fields] at thousandths
    rw [everywhere, Bool.and_eq_true, everywhere_fields, reread, HValue.object.injEq,
      reread_fields_iff]
    refine Iff.trans ?_ (and_iff_right rfl).symm
    exact forall₂_congr fun e mem =>
      (ih e mem (thousandths.2 e mem).2).trans (and_iff_right rfl).symm
  | null => exact ⟨fun _ => rfl, fun _ => rfl⟩
  | bool b => exact ⟨fun _ => rfl, fun _ => rfl⟩
  | int i => exact ⟨fun _ => rfl, fun _ => rfl⟩
  | str s => exact ⟨fun _ => rfl, fun _ => rfl⟩

/-! Comments. -/

/-- Each text that begins as a block comment does stands as a key or an element no more often than
the writer puts it in quotes there. -/
structure CommentsQuoted (p : Place) (v : HValue) : Prop where
  all : ∀ K : String, "/*".toList <+: K.toList → weight p K 1 1 v ≤ written p K v

section
variable {K : String}

theorem uses_items_sum (a b : Nat) (items : List HValue) :
    usesItems K a b items = (items.map (weight .element K a b)).sum := by
  induction items with
  | nil => rfl
  | cons v items ih =>
    rw [usesItems, ih, List.map_cons, List.sum_cons, weight, if_pos rfl]

theorem uses_fields_sum (a b : Nat) (o : List (String × HValue)) : usesFields K a b o =
    (o.map fun e => (if e.1 = K then a else 0) + weight .field K a b e.2).sum := by
  induction o with
  | nil => rfl
  | cons e o ih =>
    obtain ⟨k, v⟩ := e
    rw [usesFields, ih, List.map_cons, List.sum_cons, field_weight]

/-- Of two sums, the one that is no less term by term is the same where it is no more. -/
theorem each_of_sum {α : Type} {f g : α → Nat} {xs : List α} (le : ∀ x ∈ xs, g x ≤ f x)
    (most : (xs.map f).sum ≤ (xs.map g).sum) : ∀ x ∈ xs, f x ≤ g x := by
  induction xs with
  | nil => exact fun x mem => (List.not_mem_nil mem).elim
  | cons x xs ih =>
    rw [List.map_cons, List.map_cons, List.sum_cons, List.sum_cons] at most
    have here := le x List.mem_cons_self
    have rest : (xs.map g).sum ≤ (xs.map f).sum :=
      List.sum_le_sum fun y mem => le y (List.mem_cons_of_mem _ mem)
    exact List.forall_mem_cons.mpr
      ⟨by omega, ih (fun y mem => le y (List.mem_cons_of_mem _ mem)) (by omega)⟩

theorem quotes_for_le (needsQuotes : List Char → Bool) : quotesFor needsQuotes K ≤ 1 := by
  rw [quotesFor]
  split
  · exact le_refl _
  · exact Nat.zero_le _

theorem field_le {k : String} {a b c d : Nat} (le : a ≤ b) (le' : c ≤ d) :
    (if k = K then a else 0) + c ≤ (if k = K then b else 0) + d := by
  split
  · exact Nat.add_le_add le le'
  · exact Nat.add_le_add_left le' 0

/-- The writer puts a text in quotes no more often than the text stands there. -/
theorem written_le (v : HValue) (p : Place) : written p K v ≤ weight p K 1 1 v := by
  induction v using HValue.induct generalizing p with
  | str s =>
    rw [written, weight, weight]
    refine Nat.add_le_add_right ?_ _
    split
    · rw [asElement, asElement]
      split
      · exact quotes_for_le _
      · exact le_refl _
    · exact le_refl _
  | array items ih =>
    rw [written, weight, weight]
    refine Nat.add_le_add_left ?_ _
    rw [uses, uses, uses_items_sum, uses_items_sum]
    exact List.sum_le_sum fun v mem => ih v mem .element
  | object o ih =>
    rw [written, weight, weight]
    refine Nat.add_le_add_left ?_ _
    rw [uses, uses, uses_fields_sum, uses_fields_sum]
    exact List.sum_le_sum fun e mem => field_le (quotes_for_le _) (ih e mem .field)
  | _ => exact le_refl _

end

theorem starts_plainly_of {needsQuotes : List Char → Bool} {s : String}
    (counted : "/*".toList <+: s.toList → 1 ≤ quotesFor needsQuotes s) :
    startsPlainly needsQuotes s.toList = true := by
  rw [startsPlainly, Bool.or_eq_true]
  by_cases comment : "/*".toList <+: s.toList
  · have one := counted comment
    rw [quotesFor] at one
    split at one
    · rename_i needs
      exact .inl needs
    · omega
  · right
    rw [Bool.not_eq_true', ← Bool.not_eq_true, List.isPrefixOf_iff_prefix]
    exact comment

/-- Where the writer puts each text that begins as a block comment does in quotes whenever it
stands as a key or an element, no comment is begun. -/
theorem safe_of_written (v : HValue) {p : Place} {depth : Nat} (quoted : CommentsQuoted p v) :
    everywhere (startsPlainly keyNeedsQuotes) (fun p _ v => startsWell p v) p depth v = true := by
  induction v using HValue.induct generalizing p depth with
  | str s =>
    rw [everywhere]
    · cases p with
      | field => rfl
      | element =>
        refine starts_plainly_of fun comment => ?_
        have most := quoted.all s comment
        rw [written, weight, weight, if_pos rfl, if_pos rfl, asElement, asElement, if_pos rfl,
          if_pos rfl] at most
        exact Nat.le_of_add_le_add_right most
    all_goals simp
  | array items ih =>
    rw [everywhere, Bool.and_eq_true, everywhere_items]
    refine ⟨by cases p <;> rfl, fun v mem => ih v mem ⟨fun K comment => ?_⟩⟩
    have most := quoted.all K comment
    rw [written, weight, weight] at most
    have inside := Nat.le_of_add_le_add_left most
    rw [uses, uses, uses_items_sum, uses_items_sum] at inside
    exact each_of_sum (fun v _ => written_le v .element) inside v mem
  | object o ih =>
    have each : ∀ K : String, "/*".toList <+: K.toList → ∀ e ∈ o,
        (if e.1 = K then 1 else 0) + weight .field K 1 1 e.2 ≤
          (if e.1 = K then quotesFor keyNeedsQuotes K else 0) + written .field K e.2 := by
      intro K comment e mem
      have most := quoted.all K comment
      rw [written, weight, weight] at most
      have inside := Nat.le_of_add_le_add_left most
      rw [uses, uses, uses_fields_sum, uses_fields_sum] at inside
      exact each_of_sum (fun e _ => field_le (quotes_for_le _) (written_le e.2 .field)) inside e mem
    rw [everywhere, Bool.and_eq_true, everywhere_fields]
    refine ⟨by cases p <;> rfl, fun e mem => ⟨starts_plainly_of fun comment => ?_,
      ih e mem ⟨fun K comment => ?_⟩⟩⟩
    · have most := each e.1 comment e mem
      have least := @written_le e.1 e.2 .field
      rw [if_pos rfl, if_pos rfl] at most
      omega
    · have most := each K comment e mem
      have least := @quotes_for_le K keyNeedsQuotes
      split at most <;> omega
  | _ => cases p <;> rfl

/-! How deep the reader goes. -/

section
variable {src : List Char} {i j : Nat}

theorem items_read {s : Bytes} {read : Nat → Res (HValue × Nat)} {P : HValue → Prop}
    (each : ∀ i v j, read i = .ok (v, j) → P v) {steps : Nat} {items items' : List HValue}
    (before : ∀ v ∈ items, P v) (run : itemsFrom s read steps i items = .ok (items', j)) :
    ∀ v ∈ items', P v := by
  induction steps generalizing i items with
  | zero => cases run
  | succ steps ih =>
    rw [itemsFrom] at run
    cases skipped : skipTrivia s (s.length + 1) i with
    | error halt =>
      rw [skipped] at run
      cases run
    | ok i' =>
      rw [skipped] at run
      dsimp only [bind, Except.bind] at run
      cases here : s[i']? with
      | none =>
        rw [here] at run
        cases run
      | some c =>
        rw [here] at run
        dsimp only at run
        split at run
        · cases run
          exact before
        · split at run
          · exact ih before run
          · cases value : read i' with
            | error halt =>
              rw [value] at run
              cases run
            | ok read' =>
              rw [value] at run
              exact ih (List.forall_mem_append.mpr
                ⟨before, List.forall_mem_singleton.mpr (each _ _ _ value)⟩) run

theorem entries_read {s : Bytes} {read : Nat → Res (HValue × Nat)} {P : HValue → Prop}
    (each : ∀ i v j, read i = .ok (v, j) → P v) {steps : Nat} {obj obj' : Header}
    (before : ∀ e ∈ obj, P e.2) (run : entriesFrom src s read steps i obj = .ok (obj', j)) :
    ∀ e ∈ obj', P e.2 := by
  induction steps generalizing i obj with
  | zero => cases run
  | succ steps ih =>
    rw [entriesFrom] at run
    cases skipped : skipTrivia s (s.length + 1) i with
    | error halt =>
      rw [skipped] at run
      cases run
    | ok i' =>
      rw [skipped] at run
      dsimp only [bind, Except.bind] at run
      cases here : s[i']? with
      | none =>
        rw [here] at run
        cases run
      | some c =>
        rw [here] at run
        dsimp only at run
        split at run
        · cases run
          exact before
        · split at run
          · exact ih before run
          · cases keyed : key src s i' with
            | error halt =>
              rw [keyed] at run
              cases run
            | ok read' =>
              rw [keyed] at run
              dsimp only at run
              cases skipped₂ : skipTrivia s (s.length + 1) read'.2 with
              | error halt =>
                rw [skipped₂] at run
                cases run
              | ok i₂ =>
                rw [skipped₂] at run
                dsimp only at run
                split at run
                · cases run
                · cases skipped₃ : skipInlineTrivia s (s.length + 1) (i₂ + 1) with
                  | error halt =>
                    rw [skipped₃] at run
                    cases run
                  | ok i₃ =>
                    rw [skipped₃] at run
                    dsimp only at run
                    cases value : read i₃ with
                    | error halt =>
                      rw [value] at run
                      cases run
                    | ok read'' =>
                      rw [value] at run
                      exact ih (List.forall_mem_append.mpr
                        ⟨before, List.forall_mem_singleton.mpr (each _ _ _ value)⟩) run

/-- What stands without quotes has no values in it. -/
theorem classify_fits (raw : List Char) {p : Place} {depth : Nat} :
    everywhere (fun _ => true) (fun _ depth v => fitsAt depth v) p depth (classify raw) = true := by
  rw [classify]
  dsimp only
  split
  · rfl
  · split
    · rfl
    · split
      · rfl
      · split
        · rfl
        · split
          · rfl
          · rfl

/-- What is read is no deeper than the reader goes. -/
theorem read_fits {levels depth : Nat} {p : Place} {v : HValue}
    (run : Hjson.value src (bytes src) levels depth i = .ok (v, j)) :
    everywhere (fun _ => true) (fun _ depth v => fitsAt depth v) p depth v = true := by
  induction levels generalizing depth p v i j with
  | zero => cases run
  | succ levels ih =>
    by_cases bound : i ≤ (bytes src).length
    · obtain ⟨i', _, _, _, kinds⟩ := value_from bound run
      rcases kinds with ⟨obj, _, rfl, read⟩ | ⟨items, _, rfl, read⟩ | ⟨t, _, rfl, _⟩ | read
      · obtain ⟨shallow, read⟩ := object_from read
        have each := entries_read (P := fun v => everywhere (fun _ => true)
          (fun _ depth v => fitsAt depth v) .field (depth + 2) v = true)
          (fun _ _ _ run => ih run) (List.forall_mem_nil _) read
        rw [everywhere, Bool.and_eq_true, everywhere_fields]
        refine ⟨decide_eq_true shallow, fun e mem => ⟨rfl, ?_⟩⟩
        obtain ⟨e', inside, rfl⟩ := List.mem_map.mp mem
        exact each e' inside
      · obtain ⟨shallow, read⟩ := array_from read
        have each := items_read (P := fun v => everywhere (fun _ => true)
          (fun _ depth v => fitsAt depth v) .element (depth + 2) v = true)
          (fun _ _ _ run => ih run) (List.forall_mem_nil _) read
        rw [everywhere, Bool.and_eq_true, everywhere_items]
        exact ⟨decide_eq_true shallow, each⟩
      · rfl
      · obtain ⟨raw, _, _, _, _, rfl, _⟩ := quoteless_shape read
        exact classify_fits raw
    · have past : (bytes src)[i]? = none := List.getElem?_eq_none (Nat.le_of_not_le bound)
      rw [Hjson.value, skipInlineTrivia, past] at run
      dsimp only [bind, Except.bind] at run
      rw [past] at run
      cases run

end

/-! The whole. -/

/-- How a value alone is read: what is before it is passed, then it is read, then what is after
it is passed. -/
inductive ReadAlone (src : List Char) (v : HValue) : Prop
  | mk (i j k : Nat) (first : skipTrivia (bytes src) ((bytes src).length + 1) 0 = .ok i)
    (read : Hjson.value src (bytes src) (maxNesting + 2) 0 i = .ok (v, j))
    (last : skipTrivia (bytes src) ((bytes src).length + 1) j = .ok k)

theorem parse_from {src : List Char} {v : HValue} (run : parseValue src = .ok v) :
    ReadAlone src v := by
  rw [parseValue] at run
  dsimp only [bind, Except.bind] at run
  cases first : skipTrivia (bytes src) ((bytes src).length + 1) 0 with
  | error halt =>
    rw [first] at run
    cases run
  | ok i =>
    rw [first] at run
    dsimp only at run
    cases read : Hjson.value src (bytes src) (maxNesting + 2) 0 i with
    | error halt =>
      rw [read] at run
      cases run
    | ok out =>
      obtain ⟨w, j⟩ := out
      rw [read] at run
      dsimp only at run
      cases last : skipTrivia (bytes src) ((bytes src).length + 1) j with
      | error halt =>
        rw [last] at run
        cases run
      | ok k =>
        rw [last] at run
        dsimp only at run
        split at run
        · cases run
        · cases run
          exact ⟨i, j, k, first, read, last⟩

/-- What is read back as itself begins no comment and is no deeper than the reader goes. -/
theorem readable_of_parse {v : HValue} (run : parseValue (value v) = .ok v) :
    readable .element 0 v = true := by
  obtain ⟨i, j, k, first, read, _⟩ := parse_from run
  have lines := value_no_feed v
  have feeds : 0x0A ∉ bytes (value v) := by
    intro mem
    obtain ⟨c, inside, code⟩ := char_of_byte mem (by decide)
    exact lines.1 ((Char.toNat_inj.mp code : c = '\n') ▸ inside)
  obtain ⟨_, ready, stopped⟩ := skip_trivia_ready feeds first
  have safe : everywhere (startsPlainly keyNeedsQuotes) (fun p _ v => startsWell p v)
      .element 0 v = true := by
    refine safe_of_written v ⟨fun K comment => ?_⟩
    have inside : i ≤ (bytes (value v)).length := by
      by_contra past
      have none' : (bytes (value v))[i]? = none :=
        List.getElem?_eq_none (Nat.le_of_not_le past)
      rw [Hjson.value, skipInlineTrivia, none'] at read
      dsimp only [bind, Except.bind] at read
      rw [none'] at read
      cases read
    obtain ⟨_, bound, _, _, count⟩ :=
      value_counts comment lines (maxNesting + 2) 0 i v j inside read
    have counted := count stopped (ready ready_start)
    have start : Rest (value v) 0 (value v ++ []) := by
      rw [List.append_nil]
      exact rest_start _
    have closes : Closes [] := ⟨[], [], rfl, by simp, by simp [bytes]⟩
    have most := (@value_marks (value v) K comment v 0 [] start closes).1
    have late := @entries_mono (value v) K _ _ bound
    rw [length_bytes] at late
    have early : entries (value v) K 0 = 0 := Nat.count_zero _
    rw [Nat.zero_add] at most
    rw [weight, if_pos rfl]
    omega
  have whole := everywhere_both v safe (read_fits read)
  rw [readable]
  simpa only [Bool.and_true] using whole

end Write

open Hjson in
/-- A value whose floats are multiples of 1/1024 is read back as itself exactly when none of its
texts without quotes begins a block comment as a key, as an element or alone, none of it is
deeper than the reader goes, and each float is kept by `as f32` and by six places. -/
theorem written_value_read_iff (v : HValue)
    (thousandths : Write.floats F64.isThousandths v = true) :
    (parseValue (Write.value v) = .ok v ∧ '\n' ∉ Write.value v) ↔
      (Write.readable .element 0 v && Write.floats F64.isSixPlaces v) = true := by
  rw [Bool.and_eq_true, and_iff_left (Write.value_no_feed v).1]
  constructor
  · intro run
    have well := Write.readable_of_parse run
    rw [Write.parse_reads_back well] at run
    exact ⟨well, (Write.reread_iff v thousandths).mp (Except.ok.inj run)⟩
  · rintro ⟨well, six⟩
    rw [Write.parse_reads_back well, (Write.reread_iff v thousandths).mpr six]

open Hjson in
theorem written_value_read_iff_half :
    Write.floats F64.isThousandths (.array [.str "/*", .float (.ofRatio false 1 2)]) = true ∧
      ((parseValue (Write.value (.array [.str "/*", .float (.ofRatio false 1 2)])) =
          .ok (.array [.str "/*", .float (.ofRatio false 1 2)]) ∧
        '\n' ∉ Write.value (.array [.str "/*", .float (.ofRatio false 1 2)])) ↔
      (Write.readable .element 0 (.array [.str "/*", .float (.ofRatio false 1 2)]) &&
        Write.floats F64.isSixPlaces (.array [.str "/*", .float (.ofRatio false 1 2)])) = true) :=
  have thousandths :
      Write.floats F64.isThousandths (.array [.str "/*", .float (.ofRatio false 1 2)]) = true := by
    decide +kernel
  ⟨thousandths, written_value_read_iff _ thousandths⟩

open Hjson in
/-- Two texts of an array are read back as one other text: the first begins a block comment that
the second ends. -/
theorem written_comment_lost :
    Write.floats F64.isThousandths (.array [.str "/*", .str "*/ x"]) = true ∧
      parseValue (Write.value (.array [.str "/*", .str "*/ x"])) = .ok (.array [.str "x"]) ∧
      parseValue (Write.value (.array [.str "/*", .str "*/ x"])) ≠
        .ok (.array [.str "/*", .str "*/ x"]) := by
  have read : parseValue (Write.value (.array [.str "/*", .str "*/ x"])) =
      .ok (.array [.str "x"]) := rfl
  refine ⟨rfl, read, fun same => ?_⟩
  rw [read] at same
  have one := HValue.array.inj (Except.ok.inj same)
  exact absurd (congrArg List.length one) (by decide)

end Smysl
