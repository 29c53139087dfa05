import Mathlib.Order.Interval.Finset.Nat
import Mathlib.Data.Nat.Count
import Smysl.Surface.WriteReads

/-!
Where the reader can take a text that begins as a block comment does for a key or an element:
only from quotes, and not from ones that are escaped or follow a colon. Each such key or element
of a value that is read has its own place in the text.
-/
namespace Smysl
open ByteString Utf8

namespace Hjson

section
variable (s : Bytes)

/-- Whether the last byte before a place that is not white is neither a colon nor a backslash. -/
def led (p : Nat) : Bool :=
  match ((s.take p).reverse.dropWhile isAsciiWhitespace).head? with
  | none => true
  | some b => b != 0x3A && b != 0x5C

/-- A place from which any quote that comes next, after white space, is led. -/
def Ready (i : Nat) : Prop :=
  ∀ p, i ≤ p → (∀ k, i ≤ k → k < p → ∃ b, s[k]? = some b ∧ isAsciiWhitespace b = true) →
    s[p]? = some 0x22 → led s p = true

end

section
variable {s : Bytes} {i : Nat}

theorem led_after {b : UInt8} {p : Nat} (here : s[i]? = some b)
    (solid : isAsciiWhitespace b = false) (white : ∀ k, i < k → k < p →
      ∃ w, s[k]? = some w ∧ isAsciiWhitespace w = true) (later : i < p) :
    ((s.take p).reverse.dropWhile isAsciiWhitespace).head? = some b := by
  induction p with
  | zero => omega
  | succ p ih =>
    rcases Nat.lt_or_eq_of_le (Nat.le_of_lt_succ later) with before | rfl
    · obtain ⟨w, at_, blank⟩ := white p before (Nat.lt_succ_self p)
      rw [List.take_add_one, at_, Option.toList_some, List.reverse_append, List.reverse_singleton,
        List.singleton_append, List.dropWhile_cons_of_pos blank]
      exact ih (fun k above below => white k above (by omega)) before
    · rw [List.take_add_one, here, Option.toList_some, List.reverse_append, List.reverse_singleton,
        List.singleton_append, List.dropWhile_cons_of_neg (by rw [solid]; exact Bool.false_ne_true)]
      rfl

theorem ready_after {b : UInt8} (here : s[i]? = some b) (solid : isAsciiWhitespace b = false)
    (plain : b ≠ 0x3A ∧ b ≠ 0x5C) : Ready s (i + 1) := by
  intro p later white _
  rw [led, led_after here solid (fun k above below => white k above below) later]
  simp [plain.1, plain.2]

theorem ready_end (past : s.length ≤ i) : Ready s i := by
  intro p later _ quote
  have inside := (List.getElem?_eq_some_iff.mp quote).1
  omega

theorem ready_start : Ready s 0 := by
  intro p _ white _
  have all : ∀ b ∈ (s.take p).reverse, isAsciiWhitespace b = true := by
    intro b mem
    obtain ⟨k, here⟩ := List.mem_iff_getElem?.mp (List.mem_reverse.mp mem)
    rw [List.getElem?_take] at here
    split at here
    · rename_i below
      obtain ⟨w, at_, blank⟩ := white k (Nat.zero_le k) below
      rw [at_] at here
      cases here
      exact blank
    · cases here
  rw [led, List.dropWhile_eq_nil_iff.mpr all]
  rfl

theorem Ready.next {b : UInt8} (ready : Ready s i) (here : s[i]? = some b)
    (white : isAsciiWhitespace b = true) : Ready s (i + 1) := by
  intro p later blank quote
  refine ready p (by omega) (fun k above below => ?_) quote
  rcases Nat.lt_or_eq_of_le above with after | rfl
  · exact blank k after below
  · exact ⟨b, here, white⟩

/-- Where there is nothing to pass. -/
def Stopped (s : Bytes) (j : Nat) : Prop :=
  ∀ b, s[j]? = some b → isAsciiWhitespace b = false ∧ b ≠ 0x23 ∧
    ¬ (b = 0x2F ∧ s[j + 1]? = some 0x2F) ∧ ¬ (b = 0x2F ∧ s[j + 1]? = some 0x2A)

theorem skip_line_end (lines : 0x0A ∉ s) (inside : i ≤ s.length) : skipLine s i = s.length := by
  have all : (s.drop i).takeWhile (· != 0x0A) = s.drop i := List.takeWhile_eq_self_iff.mpr
    fun b mem => by
      have other : b ≠ 0x0A := fun same => lines (same ▸ List.mem_of_mem_drop mem)
      simpa using other
  rw [skipLine, all, List.length_drop]
  omega

theorem skip_block_ready (s : Bytes) (i : Nat) : Ready s (skipBlock s i) := by
  rcases comment_end_found (s.drop i) with none' | found
  · refine ready_end ?_
    rw [skipBlock, none', List.length_drop]
    omega
  · rw [List.getElem?_drop] at found
    have inside := (List.getElem?_eq_some_iff.mp found).1
    have next : skipBlock s i = i + (commentEnd (s.drop i) + 1) + 1 := by
      rw [skipBlock]
      omega
    rw [next]
    exact ready_after found (by decide) (by decide)

/-- What is passed keeps a place ready, and there is nothing more to pass. -/
theorem skip_trivia_ready (lines : 0x0A ∉ s) {steps j : Nat}
    (run : skipTrivia s steps i = .ok j) : i ≤ j ∧ (Ready s i → Ready s j) ∧ Stopped s j := by
  induction steps generalizing i with
  | zero => cases run
  | succ steps ih =>
    rw [skipTrivia] at run
    cases here : s[i]? with
    | none =>
      rw [here] at run
      cases run
      exact ⟨le_refl _, id, fun b at_ => by rw [here] at at_; cases at_⟩
    | some c =>
      have inside := (List.getElem?_eq_some_iff.mp here).1
      rw [here] at run
      dsimp only at run
      have line : ∀ {k}, skipLine s i = k → k = s.length ∧ Ready s k := by
        rintro k rfl
        rw [skip_line_end lines inside.le]
        exact ⟨rfl, ready_end (le_refl _)⟩
      split at run
      · rename_i white
        obtain ⟨le, ready, rest⟩ := ih run
        exact ⟨by omega, fun before => ready (before.next here white), rest⟩
      · rename_i solid
        split at run
        · obtain ⟨last, ready'⟩ := line rfl
          obtain ⟨le, ready, rest⟩ := ih run
          exact ⟨by omega, fun _ => ready ready', rest⟩
        · rename_i no_hash
          split at run
          · obtain ⟨last, ready'⟩ := line rfl
            obtain ⟨le, ready, rest⟩ := ih run
            exact ⟨by omega, fun _ => ready ready', rest⟩
          · rename_i no_line
            split at run
            · rename_i block
              have two := byte_at_of_two block.2
              have past := skip_block_le two
              obtain ⟨le, ready, rest⟩ := ih run
              exact ⟨by omega, fun _ => ready (skip_block_ready s _), rest⟩
            · rename_i no_block
              cases run
              refine ⟨le_refl _, id, fun b at_ => ?_⟩
              rw [here] at at_
              cases at_
              exact ⟨by simpa using solid, no_hash, no_line, no_block⟩

theorem skip_inline_stopped {steps : Nat} {j : Nat} (stopped : Stopped s i)
    (run : skipInlineTrivia s steps i = .ok j) : j = i := by
  cases steps with
  | zero => cases run
  | succ steps =>
    rw [skipInlineTrivia] at run
    cases here : s[i]? with
    | none =>
      rw [here] at run
      cases run
      rfl
    | some c =>
      obtain ⟨solid, no_hash, no_line, _⟩ := stopped c here
      simp only [isAsciiWhitespace, Bool.or_eq_false_iff, beq_eq_false_iff_ne] at solid
      rw [here] at run
      dsimp only at run
      rw [if_neg (by simp [solid.1.1.1.1, solid.1.1.1.2, solid.2]), if_neg no_hash,
        if_neg no_line] at run
      cases run
      rfl

theorem skip_inline_within {steps j : Nat} (inside : i ≤ s.length)
    (run : skipInlineTrivia s steps i = .ok j) : i ≤ j ∧ j ≤ s.length := by
  induction steps generalizing i with
  | zero => cases run
  | succ steps ih =>
    have line : i ≤ skipLine s i ∧ skipLine s i ≤ s.length := by
      have most := (List.takeWhile_sublist (· != 0x0A) (l := s.drop i)).length_le
      rw [List.length_drop] at most
      rw [skipLine]
      omega
    rw [skipInlineTrivia] at run
    cases here : s[i]? with
    | none =>
      rw [here] at run
      cases run
      exact ⟨le_refl _, inside⟩
    | some c =>
      have below := (List.getElem?_eq_some_iff.mp here).1
      rw [here] at run
      dsimp only at run
      split at run
      · obtain ⟨le, bound⟩ := ih (by omega) run
        exact ⟨by omega, bound⟩
      · split at run
        · obtain ⟨le, bound⟩ := ih line.2 run
          exact ⟨line.1.trans le, bound⟩
        · split at run
          · obtain ⟨le, bound⟩ := ih line.2 run
            exact ⟨line.1.trans le, bound⟩
          · cases run
            exact ⟨le_refl _, inside⟩

end

/-! Tokens. -/

section
variable {src : List Char} {i : Nat}

theorem quoted_from_ready {steps j : Nat} {out : List Char} {t : String}
    (run : quotedFrom src (bytes src) steps i out = .ok (t, j)) :
    i < j ∧ j ≤ (bytes src).length ∧ Ready (bytes src) j ∧ out <+: t.toList := by
  induction steps generalizing i out with
  | zero => cases run
  | succ steps ih =>
    have pushed : ∀ {k ch}, i < k → quotedFrom src (bytes src) steps k (out ++ [ch]) = .ok (t, j) →
        i < j ∧ j ≤ (bytes src).length ∧ Ready (bytes src) j ∧ out <+: t.toList := by
      intro k ch later run
      obtain ⟨lt, bound, ready, front⟩ := ih run
      exact ⟨by omega, bound, ready, (List.prefix_append _ _).trans front⟩
    rw [quotedFrom] at run
    cases here : (bytes src)[i]? with
    | none =>
      rw [here] at run
      cases run
    | some c =>
      rw [here] at run
      dsimp only at run
      split at run
      · rename_i quote
        cases run
        rw [String.toList_ofList]
        have inside := (List.getElem?_eq_some_iff.mp here).1
        exact ⟨Nat.lt_succ_self i, inside,
          ready_after here (by rw [quote]; decide) (by rw [quote]; decide), List.prefix_refl _⟩
      · split at run
        · cases next : (bytes src)[i + 1]? with
          | none =>
            rw [next] at run
            cases run
          | some e =>
            rw [next] at run
            dsimp only at run
            cases known : escaped e with
            | some ch =>
              rw [known] at run
              exact pushed (by omega) run
            | none =>
              rw [known] at run
              dsimp only at run
              split at run
              · cases digits : slice (i + 2) (i + 6) src with
                | none =>
                  rw [digits] at run
                  cases run
                | some hex =>
                  rw [digits] at run
                  dsimp only at run
                  cases code : (parseHex hex).bind charFrom with
                  | none =>
                    rw [code] at run
                    cases run
                  | some ch =>
                    rw [code] at run
                    exact pushed (by omega) run
              · cases run
        · cases left : sliceFrom i src with
          | none =>
            rw [left] at run
            cases run
          | some cs =>
            rw [left] at run
            cases cs with
            | nil => cases run
            | cons ch cs =>
              have positive := ch.utf8Size_pos
              exact pushed (by omega) run

theorem quoted_ready {j : Nat} {t : String} (run : quoted src (bytes src) i = .ok (t, j)) :
    i < j ∧ j ≤ (bytes src).length ∧ Ready (bytes src) j := by
  obtain ⟨lt, bound, ready, _⟩ := quoted_from_ready run
  exact ⟨by omega, bound, ready⟩

/-- What a text is taken for, where it is taken for a text. -/
theorem classify_text {raw : List Char} {t : String} (same : classify raw = .str t) :
    t = String.ofList raw := by
  rw [classify] at same
  dsimp only at same
  split at same
  · cases same
  · split at same
    · cases same
    · split at same
      · cases same
      · split at same
        · cases same
        · split at same
          · cases same
          · exact (HValue.str.inj same).symm

/-- A value without quotes stands where it is read, with white space after it, up to what ends
it. -/
theorem quoteless_shape {v : HValue} {j : Nat}
    (run : quoteless src (bytes src) i = .ok (v, j)) :
    ∃ raw blank post, Rest src i (raw ++ (blank ++ post)) ∧ raw ≠ [] ∧ v = classify raw ∧
      j = i + width raw ∧ (∀ c ∈ blank, isWhitespace c = true) ∧
      ((bytes src).drop i |>.takeWhile isQuotelessByte).length = width (raw ++ blank) := by
  rw [quoteless] at run
  dsimp only at run
  generalize taken : (((bytes src).drop i).takeWhile isQuotelessByte).length = n at run
  cases text : slice i (i + n) src with
  | none =>
    rw [text] at run
    cases run
  | some mid =>
    rw [text] at run
    change (if (trimEnd mid).isEmpty then Except.error (Halt.refused i)
      else .ok (classify (trimEnd mid), i + width (trimEnd mid))) = _ at run
    split at run
    · cases run
    · rename_i filled
      cases run
      obtain ⟨post, rest, stop⟩ := rest_of_slice text
      have parts : mid = trimEnd mid ++ mid.rtakeWhile isWhitespace :=
        List.rdropWhile_append_rtakeWhile.symm
      rw [parts, List.append_assoc] at rest
      refine ⟨trimEnd mid, mid.rtakeWhile isWhitespace, post, rest, by simpa using filled, rfl,
        rfl, fun c mem => List.mem_rtakeWhile_imp mem, ?_⟩
      rw [← parts]
      omega

end

/-! How often a text is used. -/

/-- What a value counts as an element. -/
def asElement (K : String) (b : Nat) : HValue → Nat
  | .str s => if s = K then b else 0
  | _ => 0

section
variable (K : String) (a b : Nat)

mutual

/-- How often a text stands in a value, where a key counts `a` and an element `b`. -/
def uses : HValue → Nat
  | .array items => usesItems items
  | .object o => usesFields o
  | _ => 0

def usesItems : List HValue → Nat
  | [] => 0
  | v :: items => asElement K b v + uses v + usesItems items

def usesFields : List (String × HValue) → Nat
  | [] => 0
  | (k, v) :: o => (if k = K then a else 0) + uses v + usesFields o

end

end

theorem uses_items_append (K : String) (a b : Nat) (xs ys : List HValue) :
    usesItems K a b (xs ++ ys) = usesItems K a b xs + usesItems K a b ys := by
  induction xs with
  | nil => simp [usesItems]
  | cons v xs ih =>
    rw [List.cons_append, usesItems, usesItems, ih, Nat.add_assoc _ (usesItems _ _ _ xs)]

theorem uses_fields_append (K : String) (a b : Nat) (xs ys : List (String × HValue)) :
    usesFields K a b (xs ++ ys) = usesFields K a b xs + usesFields K a b ys := by
  induction xs with
  | nil => simp [usesFields]
  | cons e xs ih =>
    obtain ⟨k, v⟩ := e
    rw [List.cons_append, usesFields, usesFields, ih, Nat.add_assoc _ (usesFields _ _ _ xs)]

/-! Where a text can be taken from. -/

section
variable (src : List Char) (K : String)

/-- Whether there are quotes at a place that are led and hold a text. -/
def entry (p : Nat) : Bool :=
  led (bytes src) p && (bytes src)[p]? == some 0x22 &&
    match quoted src (bytes src) p with
    | .ok (t, _) => t == K
    | .error _ => false

/-- How many such places there are before one. -/
def entries (p : Nat) : Nat := Nat.count (fun k => entry src K k = true) p

end

section
variable {src : List Char} {K : String} {i j : Nat}

theorem entries_mono (le : i ≤ j) : entries src K i ≤ entries src K j :=
  Nat.count_monotone _ le

theorem entries_succ (here : entry src K i = true) :
    entries src K (i + 1) = entries src K i + 1 := by
  rw [entries, Nat.count_succ, if_pos here]
  rfl

theorem entries_step (here : entry src K i = true) (later : i < j) :
    entries src K i + 1 ≤ entries src K j := by
  rw [← entries_succ here]
  exact entries_mono later

theorem entry_of_quoted (ready : Ready (bytes src) i) (quote : (bytes src)[i]? = some 0x22)
    (run : quoted src (bytes src) i = .ok (K, j)) : entry src K i = true := by
  have led' := ready i (le_refl _) (fun k above below => by omega) quote
  rw [entry, led', quote, run]
  simp

/-- A text that begins a block comment does not stand where there is nothing to pass. -/
theorem comment_passed {post : List Char} (comment : "/*".toList <+: K.toList)
    (rest : Rest src i (K.toList ++ post)) : ¬ Stopped (bytes src) i := by
  intro stopped
  obtain ⟨t, same⟩ := comment
  rw [← same] at rest
  have first : (bytes src)[i]? = some 0x2F := rest.byte 0
  have second : (bytes src)[i + 1]? = some 0x2A := rest.byte 1
  exact (stopped _ first).2.2.2 ⟨rfl, second⟩

/-- A key that begins as a block comment does is taken from quotes. -/
theorem key_entries (comment : "/*".toList <+: K.toList) (ready : Ready (bytes src) i)
    (stopped : Stopped (bytes src) i) {k : HKey} (run : key src (bytes src) i = .ok (k, j)) :
    i < j ∧ entries src K i + (if k.text = K then 1 else 0) ≤ entries src K j := by
  rw [key] at run
  split at run
  · rename_i quote
    cases text : quoted src (bytes src) i with
    | error halt =>
      rw [text] at run
      cases run
    | ok read =>
      obtain ⟨t, j'⟩ := read
      rw [text] at run
      cases run
      obtain ⟨later, _, _⟩ := quoted_ready text
      refine ⟨later, ?_⟩
      split
      · rename_i same
        change t = K at same
        rw [same] at text
        exact entries_step (entry_of_quoted ready quote text) later
      · exact entries_mono later.le
  · dsimp only at run
    split at run
    · cases run
    · rename_i moved
      cases text : slice i (i + (((bytes src).drop i).takeWhile isKeyByte).length) src with
      | none =>
        rw [text] at run
        cases run
      | some mid =>
        rw [text] at run
        cases run
        refine ⟨by omega, ?_⟩
        obtain ⟨post, rest, _⟩ := rest_of_slice text
        rw [if_neg, Nat.add_zero]
        · exact entries_mono (Nat.le_add_right _ _)
        · intro same
          have spelled : mid = K.toList := by rw [← same, String.toList_ofList]
          exact comment_passed comment (spelled ▸ rest) stopped

/-- After a value without quotes there are none, before what ends it. -/
theorem quoteless_ready (lines : '\n' ∉ src ∧ '\r' ∉ src) {v : HValue}
    (run : quoteless src (bytes src) i = .ok (v, j)) : i < j ∧ Ready (bytes src) j := by
  obtain ⟨raw, blank, post, rest, filled, _, rfl, spaces, taken⟩ := quoteless_shape run
  have positive := width_pos filled
  refine ⟨by omega, fun p later white quote => ?_⟩
  exfalso
  have no_byte : ∀ (c : Char) (b : UInt8), c ∉ src → b.toNat < 128 → c.toNat = b.toNat →
      b ∉ bytes src := by
    intro c b none' low code mem
    obtain ⟨d, inside, same⟩ := char_of_byte mem low
    exact none' (Char.toNat_inj.mp (same.trans code.symm) ▸ inside)
  have no_feed := no_byte '\n' 0x0A lines.1 (by decide) rfl
  have no_return := no_byte '\r' 0x0D lines.2 (by decide) rfl
  have inside := (List.getElem?_eq_some_iff.mp quote).1
  have long := rest.length
  rw [length_bytes] at inside
  rw [width_append] at taken
  -- the run of bytes does not stop before the quotes
  have past : p < i + (width raw + width blank) := by
    by_contra short
    rcases @scan_end (bytes src) isQuotelessByte i (by rw [length_bytes]; omega) with
      done | ⟨b, here, stops⟩
    · rw [taken, length_bytes] at done
      omega
    · rw [taken] at here
      rcases Nat.lt_or_eq_of_le (Nat.le_of_not_lt short) with before | same
      · obtain ⟨w, at_, blank'⟩ := white _ (by omega) before
        rw [at_] at here
        cases here
        have mem := List.mem_of_getElem? at_
        simp only [isAsciiWhitespace, Bool.or_eq_true, beq_iff_eq] at blank'
        rcases blank' with (((rfl | rfl) | rfl) | rfl) | rfl
        · exact absurd stops (by decide)
        · exact absurd stops (by decide)
        · exact no_feed mem
        · exact absurd stops (by decide)
        · exact no_return mem
      · rw [same, quote] at here
        cases here
        exact absurd stops (by decide)
  have at_ := rest.byte (p - i)
  rw [Nat.add_sub_cancel' (by omega), quote, bytes_append, bytes_append,
    List.getElem?_append_right (by rw [length_bytes]; omega),
    List.getElem?_append_left (by rw [length_bytes, length_bytes]; omega)] at at_
  obtain ⟨c, mem, code⟩ := char_of_byte (List.mem_of_getElem? at_.symm) (by decide)
  have same : c = '"' := Char.toNat_inj.mp code
  have space := spaces c mem
  rw [same] at space
  cases space

/-! Loops. -/

/-- A reader of values moves on, to where the next quotes are led, and what it reads has places
for each use of a text. -/
def Counts (src : List Char) (K : String) (read : Nat → Res (HValue × Nat)) : Prop :=
  ∀ i v j, i ≤ (bytes src).length → read i = .ok (v, j) →
    i ≤ j ∧ j ≤ (bytes src).length ∧ Ready (bytes src) j ∧
      entries src K i + uses K 1 1 v ≤ entries src K j ∧
      (Stopped (bytes src) i → Ready (bytes src) i →
        entries src K i + asElement K 1 v + uses K 1 1 v ≤ entries src K j)

variable {read : Nat → Res (HValue × Nat)}

theorem items_count (lines : 0x0A ∉ bytes src) (counts : Counts src K read) {steps : Nat}
    {items items' : List HValue} (ready : Ready (bytes src) i)
    (run : itemsFrom (bytes src) read steps i items = .ok (items', j)) :
    ∃ new, items' = items ++ new ∧ i < j ∧ j ≤ (bytes src).length ∧ Ready (bytes src) j ∧
      entries src K i + usesItems K 1 1 new ≤ entries src K j := by
  induction steps generalizing i items with
  | zero => cases run
  | succ steps ih =>
    rw [itemsFrom] at run
    cases skipped : skipTrivia (bytes src) ((bytes src).length + 1) i with
    | error halt =>
      rw [skipped] at run
      cases run
    | ok i' =>
      obtain ⟨le, ready', stopped⟩ := skip_trivia_ready lines skipped
      have mono := @entries_mono src K _ _ le
      rw [skipped] at run
      dsimp only [bind, Except.bind] at run
      cases here : (bytes src)[i']? with
      | none =>
        rw [here] at run
        cases run
      | some c =>
        have inside := (List.getElem?_eq_some_iff.mp here).1
        have next := @entries_mono src K _ _ (Nat.le_add_right i' 1)
        rw [here] at run
        dsimp only at run
        split at run
        · rename_i closes
          cases run
          refine ⟨[], (List.append_nil _).symm, by omega, by omega,
            ready_after here (by rw [closes]; decide) (by rw [closes]; decide), ?_⟩
          rw [usesItems]
          omega
        · split at run
          · rename_i comma
            obtain ⟨new, same, lt, bound, ready'', count⟩ :=
              ih (ready_after here (by rw [comma]; decide) (by rw [comma]; decide)) run
            exact ⟨new, same, by omega, bound, ready'', by omega⟩
          · cases value : read i' with
            | error halt =>
              rw [value] at run
              cases run
            | ok read' =>
              obtain ⟨v, k⟩ := read'
              rw [value] at run
              obtain ⟨le', _, after, _, element⟩ := counts i' v k inside.le value
              have count := element stopped (ready' ready)
              obtain ⟨new, same, lt, bound, ready'', count'⟩ := ih after run
              refine ⟨v :: new, ?_, by omega, bound, ready'', ?_⟩
              · rw [same, List.append_assoc, List.singleton_append]
              · rw [usesItems]
                omega

theorem fields_count (comment : "/*".toList <+: K.toList) (lines : 0x0A ∉ bytes src)
    (counts : Counts src K read) {steps : Nat} {obj obj' : Header} (ready : Ready (bytes src) i)
    (run : entriesFrom src (bytes src) read steps i obj = .ok (obj', j)) :
    ∃ new, obj' = obj ++ new ∧ i < j ∧ j ≤ (bytes src).length ∧ Ready (bytes src) j ∧
      entries src K i + usesFields K 1 1 (Header.plain new) ≤ entries src K j := by
  induction steps generalizing i obj with
  | zero => cases run
  | succ steps ih =>
    rw [entriesFrom] at run
    cases skipped : skipTrivia (bytes src) ((bytes src).length + 1) i with
    | error halt =>
      rw [skipped] at run
      cases run
    | ok i' =>
      obtain ⟨le, ready', stopped⟩ := skip_trivia_ready lines skipped
      have mono := @entries_mono src K _ _ le
      rw [skipped] at run
      dsimp only [bind, Except.bind] at run
      cases here : (bytes src)[i']? with
      | none =>
        rw [here] at run
        cases run
      | some c =>
        have inside := (List.getElem?_eq_some_iff.mp here).1
        have next := @entries_mono src K _ _ (Nat.le_add_right i' 1)
        rw [here] at run
        dsimp only at run
        split at run
        · rename_i closes
          cases run
          refine ⟨[], (List.append_nil _).symm, by omega, by omega,
            ready_after here (by rw [closes]; decide) (by rw [closes]; decide), ?_⟩
          change _ + 0 ≤ _
          omega
        · split at run
          · rename_i comma
            obtain ⟨new, same, lt, bound, ready'', count⟩ :=
              ih (ready_after here (by rw [comma]; decide) (by rw [comma]; decide)) run
            exact ⟨new, same, by omega, bound, ready'', by omega⟩
          · cases keyed : key src (bytes src) i' with
            | error halt =>
              rw [keyed] at run
              cases run
            | ok read' =>
              obtain ⟨k, i₁⟩ := read'
              obtain ⟨later₁, count₁⟩ := key_entries comment (ready' ready) stopped keyed
              rw [keyed] at run
              dsimp only at run
              cases skipped₂ : skipTrivia (bytes src) ((bytes src).length + 1) i₁ with
              | error halt =>
                rw [skipped₂] at run
                cases run
              | ok i₂ =>
                obtain ⟨le₂, _, _⟩ := skip_trivia_ready lines skipped₂
                rw [skipped₂] at run
                dsimp only at run
                split at run
                · cases run
                · rename_i colon
                  have at_colon := (List.getElem?_eq_some_iff.mp (not_not.mp colon)).1
                  cases skipped₃ : skipInlineTrivia (bytes src) ((bytes src).length + 1)
                      (i₂ + 1) with
                  | error halt =>
                    rw [skipped₃] at run
                    cases run
                  | ok i₃ =>
                    obtain ⟨le₃, bound₃⟩ := skip_inline_within at_colon skipped₃
                    rw [skipped₃] at run
                    dsimp only at run
                    cases value : read i₃ with
                    | error halt =>
                      rw [value] at run
                      cases run
                    | ok read' =>
                      obtain ⟨v, k'⟩ := read'
                      rw [value] at run
                      obtain ⟨le', _, after, count, _⟩ := counts i₃ v k' bound₃ value
                      have passed := @entries_mono src K _ _
                        (show i₁ ≤ i₃ by omega)
                      obtain ⟨new, same, lt, bound, ready'', count'⟩ := ih after run
                      refine ⟨(k, v) :: new, ?_, by omega, bound, ready'', ?_⟩
                      · rw [same, List.append_assoc, List.singleton_append]
                      · change _ + ((if k.text = K then 1 else 0) + uses K 1 1 v +
                          usesFields K 1 1 (Header.plain new)) ≤ _
                        omega

theorem object_from {read : Nat → Nat → Res (HValue × Nat)} {depth : Nat} {obj : Header}
    (run : objectWith src (bytes src) read depth i = .ok (obj, j)) : depth ≤ maxNesting ∧
      entriesFrom src (bytes src) (read (depth + 1)) ((bytes src).length + 1) (i + 1) [] =
        .ok (obj, j) := by
  rw [objectWith] at run
  split at run
  · cases run
  · rename_i shallow
    split at run
    · cases run
    · exact ⟨by omega, run⟩

theorem array_from {read : Nat → Nat → Res (HValue × Nat)} {depth : Nat} {items : List HValue}
    (run : arrayWith (bytes src) read depth i = .ok (items, j)) : depth ≤ maxNesting ∧
      itemsFrom (bytes src) (read (depth + 1)) ((bytes src).length + 1) (i + 1) [] =
        .ok (items, j) := by
  rw [arrayWith] at run
  split at run
  · cases run
  · rename_i shallow
    exact ⟨by omega, run⟩

/-- What a value is read as, by what it begins with after the spaces before it. -/
theorem value_from {levels depth : Nat} {v : HValue} (bound : i ≤ (bytes src).length)
    (run : value src (bytes src) (levels + 1) depth i = .ok (v, j)) :
    ∃ i', i ≤ i' ∧ i' ≤ (bytes src).length ∧ (Stopped (bytes src) i → i' = i) ∧
      ((∃ obj, (bytes src)[i']? = some 0x7B ∧ v = .object (Header.plain obj) ∧
        objectWith src (bytes src) (value src (bytes src) levels) (depth + 1) i' = .ok (obj, j)) ∨
      (∃ items, (bytes src)[i']? = some 0x5B ∧ v = .array items ∧
        arrayWith (bytes src) (value src (bytes src) levels) (depth + 1) i' = .ok (items, j)) ∨
      (∃ t, (bytes src)[i']? = some 0x22 ∧ v = .str t ∧
        quoted src (bytes src) i' = .ok (t, j)) ∨
      quoteless src (bytes src) i' = .ok (v, j)) := by
  rw [value] at run
  cases skipped : skipInlineTrivia (bytes src) ((bytes src).length + 1) i with
  | error halt =>
    rw [skipped] at run
    cases run
  | ok i' =>
    obtain ⟨le, bound'⟩ := skip_inline_within bound skipped
    refine ⟨i', le, bound', fun stopped => skip_inline_stopped stopped skipped, ?_⟩
    rw [skipped] at run
    dsimp only [bind, Except.bind] at run
    cases here : (bytes src)[i']? with
    | none =>
      rw [here] at run
      cases run
    | some c =>
      rw [here] at run
      dsimp only at run
      split at run
      · rename_i brace
        cases object : objectWith src (bytes src) (value src (bytes src) levels) (depth + 1) i' with
        | error halt =>
          rw [object] at run
          cases run
        | ok read' =>
          rw [object] at run
          cases run
          exact .inl ⟨_, by rw [brace], rfl, rfl⟩
      · split at run
        · rename_i bracket
          cases array : arrayWith (bytes src) (value src (bytes src) levels) (depth + 1) i' with
          | error halt =>
            rw [array] at run
            cases run
          | ok read' =>
            rw [array] at run
            cases run
            exact .inr (.inl ⟨_, by rw [bracket], rfl, rfl⟩)
        · split at run
          · rename_i quote
            cases text : quoted src (bytes src) i' with
            | error halt =>
              rw [text] at run
              cases run
            | ok read' =>
              rw [text] at run
              cases run
              exact .inr (.inr (.inl ⟨_, by rw [quote], rfl, rfl⟩))
          · exact .inr (.inr (.inr run))

theorem classify_uses (K : String) (a b : Nat) (raw : List Char) :
    uses K a b (classify raw) = 0 := by
  rw [classify]
  dsimp only
  split
  · rfl
  · split
    · rfl
    · split
      · rfl
      · split
        · rfl
        · split
          · rfl
          · rfl

/-- What stands without quotes is no text that begins as a block comment does, where there is
nothing to pass. -/
theorem quoteless_element (comment : "/*".toList <+: K.toList) {v : HValue}
    (run : quoteless src (bytes src) i = .ok (v, j)) :
    uses K 1 1 v = 0 ∧ j ≤ (bytes src).length ∧
      (Stopped (bytes src) i → asElement K 1 v = 0) := by
  obtain ⟨raw, blank, post, rest, _, rfl, rfl, _, _⟩ := quoteless_shape run
  have long := rest.length
  rw [width_append] at long
  refine ⟨classify_uses K 1 1 raw, by rw [length_bytes]; omega, fun stopped => ?_⟩
  cases kind : classify raw with
  | str t =>
    rw [asElement, if_neg]
    rintro rfl
    have spelled : raw = t.toList := by rw [classify_text kind, String.toList_ofList]
    exact comment_passed comment (spelled ▸ rest) stopped
  | _ => rfl

/-- Every use of a text that begins as a block comment does has its own quotes. -/
theorem value_counts (comment : "/*".toList <+: K.toList) (lines : '\n' ∉ src ∧ '\r' ∉ src)
    (levels depth : Nat) : Counts src K (value src (bytes src) levels depth) := by
  have feeds : 0x0A ∉ bytes src := by
    intro mem
    obtain ⟨c, inside, code⟩ := char_of_byte mem (by decide)
    exact lines.1 ((Char.toNat_inj.mp code : c = '\n') ▸ inside)
  induction levels generalizing depth with
  | zero =>
    intro i v j _ run
    cases run
  | succ levels ih =>
    intro i v j bound run
    obtain ⟨i', le, bound', stays, kinds⟩ := value_from bound run
    have mono := @entries_mono src K _ _ le
    have next := @entries_mono src K _ _ (Nat.le_add_right i' 1)
    rcases kinds with ⟨obj, brace, rfl, read⟩ | ⟨items, bracket, rfl, read⟩ |
      ⟨t, quote, rfl, read⟩ | read
    · obtain ⟨new, same, lt, bound'', ready, count⟩ := fields_count comment feeds
        (ih (depth + 2)) (ready_after brace (by decide) (by decide)) (object_from read).2
      rw [List.nil_append] at same
      subst same
      have whole : entries src K i + usesFields K 1 1 (Header.plain obj) ≤ entries src K j := by
        omega
      exact ⟨by omega, bound'', ready, whole, fun _ _ => whole⟩
    · obtain ⟨new, same, lt, bound'', ready, count⟩ := items_count feeds (ih (depth + 2))
        (ready_after bracket (by decide) (by decide)) (array_from read).2
      rw [List.nil_append] at same
      subst same
      have whole : entries src K i + usesItems K 1 1 items ≤ entries src K j := by omega
      exact ⟨by omega, bound'', ready, whole, fun _ _ => whole⟩
    · obtain ⟨lt, bound'', ready⟩ := quoted_ready read
      have later := @entries_mono src K _ _ lt.le
      have none' : uses K 1 1 (.str t) = 0 := rfl
      refine ⟨by omega, bound'', ready, by omega, fun stopped led' => ?_⟩
      have same := stays stopped
      subst same
      rw [none', asElement]
      split
      · rename_i same
        rw [same] at read
        exact entries_step (entry_of_quoted led' quote read) lt
      · omega
    · obtain ⟨lt, ready⟩ := quoteless_ready lines read
      have later := @entries_mono src K _ _ lt.le
      obtain ⟨none', bound'', element⟩ := quoteless_element comment read
      refine ⟨by omega, bound'', ready, by omega, fun stopped _ => ?_⟩
      have same := stays stopped
      subst same
      rw [none', element stopped]
      omega

end

end Hjson
end Smysl
