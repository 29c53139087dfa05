import Smysl.Surface.Hjson

/-!
The header reader always answers: wherever it cuts a text it stands between characters,
every loop moves on, and the depth it refuses to go past bounds the descent.
-/
namespace Smysl
open ByteString Utf8

namespace Hjson
variable {α β : Type} {src : List Char}

/-- A result that comes from reading on from a byte: a refusal, or a value and a later
byte between characters. -/
def ReadsOn (src : List Char) (i : Nat) : Res (α × Nat) → Prop
  | .error .stuck => False
  | .error (.refused _) => True
  | .ok (_, j) => i < j ∧ Between src j

/-- The same for what moves without a value, and may stay where it is. -/
def Skips (src : List Char) (i : Nat) (r : Res Nat) : Prop :=
  ∃ j, r = .ok j ∧ i ≤ j ∧ Between src j

theorem ReadsOn.bind {i : Nat} {r : Res (α × Nat)} {f : α × Nat → Res (β × Nat)}
    (first : ReadsOn src i r)
    (next : ∀ a j, i < j → Between src j → ReadsOn src j (f (a, j))) :
    ReadsOn src i (r >>= f) := by
  cases r with
  | error halt =>
    cases halt with
    | refused at_ => exact first
    | stuck => exact first
  | ok read =>
    obtain ⟨a, j⟩ := read
    have after := next a j first.1 first.2
    change ReadsOn src i (f (a, j))
    cases result : f (a, j) with
    | error halt =>
      rw [result] at after
      cases halt with
      | refused at_ => trivial
      | stuck => exact after
    | ok read =>
      rw [result] at after
      exact ⟨first.1.trans after.1, after.2⟩

theorem ReadsOn.mono {i i' : Nat} {r : Res (α × Nat)} (le : i ≤ i') (reads : ReadsOn src i' r) :
    ReadsOn src i r := by
  cases r with
  | error halt => cases halt <;> exact reads
  | ok read => exact ⟨lt_of_le_of_lt le reads.1, reads.2⟩

theorem ReadsOn.map {i : Nat} {r : Res (α × Nat)} (read : ReadsOn src i r) (g : α → β) :
    ReadsOn src i (r >>= fun a => .ok (g a.1, a.2)) := by
  cases r with
  | error halt => cases halt <;> exact read
  | ok a => exact read

/-- Reading after something is skipped. -/
theorem Skips.bind {i : Nat} {r : Res Nat} {f : Nat → Res (α × Nat)} (skips : Skips src i r)
    (next : ∀ j, i ≤ j → Between src j → ReadsOn src j (f j)) : ReadsOn src i (r >>= f) := by
  obtain ⟨j, rfl, le, between⟩ := skips
  exact ReadsOn.mono le (next j le between)

/-! Where scanning over bytes ends. -/

theorem take_while_end (p : UInt8 → Bool) (l : Bytes) :
    (l.takeWhile p).length = l.length ∨
      ∃ b, l[(l.takeWhile p).length]? = some b ∧ p b = false := by
  induction l with
  | nil => exact .inl rfl
  | cons b l ih =>
    cases goes : p b with
    | false =>
      right
      rw [List.takeWhile_cons_of_neg (by simp [goes])]
      exact ⟨b, rfl, goes⟩
    | true =>
      rw [List.takeWhile_cons_of_pos goes, List.length_cons, List.length_cons]
      rcases ih with all | ⟨c, here, stops⟩
      · exact .inl (congrArg (· + 1) all)
      · exact .inr ⟨c, by rw [List.getElem?_cons_succ]; exact here, stops⟩

theorem scan_end {s : Bytes} {p : UInt8 → Bool} {i : Nat} (inside : i ≤ s.length) :
    i + ((s.drop i).takeWhile p).length = s.length ∨
      ∃ b, s[i + ((s.drop i).takeWhile p).length]? = some b ∧ p b = false := by
  rcases take_while_end p (s.drop i) with all | ⟨b, here, stops⟩
  · left
    rw [all, List.length_drop]
    omega
  · rw [List.getElem?_drop] at here
    exact .inr ⟨b, here, stops⟩

theorem between_scan {p : UInt8 → Bool} (low : ∀ b, p b = false → b.toNat < 128) {i : Nat}
    (start : Between src i) :
    Between src (i + (((bytes src).drop i).takeWhile p).length) := by
  have inside : i ≤ (bytes src).length := by
    rw [length_bytes]
    exact start.le
  rcases @scan_end (bytes src) p i inside with done | ⟨b, here, stops⟩
  · rw [done, length_bytes]
    exact between_end src
  · exact (between_ascii here (low b stops)).1

theorem scan_moves {s : Bytes} {p : UInt8 → Bool} {i : Nat} {b : UInt8} (here : s[i]? = some b)
    (goes : p b = true) : i < i + ((s.drop i).takeWhile p).length := by
  obtain ⟨inside, same⟩ := List.getElem?_eq_some_iff.mp here
  rw [List.drop_eq_getElem_cons inside, same, List.takeWhile_cons_of_pos goes, List.length_cons]
  omega

theorem skip_line_between {i : Nat} (start : Between src i) :
    Between src (skipLine (bytes src) i) := by
  apply between_scan _ start
  intro b stops
  have same : b = 0x0A := by simpa using stops
  rw [same]
  decide

theorem skip_line_moves {s : Bytes} {i : Nat} {c : UInt8} (here : s[i]? = some c)
    (other : c ≠ 0x0A) : i < skipLine s i :=
  scan_moves here (by simpa using other)

theorem comment_end_found (rest : Bytes) : commentEnd rest = rest.length ∨
    rest[commentEnd rest + 1]? = some 0x2F := by
  induction rest with
  | nil => exact .inl rfl
  | cons b rest ih =>
    rw [commentEnd]
    split
    · rename_i closes
      right
      rw [List.getElem?_cons_succ, ← List.head?_eq_getElem?]
      exact closes.2
    · rcases ih with none | found
      · left
        rw [none, List.length_cons]
      · right
        rw [List.getElem?_cons_succ]
        exact found

theorem skip_block_between {i : Nat} : Between src (skipBlock (bytes src) i) := by
  rcases comment_end_found ((bytes src).drop i) with none | found
  · have last : skipBlock (bytes src) i = width src := by
      rw [skipBlock, none, List.length_drop, length_bytes]
      omega
    rw [last]
    exact between_end src
  · rw [List.getElem?_drop] at found
    have inside := (List.getElem?_eq_some_iff.mp found).1
    have next : skipBlock (bytes src) i =
        i + (commentEnd ((bytes src).drop i) + 1) + 1 := by
      rw [skipBlock]
      omega
    rw [next]
    exact (between_ascii found (by decide)).2

theorem skip_block_le {s : Bytes} {i : Nat} (inside : i ≤ s.length) : i ≤ skipBlock s i := by
  rw [skipBlock]
  omega

theorem ascii_white {c : UInt8} (white : isAsciiWhitespace c = true) : c.toNat < 128 := by
  simp only [isAsciiWhitespace, Bool.or_eq_true, beq_iff_eq] at white
  rcases white with (((rfl | rfl) | rfl) | rfl) | rfl <;> decide

theorem byte_at_of_two {s : Bytes} {i : Nat} {b : UInt8} (next : s[i + 1]? = some b) :
    i + 2 ≤ s.length := (List.getElem?_eq_some_iff.mp next).1

theorem skip_trivia_skips (steps : Nat) {i : Nat} (start : Between src i)
    (enough : width src - i < steps) : Skips src i (skipTrivia (bytes src) steps i) := by
  induction steps generalizing i with
  | zero => omega
  | succ steps ih =>
    rw [skipTrivia]
    have inside := start.le
    cases here : (bytes src)[i]? with
    | none => exact ⟨i, rfl, le_refl i, start⟩
    | some c =>
      have below : i < width src := by
        rw [← length_bytes]
        exact (List.getElem?_eq_some_iff.mp here).1
      have on : ∀ j, i < j → Between src j → Skips src i (skipTrivia (bytes src) steps j) := by
        intro j later between
        obtain ⟨k, run, le, between'⟩ := ih between (by omega)
        exact ⟨k, run, by omega, between'⟩
      dsimp only
      split
      · rename_i white
        exact on _ (by omega) (between_ascii here (ascii_white white)).2
      · split
        · rename_i hash
          exact on _ (skip_line_moves here (by rw [hash]; decide)) (skip_line_between start)
        · split
          · rename_i slashes
            exact on _ (skip_line_moves here (by rw [slashes.1]; decide))
              (skip_line_between start)
          · split
            · rename_i block
              have two := byte_at_of_two block.2
              have le := skip_block_le two
              exact on _ (by omega) skip_block_between
            · exact ⟨i, rfl, le_refl i, start⟩

theorem skip_inline_skips (steps : Nat) {i : Nat} (start : Between src i)
    (enough : width src - i < steps) : Skips src i (skipInlineTrivia (bytes src) steps i) := by
  induction steps generalizing i with
  | zero => omega
  | succ steps ih =>
    rw [skipInlineTrivia]
    cases here : (bytes src)[i]? with
    | none => exact ⟨i, rfl, le_refl i, start⟩
    | some c =>
      have below : i < width src := by
        rw [← length_bytes]
        exact (List.getElem?_eq_some_iff.mp here).1
      have on : ∀ j, i < j → Between src j →
          Skips src i (skipInlineTrivia (bytes src) steps j) := by
        intro j later between
        obtain ⟨k, run, le, between'⟩ := ih between (by omega)
        exact ⟨k, run, by omega, between'⟩
      dsimp only
      split
      · rename_i blank
        have low : c.toNat < 128 := by rcases blank with rfl | rfl | rfl <;> decide
        exact on _ (by omega) (between_ascii here low).2
      · split
        · rename_i hash
          exact on _ (skip_line_moves here (by rw [hash]; decide)) (skip_line_between start)
        · split
          · rename_i slashes
            exact on _ (skip_line_moves here (by rw [slashes.1]; decide))
              (skip_line_between start)
          · exact ⟨i, rfl, le_refl i, start⟩

/-! Tokens. -/

theorem escaped_low {e : UInt8} {ch : Char} (known : escaped e = some ch) : e.toNat < 128 := by
  rw [escaped] at known
  repeat' split at known
  all_goals first
    | cases known; done
    | rename_i same
      rw [same]
      decide

theorem quoted_from_reads (steps : Nat) {i : Nat} (out : List Char) (start : Between src i)
    (enough : width src - i < steps) :
    ReadsOn src i (quotedFrom src (bytes src) steps i out) := by
  induction steps generalizing i out with
  | zero => omega
  | succ steps ih =>
    rw [quotedFrom]
    cases here : (bytes src)[i]? with
    | none => trivial
    | some c =>
      have below : i < width src := by
        rw [← length_bytes]
        exact (List.getElem?_eq_some_iff.mp here).1
      have on : ∀ j out, i < j → Between src j →
          ReadsOn src i (quotedFrom src (bytes src) steps j out) := by
        intro j out later between
        exact ReadsOn.mono later.le (ih out between (by omega))
      dsimp only
      split
      · rename_i quote
        exact ⟨Nat.lt_succ_self i, (between_ascii here (by rw [quote]; decide)).2⟩
      · split
        · cases next : (bytes src)[i + 1]? with
          | none => trivial
          | some e =>
            dsimp only
            cases known : escaped e with
            | some ch =>
              exact on _ _ (by omega) (between_ascii next (escaped_low known)).2
            | none =>
              dsimp only
              split
              · cases digits : slice (i + 2) (i + 6) src with
                | none => trivial
                | some hex =>
                  dsimp only
                  cases (parseHex hex).bind charFrom with
                  | none => trivial
                  | some ch => exact on _ _ (by omega) (between_of_slice digits)
              · trivial
        · obtain ⟨pre, post, whole, rfl, rest⟩ := slice_from_between start
          rw [rest]
          cases post with
          | nil => trivial
          | cons ch post =>
            have positive := ch.utf8Size_pos
            refine on _ _ (by omega) ⟨pre ++ [ch], post, by rw [whole]; simp, by simp⟩

theorem quoted_reads {i : Nat} (here : (bytes src)[i]? = some 0x22) :
    ReadsOn src i (quoted src (bytes src) i) := by
  have after := (between_ascii here (by decide)).2
  refine ReadsOn.mono (Nat.le_succ i) (quoted_from_reads _ [] after ?_)
  rw [length_bytes]
  omega

theorem key_reads {i : Nat} (start : Between src i) : ReadsOn src i (key src (bytes src) i) := by
  rw [key]
  split
  · rename_i here
    exact (quoted_reads here).map fun text => (⟨text, i⟩ : HKey)
  · have stop : Between src (i + (((bytes src).drop i).takeWhile isKeyByte).length) := by
      refine between_scan (fun b stops => ?_) start
      simp only [isKeyByte, Bool.not_eq_false', Bool.or_eq_true, beq_iff_eq] at stops
      rcases stops with (((rfl | white) | rfl) | rfl) | rfl
      · decide
      · exact ascii_white white
      · decide
      · decide
      · decide
    dsimp only
    split
    · trivial
    · obtain ⟨pre, mid, post, _, _, _, cut_⟩ := slice_between (Nat.le_add_right i _) start stop
      rw [cut_]
      exact ⟨by omega, stop⟩

theorem trim_end_prefix (cs : List Char) : trimEnd cs <+: cs := by
  have back := List.dropWhile_suffix isWhitespace (l := cs.reverse)
  rw [trimEnd]
  simpa using List.reverse_prefix.mpr back

theorem quoteless_reads {i : Nat} (start : Between src i) :
    ReadsOn src i (quoteless src (bytes src) i) := by
  have stop : Between src (i + (((bytes src).drop i).takeWhile isQuotelessByte).length) := by
    refine between_scan (fun b stops => ?_) start
    simp only [isQuotelessByte, Bool.not_eq_false', Bool.or_eq_true, beq_iff_eq] at stops
    rcases stops with (((rfl | rfl) | rfl) | rfl) | rfl <;> decide
  obtain ⟨pre, mid, post, whole, first, _, cut_⟩ :=
    slice_between (Nat.le_add_right i _) start stop
  rw [quoteless]
  dsimp only
  rw [cut_]
  change ReadsOn src i (if (trimEnd mid).isEmpty then .error (.refused i)
    else .ok (classify (trimEnd mid), i + width (trimEnd mid)))
  split
  · trivial
  · rename_i some_text
    have positive := width_pos (List.isEmpty_eq_false_iff.mp (Bool.eq_false_iff.mpr some_text))
    obtain ⟨blank, parts⟩ := trim_end_prefix mid
    refine ⟨by omega, pre ++ trimEnd mid, blank ++ post, ?_, ?_⟩
    · calc src = pre ++ mid ++ post := whole
        _ = pre ++ (trimEnd mid ++ blank) ++ post := by rw [parts]
        _ = pre ++ trimEnd mid ++ (blank ++ post) := by simp
    · rw [width_append, first]

/-! Objects, arrays and values. -/

/-- Reading a value from between characters. -/
def ReadsValues (src : List Char) (value : Nat → Res (HValue × Nat)) : Prop :=
  ∀ i, Between src i → ReadsOn src i (value i)

theorem entries_reads {value : Nat → Res (HValue × Nat)} (values : ReadsValues src value)
    (steps : Nat) {i : Nat} (obj : Header) (start : Between src i)
    (enough : width src - i < steps) :
    ReadsOn src i (entriesFrom src (bytes src) value steps i obj) := by
  induction steps generalizing i obj with
  | zero => omega
  | succ steps ih =>
    rw [entriesFrom]
    have trivia : ∀ {i}, Between src i →
        Skips src i (skipTrivia (bytes src) ((bytes src).length + 1) i) := by
      intro i between
      exact skip_trivia_skips _ between (by rw [length_bytes]; omega)
    refine (trivia start).bind fun j le between => ?_
    cases here : (bytes src)[j]? with
    | none => trivial
    | some c =>
      have below : j < width src := by
        rw [← length_bytes]
        exact (List.getElem?_eq_some_iff.mp here).1
      dsimp only
      split
      · rename_i closes
        exact ⟨Nat.lt_succ_self j, (between_ascii here (by rw [closes]; decide)).2⟩
      · split
        · rename_i comma
          have after := (between_ascii here (by rw [comma]; decide)).2
          exact ReadsOn.mono (Nat.le_succ j) (ih obj after (by omega))
        · refine (key_reads between).bind fun k j₁ later₁ between₁ => ?_
          refine (trivia between₁).bind fun j₂ le₂ between₂ => ?_
          dsimp only
          split
          · trivial
          · rename_i colon
            have after := (between_ascii (not_not.mp colon) (by decide)).2
            have inline : Skips src (j₂ + 1)
                (skipInlineTrivia (bytes src) ((bytes src).length + 1) (j₂ + 1)) :=
              skip_inline_skips _ after (by rw [length_bytes]; omega)
            refine ReadsOn.mono (Nat.le_succ j₂) (inline.bind fun j₃ le₃ between₃ => ?_)
            refine (values j₃ between₃).bind fun v j₄ later₄ between₄ => ?_
            exact ih _ between₄ (by omega)

theorem items_reads {value : Nat → Res (HValue × Nat)} (values : ReadsValues src value)
    (steps : Nat) {i : Nat} (items : List HValue) (start : Between src i)
    (enough : width src - i < steps) :
    ReadsOn src i (itemsFrom (bytes src) value steps i items) := by
  induction steps generalizing i items with
  | zero => omega
  | succ steps ih =>
    rw [itemsFrom]
    have trivia : Skips src i (skipTrivia (bytes src) ((bytes src).length + 1) i) :=
      skip_trivia_skips _ start (by rw [length_bytes]; omega)
    refine trivia.bind fun j le between => ?_
    cases here : (bytes src)[j]? with
    | none => trivial
    | some c =>
      have below : j < width src := by
        rw [← length_bytes]
        exact (List.getElem?_eq_some_iff.mp here).1
      dsimp only
      split
      · rename_i closes
        exact ⟨Nat.lt_succ_self j, (between_ascii here (by rw [closes]; decide)).2⟩
      · split
        · rename_i comma
          have after := (between_ascii here (by rw [comma]; decide)).2
          exact ReadsOn.mono (Nat.le_succ j) (ih items after (by omega))
        · refine (values j between).bind fun v j₁ later₁ between₁ => ?_
          exact ih _ between₁ (by omega)

theorem object_reads {value : Nat → Nat → Res (HValue × Nat)} {depth : Nat}
    (values : depth ≤ maxNesting → ReadsValues src (value (depth + 1))) (i : Nat) :
    ReadsOn src i (objectWith src (bytes src) value depth i) := by
  rw [objectWith]
  split
  · trivial
  · rename_i shallow
    split
    · trivial
    · rename_i brace
      have after := (between_ascii (not_not.mp brace) (by decide)).2
      refine ReadsOn.mono (Nat.le_succ i) (entries_reads (values (by omega)) _ [] after ?_)
      rw [length_bytes]
      omega

theorem array_reads {value : Nat → Nat → Res (HValue × Nat)} {depth : Nat}
    (values : depth ≤ maxNesting → ReadsValues src (value (depth + 1))) {i : Nat}
    (here : (bytes src)[i]? = some 0x5B) :
    ReadsOn src i (arrayWith (bytes src) value depth i) := by
  rw [arrayWith]
  split
  · trivial
  · rename_i shallow
    have after := (between_ascii here (by decide)).2
    refine ReadsOn.mono (Nat.le_succ i) (items_reads (values (by omega)) _ [] after ?_)
    rw [length_bytes]
    omega

/-- The levels last as deep as the reader goes. -/
theorem value_reads (levels : Nat) {depth : Nat} (enough : maxNesting + 2 ≤ depth + levels)
    (shallow : depth ≤ maxNesting + 1) : ReadsValues src (value src (bytes src) levels depth) := by
  induction levels generalizing depth with
  | zero => omega
  | succ levels ih =>
    intro i start
    rw [value]
    have inline : Skips src i (skipInlineTrivia (bytes src) ((bytes src).length + 1) i) :=
      skip_inline_skips _ start (by rw [length_bytes]; omega)
    have inner : depth + 1 ≤ maxNesting →
        ReadsValues src (value src (bytes src) levels (depth + 1 + 1)) := by
      intro fits
      exact ih (by omega) (by omega)
    refine inline.bind fun j le between => ?_
    cases here : (bytes src)[j]? with
    | none => trivial
    | some c =>
      dsimp only
      split
      · exact (object_reads inner j).map fun obj => HValue.object obj.plain
      · split
        · rename_i bracket
          rw [bracket] at here
          exact (array_reads inner here).map HValue.array
        · split
          · rename_i quote
            rw [quote] at here
            exact (quoted_reads here).map HValue.str
          · exact quoteless_reads between

end Hjson

open Hjson

/-- The object at the start of a text is refused, or ends past its first byte and between
characters. -/
theorem parse_object_prefix_returns (src : List Char) :
    (∃ at_, parseObjectPrefix src = .error (.refused at_)) ∨
      ∃ obj i j, parseObjectPrefix src = .ok (obj, i, j) ∧ i < j ∧ Between src j := by
  have trivia : Skips src 0 (skipTrivia (bytes src) ((bytes src).length + 1) 0) :=
    skip_trivia_skips _ (between_start src) (by rw [length_bytes]; omega)
  obtain ⟨i, skipped, _, _⟩ := trivia
  have values : 0 ≤ maxNesting →
      ReadsValues src (Hjson.value src (bytes src) (maxNesting + 2) (0 + 1)) := by
    intro _
    exact Hjson.value_reads _ (by omega) (by omega)
  have read := Hjson.object_reads values i
  have unfolded : parseObjectPrefix src =
      objectWith src (bytes src) (Hjson.value src (bytes src) (maxNesting + 2)) 0 i >>=
        fun read => .ok (read.1, i, read.2) := by
    rw [parseObjectPrefix]
    dsimp only
    rw [skipped]
    rfl
  rw [unfolded]
  cases run : objectWith src (bytes src) (Hjson.value src (bytes src) (maxNesting + 2)) 0 i with
  | error halt =>
    rw [run] at read
    cases halt with
    | refused at_ => exact .inl ⟨at_, rfl⟩
    | stuck => exact read.elim
  | ok result =>
    obtain ⟨obj, j⟩ := result
    rw [run] at read
    exact .inr ⟨obj, i, j, rfl, read.1, read.2⟩

end Smysl
