import Smysl.Surface.WriteReads

/-!
What the writer puts in a header reads back. Where no text without quotes begins a block
comment in a place that skips them, the reader goes through the text of a value as the writer
went through the value, and what it makes of a float is all that is left to ask.
-/
namespace Smysl
open ByteString Utf8

namespace Write
open Hjson

attribute [local simp] value values fields

/-! Values by their places. -/

/-- Where the writer puts a value. One that is alone is read as an element is. -/
inductive Place
  | field
  | element
  deriving DecidableEq

section
variable (key : List Char → Bool) (here : Place → Nat → HValue → Bool)

mutual

/-- Whether something holds of every key, and of every value in its place and at the depth it
is read at. -/
def everywhere : Place → Nat → HValue → Bool
  | p, depth, .array items => here p depth (.array items) && everywhereItems (depth + 2) items
  | p, depth, .object o => here p depth (.object o) && everywhereFields (depth + 2) o
  | p, depth, v => here p depth v

def everywhereItems : Nat → List HValue → Bool
  | _, [] => true
  | depth, v :: items => everywhere .element depth v && everywhereItems depth items

def everywhereFields : Nat → List (String × HValue) → Bool
  | _, [] => true
  | depth, (k, v) :: o =>
    key k.toList && everywhere .field depth v && everywhereFields depth o

end

end

/-- Whether a value does not begin a block comment where one would be skipped. -/
def startsWell : Place → HValue → Bool
  | .element, .str s => startsPlainly valueNeedsQuotes s.toList
  | _, _ => true

/-- Whether the reader goes as deep as a value is. -/
def fitsAt (depth : Nat) : HValue → Bool
  | .array _ => decide (depth + 1 ≤ maxNesting)
  | .object _ => decide (depth + 1 ≤ maxNesting)
  | _ => true

mutual

/-- A value with its floats as they are read back. -/
def reread : HValue → HValue
  | .float f => classify (trimFloat f.toF32)
  | .array items => .array (rereadItems items)
  | .object o => .object (rereadFields o)
  | v => v

def rereadItems : List HValue → List HValue
  | [] => []
  | v :: items => reread v :: rereadItems items

def rereadFields : List (String × HValue) → List (String × HValue)
  | [] => []
  | (k, v) :: o => (k, reread v) :: rereadFields o

end

/-- What the reader can go through: no comment is begun, and nothing is too deep. -/
def readable : Place → Nat → HValue → Bool :=
  everywhere (startsPlainly keyNeedsQuotes) fun p depth v => startsWell p v && fitsAt depth v

attribute [local simp] reread rereadItems rereadFields everywhere everywhereItems everywhereFields

/-! The text of what follows. -/

/-- The text after an element, up to the end of its array. -/
def itemsTail (items : List HValue) (r : List Char) : List Char :=
  (values items).flatMap (", ".toList ++ ·) ++ ']' :: r

/-- The text after a field, up to the end of its object. -/
def fieldsTail (o : List (String × HValue)) (r : List Char) : List Char :=
  (fields o).flatMap (", ".toList ++ ·) ++ ' ' :: '\x7d' :: r

theorem joined_cons (t : List Char) (ts : List (List Char)) :
    joined (t :: ts) = t ++ ts.flatMap (", ".toList ++ ·) := by
  induction ts generalizing t with
  | nil => simp [joined]
  | cons u ts ih =>
    have step : joined (t :: u :: ts) = t ++ (", ".toList ++ joined (u :: ts)) := by
      simp [joined, List.intercalate]
    rw [step, ih u, List.flatMap_cons, List.append_assoc]

theorem closes_items (items : List HValue) (r : List Char) : Closes (itemsTail items r) := by
  refine ⟨[], itemsTail items r, rfl, by simp, ?_⟩
  cases items with
  | nil =>
    rintro b ⟨rfl⟩
    rfl
  | cons v items =>
    rintro b ⟨rfl⟩
    rfl

theorem closes_fields (o : List (String × HValue)) (r : List Char) : Closes (fieldsTail o r) := by
  cases o with
  | nil =>
    refine ⟨[' '], '\x7d' :: r, rfl, by simp, ?_⟩
    rintro b ⟨rfl⟩
    rfl
  | cons e o =>
    refine ⟨[], fieldsTail (e :: o) r, rfl, by simp, ?_⟩
    rintro b ⟨rfl⟩
    rfl

/-! What values and keys begin with. -/

/-- A value is a word or a number, a text, or in brackets. -/
theorem value_kinds (v : HValue) :
    (value v ≠ [] ∧ ∀ c ∈ value v, isWordChar c = true) ∨ (∃ s, v = .str s) ∨
      (∃ items, v = .array items) ∨ ∃ o, v = .object o := by
  cases v with
  | null => exact .inl ⟨List.cons_ne_nil _ _, List.all_eq_true.mp rfl⟩
  | bool b =>
    cases b with
    | false => exact .inl ⟨List.cons_ne_nil _ _, List.all_eq_true.mp rfl⟩
    | true => exact .inl ⟨List.cons_ne_nil _ _, List.all_eq_true.mp rfl⟩
  | int i => exact .inl (int_words i)
  | float f => exact .inl (trim_float_words f.toF32)
  | str s => exact .inr (.inl ⟨s, rfl⟩)
  | array items => exact .inr (.inr (.inl ⟨items, rfl⟩))
  | object o => exact .inr (.inr (.inr ⟨o, rfl⟩))

section
variable {r : List Char}

theorem array_head (items : List HValue) (r : List Char) :
    (bytes (value (.array items) ++ r)).head? = some 0x5B := by
  rw [value]
  rfl

theorem object_head (o : List (String × HValue)) (r : List Char) :
    (bytes (value (.object o) ++ r)).head? = some 0x7B := by
  rw [value]
  rfl

theorem value_stays {v : HValue} (starts : startsWell .element v = true) (closes : Closes r) :
    Stays (bytes (value v ++ r)) := by
  rcases value_kinds v with ⟨some', words⟩ | ⟨s, rfl⟩ | ⟨items, rfl⟩ | ⟨o, rfl⟩
  · exact word_stays some' words r
  · exact text_value_stays starts closes
  · exact stays_of_head (array_head items r) (by decide)
  · exact stays_of_head (object_head o r) (by decide)

theorem value_stays_inline (v : HValue) (closes : Closes r) :
    StaysInline (bytes (value v ++ r)) := by
  rcases value_kinds v with ⟨some', words⟩ | ⟨s, rfl⟩ | ⟨items, rfl⟩ | ⟨o, rfl⟩
  · exact (word_stays some' words r).inline
  · exact text_value_stays_inline s.toList closes
  · exact (stays_of_head (array_head items r) (by decide)).inline
  · exact (stays_of_head (object_head o r) (by decide)).inline

/-- An element is none of what the loop over them looks for. -/
theorem value_head (v : HValue) (r : List Char) :
    ∃ b, (bytes (value v ++ r)).head? = some b ∧ b ≠ 0x5D ∧ b ≠ 0x2C := by
  have of_text : ∀ {t : List Char}, t ≠ [] → (∀ c ∈ t.head?, c ≠ ']' ∧ c ≠ ',') →
      ∃ b, (bytes (t ++ r)).head? = some b ∧ b ≠ 0x5D ∧ b ≠ 0x2C := by
    intro t some' marks
    obtain ⟨c, t, rfl⟩ := List.exists_cons_of_ne_nil some'
    obtain ⟨b, head, code⟩ := head_bytes c (t ++ r)
    obtain ⟨no_bracket, no_comma⟩ := marks c rfl
    refine ⟨b, head, ?_, ?_⟩
    · rintro rfl
      exact no_bracket (Char.toNat_inj.mp (code (by decide)))
    · rintro rfl
      exact no_comma (Char.toNat_inj.mp (code (by decide)))
  rcases value_kinds v with ⟨some', words⟩ | ⟨s, rfl⟩ | ⟨items, rfl⟩ | ⟨o, rfl⟩
  · refine of_text some' fun c first => ?_
    have word := words c (List.mem_of_mem_head? first)
    exact ⟨word_char_ne word rfl, word_char_ne word rfl⟩
  · rw [value, quotelessOrQuoted]
    cases plain : valueNeedsQuotes s.toList with
    | true => exact ⟨0x22, rfl, by decide, by decide⟩
    | false =>
      obtain ⟨some', _, unmarked, _⟩ := value_plain plain
      refine of_text some' fun c first => ?_
      have mark := unmarked c (List.mem_of_mem_head? first)
      constructor <;> rintro rfl <;> cases mark
  · exact ⟨0x5B, array_head items r, by decide, by decide⟩
  · exact ⟨0x7B, object_head o r, by decide, by decide⟩

/-- A key is none of what the loop over the fields looks for. -/
theorem key_head (k : List Char) (r : List Char) :
    ∃ b, (bytes (quotedKey k ++ r)).head? = some b ∧ b ≠ 0x7D ∧ b ≠ 0x2C := by
  rw [quotedKey]
  cases plain : keyNeedsQuotes k with
  | true => exact ⟨0x22, rfl, by decide, by decide⟩
  | false =>
    obtain ⟨some', _, _, unmarked⟩ := key_plain plain
    obtain ⟨c, k, rfl⟩ := List.exists_cons_of_ne_nil some'
    obtain ⟨b, head, code⟩ := head_bytes c (k ++ r)
    have mark := unmarked c List.mem_cons_self
    refine ⟨b, head, ?_, ?_⟩
    · rintro rfl
      rw [show c = '\x7d' from Char.toNat_inj.mp (code (by decide))] at mark
      cases mark
    · rintro rfl
      rw [show c = ',' from Char.toNat_inj.mp (code (by decide))] at mark
      cases mark

end

/-! The loops. -/

section
variable {src r : List Char} {i : Nat} {read : Nat → Res (HValue × Nat)}

/-- A value that is read to the end of its text, whatever follows it. -/
def ReadsBack (src : List Char) (read : Nat → Res (HValue × Nat)) (v : HValue) : Prop :=
  ∀ i r, Rest src i (value v ++ r) → Closes r → read i = .ok (reread v, i + width (value v))

/-- One element is read, after the spaces before it. -/
theorem item_step {v : HValue} {blank : List Char} {steps : Nat} {acc : List HValue}
    (spaces : ∀ c ∈ blank, c = ' ') (starts : startsWell .element v = true)
    (back : ReadsBack src read v) (closes : Closes r)
    (rest : Rest src i (blank ++ (value v ++ r))) :
    itemsFrom (bytes src) read (steps + 1) i acc =
      itemsFrom (bytes src) read steps (i + width blank + width (value v)) (acc ++ [reread v]) := by
  have long := rest.length
  rw [width_append] at long
  obtain ⟨b, head, no_bracket, no_comma⟩ := value_head v r
  have inside := rest.later
  rw [itemsFrom, skip_trivia_spaces spaces rest (value_stays starts closes)
    (by rw [length_bytes]; omega)]
  dsimp only [bind, Except.bind]
  rw [inside.head, head]
  dsimp only
  rw [if_neg no_bracket, if_neg no_comma, back _ _ inside closes]

/-- The elements after the first are read to the end of the array. -/
theorem items_read_back {items : List HValue} {steps : Nat} {acc : List HValue}
    (starts : ∀ v ∈ items, startsWell .element v = true)
    (back : ∀ v ∈ items, ReadsBack src read v) (rest : Rest src i (itemsTail items r))
    (enough : width (itemsTail items r) ≤ width r + steps) :
    itemsFrom (bytes src) read steps i acc = .ok (acc ++ rereadItems items,
      i + width ((values items).flatMap (", ".toList ++ ·)) + 1) := by
  induction items generalizing i steps acc with
  | nil =>
    have head : (bytes src)[i]? = some 0x5D := rest.head
    have one : width (itemsTail [] r) = 1 + width r := rfl
    obtain ⟨n, rfl⟩ := Nat.exists_eq_succ_of_ne_zero (show steps ≠ 0 by omega)
    have stays : Stays (bytes (itemsTail [] r)) := stays_of_head (b := 0x5D) rfl (by decide)
    rw [itemsFrom, skip_trivia_stays rest stays (Nat.succ_pos _)]
    dsimp only [bind, Except.bind]
    rw [head]
    dsimp only
    rw [if_pos rfl, rereadItems, List.append_nil]
    rfl
  | cons v items ih =>
    have parts : itemsTail (v :: items) r = ',' :: ([' '] ++ (value v ++ itemsTail items r)) := by
      rw [itemsTail, values, List.flatMap_cons, itemsTail]
      simp
    have wide : width (itemsTail (v :: items) r) =
        2 + width (value v) + width (itemsTail items r) := by
      rw [parts, width_cons, width_append, width_append]
      change 1 + (1 + _) = _
      omega
    rw [wide] at enough
    rw [parts] at rest
    have head : (bytes src)[i]? = some 0x2C := rest.head
    obtain ⟨n, rfl⟩ : ∃ n, steps = n + 2 := ⟨steps - 2, by
      have more : 1 + width r ≤ width (itemsTail items r) := by
        rw [itemsTail, width_append, width_cons]
        change _ ≤ _ + (1 + width r)
        omega
      omega⟩
    have stays : Stays (bytes (',' :: ([' '] ++ (value v ++ itemsTail items r)))) :=
      stays_of_head (b := 0x2C) rfl (by decide)
    have inside : Rest src (i + 1) ([' '] ++ (value v ++ itemsTail items r)) := rest.next
    have after := inside.later.later
    rw [itemsFrom, skip_trivia_stays rest stays (Nat.succ_pos _)]
    dsimp only [bind, Except.bind]
    rw [head]
    dsimp only
    rw [if_neg (by decide), if_pos rfl, item_step (by simp) (starts v List.mem_cons_self)
      (back v List.mem_cons_self) (closes_items items r) inside,
      ih (fun w mem => starts w (List.mem_cons_of_mem _ mem))
        (fun w mem => back w (List.mem_cons_of_mem _ mem)) after (by omega),
      rereadItems, List.append_assoc]
    refine congrArg Except.ok (Prod.ext rfl ?_)
    rw [values, List.flatMap_cons, width_append, width_append]
    change i + 1 + 1 + _ + _ + 1 = i + (2 + _ + _) + 1
    omega

theorem array_reads_back {items : List HValue} {levels depth : Nat}
    (starts : ∀ v ∈ items, startsWell .element v = true)
    (back : ∀ v ∈ items, ReadsBack src (Hjson.value src (bytes src) levels (depth + 2)) v)
    (shallow : depth + 1 ≤ maxNesting) :
    ReadsBack src (Hjson.value src (bytes src) (levels + 1) depth) (.array items) := by
  intro i r rest closes
  have head : (bytes src)[i]? = some 0x5B := rest.head.trans (array_head items r)
  have stays := stays_of_head (array_head items r) (by decide)
  have long := rest.length
  have read : itemsFrom (bytes src) (Hjson.value src (bytes src) levels (depth + 2))
      ((bytes src).length + 1) (i + 1) [] =
        .ok (rereadItems items, i + width (value (.array items))) := by
    cases items with
    | nil =>
      have inside : Rest src (i + 1) (itemsTail [] r) := rest.next
      rw [items_read_back (fun v mem => by cases mem) (fun v mem => by cases mem) inside
        (by rw [length_bytes, itemsTail]; change 1 + width r ≤ _; omega)]
      rfl
    | cons v items =>
      have parts : value (.array (v :: items)) ++ r =
          '[' :: ([] ++ (value v ++ itemsTail items r)) := by
        rw [value, values, joined_cons, itemsTail]
        simp
      rw [parts] at rest
      have inside : Rest src (i + 1) ([] ++ (value v ++ itemsTail items r)) := rest.next
      have after := inside.later.later
      have long' := rest.length
      rw [width_cons, List.nil_append, width_append] at long'
      rw [item_step (by simp) (starts v List.mem_cons_self) (back v List.mem_cons_self)
        (closes_items items r) inside, items_read_back
          (fun w mem => starts w (List.mem_cons_of_mem _ mem))
          (fun w mem => back w (List.mem_cons_of_mem _ mem)) after
          (by rw [length_bytes]; omega)]
      refine congrArg Except.ok (Prod.ext rfl ?_)
      rw [value, values, joined_cons, List.cons_append, width_cons, width_append, width_append]
      change i + 1 + 0 + _ + _ + 1 = i + (1 + (_ + _ + 1))
      omega
  rw [Hjson.value, skip_inline_stays rest stays.inline (Nat.succ_pos _)]
  dsimp only [bind, Except.bind]
  rw [head]
  dsimp only
  rw [if_neg (by decide), if_pos rfl, arrayWith, if_neg (by omega), read, reread]

/-- One field is read, after the spaces before it. -/
theorem field_step {k : String} {v : HValue} {blank : List Char} {steps : Nat} {acc : Header}
    (spaces : ∀ c ∈ blank, c = ' ') (starts : startsPlainly keyNeedsQuotes k.toList = true)
    (back : ReadsBack src read v) (closes : Closes r)
    (rest : Rest src i (blank ++ (quotedKey k.toList ++ ':' :: ' ' :: (value v ++ r)))) :
    entriesFrom src (bytes src) read (steps + 1) i acc =
      entriesFrom src (bytes src) read steps
        (i + width blank + width (quotedKey k.toList) + 2 + width (value v))
        (acc ++ [(⟨k, i + width blank⟩, reread v)]) := by
  have long := rest.length
  rw [width_append, width_append, width_cons, width_cons] at long
  have one : ':'.utf8Size = 1 := rfl
  have one' : ' '.utf8Size = 1 := rfl
  obtain ⟨b, head, no_brace, no_comma⟩ := key_head k.toList (':' :: ' ' :: (value v ++ r))
  have inside := rest.later
  have colon := inside.later
  have colon_head : (bytes src)[i + width blank + width (quotedKey k.toList)]? = some 0x3A :=
    colon.head
  have space := colon.next
  have at_value := space.next
  rw [one] at space
  rw [one, one'] at at_value
  rw [entriesFrom, skip_trivia_spaces spaces rest (key_stays starts _)
    (by rw [length_bytes]; omega)]
  dsimp only [bind, Except.bind]
  rw [inside.head, head]
  dsimp only
  rw [if_neg no_brace, if_neg no_comma, key_reads_back inside]
  dsimp only
  rw [skip_trivia_stays colon (stays_of_head (b := 0x3A) rfl (by decide)) (Nat.succ_pos _)]
  dsimp only
  rw [if_neg (not_not.mpr colon_head), skip_inline_space space (value_stays_inline v closes)
    (by rw [length_bytes]; omega)]
  dsimp only
  rw [back _ _ at_value closes, String.ofList_toList]

theorem field_tail (k : String) (v : HValue) (o : List (String × HValue)) (r : List Char) :
    fieldsTail ((k, v) :: o) r =
      ',' :: ([' '] ++ (quotedKey k.toList ++ ':' :: ' ' :: (value v ++ fieldsTail o r))) := by
  rw [fieldsTail, fields, List.flatMap_cons, fieldsTail]
  simp

theorem width_field_tail (k : String) (v : HValue) (o : List (String × HValue)) (r : List Char) :
    width (fieldsTail ((k, v) :: o) r) =
      4 + width (quotedKey k.toList) + width (value v) + width (fieldsTail o r) := by
  simp only [field_tail, width_append, width_cons, width_nil, show ','.utf8Size = 1 from rfl,
    show ':'.utf8Size = 1 from rfl, show ' '.utf8Size = 1 from rfl]
  omega

/-- The fields after the first are read to the end of the object. -/
theorem fields_read_back {o : List (String × HValue)} {steps : Nat} {acc : Header}
    (starts : ∀ e ∈ o, startsPlainly keyNeedsQuotes e.1.toList = true)
    (back : ∀ e ∈ o, ReadsBack src read e.2) (rest : Rest src i (fieldsTail o r))
    (enough : width (fieldsTail o r) ≤ width r + steps) :
    ∃ h, entriesFrom src (bytes src) read steps i acc =
      .ok (acc ++ h, i + width (fieldsTail o r) - width r) ∧ Header.plain h = rereadFields o := by
  induction o generalizing i steps acc with
  | nil =>
    have two : width (fieldsTail [] r) = 2 + width r := by
      change 1 + (1 + width r) = _
      omega
    obtain ⟨n, rfl⟩ := Nat.exists_eq_succ_of_ne_zero (show steps ≠ 0 by omega)
    have long := rest.length
    have closing : Rest src i ([' '] ++ '\x7d' :: r) := rest
    have head : (bytes src)[i + 1]? = some 0x7D := closing.later.head
    refine ⟨[], ?_, rfl⟩
    rw [entriesFrom, skip_trivia_spaces (by simp) closing
      (stays_of_head (b := 0x7D) rfl (by decide)) (by rw [length_bytes]; change 1 < _; omega)]
    dsimp only [bind, Except.bind]
    rw [show i + width [' '] = i + 1 from rfl, head]
    dsimp only
    rw [if_pos rfl, List.append_nil, two]
    refine congrArg Except.ok (Prod.ext rfl ?_)
    change i + 1 + 1 = _
    omega
  | cons e o ih =>
    obtain ⟨k, v⟩ := e
    have wide := width_field_tail k v o r
    have least : 2 + width r ≤ width (fieldsTail o r) := by
      rw [fieldsTail, width_append]
      change _ ≤ _ + (1 + (1 + width r))
      omega
    rw [wide] at enough
    rw [field_tail] at rest
    have head : (bytes src)[i]? = some 0x2C := rest.head
    obtain ⟨n, rfl⟩ : ∃ n, steps = n + 2 := ⟨steps - 2, by omega⟩
    have inside : Rest src (i + 1) ([' '] ++ (quotedKey k.toList ++
        ':' :: ' ' :: (value v ++ fieldsTail o r))) := rest.next
    have after := inside.later.later.next.next.later
    have moved : i + 1 + width [' '] + width (quotedKey k.toList) + ':'.utf8Size +
        ' '.utf8Size + width (value v) =
          i + 1 + width [' '] + width (quotedKey k.toList) + 2 + width (value v) := rfl
    rw [moved] at after
    obtain ⟨h, run, plain⟩ := @ih _ n (acc ++ [(⟨k, i + 1 + width [' ']⟩, reread v)])
      (fun e mem => starts e (List.mem_cons_of_mem _ mem))
      (fun e mem => back e (List.mem_cons_of_mem _ mem)) after (by omega)
    refine ⟨(⟨k, i + 1 + width [' ']⟩, reread v) :: h, ?_, ?_⟩
    · rw [entriesFrom, skip_trivia_stays rest (stays_of_head (b := 0x2C) rfl (by decide))
        (Nat.succ_pos _)]
      dsimp only [bind, Except.bind]
      rw [head]
      dsimp only
      rw [if_neg (by decide), if_pos rfl, field_step (by simp) (starts (k, v) List.mem_cons_self)
        (back (k, v) List.mem_cons_self) (closes_fields o r) inside, run, List.append_assoc]
      refine congrArg Except.ok (Prod.ext rfl ?_)
      rw [wide]
      change i + 1 + 1 + _ + 2 + _ + _ - _ = _
      omega
    · rw [rereadFields, ← plain]
      rfl

theorem object_reads_back {o : List (String × HValue)} {levels depth : Nat}
    (starts : ∀ e ∈ o, startsPlainly keyNeedsQuotes e.1.toList = true)
    (back : ∀ e ∈ o, ReadsBack src (Hjson.value src (bytes src) levels (depth + 2)) e.2)
    (shallow : depth + 1 ≤ maxNesting) :
    ReadsBack src (Hjson.value src (bytes src) (levels + 1) depth) (.object o) := by
  intro i r rest closes
  have head : (bytes src)[i]? = some 0x7B := rest.head.trans (object_head o r)
  have stays := stays_of_head (object_head o r) (by decide)
  have long := rest.length
  have read : ∃ h, entriesFrom src (bytes src) (Hjson.value src (bytes src) levels (depth + 2))
      ((bytes src).length + 1) (i + 1) [] = .ok (h, i + width (value (.object o))) ∧
        Header.plain h = rereadFields o := by
    cases o with
    | nil =>
      have inside : Rest src (i + 1) ([' ', ' '] ++ '\x7d' :: r) := rest.next
      have closing : (bytes src)[i + 3]? = some 0x7D := inside.later.head
      refine ⟨[], ?_, rfl⟩
      rw [width_append] at long
      change i + (4 + width r) = width src at long
      rw [entriesFrom, skip_trivia_spaces (by simp) inside
        (stays_of_head (b := 0x7D) rfl (by decide)) (by rw [length_bytes]; change 2 < _; omega)]
      dsimp only [bind, Except.bind]
      rw [show i + 1 + width [' ', ' '] = i + 3 from rfl, closing]
      dsimp only
      rw [if_pos rfl]
      rfl
    | cons e o =>
      obtain ⟨k, v⟩ := e
      have parts : value (.object ((k, v) :: o)) ++ r =
          '\x7b' :: ([' '] ++ (quotedKey k.toList ++
            ':' :: ' ' :: (value v ++ fieldsTail o r))) := by
        rw [value, fields, joined_cons, fieldsTail]
        simp
      have wide : width (value (.object ((k, v) :: o))) + width r =
          4 + width (quotedKey k.toList) + width (value v) + width (fieldsTail o r) := by
        rw [← width_append, parts]
        simp only [width_append, width_cons, width_nil, show '\x7b'.utf8Size = 1 from rfl,
          show ':'.utf8Size = 1 from rfl, show ' '.utf8Size = 1 from rfl]
        omega
      rw [width_append, wide] at long
      rw [parts] at rest
      have inside : Rest src (i + 1) ([' '] ++ (quotedKey k.toList ++
          ':' :: ' ' :: (value v ++ fieldsTail o r))) := rest.next
      have after := inside.later.later.next.next.later
      have moved : i + 1 + width [' '] + width (quotedKey k.toList) + ':'.utf8Size +
          ' '.utf8Size + width (value v) =
            i + 1 + width [' '] + width (quotedKey k.toList) + 2 + width (value v) := rfl
      rw [moved] at after
      obtain ⟨h, run, plain⟩ := @fields_read_back src r _ _ o (bytes src).length
        ([] ++ [(⟨k, i + 1 + width [' ']⟩, reread v)])
        (fun e mem => starts e (List.mem_cons_of_mem _ mem))
        (fun e mem => back e (List.mem_cons_of_mem _ mem)) after (by rw [length_bytes]; omega)
      refine ⟨(⟨k, i + 1 + width [' ']⟩, reread v) :: h, ?_, ?_⟩
      · rw [field_step (by simp) (starts (k, v) List.mem_cons_self)
          (back (k, v) List.mem_cons_self) (closes_fields o r) inside, run, List.nil_append]
        refine congrArg Except.ok (Prod.ext rfl ?_)
        change i + 1 + 1 + _ + 2 + _ + _ - _ = _
        omega
      · rw [rereadFields, ← plain]
        rfl
  obtain ⟨h, run, plain⟩ := read
  rw [Hjson.value, skip_inline_stays rest stays.inline (Nat.succ_pos _)]
  dsimp only [bind, Except.bind]
  rw [head]
  dsimp only
  rw [if_pos rfl, objectWith, if_neg (by omega), if_neg (not_not.mpr head), run]
  dsimp only
  rw [plain, reread]

end

/-! Whole values. -/

section
variable {depth : Nat}

theorem readable_items {items : List HValue}
    (all : everywhereItems (startsPlainly keyNeedsQuotes)
      (fun p depth v => startsWell p v && fitsAt depth v) depth items = true) :
    ∀ v ∈ items, readable .element depth v = true := by
  induction items with
  | nil => exact fun v mem => by cases mem
  | cons w items ih =>
    rw [everywhereItems, Bool.and_eq_true] at all
    exact List.forall_mem_cons.mpr ⟨all.1, ih all.2⟩

theorem readable_fields {o : List (String × HValue)}
    (all : everywhereFields (startsPlainly keyNeedsQuotes)
      (fun p depth v => startsWell p v && fitsAt depth v) depth o = true) :
    ∀ e ∈ o, startsPlainly keyNeedsQuotes e.1.toList = true ∧
      readable .field depth e.2 = true := by
  induction o with
  | nil => exact fun v mem => by cases mem
  | cons e o ih =>
    obtain ⟨k, v⟩ := e
    rw [everywhereFields, Bool.and_eq_true, Bool.and_eq_true] at all
    exact List.forall_mem_cons.mpr ⟨all.1, ih all.2⟩

theorem starts_of_readable {v : HValue} {p : Place} (well : readable p depth v = true) :
    startsWell p v = true := by
  cases v <;> simp only [readable, everywhere, Bool.and_eq_true] at well <;>
    first | exact well.1 | exact well.1.1

/-- What the reader can go through it reads to the end. -/
theorem value_reads_back (v : HValue) {src : List Char} {p : Place} {levels : Nat}
    (well : readable p depth v = true) (enough : maxNesting + 2 ≤ depth + levels)
    (shallow : depth ≤ maxNesting + 1) :
    ReadsBack src (Hjson.value src (bytes src) levels depth) v := by
  induction v using HValue.induct generalizing p depth levels with
  | null =>
    obtain ⟨n, rfl⟩ := Nat.exists_eq_succ_of_ne_zero (show levels ≠ 0 by omega)
    intro i r rest closes
    rw [word_reads_back (List.cons_ne_nil _ _) (List.all_eq_true.mp rfl) rest closes]
    rfl
  | bool b =>
    obtain ⟨n, rfl⟩ := Nat.exists_eq_succ_of_ne_zero (show levels ≠ 0 by omega)
    intro i r rest closes
    cases b with
    | false =>
      rw [word_reads_back (List.cons_ne_nil _ _) (List.all_eq_true.mp rfl) rest closes]
      rfl
    | true =>
      rw [word_reads_back (List.cons_ne_nil _ _) (List.all_eq_true.mp rfl) rest closes]
      rfl
  | int j =>
    obtain ⟨n, rfl⟩ := Nat.exists_eq_succ_of_ne_zero (show levels ≠ 0 by omega)
    intro i r rest closes
    rw [value] at rest ⊢
    rw [word_reads_back (int_words j).1 (int_words j).2 rest closes, classify_int, reread]
    all_goals exact fun f same => by cases same
  | float f =>
    obtain ⟨n, rfl⟩ := Nat.exists_eq_succ_of_ne_zero (show levels ≠ 0 by omega)
    intro i r rest closes
    have words := trim_float_words f.toF32
    rw [value] at rest ⊢
    rw [word_reads_back words.1 words.2 rest closes, reread]
  | str s =>
    obtain ⟨n, rfl⟩ := Nat.exists_eq_succ_of_ne_zero (show levels ≠ 0 by omega)
    intro i r rest closes
    rw [value] at rest ⊢
    rw [text_reads_back rest closes, String.ofList_toList, reread]
    all_goals exact fun f same => by cases same
  | array items ih =>
    rw [readable, everywhere, Bool.and_eq_true, Bool.and_eq_true] at well
    have deep : depth + 1 ≤ maxNesting := by simpa [fitsAt] using well.1.2
    obtain ⟨n, rfl⟩ := Nat.exists_eq_succ_of_ne_zero (show levels ≠ 0 by omega)
    have each := readable_items well.2
    exact array_reads_back (fun v mem => starts_of_readable (each v mem))
      (fun v mem => ih v mem (each v mem) (by omega) (by omega)) deep
  | object o ih =>
    rw [readable, everywhere, Bool.and_eq_true, Bool.and_eq_true] at well
    have deep : depth + 1 ≤ maxNesting := by simpa [fitsAt] using well.1.2
    obtain ⟨n, rfl⟩ := Nat.exists_eq_succ_of_ne_zero (show levels ≠ 0 by omega)
    have each := readable_fields well.2
    exact object_reads_back (fun e mem => (each e mem).1)
      (fun e mem => ih e mem (each e mem).2 (by omega) (by omega)) deep

/-- A value alone is read back, but for its floats. -/
theorem parse_reads_back {v : HValue} (well : readable .element 0 v = true) :
    parseValue (value v) = .ok (reread v) := by
  have start : Rest (value v) 0 (value v ++ []) := by
    rw [List.append_nil]
    exact rest_start _
  have closes : Closes [] := ⟨[], [], rfl, by simp, by simp [bytes]⟩
  have read := @value_reads_back 0 v (value v) .element (maxNesting + 2) well (by omega)
    (by omega) 0 [] start closes
  have stays := value_stays (starts_of_readable well) closes
  have last : Rest (value v) (0 + width (value v)) [] := start.later
  rw [parseValue]
  dsimp only [bind, Except.bind]
  rw [skip_trivia_stays start stays (Nat.succ_pos _)]
  dsimp only
  rw [read]
  dsimp only
  rw [skip_trivia_stays last (fun b head => by simp [bytes] at head) (Nat.succ_pos _)]
  dsimp only
  rw [length_bytes, Nat.zero_add, if_neg (lt_irrefl _)]

end

end Write
end Smysl
