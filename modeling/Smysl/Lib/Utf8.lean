import Mathlib

/-!
Text as its characters, with offsets counted in bytes. A slice is taken where an offset
is between characters, and there is none elsewhere; a byte below 128 is a character, so
an offset found by looking at bytes is between characters where such a byte is.
-/
namespace Utf8

/-- The length in bytes. -/
def width (cs : List Char) : Nat := (cs.map Char.utf8Size).sum

@[simp] theorem width_nil : width [] = 0 := rfl

@[simp] theorem width_cons (c : Char) (cs : List Char) :
    width (c :: cs) = c.utf8Size + width cs := by
  simp [width]

@[simp] theorem width_append (xs ys : List Char) : width (xs ++ ys) = width xs + width ys := by
  simp [width]

/-- What follows an offset. -/
def sliceFrom : Nat → List Char → Option (List Char)
  | 0, cs => some cs
  | _ + 1, [] => none
  | n + 1, c :: cs => if c.utf8Size ≤ n + 1 then sliceFrom (n + 1 - c.utf8Size) cs else none

/-- What comes before an offset. -/
def sliceTo : Nat → List Char → Option (List Char)
  | 0, _ => some []
  | _ + 1, [] => none
  | n + 1, c :: cs =>
    if c.utf8Size ≤ n + 1 then (sliceTo (n + 1 - c.utf8Size) cs).map (c :: ·) else none

theorem slice_from_append (pre post : List Char) :
    sliceFrom (width pre) (pre ++ post) = some post := by
  induction pre with
  | nil => simp [sliceFrom]
  | cons c pre ih =>
    have some_width := c.utf8Size_pos
    obtain ⟨n, length⟩ : ∃ n, c.utf8Size + width pre = n + 1 :=
      ⟨c.utf8Size + width pre - 1, by omega⟩
    rw [width_cons, List.cons_append, length, sliceFrom, if_pos (by omega),
      show n + 1 - c.utf8Size = width pre by omega]
    exact ih

theorem slice_to_append (pre post : List Char) :
    sliceTo (width pre) (pre ++ post) = some pre := by
  induction pre with
  | nil => simp [sliceTo]
  | cons c pre ih =>
    have some_width := c.utf8Size_pos
    obtain ⟨n, length⟩ : ∃ n, c.utf8Size + width pre = n + 1 :=
      ⟨c.utf8Size + width pre - 1, by omega⟩
    rw [width_cons, List.cons_append, length, sliceTo, if_pos (by omega),
      show n + 1 - c.utf8Size = width pre by omega, ih]
    rfl

/-- An offset between characters. -/
def Between (cs : List Char) (n : Nat) : Prop := ∃ pre post, cs = pre ++ post ∧ n = width pre

theorem between_start (cs : List Char) : Between cs 0 := ⟨[], cs, rfl, rfl⟩

theorem between_end (cs : List Char) : Between cs (width cs) := ⟨cs, [], by simp, rfl⟩

theorem Between.le {cs : List Char} {n : Nat} (between : Between cs n) : n ≤ width cs := by
  obtain ⟨pre, post, rfl, rfl⟩ := between
  simp

/-- What a text is found at, by the offset of the first place. -/
def find (pat : List Char) : List Char → Option Nat
  | [] => if pat = [] then some 0 else none
  | c :: cs => if pat.isPrefixOf (c :: cs) then some 0 else (find pat cs).map (c.utf8Size + ·)

theorem find_split {pat cs : List Char} {n : Nat} (found : find pat cs = some n) :
    ∃ pre post, cs = pre ++ pat ++ post ∧ n = width pre := by
  induction cs generalizing n with
  | nil =>
    rw [find] at found
    split at found
    · rename_i empty
      cases found
      exact ⟨[], [], by simp [empty], rfl⟩
    · cases found
  | cons c cs ih =>
    rw [find] at found
    split at found
    · rename_i here
      cases found
      obtain ⟨post, same⟩ := List.isPrefixOf_iff_prefix.mp here
      exact ⟨[], post, same.symm, rfl⟩
    · obtain ⟨m, later, rfl⟩ := Option.map_eq_some_iff.mp found
      obtain ⟨pre, post, rfl, rfl⟩ := ih later
      exact ⟨c :: pre, post, rfl, (width_cons c pre).symm⟩

/-! The bytes. -/

def bytes (cs : List Char) : List UInt8 := cs.flatMap String.utf8EncodeChar

@[simp] theorem bytes_cons (c : Char) (cs : List Char) :
    bytes (c :: cs) = String.utf8EncodeChar c ++ bytes cs := rfl

@[simp] theorem length_bytes (cs : List Char) : (bytes cs).length = width cs := by
  induction cs with
  | nil => rfl
  | cons c cs ih => simp [ih]

/-- A character with a byte below 128 is that byte. -/
theorem ascii_alone {c : Char} {b : UInt8} (mem : b ∈ String.utf8EncodeChar c)
    (low : b.toNat < 128) : String.utf8EncodeChar c = [b] ∧ c.toNat = b.toNat := by
  have most := c.val.toNat_lt
  simp only [String.utf8EncodeChar] at mem ⊢
  split at mem
  · rename_i one
    rw [if_pos one]
    rw [List.mem_singleton] at mem
    rw [mem]
    refine ⟨rfl, ?_⟩
    rw [UInt8.toNat_ofNat']
    change c.val.toNat = _
    omega
  · rename_i more
    exfalso
    have high : ∀ k : Nat, 128 ≤ k → k < 256 → b ≠ UInt8.ofNat k := by
      intro k lower upper same
      rw [same, UInt8.toNat_ofNat'] at low
      omega
    split at mem
    · simp only [List.mem_cons, List.not_mem_nil, or_false] at mem
      rcases mem with same | same <;> exact high _ (by omega) (by omega) same
    · split at mem
      · simp only [List.mem_cons, List.not_mem_nil, or_false] at mem
        rcases mem with same | same | same <;> exact high _ (by omega) (by omega) same
      · simp only [List.mem_cons, List.not_mem_nil, or_false] at mem
        rcases mem with same | same | same | same <;> exact high _ (by omega) (by omega) same

/-- A byte below 128 is a character where it is. -/
theorem split_at_ascii {cs : List Char} {i : Nat} {b : UInt8} (at_ : (bytes cs)[i]? = some b)
    (low : b.toNat < 128) :
    ∃ pre c post, cs = pre ++ c :: post ∧ i = width pre ∧ c.toNat = b.toNat := by
  induction cs generalizing i with
  | nil => simp [bytes] at at_
  | cons c cs ih =>
    rw [bytes_cons] at at_
    by_cases first : i < c.utf8Size
    · rw [List.getElem?_append_left (by simpa using first)] at at_
      obtain ⟨alone, same⟩ := ascii_alone (List.mem_of_getElem? at_) low
      have one : c.utf8Size = 1 := by rw [← String.length_utf8EncodeChar, alone]; rfl
      exact ⟨[], c, cs, rfl, by rw [width_nil]; omega, same⟩
    · rw [List.getElem?_append_right (by simpa using first), String.length_utf8EncodeChar] at at_
      obtain ⟨pre, d, post, rfl, later, same⟩ := ih at_
      exact ⟨c :: pre, d, post, rfl, by rw [width_cons]; omega, same⟩

theorem utf8_size_of_low {c : Char} (low : c.toNat < 128) : c.utf8Size = 1 := by
  apply Char.utf8Size_eq_one_iff.mpr
  exact UInt32.le_iff_toNat_le.mpr (by
    change c.toNat ≤ 127
    omega)

theorem between_ascii {cs : List Char} {i : Nat} {b : UInt8} (at_ : (bytes cs)[i]? = some b)
    (low : b.toNat < 128) : Between cs i ∧ Between cs (i + 1) := by
  obtain ⟨pre, c, post, rfl, rfl, same⟩ := split_at_ascii at_ low
  have one : c.utf8Size = 1 := utf8_size_of_low (by omega)
  refine ⟨⟨pre, c :: post, rfl, rfl⟩, ⟨pre ++ [c], post, by simp, ?_⟩⟩
  rw [width_append, width_cons, width_nil, one]

/-- What lies between two offsets. -/
def slice (a b : Nat) (cs : List Char) : Option (List Char) :=
  if a ≤ b then (sliceTo b cs).bind (sliceFrom a) else none

theorem slice_between {cs : List Char} {a b : Nat} (le : a ≤ b) (start : Between cs a)
    (stop : Between cs b) : ∃ pre mid post, cs = pre ++ mid ++ post ∧ a = width pre ∧
      b = width (pre ++ mid) ∧ slice a b cs = some mid := by
  obtain ⟨pre, rest, rfl, rfl⟩ := start
  obtain ⟨front, post, same, rfl⟩ := stop
  have inside : pre <+: front := by
    rcases List.prefix_or_prefix_of_prefix (List.prefix_append pre rest)
      (same ▸ List.prefix_append front post) with before | ⟨more, rfl⟩
    · exact before
    · cases more with
      | nil => simp
      | cons c more =>
        have some_width := c.utf8Size_pos
        rw [width_append, width_cons] at le
        omega
  obtain ⟨mid, rfl⟩ := inside
  refine ⟨pre, mid, post, same, rfl, rfl, ?_⟩
  rw [slice, if_pos le, same, slice_to_append, Option.bind_some, slice_from_append]

theorem slice_to_split {n : Nat} {cs front : List Char} (cut : sliceTo n cs = some front) :
    ∃ post, cs = front ++ post ∧ n = width front := by
  induction cs generalizing n front with
  | nil =>
    cases n with
    | zero =>
      rw [sliceTo] at cut
      cases cut
      exact ⟨[], rfl, rfl⟩
    | succ n =>
      rw [sliceTo] at cut
      cases cut
  | cons c cs ih =>
    cases n with
    | zero =>
      rw [sliceTo] at cut
      cases cut
      exact ⟨c :: cs, rfl, rfl⟩
    | succ n =>
      rw [sliceTo] at cut
      split at cut
      · rename_i fits
        obtain ⟨front', later, rfl⟩ := Option.map_eq_some_iff.mp cut
        obtain ⟨post, rfl, length⟩ := ih later
        exact ⟨post, rfl, by rw [width_cons]; omega⟩
      · cases cut

theorem between_of_slice {a b : Nat} {cs mid : List Char} (cut : slice a b cs = some mid) :
    Between cs b := by
  rw [slice] at cut
  split at cut
  · obtain ⟨front, first, _⟩ := Option.bind_eq_some_iff.mp cut
    obtain ⟨post, same, length⟩ := slice_to_split first
    exact ⟨front, post, same, length⟩
  · cases cut

theorem width_pos {cs : List Char} (some_char : cs ≠ []) : 0 < width cs := by
  cases cs with
  | nil => exact absurd rfl some_char
  | cons c cs =>
    have positive := c.utf8Size_pos
    rw [width_cons]
    omega

theorem slice_from_between {cs : List Char} {a : Nat} (start : Between cs a) :
    ∃ pre post, cs = pre ++ post ∧ a = width pre ∧ sliceFrom a cs = some post := by
  obtain ⟨pre, post, rfl, rfl⟩ := start
  exact ⟨pre, post, rfl, rfl, slice_from_append pre post⟩

/-!
What is left of a text at an offset, as its characters, and what a reader of bytes sees there.
-/

/-- What is left at an offset. -/
def Rest (cs : List Char) (i : Nat) (rest : List Char) : Prop :=
  ∃ pre, cs = pre ++ rest ∧ i = width pre

section
variable {cs t r : List Char} {i : Nat}

theorem rest_start (cs : List Char) : Rest cs 0 cs := ⟨[], rfl, rfl⟩

theorem Rest.between (rest : Rest cs i r) : Between cs i := by
  obtain ⟨pre, whole, at_⟩ := rest
  exact ⟨pre, r, whole, at_⟩

theorem Rest.later (rest : Rest cs i (t ++ r)) : Rest cs (i + width t) r := by
  obtain ⟨pre, whole, at_⟩ := rest
  exact ⟨pre ++ t, by rw [whole, List.append_assoc], by rw [width_append, at_]⟩

theorem Rest.next {c : Char} (rest : Rest cs i (c :: r)) : Rest cs (i + c.utf8Size) r := by
  have later := rest.later (t := [c])
  rwa [width_cons, width_nil, Nat.add_zero] at later

theorem Rest.length (rest : Rest cs i r) : i + width r = width cs := by
  obtain ⟨pre, rfl, rfl⟩ := rest
  exact (width_append pre r).symm

theorem Rest.drop (rest : Rest cs i r) : (bytes cs).drop i = bytes r := by
  obtain ⟨pre, rfl, rfl⟩ := rest
  rw [bytes, List.flatMap_append, ← bytes, ← bytes, ← length_bytes, List.drop_left]

theorem Rest.byte (rest : Rest cs i r) (k : Nat) : (bytes cs)[i + k]? = (bytes r)[k]? := by
  rw [← rest.drop, List.getElem?_drop]

theorem Rest.head (rest : Rest cs i r) : (bytes cs)[i]? = (bytes r).head? := by
  rw [List.head?_eq_getElem?]
  exact rest.byte 0

theorem Rest.slice_from (rest : Rest cs i r) : sliceFrom i cs = some r := by
  obtain ⟨pre, rfl, rfl⟩ := rest
  exact slice_from_append pre r

theorem Rest.slice (rest : Rest cs i (t ++ r)) : slice i (i + width t) cs = some t := by
  obtain ⟨pre, rfl, rfl⟩ := rest
  rw [Utf8.slice, if_pos (Nat.le_add_right _ _), ← width_append, ← List.append_assoc,
    slice_to_append, Option.bind_some, slice_from_append]

end

theorem slice_from_split {n : Nat} {cs rest : List Char} (cut : sliceFrom n cs = some rest) :
    Rest cs n rest := by
  induction cs generalizing n with
  | nil =>
    cases n with
    | zero =>
      cases cut
      exact rest_start []
    | succ n => cases cut
  | cons c cs ih =>
    cases n with
    | zero =>
      cases cut
      exact rest_start (c :: cs)
    | succ n =>
      rw [sliceFrom] at cut
      split at cut
      · obtain ⟨pre, whole, length⟩ := ih cut
        exact ⟨c :: pre, by rw [whole, List.cons_append], by rw [width_cons]; omega⟩
      · cases cut

/-- A slice stands at its start. -/
theorem rest_of_slice {a b : Nat} {cs mid : List Char} (cut : slice a b cs = some mid) :
    ∃ post, Rest cs a (mid ++ post) ∧ b = a + width mid := by
  rw [slice] at cut
  split at cut
  · obtain ⟨front, first, second⟩ := Option.bind_eq_some_iff.mp cut
    obtain ⟨post, whole, stop⟩ := slice_to_split first
    obtain ⟨pre, parts, start⟩ := slice_from_split second
    refine ⟨post, ⟨pre, by rw [whole, parts, List.append_assoc], start⟩, ?_⟩
    rw [stop, parts, width_append, start]
  · cases cut

/-! Bytes below 128. -/

/-- A text begins with a byte, which is its first character where it is below 128. -/
theorem head_bytes (c : Char) (r : List Char) : ∃ b, (bytes (c :: r)).head? = some b ∧
    (b.toNat < 128 → c.toNat = b.toNat) := by
  have wide := String.length_utf8EncodeChar c
  have positive := c.utf8Size_pos
  obtain ⟨b, more, encoded⟩ : ∃ b more, String.utf8EncodeChar c = b :: more :=
    List.exists_cons_of_length_pos (by omega)
  refine ⟨b, by rw [bytes_cons, encoded]; rfl, fun low => ?_⟩
  exact (ascii_alone (encoded ▸ List.mem_cons_self) low).2

/-- A byte below 128 of a text is one of its characters. -/
theorem char_of_byte {cs : List Char} {b : UInt8} (mem : b ∈ bytes cs) (low : b.toNat < 128) :
    ∃ c ∈ cs, c.toNat = b.toNat := by
  obtain ⟨c, inside, part⟩ := List.mem_flatMap.mp mem
  exact ⟨c, inside, (ascii_alone part low).2⟩

/-- Bytes that are taken up to a text that does not go on with one. -/
theorem take_bytes {p : UInt8 → Bool} {t r : List Char} (goes : ∀ b ∈ bytes t, p b = true)
    (stops : ∀ b ∈ (bytes r).head?, p b = false) :
    ((bytes (t ++ r)).takeWhile p).length = width t := by
  have split : bytes (t ++ r) = bytes t ++ bytes r := List.flatMap_append
  rw [split, List.takeWhile_append_of_pos goes]
  have none' : (bytes r).takeWhile p = [] := by
    cases left : bytes r with
    | nil => rfl
    | cons b more => simp [stops b (by rw [left]; rfl)]
  rw [none', List.append_nil, length_bytes]

end Utf8
