import Smysl.Core.Text

/-!
Locators, the name a reader gives a place in a part. A parsed locator is written
as it was read, save for a range whose ends are equal.
-/
namespace Smysl

inductive Locator
  | canonical (head : String) (steps : List UInt64)
  | line (n : UInt64)
  | pointer (tokens : List String)
  | range (first last : Locator)
  deriving DecidableEq, Repr

namespace Locator

inductive Kind
  | canonical
  | line
  | pointer
  | range
  deriving DecidableEq, Repr

inductive Reason
  | empty
  | badCharacter
  | leadingZero
  | badNumber
  | badHead
  | badEscape
  | mixedRange
  | backwardRange
  | pointerRange
  | nestedRange
  deriving DecidableEq, Repr

/-- Why a text is not a locator, and at which byte. -/
structure LocatorError where
  pos : Nat
  reason : Reason
  deriving DecidableEq, Repr

abbrev Res (α : Type) := Except LocatorError α

def err {α : Type} (pos : Nat) (reason : Reason) : Res α := .error ⟨pos, reason⟩

def kind : Locator → Kind
  | .canonical _ _ => .canonical
  | .line _ => .line
  | .pointer _ => .pointer
  | .range _ _ => .range

def Kind.place : Kind → Nat
  | .canonical => 0
  | .line => 1
  | .pointer => 2
  | .range => 3

/-- The derived order: the variants in the order they are declared, then the
fields. -/
def order : Locator → Locator → Ordering
  | .canonical h s, .canonical h' s' => (compare h h').then (compare s s')
  | .line n, .line n' => compare n n'
  | .pointer t, .pointer t' => compare t t'
  | .range a b, .range a' b' => (order a a').then (order b b')
  | a, b => compare a.kind.place b.kind.place

/-- `Locator::line`. -/
def ofLine (n : UInt64) : Res Locator := if n = 0 then err 1 .badNumber else .ok (.line n)

/-- `Locator::range`: equal ends collapse. -/
def ofEnds (first last : Locator) : Res Locator :=
  if first.kind = .range ∨ last.kind = .range then err 0 .nestedRange
  else if first.kind ≠ last.kind then err 0 .mixedRange
  else if first.kind = .pointer then err 0 .pointerRange
  else
    match order first last with
    | .eq => .ok first
    | .lt => .ok (.range first last)
    | .gt => err 0 .backwardRange

/-- `char::is_control`. -/
def isControl (c : Char) : Bool := c.toNat < 0x20 || (0x7F ≤ c.toNat && c.toNat ≤ 0x9F)

def okChar (c : Char) : Bool := c != '#' && !isWhitespace c && !isControl c

/-- How many bytes characters take. -/
def width (s : List Char) : Nat := (s.map Char.utf8Size).sum

/-- The place of the first character that is not allowed. -/
def findBad (pos : Nat) : List Char → Option Nat
  | [] => none
  | c :: rest => if okChar c then findBad (pos + c.utf8Size) rest else some pos

def isLineShaped : List Char → Bool
  | 'L' :: rest => !rest.isEmpty && rest.all Char.isDigit
  | _ => false

def checkHead (head : List Char) (pos : Nat) : Res Unit :=
  if head.isEmpty then err pos .empty
  else if !head.all Char.isAlphanum || !head.any Char.isAlpha then err pos .badHead
  else if isLineShaped head then err pos .badHead
  else .ok ()

/-- A number in its one spelling, of at most 64 bits. -/
def number (s : List Char) (pos : Nat) : Res UInt64 :=
  if s.isEmpty then err pos .empty
  else if !s.all Char.isDigit then err pos .badNumber
  else if 1 < s.length ∧ s.head? = some '0' then err pos .leadingZero
  else if Nat.ofDigitChars 10 s 0 < 2 ^ 64 then .ok (UInt64.ofNat (Nat.ofDigitChars 10 s 0))
  else err pos .badNumber

def parseSteps : List (List Char) → Nat → Res (List UInt64)
  | [], _ => .ok []
  | part :: parts, pos =>
    match number part pos with
    | .error e => .error e
    | .ok n =>
      match parseSteps parts (pos + width part + 1) with
      | .error e => .error e
      | .ok steps => .ok (n :: steps)

def parseCanonical (parts : List (List Char)) (pos : Nat) : Res Locator :=
  match checkHead (parts.headD []) pos with
  | .error e => .error e
  | .ok () =>
    match parseSteps parts.tail (pos + width (parts.headD []) + 1) with
    | .error e => .error e
    | .ok steps => .ok (.canonical (String.ofList (parts.headD [])) steps)

def parseSingle (s : List Char) (pos : Nat) : Res Locator :=
  if s.isEmpty then err pos .empty
  else if s.head? = some '/' then err pos .pointerRange
  else if isLineShaped s then
    match number s.tail (pos + 1) with
    | .error e => .error e
    | .ok n =>
      match ofLine n with
      | .error e => err (pos + 1) e.reason
      | .ok l => .ok l
  else parseCanonical (s.splitOn '.') pos

/-- The loop of `unescape`. -/
def unescapeFrom (pos : Nat) : List Char → Res (List Char)
  | [] => .ok []
  | '~' :: '0' :: rest => (unescapeFrom (pos + 2) rest).map ('~' :: ·)
  | '~' :: '1' :: rest => (unescapeFrom (pos + 2) rest).map ('/' :: ·)
  | c :: rest =>
    if c = '~' then err pos .badEscape
    else (unescapeFrom (pos + c.utf8Size) rest).map (c :: ·)

def unescape (raw : List Char) (pos : Nat) : Res (List Char) :=
  if raw.contains '~' then unescapeFrom pos raw else .ok raw

def parseTokens : List (List Char) → Nat → Res (List String)
  | [], _ => .ok []
  | raw :: rest, pos =>
    match unescape raw pos with
    | .error e => .error e
    | .ok token =>
      match parseTokens rest (pos + width raw + 1) with
      | .error e => .error e
      | .ok tokens => .ok (String.ofList token :: tokens)

def parsePointer (s : List Char) : Res Locator :=
  (parseTokens (s.tail.splitOn '/') 1).map .pointer

/-- The text before the first hyphen and the text after it. -/
def splitHyphen : List Char → Option (List Char × List Char)
  | [] => none
  | c :: rest =>
    if c = '-' then some ([], rest)
    else (splitHyphen rest).map (fun halves => (c :: halves.1, halves.2))

def parseRange (first last : List Char) : Res Locator :=
  match parseSingle first 0 with
  | .error e => .error e
  | .ok a =>
    match parseSingle last (width first + 1) with
    | .error e => .error e
    | .ok b =>
      match ofEnds a b with
      | .error e => err (if e.pos = 0 then width first else e.pos) e.reason
      | .ok l => .ok l

def parseChars (s : List Char) : Res Locator :=
  if s.isEmpty then err 0 .empty
  else
    match findBad 0 s with
    | some pos => err pos .badCharacter
    | none =>
      if s.head? = some '/' then parsePointer s
      else
        match splitHyphen s with
        | some (first, last) => parseRange first last
        | none => parseSingle s 0

def parse (s : String) : Res Locator := parseChars s.toList

/-- `~` first, so that the escape of a slash is not escaped again. -/
def escape (token : List Char) : List Char :=
  if !token.contains '~' && !token.contains '/' then token
  else
    (token.flatMap (fun c => if c = '~' then ['~', '0'] else [c])).flatMap
      (fun c => if c = '/' then ['~', '1'] else [c])

def toChars : Locator → List Char
  | .canonical head steps =>
    head.toList ++ steps.flatMap (fun n => '.' :: Nat.toDigits 10 n.toNat)
  | .line n => 'L' :: Nat.toDigits 10 n.toNat
  | .pointer tokens => tokens.flatMap (fun t => '/' :: escape t.toList)
  | .range first last => first.toChars ++ '-' :: last.toChars

/-- `Locator::to_string`. -/
def toText (l : Locator) : String := String.ofList l.toChars

/-! Numbers. -/

theorem digit_char_of_digit {c : Char} (digit : c.isDigit = true) :
    ∃ d < 10, c = Nat.digitChar d := by
  simp only [Char.isDigit, Bool.and_eq_true, decide_eq_true_eq] at digit
  obtain ⟨low, high⟩ := digit
  have low' : 48 ≤ c.toNat := low
  have high' : c.toNat ≤ 57 := high
  have named : ∀ n, 48 ≤ n → n ≤ 57 → Char.ofNat n = Nat.digitChar (n - 48) := by
    intro n low high
    interval_cases n <;> rfl
  refine ⟨c.toNat - 48, by omega, ?_⟩
  rw [← named c.toNat low' high', Char.ofNat_toNat]

theorem to_digits_of_digits {s : List Char} (some' : s ≠ []) (digits : s.all Char.isDigit = true)
    (plain : ¬ (1 < s.length ∧ s.head? = some '0')) :
    Nat.toDigits 10 (Nat.ofDigitChars 10 s 0) = s := by
  induction s using List.reverseRecOn with
  | nil => exact absurd rfl some'
  | append_singleton t c ih =>
    simp only [List.all_append, List.all_cons, List.all_nil, Bool.and_true,
      Bool.and_eq_true] at digits
    obtain ⟨d, small, rfl⟩ := digit_char_of_digit digits.2
    rw [Nat.ofDigitChars_append, Nat.ofDigitChars_cons_digitChar_of_lt_ten small,
      Nat.ofDigitChars_nil]
    by_cases none : t = []
    · subst none
      simp only [Nat.ofDigitChars_nil, Nat.mul_zero, Nat.zero_add, List.nil_append]
      exact Nat.toDigits_of_lt_base small
    · have front : (t ++ [Nat.digitChar d]).head? = t.head? := List.head?_append_of_ne_nil t none
      rw [front] at plain
      have longer : 1 < (t ++ [Nat.digitChar d]).length := by
        have := List.length_pos_iff.mpr none
        simp only [List.length_append, List.length_singleton]
        omega
      have lead : t.head? ≠ some '0' := fun zero => plain ⟨longer, zero⟩
      have same := ih none digits.1 (fun both => lead both.2)
      have positive : 0 < Nat.ofDigitChars 10 t 0 := by
        by_contra zero
        rw [Nat.eq_zero_of_not_pos zero, Nat.toDigits_zero] at same
        exact lead (by rw [← same]; rfl)
      rw [← Nat.toDigits_append_toDigits (by norm_num) positive small, same,
        Nat.toDigits_of_lt_base small]

theorem to_digits_lead (n : Nat) (zero : (Nat.toDigits 10 n).head? = some '0') : n = 0 := by
  induction n using Nat.strong_induction_on with
  | _ n ih =>
    by_cases small : n < 10
    · rw [Nat.toDigits_of_lt_base small] at zero
      interval_cases n <;> simp_all [Nat.digitChar]
    · rw [Nat.toDigits_of_base_le (by norm_num) (by omega),
        List.head?_append_of_ne_nil _ Nat.toDigits_ne_nil] at zero
      have none := ih (n / 10) (by omega) zero
      omega

theorem to_digits_digits (n : Nat) : (Nat.toDigits 10 n).all Char.isDigit = true := by
  rw [List.all_eq_true]
  exact fun c mem => Nat.isDigit_of_mem_toDigits (by norm_num) (by norm_num) mem

/-- A number has one spelling. -/
theorem number_ok_iff (s : List Char) (pos : Nat) (n : UInt64) :
    number s pos = .ok n ↔ s = Nat.toDigits 10 n.toNat := by
  constructor
  · intro read
    rw [number] at read
    split_ifs at read with none notDigits zero fits
    · cases read
    · cases read
    · cases read
    · cases read
      have back : (UInt64.ofNat (Nat.ofDigitChars 10 s 0)).toNat = Nat.ofDigitChars 10 s 0 := by
        rw [UInt64.toNat_ofNat', Nat.mod_eq_of_lt fits]
      rw [back, to_digits_of_digits (by simpa using none) (by simpa using notDigits) zero]
    · cases read
  · rintro rfl
    have value : Nat.ofDigitChars 10 (Nat.toDigits 10 n.toNat) 0 = n.toNat :=
      Nat.ofDigitChars_ten_toDigits
    have plain : ¬ (1 < (Nat.toDigits 10 n.toNat).length ∧
        (Nat.toDigits 10 n.toNat).head? = some '0') := by
      intro ⟨long, zero⟩
      rw [to_digits_lead _ zero, Nat.toDigits_zero] at long
      simp at long
    rw [number, if_neg (by simp [Nat.toDigits_ne_nil]), if_neg (by simp [to_digits_digits]),
      if_neg plain, value, if_pos n.toNat_lt, UInt64.ofNat_toNat]

theorem parse_steps_ok_iff (parts : List (List Char)) (pos : Nat) (steps : List UInt64) :
    parseSteps parts pos = .ok steps ↔
      parts = steps.map (fun n => Nat.toDigits 10 n.toNat) := by
  induction parts generalizing pos steps with
  | nil => cases steps <;> simp [parseSteps]
  | cons part parts ih =>
    constructor
    · intro read
      rw [parseSteps] at read
      split at read
      · cases read
      · rename_i n first
        split at read
        · cases read
        · rename_i later rest
          cases read
          rw [List.map_cons, (number_ok_iff _ _ _).mp first, ← (ih _ _).mp rest]
    · intro same
      cases steps with
      | nil => cases same
      | cons n steps =>
        rw [List.map_cons, List.cons.injEq] at same
        rw [parseSteps, (number_ok_iff _ _ n).mpr same.1]
        simp only
        rw [(ih _ steps).mpr same.2]

/-! Single places. -/

/-- What `check_head` accepts. -/
def HeadOk (head : List Char) : Prop :=
  head ≠ [] ∧ head.all Char.isAlphanum = true ∧ head.any Char.isAlpha = true ∧
    isLineShaped head = false

theorem check_head_ok_iff (head : List Char) (pos : Nat) :
    checkHead head pos = .ok () ↔ HeadOk head := by
  rw [checkHead, HeadOk]
  split_ifs with none shape line
  · simp_all [err]
  · simp only [err, reduceCtorEq, false_iff]
    rintro ⟨_, alnum, alpha, _⟩
    simp [alnum, alpha] at shape
  · simp [err, line]
  · simp_all

/-- A place that can be an end of a range. -/
def Single : Locator → Prop
  | .canonical head _ => HeadOk head.toList
  | .line n => n ≠ 0
  | .pointer _ => False
  | .range _ _ => False

theorem intercalate_eq (sep : Char) (first : List Char) (rest : List (List Char)) :
    [sep].intercalate (first :: rest) = first ++ rest.flatMap (sep :: ·) := by
  induction rest generalizing first with
  | nil => simp [List.intercalate]
  | cons next rest ih =>
    rw [List.intercalate_cons_cons, ih]
    simp

theorem alphanum_not {head : List Char} (alnum : head.all Char.isAlphanum = true) {c : Char}
    (other : c.isAlphanum = false) : c ∉ head := by
  intro mem
  have held := List.all_eq_true.mp alnum c mem
  rw [other] at held
  cases held

theorem to_digits_not (n : Nat) {c : Char} (other : c.isDigit = false) :
    c ∉ Nat.toDigits 10 n := by
  intro mem
  have held := List.all_eq_true.mp (to_digits_digits n) c mem
  rw [other] at held
  cases held

theorem line_shaped_iff (s : List Char) :
    isLineShaped s = true ↔ ∃ rest, s = 'L' :: rest ∧ rest ≠ [] ∧ rest.all Char.isDigit = true := by
  constructor
  · intro shaped
    unfold isLineShaped at shaped
    split at shaped
    · rename_i rest
      simp only [Bool.and_eq_true, Bool.not_eq_true', List.isEmpty_eq_false_iff] at shaped
      exact ⟨rest, rfl, shaped⟩
    · cases shaped
  · rintro ⟨rest, rfl, held⟩
    simpa [isLineShaped] using held

theorem canonical_chars_parts (head : List Char) (steps : List UInt64) :
    head ++ steps.flatMap (fun n => '.' :: Nat.toDigits 10 n.toNat) =
      ['.'].intercalate (head :: steps.map (fun n => Nat.toDigits 10 n.toNat)) := by
  rw [intercalate_eq, List.flatMap_map]

theorem canonical_parts {head : List Char} (ok : HeadOk head) (steps : List UInt64) :
    (head ++ steps.flatMap (fun n => '.' :: Nat.toDigits 10 n.toNat)).splitOn '.' =
      head :: steps.map (fun n => Nat.toDigits 10 n.toNat) := by
  rw [canonical_chars_parts, List.splitOn_intercalate '.' _ (by simp)]
  intro part mem
  rcases List.mem_cons.mp mem with rfl | later
  · exact alphanum_not ok.2.1 (by decide)
  · obtain ⟨n, _, rfl⟩ := List.mem_map.mp later
    exact to_digits_not _ (by decide)

theorem canonical_not_line {head : List Char} (ok : HeadOk head) (steps : List UInt64) :
    isLineShaped (head ++ steps.flatMap (fun n => '.' :: Nat.toDigits 10 n.toNat)) = false := by
  cases steps with
  | nil => simpa using ok.2.2.2
  | cons n steps =>
    rw [Bool.eq_false_iff]
    intro shaped
    obtain ⟨rest, same, _, digits⟩ := (line_shaped_iff _).mp shaped
    have dot : '.' ∈ 'L' :: rest := by
      rw [← same]
      simp
    rcases List.mem_cons.mp dot with bad | inside
    · exact absurd bad (by decide)
    · have held := List.all_eq_true.mp digits '.' inside
      exact absurd held (by decide)

theorem parse_canonical_ok_iff (parts : List (List Char)) (some' : parts ≠ []) (pos : Nat)
    (l : Locator) : parseCanonical parts pos = .ok l ↔ ∃ head steps,
      l = .canonical (String.ofList head) steps ∧ HeadOk head ∧
        parts = head :: steps.map (fun n => Nat.toDigits 10 n.toNat) := by
  obtain ⟨first, rest, rfl⟩ := List.exists_cons_of_ne_nil some'
  rw [parseCanonical]
  simp only [List.headD_cons, List.tail_cons, List.cons.injEq]
  constructor
  · intro read
    split at read
    · cases read
    · rename_i checked
      split at read
      · cases read
      · rename_i steps numbers
        cases read
        exact ⟨first, steps, rfl, (check_head_ok_iff _ _).mp checked, rfl,
          (parse_steps_ok_iff _ _ _).mp numbers⟩
  · rintro ⟨head, steps, rfl, ok, rfl, rfl⟩
    rw [(check_head_ok_iff _ _).mpr ok]
    simp only
    rw [(parse_steps_ok_iff _ _ steps).mpr rfl]

/-- A single place has one spelling. -/
theorem parse_single_ok_iff (s : List Char) (pos : Nat) (l : Locator) :
    parseSingle s pos = .ok l ↔ l.Single ∧ s = l.toChars := by
  constructor
  · intro read
    rw [parseSingle] at read
    split_ifs at read with none slash shaped
    · cases read
    · cases read
    · obtain ⟨rest, rfl, _, _⟩ := (line_shaped_iff s).mp shaped
      split at read
      · cases read
      · rename_i n digits
        rw [ofLine] at read
        split_ifs at read with zero
        · cases read
        · cases read
          refine ⟨zero, ?_⟩
          rw [toChars, ← (number_ok_iff _ _ _).mp digits, List.tail_cons]
    · obtain ⟨head, steps, rfl, ok, parts⟩ :=
        (parse_canonical_ok_iff _ (List.splitOn_ne_nil _ _) _ _).mp read
      have whole : ['.'].intercalate (s.splitOn '.') = s := List.intercalate_splitOn '.'
      rw [parts, ← canonical_chars_parts] at whole
      refine ⟨?_, ?_⟩
      · rw [Single, String.toList_ofList]
        exact ok
      · rw [toChars, String.toList_ofList]
        exact whole.symm
  · rintro ⟨single, rfl⟩
    cases l with
    | canonical head steps =>
      rw [toChars, parseSingle]
      have ok : HeadOk head.toList := single
      have some' : head.toList ≠ [] := ok.1
      have slash : '/' ∉ head.toList := alphanum_not ok.2.1 (by decide)
      rw [if_neg (by simp [some']), if_neg, if_neg (by simp [canonical_not_line ok]),
        canonical_parts ok]
      · rw [parse_canonical_ok_iff _ (by simp)]
        exact ⟨head.toList, steps, by rw [String.ofList_toList], ok, rfl⟩
      · rw [List.head?_append_of_ne_nil _ some']
        exact fun front => slash (List.mem_of_mem_head? front)
    | line n =>
      have digits := to_digits_digits n.toNat
      have shaped : isLineShaped ('L' :: Nat.toDigits 10 n.toNat) = true :=
        (line_shaped_iff _).mpr ⟨_, rfl, Nat.toDigits_ne_nil, digits⟩
      rw [toChars, parseSingle, if_neg (by simp), if_neg (by simp), if_pos shaped,
        List.tail_cons, (number_ok_iff _ _ n).mpr rfl]
      simp only
      rw [ofLine, if_neg single]
    | pointer tokens => cases single
    | range first last => cases single

theorem alphanum_ok_char {c : Char} (alnum : c.isAlphanum = true) :
    okChar c = true ∧ c ≠ '-' ∧ c.toNat < 128 := by
  have range : (48 ≤ c.toNat ∧ c.toNat ≤ 57) ∨ (65 ≤ c.toNat ∧ c.toNat ≤ 90) ∨
      (97 ≤ c.toNat ∧ c.toNat ≤ 122) := by
    simp only [Char.isAlphanum, Char.isAlpha, Char.isUpper, Char.isLower, Char.isDigit,
      Bool.or_eq_true, Bool.and_eq_true, decide_eq_true_eq] at alnum
    rcases alnum with (⟨low, high⟩ | ⟨low, high⟩) | ⟨low, high⟩
    · exact Or.inr (Or.inl ⟨low, high⟩)
    · exact Or.inr (Or.inr ⟨low, high⟩)
    · exact Or.inl ⟨low, high⟩
  have named : ∀ n, (48 ≤ n ∧ n ≤ 57) ∨ (65 ≤ n ∧ n ≤ 90) ∨ (97 ≤ n ∧ n ≤ 122) →
      okChar (Char.ofNat n) = true ∧ Char.ofNat n ≠ '-' ∧ (Char.ofNat n).toNat < 128 := by
    intro n bounds
    rcases bounds with ⟨low, high⟩ | ⟨low, high⟩ | ⟨low, high⟩ <;> interval_cases n <;> decide
  have held := named c.toNat range
  rwa [Char.ofNat_toNat] at held

theorem digit_alphanum {c : Char} (digit : c.isDigit = true) : c.isAlphanum = true := by
  simp [Char.isAlphanum, digit]

/-- The characters of a single place. -/
theorem single_chars {l : Locator} (single : l.Single) :
    l.toChars ≠ [] ∧ l.toChars.head? ≠ some '/' ∧
      ∀ c ∈ l.toChars, okChar c = true ∧ c ≠ '-' ∧ c.toNat < 128 := by
  have digits : ∀ (n : UInt64), ∀ c ∈ Nat.toDigits 10 n.toNat,
      okChar c = true ∧ c ≠ '-' ∧ c.toNat < 128 := fun n c mem => alphanum_ok_char
      (digit_alphanum (List.all_eq_true.mp (to_digits_digits n.toNat) c mem))
  cases l with
  | canonical head steps =>
    have ok : HeadOk head.toList := single
    refine ⟨?_, ?_, ?_⟩
    · simp only [toChars]
      exact List.append_ne_nil_of_left_ne_nil ok.1 _
    · rw [toChars, List.head?_append_of_ne_nil _ ok.1]
      intro front
      have held := List.all_eq_true.mp ok.2.1 '/' (List.mem_of_mem_head? front)
      exact absurd held (by decide)
    · intro c mem
      rw [toChars, List.mem_append, List.mem_flatMap] at mem
      rcases mem with inside | ⟨n, _, inside⟩
      · exact alphanum_ok_char (List.all_eq_true.mp ok.2.1 c inside)
      · rcases List.mem_cons.mp inside with rfl | digit
        · decide
        · exact digits n c digit
  | line n =>
    refine ⟨by simp [toChars], by simp [toChars], ?_⟩
    intro c mem
    rw [toChars] at mem
    rcases List.mem_cons.mp mem with rfl | digit
    · decide
    · exact digits n c digit
  | pointer tokens => cases single
  | range first last => cases single

theorem find_bad_none_iff (pos : Nat) (s : List Char) :
    findBad pos s = none ↔ ∀ c ∈ s, okChar c = true := by
  induction s generalizing pos with
  | nil => simp [findBad]
  | cons c rest ih =>
    rw [findBad]
    split
    · rename_i ok
      rw [ih]
      simp [ok]
    · rename_i bad
      simp [bad]

theorem split_hyphen_none {s : List Char} : splitHyphen s = none ↔ '-' ∉ s := by
  induction s with
  | nil => simp [splitHyphen]
  | cons c rest ih =>
    rw [splitHyphen]
    split
    · rename_i same
      simp [same]
    · rename_i other
      simp [ih, Ne.symm other]

theorem split_hyphen_some {s first last : List Char} :
    splitHyphen s = some (first, last) ↔ s = first ++ '-' :: last ∧ '-' ∉ first := by
  induction s generalizing first with
  | nil => simp [splitHyphen]
  | cons c rest ih =>
    rw [splitHyphen]
    split
    · rename_i same
      subst same
      cases first with
      | nil => simp
      | cons d first =>
        simp only [Option.some.injEq, Prod.mk.injEq, List.nil_eq, reduceCtorEq, false_and,
          List.cons_append, List.cons.injEq, List.mem_cons, not_or, false_iff, not_and,
          not_not]
        intro same
        exact fun fresh => absurd same.1 fresh
    · rename_i other
      cases first with
      | nil => simp [other]
      | cons d first =>
        simp only [Option.map_eq_some_iff, Prod.exists, Prod.mk.injEq, List.cons.injEq,
          List.cons_append, List.mem_cons, not_or]
        constructor
        · rintro ⟨first', last', found, ⟨rfl, rfl⟩, rfl⟩
          obtain ⟨same, fresh⟩ := ih.mp found
          exact ⟨⟨rfl, same⟩, Ne.symm other, fresh⟩
        · rintro ⟨⟨rfl, same⟩, _, fresh⟩
          exact ⟨first, last, ih.mpr ⟨same, fresh⟩, ⟨rfl, rfl⟩, rfl⟩

/-! Pointers. -/

def escapeChar (c : Char) : List Char :=
  if c = '~' then ['~', '0'] else if c = '/' then ['~', '1'] else [c]

theorem escape_char_other {c : Char} (tilde : c ≠ '~') (slash : c ≠ '/') :
    escapeChar c = [c] := by
  rw [escapeChar, if_neg tilde, if_neg slash]

theorem escape_plain {token : List Char} (tilde : '~' ∉ token) (slash : '/' ∉ token) :
    token.flatMap escapeChar = token := by
  induction token with
  | nil => rfl
  | cons c rest ih =>
    simp only [List.mem_cons, not_or] at tilde slash
    rw [List.flatMap_cons, escape_char_other (Ne.symm tilde.1) (Ne.symm slash.1),
      ih tilde.2 slash.2, List.singleton_append]

/-- The two passes are one pass over the characters. -/
theorem escape_eq (token : List Char) : escape token = token.flatMap escapeChar := by
  rw [escape]
  split
  · rename_i plain
    simp only [Bool.and_eq_true, Bool.not_eq_true', List.contains_eq_mem,
      decide_eq_false_iff_not] at plain
    exact (escape_plain plain.1 plain.2).symm
  · rw [List.flatMap_assoc]
    congr 1
    funext c
    rw [escapeChar]
    split_ifs with tilde slash
    · rfl
    · simp [slash]
    · simp [slash]

theorem unescape_from_other {c : Char} (tilde : c ≠ '~') (pos : Nat) (rest : List Char) :
    unescapeFrom pos (c :: rest) = (unescapeFrom (pos + c.utf8Size) rest).map (c :: ·) := by
  rw [unescapeFrom, if_neg tilde]
  · intro rest' same
    exact absurd same tilde
  · intro rest' same
    exact absurd same tilde

theorem unescape_from_escape (token : List Char) (pos : Nat) :
    unescapeFrom pos (token.flatMap escapeChar) = .ok token := by
  induction token generalizing pos with
  | nil => rfl
  | cons c rest ih =>
    rw [List.flatMap_cons]
    by_cases tilde : c = '~'
    · subst tilde
      rw [escapeChar, if_pos rfl, List.cons_append, List.cons_append, List.nil_append,
        unescapeFrom, ih]
      rfl
    · by_cases slash : c = '/'
      · subst slash
        rw [escapeChar, if_neg tilde, if_pos rfl, List.cons_append, List.cons_append,
          List.nil_append, unescapeFrom, ih]
        rfl
      · rw [escape_char_other tilde slash, List.cons_append, List.nil_append,
          unescape_from_other tilde, ih]
        rfl

theorem res_map_ok {α β : Type} {r : Res α} {f : α → β} {b : β} (mapped : r.map f = .ok b) :
    ∃ a, r = .ok a ∧ f a = b := by
  cases r with
  | error e => cases mapped
  | ok a =>
    cases mapped
    exact ⟨a, rfl, rfl⟩

/-- What is unescaped is escaped again as it was. -/
theorem escape_unescape_from {raw token : List Char} {pos : Nat} (slash : '/' ∉ raw)
    (read : unescapeFrom pos raw = .ok token) : token.flatMap escapeChar = raw := by
  induction pos, raw using unescapeFrom.induct generalizing token with
  | case1 =>
    cases read
    rfl
  | case2 pos rest ih =>
    rw [unescapeFrom] at read
    obtain ⟨later, found, rfl⟩ := res_map_ok read
    simp only [List.mem_cons, not_or] at slash
    rw [List.flatMap_cons, ih slash.2.2 found]
    rfl
  | case3 pos rest ih =>
    rw [unescapeFrom] at read
    obtain ⟨later, found, rfl⟩ := res_map_ok read
    simp only [List.mem_cons, not_or] at slash
    rw [List.flatMap_cons, ih slash.2.2 found]
    rfl
  | case4 pos rest no0 no1 =>
    rw [unescapeFrom, if_pos rfl] at read
    · cases read
    · exact no0
    · exact no1
  | case5 pos c rest no0 no1 tilde ih =>
    rw [unescape_from_other tilde] at read
    obtain ⟨later, found, rfl⟩ := res_map_ok read
    simp only [List.mem_cons, not_or] at slash
    rw [List.flatMap_cons, ih slash.2 found, escape_char_other tilde (Ne.symm slash.1),
      List.singleton_append]

theorem unescape_ok_iff {raw token : List Char} {pos : Nat} (slash : '/' ∉ raw) :
    unescape raw pos = .ok token ↔ raw = token.flatMap escapeChar := by
  rw [unescape]
  constructor
  · intro read
    split at read
    · exact (escape_unescape_from slash read).symm
    · rename_i tilde
      cases read
      rw [escape_plain (by simpa using tilde) slash]
  · rintro rfl
    split
    · exact unescape_from_escape token pos
    · rename_i tilde
      have plain : '~' ∉ token.flatMap escapeChar := by simpa using tilde
      have same := escape_unescape_from slash (unescape_from_escape token pos)
      have noTilde : '~' ∉ token := by
        intro mem
        exact plain (List.mem_flatMap.mpr ⟨'~', mem, by simp [escapeChar]⟩)
      have noSlash : '/' ∉ token := by
        intro mem
        exact plain (List.mem_flatMap.mpr ⟨'/', mem, by simp [escapeChar]⟩)
      rw [escape_plain noTilde noSlash]

theorem escape_char_no_slash (c : Char) : '/' ∉ escapeChar c := by
  rw [escapeChar]
  split_ifs with tilde slash
  · decide
  · decide
  · simpa using Ne.symm slash

theorem parse_tokens_ok_iff (raws : List (List Char)) (slash : ∀ raw ∈ raws, '/' ∉ raw)
    (pos : Nat) (tokens : List String) : parseTokens raws pos = .ok tokens ↔
      raws = tokens.map (fun t => t.toList.flatMap escapeChar) := by
  induction raws generalizing pos tokens with
  | nil => cases tokens <;> simp [parseTokens]
  | cons raw rest ih =>
    have here := slash raw List.mem_cons_self
    have there := ih (fun raw mem => slash raw (List.mem_cons_of_mem _ mem))
    constructor
    · intro read
      rw [parseTokens] at read
      split at read
      · cases read
      · rename_i token found
        split at read
        · cases read
        · rename_i later others
          cases read
          rw [List.map_cons, String.toList_ofList, ← (unescape_ok_iff here).mp found,
            ← (there _ _).mp others]
    · intro same
      cases tokens with
      | nil => cases same
      | cons token tokens =>
        rw [List.map_cons, List.cons.injEq] at same
        rw [parseTokens, (unescape_ok_iff here).mpr same.1]
        simp only
        rw [(there _ tokens).mpr same.2, String.ofList_toList]

theorem flatMap_split (raws : List (List Char)) (some' : raws ≠ []) :
    raws.flatMap ('/' :: ·) = '/' :: ['/'].intercalate raws := by
  obtain ⟨first, rest, rfl⟩ := List.exists_cons_of_ne_nil some'
  rw [intercalate_eq, List.flatMap_cons, List.cons_append]

theorem split_on_free (sep : Char) (s : List Char) : ∀ part ∈ s.splitOn sep, sep ∉ part := by
  induction s with
  | nil => simp
  | cons c rest ih =>
    rw [List.splitOn_cons_eq_if_modifyHead]
    split
    · intro part mem
      rcases List.mem_cons.mp mem with rfl | later
      · simp
      · exact ih part later
    · rename_i other
      obtain ⟨first, parts, same⟩ := List.exists_cons_of_ne_nil (List.splitOn_ne_nil sep rest)
      rw [same, List.modifyHead_cons]
      rw [same] at ih
      intro part mem
      rcases List.mem_cons.mp mem with rfl | later
      · simp only [List.mem_cons, not_or]
        refine ⟨?_, ih first List.mem_cons_self⟩
        intro sames
        exact other (by simp [sames])
      · exact ih part (List.mem_cons_of_mem _ later)

/-- A pointer has one spelling. -/
theorem parse_pointer_ok_iff (rest : List Char) (l : Locator) :
    parsePointer ('/' :: rest) = .ok l ↔
      ∃ tokens, l = .pointer tokens ∧ tokens ≠ [] ∧ '/' :: rest = l.toChars := by
  have chars : ∀ tokens : List String, toChars (.pointer tokens) =
      (tokens.map (fun t => t.toList.flatMap escapeChar)).flatMap ('/' :: ·) := by
    intro tokens
    simp only [toChars, escape_eq, List.flatMap_map]
  rw [parsePointer, List.tail_cons]
  constructor
  · intro read
    obtain ⟨tokens, found, rfl⟩ := res_map_ok read
    have parts := (parse_tokens_ok_iff _ (split_on_free '/' rest) _ _).mp found
    have whole : ['/'].intercalate (rest.splitOn '/') = rest := List.intercalate_splitOn '/'
    refine ⟨tokens, rfl, ?_, ?_⟩
    · rintro rfl
      exact List.splitOn_ne_nil '/' rest parts
    · rw [chars, ← parts, flatMap_split _ (List.splitOn_ne_nil _ _), whole]
  · rintro ⟨tokens, rfl, some', same⟩
    have someRaw : tokens.map (fun t => t.toList.flatMap escapeChar) ≠ [] := by simpa using some'
    have free : ∀ raw ∈ tokens.map (fun t => t.toList.flatMap escapeChar), '/' ∉ raw := by
      intro raw mem
      obtain ⟨t, _, rfl⟩ := List.mem_map.mp mem
      intro inside
      obtain ⟨c, _, held⟩ := List.mem_flatMap.mp inside
      exact escape_char_no_slash c held
    rw [chars, flatMap_split _ someRaw, List.cons.injEq] at same
    rw [same.2, List.splitOn_intercalate '/' free someRaw,
      (parse_tokens_ok_iff _ free _ tokens).mpr rfl]
    rfl

/-! Whole locators. -/

theorem order_eq_iff {a b : Locator} (single : a.Single) (single' : b.Single) :
    order a b = .eq ↔ a = b := by
  cases a with
  | canonical head steps =>
    cases b with
    | canonical head' steps' =>
      simp [order, Ordering.then_eq_eq]
    | line n => simp [order, kind, Kind.place, compare, compareOfLessAndEq]
    | pointer tokens => cases single'
    | range first last => cases single'
  | line n =>
    cases b with
    | canonical head' steps' => simp [order, kind, Kind.place, compare, compareOfLessAndEq]
    | line n' => simp [order]
    | pointer tokens => cases single'
    | range first last => cases single'
  | pointer tokens => cases single
  | range first last => cases single

theorem single_kind {a : Locator} (single : a.Single) : a.kind ≠ .range ∧ a.kind ≠ .pointer := by
  cases a with
  | canonical head steps => simp [kind]
  | line n => simp [kind]
  | pointer tokens => cases single
  | range first last => cases single

/-- What the constructors and the parser make. -/
def Valid : Locator → Prop
  | .canonical head _ => HeadOk head.toList
  | .line n => n ≠ 0
  | .pointer tokens => tokens ≠ [] ∧ ∀ t ∈ tokens, ∀ c ∈ t.toList, okChar c = true
  | .range first last =>
    first.Single ∧ last.Single ∧ first.kind = last.kind ∧ order first last = .lt

/-- A range of equal ends as text, which is read as its end. -/
def Doubled (s : List Char) : Prop :=
  s.head? ≠ some '/' ∧ ∃ e, s = e ++ '-' :: e

theorem single_chars_injective {a b : Locator} (single : a.Single) (single' : b.Single)
    (same : a.toChars = b.toChars) : a = b := by
  have one := (parse_single_ok_iff a.toChars 0 a).mpr ⟨single, rfl⟩
  have two := (parse_single_ok_iff a.toChars 0 b).mpr ⟨single', same⟩
  rw [one] at two
  cases two
  rfl

theorem single_no_hyphen {a : Locator} (single : a.Single) : '-' ∉ a.toChars := by
  intro mem
  exact ((single_chars single).2.2 '-' mem).2.1 rfl

/-- A text with one hyphen is cut at it in one way. -/
theorem hyphen_apart {a b c d : List Char} (fresh : '-' ∉ a) (fresh' : '-' ∉ b)
    (same : a ++ '-' :: b = c ++ '-' :: d) : a = c ∧ b = d := by
  have count := congrArg (List.count '-') same
  simp only [List.count_append, List.count_cons_self, List.count_eq_zero_of_not_mem fresh,
    List.count_eq_zero_of_not_mem fresh'] at count
  have fresh'' : '-' ∉ c := by
    rw [← List.count_eq_zero]
    omega
  have cut : splitHyphen (a ++ '-' :: b) = some (a, b) := split_hyphen_some.mpr ⟨rfl, fresh⟩
  rw [same, split_hyphen_some.mpr ⟨rfl, fresh''⟩] at cut
  cases cut
  exact ⟨rfl, rfl⟩

/-- An accepted text is the locator's own, unless its two ends are equal. -/
theorem parse_chars_text {s : List Char} {l : Locator} (read : parseChars s = .ok l) :
    l.toChars = s ↔ ¬ Doubled s := by
  rw [parseChars] at read
  split at read
  · cases read
  · split at read
    · cases read
    · split at read
      · rename_i slash
        cases s with
        | nil => cases slash
        | cons c rest =>
          cases slash
          obtain ⟨tokens, rfl, _, same⟩ := (parse_pointer_ok_iff rest l).mp read
          simp [← same, Doubled]
      · rename_i slash
        split at read
        · rename_i first last cut
          obtain ⟨rfl, fresh⟩ := split_hyphen_some.mp cut
          rw [parseRange] at read
          split at read
          · cases read
          · rename_i a readA
            split at read
            · cases read
            · rename_i b readB
              obtain ⟨singleA, rfl⟩ := (parse_single_ok_iff _ _ _).mp readA
              obtain ⟨singleB, rfl⟩ := (parse_single_ok_iff _ _ _).mp readB
              have joined : ofEnds a b = .ok l := by
                split at read
                · cases read
                · rename_i made
                  cases read
                  exact made
              rw [ofEnds] at joined
              split_ifs at joined with nested mixed pointer
              · cases joined
              · cases joined
              · cases joined
              · split at joined
                · rename_i equal
                  cases joined
                  have same := (order_eq_iff singleA singleB).mp equal
                  subst same
                  constructor
                  · intro shorter
                    have lengths := congrArg List.length shorter
                    simp only [List.length_append, List.length_cons] at lengths
                    omega
                  · intro apart
                    exact absurd ⟨slash, _, rfl⟩ apart
                · rename_i less
                  cases joined
                  refine ⟨fun _ => ?_, fun _ => rfl⟩
                  rintro ⟨_, e, twice⟩
                  obtain ⟨left, right⟩ :=
                    hyphen_apart fresh (single_no_hyphen singleB) twice
                  have same := single_chars_injective singleA singleB (left.trans right.symm)
                  rw [(order_eq_iff singleA singleB).mpr same] at less
                  cases less
                · cases joined
        · rename_i cut
          obtain ⟨single, rfl⟩ := (parse_single_ok_iff _ _ _).mp read
          have fresh := split_hyphen_none.mp cut
          refine ⟨fun _ => ?_, fun _ => rfl⟩
          rintro ⟨_, e, twice⟩
          apply fresh
          rw [twice]
          simp

/-- Only a range of two equal ends collapses, into an end. -/
theorem parse_chars_doubled {s : List Char} {l : Locator} (read : parseChars s = .ok l)
    (doubled : Doubled s) : l.Single ∧ s = l.toChars ++ '-' :: l.toChars := by
  rw [parseChars] at read
  split at read
  · cases read
  · split at read
    · cases read
    · rw [if_neg doubled.1] at read
      split at read
      · rename_i first last cut
        obtain ⟨_, e, twice⟩ := doubled
        obtain ⟨rfl, fresh⟩ := split_hyphen_some.mp cut
        rw [parseRange] at read
        split at read
        · cases read
        · rename_i a readA
          split at read
          · cases read
          · rename_i b readB
            obtain ⟨singleA, rfl⟩ := (parse_single_ok_iff _ _ _).mp readA
            obtain ⟨singleB, rfl⟩ := (parse_single_ok_iff _ _ _).mp readB
            obtain ⟨left, right⟩ := hyphen_apart fresh (single_no_hyphen singleB) twice
            have same := single_chars_injective singleA singleB (left.trans right.symm)
            subst same
            rw [ofEnds, if_neg (by simp [(single_kind singleA).1]), if_neg (by simp),
              if_neg (single_kind singleA).2, (order_eq_iff singleA singleA).mpr rfl] at read
            cases read
            exact ⟨singleA, rfl⟩
      · rename_i cut
        obtain ⟨_, e, twice⟩ := doubled
        exact absurd (by rw [twice]; simp) (split_hyphen_none.mp cut)

theorem parse_text {s : String} {l : Locator} (read : parse s = .ok l) :
    l.toText = s ↔ ¬ Doubled s.toList := by
  rw [← parse_chars_text read, toText, ← String.toList_inj, String.toList_ofList]

theorem parse_single_chars {l : Locator} (single : l.Single) : parseChars l.toChars = .ok l := by
  obtain ⟨some', slash, allowed⟩ := single_chars single
  have ok := (find_bad_none_iff 0 l.toChars).mpr fun c mem => (allowed c mem).1
  rw [parseChars, if_neg (by simpa using some'), ok]
  simp only
  rw [if_neg slash, split_hyphen_none.mpr (single_no_hyphen single)]
  exact (parse_single_ok_iff _ _ _).mpr ⟨single, rfl⟩

/-- A locator's own text is read back. -/
theorem parse_to_text {l : Locator} (valid : l.Valid) : parse l.toText = .ok l := by
  rw [parse, toText, String.toList_ofList]
  cases l with
  | canonical head steps => exact parse_single_chars valid
  | line n => exact parse_single_chars valid
  | pointer tokens =>
    obtain ⟨some', allowed⟩ := valid
    obtain ⟨token, more, rfl⟩ := List.exists_cons_of_ne_nil some'
    have front : ∃ rest, toChars (.pointer (token :: more)) = '/' :: rest := ⟨_, rfl⟩
    obtain ⟨rest, shape⟩ := front
    have ok : findBad 0 (toChars (.pointer (token :: more))) = none := by
      rw [find_bad_none_iff]
      intro c mem
      simp only [toChars, List.mem_flatMap, List.mem_cons] at mem
      obtain ⟨t, held, rfl | inside⟩ := mem
      · decide
      · rw [escape_eq, List.mem_flatMap] at inside
        obtain ⟨d, inToken, here⟩ := inside
        rw [escapeChar] at here
        split_ifs at here with tilde slash
        · simp only [List.mem_cons, List.not_mem_nil, or_false] at here
          rcases here with rfl | rfl <;> decide
        · simp only [List.mem_cons, List.not_mem_nil, or_false] at here
          rcases here with rfl | rfl <;> decide
        · rw [List.mem_singleton] at here
          subst here
          exact allowed t (List.mem_cons.mpr held) c inToken
    rw [parseChars, if_neg (by simp [shape]), ok]
    simp only
    rw [if_pos (by rw [shape]; rfl), shape, parse_pointer_ok_iff]
    exact ⟨_, rfl, by simp, shape.symm⟩
  | range first last =>
    obtain ⟨singleA, singleB, kinds, less⟩ := valid
    obtain ⟨someA, slashA, allowedA⟩ := single_chars singleA
    obtain ⟨_, _, allowedB⟩ := single_chars singleB
    have ok : findBad 0 (toChars (.range first last)) = none := by
      rw [find_bad_none_iff]
      intro c mem
      rw [toChars, List.mem_append, List.mem_cons] at mem
      rcases mem with inside | rfl | inside
      · exact (allowedA c inside).1
      · decide
      · exact (allowedB c inside).1
    have cut : splitHyphen (toChars (.range first last)) = some (first.toChars, last.toChars) :=
      split_hyphen_some.mpr ⟨rfl, single_no_hyphen singleA⟩
    have joined : ofEnds first last = .ok (.range first last) := by
      rw [ofEnds, if_neg (by simp [(single_kind singleA).1, (single_kind singleB).1]),
        if_neg (by simp [kinds]), if_neg (single_kind singleA).2, less]
    rw [parseChars, if_neg (by simp [toChars]), ok]
    simp only
    rw [if_neg, cut]
    · simp only
      rw [parseRange, (parse_single_ok_iff _ _ first).mpr ⟨singleA, rfl⟩]
      simp only
      rw [(parse_single_ok_iff _ _ last).mpr ⟨singleB, rfl⟩]
      simp only
      rw [joined]
    · rw [toChars, List.head?_append_of_ne_nil _ someA]
      exact slashA

end Locator
end Smysl
