import Smysl.Core.Edtf.Syntax
import Smysl.Graph.Interp
import Mathlib.Data.Nat.Find
import Mathlib.Logic.Relation

/-!
The gate between given text and text that may name a part: the leading mark is
stripped, line ends become line feeds, and the rest is put in normal form.
-/
namespace Smysl
open ByteString

/-- The byte-order mark. -/
def bom : Char := '\uFEFF'

/-- `input.strip_prefix(BOM).unwrap_or(input)`. -/
def stripBom : List Char → List Char
  | [] => []
  | c :: rest => if c = bom then rest else c :: rest

/-- The loop of `newlines_to_lf`: a carriage return takes a line feed after it
along. -/
def convertLines : List Char → List Char
  | [] => []
  | '\r' :: '\n' :: rest => '\n' :: convertLines rest
  | c :: rest => (if c = '\r' then '\n' else c) :: convertLines rest

def newlinesToLf (s : String) : String :=
  if s.toList.contains '\r' then String.ofList (convertLines s.toList) else s

/-- `str::get` of a range of bytes. -/
def getRange (s : String) (start stop : Nat) : Option String :=
  if start ≤ stop && Edtf.isCharBoundary (utf8 s) start && Edtf.isCharBoundary (utf8 s) stop then
    fromUtf8 (((utf8 s).drop start).take (stop - start))
  else none

/-- `Utf8Error::valid_up_to`: the length of the longest valid beginning. -/
def validUpTo (input : Bytes) : Nat :=
  Nat.findGreatest (fun n => (fromUtf8 (input.take n)).isSome) input.length

/-- `LibError::NotText`: where the decoder gave up. -/
structure NotText where
  offset : Nat
  deriving DecidableEq, Repr

theorem get_range_whole (s : String) : getRange s 0 (utf8 s).length = some s := by
  have ends : Edtf.isCharBoundary (utf8 s) (utf8 s).length = true := by
    simp [Edtf.isCharBoundary]
  have starts : Edtf.isCharBoundary (utf8 s) 0 = true := by simp [Edtf.isCharBoundary]
  rw [getRange, starts, ends]
  simp [from_utf8_iff]

/-! What differs without a difference in the text. -/

/-- A text that begins with a line end, and what follows the line end. -/
inductive Ends : List Char → List Char → Prop
  | lf (rest : List Char) : Ends ('\n' :: rest) rest
  | crlf (rest : List Char) : Ends ('\r' :: '\n' :: rest) rest
  | cr (rest : List Char) (lone : rest.head? ≠ some '\n') : Ends ('\r' :: rest) rest

/-- Two texts whose lines are the same. -/
inductive SameLines : List Char → List Char → Prop
  | nil : SameLines [] []
  | char {x y : List Char} (c : Char) (inside : c ≠ '\r' ∧ c ≠ '\n') (rest : SameLines x y) :
    SameLines (c :: x) (c :: y)
  | line {x x' y y' : List Char} (left : Ends x x') (right : Ends y y')
    (rest : SameLines x' y') : SameLines x y

/-- Two texts that differ in line ends or by canonical equivalence. -/
inductive Variant (equivalent : String → String → Prop) : String → String → Prop
  | lines {x y : String} (same : SameLines x.toList y.toList) : Variant equivalent x y
  | canonical {x y : String} (same : equivalent x y) : Variant equivalent x y

/-- A text, or the text after one mark. -/
inductive Marked : String → String → Prop
  | without (x : String) : Marked x x
  | withMark (x : String) : Marked (String.ofList (bom :: x.toList)) x

/-- Two texts that differ in one leading mark, in line ends and by canonical
equivalence. -/
def Differs (equivalent : String → String → Prop) (x y : String) : Prop :=
  ∃ x' y', Marked x x' ∧ Marked y y' ∧ Relation.EqvGen (Variant equivalent) x' y'

/-- The marks a text begins with. -/
def leadingMarks : List Char → Nat
  | [] => 0
  | c :: rest => if c = bom then leadingMarks rest + 1 else 0

/-- Characters that normal forms keep where they are: the mark and the line
breaks. -/
def inert (c : Char) : Prop := c = bom ∨ c = '\r' ∨ c = '\n'

/-! Line ends. -/

theorem convert_lines_lone {rest : List Char} (lone : rest.head? ≠ some '\n') :
    convertLines ('\r' :: rest) = '\n' :: convertLines rest := by
  cases rest with
  | nil => rfl
  | cons c rest =>
    have other : c ≠ '\n' := by
      intro same
      exact lone (by rw [same]; rfl)
    rw [convertLines]
    · simp
    · intro rest' _ same
      cases same
      exact other rfl

theorem convert_lines_other {c : Char} (other : c ≠ '\r') (rest : List Char) :
    convertLines (c :: rest) = c :: convertLines rest := by
  rw [convertLines, if_neg other]
  intro rest' same
  exact absurd same other

theorem convert_lines_no_cr (l : List Char) : '\r' ∉ convertLines l := by
  induction l using convertLines.induct with
  | case1 => simp [convertLines]
  | case2 rest ih =>
    rw [convertLines]
    simp [ih]
  | case3 c rest other ih =>
    rw [convertLines]
    · by_cases same : c = '\r'
      · simp [same, ih]
      · simp [same, ih, Ne.symm same]
    · exact other

theorem convert_lines_fixed {l : List Char} (free : '\r' ∉ l) : convertLines l = l := by
  induction l with
  | nil => rfl
  | cons c rest ih =>
    simp only [List.mem_cons, not_or] at free
    rw [convert_lines_other (Ne.symm free.1), ih free.2]

theorem convert_lines_append {a : List Char} (free : '\r' ∉ a) (b : List Char) :
    convertLines (a ++ b) = a ++ convertLines b := by
  induction a with
  | nil => rfl
  | cons c rest ih =>
    simp only [List.mem_cons, not_or] at free
    rw [List.cons_append, convert_lines_other (Ne.symm free.1), ih free.2, List.cons_append]

theorem newlines_to_lf_list (s : String) : (newlinesToLf s).toList = convertLines s.toList := by
  rw [newlinesToLf]
  split
  · rw [String.toList_ofList]
  · rename_i free
    rw [convert_lines_fixed]
    simpa using free

theorem ends_convert {x x' : List Char} (ends : Ends x x') :
    convertLines x = '\n' :: convertLines x' := by
  cases ends with
  | lf => rw [convert_lines_other (by decide)]
  | crlf => rw [convertLines]
  | cr _ lone => rw [convert_lines_lone lone]

/-- Texts with the same lines are one text once their line ends are. -/
theorem same_lines_convert {x y : List Char} (same : SameLines x y) :
    convertLines x = convertLines y := by
  induction same with
  | nil => rfl
  | char c inside _ ih => rw [convert_lines_other inside.1, convert_lines_other inside.1, ih]
  | line left right _ ih => rw [ends_convert left, ends_convert right, ih]

/-! Marks. -/

theorem strip_bom_other {l : List Char} (other : l.head? ≠ some bom) : stripBom l = l := by
  cases l with
  | nil => rfl
  | cons c rest =>
    rw [stripBom, if_neg]
    intro same
    exact other (by rw [same]; rfl)

theorem strip_bom_mark (rest : List Char) : stripBom (bom :: rest) = rest := by
  rw [stripBom, if_pos rfl]

theorem leading_marks_mark (rest : List Char) :
    leadingMarks (bom :: rest) = leadingMarks rest + 1 := by
  rw [leadingMarks, if_pos rfl]

theorem leading_marks_other {l : List Char} (other : l.head? ≠ some bom) :
    leadingMarks l = 0 := by
  cases l with
  | nil => rfl
  | cons c rest =>
    rw [leadingMarks, if_neg]
    intro same
    exact other (by rw [same]; rfl)

/-- A text begins with a mark or with none. -/
theorem marked_or (l : List Char) : l.head? ≠ some bom ∨ ∃ rest, l = bom :: rest := by
  cases l with
  | nil => simp
  | cons c rest =>
    by_cases same : c = bom
    · exact Or.inr ⟨rest, by rw [same]⟩
    · exact Or.inl (by simpa using same)

theorem leading_marks_strip (l : List Char) :
    leadingMarks (stripBom l) = leadingMarks l - 1 := by
  rcases marked_or l with other | ⟨rest, rfl⟩
  · rw [strip_bom_other other, leading_marks_other other]
  · rw [strip_bom_mark, leading_marks_mark, Nat.add_sub_cancel]

theorem strip_bom_fixed {l : List Char} : stripBom l = l ↔ leadingMarks l = 0 := by
  constructor
  · intro fixed
    have marks := leading_marks_strip l
    rw [fixed] at marks
    omega
  · intro none
    rcases marked_or l with other | ⟨rest, rfl⟩
    · exact strip_bom_other other
    · rw [leading_marks_mark] at none
      omega

theorem convert_lines_head (l : List Char) :
    (convertLines l).head? = some bom ↔ l.head? = some bom := by
  rcases marked_or l with other | ⟨rest, rfl⟩
  · constructor
    · intro head
      exfalso
      cases l with
      | nil => simp [convertLines] at head
      | cons c rest =>
        by_cases cr : c = '\r'
        · subst cr
          by_cases lone : rest.head? = some '\n'
          · cases rest with
            | nil => cases lone
            | cons d rest =>
              cases lone
              rw [convertLines] at head
              cases head
          · rw [convert_lines_lone lone] at head
            cases head
        · rw [convert_lines_other cr] at head
          exact other head
    · intro head
      exact absurd head other
  · rw [convert_lines_other (by decide)]
    simp

theorem strip_bom_convert (l : List Char) :
    stripBom (convertLines l) = convertLines (stripBom l) := by
  rcases marked_or l with other | ⟨rest, rfl⟩
  · rw [strip_bom_other other, strip_bom_other (mt (convert_lines_head l).mp other)]
  · rw [convert_lines_other (by decide), strip_bom_mark, strip_bom_mark]

theorem leading_marks_convert (l : List Char) :
    leadingMarks (convertLines l) = leadingMarks l := by
  induction l with
  | nil => rfl
  | cons c rest ih =>
    rcases marked_or (c :: rest) with other | ⟨rest', same⟩
    · rw [leading_marks_other other, leading_marks_other (mt (convert_lines_head _).mp other)]
    · cases same
      rw [convert_lines_other (by decide), leading_marks_mark, leading_marks_mark, ih]

section
variable [Unicode]

/-- What `Normalised::of` makes of its argument. -/
def normalForm (input : String) : String :=
  normalise (newlinesToLf (String.ofList (stripBom input.toList)))

/-- Text that has been through the gate. -/
structure Normalised where
  text : String
  gated : ∃ input, text = normalForm input

namespace Normalised

theorem ext_text {a b : Normalised} (same : a.text = b.text) : a = b := by
  cases a
  cases b
  cases same
  rfl

instance : DecidableEq Normalised := fun a b =>
  decidable_of_iff (a.text = b.text) ⟨ext_text, congrArg text⟩

def of (input : String) : Normalised := ⟨normalForm input, input, rfl⟩

def new (input : Bytes) : Except NotText Normalised :=
  match fromUtf8 input with
  | none => .error ⟨validUpTo input⟩
  | some s => .ok (of s)

def already (text : String) : Option Normalised :=
  if (of text).text = text then some (of text) else none

def len (n : Normalised) : Nat := (utf8 n.text).length

def tid [Blake3] (n : Normalised) : Tid := Digest.of (utf8 n.text)

def slice (n : Normalised) (start stop : Nat) : Option Normalised :=
  match getRange n.text start stop with
  | none => none
  | some text => already text

@[simp] theorem of_text (input : String) : (of input).text = normalForm input := rfl

/-- Bytes are refused or go the way of the text they spell. -/
theorem new_utf8 (input : String) : new (utf8 input) = .ok (of input) := by
  rw [new, (from_utf8_iff _ _).mpr rfl]

theorem already_iff (text : String) (n : Normalised) :
    already text = some n ↔ n.text = text ∧ normalForm text = text := by
  rw [already]
  constructor
  · intro found
    split at found
    · rename_i kept
      cases found
      exact ⟨kept, kept⟩
    · cases found
  · intro ⟨held, kept⟩
    rw [of_text, if_pos kept]
    exact congrArg some (ext_text (kept.trans held.symm))

/-- The slice over the whole text is what the check of the text answers. -/
theorem slice_whole (n : Normalised) : n.slice 0 n.len = already n.text := by
  rw [slice, len, get_range_whole]

/-- A slice is text that its own normalisation leaves alone. -/
theorem slice_normal {n piece : Normalised} {start stop : Nat}
    (cut : n.slice start stop = some piece) : of piece.text = piece := by
  rw [slice] at cut
  split at cut
  · cases cut
  · obtain ⟨held, kept⟩ := (already_iff _ _).mp cut
    apply ext_text
    rw [of_text, held, kept]

end Normalised

/-- What the gate relies on: NFC is idempotent, `is_nfc` tells its fixed points, it
gives canonical equivalents one form, and it neither makes, loses nor moves a mark or a
line break, nor composes across one. -/
structure Composing (equivalent : String → String → Prop) : Prop where
  is_nfc : ∀ s, Unicode.isNfc s = true ↔ Unicode.nfc s = s
  idempotent : ∀ s, Unicode.nfc (Unicode.nfc s) = Unicode.nfc s
  identifies : ∀ x y, equivalent x y → Unicode.nfc x = Unicode.nfc y
  apart : ∀ (a b : List Char) (c : Char), inert c →
    (Unicode.nfc (String.ofList (a ++ c :: b))).toList =
      (Unicode.nfc (String.ofList a)).toList ++ c :: (Unicode.nfc (String.ofList b)).toList
  keeps : ∀ (s : String) (c : Char), inert c → c ∈ (Unicode.nfc s).toList → c ∈ s.toList
  empty : ∀ s : String, (Unicode.nfc s).toList = [] → s.toList = []

/-- Normal form on lists of characters. -/
def formed (l : List Char) : List Char := (Unicode.nfc (String.ofList l)).toList

namespace Composing
variable {equivalent : String → String → Prop}

theorem normalise_formed (unicode : Composing equivalent) (s : String) :
    (normalise s).toList = formed s.toList := by
  rw [normalise, formed, String.ofList_toList]
  split
  · rename_i fixed
    rw [(unicode.is_nfc s).mp fixed]
  · rfl

theorem formed_formed (unicode : Composing equivalent) (l : List Char) :
    formed (formed l) = formed l := by
  simp only [formed, String.ofList_toList, unicode.idempotent]

theorem formed_apart (unicode : Composing equivalent) (a b : List Char) {c : Char}
    (still : inert c) : formed (a ++ c :: b) = formed a ++ c :: formed b :=
  unicode.apart a b c still

theorem formed_keeps (unicode : Composing equivalent) {l : List Char} {c : Char}
    (still : inert c) (held : c ∈ formed l) : c ∈ l := by
  have kept := unicode.keeps (String.ofList l) c still held
  rwa [String.toList_ofList] at kept

theorem formed_nil (unicode : Composing equivalent) : formed [] = [] := by
  have ascii := Unicode.ascii_nfc (String.ofList []) (by simp)
  rw [formed, (unicode.is_nfc _).mp ascii, String.toList_ofList]

theorem formed_cons (unicode : Composing equivalent) (b : List Char) {c : Char}
    (still : inert c) : formed (c :: b) = c :: formed b := by
  have parted := unicode.formed_apart [] b still
  rwa [unicode.formed_nil, List.nil_append, List.nil_append] at parted

theorem empty_formed (unicode : Composing equivalent) {l : List Char} (none : formed l = []) :
    l = [] := by
  have empty := unicode.empty (String.ofList l) none
  rwa [String.toList_ofList] at empty

/-- A normal form begins with a mark or a line break exactly when the text does. -/
theorem formed_head (unicode : Composing equivalent) (l : List Char) {c : Char}
    (still : inert c) : (formed l).head? = some c ↔ l.head? = some c := by
  constructor
  · intro head
    have held : c ∈ l := unicode.formed_keeps still (List.mem_of_mem_head? head)
    obtain ⟨before, after, rfl, fresh⟩ := List.eq_append_cons_of_mem held
    rw [unicode.formed_apart before after still] at head
    have clear : formed before = [] := by
      cases front : formed before with
      | nil => rfl
      | cons d rest =>
        rw [front] at head
        cases head
        exact absurd (unicode.formed_keeps still (by rw [front]; simp)) fresh
    rw [unicode.empty_formed clear]
    rfl
  · intro head
    cases l with
    | nil => cases head
    | cons d rest =>
      cases head
      rw [unicode.formed_cons rest still]
      rfl

/-- Composition and the conversion of line ends do not meet. The induction goes from one
carriage return to the next. -/
theorem convert_formed (unicode : Composing equivalent) (l : List Char) :
    convertLines (formed l) = formed (convertLines l) := by
  induction size : l.length using Nat.strong_induction_on generalizing l with
  | _ n ih =>
    by_cases held : '\r' ∈ l
    · obtain ⟨before, after, rfl, fresh⟩ := List.eq_append_cons_of_mem held
      have fresh' : '\r' ∉ formed before :=
        fun inside => fresh (unicode.formed_keeps (by simp [inert]) inside)
      rw [unicode.formed_apart before after (by simp [inert]), convert_lines_append fresh',
        convert_lines_append fresh]
      by_cases paired : after.head? = some '\n'
      · cases after with
        | nil => cases paired
        | cons c rest =>
          cases paired
          have smaller : rest.length < n := by
            simp only [List.length_append, List.length_cons] at size
            omega
          rw [unicode.formed_cons rest (by simp [inert]), convertLines, convertLines,
            unicode.formed_apart before _ (by simp [inert]), ih _ smaller rest rfl]
      · have still : inert '\n' := by simp [inert]
        have paired' := mt (unicode.formed_head after still).mp paired
        have smaller : after.length < n := by
          simp only [List.length_append, List.length_cons] at size
          omega
        rw [convert_lines_lone paired, convert_lines_lone paired',
          unicode.formed_apart before _ (by simp [inert]), ih _ smaller after rfl]
    · rw [convert_lines_fixed held, convert_lines_fixed]
      exact fun inside => held (unicode.formed_keeps (by simp [inert]) inside)

theorem strip_formed (unicode : Composing equivalent) (l : List Char) :
    stripBom (formed l) = formed (stripBom l) := by
  rcases marked_or l with other | ⟨rest, rfl⟩
  · rw [strip_bom_other other,
      strip_bom_other (mt (unicode.formed_head l (by simp [inert])).mp other)]
  · rw [unicode.formed_cons rest (by simp [inert]), strip_bom_mark, strip_bom_mark]

theorem marks_formed (unicode : Composing equivalent) (l : List Char) :
    leadingMarks (formed l) = leadingMarks l := by
  induction l with
  | nil => rw [unicode.formed_nil]
  | cons c rest ih =>
    rcases marked_or (c :: rest) with other | ⟨rest', same⟩
    · rw [leading_marks_other other, leading_marks_other
        (mt (unicode.formed_head _ (by simp [inert])).mp other)]
    · cases same
      rw [unicode.formed_cons rest (by simp [inert]), leading_marks_mark, leading_marks_mark, ih]

/-- What the gate makes of a text, in any order of its steps. -/
theorem normal_form_list (unicode : Composing equivalent) (s : String) :
    (normalForm s).toList = stripBom (convertLines (formed s.toList)) := by
  rw [normalForm, unicode.normalise_formed, newlines_to_lf_list, String.toList_ofList,
    ← unicode.convert_formed, ← unicode.strip_formed, strip_bom_convert]

theorem normal_form_marks (unicode : Composing equivalent) (s : String) :
    leadingMarks (normalForm s).toList = leadingMarks s.toList - 1 := by
  rw [unicode.normal_form_list, leading_marks_strip, leading_marks_convert, unicode.marks_formed]

/-- The gate is done with its answer exactly when no mark is left in front. -/
theorem normal_form_fixed (unicode : Composing equivalent) (s : String) :
    normalForm (normalForm s) = normalForm s ↔ leadingMarks s.toList < 2 := by
  have marks := unicode.normal_form_marks s
  have again := unicode.normal_form_marks (normalForm s)
  constructor
  · intro fixed
    rw [fixed] at again
    omega
  · intro few
    have bare : leadingMarks (normalForm s).toList = 0 := by omega
    have composed : formed (normalForm s).toList = (normalForm s).toList := by
      rw [unicode.normal_form_list, unicode.convert_formed, unicode.strip_formed,
        unicode.formed_formed]
    have free : '\r' ∉ (normalForm s).toList := by
      rw [unicode.normal_form_list, strip_bom_convert]
      exact convert_lines_no_cr _
    rw [← String.toList_inj, unicode.normal_form_list, composed, convert_lines_fixed free,
      strip_bom_fixed.mpr bare]

/-- Variants of a text are one text without the line ends and in normal form. -/
theorem variant_same (unicode : Composing equivalent) {x y : String}
    (same : Relation.EqvGen (Variant equivalent) x y) :
    convertLines (formed x.toList) = convertLines (formed y.toList) := by
  induction same with
  | rel x y step =>
    cases step with
    | lines same => rw [unicode.convert_formed, unicode.convert_formed, same_lines_convert same]
    | canonical same =>
      simp only [formed, String.ofList_toList, unicode.identifies x y same]
  | refl => rfl
  | symm _ _ _ ih => exact ih.symm
  | trans _ _ _ _ _ first second => exact first.trans second

/-- A mark in front stays in front up to the stripping. -/
theorem convert_formed_mark (unicode : Composing equivalent) (l : List Char) :
    convertLines (formed (bom :: l)) = bom :: convertLines (formed l) := by
  rw [unicode.formed_cons l (by simp [inert]), convert_lines_other (by decide)]

theorem leading_marks_canonical (unicode : Composing equivalent) (l : List Char) :
    leadingMarks (convertLines (formed l)) = leadingMarks l := by
  rw [leading_marks_convert, unicode.marks_formed]

/-- One mark more is told apart exactly when a mark is left to strip. -/
theorem marked_same (unicode : Composing equivalent) {x y : String}
    (same : convertLines (formed x.toList) = convertLines (formed y.toList)) :
    normalForm (String.ofList (bom :: x.toList)) = normalForm y ↔ leadingMarks x.toList = 0 := by
  rw [← String.toList_inj, unicode.normal_form_list, unicode.normal_form_list,
    String.toList_ofList, unicode.convert_formed_mark, strip_bom_mark, same,
    ← unicode.leading_marks_canonical x.toList, same, ← strip_bom_fixed]
  exact eq_comm

/-- Texts that differ as little as they should have one normal form exactly when they
begin with as many marks or with one at most. -/
theorem differs_same (unicode : Composing equivalent) {x y : String}
    (differ : Differs equivalent x y) :
    normalForm x = normalForm y ↔
      leadingMarks x.toList = leadingMarks y.toList ∨
        leadingMarks x.toList < 2 ∧ leadingMarks y.toList < 2 := by
  obtain ⟨x', y', left, right, variant⟩ := differ
  have same := unicode.variant_same variant
  have marks : leadingMarks x'.toList = leadingMarks y'.toList := by
    rw [← unicode.leading_marks_canonical, same, unicode.leading_marks_canonical]
  cases left with
  | without =>
    cases right with
    | without =>
      rw [← String.toList_inj, unicode.normal_form_list, unicode.normal_form_list, same]
      simp [marks]
    | withMark =>
      rw [eq_comm, unicode.marked_same same.symm, String.toList_ofList, leading_marks_mark, marks]
      omega
  | withMark =>
    cases right with
    | without =>
      rw [unicode.marked_same same, String.toList_ofList, leading_marks_mark, marks]
      omega
    | withMark =>
      rw [← String.toList_inj, unicode.normal_form_list, unicode.normal_form_list,
        String.toList_ofList, String.toList_ofList, unicode.convert_formed_mark,
        unicode.convert_formed_mark, same, leading_marks_mark, leading_marks_mark, marks]
      simp

end Composing

namespace Normalised
variable {equivalent : String → String → Prop}

/-- The gate leaves its answer alone, recognises it, and cuts it whole. -/
def Settled (x : String) : Prop :=
  of (of x).text = of x ∧ already (of x).text = some (of x) ∧
    (of x).slice 0 (of x).len = some (of x)

theorem settled_iff (x : String) : Settled x ↔ normalForm (normalForm x) = normalForm x := by
  rw [Settled, slice_whole, already_iff]
  constructor
  · intro settled
    exact settled.2.1.2
  · intro fixed
    exact ⟨ext_text fixed, ⟨rfl, fixed⟩, ⟨rfl, fixed⟩⟩

/-- Normalisation is idempotent and canonical exactly up to a second leading mark. -/
theorem canonical_iff_marks [Blake3] (unicode : Composing equivalent) :
    (∀ x, Settled x ↔ leadingMarks x.toList < 2) ∧
      ∀ x y, Differs equivalent x y →
        ((of x = of y ∧ (of x).tid = (of y).tid) ↔
          leadingMarks x.toList = leadingMarks y.toList ∨
            leadingMarks x.toList < 2 ∧ leadingMarks y.toList < 2) := by
  constructor
  · intro x
    rw [settled_iff, unicode.normal_form_fixed]
  · intro x y differ
    rw [← unicode.differs_same differ]
    constructor
    · intro same
      exact congrArg text same.1
    · intro same
      have one : of x = of y := ext_text same
      exact ⟨one, congrArg tid one⟩

end Normalised

end

section
local instance plainNormText : Unicode := .plain
local instance modPrimeNormHash : Blake3 := .modPrime

/-- Text that is its own normal form, with nothing equivalent but the text itself. -/
theorem plain_composing : Composing (fun x y : String => x = y) where
  is_nfc _ := ⟨fun _ => rfl, fun _ => rfl⟩
  idempotent _ := rfl
  identifies _ _ same := same
  apart a b c _ := by simp only [Unicode.nfc, String.toList_ofList]
  keeps _ _ _ held := held
  empty _ none := none

namespace Normalised

theorem canonical_iff_marks_line :
    Settled "a\r\n" ∧ ((of "a\r\n" = of "a\n" ∧ (of "a\r\n").tid = (of "a\n").tid) ↔
      leadingMarks "a\r\n".toList = leadingMarks "a\n".toList ∨
        leadingMarks "a\r\n".toList < 2 ∧ leadingMarks "a\n".toList < 2) := by
  obtain ⟨settled, same⟩ := canonical_iff_marks plain_composing
  refine ⟨(settled "a\r\n").mpr (by decide), same "a\r\n" "a\n" ?_⟩
  refine ⟨_, _, Marked.without _, Marked.without _, Relation.EqvGen.rel _ _ (Variant.lines ?_)⟩
  exact SameLines.char 'a' (by decide) (SameLines.line (Ends.crlf []) (Ends.lf []) SameLines.nil)

/-- The second of two marks is left in front, where the next pass takes it for a mark. -/
theorem second_mark_is_left :
    (of "\uFEFF\uFEFFa").text = "\uFEFFa" ∧ (of "\uFEFFa").text = "a" ∧
      already (of "\uFEFF\uFEFFa").text = none ∧ ¬ ∀ x, Settled x := by
  have once : (of "\uFEFF\uFEFFa").text = "\uFEFFa" := by decide
  have twice : (of "\uFEFFa").text = "a" := by decide
  refine ⟨once, twice, ?_, ?_⟩
  · rw [once, already, twice]
    decide
  · intro all
    have same := congrArg text (all "\uFEFF\uFEFFa").1
    rw [once, twice] at same
    exact absurd same (by decide)

end Normalised

end

end Smysl
