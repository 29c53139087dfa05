import Smysl.Core.Text
import Smysl.Lib.OrdMapRel

/-!
Versification schemes: a named map between two numberings, read from a file, asked in both
directions. A chapter row carries its verses, and an exact row always wins.
-/
namespace Smysl

/-- `str::rsplit_once`. -/
def rsplitOnce (c : Char) : List Char → Option (List Char × List Char)
  | [] => none
  | d :: s =>
    match rsplitOnce c s with
    | some (head, last) => some (d :: head, last)
    | none => if d = c then some ([], s) else none

/-- `str::split_once`. -/
def splitOnceAt (c : Char) : List Char → Option (List Char × List Char)
  | [] => none
  | d :: s => if d = c then some ([], s) else (splitOnceAt c s).map (fun e => (d :: e.1, e.2))

def trimStart (s : List Char) : List Char := s.dropWhile isWhitespace

def trimEnd (s : List Char) : List Char := s.rdropWhile isWhitespace

def trim (s : List Char) : List Char := trimEnd (trimStart s)

/-- `str::lines`: the pieces between line feeds, none after the last of them, and each
without a carriage return at its end. -/
def lines (s : List Char) : List (List Char) :=
  let pieces := s.splitOn '\n'
  let pieces := if pieces.getLast? = some [] then pieces.dropLast else pieces
  pieces.map (fun p => if p.getLast? = some '\r' then p.dropLast else p)

/-- A map between two numberings, in one direction. -/
structure Scheme where
  name : String
  source : String
  target : String
  rows : BTreeMap String String
  deriving DecidableEq

/-- Why a map could not be read. -/
inductive SchemeError
  | notAMap
  | endpoints
  | row (line : Nat)
  | duplicate (line : Nat)
  deriving DecidableEq, Repr

namespace Scheme

/-- The format marker a map's first line carries. -/
def marker : String := "smysl/versification/1"

/-- What the lines so far have said. -/
structure Lines where
  source : Option String := none
  target : Option String := none
  rows : BTreeMap String String := ∅

/-- One line of a map, by its number. -/
def readLine (read : Lines) (n : Nat) (line : List Char) : Except SchemeError Lines :=
  let line := trimEnd line
  if (trim line).isEmpty || (trimStart line).head? == some '#' then .ok read
  else
    match splitOnceAt '\t' line with
    | none => .error (.row n)
    | some (a, b) =>
      let (a, b) := (trim a, trim b)
      if a.isEmpty || b.isEmpty then .error (.row n)
      else if a = "from".toList then .ok { read with source := String.ofList b }
      else if a = "to".toList then .ok { read with target := String.ofList b }
      else if read.rows.contains (String.ofList a) then .error (.duplicate n)
      else .ok { read with rows := read.rows.insert (String.ofList a) (String.ofList b) }

def readLines : Lines → Nat → List (List Char) → Except SchemeError Lines
  | read, _, [] => .ok read
  | read, n, line :: rest =>
    match readLine read n line with
    | .error e => .error e
    | .ok read => readLines read (n + 1) rest

/-- Parse a map. -/
def parse (name text : String) : Except SchemeError Scheme :=
  match lines text.toList with
  | [] => .error .notAMap
  | first :: rest =>
    if trim first ≠ marker.toList then .error .notAMap
    else
      match readLines {} 2 rest with
      | .error e => .error e
      | .ok read =>
        match read.source, read.target with
        | some source, some target =>
          if source = target then .error .endpoints
          else .ok ⟨name, source, target, read.rows⟩
        | _, _ => .error .endpoints

/-- Whether this map goes from `a`'s numbering to `b`'s. -/
def connects (s : Scheme) (a b : String) : Bool := s.source == a && s.target == b

/-- A component under a locator. -/
def under (head last : String) : String := head ++ "." ++ last

/-- The locator a locator becomes: an exact row first, then the chapter carry. -/
def map (s : Scheme) (locator : String) : Option String :=
  match s.rows.get locator with
  | some exact_ => some exact_
  | none =>
    match rsplitOnce '.' locator.toList with
    | none => none
    | some (head, last) =>
      (s.rows.get (String.ofList head)).map (fun mapped => under mapped (String.ofList last))

/-- The rows the other way, unless two of them point at the same locator. -/
def reverseRows : List (String × String) → BTreeMap String String → Option (BTreeMap String String)
  | [], rows => some rows
  | (a, b) :: rest, rows =>
    if rows.contains b then none else reverseRows rest (rows.insert b a)

/-- The reverse map. -/
def reversed (s : Scheme) : Option Scheme :=
  (reverseRows s.rows.entries ∅).map (fun rows => ⟨s.name, s.target, s.source, rows⟩)

/-- The map that connects two numberings, forward or reversed. -/
def pick (schemes : BTreeMap String Scheme) (source target : String) : Option (String × Scheme) :=
  match schemes.entries.find? (fun e => e.2.connects source target) with
  | some e => some e
  | none =>
    (schemes.entries.find? (fun e => e.2.connects target source)).bind (fun e =>
      e.2.reversed.map (fun r => (e.1, r)))

end Scheme

/-- What the align table holds for one ordered pair of manifests. -/
structure Rows where
  scheme : String
  rows : BTreeMap String String
  uncovered : Nat

/-- One locator of the first: a row when the map covers it and the second holds where it
leads, and otherwise one that is not aligned. -/
def alignOne {V : Type} (map : Scheme) (second : BTreeMap String V) (out : Rows)
    (locator : String) : Rows :=
  match map.map locator with
  | some target =>
    if second.contains target then { out with rows := out.rows.insert locator target }
    else { out with uncovered := min (out.uncovered + 1) (2 ^ 32 - 1) }
  | none => { out with uncovered := min (out.uncovered + 1) (2 ^ 32 - 1) }

/-- One pair's rows. -/
def pair {V : Type} (name : String) (map : Scheme) (first second : BTreeMap String V) : Rows :=
  first.keys.foldl (alignOne map second) ⟨name, ∅, 0⟩

/-! Locators and their last component. -/

theorem rsplit_once_none {c : Char} {s : List Char} : rsplitOnce c s = none ↔ c ∉ s := by
  induction s with
  | nil => exact iff_of_true rfl List.not_mem_nil
  | cons d s ih =>
    rw [rsplitOnce, List.mem_cons, not_or]
    cases rest : rsplitOnce c s with
    | none =>
      dsimp only
      by_cases same : d = c
      · rw [if_pos same]
        exact iff_of_false (fun none => nomatch none) fun both => both.1 same.symm
      · rw [if_neg same]
        exact iff_of_true rfl ⟨Ne.symm same, ih.mp rest⟩
    | some parts =>
      refine iff_of_false (fun none => nomatch none) fun both => ?_
      rw [ih.mpr both.2] at rest
      cases rest

theorem rsplit_once_iff {c : Char} {s head last : List Char} :
    rsplitOnce c s = some (head, last) ↔ s = head ++ c :: last ∧ c ∉ last := by
  induction s generalizing head with
  | nil =>
    refine iff_of_false (fun none => nomatch none) fun both => ?_
    exact absurd both.1.symm (by simp)
  | cons d s ih =>
    rw [rsplitOnce]
    cases rest : rsplitOnce c s with
    | none =>
      have free := rsplit_once_none.mp rest
      dsimp only
      constructor
      · intro found
        split_ifs at found with same
        cases found
        rw [same]
        exact ⟨rfl, free⟩
      · intro both
        obtain ⟨parts, _⟩ := both
        cases head with
        | nil =>
          obtain ⟨here, tail⟩ := List.cons.inj parts
          rw [if_pos here, tail]
        | cons e head =>
          obtain ⟨_, tail⟩ := List.cons.inj parts
          rw [tail] at free
          exact absurd (List.mem_append_right _ List.mem_cons_self) free
    | some parts =>
      obtain ⟨head', last'⟩ := parts
      dsimp only
      constructor
      · intro found
        cases found
        obtain ⟨joined, free⟩ := ih.mp rest
        rw [joined]
        exact ⟨rfl, free⟩
      · intro both
        obtain ⟨joined, free⟩ := both
        cases head with
        | nil =>
          obtain ⟨_, tail⟩ := List.cons.inj joined
          have none := rsplit_once_none.mpr free
          rw [← tail, rest] at none
          cases none
        | cons e head =>
          obtain ⟨here, tail⟩ := List.cons.inj joined
          have found := ih.mpr ⟨tail, free⟩
          rw [rest] at found
          cases found
          rw [here]

namespace Scheme

theorem under_chars (head last : String) :
    (under head last).toList = head.toList ++ '.' :: last.toList := by
  rw [under, String.toList_append, String.toList_append, List.append_assoc]
  rfl

theorem rsplit_under {head last : String} (plain : '.' ∉ last.toList) :
    rsplitOnce '.' (under head last).toList = some (head.toList, last.toList) :=
  rsplit_once_iff.mpr ⟨under_chars head last, plain⟩

/-- An exact row is what a locator becomes. -/
theorem map_exact {s : Scheme} {l m : String} (row : s.rows.get l = some m) : s.map l = some m := by
  rw [map, row]

/-- Where there is none, the row above carries it. -/
theorem map_carry {s : Scheme} {head mapped last : String} (plain : '.' ∉ last.toList)
    (none : s.rows.get (under head last) = none) (row : s.rows.get head = some mapped) :
    s.map (under head last) = some (under mapped last) := by
  rw [map, none]
  dsimp only
  rw [rsplit_under plain]
  dsimp only
  rw [String.ofList_toList, String.ofList_toList, row]
  rfl

theorem map_cases {s : Scheme} {l m : String} (mapped : s.map l = some m) :
    s.rows.get l = some m ∨ ∃ head row last, '.' ∉ last.toList ∧ l = under head last ∧
      m = under row last ∧ s.rows.get l = none ∧ s.rows.get head = some row := by
  rw [map] at mapped
  cases held : s.rows.get l with
  | some exact_ =>
    rw [held] at mapped
    exact Or.inl mapped
  | none =>
    rw [held] at mapped
    dsimp only at mapped
    cases parts : rsplitOnce '.' l.toList with
    | none =>
      rw [parts] at mapped
      cases mapped
    | some both =>
      obtain ⟨head, last⟩ := both
      rw [parts] at mapped
      dsimp only at mapped
      obtain ⟨row, found, made⟩ := Option.map_eq_some_iff.mp mapped
      obtain ⟨joined, plain⟩ := rsplit_once_iff.mp parts
      refine Or.inr ⟨String.ofList head, row, String.ofList last, ?_, ?_, made.symm, rfl, found⟩
      · rw [String.toList_ofList]
        exact plain
      · apply String.toList_injective
        rw [under_chars, String.toList_ofList, String.toList_ofList]
        exact joined

end Scheme
end Smysl
