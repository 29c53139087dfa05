import Smysl.Text.Versification

/-!
When a versification map and its reverse undo each other. The reverse refuses two rows that
point at one locator; a carried locator can still land on a stated one.
-/
namespace Smysl
namespace Scheme

/-- The rows of one are those of the other the other way. -/
def Opposite (s r : Scheme) : Prop := ∀ k v, r.rows.get v = some k ↔ s.rows.get k = some v

theorem Opposite.symm {s r : Scheme} (opposite : s.Opposite r) : r.Opposite s :=
  fun k v => (opposite v k).symm

theorem reverse_rows_get {es : List (String × String)} {rows out : BTreeMap String String}
    (done : reverseRows es rows = some out) (k v : String) :
    out.get v = some k ↔ (k, v) ∈ es ∨ rows.get v = some k := by
  induction es generalizing rows with
  | nil =>
    cases done
    exact (or_iff_right List.not_mem_nil).symm
  | cons e es ih =>
    obtain ⟨a, b⟩ := e
    rw [reverseRows] at done
    by_cases twice : rows.contains b = true
    · rw [if_pos twice] at done
      cases done
    · rw [if_neg twice] at done
      have fresh : rows.get b = none := by
        rw [BTreeMap.contains, Bool.not_eq_true, Option.isSome_eq_false_iff,
          Option.isNone_iff_eq_none] at twice
        exact twice
      rw [ih done, BTreeMap.get_insert, List.mem_cons, Prod.mk.injEq]
      by_cases here : v = b
      · rw [if_pos here, here, fresh, Option.some.injEq]
        constructor
        · intro either
          rcases either with later | same
          · exact Or.inl (Or.inr later)
          · exact Or.inl (Or.inl ⟨same.symm, rfl⟩)
        · intro either
          rcases either with (same | later) | none
          · exact Or.inr same.1.symm
          · exact Or.inl later
          · cases none
      · rw [if_neg here]
        constructor
        · intro either
          rcases either with later | held
          · exact Or.inl (Or.inr later)
          · exact Or.inr held
        · intro either
          rcases either with (same | later) | held
          · exact absurd same.2 here
          · exact Or.inl later
          · exact Or.inr held

theorem reversed_opposite {s r : Scheme} (reversed : s.reversed = some r) : s.Opposite r := by
  obtain ⟨rows, done, made⟩ := Option.map_eq_some_iff.mp reversed
  intro k v
  rw [← made]
  change rows.get v = some k ↔ _
  rw [reverse_rows_get done, BTreeMap.mem_entries_iff]
  constructor
  · intro either
    rcases either with held | none
    · exact held
    · cases none
  · exact Or.inl

/-- A component under a stated locator that is stated where the row leads is stated. -/
def Landed (s : Scheme) : Prop :=
  ∀ head row, s.rows.get head = some row → ∀ last, '.' ∉ last.toList →
    (∃ k, s.rows.get k = some (under row last)) → s.rows.contains (under head last) = true

/-- What is mapped there is mapped back. -/
def Back (s r : Scheme) : Prop := ∀ l m, s.map l = some m → r.map m = some l

theorem back_iff {s r : Scheme} (opposite : s.Opposite r) : s.Back r ↔ s.Landed := by
  constructor
  · intro back head row held last plain landed
    obtain ⟨k, landed⟩ := landed
    by_contra unstated
    have none : s.rows.get (under head last) = none := by
      rw [BTreeMap.contains, Bool.not_eq_true, Option.isSome_eq_false_iff,
        Option.isNone_iff_eq_none] at unstated
      exact unstated
    have there := back _ _ (map_carry plain none held)
    have stated := map_exact ((opposite k (under row last)).mpr landed)
    rw [there, Option.some.injEq] at stated
    rw [stated] at none
    rw [none] at landed
    cases landed
  · intro lands l m mapped
    rcases map_cases mapped with exact_ | ⟨head, row, last, plain, from', to', none, held⟩
    · exact map_exact ((opposite l m).mpr exact_)
    · rw [from', to'] at *
      apply map_carry plain _ ((opposite head row).mpr held)
      cases stated : r.rows.get (under row last) with
      | none => rfl
      | some k =>
        have landed := lands head row held last plain ⟨k, (opposite k _).mp stated⟩
        rw [BTreeMap.contains, none] at landed
        cases landed

/-- Under a row's two ends the same components are stated. -/
def Matched (s : Scheme) : Prop :=
  ∀ head row, s.rows.get head = some row → ∀ last, '.' ∉ last.toList →
    (s.rows.contains (under head last) = true ↔ ∃ k, s.rows.get k = some (under row last))

theorem matched_iff {s r : Scheme} (opposite : s.Opposite r) :
    s.Matched ↔ s.Landed ∧ r.Landed := by
  have stated : ∀ l, s.rows.contains l = true ↔ ∃ m, r.rows.get m = some l := by
    intro l
    rw [BTreeMap.contains_iff]
    apply exists_congr
    intro m
    exact (opposite l m).symm
  constructor
  · intro matched
    constructor
    · intro head row held last plain landed
      exact (matched head row held last plain).mpr landed
    · intro row head held last plain landed
      have both := (matched head row ((opposite head row).mp held) last plain).mp
        ((stated _).mpr landed)
      obtain ⟨k, both⟩ := both
      rw [BTreeMap.contains_iff]
      exact ⟨k, (opposite k _).mpr both⟩
  · intro both head row held last plain
    constructor
    · intro here
      have landed := both.2 row head ((opposite head row).mpr held) last plain ((stated _).mp here)
      obtain ⟨k, landed⟩ := (BTreeMap.contains_iff _ _).mp landed
      exact ⟨k, (opposite k _).mp landed⟩
    · exact both.1 head row held last plain

/-! The align table. -/

section
variable {V : Type} (s : Scheme) (second : BTreeMap String V)

/-- A locator aligns with one other. -/
def Aligned (l m : String) : Prop := s.map l = some m ∧ second.contains m = true

theorem align_one_get (out : Rows) (locator l m : String) (fresh : out.rows.get locator = none) :
    (alignOne s second out locator).rows.get l = some m ↔
      (l = locator ∧ s.Aligned second l m) ∨ out.rows.get l = some m := by
  have skipped : ¬ (l = locator ∧ s.Aligned second l m) →
      (out.rows.get l = some m ↔ (l = locator ∧ s.Aligned second l m) ∨
        out.rows.get l = some m) := fun off => (or_iff_right off).symm
  rw [alignOne]
  cases mapped : s.map locator with
  | none =>
    apply skipped
    intro both
    rw [both.1, Aligned, mapped] at both
    cases both.2.1
  | some target =>
    dsimp only
    by_cases holds : second.contains target = true
    · rw [if_pos holds]
      dsimp only
      rw [BTreeMap.get_insert]
      by_cases here : l = locator
      · rw [if_pos here, here, fresh, Aligned, mapped, Option.some.injEq]
        constructor
        · intro same
          rw [← same]
          exact Or.inl ⟨rfl, rfl, holds⟩
        · intro either
          rcases either with both | none
          · exact both.2.1
          · cases none
      · rw [if_neg here]
        exact (or_iff_right fun both => here both.1).symm
    · rw [if_neg holds]
      apply skipped
      intro both
      rw [both.1, Aligned, mapped, Option.some.injEq] at both
      rw [both.2.1] at holds
      exact holds both.2.2

theorem align_all_get (keys : List String) (nodup : keys.Nodup) (out : Rows)
    (fresh : ∀ k ∈ keys, out.rows.get k = none) (l m : String) :
    (keys.foldl (alignOne s second) out).rows.get l = some m ↔
      (l ∈ keys ∧ s.Aligned second l m) ∨ out.rows.get l = some m := by
  induction keys generalizing out with
  | nil => exact (or_iff_right fun both => nomatch both.1).symm
  | cons key keys ih =>
    obtain ⟨apart, nodup⟩ := List.nodup_cons.mp nodup
    have now := align_one_get s second out key l m (fresh key List.mem_cons_self)
    rw [List.foldl_cons, ih nodup, now, ← or_assoc, List.mem_cons, or_and_right,
      or_comm (b := l ∈ keys ∧ _)]
    intro k mem
    cases held : (alignOne s second out key).rows.get k with
    | none => rfl
    | some there =>
      rcases (align_one_get s second out key k there (fresh key List.mem_cons_self)).mp held with
        both | held
      · rw [both.1] at mem
        exact absurd mem apart
      · rw [fresh k (List.mem_cons_of_mem key mem)] at held
        cases held

/-- The rows are what aligns of what the first holds. -/
theorem pair_get (name : String) (first : BTreeMap String V) (l m : String) :
    (pair name s first second).rows.get l = some m ↔
      first.contains l = true ∧ s.map l = some m ∧ second.contains m = true := by
  rw [pair, align_all_get s second first.keys (BTreeMap.keys_nodup first) ⟨name, ∅, 0⟩
    (fun _ _ => rfl), BTreeMap.mem_keys_iff]
  exact or_iff_left fun none => nomatch none

end

/-- One map serves both directions: it connects the two, and nothing connects them back. -/
theorem pick_reversed {schemes : BTreeMap String Scheme} {a b name : String} {s r : Scheme}
    (there : pick schemes a b = some (name, s)) (one : ∀ e ∈ schemes.entries,
      e.2.connects b a = false) (reversed : s.reversed = some r) :
    pick schemes b a = some (name, r) := by
  rw [pick] at there ⊢
  have none : schemes.entries.find? (fun e => e.2.connects b a) = none := by
    apply List.find?_eq_none.mpr
    intro e mem
    rw [one e mem]
    exact Bool.false_ne_true
  rw [none] at there ⊢
  cases first : schemes.entries.find? (fun e => e.2.connects a b) with
  | none =>
    rw [first] at there
    cases there
  | some e =>
    rw [first] at there
    cases there
    dsimp only
    rw [Option.bind_some, reversed]
    rfl

/-- A map and its reverse undo each other: what is mapped there is mapped back, no two
locators go to one place, and the rows that align two tables are the rows that align them
the other way, turned round. -/
structure Invert (s r : Scheme) : Prop where
  back : s.Back r
  apart : ∀ l l' m, s.map l = some m → s.map l' = some m → l = l'
  aligned : ∀ (name name' : String) (first second : BTreeMap String Nat) (l m : String),
    (pair name s first second).rows.get l = some m ↔
      (pair name' r second first).rows.get m = some l

/-- A map and its reverse undo each other exactly when the same components are stated under
the two ends of each row. -/
theorem maps_invert_iff {s r : Scheme} (reversed : s.reversed = some r) :
    s.Invert r ↔ s.Matched := by
  have opposite := reversed_opposite reversed
  rw [matched_iff opposite, ← back_iff opposite, ← back_iff opposite.symm]
  constructor
  · intro invert
    refine ⟨invert.back, ?_⟩
    intro m l mapped
    have held : ∀ x : String, ((∅ : BTreeMap String Nat).insert x 0).contains x = true := by
      intro x
      rw [BTreeMap.contains, BTreeMap.get_insert, if_pos rfl]
      rfl
    have row : (pair "" r ((∅ : BTreeMap String Nat).insert m 0)
        ((∅ : BTreeMap String Nat).insert l 0)).rows.get m = some l :=
      (pair_get _ _ _ _ _ _).mpr ⟨held m, mapped, held l⟩
    exact ((pair_get _ _ _ _ _ _).mp ((invert.aligned "" "" _ _ l m).mpr row)).2.1
  · intro both
    constructor
    · exact both.1
    · intro l l' m first second
      have same := both.1 l m first
      rw [both.1 l' m second, Option.some.injEq] at same
      exact same.symm
    · intro name name' first second l m
      rw [pair_get, pair_get]
      constructor
      · intro all
        exact ⟨all.2.2, both.1 l m all.2.1, all.1⟩
      · intro all
        exact ⟨all.2.2, both.2 m l all.2.1, all.1⟩

/-- A map whose first verse moves by one, with the rest of the chapter carried. -/
def shifted : String :=
  "smysl/versification/1\nfrom\tkjv\nto\tsynodal\nPs.14\tPs.13\nPs.14.1\tPs.13.2\n"

/-- The map it reads as. -/
def shiftedMap : Scheme :=
  ⟨"shifted", "kjv", "synodal", BTreeMap.ofList [("Ps.14", "Ps.13"), ("Ps.14.1", "Ps.13.2")]⟩

def shiftedBack : Scheme :=
  ⟨"shifted", "synodal", "kjv", BTreeMap.ofList [("Ps.13", "Ps.14"), ("Ps.13.2", "Ps.14.1")]⟩

theorem shifted_invert_iff : shiftedMap.Invert shiftedBack ↔ shiftedMap.Matched :=
  maps_invert_iff (by decide +kernel)

/-- The second verse is carried to where the first one is stated to go. -/
theorem shifted_verses_meet : ¬ ∀ (name text : String) (s r : Scheme), parse name text = .ok s →
    s.reversed = some r → s.Invert r := by
  intro all
  have read : parse "shifted" shifted = .ok shiftedMap := by decide +kernel
  have invert := all "shifted" shifted shiftedMap shiftedBack read (by decide +kernel)
  have meet := invert.apart "Ps.14.1" "Ps.14.2" "Ps.13.2" (by decide +kernel) (by decide +kernel)
  exact absurd meet (by decide +kernel)

end Scheme
end Smysl
