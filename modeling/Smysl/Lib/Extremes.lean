import Mathlib.Data.List.Destutter
import Mathlib.Data.Prod.Lex

/-!
Picking one element of a list: the one kept by comparing each with the best so far, the
first of each run of equals, and the one that beats every other of a set that is linked
pairwise.
-/
namespace Extremes
section
variable {α : Type} {beats before : α → α → Prop} {best : α → α → α}

/-- The best so far, after one element more. -/
def keepBest (best : α → α → α) : Option α → α → Option α
  | none, x => some x
  | some b, x => some (best b x)

/-- What a comparison of two keeps of a whole list beats every element of it, where each
comparison is between an element and a later one. -/
theorem fold_best (refl : ∀ a, beats a a) (trans : ∀ a b c, beats a b → beats b c → beats a c)
    (picks : ∀ b x, best b x = b ∨ best b x = x)
    (kept : ∀ b x, before b x → beats (best b x) b ∧ beats (best b x) x) (xs : List α) (b : α)
    (ordered : (b :: xs).Pairwise before) :
    xs.foldl best b ∈ b :: xs ∧ ∀ x ∈ b :: xs, beats (xs.foldl best b) x := by
  induction xs generalizing b with
  | nil =>
    constructor
    · exact List.mem_cons_self
    · intro x mem
      rw [List.mem_singleton.mp mem]
      exact refl b
  | cons y ys ih =>
    obtain ⟨first, rest⟩ := List.pairwise_cons.mp ordered
    obtain ⟨second, rest⟩ := List.pairwise_cons.mp rest
    have over_both := kept b y (first y List.mem_cons_self)
    have ordered' : (best b y :: ys).Pairwise before := by
      apply List.Pairwise.cons _ rest
      intro z mem
      rcases picks b y with same | same
      · rw [same]
        exact first z (List.mem_cons_of_mem y mem)
      · rw [same]
        exact second z mem
    obtain ⟨mem, all⟩ := ih (best b y) ordered'
    have top := all (best b y) List.mem_cons_self
    constructor
    · rw [List.foldl_cons]
      rcases List.mem_cons.mp mem with here | later
      · rw [here]
        rcases picks b y with same | same
        · rw [same]
          exact List.mem_cons_self
        · rw [same]
          exact List.mem_cons_of_mem b List.mem_cons_self
      · exact List.mem_cons_of_mem b (List.mem_cons_of_mem y later)
    · intro x mem'
      rw [List.foldl_cons]
      rcases List.mem_cons.mp mem' with here | later
      · rw [here]
        exact trans _ _ _ top over_both.1
      · rcases List.mem_cons.mp later with here | later
        · rw [here]
          exact trans _ _ _ top over_both.2
        · exact all x (List.mem_cons_of_mem _ later)

theorem fold_keep_best (best : α → α → α) (xs : List α) (b : α) :
    xs.foldl (keepBest best) (some b) = some (xs.foldl best b) := by
  induction xs generalizing b with
  | nil => rfl
  | cons x xs ih => exact ih (best b x)

end

section
variable {α K : Type} [LinearOrder α] [LinearOrder K] (key : α → K)

/-- Of two with one key the later one. -/
def laterOf (b x : α) : α := if key x < key b then b else x

/-- Of two with one key the earlier one. -/
def earlierOf (b x : α) : α := if key x ≤ key b then b else x

/-- `Iterator::max_by_key`: of those with the greatest key, the last. -/
def lastMax (xs : List α) : Option α := xs.foldl (keepBest (laterOf key)) none

/-- Of those with the greatest key, the first. -/
def firstMax (xs : List α) : Option α := xs.foldl (keepBest (earlierOf key)) none

omit [LinearOrder α] in
theorem last_max_none (xs : List α) : lastMax key xs = none ↔ xs = [] := by
  cases xs with
  | nil => exact iff_of_true rfl rfl
  | cons x xs =>
    rw [lastMax, List.foldl_cons, keepBest, fold_keep_best]
    exact iff_of_false (fun none => nomatch none) (fun none => nomatch none)

omit [LinearOrder α] in
theorem first_max_none (xs : List α) : firstMax key xs = none ↔ xs = [] := by
  cases xs with
  | nil => exact iff_of_true rfl rfl
  | cons x xs =>
    rw [firstMax, List.foldl_cons, keepBest, fold_keep_best]
    exact iff_of_false (fun none => nomatch none) (fun none => nomatch none)

/-- In a list in order the last of the greatest key is the greatest with it. -/
theorem last_max_greatest {xs : List α} (ordered : xs.Pairwise (· < ·)) {m : α}
    (found : lastMax key xs = some m) :
    m ∈ xs ∧ ∀ x ∈ xs, key x < key m ∨ key x = key m ∧ x ≤ m := by
  cases xs with
  | nil => cases found
  | cons b xs =>
    rw [lastMax, List.foldl_cons, keepBest, fold_keep_best] at found
    cases found
    obtain ⟨mem, all⟩ := @fold_best α (fun a x => toLex (key x, x) ≤ toLex (key a, a)) (· < ·)
      (laterOf key) (fun _ => le_refl _) (fun _ _ _ first second => second.trans first)
      (by
        intro b x
        rw [laterOf]
        by_cases less : key x < key b
        · exact Or.inl (if_pos less)
        · exact Or.inr (if_neg less))
      (by
        intro b x later
        rw [laterOf]
        by_cases less : key x < key b
        · rw [if_pos less]
          exact ⟨le_refl _, Prod.Lex.toLex_le_toLex.mpr (Or.inl less)⟩
        · rw [if_neg less]
          refine ⟨?_, le_refl _⟩
          rcases lt_or_eq_of_le (not_lt.mp less) with less | same
          · exact Prod.Lex.toLex_le_toLex.mpr (Or.inl less)
          · exact Prod.Lex.toLex_le_toLex.mpr (Or.inr ⟨same, later.le⟩))
      xs b ordered
    exact ⟨mem, fun x mem => Prod.Lex.toLex_le_toLex.mp (all x mem)⟩

/-- And the first of the greatest key is the least with it. -/
theorem first_max_least {xs : List α} (ordered : xs.Pairwise (· < ·)) {m : α}
    (found : firstMax key xs = some m) :
    m ∈ xs ∧ ∀ x ∈ xs, key x < key m ∨ key x = key m ∧ m ≤ x := by
  cases xs with
  | nil => cases found
  | cons b xs =>
    rw [firstMax, List.foldl_cons, keepBest, fold_keep_best] at found
    cases found
    obtain ⟨mem, all⟩ := @fold_best α
      (fun a x => toLex (key x, OrderDual.toDual x) ≤ toLex (key a, OrderDual.toDual a)) (· < ·)
      (earlierOf key) (fun _ => le_refl _) (fun _ _ _ first second => second.trans first)
      (by
        intro b x
        rw [earlierOf]
        by_cases less : key x ≤ key b
        · exact Or.inl (if_pos less)
        · exact Or.inr (if_neg less))
      (by
        intro b x later
        rw [earlierOf]
        by_cases less : key x ≤ key b
        · rw [if_pos less]
          refine ⟨le_refl _, ?_⟩
          rcases lt_or_eq_of_le less with less | same
          · exact Prod.Lex.toLex_le_toLex.mpr (Or.inl less)
          · have below := OrderDual.toDual_le_toDual.mpr later.le
            exact Prod.Lex.toLex_le_toLex.mpr (Or.inr ⟨same, below⟩)
        · rw [if_neg less]
          exact ⟨Prod.Lex.toLex_le_toLex.mpr (Or.inl (not_le.mp less)), le_refl _⟩)
      xs b ordered
    refine ⟨mem, ?_⟩
    intro x mem
    rcases Prod.Lex.toLex_le_toLex.mp (all x mem) with less | same
    · exact Or.inl less
    · exact Or.inr ⟨same.1, OrderDual.toDual_le_toDual.mp same.2⟩

end

section
variable {α β : Type} [DecidableEq β] (f : α → β)

theorem destutter'_keeps (a : α) (xs : List α) {x : α} (mem : x ∈ a :: xs) :
    ∃ y ∈ List.destutter' (fun a b => f a ≠ f b) a xs, f y = f x := by
  induction xs generalizing a x with
  | nil =>
    rw [List.mem_singleton.mp mem]
    exact ⟨a, List.mem_singleton_self a, rfl⟩
  | cons b xs ih =>
    rw [List.destutter']
    by_cases differ : f a ≠ f b
    · rw [if_pos differ]
      rcases List.mem_cons.mp mem with here | later
      · rw [here]
        exact ⟨a, List.mem_cons_self, rfl⟩
      · obtain ⟨y, kept, same⟩ := ih b later
        exact ⟨y, List.mem_cons_of_mem a kept, same⟩
    · rw [if_neg differ]
      rcases List.mem_cons.mp mem with here | later
      · rw [here]
        exact ih a List.mem_cons_self
      · rcases List.mem_cons.mp later with here | later
        · obtain ⟨y, kept, same⟩ := ih a List.mem_cons_self
          rw [here]
          exact ⟨y, kept, same.trans (not_not.mp differ)⟩
        · exact ih a (List.mem_cons_of_mem a later)

/-- Dropping the repeats of each run leaves an element with every value there was. -/
theorem destutter_keeps {xs : List α} {x : α} (mem : x ∈ xs) :
    ∃ y ∈ xs.destutter (fun a b => f a ≠ f b), f y = f x := by
  cases xs with
  | nil => cases mem
  | cons a xs =>
    rw [List.destutter_cons']
    exact destutter'_keeps f a xs mem

end

section
variable {α : Type} {members : α → Prop} {linked : α → α → Prop}

/-- Where every two are linked in one direction or the other, one that no other links to is
the only one that links to all the others and that none links to. -/
theorem unique_top (total : ∀ a b, members a → members b → a ≠ b → linked a b ∨ linked b a)
    {m : α} (member : members m) (unlinked : ∀ x, members x → x ≠ m → ¬ linked x m) :
    ∃! top, members top ∧ ∀ x, members x → x ≠ top → linked top x ∧ ¬ linked x top := by
  refine ⟨m, ⟨member, ?_⟩, ?_⟩
  · intro x mem other
    have none := unlinked x mem other
    rcases total m x member mem (Ne.symm other) with out | back
    · exact ⟨out, none⟩
    · exact absurd back none
  · intro top both
    by_contra other
    exact unlinked top both.1 other (both.2 m member (Ne.symm other)).1

end
end Extremes
