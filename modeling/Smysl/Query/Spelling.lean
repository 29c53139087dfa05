import Smysl.Query.Pointer

/-!
A field is spelled one way at each revision. Where the steps join the revisions and no
pointer comes back, a pointer compiles to the spellings of its field, whichever of them
it is given as.
-/
namespace Smysl.Pointer

/-- What is under a pointer: nothing more, or what starts with a `/`. -/
def Tail (r : List Char) : Prop := r = [] ∨ r.head? = some '/'

theorem rest_iff (p top : String) (r : List Char) :
    rest p top = some r ↔ p.toList = top.toList ++ r ∧ Tail r := by
  rw [rest]
  by_cases same : p = top
  · rw [if_pos same, same]
    constructor
    · intro found
      cases found
      exact ⟨(List.append_nil _).symm, Or.inl rfl⟩
    · rintro ⟨whole, _⟩
      rw [List.self_eq_append_right.mp whole]
  · rw [if_neg same]
    by_cases starts : top.toList.isPrefixOf p.toList = true
    · obtain ⟨t, whole⟩ := List.isPrefixOf_iff_prefix.mp starts
      rw [if_pos starts, ← whole, List.drop_left]
      have some_ : t ≠ [] := by
        intro none_
        rw [none_, List.append_nil] at whole
        exact same (String.toList_inj.mp whole.symm)
      by_cases slash : t.head? = some '/'
      · rw [if_pos slash]
        constructor
        · intro found
          cases found
          exact ⟨rfl, Or.inr slash⟩
        · rintro ⟨eq, _⟩
          rw [List.append_cancel_left eq]
      · rw [if_neg slash]
        constructor
        · intro found
          cases found
        · rintro ⟨eq, tail⟩
          rw [← List.append_cancel_left eq] at tail
          exact absurd tail (not_or.mpr ⟨some_, slash⟩)
    · rw [if_neg starts]
      constructor
      · intro found
        cases found
      · rintro ⟨whole, _⟩
        exact absurd (List.isPrefixOf_iff_prefix.mpr ⟨r, whole.symm⟩) starts

theorem moved_iff (p src dst q : String) :
    moved p src dst = some q ↔
      ∃ r, p.toList = src.toList ++ r ∧ q.toList = dst.toList ++ r ∧ Tail r := by
  rw [moved, Option.map_eq_some_iff]
  constructor
  · rintro ⟨r, found, same⟩
    obtain ⟨whole, tail⟩ := (rest_iff p src r).mp found
    refine ⟨r, whole, ?_, tail⟩
    rw [← same, String.toList_append, String.toList_ofList]
  · rintro ⟨r, whole, named, tail⟩
    refine ⟨r, (rest_iff p src r).mpr ⟨whole, tail⟩, ?_⟩
    apply String.toList_inj.mp
    rw [String.toList_append, String.toList_ofList, named]

/-- A rename is undone by the rename the other way. -/
theorem moved_back {p src dst q : String} (here : moved p src dst = some q) :
    moved q dst src = some p := by
  obtain ⟨r, whole, named, tail⟩ := (moved_iff p src dst q).mp here
  exact (moved_iff q dst src p).mpr ⟨r, named, whole, tail⟩

theorem moved_under (p src dst : String) : (moved p src dst).isSome = under p src := by
  rw [moved, under, Option.isSome_map]

/-- An op that renames a key. -/
def Renames (op : HeldOp) (src dst : String) : Prop := op = .known (.renameKey src dst)

/-- A step that does nothing but rename. -/
def Renaming (s : HeldStep) : Prop := ∀ op ∈ s.ops, ∃ src dst, Renames op src dst

/-- A step renames `p` or what is above it. -/
def LeavesAt (p : String) (s : HeldStep) : Prop :=
  ∃ op ∈ s.ops, ∃ src dst, Renames op src dst ∧ under p src = true

/-- A step renames something to `p` or what is above it. -/
def ArrivesAt (p : String) (s : HeldStep) : Prop :=
  ∃ op ∈ s.ops, ∃ src dst, Renames op src dst ∧ under p dst = true

section Step
variable {s : HeldStep} {p q : String}

theorem moves_away_iff (only : Renaming s) : movesAway p s = true ↔ LeavesAt p s := by
  rw [movesAway, List.any_eq_true]
  constructor
  · rintro ⟨op, mem, away⟩
    obtain ⟨src, dst, named⟩ := only op mem
    rw [Renames] at named
    refine ⟨op, mem, src, dst, named, ?_⟩
    rw [named] at away
    rw [← moved_under p src ""]
    exact away
  · rintro ⟨op, mem, src, dst, named, above⟩
    refine ⟨op, mem, ?_⟩
    rw [named]
    exact (moved_under p src "").trans above

theorem touches_iff (only : Renaming s) :
    touches p s = true ↔ LeavesAt p s ∨ ArrivesAt p s := by
  rw [touches, List.any_eq_true]
  constructor
  · rintro ⟨op, mem, touched⟩
    obtain ⟨src, dst, named⟩ := only op mem
    rw [Renames] at named
    rw [named] at touched
    dsimp only at touched
    rw [moved_under, moved_under, Bool.or_eq_true] at touched
    rcases touched with leaves | arrives
    · exact Or.inl ⟨op, mem, src, dst, named, leaves⟩
    · exact Or.inr ⟨op, mem, src, dst, named, arrives⟩
  · rintro (⟨op, mem, src, dst, named, above⟩ | ⟨op, mem, src, dst, named, above⟩) <;>
      refine ⟨op, mem, ?_⟩ <;> rw [named] <;> dsimp only <;>
      rw [moved_under, moved_under, above]
    · exact Bool.true_or _
    · exact Bool.or_true _

end Step

/-- `p` after the ops, where they do nothing but rename. -/
def renamed (p : String) : List HeldOp → String
  | [] => p
  | .known (.renameKey src dst) :: ops => renamed ((moved p src dst).getD p) ops
  | _ :: ops => renamed p ops

/-- No rename leads onto the field, or above it, but one that moves the field itself. -/
def Clear (p : String) : List HeldOp → Prop
  | [] => True
  | .known (.renameKey src dst) :: ops =>
    (under p dst = true → under p src = true) ∧ Clear ((moved p src dst).getD p) ops
  | _ :: ops => Clear p ops

section Ops
variable {ops : List HeldOp} {p : String}

theorem forward_renamed (only : ∀ op ∈ ops, ∃ src dst, Renames op src dst) (p : String) :
    ops.foldlM forwardOp p = some (renamed p ops) := by
  induction ops generalizing p with
  | nil => rfl
  | cons op ops ih =>
    obtain ⟨src, dst, named⟩ := only op List.mem_cons_self
    rw [Renames] at named
    rw [List.foldlM_cons, named, renamed]
    exact ih (fun o mem => only o (List.mem_cons_of_mem op mem)) _

/-- Ops that rename nothing at or above a pointer leave it as it is. -/
theorem renamed_still (only : ∀ op ∈ ops, ∃ src dst, Renames op src dst)
    (still : ∀ op ∈ ops, ∀ src dst, Renames op src dst → under p src = false) :
    renamed p ops = p := by
  induction ops with
  | nil => rfl
  | cons op ops ih =>
    obtain ⟨src, dst, named⟩ := only op List.mem_cons_self
    have here := still op List.mem_cons_self src dst named
    rw [Renames] at named
    rw [← moved_under p src dst, Option.isSome_eq_false_iff, Option.isNone_iff_eq_none] at here
    rw [named, renamed, here]
    exact ih (fun o mem => only o (List.mem_cons_of_mem op mem))
      (fun o mem => still o (List.mem_cons_of_mem op mem))

/-- What ops end in is what they began with, where none leads to it or above it. -/
theorem renamed_unled (only : ∀ op ∈ ops, ∃ src dst, Renames op src dst)
    (unled : ∀ op ∈ ops, ∀ src dst, Renames op src dst → under (renamed p ops) dst = false) :
    renamed p ops = p := by
  induction ops generalizing p with
  | nil => rfl
  | cons op ops ih =>
    obtain ⟨src, dst, named⟩ := only op List.mem_cons_self
    have here := unled op List.mem_cons_self src dst named
    rw [Renames] at named
    rw [named, renamed] at here unled ⊢
    have later := ih (p := (moved p src dst).getD p)
      (fun o mem => only o (List.mem_cons_of_mem op mem))
      (fun o mem => unled o (List.mem_cons_of_mem _ mem))
    rw [later] at here ⊢
    cases found : moved p src dst with
    | none => rfl
    | some q =>
      rw [found, Option.getD_some, ← moved_under q dst src, moved_back found] at here
      cases here

/-- Renames are undone in reverse order, where none leads onto the field. -/
theorem backward_renamed (only : ∀ op ∈ ops, ∃ src dst, Renames op src dst)
    (clear : Clear p ops) : ops.reverse.foldl backwardOp (renamed p ops) = p := by
  rw [List.foldl_reverse]
  induction ops generalizing p with
  | nil => rfl
  | cons op ops ih =>
    obtain ⟨src, dst, named⟩ := only op List.mem_cons_self
    rw [Renames] at named
    rw [named] at clear ⊢
    obtain ⟨own, after⟩ := clear
    rw [List.foldr_cons, renamed, ih (fun o mem => only o (List.mem_cons_of_mem op mem)) after,
      backwardOp]
    cases found : moved p src dst with
    | some q =>
      rw [Option.getD_some, moved_back found]
      rfl
    | none =>
      rw [Option.getD_none]
      have apart : under p dst = false := by
        apply Bool.eq_false_of_not_eq_true
        intro led
        have leaves := own led
        rw [← moved_under p src dst, found] at leaves
        cases leaves
      rw [← moved_under p dst src, Option.isSome_eq_false_iff, Option.isNone_iff_eq_none] at apart
      rw [apart]
      rfl

end Ops
end Smysl.Pointer
