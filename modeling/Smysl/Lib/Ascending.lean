import Mathlib.Data.List.Sort
import Mathlib.Order.Lattice

/-!
Lists in ascending order without repeats: sorting and dropping repeats makes one,
merging two keeps one, and its members determine it.
-/
namespace Ascending

variable {α : Type} [LinearOrder α]

/-- `Vec::sort`. -/
def sort (l : List α) : List α := l.mergeSort (fun a b => decide (a ≤ b))

/-- `Vec::dedup`: of equal neighbours the first is kept. -/
def dedup : List α → List α
  | [] => []
  | [a] => [a]
  | a :: b :: l => if a = b then dedup (a :: l) else a :: dedup (b :: l)
termination_by l => l.length

def sortDedup (l : List α) : List α := dedup (sort l)

/-- Put an element at the end, unless it is there. -/
def pushNew (out : List α) (a : α) : List α :=
  if out.getLast? = some a then out else out ++ [a]

/-- Merge two lists at the end of `out`, the lesser head first. -/
def mergeInto (out : List α) : List α → List α → List α
  | [], [] => out
  | a :: as, [] => mergeInto (pushNew out a) as []
  | [], b :: bs => mergeInto (pushNew out b) [] bs
  | a :: as, b :: bs =>
    if a ≤ b then mergeInto (pushNew out a) as (b :: bs)
    else mergeInto (pushNew out b) (a :: as) bs
termination_by as bs => as.length + bs.length

theorem mem_sort {l : List α} {a : α} : a ∈ sort l ↔ a ∈ l :=
  List.mem_mergeSort

theorem sort_sorted (l : List α) : (sort l).Pairwise (· ≤ ·) := by
  have sorted := @List.pairwise_mergeSort α (fun a b => decide (a ≤ b))
    (fun a b c ab bc => decide_eq_true (le_trans (of_decide_eq_true ab) (of_decide_eq_true bc)))
    (fun a b => by
      rw [Bool.or_eq_true, decide_eq_true_eq, decide_eq_true_eq]
      exact le_total a b) l
  exact sorted.imp fun le => of_decide_eq_true le

theorem mem_dedup {l : List α} {a : α} : a ∈ dedup l ↔ a ∈ l := by
  induction l using dedup.induct with
  | case1 => rw [dedup]
  | case2 b => rw [dedup]
  | case3 b l ih =>
    rw [dedup, if_pos rfl, ih]
    simp
  | case4 b c l other ih =>
    rw [dedup, if_neg other, List.mem_cons, ih, ← List.mem_cons]

theorem dedup_ascending {l : List α} (sorted : l.Pairwise (· ≤ ·)) :
    (dedup l).Pairwise (· < ·) := by
  induction l using dedup.induct with
  | case1 =>
    rw [dedup]
    exact List.Pairwise.nil
  | case2 a =>
    rw [dedup]
    exact List.pairwise_singleton _ _
  | case3 a l ih =>
    rw [dedup, if_pos rfl]
    exact ih sorted.of_cons
  | case4 a b l other ih =>
    rw [dedup, if_neg other]
    refine List.Pairwise.cons (fun c mem => ?_) (ih sorted.of_cons)
    have below : a < b :=
      lt_of_le_of_ne (List.rel_of_pairwise_cons sorted List.mem_cons_self) other
    rcases List.mem_cons.mp (mem_dedup.mp mem) with here | later
    · rw [here]
      exact below
    · exact below.trans_le (List.rel_of_pairwise_cons sorted.of_cons later)

theorem sort_dedup_ascending (l : List α) : (sortDedup l).Pairwise (· < ·) :=
  dedup_ascending (sort_sorted l)

theorem mem_sort_dedup {l : List α} {a : α} : a ∈ sortDedup l ↔ a ∈ l := by
  rw [sortDedup, mem_dedup, mem_sort]

/-- Members determine an ascending list. -/
theorem ascending_ext {l m : List α} (ascL : l.Pairwise (· < ·)) (ascM : m.Pairwise (· < ·))
    (same : ∀ a, a ∈ l ↔ a ∈ m) : l = m := by
  have : Std.Irrefl (fun a b : α => a < b) := ⟨lt_irrefl⟩
  have : Std.Antisymm (fun a b : α => a < b) := ⟨fun a b ab ba => absurd (ab.trans ba) (lt_irrefl _)⟩
  exact List.Pairwise.eq_of_mem_iff ascL ascM same

theorem mem_push_new {out : List α} {a b : α} : b ∈ pushNew out a ↔ b = a ∨ b ∈ out := by
  rw [pushNew]
  split
  · rename_i last
    constructor
    · intro mem
      exact Or.inr mem
    · intro either
      rcases either with here | mem
      · rw [here]
        exact List.mem_of_getLast? last
      · exact mem
  · rw [List.mem_append, List.mem_singleton]
    exact or_comm

theorem push_new_ascending {out : List α} {a : α} (asc : out.Pairwise (· < ·))
    (below : ∀ b ∈ out, b ≤ a) : (pushNew out a).Pairwise (· < ·) := by
  rw [pushNew]
  split
  · exact asc
  · rename_i other
    refine List.pairwise_append.mpr ⟨asc, List.pairwise_singleton _ _, fun b mem c single => ?_⟩
    rw [List.mem_singleton.mp single]
    apply lt_of_le_of_ne (below b mem)
    intro same
    subst same
    -- an ascending list holds its greatest element at the end
    apply other
    have some' : out ≠ [] := List.ne_nil_of_mem mem
    rw [List.getLast?_eq_some_getLast some']
    apply congrArg some
    apply le_antisymm
    · exact below _ (List.getLast_mem some')
    · rcases List.mem_iff_append.mp mem with ⟨before, after, split⟩
      subst split
      cases after with
      | nil => simp
      | cons c after =>
        have last : (before ++ b :: c :: after).getLast some' ∈ c :: after := by
          rw [List.getLast_append_of_ne_nil _ (by simp)]
          rw [List.getLast_cons (by simp)]
          exact List.getLast_mem _
        exact le_of_lt (List.rel_of_pairwise_cons (List.pairwise_append.mp asc).2.1 last)

/-- What merging keeps: the output and everything to come. -/
theorem merge_into_spec {out as bs : List α} (asc : out.Pairwise (· < ·))
    (sortedA : as.Pairwise (· ≤ ·)) (sortedB : bs.Pairwise (· ≤ ·))
    (belowA : ∀ x ∈ out, ∀ a ∈ as, x ≤ a) (belowB : ∀ x ∈ out, ∀ b ∈ bs, x ≤ b) :
    (mergeInto out as bs).Pairwise (· < ·) ∧
      ∀ x, x ∈ mergeInto out as bs ↔ x ∈ out ∨ x ∈ as ∨ x ∈ bs := by
  induction out, as, bs using mergeInto.induct with
  | case1 out =>
    rw [mergeInto]
    exact ⟨asc, by simp⟩
  | case2 out a as ih =>
    rw [mergeInto]
    obtain ⟨merged, members⟩ := ih
      (push_new_ascending asc fun x mem => belowA x mem a List.mem_cons_self) sortedA.of_cons
      sortedB (by
        intro x mem c later
        rcases mem_push_new.mp mem with here | mem
        · rw [here]
          exact List.rel_of_pairwise_cons sortedA later
        · exact belowA x mem c (List.mem_cons_of_mem a later)) (by simp)
    refine ⟨merged, fun x => ?_⟩
    rw [members, mem_push_new]
    simp only [List.mem_cons]
    tauto
  | case3 out b bs ih =>
    rw [mergeInto]
    obtain ⟨merged, members⟩ := ih
      (push_new_ascending asc fun x mem => belowB x mem b List.mem_cons_self) sortedA
      sortedB.of_cons (by simp) (by
        intro x mem c later
        rcases mem_push_new.mp mem with here | mem
        · rw [here]
          exact List.rel_of_pairwise_cons sortedB later
        · exact belowB x mem c (List.mem_cons_of_mem b later))
    refine ⟨merged, fun x => ?_⟩
    rw [members, mem_push_new]
    simp only [List.mem_cons]
    tauto
  | case4 out a as b bs le ih =>
    rw [mergeInto, if_pos le]
    obtain ⟨merged, members⟩ := ih
      (push_new_ascending asc fun x mem => belowA x mem a List.mem_cons_self) sortedA.of_cons
      sortedB (by
        intro x mem c later
        rcases mem_push_new.mp mem with here | mem
        · rw [here]
          exact List.rel_of_pairwise_cons sortedA later
        · exact belowA x mem c (List.mem_cons_of_mem a later)) (by
        intro x mem c later
        rcases mem_push_new.mp mem with here | mem
        · rw [here]
          rcases List.mem_cons.mp later with first | later
          · rw [first]
            exact le
          · exact le.trans (List.rel_of_pairwise_cons sortedB later)
        · exact belowB x mem c later)
    refine ⟨merged, fun x => ?_⟩
    rw [members, mem_push_new]
    simp only [List.mem_cons]
    tauto
  | case5 out a as b bs gt ih =>
    have le : b ≤ a := le_of_lt (not_le.mp gt)
    rw [mergeInto, if_neg gt]
    obtain ⟨merged, members⟩ := ih
      (push_new_ascending asc fun x mem => belowB x mem b List.mem_cons_self) sortedA
      sortedB.of_cons (by
        intro x mem c later
        rcases mem_push_new.mp mem with here | mem
        · rw [here]
          rcases List.mem_cons.mp later with first | later
          · rw [first]
            exact le
          · exact le.trans (List.rel_of_pairwise_cons sortedA later)
        · exact belowA x mem c later) (by
        intro x mem c later
        rcases mem_push_new.mp mem with here | mem
        · rw [here]
          exact List.rel_of_pairwise_cons sortedB later
        · exact belowB x mem c (List.mem_cons_of_mem b later))
    refine ⟨merged, fun x => ?_⟩
    rw [members, mem_push_new]
    simp only [List.mem_cons]
    tauto

/-- Merging two ascending lists is sorting what both hold. -/
theorem merge_eq_sort_dedup {as bs : List α} (ascA : as.Pairwise (· < ·))
    (ascB : bs.Pairwise (· < ·)) : mergeInto [] as bs = sortDedup (as ++ bs) := by
  obtain ⟨merged, members⟩ := @merge_into_spec α _ [] as bs List.Pairwise.nil
    (ascA.imp le_of_lt) (ascB.imp le_of_lt) (by simp) (by simp)
  apply ascending_ext merged (sort_dedup_ascending _)
  intro a
  rw [members, mem_sort_dedup, List.mem_append]
  simp

end Ascending
