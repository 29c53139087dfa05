import Smysl.Lib.OrdMap

/-!
Two keyed lists in ascending order merged in one pass. Leaving keys out before the merge or
after it comes to the same.
-/
namespace Merging
open OrdMap

variable {K A B : Type} [LinearOrder K]

/-- One pass over both lists. What only the second one has is put in if it is `fresh`. -/
def merge (both : A → B → A) (fresh : K → B → Option A) :
    List (K × A) → List (K × B) → List (K × A)
  | [], [] => []
  | d :: ds, [] => d :: merge both fresh ds []
  | [], e :: es => (fresh e.1 e.2).toList.map (fun a => (e.1, a)) ++ merge both fresh [] es
  | d :: ds, e :: es =>
    if d.1 ≤ e.1 then
      if e.1 = d.1 then (d.1, both d.2 e.2) :: merge both fresh ds es
      else d :: merge both fresh ds (e :: es)
    else (fresh e.1 e.2).toList.map (fun a => (e.1, a)) ++ merge both fresh (d :: ds) es
  termination_by ds es => ds.length + es.length

variable {both : A → B → A} {fresh : K → B → Option A}

/-- A head of the first list below all of the second comes first. -/
theorem merge_first {d : K × A} {ds : List (K × A)} {es : List (K × B)}
    (below : ∀ e ∈ es, d.1 < e.1) :
    merge both fresh (d :: ds) es = d :: merge both fresh ds es := by
  cases es with
  | nil => rw [merge]
  | cons e es =>
    have less := below e List.mem_cons_self
    rw [merge, if_pos (le_of_lt less), if_neg (ne_of_gt less)]

/-- And a head of the second below all of the first. -/
theorem merge_second {ds : List (K × A)} {e : K × B} {es : List (K × B)}
    (below : ∀ d ∈ ds, e.1 < d.1) :
    merge both fresh ds (e :: es) =
      (fresh e.1 e.2).toList.map (fun a => (e.1, a)) ++ merge both fresh ds es := by
  cases ds with
  | nil => rw [merge]
  | cons d ds => rw [merge, if_neg (not_le_of_gt (below d List.mem_cons_self))]

/-- The keys are keys of either list. -/
theorem merge_keys {P : K → Prop} {ds : List (K × A)} {es : List (K × B)}
    (old : ∀ d ∈ ds, P d.1) (new : ∀ e ∈ es, P e.1) : ∀ x ∈ merge both fresh ds es, P x.1 := by
  have put_in : ∀ (e : K × B), P e.1 →
      ∀ x ∈ (fresh e.1 e.2).toList.map (fun a => (e.1, a)), P x.1 := by
    intro e here x mem
    obtain ⟨a, _, same⟩ := List.mem_map.mp mem
    rw [← same]
    exact here
  fun_induction merge both fresh ds es with
  | case1 => exact fun x mem => nomatch mem
  | case2 d ds ih =>
    rw [List.forall_mem_cons] at old ⊢
    exact ⟨old.1, ih old.2 new⟩
  | case3 e es ih =>
    rw [List.forall_mem_cons] at new
    exact List.forall_mem_append.mpr ⟨put_in e new.1, ih old new.2⟩
  | case4 d ds e es _ same ih =>
    rw [List.forall_mem_cons] at old new ⊢
    exact ⟨old.1, ih old.2 new.2⟩
  | case5 d ds e es _ differ ih =>
    rw [List.forall_mem_cons] at old ⊢
    exact ⟨old.1, ih old.2 new⟩
  | case6 d ds e es _ ih =>
    rw [List.forall_mem_cons] at new
    exact List.forall_mem_append.mpr ⟨put_in e new.1, ih old new.2⟩

theorem merge_ascending {ds : List (K × A)} {es : List (K × B)} (old : Ascending ds)
    (new : Ascending es) : Ascending (merge both fresh ds es) := by
  have put_in : ∀ (e : K × B) (xs : List (K × A)), (∀ x ∈ xs, e.1 < x.1) → Ascending xs →
      Ascending ((fresh e.1 e.2).toList.map (fun a => (e.1, a)) ++ xs) := by
    intro e xs below rest
    cases fresh e.1 e.2 with
    | none => exact rest
    | some a => exact List.pairwise_cons.mpr ⟨below, rest⟩
  fun_induction merge both fresh ds es with
  | case1 => exact List.Pairwise.nil
  | case2 d ds ih =>
    obtain ⟨below, old⟩ := List.pairwise_cons.mp old
    exact List.pairwise_cons.mpr ⟨merge_keys below (fun e mem => nomatch mem), ih old new⟩
  | case3 e es ih =>
    obtain ⟨below, new⟩ := List.pairwise_cons.mp new
    exact put_in e _ (merge_keys (fun d mem => nomatch mem) below) (ih old new)
  | case4 d ds e es _ same ih =>
    obtain ⟨belowOld, old⟩ := List.pairwise_cons.mp old
    obtain ⟨belowNew, new⟩ := List.pairwise_cons.mp new
    rw [same] at belowNew
    exact List.pairwise_cons.mpr ⟨merge_keys belowOld belowNew, ih old new⟩
  | case5 d ds e es le differ ih =>
    obtain ⟨belowOld, old⟩ := List.pairwise_cons.mp old
    have less : d.1 < e.1 := lt_of_le_of_ne le (Ne.symm differ)
    have belowNew := (List.pairwise_cons.mp new).1
    refine List.pairwise_cons.mpr ⟨merge_keys belowOld ?_, ih old new⟩
    rw [List.forall_mem_cons]
    exact ⟨less, fun x mem => lt_trans less (belowNew x mem)⟩
  | case6 d ds e es greater ih =>
    obtain ⟨belowNew, new⟩ := List.pairwise_cons.mp new
    have less := not_le.mp greater
    have belowOld := (List.pairwise_cons.mp old).1
    refine put_in e _ (merge_keys ?_ belowNew) (ih old new)
    rw [List.forall_mem_cons]
    exact ⟨less, fun x mem => lt_trans less (belowOld x mem)⟩

/-- The entries whose keys are kept. -/
def keep {V : Type} (kept : K → Bool) (es : List (K × V)) : List (K × V) :=
  es.filter fun e => kept e.1

omit [LinearOrder K] in
theorem mem_of_keep {V : Type} {kept : K → Bool} {es : List (K × V)} {P : K × V → Prop}
    (all : ∀ e ∈ es, P e) : ∀ e ∈ keep kept es, P e :=
  fun e mem => all e (List.mem_filter.mp mem).1

omit [LinearOrder K] in
theorem keep_fresh (kept : K → Bool) (e : K × B) :
    keep kept ((fresh e.1 e.2).toList.map (fun a => (e.1, a))) =
      if kept e.1 then (fresh e.1 e.2).toList.map (fun a => (e.1, a)) else [] := by
  cases fresh e.1 e.2 with
  | none => simp [keep]
  | some a =>
    rw [keep, Option.toList_some, List.map_singleton, List.filter_singleton]
    exact cond_eq_ite _ _ _

/-- What is kept of a merge is the merge of what is kept. -/
theorem keep_merge (kept : K → Bool) {ds : List (K × A)} {es : List (K × B)}
    (old : Ascending ds) (new : Ascending es) :
    keep kept (merge both fresh ds es) = merge both fresh (keep kept ds) (keep kept es) := by
  have cons_keep : ∀ {V : Type} (e : K × V) (es : List (K × V)),
      keep kept (e :: es) = if kept e.1 then e :: keep kept es else keep kept es :=
    fun e es => List.filter_cons
  fun_induction merge both fresh ds es with
  | case1 => exact (merge.eq_1 both fresh).symm
  | case2 d ds ih =>
    have rest := ih (List.pairwise_cons.mp old).2 new
    rw [cons_keep, cons_keep]
    split
    · rw [rest]
      exact (merge_first (List.forall_mem_nil _)).symm
    · exact rest
  | case3 e es ih =>
    have rest := ih old (List.pairwise_cons.mp new).2
    rw [cons_keep, keep, List.filter_append]
    change keep kept _ ++ keep kept _ = _
    rw [keep_fresh, rest]
    split
    · exact (merge_second (List.forall_mem_nil _)).symm
    · rw [List.nil_append]
  | case4 d ds e es _ same ih =>
    obtain ⟨belowOld, old⟩ := List.pairwise_cons.mp old
    obtain ⟨belowNew, new⟩ := List.pairwise_cons.mp new
    rw [cons_keep, cons_keep, cons_keep, ih old new, same]
    split
    · rw [merge, if_pos (le_of_eq same.symm), if_pos same]
    · rfl
  | case5 d ds e es le differ ih =>
    obtain ⟨belowOld, old⟩ := List.pairwise_cons.mp old
    have less : d.1 < e.1 := lt_of_le_of_ne le (Ne.symm differ)
    have belowNew := (List.pairwise_cons.mp new).1
    have below : ∀ x ∈ keep kept (e :: es), d.1 < x.1 := by
      apply mem_of_keep
      rw [List.forall_mem_cons]
      exact ⟨less, fun x mem => lt_trans less (belowNew x mem)⟩
    rw [cons_keep d, cons_keep d, ih old new]
    split
    · exact (merge_first below).symm
    · rfl
  | case6 d ds e es greater ih =>
    obtain ⟨belowNew, new⟩ := List.pairwise_cons.mp new
    have less := not_le.mp greater
    have belowOld := (List.pairwise_cons.mp old).1
    have below : ∀ x ∈ keep kept (d :: ds), e.1 < x.1 := by
      apply mem_of_keep
      rw [List.forall_mem_cons]
      exact ⟨less, fun x mem => lt_trans less (belowOld x mem)⟩
    rw [cons_keep e, keep, List.filter_append]
    change keep kept _ ++ keep kept _ = _
    rw [keep_fresh, ih old new]
    split
    · exact (merge_second below).symm
    · rw [List.nil_append]

end Merging
