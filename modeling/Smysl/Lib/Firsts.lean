import Mathlib.Data.List.Sort

/-!
Lists of keyed entries put in the order of their keys, with one entry for each
key: the first one, as it was given.

Sorting stably and then dropping each entry that repeats the key before it is the
same as keeping the first entry of each key and then sorting.
-/
namespace Firsts
variable {α β κ : Type} [LinearOrder κ] (key : α → κ)

def sorted (l : List α) : List α := l.insertionSort (fun a b => key a ≤ key b)

/-- The entries whose key is not the key of the entry kept before them. -/
def dropRepeats : Option κ → List α → List α
  | _, [] => []
  | prev, a :: l =>
    if prev = some (key a) then dropRepeats prev l else a :: dropRepeats (some (key a)) l

/-- The first entry of each key, in the order given. -/
def firsts : List α → List α
  | [] => []
  | a :: l => a :: (firsts l).filter (fun b => key b ≠ key a)

/-- Keys strictly ascending. -/
def Ascending (l : List α) : Prop := l.Pairwise (fun a b => key a < key b)

/-- The first entry under a key. -/
def lookup (l : List α) (k : κ) : Option α := l.find? (fun a => key a = k)

variable {key}

theorem lookup_cons_of_eq {a : α} {k : κ} (same : key a = k) (l : List α) :
    lookup key (a :: l) k = some a := by
  rw [lookup, List.find?_cons_of_pos (by simp [same])]

theorem lookup_cons_of_ne {a : α} {k : κ} (other : key a ≠ k) (l : List α) :
    lookup key (a :: l) k = lookup key l k := by
  rw [lookup, List.find?_cons_of_neg (by simp [other]), lookup]

theorem lookup_ordered_insert (a : α) (l : List α) (k : κ) :
    lookup key (l.orderedInsert (fun a b => key a ≤ key b) a) k = lookup key (a :: l) k := by
  induction l with
  | nil => rfl
  | cons b l ih =>
    by_cases below : key a ≤ key b
    · rw [List.orderedInsert, if_pos below]
    · rw [List.orderedInsert, if_neg below]
      by_cases here : key b = k
      · have other : key a ≠ k := by
          intro same
          exact below (le_of_eq (same.trans here.symm))
        rw [lookup_cons_of_eq here, lookup_cons_of_ne other, lookup_cons_of_eq here]
      · rw [lookup_cons_of_ne here, ih]
        by_cases same : key a = k
        · rw [lookup_cons_of_eq same, lookup_cons_of_eq same]
        · rw [lookup_cons_of_ne same, lookup_cons_of_ne same, lookup_cons_of_ne here]

/-- The sort is stable, so what comes first under a key still does. -/
theorem lookup_sorted (l : List α) (k : κ) : lookup key (sorted key l) k = lookup key l k := by
  induction l with
  | nil => rfl
  | cons a l ih =>
    rw [sorted, List.insertionSort_cons, lookup_ordered_insert]
    by_cases same : key a = k
    · rw [lookup_cons_of_eq same, lookup_cons_of_eq same]
    · rw [lookup_cons_of_ne same, lookup_cons_of_ne same]
      exact ih

theorem lookup_drop_repeats {prev : Option κ} {k : κ} (fresh : prev ≠ some k) (l : List α) :
    lookup key (dropRepeats key prev l) k = lookup key l k := by
  induction l generalizing prev with
  | nil => rfl
  | cons a l ih =>
    rw [dropRepeats]
    by_cases same : key a = k
    · have kept : prev ≠ some (key a) := by rwa [same]
      rw [if_neg kept, lookup_cons_of_eq same, lookup_cons_of_eq same]
    · rw [lookup_cons_of_ne same]
      split
      · exact ih fresh
      · rw [lookup_cons_of_ne same]
        exact ih (by simpa using same)

theorem lookup_filter_ne {k k' : κ} (other : k ≠ k') (l : List α) :
    lookup key (l.filter (fun b => key b ≠ k')) k = lookup key l k := by
  induction l with
  | nil => rfl
  | cons a l ih =>
    by_cases same : key a = k
    · have kept : key a ≠ k' := by rwa [same]
      rw [List.filter_cons, if_pos (by simpa using kept), lookup_cons_of_eq same,
        lookup_cons_of_eq same]
    · rw [lookup_cons_of_ne same, List.filter_cons]
      split
      · rw [lookup_cons_of_ne same, ih]
      · exact ih

theorem lookup_firsts (l : List α) (k : κ) : lookup key (firsts key l) k = lookup key l k := by
  induction l with
  | nil => rfl
  | cons a l ih =>
    rw [firsts]
    by_cases same : key a = k
    · rw [lookup_cons_of_eq same, lookup_cons_of_eq same]
    · rw [lookup_cons_of_ne same, lookup_cons_of_ne same, lookup_filter_ne (Ne.symm same), ih]

theorem sorted_pairwise (l : List α) : (sorted key l).Pairwise (fun a b => key a ≤ key b) := by
  have total : Std.Total (fun a b : α => key a ≤ key b) :=
    ⟨fun a b => le_total (key a) (key b)⟩
  have trans : IsTrans α (fun a b => key a ≤ key b) := ⟨fun a b c => le_trans⟩
  exact List.pairwise_insertionSort _ l

theorem sorted_perm (l : List α) : (sorted key l).Perm l := List.perm_insertionSort _ l

theorem drop_repeats_subset {prev : Option κ} {l : List α} : dropRepeats key prev l ⊆ l := by
  induction l generalizing prev with
  | nil => exact List.Subset.refl []
  | cons a l ih =>
    rw [dropRepeats]
    split
    · exact List.subset_cons_of_subset _ ih
    · exact List.cons_subset_cons _ ih

theorem drop_repeats_ascending {prev : Option κ} {l : List α}
    (sorted : l.Pairwise (fun a b => key a ≤ key b))
    (above : ∀ p ∈ prev, ∀ a ∈ l, p ≤ key a) :
    Ascending key (dropRepeats key prev l) ∧
      ∀ p ∈ prev, ∀ a ∈ dropRepeats key prev l, p < key a := by
  induction l generalizing prev with
  | nil => exact ⟨List.Pairwise.nil, fun _ _ _ mem => absurd mem List.not_mem_nil⟩
  | cons a l ih =>
    obtain ⟨least, rest⟩ := List.pairwise_cons.mp sorted
    rw [dropRepeats]
    split
    · exact ih rest fun p held b mem => above p held b (List.mem_cons_of_mem a mem)
    · rename_i kept
      obtain ⟨asc, later⟩ := @ih (some (key a)) rest (by
        rintro _ ⟨rfl⟩
        exact least)
      constructor
      · exact List.pairwise_cons.mpr ⟨later _ rfl, asc⟩
      · intro p held b mem
        have low : p < key a := by
          apply lt_of_le_of_ne (above p held a List.mem_cons_self)
          intro same
          rw [← same] at kept
          exact kept held
        rcases List.mem_cons.mp mem with rfl | mem
        · exact low
        · exact low.trans (later _ rfl b mem)

theorem firsts_distinct (l : List α) : (firsts key l).Pairwise (fun a b => key a ≠ key b) := by
  induction l with
  | nil => exact List.Pairwise.nil
  | cons a l ih =>
    apply List.pairwise_cons.mpr
    constructor
    · intro b mem
      have other := (List.mem_filter.mp mem).2
      simp only [ne_eq, decide_not, Bool.not_eq_eq_eq_not, Bool.not_true,
        decide_eq_false_iff_not] at other
      exact Ne.symm other
    · exact ih.filter _

theorem sorted_ascending {l : List α} (distinct : l.Pairwise (fun a b => key a ≠ key b)) :
    Ascending key (sorted key l) := by
  have apart : (sorted key l).Pairwise (fun a b => key a ≠ key b) :=
    (sorted_perm l).symm.pairwise distinct (fun h => h.symm)
  exact ((sorted_pairwise l).and apart).imp fun both => lt_of_le_of_ne both.1 both.2

theorem firsts_subset (l : List α) : firsts key l ⊆ l := by
  induction l with
  | nil => exact List.Subset.refl []
  | cons a l ih => exact List.cons_subset_cons a fun _ mem => ih (List.mem_filter.mp mem).1

/-- What the first entries are depends on which keys are the same. -/
theorem firsts_congr {κ' : Type} [LinearOrder κ'] {key' : α → κ'} {l : List α}
    (same : ∀ a ∈ l, ∀ b ∈ l, (key a = key b ↔ key' a = key' b)) :
    firsts key l = firsts key' l := by
  induction l with
  | nil => rfl
  | cons a l ih =>
    have rest := ih fun b memB c memC =>
      same b (List.mem_cons_of_mem a memB) c (List.mem_cons_of_mem a memC)
    rw [firsts, firsts, ← rest]
    congr 1
    apply List.filter_congr
    intro b mem
    have equal := same b (List.mem_cons_of_mem a (firsts_subset l mem)) a List.mem_cons_self
    exact decide_eq_decide.mpr (not_congr equal)

theorem mem_iff_lookup {l : List α} (asc : Ascending key l) (a : α) :
    a ∈ l ↔ lookup key l (key a) = some a := by
  constructor
  · intro mem
    induction l with
    | nil => exact absurd mem List.not_mem_nil
    | cons b l ih =>
      obtain ⟨least, asc⟩ := List.pairwise_cons.mp asc
      rcases List.mem_cons.mp mem with rfl | mem
      · exact lookup_cons_of_eq rfl l
      · rw [lookup_cons_of_ne (ne_of_lt (least a mem))]
        exact ih asc mem
  · intro found
    exact List.mem_of_find?_eq_some found

theorem ascending_nodup {l : List α} (asc : Ascending key l) : l.Nodup :=
  asc.imp fun low same => ne_of_lt low (congrArg key same)

/-- Ascending lists are told apart by what stands under some key. -/
theorem eq_of_lookup {l l' : List α} (asc : Ascending key l) (asc' : Ascending key l')
    (same : ∀ k, lookup key l k = lookup key l' k) : l = l' := by
  have perm : l.Perm l' := by
    apply (List.perm_ext_iff_of_nodup (ascending_nodup asc) (ascending_nodup asc')).mpr
    intro a
    rw [mem_iff_lookup asc, mem_iff_lookup asc', same]
  apply List.Perm.eq_of_pairwise _ asc asc' perm
  intro a b _ _ ab ba
  exact absurd (ab.trans ba) (lt_irrefl _)

variable (key) in
/-- Sorted, with the repeats of a key dropped. -/
def kept (l : List α) : List α := dropRepeats key none (sorted key l)

theorem kept_ascending (l : List α) : Ascending key (kept key l) :=
  (drop_repeats_ascending (sorted_pairwise l) (by simp)).1

theorem kept_subset (l : List α) : kept key l ⊆ l :=
  fun _ mem => (sorted_perm l).subset (drop_repeats_subset mem)

theorem kept_eq (l : List α) : kept key l = sorted key (firsts key l) := by
  apply eq_of_lookup (kept_ascending l) (sorted_ascending (firsts_distinct l))
  intro k
  rw [kept, lookup_drop_repeats (by simp), lookup_sorted, lookup_sorted, lookup_firsts]

theorem kept_of_ascending {l : List α} (asc : Ascending key l) : kept key l = l := by
  apply eq_of_lookup (kept_ascending l) asc
  intro k
  rw [kept, lookup_drop_repeats (by simp), lookup_sorted]

theorem drop_repeats_map (f : β → α) (prev : Option κ) (l : List β) :
    dropRepeats key prev (l.map f) = (dropRepeats (key ∘ f) prev l).map f := by
  induction l generalizing prev with
  | nil => rfl
  | cons b l ih =>
    rw [List.map_cons, dropRepeats, dropRepeats, Function.comp_apply]
    split
    · exact ih prev
    · rw [List.map_cons, ih]

theorem kept_map (f : β → α) (l : List β) : kept key (l.map f) = (kept (key ∘ f) l).map f := by
  have sorts : (sorted (key ∘ f) l).map f = sorted key (l.map f) :=
    List.map_insertionSort _ _ f l fun _ _ _ _ => Iff.rfl
  rw [kept, kept, ← sorts, drop_repeats_map]

theorem kept_nil_iff (l : List α) : kept key l = [] ↔ l = [] := by
  constructor
  · intro gone
    cases l with
    | nil => rfl
    | cons a l =>
      have found : lookup key (a :: l) (key a) = some a := lookup_cons_of_eq rfl l
      have still : lookup key (kept key (a :: l)) (key a) = some a := by
        rw [kept, lookup_drop_repeats (by simp), lookup_sorted, found]
      rw [gone] at still
      cases still
  · rintro rfl
    rfl

end Firsts
