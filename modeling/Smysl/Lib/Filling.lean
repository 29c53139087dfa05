import Mathlib

/-!
Filling to a budget in order, where each filling opens with the last of the one before it.
Each takes at least one more, whatever that costs; what all of them take is what there was.
-/
namespace Filling
variable {α : Type} (weight : α → ℕ) (budget : ℕ)

/-- As many more as fit beside what is there. -/
def more : ℕ → List α → List α × List α
  | _, [] => ([], [])
  | used, x :: xs =>
    if budget < used + weight x then ([], x :: xs)
    else
      let rest := more (used + weight x) xs
      (x :: rest.1, rest.2)

/-- What is carried over, and what is taken. -/
def fillWithin : ℕ → Option α → List α → List (Option α × List α)
  | 0, _, _ => []
  | _ + 1, _, [] => []
  | fuel + 1, carry, x :: xs =>
    let rest := more weight budget ((carry.map weight).getD 0 + weight x) xs
    (carry, x :: rest.1) :: fillWithin fuel (x :: rest.1).getLast? rest.2

def fill (xs : List α) : List (Option α × List α) := fillWithin weight budget xs.length none xs

def weigh (xs : List α) : ℕ := (xs.map weight).sum

theorem more_append (used : ℕ) (xs : List α) :
    (more weight budget used xs).1 ++ (more weight budget used xs).2 = xs := by
  induction xs generalizing used with
  | nil => rfl
  | cons x xs ih =>
    rw [more]
    split
    · rfl
    · exact congrArg (x :: ·) (ih _)

theorem more_shorter (used : ℕ) (xs : List α) :
    (more weight budget used xs).2.length ≤ xs.length := by
  have whole := congrArg List.length (more_append weight budget used xs)
  rw [List.length_append] at whole
  omega

/-- What more is taken fits, or nothing more is. -/
theorem more_fits (used : ℕ) (xs : List α) : (more weight budget used xs).1 = [] ∨
    used + weigh weight (more weight budget used xs).1 ≤ budget := by
  induction xs generalizing used with
  | nil => exact Or.inl rfl
  | cons x xs ih =>
    rw [more]
    split
    · exact Or.inl rfl
    · rename_i room
      right
      dsimp only
      rw [weigh, List.map_cons, List.sum_cons, ← weigh]
      rcases ih (used + weight x) with none' | fits
      · rw [none', weigh, List.map_nil, List.sum_nil]
        omega
      · omega

variable {weight budget}

/-- Each filling opens with the last that the one before it took, beginning from `carry`. -/
def Linked : Option α → List (Option α × List α) → Prop
  | _, [] => True
  | carry, f :: fs => f.1 = carry ∧ Linked f.2.getLast? fs

/-- What one filling is: it takes something, and what it holds fits unless it takes one. -/
def Sound (weight : α → ℕ) (budget : ℕ) (f : Option α × List α) : Prop :=
  f.2 ≠ [] ∧ (weigh weight (f.1.toList ++ f.2) ≤ budget ∨ ∃ x, f.2 = [x])

theorem fill_within (fuel : ℕ) (carry : Option α) (xs : List α) (enough : xs.length ≤ fuel) :
    (fillWithin weight budget fuel carry xs).flatMap Prod.snd = xs ∧
    Linked carry (fillWithin weight budget fuel carry xs) ∧
    ∀ f ∈ fillWithin weight budget fuel carry xs, Sound weight budget f := by
  induction fuel generalizing carry xs with
  | zero =>
    rw [List.length_eq_zero_iff.mp (Nat.le_zero.mp enough)]
    exact ⟨rfl, trivial, fun f mem => nomatch mem⟩
  | succ fuel ih =>
    cases xs with
    | nil => exact ⟨rfl, trivial, fun f mem => nomatch mem⟩
    | cons x xs =>
      let used := (carry.map weight).getD 0 + weight x
      have shorter := more_shorter weight budget used xs
      rw [List.length_cons] at enough
      obtain ⟨all, linked, sound⟩ := ih (x :: (more weight budget used xs).1).getLast?
        (more weight budget used xs).2 (by omega)
      rw [fillWithin]
      refine ⟨?_, ⟨rfl, linked⟩, List.forall_mem_cons.mpr ⟨⟨List.cons_ne_nil _ _, ?_⟩, sound⟩⟩
      · rw [List.flatMap_cons, all, List.cons_append]
        exact congrArg (x :: ·) (more_append weight budget used xs)
      · rcases more_fits weight budget used xs with one | fits
        · exact Or.inr ⟨x, congrArg (x :: ·) one⟩
        · left
          have carried : weigh weight carry.toList = (carry.map weight).getD 0 := by
            cases carry <;> simp [weigh]
          have total : weigh weight (carry.toList ++ x :: (more weight budget used xs).1) =
              used + weigh weight (more weight budget used xs).1 := by
            rw [weigh, List.map_append, List.sum_append, ← weigh, carried, List.map_cons,
              List.sum_cons, ← Nat.add_assoc, ← weigh]
          exact total.le.trans fits

variable (weight budget) in
theorem fill_spec (xs : List α) : (fill weight budget xs).flatMap Prod.snd = xs ∧
    Linked none (fill weight budget xs) ∧ ∀ f ∈ fill weight budget xs, Sound weight budget f :=
  fill_within xs.length none xs le_rfl

/-- What is carried was taken before. -/
theorem linked_mem {carry : Option α} {fs : List (Option α × List α)} (linked : Linked carry fs) :
    ∀ f ∈ fs, ∀ x ∈ f.1.toList ++ f.2, x ∈ carry.toList ++ fs.flatMap Prod.snd := by
  induction fs generalizing carry with
  | nil => exact fun f mem => nomatch mem
  | cons g gs ih =>
    obtain ⟨same, later⟩ := linked
    refine List.forall_mem_cons.mpr ⟨fun x mem => ?_, fun f mem x held => ?_⟩
    · rw [same] at mem
      rw [List.flatMap_cons, ← List.append_assoc]
      exact List.mem_append_left _ mem
    · rw [List.flatMap_cons]
      rcases List.mem_append.mp (ih later f mem x held) with last | there
      · have taken : x ∈ g.2 := by
          rw [Option.mem_toList] at last
          exact List.mem_of_getLast? last
        exact List.mem_append_right _ (List.mem_append_left _ taken)
      · exact List.mem_append_right _ (List.mem_append_right _ there)

theorem fill_mem {xs : List α} : ∀ f ∈ fill weight budget xs, ∀ x ∈ f.1.toList ++ f.2, x ∈ xs := by
  obtain ⟨all, linked, -⟩ := fill_spec weight budget xs
  intro f mem x held
  have there := linked_mem linked f mem x held
  rw [all] at there
  exact there

end Filling
