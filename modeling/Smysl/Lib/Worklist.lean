import Smysl.Lib.OrdMap

/-!
A search with a stack: everything that is pushed was not seen before, and when the
stack is empty what was seen is the least set that holds the roots and is closed
under the neighbours.
-/
namespace Worklist
open BTreeSet

variable {K : Type} [LinearOrder K]

/-- What was seen, and the stack of what is still to be looked at. -/
abbrev State (K : Type) [LinearOrder K] := BTreeSet K × List K

def push (state : State K) (m : K) : State K :=
  if state.1.contains m then state else (state.1.insert m, m :: state.2)

/-- Pop and push the neighbours, at most so often. -/
def run (next : K → List K) : Nat → State K → BTreeSet K
  | 0, state => state.1
  | _ + 1, (seen, []) => seen
  | pops + 1, (seen, n :: stack) => run next pops ((next n).foldl push (seen, stack))

/-- Push, and keep what was pushed in the order first reached. -/
def reach (state : State K × List K) (m : K) : State K × List K :=
  if state.1.1.contains m then state else (push state.1 m, state.2 ++ [m])

/-- The search, with what it reached in the order first reached. -/
def trail (next : K → List K) : Nat → State K × List K → List K
  | 0, state => state.2
  | _ + 1, ((_, []), out) => out
  | pops + 1, ((seen, n :: stack), out) =>
    trail next pops ((next n).foldl reach ((seen, stack), out))

theorem push_cases (state : State K) (m : K) :
    (m ∈ state.1 ∧ push state m = state) ∨
      (m ∉ state.1 ∧ push state m = (state.1.insert m, m :: state.2)) := by
  rw [push]
  by_cases held : state.1.contains m = true
  · apply Or.inl
    rw [if_pos held]
    exact ⟨(mem_def _ _).mpr held, rfl⟩
  · apply Or.inr
    rw [if_neg held]
    exact ⟨fun mem => held ((mem_def _ _).mp mem), rfl⟩

theorem push_seen (state : State K) (m n : K) :
    n ∈ (push state m).1 ↔ n = m ∨ n ∈ state.1 := by
  rcases push_cases state m with ⟨held, same⟩ | ⟨_, pushed⟩
  · rw [same]
    constructor
    · intro mem
      exact Or.inr mem
    · intro either
      rcases either with here | mem
      · rw [here]
        exact held
      · exact mem
  · rw [pushed, mem_insert]

theorem push_all_seen (ms : List K) (state : State K) (n : K) :
    n ∈ (ms.foldl push state).1 ↔ n ∈ ms ∨ n ∈ state.1 := by
  induction ms generalizing state with
  | nil => simp
  | cons m ms ih =>
    rw [List.foldl_cons, ih, push_seen, List.mem_cons]
    constructor
    · intro either
      rcases either with mem | here | mem
      · exact Or.inl (Or.inr mem)
      · exact Or.inl (Or.inl here)
      · exact Or.inr mem
    · intro either
      rcases either with (here | mem) | mem
      · exact Or.inr (Or.inl here)
      · exact Or.inl mem
      · exact Or.inr (Or.inr mem)

/-- What is on the stack stays there, and whatever is newly seen is put on it. -/
theorem push_all_stack (ms : List K) (state : State K) :
    (∀ n ∈ state.2, n ∈ (ms.foldl push state).2) ∧
      ∀ n ∈ (ms.foldl push state).1, n ∈ state.1 ∨ n ∈ (ms.foldl push state).2 := by
  induction ms generalizing state with
  | nil => exact ⟨fun _ mem => mem, fun _ mem => Or.inl mem⟩
  | cons m ms ih =>
    rw [List.foldl_cons]
    obtain ⟨kept, new⟩ := ih (push state m)
    rcases push_cases state m with ⟨_, same⟩ | ⟨_, pushed⟩
    · rw [same] at kept new ⊢
      exact ⟨kept, new⟩
    · rw [pushed] at kept new ⊢
      refine ⟨fun n mem => kept n (List.mem_cons_of_mem m mem), fun n mem => ?_⟩
      rcases new n mem with held | stacked
      · rcases (mem_insert _ _ _).mp held with here | held
        · rw [here]
          exact Or.inr (kept m List.mem_cons_self)
        · exact Or.inl held
      · exact Or.inr stacked

theorem push_all_stacked (ms : List K) {state : State K} (held : ∀ n ∈ state.2, n ∈ state.1) :
    ∀ n ∈ (ms.foldl push state).2, n ∈ (ms.foldl push state).1 := by
  induction ms generalizing state with
  | nil => exact held
  | cons m ms ih =>
    rw [List.foldl_cons]
    apply ih
    rcases push_cases state m with ⟨_, same⟩ | ⟨_, pushed⟩
    · rw [same]
      exact held
    · rw [pushed]
      intro n mem
      rw [mem_insert]
      rcases List.mem_cons.mp mem with here | mem
      · exact Or.inl here
      · exact Or.inr (held n mem)

/-- What is seen now is what was seen before, and each thing found since, once. -/
structure Fresh (before now : BTreeSet K) (found : List K) : Prop where
  distinct : found.Nodup
  held : ∀ n, n ∈ now ↔ n ∈ before ∨ n ∈ found
  new : ∀ n ∈ found, n ∉ before

theorem fresh_none (before : BTreeSet K) : Fresh before before [] :=
  ⟨List.nodup_nil, fun n => by simp, fun n mem => by simp at mem⟩

theorem fresh_insert {before now : BTreeSet K} {found : List K} (fresh : Fresh before now found)
    {m : K} (unseen : m ∉ now) : Fresh before (now.insert m) (found ++ [m]) := by
  have out : m ∉ before ∧ m ∉ found := by
    rw [fresh.held] at unseen
    exact not_or.mp unseen
  constructor
  · apply List.Nodup.append fresh.distinct (List.nodup_singleton m)
    intro n mem one
    rw [List.mem_singleton.mp one] at mem
    exact out.2 mem
  · intro n
    rw [mem_insert, fresh.held, List.mem_append, List.mem_singleton]
    tauto
  · intro n mem
    rw [List.mem_append, List.mem_singleton] at mem
    rcases mem with old | here
    · exact fresh.new n old
    · rw [here]
      exact out.1

/-- What was found is what is seen now and was not before. -/
theorem Fresh.mem_found {before now : BTreeSet K} {found : List K}
    (fresh : Fresh before now found) (n : K) : n ∈ found ↔ n ∈ now ∧ n ∉ before := by
  rw [fresh.held]
  have apart := fresh.new n
  tauto

/-- How many of `all` were not seen. -/
def unseen (all : List K) (seen : BTreeSet K) : Nat :=
  (all.filter (fun n => !seen.contains n)).length

/-- What is left to do: what is on the stack, and what may still be put on it. -/
def left (all : List K) (state : State K) : Nat := unseen all state.1 + state.2.length

/-- Seeing more, and something new, leaves less unseen. -/
theorem unseen_grows {all : List K} {seen more : BTreeSet K} (grown : ∀ n ∈ seen, n ∈ more)
    {m : K} (mem : m ∈ all) (fresh : m ∉ seen) (held : m ∈ more) :
    unseen all more < unseen all seen := by
  have part : all.filter (fun n => !more.contains n) =
      (all.filter (fun n => !seen.contains n)).filter (fun n => !more.contains n) := by
    rw [List.filter_filter]
    apply List.filter_congr
    intro n _
    by_cases before : seen.contains n = true
    · have after : more.contains n = true := grown n before
      rw [before, after]
      rfl
    · rw [Bool.eq_false_of_not_eq_true before, Bool.not_false, Bool.and_true]
  have after : more.contains m = true := held
  rw [unseen, part, unseen]
  apply List.length_filter_lt_length_iff_exists.mpr
  refine ⟨m, List.mem_filter.mpr ⟨mem, ?_⟩, ?_⟩
  · rw [Bool.eq_false_of_not_eq_true fun before => fresh ((mem_def _ _).mpr before)]
    rfl
  · rw [after]
    simp

theorem unseen_insert {all : List K} {seen : BTreeSet K} {m : K} (mem : m ∈ all)
    (fresh : m ∉ seen) : unseen all (seen.insert m) < unseen all seen := by
  apply unseen_grows _ mem fresh
  · rw [mem_insert]
    exact Or.inl rfl
  · intro n before
    rw [mem_insert]
    exact Or.inr before

theorem push_all_left {all : List K} (ms : List K) (inside : ∀ m ∈ ms, m ∈ all)
    (state : State K) : left all (ms.foldl push state) ≤ left all state := by
  induction ms generalizing state with
  | nil => exact le_refl _
  | cons m ms ih =>
    rw [List.foldl_cons]
    apply (ih (fun n mem => inside n (List.mem_cons_of_mem m mem)) (push state m)).trans
    rcases push_cases state m with ⟨_, same⟩ | ⟨fresh, pushed⟩
    · rw [same]
    · have less := unseen_insert (inside m List.mem_cons_self) fresh
      rw [pushed, left, left, List.length_cons]
      dsimp only
      omega

/-- What was seen and is not on the stack has its neighbours seen. -/
structure Explored (next : K → List K) (state : State K) : Prop where
  stacked : ∀ n ∈ state.2, n ∈ state.1
  looked : ∀ n ∈ state.1, n ∉ state.2 → ∀ m ∈ next n, m ∈ state.1

theorem explored_pop {next : K → List K} {seen : BTreeSet K} {n : K} {stack : List K}
    (explored : Explored next (seen, n :: stack)) :
    Explored next ((next n).foldl push (seen, stack)) := by
  have stays := fun m => push_all_seen (next n) (seen, stack) m
  obtain ⟨kept, new⟩ := push_all_stack (next n) (seen, stack)
  constructor
  · apply push_all_stacked
    intro x mem
    exact explored.stacked x (List.mem_cons_of_mem n mem)
  · intro x mem off m neighbour
    rcases new x mem with held | stacked
    · by_cases here : x = n
      · rw [here] at neighbour
        exact (stays m).mpr (Or.inl neighbour)
      · have notStacked : x ∉ n :: stack := by
          intro old
          rcases List.mem_cons.mp old with same | old
          · exact here same
          · exact off (kept x old)
        exact (stays m).mpr (Or.inr (explored.looked x held notStacked m neighbour))
    · exact absurd stacked off

/-- What the search is for. -/
structure Least (next : K → List K) (start : K → Prop) (out : BTreeSet K) : Prop where
  roots : ∀ r, start r → r ∈ out
  closed : ∀ n ∈ out, ∀ m ∈ next n, m ∈ out
  within : ∀ X : Set K, (∀ r, start r → r ∈ X) → (∀ n ∈ X, ∀ m ∈ next n, m ∈ X) →
    ∀ n ∈ out, n ∈ X

theorem run_least {next : K → List K} {all : List K} (bounded : ∀ n, ∀ m ∈ next n, m ∈ all)
    {pops : Nat} {state : State K} (explored : Explored next state)
    (enough : left all state ≤ pops) :
    Least next (· ∈ state.1) (run next pops state) := by
  induction pops generalizing state with
  | zero =>
    have none' : state.2 = [] := by
      rw [left] at enough
      exact List.eq_nil_of_length_eq_zero (by omega)
    rw [run]
    refine ⟨fun _ mem => mem, fun n mem => ?_, fun _ roots _ n mem => roots n mem⟩
    exact explored.looked n mem (by rw [none']; exact List.not_mem_nil)
  | succ pops ih =>
    obtain ⟨seen, stack⟩ := state
    cases stack with
    | nil =>
      rw [run]
      refine ⟨fun _ mem => mem, fun n mem => ?_, fun _ roots _ n mem => roots n mem⟩
      exact explored.looked n mem List.not_mem_nil
    | cons n stack =>
      rw [run]
      have less := push_all_left (next n) (bounded n) (seen, stack)
      have rest := ih (explored_pop explored) (by
        simp only [left, List.length_cons] at enough less ⊢
        omega)
      have stays := fun m => push_all_seen (next n) (seen, stack) m
      refine ⟨fun r mem => rest.roots r ((stays r).mpr (Or.inr mem)), rest.closed, ?_⟩
      intro X roots closed
      apply rest.within X _ closed
      intro r mem
      rcases (stays r).mp mem with neighbour | held
      · exact closed n (roots n (explored.stacked n List.mem_cons_self)) r neighbour
      · exact roots r held

/-- The search from some roots, with a pop for each node there is. -/
theorem search_least {next : K → List K} {all : List K} (bounded : ∀ n, ∀ m ∈ next n, m ∈ all)
    {roots : List K} (inside : ∀ r ∈ roots, r ∈ all) :
    Least next (· ∈ roots) (run next all.length (roots.foldl push (∅, []))) := by
  have seen := fun n => push_all_seen roots (∅, []) n
  obtain ⟨_, new⟩ := push_all_stack roots ((∅, []) : State K)
  have nothing : ∀ n : K, n ∉ (∅ : BTreeSet K) := not_mem_emptyCollection
  have explored : Explored next (roots.foldl push (∅, [])) := by
    refine ⟨push_all_stacked roots (fun x mem => (nomatch mem)), fun n mem off => ?_⟩
    rcases new n mem with held | stacked
    · exact absurd held (nothing n)
    · exact absurd stacked off
  have enough : left all (roots.foldl push (∅, [])) ≤ all.length := by
    apply (push_all_left roots inside (∅, [])).trans
    rw [left, unseen]
    exact List.length_filter_le _ _
  have least := run_least bounded explored enough
  have same : ∀ n, n ∈ (roots.foldl push (∅, [])).1 ↔ n ∈ roots := by
    intro n
    rw [seen]
    exact or_iff_left (nothing n)
  refine ⟨fun r mem => least.roots r ((same r).mpr mem), least.closed, ?_⟩
  intro X held closed
  exact least.within X (fun r mem => held r ((same r).mp mem)) closed

theorem reach_cases (state : State K × List K) (m : K) :
    (reach state m).1 = push state.1 m ∧
      ((m ∈ state.1.1 ∧ (reach state m).2 = state.2) ∨
        (m ∉ state.1.1 ∧ (reach state m).2 = state.2 ++ [m])) := by
  rw [reach]
  rcases push_cases state.1 m with ⟨held, same⟩ | ⟨unheld, _⟩
  · rw [if_pos ((mem_def _ _).mp held)]
    exact ⟨same.symm, Or.inl ⟨held, rfl⟩⟩
  · rw [if_neg (fun held => unheld ((mem_def _ _).mpr held))]
    exact ⟨rfl, Or.inr ⟨unheld, rfl⟩⟩

theorem fresh_reach_all {before : BTreeSet K} (ms : List K) {state : State K × List K}
    (fresh : Fresh before state.1.1 state.2) :
    (ms.foldl reach state).1 = ms.foldl push state.1 ∧
      Fresh before (ms.foldl reach state).1.1 (ms.foldl reach state).2 := by
  induction ms generalizing state with
  | nil => exact ⟨rfl, fresh⟩
  | cons m ms ih =>
    obtain ⟨pushed, out⟩ := reach_cases state m
    have after : Fresh before (reach state m).1.1 (reach state m).2 := by
      rw [pushed]
      rcases push_cases state.1 m with ⟨held, same⟩ | ⟨unheld, new⟩
      · rw [same, (out.resolve_right (fun other => other.1 held)).2]
        exact fresh
      · rw [new, (out.resolve_left (fun other => unheld other.1)).2]
        exact fresh_insert fresh unheld
    rw [List.foldl_cons, List.foldl_cons, ← pushed]
    exact ih after

/-- What the search found is what it has seen at its end and had not at its start. -/
theorem trail_fresh {next : K → List K} {before : BTreeSet K} {pops : Nat}
    {state : State K × List K} (fresh : Fresh before state.1.1 state.2) :
    Fresh before (run next pops state.1) (trail next pops state) := by
  induction pops generalizing state with
  | zero => exact fresh
  | succ pops ih =>
    obtain ⟨⟨seen, stack⟩, out⟩ := state
    cases stack with
    | nil => exact fresh
    | cons n stack =>
      rw [run, trail]
      have after : Fresh before seen out := fresh
      obtain ⟨pushed, rest⟩ := @fresh_reach_all K _ before (next n) ((seen, stack), out) after
      have found := ih rest
      rw [pushed] at found
      exact found

end Worklist
