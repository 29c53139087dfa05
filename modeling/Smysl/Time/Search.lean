import Smysl.Lib.Weighted
import Smysl.Time.Network

/-!
The label-correcting searches of the network solver, with exact sums. Every label
is the weight of a walk, whatever happens. Where no node is lowered more often than
the search allows, the queue runs empty with every arc relaxed, so that the labels
are distances and each is attributed to the least of the arcs tight for it.
-/
namespace Smysl
namespace Stn
open Weighted

/-- The sum of the solver, where none saturates. -/
def exactSum (a b : Int) : Int := a + b

theorem set_at_same {α : Type} (f : Nat → α) (i : Nat) (a : α) : setAt f i a i = a := if_pos rfl

theorem set_at_other {α : Type} (f : Nat → α) {i j : Nat} (a : α) (other : j ≠ i) :
    setAt f i a j = f j := if_neg other

/-! What one arc does. -/

section
variable {n : Nat} {st : Labels} {a : Arc} {cand du : Int}

theorem lower_to_dist : (st.lowerTo n a cand).dist = setAt st.dist a.head (some cand) := by
  rw [Labels.lowerTo]
  dsimp only
  split
  · rfl
  · split <;> rfl

theorem lower_to_cause : (st.lowerTo n a cand).cause = setAt st.cause a.head (some a.cause) := by
  rw [Labels.lowerTo]
  dsimp only
  split
  · rfl
  · split <;> rfl

theorem lower_to_relaxations : (st.lowerTo n a cand).relaxations =
    setAt st.relaxations a.head (st.relaxations a.head + 1) := by
  rw [Labels.lowerTo]
  dsimp only
  split
  · rfl
  · split <;> rfl

theorem lower_to_queue {u : Nat} (mem : u ∈ st.queue) : u ∈ (st.lowerTo n a cand).queue := by
  rw [Labels.lowerTo]
  dsimp only
  split
  · exact mem
  · split
    · exact mem
    · exact List.mem_append_left _ mem

/-- A node that is lowered and not given up on is queued. -/
theorem lower_to_clear (clear : (st.lowerTo n a cand).onCycle = []) :
    st.onCycle = [] ∧ a.head ∈ (st.lowerTo n a cand).queue := by
  rw [Labels.lowerTo] at clear ⊢
  dsimp only at clear ⊢
  split
  · rename_i over_
    rw [if_pos over_] at clear
    exact absurd clear (List.append_ne_nil_of_right_ne_nil _ (List.cons_ne_nil _ _))
  · rename_i within
    rw [if_neg within] at clear
    split
    · rename_i queued
      rw [if_pos queued] at clear
      exact ⟨clear, queued⟩
    · rename_i fresh
      rw [if_neg fresh] at clear
      exact ⟨clear, List.mem_append_right _ (List.mem_singleton.mpr rfl)⟩

theorem lower_to_on_cycle {v : Nat} (mem : v ∈ (st.lowerTo n a cand).onCycle) :
    v ∈ st.onCycle ∨ v = a.head := by
  rw [Labels.lowerTo] at mem
  dsimp only at mem
  split at mem
  · exact (List.mem_append.mp mem).imp id List.mem_singleton.mp
  · split at mem <;> exact Or.inl mem

/-- What an equally short arc leaves: the lesser attribution. -/
theorem tie_cases : ∃ cause, st.tie a = { st with cause := cause } ∧
    (∀ v, v ≠ a.head → cause v = st.cause v) ∧
    (cause a.head = some a.cause ∨
      cause a.head = st.cause a.head ∧ ∃ b, st.cause a.head = some b ∧ b ≤ a.cause) ∧
    (∀ b, st.cause a.head = some b → ∃ c, cause a.head = some c ∧ c ≤ b) := by
  rw [Labels.tie]
  split
  · rename_i less
    refine ⟨_, rfl, fun v other => set_at_other _ _ other, Or.inl (set_at_same _ _ _),
      fun b held => ⟨a.cause, set_at_same _ _ _, ?_⟩⟩
    rw [held, Option.all_some] at less
    exact le_of_lt (of_decide_eq_true less)
  · rename_i notLess
    refine ⟨st.cause, rfl, fun _ _ => rfl, Or.inr ⟨rfl, ?_⟩, fun b held => ⟨b, held, le_rfl⟩⟩
    cases held : st.cause a.head with
    | none =>
      rw [held] at notLess
      exact absurd rfl notLess
    | some b =>
      rw [held, Option.all_some] at notLess
      have above : ¬ a.cause < b := fun less => notLess (decide_eq_true less)
      exact ⟨b, rfl, not_lt.mp above⟩

/-- An arc is too long, or ties, or lowers the node it leads to. -/
theorem relax_cases :
    (∃ d, st.dist a.head = some d ∧ d < du + a.weight ∧ st.relax exactSum n du a = st) ∨
    (st.dist a.head = some (du + a.weight) ∧ st.relax exactSum n du a = st.tie a) ∨
    ((∀ d, st.dist a.head = some d → du + a.weight < d) ∧
      st.relax exactSum n du a = st.lowerTo n a (du + a.weight)) := by
  rw [Labels.relax]
  cases held : st.dist a.head with
  | none => exact Or.inr (Or.inr ⟨fun d none => (nomatch none), rfl⟩)
  | some d =>
    by_cases long : du + a.weight > d
    · exact Or.inl ⟨d, rfl, long, if_pos long⟩
    · by_cases same : du + a.weight = d
      · exact Or.inr (Or.inl ⟨congrArg some same.symm, (if_neg long).trans (if_pos same)⟩)
      · refine Or.inr (Or.inr ⟨fun d' held' => ?_, (if_neg long).trans (if_neg same)⟩)
        cases held'
        omega

end

/-! How long a search can take. -/

/-- Nodes queued, and lowerings still allowed. -/
def measure (n : Nat) (st : Labels) : Nat :=
  st.queue.length + ∑ v ∈ Finset.range n, (n - st.relaxations v)

/-- Before anything is lowered. -/
theorem fresh_measure (n : Nat) {st : Labels} (fresh : st.relaxations = fun _ => 0) :
    measure n st = st.queue.length + n * n := by
  have each (v : Nat) (_ : v ∈ Finset.range n) : n - st.relaxations v = n := by
    rw [fresh]
    exact Nat.sub_zero n
  rw [measure, Finset.sum_congr rfl each, Finset.sum_const, Finset.card_range, smul_eq_mul]

theorem lower_to_length {n : Nat} {st : Labels} {a : Arc} {cand : Int} :
    (st.lowerTo n a cand).queue.length ≤ st.queue.length + 1 ∧
      (n < st.relaxations a.head + 1 →
        (st.lowerTo n a cand).queue.length ≤ st.queue.length) := by
  rw [Labels.lowerTo]
  dsimp only
  split
  · exact ⟨Nat.le_succ _, fun _ => le_rfl⟩
  · rename_i within
    rw [set_at_same] at within
    split
    · exact ⟨Nat.le_succ _, fun _ => le_rfl⟩
    · rw [List.length_append, List.length_singleton]
      exact ⟨le_rfl, fun over_ => absurd over_ within⟩

theorem lower_to_measure {n : Nat} {st : Labels} {a : Arc} {cand : Int} (inside : a.head < n) :
    measure n (st.lowerTo n a cand) ≤ measure n st := by
  have mem : a.head ∈ Finset.range n := Finset.mem_range.mpr inside
  have left := Finset.add_sum_erase (Finset.range n) (fun v => n - st.relaxations v) mem
  have right := Finset.add_sum_erase (Finset.range n)
    (fun v => n - (st.lowerTo n a cand).relaxations v) mem
  have others : ∑ v ∈ (Finset.range n).erase a.head, (n - (st.lowerTo n a cand).relaxations v) =
      ∑ v ∈ (Finset.range n).erase a.head, (n - st.relaxations v) := by
    refine Finset.sum_congr rfl fun v other => ?_
    rw [lower_to_relaxations, set_at_other _ _ (Finset.ne_of_mem_erase other)]
  have here : (st.lowerTo n a cand).relaxations a.head = st.relaxations a.head + 1 := by
    rw [lower_to_relaxations, set_at_same]
  have grown : (st.lowerTo n a cand).queue.length ≤ st.queue.length + 1 ∧ _ := lower_to_length
  obtain ⟨atMost, given⟩ := grown
  rw [measure, measure]
  by_cases over_ : n < st.relaxations a.head + 1
  · have kept := given over_
    omega
  · omega

theorem relax_measure {n : Nat} {st : Labels} {a : Arc} {du : Int} (inside : a.head < n) :
    measure n (st.relax exactSum n du a) ≤ measure n st := by
  rcases @relax_cases n st a du with ⟨_, _, _, same⟩ | ⟨_, same⟩ | ⟨_, same⟩
  · rw [same]
  · obtain ⟨cause, tied, _⟩ := @tie_cases st a
    rw [same, tied]
    exact le_rfl
  · rw [same]
    exact lower_to_measure inside

/-- A search that pops a node and makes the measure no greater runs its queue empty. -/
theorem run_done {n : Nat} {scan : Nat → Labels → Labels}
    (shrinks : ∀ u st, measure n (scan u st) ≤ measure n st) (fuel : Nat) (st : Labels)
    (enough_ : measure n st ≤ fuel) : (run scan fuel st).queue = [] := by
  induction fuel generalizing st with
  | zero =>
    rw [measure] at enough_
    change st.queue = []
    exact List.eq_nil_of_length_eq_zero (by omega)
  | succ fuel ih =>
    rw [run]
    split
    · assumption
    · rename_i u rest queue
      apply ih
      have less := shrinks u { st with queue := rest }
      have popped : measure n { st with queue := rest } + 1 = measure n st := by
        rw [measure, measure, queue, List.length_cons]
        exact Nat.add_right_comm _ _ _
      omega

/-- What every pop and scan keeps, a run keeps. -/
theorem run_keeps {P : Labels → Prop} {scan : Nat → Labels → Labels}
    (step : ∀ u rest st, st.queue = u :: rest → P st → P (scan u { st with queue := rest }))
    (fuel : Nat) (st : Labels) (start : P st) : P (run scan fuel st) := by
  induction fuel generalizing st with
  | zero => exact start
  | succ fuel ih =>
    rw [run]
    split
    · exact start
    · rename_i u rest queue
      exact ih _ (step u rest st queue start)

/-! Labels from one start. -/

section
variable (arcs : Nat → List Arc)

/-- The graph a search walks. -/
def Linked (u v : Nat) (k : Int) : Prop := ∃ a ∈ arcs u, a.head = v ∧ a.weight = k

/-- Labels are weights of walks from the reference, and each but the reference's is attributed
to an arc that is no longer than it says. -/
structure Sound (st : Labels) : Prop where
  start : st.dist reference = some 0
  walks : ∀ v d, st.dist v = some d → Walk (Linked arcs) reference v d
  reached : ∀ v d, st.dist v = some d → v = reference ∨ ∃ b, st.cause v = some b
  caused : ∀ v b, st.cause v = some b → ∃ u, ∃ a ∈ arcs u, a.head = v ∧ a.cause = b ∧
    ∃ du dv, st.dist u = some du ∧ st.dist v = some dv ∧ du + a.weight ≤ dv

/-- An arc from a node at distance `du` improves nothing, in length or in attribution. -/
def Relaxed (st : Labels) (du : Int) (a : Arc) : Prop :=
  ∃ dv, st.dist a.head = some dv ∧ dv ≤ du + a.weight ∧
    (dv = du + a.weight → ∃ b, st.cause a.head = some b ∧ b ≤ a.cause)

/-- The arcs of every node that is not queued, nor the one being scanned, are relaxed. -/
def Clear (scanned : Option Nat) (st : Labels) : Prop :=
  ∀ u du, scanned ≠ some u → st.dist u = some du → u ∉ st.queue → ∀ a ∈ arcs u, Relaxed st du a

variable {arcs} {n : Nat} {st : Labels} {u : Nat} {a : Arc} {du : Int}

theorem Sound.tie {du' : Int} (sound : Sound arcs st) (mem : a ∈ arcs u)
    (held : st.dist u = some du') (low : du' ≤ du) (same : st.dist a.head = some (du + a.weight)) :
    Sound arcs (st.tie a) := by
  obtain ⟨cause, tied, others, here, lesser⟩ := @tie_cases st a
  rw [tied]
  refine ⟨sound.start, sound.walks, fun v d labelled => ?_, fun v b named => ?_⟩
  · by_cases head : v = a.head
    · rcases here with own | ⟨kept, b, held, _⟩
      · exact Or.inr ⟨a.cause, head ▸ own⟩
      · exact Or.inr ⟨b, head ▸ (kept.trans held)⟩
    · exact (sound.reached v d labelled).imp id 
        (fun ⟨b, held⟩ => ⟨b, (others v head).trans held⟩)
  · change cause v = some b at named
    by_cases head : v = a.head
    · subst head
      rcases here with own | ⟨kept, _⟩
      · rw [own] at named
        exact ⟨u, a, mem, rfl, Option.some.inj named, du', du + a.weight, held, same, by omega⟩
      · exact sound.caused _ b (kept ▸ named)
    · rw [others v head] at named
      exact sound.caused v b named

theorem Sound.lower {du' : Int} (sound : Sound arcs st) (mem : a ∈ arcs u)
    (away : a.head ≠ reference) (held : st.dist u = some du') (low : du' ≤ du)
    (walk : Walk (Linked arcs) reference u du)
    (shorter : ∀ d, st.dist a.head = some d → du + a.weight < d) :
    Sound arcs (st.lowerTo n a (du + a.weight)) := by
  constructor
  · rw [lower_to_dist, set_at_other _ _ away.symm]
    exact sound.start
  · intro v d labelled
    rw [lower_to_dist] at labelled
    by_cases head : v = a.head
    · rw [head, set_at_same] at labelled
      cases labelled
      rw [head]
      exact walk.snoc ⟨a, mem, rfl, rfl⟩
    · rw [set_at_other _ _ head] at labelled
      exact sound.walks v d labelled
  · intro v d labelled
    rw [lower_to_dist] at labelled
    rw [lower_to_cause]
    by_cases head : v = a.head
    · rw [head, set_at_same]
      exact Or.inr ⟨_, rfl⟩
    · rw [set_at_other _ _ head] at labelled ⊢
      exact sound.reached v d labelled
  · intro v b named
    rw [lower_to_cause] at named
    rw [lower_to_dist]
    by_cases head : v = a.head
    · rw [head, set_at_same] at named
      refine ⟨u, a, mem, head.symm, Option.some.inj named, ?_⟩
      rw [head, set_at_same]
      by_cases loop : u = a.head
      · -- A loop that lowers its own node is of negative weight.
        have less := shorter du' (loop ▸ held)
        rw [loop, set_at_same]
        exact ⟨_, _, rfl, rfl, by omega⟩
      · rw [set_at_other _ _ loop]
        exact ⟨du', _, held, rfl, by omega⟩
    · rw [set_at_other _ _ head] at named
      obtain ⟨x, a', mem', head', cause', dx, dv, source, target, bound⟩ :=
        sound.caused v b named
      refine ⟨x, a', mem', head', cause', ?_⟩
      rw [set_at_other _ _ head]
      by_cases lowered : x = a.head
      · have less := shorter dx (lowered ▸ source)
        rw [lowered, set_at_same]
        exact ⟨_, dv, rfl, target, by omega⟩
      · rw [set_at_other _ _ lowered]
        exact ⟨dx, dv, source, target, bound⟩

/-- What is relaxed stays so. -/
theorem Relaxed.tie {dx : Int} {a' : Arc} (relaxed : Relaxed st dx a') :
    Relaxed (st.tie a) dx a' := by
  obtain ⟨cause, tied, others, _, lesser⟩ := @tie_cases st a
  obtain ⟨dv, labelled, low, named⟩ := relaxed
  rw [tied]
  refine ⟨dv, labelled, low, fun same => ?_⟩
  obtain ⟨b, held, least⟩ := named same
  by_cases head : a'.head = a.head
  · obtain ⟨c, own, below⟩ := lesser b (head ▸ held)
    exact ⟨c, by rw [head]; exact own, le_trans below least⟩
  · exact ⟨b, (others _ head).trans held, least⟩

theorem Relaxed.lower {dx cand : Int} {a' : Arc} (relaxed : Relaxed st dx a')
    (shorter : ∀ d, st.dist a.head = some d → cand < d) :
    Relaxed (st.lowerTo n a cand) dx a' := by
  obtain ⟨dv, labelled, low, named⟩ := relaxed
  rw [Relaxed, lower_to_dist, lower_to_cause]
  by_cases head : a'.head = a.head
  · have less := shorter dv (head ▸ labelled)
    rw [head, set_at_same]
    exact ⟨cand, rfl, by omega, fun same => by omega⟩
  · rw [set_at_other _ _ head, set_at_other _ _ head]
    exact ⟨dv, labelled, low, named⟩

theorem Relaxed.relax {dx : Int} {a' : Arc} (relaxed : Relaxed st dx a') :
    Relaxed (st.relax exactSum n du a) dx a' := by
  rcases @relax_cases n st a du with ⟨_, _, _, same⟩ | ⟨_, same⟩ | ⟨shorter, same⟩
  · rwa [same]
  · rw [same]
    exact relaxed.tie
  · rw [same]
    exact relaxed.lower shorter

/-- An arc is relaxed once it has been. -/
theorem relax_relaxed : Relaxed (st.relax exactSum n du a) du a := by
  rcases @relax_cases n st a du with ⟨d, held, less, same⟩ | ⟨held, same⟩ | ⟨_, same⟩
  · rw [same]
    exact ⟨d, held, by omega, fun eq => by omega⟩
  · obtain ⟨cause, tied, _, here, _⟩ := @tie_cases st a
    rw [same, tied]
    refine ⟨_, held, le_rfl, fun _ => ?_⟩
    rcases here with own | ⟨kept, b, held, low⟩
    · exact ⟨_, own, le_rfl⟩
    · exact ⟨b, kept.trans held, low⟩
  · rw [same, Relaxed, lower_to_dist, lower_to_cause, set_at_same, set_at_same]
    exact ⟨_, rfl, le_rfl, fun _ => ⟨_, rfl, le_rfl⟩⟩

theorem Clear.relax {scanned : Option Nat} (clear : Clear arcs scanned st)
    (onward : (st.relax exactSum n du a).onCycle = []) :
    Clear arcs scanned (st.relax exactSum n du a) := by
  intro x dx apart labelled unqueued a' mem'
  rcases @relax_cases n st a du with ⟨_, _, _, same⟩ | ⟨_, same⟩ | ⟨shorter, same⟩
  · rw [same] at labelled unqueued ⊢
    exact clear x dx apart labelled unqueued a' mem'
  · obtain ⟨cause, tied, _⟩ := @tie_cases st a
    have relaxed : Relaxed st dx a' := by
      rw [same, tied] at labelled unqueued
      exact clear x dx apart labelled unqueued a' mem'
    rw [same]
    exact relaxed.tie
  · rw [same] at onward labelled unqueued ⊢
    by_cases head : x = a.head
    · exact absurd (head ▸ (lower_to_clear onward).2) unqueued
    · rw [lower_to_dist, set_at_other _ _ head] at labelled
      have before : x ∉ st.queue := fun mem => unqueued (lower_to_queue mem)
      exact (clear x dx apart labelled before a' mem').lower shorter

/-- Relaxing only adds to the nodes given up on. -/
theorem relax_on_cycle (onward : (st.relax exactSum n du a).onCycle = []) : st.onCycle = [] := by
  rcases @relax_cases n st a du with ⟨_, _, _, same⟩ | ⟨_, same⟩ | ⟨_, same⟩
  · rwa [same] at onward
  · obtain ⟨cause, tied, _⟩ := @tie_cases st a
    rwa [same, tied] at onward
  · rw [same] at onward
    exact (lower_to_clear onward).1

theorem Sound.relax {du' : Int} (sound : Sound arcs st) (mem : a ∈ arcs u)
    (away : a.head ≠ reference) (held : st.dist u = some du') (low : du' ≤ du)
    (walk : Walk (Linked arcs) reference u du) : Sound arcs (st.relax exactSum n du a) := by
  rcases @relax_cases n st a du with ⟨_, _, _, same⟩ | ⟨tied, same⟩ | ⟨shorter, same⟩
  · rwa [same]
  · rw [same]
    exact sound.tie mem held low tied
  · rw [same]
    exact sound.lower mem away held low walk shorter

/-- A node's own label after an arc of it: the one that was read, or a lower one, and then the
node is queued again. -/
theorem relax_source {du' : Int} (held : st.dist u = some du') (low : du' ≤ du) :
    ∃ dw ≤ du, (st.relax exactSum n du a).dist u = some dw ∧
      ((st.relax exactSum n du a).onCycle = [] →
        (du' = du ∨ u ∈ st.queue) → dw = du ∨ u ∈ (st.relax exactSum n du a).queue) := by
  rcases @relax_cases n st a du with ⟨_, _, _, same⟩ | ⟨_, same⟩ | ⟨shorter, same⟩
  · rw [same]
    exact ⟨du', low, held, fun _ before => before⟩
  · obtain ⟨cause, tied, _⟩ := @tie_cases st a
    rw [same, tied]
    exact ⟨du', low, held, fun _ before => before⟩
  · rw [same, lower_to_dist]
    by_cases loop : u = a.head
    · have less := shorter du' (loop ▸ held)
      rw [loop, set_at_same]
      exact ⟨_, by omega, rfl, fun onward _ => Or.inr (lower_to_clear onward).2⟩
    · rw [set_at_other _ _ loop]
      exact ⟨du', low, held, fun _ before => before.imp id lower_to_queue⟩

/-- In the middle of a scan of `u`, whose label was read as `du`: the arcs in `done` are
relaxed. -/
structure Scanning (arcs : Nat → List Arc) (u : Nat) (du : Int) (done : List Arc) (st : Labels) :
    Prop where
  sound : Sound arcs st
  held : ∃ dw ≤ du, st.dist u = some dw ∧ (st.onCycle = [] → dw = du ∨ u ∈ st.queue)
  relaxed : ∀ a ∈ done, Relaxed st du a
  clear : st.onCycle = [] → Clear arcs (some u) st

theorem Scanning.relax {done : List Arc} (scanning : Scanning arcs u du done st) (mem : a ∈ arcs u)
    (away : a.head ≠ reference) (walk : Walk (Linked arcs) reference u du) :
    Scanning arcs u du (done ++ [a]) (st.relax exactSum n du a) := by
  obtain ⟨du', low, held, before⟩ := scanning.held
  constructor
  · exact scanning.sound.relax mem away held low walk
  · obtain ⟨dw, low', held', after⟩ := @relax_source n st u a du du' held low
    exact ⟨dw, low', held', fun onward => after onward (before (relax_on_cycle onward))⟩
  · intro a' mem'
    rcases List.mem_append.mp mem' with earlier | last
    · exact (scanning.relaxed a' earlier).relax
    · rw [List.mem_singleton.mp last]
      exact relax_relaxed
  · intro onward
    exact (scanning.clear (relax_on_cycle onward)).relax onward

theorem Scanning.fold {done todo : List Arc} (scanning : Scanning arcs u du done st)
    (mem : ∀ a ∈ todo, a ∈ arcs u) (away : ∀ a ∈ todo, a.head ≠ reference)
    (walk : Walk (Linked arcs) reference u du) :
    Scanning arcs u du (done ++ todo) (todo.foldl (Labels.relax exactSum n du) st) := by
  induction todo generalizing done st with
  | nil => rwa [List.append_nil]
  | cons a todo ih =>
    rw [List.forall_mem_cons] at mem away
    have one : Scanning arcs u du (done ++ [a]) (st.relax exactSum n du a) :=
      scanning.relax mem.1 away.1 walk
    have next := ih one mem.2 away.2
    rwa [List.append_assoc, List.singleton_append] at next

/-- A node is scanned with the label read before its arcs. -/
def scanFrom (n : Nat) (arcs : Nat → List Arc) (u : Nat) (st : Labels) : Labels :=
  match st.dist u with
  | none => st
  | some du => (arcs u).foldl (Labels.relax exactSum n du) st

/-- Between scans. -/
structure Searching (arcs : Nat → List Arc) (st : Labels) : Prop where
  sound : Sound arcs st
  clear : st.onCycle = [] → Clear arcs none st

theorem Searching.scan {rest : List Nat} (away : ∀ a ∈ arcs u, a.head ≠ reference)
    (queue : st.queue = u :: rest) (searching : Searching arcs st) :
    Searching arcs (scanFrom n arcs u { st with queue := rest }) := by
  have sound : Sound arcs { st with queue := rest } :=
    ⟨searching.sound.start, searching.sound.walks, searching.sound.reached,
      searching.sound.caused⟩
  have popped : st.onCycle = [] → Clear arcs (some u) { st with queue := rest } := by
    intro none_ x dx apart labelled unqueued
    refine searching.clear none_ x dx (fun none => nomatch none) labelled (fun mem => ?_)
    rw [queue] at mem
    rcases List.mem_cons.mp mem with same | mem
    · exact apart (congrArg some same.symm)
    · exact unqueued mem
  rw [scanFrom]
  cases read : st.dist u with
  | none =>
    refine ⟨sound, fun none_ x dx _ labelled unqueued => ?_⟩
    refine popped none_ x dx (fun same => ?_) labelled unqueued
    have labelled' : st.dist x = some dx := labelled
    rw [← Option.some.inj same, read] at labelled'
    cases labelled'
  | some du =>
    have start : Scanning arcs u du [] { st with queue := rest } :=
      ⟨sound, ⟨du, le_rfl, read, fun _ => Or.inl rfl⟩, List.forall_mem_nil _, popped⟩
    have walk := searching.sound.walks u du read
    have done := @Scanning.fold arcs n _ u du [] (arcs u) start (fun _ mem => mem) away walk
    refine ⟨done.sound, fun none_ x dx _ labelled unqueued a mem => ?_⟩
    by_cases same : x = u
    · obtain ⟨dw, _, held, queued⟩ := done.held
      rw [same] at labelled unqueued mem
      rw [labelled] at held
      cases held
      rcases queued none_ with read' | again
      · rw [read']
        exact done.relaxed a mem
      · exact absurd again unqueued
    · exact done.clear none_ x dx (fun eq => same (Option.some.inj eq).symm) labelled unqueued a mem

theorem scan_from_measure (inside : ∀ a ∈ arcs u, a.head < n) :
    measure n (scanFrom n arcs u st) ≤ measure n st := by
  rw [scanFrom]
  cases st.dist u with
  | none => exact le_rfl
  | some du =>
    dsimp only
    generalize arcs u = as at inside
    induction as generalizing st with
    | nil => exact le_rfl
    | cons a as ih =>
      rw [List.forall_mem_cons] at inside
      exact (ih inside.2).trans (relax_measure inside.1)

/-- The labels a search starts with. -/
def startLabels : Labels where
  dist := setAt (fun _ => none) reference (some 0)
  cause := fun _ => none
  relaxations := fun _ => 0
  queue := [reference]
  onCycle := []

theorem searching_start : Searching arcs startLabels := by
  have zero : startLabels.dist = setAt (fun _ => none) reference (some 0) := rfl
  have only (v : Nat) (d : Int) (labelled : startLabels.dist v = some d) :
      v = reference ∧ d = 0 := by
    by_cases here : v = reference
    · rw [here, zero, set_at_same] at labelled
      exact ⟨here, (Option.some.inj labelled).symm⟩
    · rw [zero, set_at_other _ _ here] at labelled
      cases labelled
  refine ⟨⟨?_, fun v d labelled => ?_, fun v d labelled => ?_, fun _ _ none => nomatch none⟩,
    fun _ u du _ labelled unqueued => ?_⟩
  · rw [zero, set_at_same]
  · obtain ⟨rfl, rfl⟩ := only v d labelled
    exact .nil
  · exact Or.inl (only v d labelled).1
  · exact absurd (List.mem_singleton.mpr (only u du labelled).1) unqueued

variable (arcs n) in
/-- A search from the reference along `arcs`. -/
def searched : Labels := run (scanFrom n arcs) (enough n) startLabels

section
variable (away : ∀ u, ∀ a ∈ arcs u, a.head ≠ reference) (inside : ∀ u, ∀ a ∈ arcs u, a.head < n)
include away inside

theorem searched_sound : Searching arcs (searched arcs n) ∧ (searched arcs n).queue = [] := by
  constructor
  · exact run_keeps (fun u rest st queue searching => searching.scan (away u) queue) _ _
      searching_start
  · refine run_done (fun u st => scan_from_measure (inside u)) _ _ ?_
    have one : startLabels.queue.length = 1 := rfl
    rw [fresh_measure n rfl, enough, one]
    omega

variable (onward : (searched arcs n).onCycle = [])
include onward

/-- A search that gives up on no node leaves every arc relaxed. -/
theorem searched_relaxed (u : Nat) (du : Int) (labelled : (searched arcs n).dist u = some du) :
    ∀ a ∈ arcs u, Relaxed (searched arcs n) du a := by
  obtain ⟨searching, emptied⟩ := searched_sound away inside
  refine searching.clear onward u du (fun none => nomatch none) labelled ?_
  rw [emptied]
  exact List.not_mem_nil

/-- The labels are the distances. -/
theorem searched_distance (v : Nat) (d : Int) :
    (searched arcs n).dist v = some d ↔ Distance (Linked arcs) reference v d := by
  have sound := (searched_sound away inside).1.sound
  refine Settled.distance_iff ?_ ⟨0, le_rfl, sound.start⟩ sound.walks v d
  rintro u du labelled v k ⟨a, mem, rfl, rfl⟩
  obtain ⟨dv, held, low, _⟩ := searched_relaxed away inside onward u du labelled a mem
  exact ⟨dv, held, low⟩

end

variable (arcs) in
/-- What is tight for a node: the last arcs of its shortest walks. -/
def tightCauses (v : Nat) : Set Nat :=
  { b | ∃ u, ∃ a ∈ arcs u, a.head = v ∧ a.cause = b ∧
    ∃ du, Distance (Linked arcs) reference u du ∧
      Distance (Linked arcs) reference v (du + a.weight) }

/-- Each node is attributed to the least of what is tight for it. -/
theorem searched_cause (away : ∀ u, ∀ a ∈ arcs u, a.head ≠ reference)
    (inside : ∀ u, ∀ a ∈ arcs u, a.head < n) (onward : (searched arcs n).onCycle = []) {v : Nat}
    (subject : v ≠ reference) (b : Nat) :
    (searched arcs n).cause v = some b ↔ IsLeast (tightCauses arcs v) b := by
  have sound := (searched_sound away inside).1.sound
  have distance := searched_distance away inside onward
  have least (b : Nat) (named : (searched arcs n).cause v = some b) :
      IsLeast (tightCauses arcs v) b := by
    constructor
    · obtain ⟨u, a, mem, head, cause, du, dv, source, target, bound⟩ := sound.caused v b named
      refine ⟨u, a, mem, head, cause, du, (distance u du).mp source, ?_⟩
      obtain ⟨dv', held, low, _⟩ := searched_relaxed away inside onward u du source a mem
      rw [head, target] at held
      cases held
      have same : du + a.weight = dv := by omega
      rw [same]
      exact (distance v dv).mp target
    · rintro c ⟨u, a, mem, rfl, rfl, du, source, target⟩
      have labelled := (distance u du).mpr source
      obtain ⟨dv, held, _, first⟩ := searched_relaxed away inside onward u du labelled a mem
      rw [(distance _ _).mpr target] at held
      obtain ⟨b', named', low⟩ := first (Option.some.inj held).symm
      rw [named] at named'
      cases named'
      exact low
  refine ⟨least b, fun lowest => ?_⟩
  obtain ⟨u, a, mem, head, _, du, _, target⟩ := lowest.1
  rcases sound.reached v _ ((distance v _).mpr target) with same | ⟨c, named⟩
  · exact absurd same subject
  · rw [named, (least c named).unique lowest]

/-! Labels from everywhere. -/

/-- An arc improves nothing, in length. -/
def Short (st : Labels) (u : Nat) (a : Arc) : Prop :=
  ∃ du dv, st.dist u = some du ∧ st.dist a.head = some dv ∧ dv ≤ du + a.weight

/-- One arc of a scan whose node's label is read again for each arc. -/
def scanArc (n u : Nat) (st : Labels) (a : Arc) : Labels :=
  match st.dist u with
  | none => st
  | some du =>
    if (st.dist a.head).any (fun d => d ≤ exactSum du a.weight) then st
    else st.lowerTo n a (exactSum du a.weight)

/-- Every node is labelled, and while none is given up on every arc that leaves an unqueued node
is short, but for those of the node being scanned. -/
structure Circling (arcs : Nat → List Arc) (scanned : Option Nat) (st : Labels) : Prop where
  labelled : ∀ v, ∃ d, st.dist v = some d
  subjects : ∀ v ∈ st.onCycle, v ≠ reference
  short : st.onCycle = [] → ∀ u, scanned ≠ some u → u ∉ st.queue → ∀ a ∈ arcs u, Short st u a

theorem scan_arc_cases (labelled : ∀ v, ∃ d, st.dist v = some d) :
    (scanArc n u st a = st ∧ Short st u a) ∨
      ∃ du dv, st.dist u = some du ∧ st.dist a.head = some dv ∧ du + a.weight < dv ∧
        scanArc n u st a = st.lowerTo n a (du + a.weight) := by
  obtain ⟨du, source⟩ := labelled u
  obtain ⟨dv, target⟩ := labelled a.head
  rw [scanArc, source, target]
  by_cases short : dv ≤ du + a.weight
  · exact Or.inl ⟨if_pos (decide_eq_true short), du, dv, source, target, short⟩
  · exact Or.inr ⟨du, dv, rfl, rfl, not_le.mp short, if_neg (fun holds =>
      short (of_decide_eq_true holds))⟩

theorem Short.lower {x : Nat} {a' : Arc} {cand dv : Int} (short : Short st x a')
    (apart : x ≠ a.head) (held : st.dist a.head = some dv) (less : cand < dv) :
    Short (st.lowerTo n a cand) x a' := by
  obtain ⟨dx, dy, source, target, low⟩ := short
  rw [Short, lower_to_dist, set_at_other _ _ apart]
  by_cases head : a'.head = a.head
  · rw [head, held] at target
    cases target
    rw [head, set_at_same]
    exact ⟨dx, cand, source, rfl, by omega⟩
  · rw [set_at_other _ _ head]
    exact ⟨dx, dy, source, target, low⟩

theorem Circling.arc {scanned : Option Nat} (circling : Circling arcs scanned st)
    (away : a.head ≠ reference) : Circling arcs scanned (scanArc n u st a) := by
  rcases @scan_arc_cases n st u a circling.labelled with
    ⟨same, _⟩ | ⟨du, dv, source, target, less, same⟩
  · rwa [same]
  · rw [same]
    refine ⟨fun v => ?_, fun v mem => ?_, fun onward x apart unqueued a' mem' => ?_⟩
    · rw [lower_to_dist]
      by_cases head : v = a.head
      · rw [head, set_at_same]
        exact ⟨_, rfl⟩
      · rw [set_at_other _ _ head]
        exact circling.labelled v
    · rcases lower_to_on_cycle mem with earlier | rfl
      · exact circling.subjects v earlier
      · exact away
    · have clear := lower_to_clear onward
      have other : x ≠ a.head := fun same => unqueued (same ▸ clear.2)
      have before : x ∉ st.queue := fun mem => unqueued (lower_to_queue mem)
      exact (circling.short clear.1 x apart before a' mem').lower other target less

/-- In the middle of a scan of `u`. -/
structure Going (arcs : Nat → List Arc) (u : Nat) (done : List Arc) (st : Labels) : Prop where
  circling : Circling arcs (some u) st
  done : st.onCycle = [] → u ∈ st.queue ∨ ∀ a ∈ done, Short st u a

theorem Going.arc {done : List Arc} (going : Going arcs u done st) (away : a.head ≠ reference) :
    Going arcs u (done ++ [a]) (scanArc n u st a) := by
  refine ⟨going.circling.arc away, fun onward => ?_⟩
  rcases @scan_arc_cases n st u a going.circling.labelled with
    ⟨same, short⟩ | ⟨du, dv, source, target, less, same⟩
  · rw [same] at onward ⊢
    refine (going.done onward).imp id (fun earlier a' mem => ?_)
    rcases List.mem_append.mp mem with before | last
    · exact earlier a' before
    · rw [List.mem_singleton.mp last]
      exact short
  · rw [same] at onward ⊢
    have clear := lower_to_clear onward
    by_cases loop : u = a.head
    · exact Or.inl (loop ▸ clear.2)
    · refine (going.done clear.1).imp lower_to_queue (fun earlier a' mem => ?_)
      rcases List.mem_append.mp mem with before | last
      · exact (earlier a' before).lower loop target less
      · rw [List.mem_singleton.mp last, Short, lower_to_dist, set_at_other _ _ loop, set_at_same]
        exact ⟨du, _, source, rfl, le_rfl⟩

theorem Going.fold {done todo : List Arc} (going : Going arcs u done st)
    (away : ∀ a ∈ todo, a.head ≠ reference) :
    Going arcs u (done ++ todo) (todo.foldl (scanArc n u) st) := by
  induction todo generalizing done st with
  | nil => rwa [List.append_nil]
  | cons a todo ih =>
    rw [List.forall_mem_cons] at away
    have one : Going arcs u (done ++ [a]) (scanArc n u st a) := going.arc away.1
    have next := ih one away.2
    rwa [List.append_assoc, List.singleton_append] at next

theorem Circling.scan {rest : List Nat} (away : ∀ a ∈ arcs u, a.head ≠ reference)
    (queue : st.queue = u :: rest) (circling : Circling arcs none st) :
    Circling arcs none ((arcs u).foldl (scanArc n u) { st with queue := rest }) := by
  have start : Going arcs u [] { st with queue := rest } := by
    refine ⟨⟨circling.labelled, circling.subjects, fun onward x apart unqueued => ?_⟩,
      fun _ => Or.inr (List.forall_mem_nil _)⟩
    refine circling.short onward x (fun none => nomatch none) (fun mem => ?_)
    rw [queue] at mem
    rcases List.mem_cons.mp mem with same | mem
    · exact apart (congrArg some same.symm)
    · exact unqueued mem
  have going := @Going.fold arcs n _ u [] (arcs u) start away
  refine ⟨going.circling.labelled, going.circling.subjects, fun onward x _ unqueued a mem => ?_⟩
  by_cases same : x = u
  · rw [same] at unqueued mem ⊢
    rcases going.done onward with again | short
    · exact absurd again unqueued
    · exact short a mem
  · exact going.circling.short onward x (fun eq => same (Option.some.inj eq).symm) unqueued a mem

theorem scan_arc_measure (inside : a.head < n) : measure n (scanArc n u st a) ≤ measure n st := by
  rw [scanArc]
  split
  · exact le_rfl
  · split
    · exact le_rfl
    · exact lower_to_measure inside

theorem scan_arcs_measure {as : List Arc} (inside : ∀ a ∈ as, a.head < n) :
    measure n (as.foldl (scanArc n u) st) ≤ measure n st := by
  induction as generalizing st with
  | nil => exact le_rfl
  | cons a as ih =>
    rw [List.forall_mem_cons] at inside
    exact (ih inside.2).trans (scan_arc_measure inside.1)

end

end Stn
end Smysl
