import Mathlib.Data.Set.Image
import Mathlib.Logic.Function.Basic

/-!
Nodes that are named by what they hold. A node that follows its references to
other names is another node, so what names it has to follow in turn. One sweep
settles this when each node comes after those that move under it.
-/
structure Pointing (N U : Type) where
  refs : N → Set U
  /-- The node with each of its references followed. -/
  point : (U → U) → N → N
  address : N → U
  refs_point : ∀ f n, refs (point f n) = f '' refs n
  point_congr : ∀ f g n, (∀ r ∈ refs n, f r = g r) → point f n = point g n
  point_point : ∀ f g n, point f (point g n) = point (f ∘ g) n
  point_id : ∀ n, point id n = n

namespace Pointing
variable {N U : Type} (P : Pointing N U)

/-- A node with no reference to follow stays what it is. -/
theorem point_still {f : U → U} {n : N} (still : ∀ r ∈ P.refs n, f r = r) : P.point f n = n :=
  (P.point_congr f id n still).trans (P.point_id n)

/-- Where each name ends up: a replaced one where its replacement does, a held one at the
name of what is held with its references settled. -/
structure Settlement (held : U → Option N) (newest : U → Option U) (settled : U → U) : Prop where
  replaced : ∀ k h, newest k = some h → settled k = settled h
  standing : ∀ u n, newest u = none → held u = some n → settled u = P.address (P.point settled n)
  absent : ∀ r, newest r = none → held r = none → settled r = r

section
variable [DecidableEq U]

/-- What the sweep knows after a node: where the node's name now leads. -/
def visit (remap : U → U) (n : N) : U → U :=
  if P.address (P.point remap n) = P.address n then remap
  else Function.update remap (P.address n) (P.address (P.point remap n))

def sweep : (U → U) → List N → List N
  | _, [] => []
  | remap, n :: rest => P.point remap n :: sweep (P.visit remap n) rest

/-- A sweep that has nothing to follow leaves every node. -/
theorem sweep_still (nodes : List N) : P.sweep id nodes = nodes := by
  induction nodes with
  | nil => rfl
  | cons n rest ih =>
    have unmoved : P.visit id n = id := by
      rw [visit, P.point_id, if_pos rfl]
    rw [sweep, unmoved, ih, P.point_id]

/-- Each node comes after the ones that move under it, and moves to where its name is to
end up. -/
structure Ordered (settled : U → U) (nodes : List N) : Prop where
  lands : ∀ n ∈ nodes, P.address (P.point settled n) ≠ P.address n →
    (∃ m ∈ nodes, P.address n ∈ P.refs m) →
      P.address (P.point settled n) = settled (P.address n)
  selfless : ∀ n ∈ nodes, P.address (P.point settled n) ≠ P.address n → P.address n ∉ P.refs n
  order : nodes.Pairwise fun n m =>
    P.address (P.point settled m) ≠ P.address m → P.address m ∉ P.refs n

/-- The sweep settles every reference, where it starts out right about every name but those
of the nodes still to move. -/
theorem sweep_settles {settled : U → U} {nodes : List N} (ordered : P.Ordered settled nodes)
    {remap : U → U}
    (start : ∀ n ∈ nodes, ∀ r ∈ P.refs n, remap r = settled r ∨
      ∃ m ∈ nodes, P.address m = r ∧ P.address (P.point settled m) ≠ P.address m) :
    P.sweep remap nodes = nodes.map (P.point settled) := by
  induction nodes generalizing remap with
  | nil => rfl
  | cons n rest ih =>
    obtain ⟨first, later⟩ := List.pairwise_cons.mp ordered.order
    have here : P.point remap n = P.point settled n := by
      apply P.point_congr
      intro r names
      rcases start n List.mem_cons_self r names with same | ⟨m, mem, named, moves⟩
      · exact same
      · rw [← named] at names
        rcases List.mem_cons.mp mem with self | mem
        · rw [self] at moves names
          exact absurd names (ordered.selfless n List.mem_cons_self moves)
        · exact absurd names (first m mem moves)
    rw [sweep, here, List.map_cons]
    congr 1
    apply ih
    · refine ⟨?_, ?_, later⟩
      · intro m mem moves named
        obtain ⟨k, held, names⟩ := named
        exact ordered.lands m (List.mem_cons_of_mem n mem) moves
          ⟨k, List.mem_cons_of_mem n held, names⟩
      · intro m mem moves
        exact ordered.selfless m (List.mem_cons_of_mem n mem) moves
    · intro m mem r names
      rw [visit, here]
      have before := start m (List.mem_cons_of_mem n mem) r names
      by_cases still : P.address (P.point settled n) = P.address n
      · rw [if_pos still]
        rcases before with same | ⟨k, held, named, moves⟩
        · exact Or.inl same
        · rcases List.mem_cons.mp held with self | held
          · rw [self] at moves
            exact absurd still moves
          · exact Or.inr ⟨k, held, named, moves⟩
      · rw [if_neg still]
        by_cases this : r = P.address n
        · apply Or.inl
          rw [this, Function.update_self]
          apply ordered.lands n List.mem_cons_self still
          exact ⟨m, List.mem_cons_of_mem n mem, this ▸ names⟩
        · rw [Function.update_of_ne this]
          rcases before with same | ⟨k, held, named, moves⟩
          · exact Or.inl same
          · rcases List.mem_cons.mp held with self | held
            · rw [self] at named
              exact absurd named.symm this
            · exact Or.inr ⟨k, held, named, moves⟩

end

/-- The head of what is named: its newest replacement, or itself. -/
def head (newest : U → Option U) (r : U) : U := (newest r).getD r

section
variable {P} {held : U → Option N} {newest : U → Option U} {settled : U → U}

theorem Settlement.settled_head (settlement : P.Settlement held newest settled) (r : U) :
    settled (head newest r) = settled r := by
  rw [head]
  cases replaced : newest r with
  | none => rfl
  | some h => exact (settlement.replaced r h replaced).symm

theorem Settlement.point_head (settlement : P.Settlement held newest settled) (n : N) :
    P.point settled (P.point (head newest) n) = P.point settled n := by
  rw [P.point_point]
  apply P.point_congr
  intro r _
  exact settlement.settled_head r

/-- No name that is replaced is left once the heads are followed. -/
theorem head_ends (ends : ∀ k h, newest k = some h → newest h = none) (r : U) :
    newest (head newest r) = none := by
  rw [head]
  cases replaced : newest r with
  | none => exact replaced
  | some h => exact ends r h replaced

theorem refs_head (ends : ∀ k h, newest k = some h → newest h = none) {n : N} {r : U}
    (names : r ∈ P.refs (P.point (head newest) n)) : newest r = none := by
  rw [P.refs_point] at names
  obtain ⟨r', _, same⟩ := names
  rw [← same]
  exact head_ends ends r'

end

/-- The nodes at hand, under their names, in the order of the sweep: none is replaced, and
each name that is held and not replaced is among them. -/
structure Standing (held : U → Option N) (newest : U → Option U) (es : List (U × N)) : Prop where
  present : ∀ e ∈ es, held e.1 = some e.2
  unreplaced : ∀ e ∈ es, newest e.1 = none
  all : ∀ u n, held u = some n → newest u = none → (u, n) ∈ es

/-- No node both has a reference replaced and moves further, unless nothing names it, and
each node that moves only because of what moved under it comes before what names it. -/
structure Followable (newest : U → Option U) (settled : U → U) (es : List (U × N)) : Prop where
  once : ∀ e ∈ es, P.address (P.point (head newest) e.2) ≠ e.1 →
    settled e.1 = P.address (P.point (head newest) e.2) ∨
      ∀ d ∈ es, e.1 ∉ P.refs (P.point (head newest) d.2) ∧
        P.address (P.point (head newest) e.2) ∉ P.refs (P.point (head newest) d.2)
  selfless : ∀ e ∈ es, settled e.1 ≠ e.1 → P.address (P.point (head newest) e.2) = e.1 →
    e.1 ∉ P.refs (P.point (head newest) e.2)
  order : es.Pairwise fun d e => settled e.1 ≠ e.1 →
    P.address (P.point (head newest) e.2) = e.1 → e.1 ∉ P.refs (P.point (head newest) d.2)

variable {P} {held : U → Option N} {newest : U → Option U} {settled : U → U} {es : List (U × N)}

/-- A node that moves on from its re-pointed form, and is named by that form's name, has had
no reference replaced. -/
theorem Followable.cascaded (followable : P.Followable newest settled es)
    (settlement : P.Settlement held newest settled) (standing : Standing held newest es)
    {e d : U × N} (mem : e ∈ es) (mem' : d ∈ es)
    (moves : P.address (P.point settled (P.point (head newest) e.2)) ≠
      P.address (P.point (head newest) e.2))
    (names : P.address (P.point (head newest) e.2) ∈ P.refs (P.point (head newest) d.2)) :
    P.address (P.point (head newest) e.2) = e.1 ∧ settled e.1 ≠ e.1 := by
  have lands := settlement.standing e.1 e.2 (standing.unreplaced e mem) (standing.present e mem)
  rw [settlement.point_head, ← lands] at moves
  by_cases direct : P.address (P.point (head newest) e.2) = e.1
  · rw [direct] at moves
    exact ⟨direct, moves⟩
  · rcases followable.once e mem direct with same | unnamed
    · exact absurd same moves
    · exact absurd names (unnamed d mem').2

/-- Re-pointing the nodes onto the newest replacements and then sweeping them settles them. -/
theorem Followable.sweep_repointed [DecidableEq U] (followable : P.Followable newest settled es)
    (settlement : P.Settlement held newest settled) (standing : Standing held newest es)
    (ends : ∀ k h, newest k = some h → newest h = none) {remap : U → U}
    (known : ∀ e ∈ es, remap e.1 = P.address (P.point (head newest) e.2))
    (others : ∀ r, (∀ e ∈ es, e.1 ≠ r) → remap r = r) :
    P.sweep remap (es.map fun e => P.point (head newest) e.2) =
      es.map fun e => P.point settled e.2 := by
  have lands : ∀ e ∈ es, settled e.1 = P.address (P.point settled e.2) := fun e mem =>
    settlement.standing e.1 e.2 (standing.unreplaced e mem) (standing.present e mem)
  have ordered : P.Ordered settled (es.map fun e => P.point (head newest) e.2) := by
    refine ⟨?_, ?_, ?_⟩
    · intro n mem moves named
      obtain ⟨e, held, rfl⟩ := List.mem_map.mp mem
      obtain ⟨m, mem', names⟩ := named
      obtain ⟨d, held', rfl⟩ := List.mem_map.mp mem'
      obtain ⟨direct, _⟩ := followable.cascaded settlement standing held held' moves names
      rw [settlement.point_head, direct, ← lands e held]
    · intro n mem moves names
      obtain ⟨e, held, rfl⟩ := List.mem_map.mp mem
      obtain ⟨direct, moved⟩ := followable.cascaded settlement standing held held moves names
      rw [direct] at names
      exact followable.selfless e held moved direct names
    · rw [List.pairwise_map]
      apply followable.order.imp_of_mem
      intro d e held' held apart moves names
      obtain ⟨direct, moved⟩ := followable.cascaded settlement standing held held' moves names
      rw [direct] at names
      exact apart moved direct names
  rw [P.sweep_settles ordered, List.map_map]
  · apply List.map_congr_left
    intro e _
    exact settlement.point_head e.2
  · intro n mem r names
    obtain ⟨d, held', rfl⟩ := List.mem_map.mp mem
    have unreplaced := refs_head ends names
    cases found : held r with
    | none =>
      apply Or.inl
      rw [settlement.absent r unreplaced found]
      apply others
      intro e mem here
      rw [← here, standing.present e mem] at found
      cases found
    | some n =>
      have at_hand := standing.all r n found unreplaced
      by_cases direct : P.address (P.point (head newest) n) = r
      · by_cases moved : settled r = r
        · apply Or.inl
          rw [known _ at_hand, moved]
          exact direct
        · refine Or.inr ⟨_, List.mem_map.mpr ⟨_, at_hand, rfl⟩, direct, ?_⟩
          dsimp only
          rw [settlement.point_head, direct, ← settlement.standing r n unreplaced found]
          exact moved
      · apply Or.inl
        rcases followable.once _ at_hand direct with same | unnamed
        · rw [known _ at_hand]
          exact same.symm
        · exact absurd names (unnamed d held').1

end Pointing
