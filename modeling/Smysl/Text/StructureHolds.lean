import Smysl.Text.Structure

/-!
The rows a structure is built of are exactly the laminar ones, and the tree is what their
ranges say. Only a range of two places whose order is not that of the text resolves backwards.
-/
namespace Smysl
namespace Structure
variable {p : List Segment} {st : Building} {row : Segment} {length : UInt64}

/-! Adding a row to a table. -/

/-- Of two rows in order, the second starts in the first where they overlap. -/
theorem overlap_iff {a b : Segment} (order : a.start ≤ b.start) :
    Overlap a b ↔ b.start < a.stop ∧ b.start < b.stop := by
  constructor
  · rintro ⟨offset, ⟨_, before⟩, after, inside⟩
    exact ⟨UInt64.lt_of_le_of_lt after before, UInt64.lt_of_le_of_lt after inside⟩
  · rintro ⟨before, some'⟩
    exact ⟨b.start, ⟨order, before⟩, UInt64.le_refl _, some'⟩

/-- What is asked of a row beside those before it. -/
structure Fits (p : List Segment) (row : Segment) (length : UInt64) : Prop where
  forward : row.start ≤ row.stop
  inside : row.stop ≤ length
  order : ∀ a ∈ p, a.start ≤ row.start
  distinct : ∀ a ∈ p, a.locator ≠ row.locator
  nested : ∀ a ∈ p, row.start < a.stop → row.stop ≤ a.stop

theorem laminar_snoc : Laminar (p ++ [row]) length ↔ Laminar p length ∧ Fits p row length := by
  constructor
  · intro laminar
    obtain ⟨order, _, orderRow⟩ := List.pairwise_append.mp laminar.order
    obtain ⟨distinct, _, distinctRow⟩ := List.pairwise_append.mp laminar.distinct
    obtain ⟨nested, _, nestedRow⟩ := List.pairwise_append.mp laminar.nested
    have forward := laminar.forward row (by simp)
    refine ⟨⟨fun a mem => laminar.forward a (by simp [mem]),
      fun a mem => laminar.inside a (by simp [mem]), order, distinct, nested⟩, forward,
      laminar.inside row (by simp), fun a mem => orderRow a mem row (by simp),
      fun a mem => distinctRow a mem row (by simp), fun a mem starts => ?_⟩
    have low := orderRow a mem row (by simp)
    by_cases some' : row.start < row.stop
    · exact (nestedRow a mem row (by simp) ((overlap_iff low).mpr ⟨starts, some'⟩)).2
    · have empty := UInt64.le_antisymm forward (UInt64.not_lt.mp some')
      rw [← empty]
      exact UInt64.le_of_lt starts
  · rintro ⟨laminar, fits⟩
    refine ⟨?_, ?_, ?_, ?_, ?_⟩
    · intro a mem
      rcases List.mem_append.mp mem with held | last
      · exact laminar.forward a held
      · rw [List.mem_singleton.mp last]
        exact fits.forward
    · intro a mem
      rcases List.mem_append.mp mem with held | last
      · exact laminar.inside a held
      · rw [List.mem_singleton.mp last]
        exact fits.inside
    · refine List.pairwise_append.mpr ⟨laminar.order, List.pairwise_singleton _ _, ?_⟩
      intro a mem b last
      rw [List.mem_singleton.mp last]
      exact fits.order a mem
    · refine List.pairwise_append.mpr ⟨laminar.distinct, List.pairwise_singleton _ _, ?_⟩
      intro a mem b last
      rw [List.mem_singleton.mp last]
      exact fits.distinct a mem
    · refine List.pairwise_append.mpr ⟨laminar.nested, List.pairwise_singleton _ _, ?_⟩
      intro a mem b last overlap
      rw [List.mem_singleton.mp last] at overlap ⊢
      have low := fits.order a mem
      exact ⟨low, fits.nested a mem ((overlap_iff low).mp overlap).1⟩

/-- A table is laminar only if its beginnings are. -/
theorem laminar_front {rest : List Segment} (laminar : Laminar (p ++ rest) length) :
    Laminar p length :=
  ⟨fun a mem => laminar.forward a (by simp [mem]), fun a mem => laminar.inside a (by simp [mem]),
    (List.pairwise_append.mp laminar.order).1, (List.pairwise_append.mp laminar.distinct).1,
    (List.pairwise_append.mp laminar.nested).1⟩

/-! What has been built is what the rows so far say. -/

def parentAt (nodes : List Node) (i : Nat) : Option Nat := nodes[i]?.bind Node.parent

/-- The nodes whose parent is this one, in row order. -/
def childrenOf (nodes : List Node) (parent : Option Nat) : List Nat :=
  (List.range nodes.length).filter (fun i => parentAt nodes i == parent)

structure Placed (p : List Segment) (st : Building) : Prop where
  count : st.nodes.length = p.length
  node : ∀ (k : Nat) (row : Segment), p[k]? = some row → ∃ parent,
    st.nodes[k]? = some ⟨k, row.level, ⟨row.start, row.stop⟩, row.locator, (0, 0), parent⟩ ∧
      ∀ j, parent = some j ↔ Latest p k j
  kids : st.kids = (List.range st.nodes.length).map (fun k => childrenOf st.nodes (some k))
  roots : st.roots = childrenOf st.nodes none
  byLocator : ∀ l i, st.byLocator.lookup l = some i ↔
    ∃ row, p[i]? = some row ∧ row.locator = l
  low : ∀ a ∈ p, a.start ≤ st.prevStart
  reached : st.prevStart = 0 ∨ ∃ a ∈ p, a.start = st.prevStart
  latest : st.stack.Pairwise (fun a b => b < a)
  known : ∀ k ∈ st.stack, k < p.length
  widening : st.stack.Pairwise (fun a b => st.stopOf a ≤ st.stopOf b)
  closed : ∀ k < p.length, k ∉ st.stack → st.stopOf k ≤ st.prevStart

theorem placed_nil : Placed [] {} := by
  refine ⟨rfl, ?_, rfl, rfl, ?_, ?_, Or.inl rfl, List.Pairwise.nil, ?_, List.Pairwise.nil, ?_⟩
  · intro k row here
    cases here
  · simp
  · simp
  · simp
  · simp

theorem Placed.stop_of (placed : Placed p st) {k : Nat} {a : Segment} (here : p[k]? = some a) :
    st.stopOf k = a.stop := by
  obtain ⟨parent, there, _⟩ := placed.node k a here
  rw [Building.stopOf, there]
  rfl

/-- What closing leaves open: the rows that end after this one starts, all of which it is
inside of. -/
theorem close_ok {stack stack' : List Nat}
    (widening : stack.Pairwise (fun a b => st.stopOf a ≤ st.stopOf b))
    (done : close st row stack = .ok stack') :
    stack' <:+ stack ∧ (∀ k ∈ stack, k ∈ stack' ∨ st.stopOf k ≤ row.start) ∧
      ∀ k ∈ stack', row.start < st.stopOf k ∧ row.stop ≤ st.stopOf k := by
  induction stack with
  | nil =>
    cases done
    exact ⟨List.suffix_refl _, by simp, by simp⟩
  | cons top rest ih =>
    obtain ⟨below, widening'⟩ := List.pairwise_cons.mp widening
    rw [close] at done
    split at done
    · rename_i ended
      obtain ⟨suffix, kept, wide⟩ := ih widening' done
      refine ⟨suffix.trans (List.suffix_cons _ _), ?_, wide⟩
      exact List.forall_mem_cons.mpr ⟨Or.inr ended, kept⟩
    · rename_i starts
      split at done
      · cases done
      · rename_i ends
        cases done
        have inside := UInt64.not_lt.mp ends
        have after := UInt64.not_le.mp starts
        refine ⟨List.suffix_refl _, fun k mem => Or.inl mem, ?_⟩
        refine List.forall_mem_cons.mpr ⟨⟨after, inside⟩, fun k mem => ?_⟩
        exact ⟨UInt64.lt_of_lt_of_le after (below k mem), UInt64.le_trans inside (below k mem)⟩

/-- Closing is refused where an open row ends inside this one. -/
theorem close_error {stack : List Nat} {d : Defect} (refused : close st row stack = .error d) :
    ∃ k ∈ stack, row.start < st.stopOf k ∧ st.stopOf k < row.stop := by
  induction stack with
  | nil => cases refused
  | cons top rest ih =>
    rw [close] at refused
    split at refused
    · obtain ⟨k, mem, held⟩ := ih refused
      exact ⟨k, List.mem_cons_of_mem _ mem, held⟩
    · rename_i starts
      split at refused
      · rename_i ends
        exact ⟨top, List.mem_cons_self, UInt64.not_le.mp starts, ends⟩
      · cases refused

/-- A step is refused for no other rows than those that do not fit. -/
theorem step_ok_iff (placed : Placed p st) :
    (∃ st', step length st row = .ok st') ↔ Fits p row length := by
  rw [step]
  constructor
  · rintro ⟨st', done⟩
    split at done
    · cases done
    rename_i backwards
    split at done
    · cases done
    rename_i past
    split at done
    · cases done
    rename_i early
    split at done
    · cases done
    · rename_i stack closed
      split at done
      · cases done
      · rename_i fresh
        have low := UInt64.not_lt.mp early
        refine ⟨UInt64.not_lt.mp backwards, UInt64.not_lt.mp past, ?_, ?_, ?_⟩
        · exact fun a mem => UInt64.le_trans (placed.low a mem) low
        · intro a mem same
          obtain ⟨k, here⟩ := List.mem_iff_getElem?.mp mem
          have found := (placed.byLocator row.locator k).mpr ⟨a, here, same⟩
          rw [found] at fresh
          exact fresh rfl
        · intro a mem starts
          obtain ⟨k, here⟩ := List.mem_iff_getElem?.mp mem
          obtain ⟨_, kept, wide⟩ := close_ok placed.widening closed
          rw [← placed.stop_of here] at starts ⊢
          by_cases open' : k ∈ st.stack
          · rcases kept k open' with held | ended
            · exact (wide k held).2
            · exact absurd starts (UInt64.not_lt.mpr ended)
          · have inside := (List.getElem?_eq_some_iff.mp here).1
            have ended := UInt64.le_trans (placed.closed k inside open') low
            exact absurd starts (UInt64.not_lt.mpr ended)
  · intro fits
    rw [if_neg (UInt64.not_lt.mpr fits.forward), if_neg (UInt64.not_lt.mpr fits.inside)]
    have late : ¬ row.start < st.prevStart := by
      rcases placed.reached with zero | ⟨a, mem, same⟩
      · rw [zero]
        exact UInt64.not_lt.mpr UInt64.zero_le
      · rw [← same]
        exact UInt64.not_lt.mpr (fits.order a mem)
    rw [if_neg late]
    cases closed : close st row st.stack with
    | error d =>
      obtain ⟨k, mem, starts, ends⟩ := close_error closed
      have here := List.getElem?_eq_getElem (placed.known k mem)
      rw [placed.stop_of here] at starts ends
      have inside := fits.nested _ (List.getElem_mem _) starts
      exact absurd ends (UInt64.not_lt.mpr inside)
    | ok stack =>
      have fresh : st.byLocator.lookup row.locator = none := by
        rw [Option.eq_none_iff_forall_ne_some]
        intro i found
        obtain ⟨a, here, same⟩ := (placed.byLocator _ _).mp found
        exact fits.distinct a (List.mem_of_getElem? here) same
      simp only
      rw [fresh, if_neg (by decide)]
      exact ⟨_, rfl⟩

/-! Placing a row. -/

theorem latest_snoc {i j : Nat} (inside : i < p.length) :
    Latest (p ++ [row]) i j ↔ Latest p i j := by
  have same : ∀ k ≤ i, (p ++ [row])[k]? = p[k]? := fun k le =>
    List.getElem?_append_left (lt_of_le_of_lt le inside)
  constructor
  · rintro ⟨a, here, before, ⟨b, there, parents⟩, none'⟩
    rw [same i le_rfl] at here
    rw [same j before.le] at there
    refine ⟨a, here, before, ⟨b, there, parents⟩, fun k c after le held => ?_⟩
    exact none' k c after le (by rw [same k le.le, held])
  · rintro ⟨a, here, before, ⟨b, there, parents⟩, none'⟩
    refine ⟨a, by rw [same i le_rfl, here], before, ⟨b, by rw [same j before.le, there], parents⟩,
      fun k c after le held => ?_⟩
    rw [same k le.le] at held
    exact none' k c after le held

/-- The innermost row left open is the parent. -/
theorem latest_last {stack : List Nat} (placed : Placed p st) (fits : Fits p row length)
    (closed : close st row st.stack = .ok stack) (j : Nat) :
    stack.head? = some j ↔ Latest (p ++ [row]) p.length j := by
  obtain ⟨suffix, kept, wide⟩ := close_ok placed.widening closed
  have here : (p ++ [row])[p.length]? = some row := by simp
  have before : ∀ k < p.length, (p ++ [row])[k]? = p[k]? := fun k less =>
    List.getElem?_append_left less
  have early : st.prevStart ≤ row.start := by
    rcases placed.reached with zero | ⟨a, mem, same⟩
    · rw [zero]
      exact UInt64.zero_le
    · rw [← same]
      exact fits.order a mem
  have parent : ∀ k a, p[k]? = some a → (k ∈ stack ↔ Parents a row) := by
    intro k a at_
    have inside := (List.getElem?_eq_some_iff.mp at_).1
    have mem := List.mem_of_getElem? at_
    constructor
    · intro held
      have both := wide k held
      rw [placed.stop_of at_] at both
      exact ⟨⟨fits.order a mem, both.2⟩, both.1⟩
    · rintro ⟨_, starts⟩
      rw [← placed.stop_of at_] at starts
      by_contra out
      have ended : st.stopOf k ≤ row.start := by
        by_cases open' : k ∈ st.stack
        · exact (kept k open').resolve_left out
        · exact UInt64.le_trans (placed.closed k inside open') early
      exact absurd starts (UInt64.not_lt.mpr ended)
  have sorted := placed.latest.sublist suffix.sublist
  have inside : ∀ k ∈ stack, k < p.length := fun k mem => placed.known k (suffix.subset mem)
  constructor
  · intro head
    have mem := List.mem_of_head? head
    have less := inside j mem
    have at_ := List.getElem?_eq_getElem less
    refine ⟨row, here, less, ⟨_, by rw [before j less, at_], (parent j _ at_).mp mem⟩, ?_⟩
    intro k a after le held parents
    rw [before k le] at held
    have open' := (parent k a held).mpr parents
    cases stack with
    | nil => cases head
    | cons top rest =>
      cases head
      rcases List.mem_cons.mp open' with rfl | later
      · exact absurd after (lt_irrefl _)
      · have := (List.pairwise_cons.mp sorted).1 k later
        omega
  · rintro ⟨a, at_, less, ⟨b, there, parents⟩, none'⟩
    rw [here] at at_
    cases at_
    rw [before j less] at there
    have mem := (parent j b there).mpr parents
    cases stack with
    | nil => cases mem
    | cons top rest =>
      rcases List.mem_cons.mp mem with rfl | later
      · rfl
      · have after := (List.pairwise_cons.mp sorted).1 j later
        have topIn := inside top List.mem_cons_self
        have topAt := List.getElem?_eq_getElem topIn
        have topParents := (parent top _ topAt).mp List.mem_cons_self
        exact absurd topParents (none' top _ after topIn (by rw [before top topIn, topAt]))

theorem children_of_snoc (nodes : List Node) (node : Node) (parent : Option Nat) :
    childrenOf (nodes ++ [node]) parent =
      childrenOf nodes parent ++ if node.parent = parent then [nodes.length] else [] := by
  have last : parentAt (nodes ++ [node]) nodes.length = node.parent := by simp [parentAt]
  have before : ∀ i ∈ List.range nodes.length,
      (parentAt (nodes ++ [node]) i == parent) = (parentAt nodes i == parent) := by
    intro i mem
    rw [parentAt, List.getElem?_append_left (List.mem_range.mp mem), parentAt]
  rw [childrenOf, List.length_append, List.length_singleton, List.range_succ, List.filter_append,
    List.filter_congr before, childrenOf, List.filter_singleton, last]
  congr 1
  by_cases same : node.parent = parent
  · rw [beq_iff_eq.mpr same, if_pos same]
    rfl
  · rw [beq_eq_false_iff_ne.mpr same, if_neg same]
    rfl

theorem modify_range {n j : Nat} (f : Nat → List Nat) (last : List Nat) :
    ((List.range n).map f).modify j (· ++ last) =
      (List.range n).map (fun k => f k ++ if k = j then last else []) := by
  refine List.ext_getElem? fun i => ?_
  rw [List.getElem?_modify, List.getElem?_map, List.getElem?_map]
  by_cases inside : i < n
  · rw [List.getElem?_range inside]
    by_cases same : j = i
    · simp [same]
    · simp [same, Ne.symm same]
  · rw [List.getElem?_eq_none (by simpa using inside)]
    simp

theorem modify_append {α : Type} {xs : List α} (ys : List α) {j : Nat} (f : α → α)
    (inside : j < xs.length) : (xs ++ ys).modify j f = xs.modify j f ++ ys := by
  refine List.ext_getElem? fun i => ?_
  rw [List.getElem?_modify, List.getElem?_append, List.getElem?_append, List.length_modify,
    List.getElem?_modify]
  by_cases left : i < xs.length
  · rw [if_pos left, if_pos left]
  · have other : j ≠ i := by omega
    simp [left, other]

theorem place_placed {stack : List Nat} (placed : Placed p st) (fits : Fits p row length)
    (closed : close st row st.stack = .ok stack) : Placed (p ++ [row]) (place st row stack) := by
  obtain ⟨suffix, kept, wide⟩ := close_ok placed.widening closed
  have count := placed.count
  have head := latest_last placed fits closed
  have known : ∀ k ∈ stack, k < p.length := fun k mem => placed.known k (suffix.subset mem)
  have nodesEq : (place st row stack).nodes = st.nodes ++
      [⟨st.nodes.length, row.level, ⟨row.start, row.stop⟩, row.locator, (0, 0), stack.head?⟩] :=
    rfl
  have stopBefore : ∀ k < p.length, (place st row stack).stopOf k = st.stopOf k := by
    intro k less
    rw [Building.stopOf, nodesEq, List.getElem?_append_left (by omega), ← Building.stopOf]
  have stopLast : (place st row stack).stopOf p.length = row.stop := by
    rw [Building.stopOf, nodesEq, ← count]
    simp
  refine ⟨?_, ?_, ?_, ?_, ?_, ?_, ?_, ?_, ?_, ?_, ?_⟩
  · rw [nodesEq, List.length_append, List.length_append, count]
    rfl
  · intro k a here
    rw [nodesEq]
    by_cases less : k < p.length
    · rw [List.getElem?_append_left less] at here
      obtain ⟨parent, there, known⟩ := placed.node k a here
      refine ⟨parent, by rw [List.getElem?_append_left (by omega), there], fun j => ?_⟩
      rw [known, latest_snoc less]
    · have last : k = p.length := by
        have := (List.getElem?_eq_some_iff.mp here).1
        rw [List.length_append, List.length_singleton] at this
        omega
      subst last
      rw [List.getElem?_concat_length] at here
      cases here
      refine ⟨stack.head?, ?_, head⟩
      rw [← count, List.getElem?_concat_length]
  · rw [nodesEq, List.length_append, List.length_singleton, List.range_succ, List.map_append]
    have later : childrenOf (st.nodes ++ [⟨st.nodes.length, row.level, ⟨row.start, row.stop⟩,
        row.locator, (0, 0), stack.head?⟩]) (some st.nodes.length) = [] := by
      rw [children_of_snoc, if_neg]
      · rw [List.append_nil, childrenOf, List.filter_eq_nil_iff]
        intro i mem
        have inside := List.mem_range.mp mem
        rw [count] at inside
        obtain ⟨parent, there, own⟩ := placed.node i _ (List.getElem?_eq_getElem inside)
        rw [parentAt, there, Option.bind_some, beq_iff_eq]
        intro same
        obtain ⟨_, _, before, _⟩ := (own _).mp same
        omega
      · intro same
        have := known _ (List.mem_of_head? same)
        omega
    rw [List.map_singleton, later]
    cases top : stack.head? with
    | none =>
      have same : (place st row stack).kids = st.kids ++ [[]] := by
        rw [place]
        simp only [top]
      rw [same, placed.kids]
      congr 1
      refine List.map_congr_left fun k _ => ?_
      rw [children_of_snoc]
      simp
    | some j =>
      have same : (place st row stack).kids =
          (st.kids ++ [[]]).modify j (· ++ [st.nodes.length]) := by
        rw [place]
        simp only [top]
      have before : j < st.kids.length := by
        have := known j (List.mem_of_head? top)
        rw [placed.kids, List.length_map, List.length_range]
        omega
      rw [same, modify_append _ _ before, placed.kids, modify_range]
      congr 1
      refine List.map_congr_left fun k _ => ?_
      rw [children_of_snoc]
      congr 1
      by_cases hit : k = j
      · simp [hit]
      · simp [hit, Ne.symm hit]
  · rw [nodesEq, children_of_snoc, ← placed.roots]
    cases top : stack.head? with
    | none =>
      rw [place]
      simp [top]
    | some j =>
      rw [place]
      simp [top]
  · intro l i
    have table : (place st row stack).byLocator = (row.locator, st.nodes.length) :: st.byLocator :=
      rfl
    rw [table, List.lookup_cons, count]
    by_cases same : l = row.locator
    · rw [beq_iff_eq.mpr same]
      simp only [Option.some.injEq]
      constructor
      · rintro rfl
        exact ⟨row, by simp, same.symm⟩
      · rintro ⟨a, here, named⟩
        by_cases less : i < p.length
        · rw [List.getElem?_append_left less] at here
          exact absurd (named.trans same) (fits.distinct a (List.mem_of_getElem? here))
        · have := (List.getElem?_eq_some_iff.mp here).1
          rw [List.length_append, List.length_singleton] at this
          omega
    · rw [beq_eq_false_iff_ne.mpr same]
      simp only
      rw [placed.byLocator]
      constructor
      · rintro ⟨a, here, named⟩
        have less := (List.getElem?_eq_some_iff.mp here).1
        exact ⟨a, by rw [List.getElem?_append_left less, here], named⟩
      · rintro ⟨a, here, named⟩
        by_cases less : i < p.length
        · rw [List.getElem?_append_left less] at here
          exact ⟨a, here, named⟩
        · have last : i = p.length := by
            have := (List.getElem?_eq_some_iff.mp here).1
            rw [List.length_append, List.length_singleton] at this
            omega
          subst last
          rw [List.getElem?_concat_length] at here
          cases here
          exact absurd named.symm same
  · intro a mem
    change a.start ≤ row.start
    rcases List.mem_append.mp mem with held | last
    · exact fits.order a held
    · rw [List.mem_singleton.mp last]
      exact UInt64.le_refl _
  · exact Or.inr ⟨row, by simp, rfl⟩
  · change (st.nodes.length :: stack).Pairwise _
    refine List.pairwise_cons.mpr ⟨fun k mem => ?_, placed.latest.sublist suffix.sublist⟩
    rw [count]
    exact known k mem
  · change ∀ k ∈ st.nodes.length :: stack, _
    rw [List.length_append, List.length_singleton]
    refine List.forall_mem_cons.mpr ⟨by omega, fun k mem => ?_⟩
    have := known k mem
    omega
  · change (st.nodes.length :: stack).Pairwise _
    rw [count]
    refine List.pairwise_cons.mpr ⟨fun k mem => ?_, ?_⟩
    · rw [stopLast, stopBefore k (known k mem)]
      exact (wide k mem).2
    · refine (placed.widening.sublist suffix.sublist).imp_of_mem fun {a b} memA memB le => ?_
      rwa [stopBefore a (known a memA), stopBefore b (known b memB)]
  · intro k less out
    change k ∉ st.nodes.length :: stack at out
    change (place st row stack).stopOf k ≤ row.start
    rw [List.mem_cons, not_or, count] at out
    rw [List.length_append, List.length_singleton] at less
    have inside : k < p.length := by omega
    rw [stopBefore k inside]
    by_cases open' : k ∈ st.stack
    · exact (kept k open').resolve_left out.2
    · refine UInt64.le_trans (placed.closed k inside open') ?_
      rcases placed.reached with zero | ⟨a, mem, same⟩
      · rw [zero]
        exact UInt64.zero_le
      · rw [← same]
        exact fits.order a mem

theorem step_placed {st' : Building} (placed : Placed p st) (done : step length st row = .ok st') :
    Fits p row length ∧ Placed (p ++ [row]) st' := by
  have fits := (step_ok_iff placed).mp ⟨st', done⟩
  refine ⟨fits, ?_⟩
  rw [step] at done
  split at done
  · cases done
  split at done
  · cases done
  split at done
  · cases done
  split at done
  · cases done
  · rename_i stack closed
    split at done
    · cases done
    · cases done
      exact place_placed placed fits closed

variable (length) in
/-- The pass over the rows that are left: what it builds is what all of them say, and only a
cap stops it at a laminar table. -/
theorem read_rows_placed (rest : List Segment) (i : Nat) (budget : Budget) (placed : Placed p st)
    (laminar : Laminar p length) :
    (∀ st', (readRows length i rest st budget).1 = .ok st' →
      Laminar (p ++ rest) length ∧ Placed (p ++ rest) st') ∧
    (Laminar (p ++ rest) length → (∃ st', (readRows length i rest st budget).1 = .ok st') ∨
      ∃ e, (readRows length i rest st budget).1 = .error (.limit e)) := by
  induction rest generalizing p st i budget with
  | nil =>
    rw [readRows, List.append_nil]
    refine ⟨?_, fun _ => Or.inl ⟨st, rfl⟩⟩
    rintro _ ⟨⟩
    exact ⟨laminar, placed⟩
  | cons row rest ih =>
    have cons : p ++ row :: rest = p ++ [row] ++ rest := by simp
    rw [readRows, cons]
    rcases budget.node with ⟨e | _, spent⟩
    · simp
    · simp only
      cases stepped : step length st row with
      | error d =>
        simp only [reduceCtorEq, false_implies, implies_true, exists_false, Except.error.injEq,
          or_self, true_and]
        intro whole
        have fits := (laminar_snoc.mp (laminar_front whole)).2
        obtain ⟨st', done⟩ := (step_ok_iff placed).mpr fits
        rw [stepped] at done
        cases done
      | ok st' =>
        obtain ⟨fits, placed'⟩ := step_placed placed stepped
        exact ih (i + 1) spent placed' (laminar_snoc.mpr ⟨laminar, fits⟩)

/-- Budget aside, a structure is built of exactly the laminar tables. -/
theorem build_ok_iff {rows : List Segment} {budget : Budget}
    (afforded : ∀ e, (build rows length budget).1 ≠ .error (.limit e)) :
    (∃ s, (build rows length budget).1 = .ok s) ↔ Laminar rows length := by
  have empty : Laminar [] length :=
    ⟨by simp, by simp, List.Pairwise.nil, List.Pairwise.nil, List.Pairwise.nil⟩
  obtain ⟨built, only⟩ := read_rows_placed length rows 0 budget placed_nil empty
  rw [List.nil_append] at built only
  rw [build] at afforded ⊢
  generalize readRows length 0 rows {} budget = read at afforded built only ⊢
  obtain ⟨r, spent⟩ := read
  cases r with
  | error e =>
    simp only [reduceCtorEq, exists_false, false_iff]
    intro laminar
    rcases only laminar with ⟨_, other⟩ | ⟨limit, same⟩
    · cases other
    · cases same
      exact afforded limit rfl
  | ok st =>
    refine ⟨fun _ => (built st rfl).1, fun _ => ⟨_, rfl⟩⟩

theorem build_placed {rows : List Segment} {budget : Budget} {s : Structure}
    (built : (build rows length budget).1 = .ok s) :
    Laminar rows length ∧ ∃ st, Placed rows st ∧ s = finish length st := by
  have empty : Laminar [] length :=
    ⟨by simp, by simp, List.Pairwise.nil, List.Pairwise.nil, List.Pairwise.nil⟩
  have read := (read_rows_placed length rows 0 budget placed_nil empty).1
  rw [List.nil_append] at read
  rw [build] at built
  generalize readRows length 0 rows {} budget = result at built read
  obtain ⟨r, spent⟩ := result
  cases r with
  | error e => cases built
  | ok st =>
    cases built
    exact ⟨(read st rfl).1, st, (read st rfl).2, rfl⟩

/-! The finished tree. -/

theorem assign_children (start : Nat) {k : Nat} {nodes : List Node} {kids : List (List Nat)}
    {node : Node} {list : List Nat} (here : nodes[k]? = some node) (there : kids[k]? = some list) :
    (assignChildren start nodes kids)[k]? = some { node with
      children := (start + (kids.take k).flatten.length,
        start + (kids.take k).flatten.length + list.length) } := by
  induction nodes generalizing start k kids with
  | nil => cases here
  | cons first nodes ih =>
    cases kids with
    | nil => cases there
    | cons own kids =>
      rw [assignChildren]
      cases k with
      | zero =>
        cases here
        cases there
        rfl
      | succ k =>
        rw [List.getElem?_cons_succ] at here there ⊢
        rw [ih _ here there, List.take_succ_cons, List.flatten_cons, List.length_append]
        simp only [Nat.add_assoc]

theorem length_assign (start : Nat) (nodes : List Node) (kids : List (List Nat)) :
    (assignChildren start nodes kids).length = nodes.length := by
  induction nodes generalizing start kids with
  | nil => cases kids <;> rfl
  | cons node nodes ih =>
    cases kids with
    | nil => rfl
    | cons own kids => rw [assignChildren, List.length_cons, ih, List.length_cons]

theorem flatten_slice {k : Nat} {kids : List (List Nat)} {list : List Nat}
    (here : kids[k]? = some list) :
    (kids.flatten.take ((kids.take k).flatten.length + list.length)).drop
      (kids.take k).flatten.length = list := by
  obtain ⟨inside, rfl⟩ := List.getElem?_eq_some_iff.mp here
  have parts := (List.take_append_drop k kids).symm
  rw [List.drop_eq_getElem_cons inside] at parts
  have whole := congrArg List.flatten parts
  rw [List.flatten_append, List.flatten_cons, ← List.append_assoc] at whole
  rw [whole, ← List.length_append, List.take_left, List.drop_left]

/-- A byte of a node. -/
def Over (n : Node) (offset : UInt64) : Prop := n.range.start ≤ offset ∧ offset < n.range.stop

/-- Where nodes over one byte never get longer, the search keeps the last of them. -/
theorem deepest_last {offset : UInt64} {nodes : List Node}
    (narrowing : nodes.Pairwise (fun a b => Over a offset → Over b offset → b.len ≤ a.len)) :
    (nodes.foldl (deeper offset) none = none → ∀ n ∈ nodes, ¬ Over n offset) ∧
    ∀ n, nodes.foldl (deeper offset) none = some n → ∃ j : Nat, nodes[j]? = some n ∧ Over n offset ∧
      ∀ (k : Nat) (a : Node), nodes[k]? = some a → Over a offset → k ≤ j := by
  induction nodes using List.reverseRecOn with
  | nil => simp
  | append_singleton nodes last ih =>
    obtain ⟨narrow, _, narrowLast⟩ := List.pairwise_append.mp narrowing
    obtain ⟨missed, found⟩ := ih narrow
    rw [List.foldl_append, List.foldl_cons, List.foldl_nil]
    by_cases over' : Over last offset
    · have taken : deeper offset (nodes.foldl (deeper offset) none) last = some last := by
        rw [deeper.eq_def]
        rw [Over] at over'
        rw [if_pos over']
        cases best : nodes.foldl (deeper offset) none with
        | none => rfl
        | some b =>
          obtain ⟨j, here, overB, _⟩ := found b best
          have shorter := narrowLast b (List.mem_of_getElem? here) last (by simp) overB over'
          simp only
          rw [if_pos shorter]
      rw [taken]
      refine ⟨by simp, ?_⟩
      rintro n ⟨⟩
      refine ⟨nodes.length, List.getElem?_concat_length, over', fun k a here _ => ?_⟩
      have := (List.getElem?_eq_some_iff.mp here).1
      rw [List.length_append, List.length_singleton] at this
      omega
    · have kept : deeper offset (nodes.foldl (deeper offset) none) last =
          nodes.foldl (deeper offset) none := by
        rw [deeper.eq_def]
        rw [Over] at over'
        rw [if_neg over']
      rw [kept]
      refine ⟨fun none' n mem => ?_, fun n best => ?_⟩
      · rcases List.mem_append.mp mem with before | same
        · exact missed none' n before
        · rwa [List.mem_singleton.mp same]
      · obtain ⟨j, here, overN, latest⟩ := found n best
        have inside := (List.getElem?_eq_some_iff.mp here).1
        refine ⟨j, by rw [List.getElem?_append_left inside, here], overN, fun k a there overA => ?_⟩
        by_cases before : k < nodes.length
        · rw [List.getElem?_append_left before] at there
          exact latest k a there overA
        · have last' : k = nodes.length := by
            have := (List.getElem?_eq_some_iff.mp there).1
            rw [List.length_append, List.length_singleton] at this
            omega
          rw [last', List.getElem?_concat_length] at there
          cases there
          exact absurd overA over'

/-- The tree is what the rows say: nodes are rows, parents and children follow from the ranges,
offsets find the innermost row, and locators name ranges of the text. -/
structure Tree (rows : List Segment) (length : UInt64) (s : Structure) : Prop where
  count : s.nodes.length = rows.length
  node : ∀ (i : Nat) (row : Segment) (n : Node), rows[i]? = some row → s.nodes[i]? = some n →
    n.row = i ∧ n.level = row.level ∧ n.range = ⟨row.start, row.stop⟩ ∧ n.locator = row.locator
  parent : ∀ (i : Nat) (n : Node), s.nodes[i]? = some n →
    ∀ j, n.parent = some j ↔ Latest rows i j
  children : ∀ (i : Nat) (n : Node), s.nodes[i]? = some n →
    s.children n = childrenOf s.nodes (some i)
  roots : s.roots = childrenOf s.nodes none
  none_at : ∀ offset, s.nodeAt offset = none ↔ ∀ row ∈ rows, ¬ Covers row offset
  some_at : ∀ offset n, s.nodeAt offset = some n ↔
    ∃ j : Nat, s.nodes[j]? = some n ∧ Innermost rows offset j

/-- What a locator resolves to is a range of the text. -/
def Resolves (s : Structure) (length : UInt64) : Prop :=
  ∀ l : Locator, l.Valid → ∀ r, s.resolve l = some r → r.start ≤ r.stop ∧ r.stop ≤ length

variable {rows : List Segment}

variable (length) in
theorem finish_node (placed : Placed rows st) {i : Nat} {row : Segment}
    (here : rows[i]? = some row) : ∃ parent kids, (finish length st).nodes[i]? =
      some ⟨i, row.level, ⟨row.start, row.stop⟩, row.locator, kids, parent⟩ ∧
      (∀ j, parent = some j ↔ Latest rows i j) ∧
      (st.kids.flatten.take kids.2).drop kids.1 = childrenOf st.nodes (some i) := by
  obtain ⟨parent, there, latest⟩ := placed.node i row here
  have inside : i < st.nodes.length := (List.getElem?_eq_some_iff.mp there).1
  have list : st.kids[i]? = some (childrenOf st.nodes (some i)) := by
    rw [placed.kids, List.getElem?_map, List.getElem?_range inside]
    rfl
  refine ⟨parent, _, assign_children 0 there list, latest, ?_⟩
  rw [Nat.zero_add]
  exact flatten_slice list

theorem parent_at_finish (placed : Placed rows st) (i : Nat) :
    parentAt (finish length st).nodes i = parentAt st.nodes i := by
  by_cases inside : i < rows.length
  · have here := List.getElem?_eq_getElem inside
    obtain ⟨parent, there, latest⟩ := placed.node i _ here
    obtain ⟨parent', kids, there', latest', _⟩ := finish_node length placed here
    rw [parentAt, parentAt, there, there', Option.bind_some, Option.bind_some]
    refine Option.ext fun j => ?_
    exact (latest' j).trans (latest j).symm
  · have count := placed.count
    rw [parentAt, parentAt, List.getElem?_eq_none, List.getElem?_eq_none (by omega)]
    rw [finish, length_assign]
    omega

theorem finish_tree (laminar : Laminar rows length) (placed : Placed rows st) :
    Tree rows length (finish length st) := by
  have count : (finish length st).nodes.length = rows.length := by
    rw [finish, length_assign, placed.count]
  have row_of : ∀ {i : Nat} {n : Node}, (finish length st).nodes[i]? = some n →
      ∃ row, rows[i]? = some row := by
    intro i n here
    have inside := (List.getElem?_eq_some_iff.mp here).1
    rw [count] at inside
    exact ⟨_, List.getElem?_eq_getElem inside⟩
  have node : ∀ (i : Nat) (row : Segment) (n : Node), rows[i]? = some row →
      (finish length st).nodes[i]? = some n →
      n.row = i ∧ n.level = row.level ∧ n.range = ⟨row.start, row.stop⟩ ∧
        n.locator = row.locator := by
    intro i row n here there
    obtain ⟨parent, kids, same, _⟩ := finish_node length placed here
    rw [same] at there
    cases there
    exact ⟨rfl, rfl, rfl, rfl⟩
  have children_same : ∀ parent, childrenOf (finish length st).nodes parent =
      childrenOf st.nodes parent := by
    intro parent
    have counts : (finish length st).nodes.length = st.nodes.length := length_assign 0 _ _
    rw [childrenOf, childrenOf, counts]
    exact List.filter_congr fun i _ => by rw [parent_at_finish placed]
  have over_row : ∀ {i : Nat} {row : Segment} {n : Node} {offset : UInt64},
      rows[i]? = some row → (finish length st).nodes[i]? = some n →
      (Over n offset ↔ Covers row offset) := by
    intro i row n offset here there
    rw [Over, (node i row n here there).2.2.1]
    rfl
  have nests : ∀ {i j : Nat} {a b : Segment} {offset : UInt64}, i ≤ j → rows[i]? = some a →
      rows[j]? = some b → Covers a offset → Covers b offset → Contains a b := by
    intro i j a b offset le hereA hereB coversA coversB
    rcases Nat.eq_or_lt_of_le le with rfl | less
    · rw [hereA] at hereB
      cases hereB
      exact ⟨UInt64.le_refl _, UInt64.le_refl _⟩
    · obtain ⟨insideA, rfl⟩ := List.getElem?_eq_some_iff.mp hereA
      obtain ⟨insideB, rfl⟩ := List.getElem?_eq_some_iff.mp hereB
      exact List.pairwise_iff_getElem.mp laminar.nested i j insideA insideB less
        ⟨offset, coversA, coversB⟩
  have narrowing : ∀ offset, (finish length st).nodes.Pairwise
      (fun a b => Over a offset → Over b offset → b.len ≤ a.len) := by
    intro offset
    rw [List.pairwise_iff_getElem]
    intro i j insideI insideJ less overI overJ
    obtain ⟨a, hereA⟩ := row_of (List.getElem?_eq_getElem insideI)
    obtain ⟨b, hereB⟩ := row_of (List.getElem?_eq_getElem insideJ)
    have contains := nests less.le hereA hereB
      ((over_row hereA (List.getElem?_eq_getElem insideI)).mp overI)
      ((over_row hereB (List.getElem?_eq_getElem insideJ)).mp overJ)
    have rangeA := (node i a _ hereA (List.getElem?_eq_getElem insideI)).2.2.1
    have rangeB := (node j b _ hereB (List.getElem?_eq_getElem insideJ)).2.2.1
    obtain ⟨low, high⟩ := contains
    rw [UInt64.le_iff_toNat_le] at low high
    rw [Node.len, Node.len, rangeA, rangeB, UInt64.le_iff_toNat_le, to_nat_saturating_sub,
      to_nat_saturating_sub]
    simp only
    omega
  have innermost : ∀ {offset : UInt64} {j : Nat} {n : Node}, (finish length st).nodes[j]? = some n →
      Over n offset →
      (∀ (k : Nat) a, (finish length st).nodes[k]? = some a → Over a offset → k ≤ j) →
      Innermost rows offset j := by
    intro offset j n here over' latest
    obtain ⟨row, at_⟩ := row_of here
    refine ⟨row, at_, (over_row at_ here).mp over', fun k a there covers => ?_⟩
    have insideK : k < (finish length st).nodes.length := by
      rw [count]
      exact (List.getElem?_eq_some_iff.mp there).1
    have nodeK := List.getElem?_eq_getElem insideK
    have le := latest k _ nodeK ((over_row there nodeK).mpr covers)
    exact ⟨nests le there at_ covers ((over_row at_ here).mp over'), le⟩
  refine ⟨count, node, ?_, ?_, ?_, ?_, ?_⟩
  · intro i n here j
    obtain ⟨row, at_⟩ := row_of here
    obtain ⟨parent, kids, same, latest, _⟩ := finish_node length placed at_
    rw [same] at here
    cases here
    exact latest j
  · intro i n here
    obtain ⟨row, at_⟩ := row_of here
    obtain ⟨parent, kids, same, _, slice⟩ := finish_node length placed at_
    rw [same] at here
    cases here
    rw [children_same]
    exact slice
  · rw [children_same]
    exact placed.roots
  · intro offset
    obtain ⟨missed, found⟩ := deepest_last (narrowing offset)
    rw [nodeAt]
    constructor
    · intro none' row mem covers
      obtain ⟨i, here⟩ := List.mem_iff_getElem?.mp mem
      have inside : i < (finish length st).nodes.length := by
        rw [count]
        exact (List.getElem?_eq_some_iff.mp here).1
      have at_ := List.getElem?_eq_getElem inside
      exact missed none' _ (List.getElem_mem inside) ((over_row here at_).mpr covers)
    · intro bare
      rw [Option.eq_none_iff_forall_ne_some]
      intro n best
      obtain ⟨j, here, over', _⟩ := found n best
      obtain ⟨row, at_⟩ := row_of here
      exact bare row (List.mem_of_getElem? at_) ((over_row at_ here).mp over')
  · intro offset n
    obtain ⟨missed, found⟩ := deepest_last (narrowing offset)
    rw [nodeAt]
    constructor
    · intro best
      obtain ⟨j, here, over', latest⟩ := found n best
      exact ⟨j, here, innermost here over' latest⟩
    · rintro ⟨j, here, row, at_, covers, all⟩
      have over' := (over_row at_ here).mpr covers
      cases best : (finish length st).nodes.foldl (deeper offset) none with
      | none => exact absurd over' (missed best n (List.mem_of_getElem? here))
      | some m =>
        obtain ⟨i, there, overM, latest⟩ := found m best
        obtain ⟨rowM, atM⟩ := row_of there
        have one := latest j n here over'
        have two := (all i rowM atM ((over_row atM there).mp overM)).2
        obtain rfl : i = j := by omega
        rw [here] at there
        exact there.symm

/-! Locators. -/

/-- Ranges are as the text has them: where one is no row's own, its first end starts before its
last end stops. -/
def Forwards (rows : List Segment) : Prop :=
  ∀ a ∈ rows, ∀ b ∈ rows, (Locator.range a.locator b.locator).Valid →
    (∀ c ∈ rows, c.locator ≠ .range a.locator b.locator) → a.start ≤ b.stop

variable (length) in
theorem lookup_named (placed : Placed rows st) (l : Locator) (r : ByteRange) :
    ((finish length st).byLocator.lookup l).bind
        (fun i => (finish length st).nodes[i]?.map Node.range) = some r ↔
      ∃ row ∈ rows, row.locator = l ∧ r = ⟨row.start, row.stop⟩ := by
  have table : (finish length st).byLocator = st.byLocator := rfl
  rw [table, Option.bind_eq_some_iff]
  constructor
  · rintro ⟨i, found, ranged⟩
    obtain ⟨row, here, named⟩ := (placed.byLocator l i).mp found
    obtain ⟨parent, kids, there, _⟩ := finish_node length placed here
    rw [there] at ranged
    cases ranged
    exact ⟨row, List.mem_of_getElem? here, named, rfl⟩
  · rintro ⟨row, mem, named, rfl⟩
    obtain ⟨i, here⟩ := List.mem_iff_getElem?.mp mem
    obtain ⟨parent, kids, there, _⟩ := finish_node length placed here
    exact ⟨i, (placed.byLocator l i).mpr ⟨row, here, named⟩, by rw [there]; rfl⟩

variable (length) in
theorem lookup_unnamed (placed : Placed rows st) (l : Locator) :
    (finish length st).byLocator.lookup l = none ↔ ∀ row ∈ rows, row.locator ≠ l := by
  have table : (finish length st).byLocator = st.byLocator := rfl
  rw [table, Option.eq_none_iff_forall_ne_some]
  constructor
  · intro missing row mem named
    obtain ⟨i, here⟩ := List.mem_iff_getElem?.mp mem
    exact missing i ((placed.byLocator l i).mpr ⟨row, here, named⟩)
  · intro missing i found
    obtain ⟨row, here, named⟩ := (placed.byLocator l i).mp found
    exact missing row (List.mem_of_getElem? here) named

variable (length) in
/-- A place that is no range resolves to the row that has it. -/
theorem resolve_single (placed : Placed rows st) {l : Locator} (single : l.kind ≠ .range)
    (r : ByteRange) : (finish length st).resolve l = some r ↔
      ∃ row ∈ rows, row.locator = l ∧ r = ⟨row.start, row.stop⟩ := by
  cases l with
  | range first last => exact absurd rfl single
  | canonical head steps => exact lookup_named length placed _ r
  | line n => exact lookup_named length placed _ r
  | pointer tokens => exact lookup_named length placed _ r

theorem resolves_iff (laminar : Laminar rows length) (placed : Placed rows st) :
    Resolves (finish length st) length ↔ Forwards rows := by
  have of_row : ∀ row ∈ rows, row.start ≤ row.stop ∧ row.stop ≤ length := fun row mem =>
    ⟨laminar.forward row mem, laminar.inside row mem⟩
  constructor
  · intro resolves a memA b memB valid unnamed
    have singleA : a.locator.Single := valid.1
    have singleB : b.locator.Single := valid.2.1
    have lo := (resolve_single length placed (Locator.single_kind singleA).1 _).mpr
      ⟨a, memA, rfl, rfl⟩
    have hi := (resolve_single length placed (Locator.single_kind singleB).1 _).mpr
      ⟨b, memB, rfl, rfl⟩
    have missing := (lookup_unnamed length placed _).mpr unnamed
    have hull : (finish length st).resolve (.range a.locator b.locator) =
        some ⟨a.start, b.stop⟩ := by
      rw [resolve, missing]
      simp only
      rw [lo, hi]
      rfl
    exact (resolves _ valid _ hull).1
  · intro forwards l valid r found
    by_cases ranged : l.kind = .range
    · cases l with
      | canonical head steps => cases ranged
      | line n => cases ranged
      | pointer tokens => cases ranged
      | range first last =>
        have singleA : first.Single := valid.1
        have singleB : last.Single := valid.2.1
        rw [resolve] at found
        split at found
        · rename_i i named
          have both := (lookup_named length placed (.range first last) r).mp
            (by rw [named]; exact found)
          obtain ⟨row, mem, _, rfl⟩ := both
          exact of_row row mem
        · rename_i missing
          rw [Option.bind_eq_bind, Option.bind_eq_some_iff] at found
          obtain ⟨lo, foundLo, found⟩ := found
          rw [Option.bind_eq_some_iff] at found
          obtain ⟨hi, foundHi, found⟩ := found
          cases found
          obtain ⟨a, memA, rfl, rfl⟩ := (resolve_single length placed
            (Locator.single_kind singleA).1 lo).mp foundLo
          obtain ⟨b, memB, rfl, rfl⟩ := (resolve_single length placed
            (Locator.single_kind singleB).1 hi).mp foundHi
          have unnamed := (lookup_unnamed length placed _).mp missing
          exact ⟨forwards a memA b memB valid unnamed, laminar.inside b memB⟩
    · obtain ⟨row, mem, _, rfl⟩ := (resolve_single length placed ranged r).mp found
      exact of_row row mem

/-- A verse of a book, where it stands in the text. -/
def verse (start stop step : UInt64) : Segment where
  start := start
  stop := stop
  level := ⟨"verse", verse_shaped⟩
  locator := .canonical "Gen" [1, step]
  lang := none
  speaker := none
  observed := none
  ids := ∅
  tzOffset := none
  reported := []
  extra := ∅

end Structure
end Smysl
