import Smysl.Graph.DeliveryOrder
import Smysl.Lib.Partition

/-!
Proposition classes: which units are claimed to say the same thing. Strict classes are a greedy
partition into cliques; components follow the claims as far as they lead, and come with the
longest of the shortest ways inside them.
-/
namespace Smysl
open ByteString

/-- `SAME_AS`. -/
def sameAs : String := "x.text/same-as"

namespace Proposition

/-- How a class is formed. -/
inductive Policy
  | strict
  | component
  | attested (n : UInt32)
  deriving DecidableEq, Repr

/-- One class of units claimed to be the same proposition. -/
structure Class where
  id : Uid
  members : BTreeSet Uid
  diameter : Option Nat

/-- How many agents have to stand behind an edge. -/
def Policy.needed : Policy → UInt32
  | attested n => n
  | _ => 0

/-- The claims, as what each unit is claimed to be the same as. -/
abbrev Edges := BTreeMap Uid (BTreeSet Uid)

namespace Edges

def link (edges : Edges) (u v : Uid) : Edges := edges.alter u fun held => (held.getD ∅).insert v

def neighbours (edges : Edges) (u : Uid) : List Uid := ((edges.get u).getD ∅).toList

def near (edges : Edges) (u v : Uid) : Bool := ((edges.get u).getD ∅).contains v

/-- The units with at least one edge, in order. -/
def vertices (edges : Edges) : List Uid := (edges.entries.filter fun e => !e.2.isEmpty).map Prod.fst

/-- A-12.4: seed with the smallest unassigned unit, then grow in order. Only the seed's
neighbours can join. -/
def strict (edges : Edges) : List Class :=
  (Cliques.partition edges.near (fun seed => (edges.neighbours seed).filter fun c => seed < c)
    edges.vertices ∅).map fun c => { id := c.1, members := c.2, diameter := none }

/-- How often a queue over the edges is taken from at most. -/
def pops (edges : Edges) : Nat := (edges.entries.map fun e => e.2.toList.length).sum + 1

/-- How far each unit is from one. -/
def depthsFrom (edges : Edges) (start : Uid) : BTreeMap Uid Nat :=
  Flood.depths edges.neighbours (edges.keys.length + 1)
    ((∅ : BTreeMap Uid Nat).insert start 0, [start])

/-- The longest of the shortest ways inside a component. -/
def diameterOf (edges : Edges) (members : BTreeSet Uid) : Nat :=
  members.toList.foldl
    (fun worst start => max worst ((edges.depthsFrom start).values.max?.getD 0)) 0

/-- Connected components, from each unit that none of those before it has. -/
def componentsFrom (edges : Edges) : List Uid → BTreeSet Uid → List Class
  | [], _ => []
  | start :: rest, seen =>
    if seen.contains start || (edges.neighbours start).isEmpty then edges.componentsFrom rest seen
    else
      let members := Flood.run edges.neighbours edges.pops (∅, [start])
      { id := members.toList.head?.getD start, members
        diameter := some (edges.diameterOf members) } ::
          edges.componentsFrom rest (seen.extend members.toList)

def components (edges : Edges) : List Class := edges.componentsFrom edges.keys ∅

end Edges
end Proposition

namespace Store

/-- Every attestation naming a uid, unit or edge. -/
def attestationsOf (s : Store) (uid : Uid) : BTreeSet Attestation :=
  match s.units.get uid with
  | some u => u.attestations
  | none => ((s.interp.relationById uid).map Relation.attestations).getD ∅

/-- The distinct agents that attested a unit or an edge. -/
def attestedBy (s : Store) (uid : Uid) : BTreeSet AgentId :=
  .ofList ((s.attestationsOf uid).toList.map Attestation.agent)

def inScope (s : Store) (scope : Option (BTreeSet Uid)) (uid : Uid) : Bool :=
  s.units.contains uid && scope.all fun set => set.contains uid

section
variable [Blake3]

/-- Whether an edge counts: a live claim of enough agents about two units in scope. -/
def claims (s : Store) (policy : Proposition.Policy) (scope : Option (BTreeSet Uid))
    (rel : Relation) : Bool :=
  rel.kind == .extension sameAs && rel.src != rel.dst && s.inScope scope rel.src &&
    s.inScope scope rel.dst && !s.interp.isWithdrawn rel &&
    !(0 < policy.needed && UInt32.ofNat (s.attestedBy rel.uid).toList.length < policy.needed)

/-- The undirected adjacency a policy admits. -/
def sameAsEdges (s : Store) (policy : Proposition.Policy) (scope : Option (BTreeSet Uid)) :
    Proposition.Edges :=
  s.interp.relations.values.foldl (fun out rel =>
    if s.claims policy scope rel then (out.link rel.src rel.dst).link rel.dst rel.src else out) ∅

/-- The classes of a store under a policy, in order of their ids. -/
def classes (s : Store) (policy : Proposition.Policy) (scope : Option (BTreeSet Uid)) :
    List Proposition.Class :=
  match policy with
  | .component => (s.sameAsEdges policy scope).components
  | _ => (s.sameAsEdges policy scope).strict

/-- Two units that a live claim of enough agents calls the same. -/
def Same (s : Store) (policy : Proposition.Policy) (scope : Option (BTreeSet Uid)) (u v : Uid) :
    Prop :=
  ∃ rel ∈ s.interp.relations.values, s.claims policy scope rel = true ∧
    (rel.src = u ∧ rel.dst = v ∨ rel.src = v ∧ rel.dst = u)

end
end Store

/-! The edges. -/

namespace Proposition.Edges
section
variable {edges : Edges} {u v : Uid}

theorem mem_neighbours : v ∈ edges.neighbours u ↔ edges.near u v = true := by
  rw [neighbours, near, BTreeSet.mem_toList, BTreeSet.mem_def]

theorem neighbours_ascending (edges : Edges) (u : Uid) : (edges.neighbours u).Pairwise (· < ·) :=
  BTreeSet.toList_pairwise _

theorem near_link {a b : Uid} : (edges.link a b).near u v = true ↔
    edges.near u v = true ∨ u = a ∧ v = b := by
  rw [near, link, BTreeMap.get_alter]
  split
  · rename_i same
    rw [Option.getD_some, ← BTreeSet.mem_def, BTreeSet.mem_insert, near, ← BTreeSet.mem_def, same,
      or_comm, and_iff_right rfl]
  · rename_i other
    exact (or_iff_left fun both => other both.1).symm

theorem near_empty : Edges.near ∅ u v = false := rfl

/-- A unit that is next to another has an entry. -/
theorem near_entry (close : edges.near u v = true) :
    ∃ set, edges.get u = some set ∧ v ∈ set := by
  rw [near] at close
  cases found : edges.get u with
  | none =>
    rw [found] at close
    exact absurd ((BTreeSet.mem_def _ _).mpr close) (BTreeSet.not_mem_emptyCollection v)
  | some set =>
    rw [found] at close
    exact ⟨set, rfl, (BTreeSet.mem_def _ _).mpr close⟩

theorem mem_vertices : u ∈ edges.vertices ↔ ∃ v, edges.near u v = true := by
  rw [vertices, List.mem_map]
  constructor
  · rintro ⟨e, mem, rfl⟩
    obtain ⟨held, some'⟩ := List.mem_filter.mp mem
    have found := (BTreeMap.mem_entries_iff edges e.1 e.2).mp held
    rw [Bool.not_eq_true', ← Bool.not_eq_true, BTreeSet.isEmpty_iff] at some'
    by_contra none'
    refine some' (BTreeSet.ext_mem fun v => ⟨fun mem => (none' ⟨v, ?_⟩).elim, fun mem =>
      absurd mem (BTreeSet.not_mem_emptyCollection v)⟩)
    rw [near, found]
    exact (BTreeSet.mem_def _ _).mp mem
  · rintro ⟨v, close⟩
    obtain ⟨set, found, held⟩ := near_entry close
    refine ⟨(u, set), List.mem_filter.mpr ⟨(BTreeMap.mem_entries_iff _ _ _).mpr found, ?_⟩, rfl⟩
    rw [Bool.not_eq_true', ← Bool.not_eq_true, BTreeSet.isEmpty_iff]
    intro none'
    change set = ∅ at none'
    rw [none'] at held
    exact absurd held (BTreeSet.not_mem_emptyCollection v)

theorem vertices_ascending (edges : Edges) : edges.vertices.Pairwise (· < ·) := by
  have keys : (edges.entries.map Prod.fst).Pairwise (· < ·) := edges.keys_pairwise
  exact keys.sublist (List.filter_sublist.map Prod.fst)

/-- The candidates of a seed are the later vertices that are next to it. -/
theorem candidates_next (symmetric : ∀ a b, edges.near a b = edges.near b a) (seed : Uid) :
    ((edges.neighbours seed).filter fun c => seed < c) =
      (Cliques.after edges.vertices seed).filter fun c => edges.near c seed := by
  refine (edges.neighbours_ascending seed).filter _ |>.eq_of_mem_iff
    (((edges.vertices_ascending.filter _).filter _)) fun c => ?_
  rw [Cliques.after, List.mem_filter, List.mem_filter, List.mem_filter, mem_neighbours,
    mem_vertices, symmetric c]
  constructor
  · rintro ⟨close, later⟩
    exact ⟨⟨⟨seed, by rw [symmetric]; exact close⟩, later⟩, close⟩
  · rintro ⟨⟨_, later⟩, close⟩
    exact ⟨close, later⟩

end
end Proposition.Edges

/-! Components. -/

namespace Proposition

/-- The connected components of a graph, each as a class: in the order of their least members,
every unit with an edge in one of them, all of what a member reaches, and the greatest of the
distances. -/
structure Components (graph : SimpleGraph Uid) (classes : List Class) : Prop where
  ordered : (classes.map Class.id).Pairwise (· < ·)
  least : ∀ c ∈ classes, c.id ∈ c.members ∧ ∀ m ∈ c.members, c.id ≤ m
  covered : ∀ u, (∃ v, graph.Adj u v) ↔ ∃ c ∈ classes, u ∈ c.members
  whole : ∀ c ∈ classes, ∀ u ∈ c.members, ∀ v, v ∈ c.members ↔ graph.Reachable u v
  across : ∀ c ∈ classes, ∃ d, c.diameter = some d ∧
    IsGreatest {k | ∃ u ∈ c.members, ∃ v ∈ c.members, graph.dist u v = k} d

namespace Edges
section
variable {edges : Edges} {graph : SimpleGraph Uid}

/-- A search has room for every edge. -/
theorem owed_pops (edges : Edges) :
    1 + Flood.owed edges.neighbours edges.keys ∅ ≤ edges.pops := by
  have every : ∀ es : List (Uid × BTreeSet Uid), (∀ e ∈ es, edges.get e.1 = some e.2) →
      (((es.map Prod.fst).filter fun n => !(∅ : BTreeSet Uid).contains n).map
        fun n => (edges.neighbours n).length).sum = (es.map fun e => e.2.toList.length).sum := by
    intro es held
    induction es with
    | nil => rfl
    | cons e es ih =>
      have rest := ih fun e' mem => held e' (List.mem_cons_of_mem _ mem)
      have here : edges.neighbours e.1 = e.2.toList := by
        rw [neighbours, held e List.mem_cons_self]
        rfl
      rw [List.map_cons, List.filter_cons_of_pos rfl, List.map_cons, List.sum_cons, rest, here,
        List.map_cons, List.sum_cons]
  rw [pops, Nat.add_comm]
  refine Nat.add_le_add_right (le_of_eq (every edges.entries fun e mem => ?_)) 1
  exact (BTreeMap.mem_entries_iff edges e.1 e.2).mp mem

section
variable (adj : ∀ a b, edges.near a b = true ↔ graph.Adj a b)
include adj

theorem adj_neighbours (a b : Uid) : b ∈ edges.neighbours a ↔ graph.Adj a b :=
  mem_neighbours.trans (adj a b)

theorem adj_key {a b : Uid} (edge : graph.Adj a b) : a ∈ edges.keys := by
  obtain ⟨_, found, _⟩ := near_entry ((adj a b).mpr edge)
  rw [BTreeMap.mem_keys_iff, BTreeMap.contains, found]
  rfl

/-- Taking with a queue takes the whole component. -/
theorem mem_taken {start : Uid} (inside : start ∈ edges.keys) (v : Uid) :
    v ∈ Flood.run edges.neighbours edges.pops (∅, [start]) ↔ graph.Reachable start v := by
  rw [Flood.mem_run (fun n m mem => ?_) inside edges.owed_pops,
    Flood.reachable_iff_steps (adj_neighbours adj)]
  exact adj_key adj ((adj_neighbours adj n m).mp mem).symm

theorem get_depths (start : Uid) (v : Uid) (d : Nat) :
    (edges.depthsFrom start).get v = some d ↔ graph.Reachable start v ∧ graph.dist start v = d := by
  have bounded : ∀ n, ∀ m ∈ edges.neighbours n, m ∈ edges.keys := fun n m mem =>
    adj_key adj ((adj_neighbours adj n m).mp mem).symm
  rw [depthsFrom, Flood.depths_exact bounded le_rfl, Flood.distance_iff_dist (adj_neighbours adj)]

/-- The farthest unit of a search has the greatest distance. -/
theorem depths_greatest (start : Uid) :
    IsGreatest {k | ∃ v, graph.Reachable start v ∧ graph.dist start v = k}
      ((edges.depthsFrom start).values.max?.getD 0) := by
  have held : ∀ k, k ∈ (edges.depthsFrom start).values ↔
      ∃ v, graph.Reachable start v ∧ graph.dist start v = k := by
    intro k
    rw [BTreeMap.values, List.mem_map]
    constructor
    · rintro ⟨e, mem, rfl⟩
      exact ⟨e.1, (get_depths adj start e.1 e.2).mp ((BTreeMap.mem_entries_iff _ _ _).mp mem)⟩
    · rintro ⟨v, far⟩
      exact ⟨(v, k), (BTreeMap.mem_entries_iff _ _ _).mpr ((get_depths adj start v k).mpr far), rfl⟩
  have zero : 0 ∈ (edges.depthsFrom start).values :=
    (held 0).mpr ⟨start, .rfl, SimpleGraph.dist_self⟩
  cases most : (edges.depthsFrom start).values.max? with
  | none =>
    rw [List.max?_eq_none_iff.mp most] at zero
    cases zero
  | some d =>
    obtain ⟨mem, above⟩ := (List.max?_eq_some_iff).mp most
    exact ⟨(held d).mp mem, fun k far => above k ((held k).mpr far)⟩

theorem diameter_greatest {members : BTreeSet Uid} (some' : ∃ u, u ∈ members)
    (whole : ∀ u ∈ members, ∀ v, v ∈ members ↔ graph.Reachable u v) :
    IsGreatest {k | ∃ u ∈ members, ∃ v ∈ members, graph.dist u v = k}
      (edges.diameterOf members) := by
  have general : ∀ (us : List Uid) (worst : Nat),
      IsGreatest {k | k = worst ∨ ∃ u ∈ us, ∃ v, graph.Reachable u v ∧ graph.dist u v = k}
        (us.foldl (fun worst u => max worst ((edges.depthsFrom u).values.max?.getD 0)) worst) := by
    intro us
    induction us with
    | nil =>
      refine fun worst => ⟨.inl rfl, fun k far => far.elim le_of_eq ?_⟩
      rintro ⟨u, mem, _⟩
      cases mem
    | cons u us ih =>
      intro worst
      obtain ⟨here, above⟩ := depths_greatest adj u
      obtain ⟨attained, beyond⟩ :=
        ih (max worst ((edges.depthsFrom u).values.max?.getD 0))
      rw [List.foldl_cons]
      refine ⟨?_, fun k far => ?_⟩
      · rcases attained with same | ⟨w, mem, far⟩
        · rw [same]
          rcases max_choice worst ((edges.depthsFrom u).values.max?.getD 0) with left | right
          · exact .inl left
          · rw [right]
            exact .inr ⟨u, List.mem_cons_self, here⟩
        · exact .inr ⟨w, List.mem_cons_of_mem _ mem, far⟩
      · have first := beyond (.inl rfl)
        rcases far with rfl | ⟨w, mem, far⟩
        · exact (le_max_left _ _).trans first
        · rcases List.mem_cons.mp mem with rfl | later
          · exact (above far).trans ((le_max_right _ _).trans first)
          · exact beyond (.inr ⟨w, later, far⟩)
  obtain ⟨attained, above⟩ := general members.toList 0
  refine ⟨?_, fun k far => ?_⟩
  · rcases attained with none' | ⟨u, mem, v, reach, far⟩
    · obtain ⟨u, mem⟩ := some'
      exact ⟨u, mem, u, mem, SimpleGraph.dist_self.trans none'.symm⟩
    · have held := (BTreeSet.mem_toList _ _).mp mem
      exact ⟨u, held, v, (whole u held v).mpr reach, far⟩
  · obtain ⟨u, mem, v, mem', far⟩ := far
    exact above (.inr ⟨u, (BTreeSet.mem_toList _ _).mpr mem, v, (whole u mem v).mp mem', far⟩)

end

/-- What the components of the units that are left are, where some have one already. -/
structure Left (graph : SimpleGraph Uid) (rest : List Uid) (seen : BTreeSet Uid)
    (classes : List Class) : Prop where
  ordered : (classes.map Class.id).Pairwise (· < ·)
  opened : ∀ c ∈ classes, c.id ∈ rest
  least : ∀ c ∈ classes, c.id ∈ c.members ∧ ∀ m ∈ c.members, c.id ≤ m
  covered : ∀ u, ((∃ v, graph.Adj u v) ∧ u ∉ seen) ↔ ∃ c ∈ classes, u ∈ c.members
  whole : ∀ c ∈ classes, ∀ u ∈ c.members, ∀ v, v ∈ c.members ↔ graph.Reachable u v
  across : ∀ c ∈ classes, ∃ d, c.diameter = some d ∧
    IsGreatest {k | ∃ u ∈ c.members, ∃ v ∈ c.members, graph.dist u v = k} d

/-- The least of a set that one is in and none is below. -/
theorem head_least {members : BTreeSet Uid} {start : Uid} (mem : start ∈ members)
    (least : ∀ m ∈ members, start ≤ m) : members.toList.head?.getD start = start := by
  have ascending := members.toList_pairwise
  cases listed : members.toList with
  | nil => rfl
  | cons first more =>
    rw [List.head?_cons, Option.getD_some]
    have inside : first ∈ members := by
      rw [← BTreeSet.mem_toList, listed]
      exact List.mem_cons_self
    refine le_antisymm ?_ (least first inside)
    have place := (BTreeSet.mem_toList _ _).mpr mem
    rw [listed] at place ascending
    rcases List.mem_cons.mp place with same | later
    · exact same.ge
    · exact ((List.pairwise_cons.mp ascending).1 start later).le

theorem components_left (adj : ∀ a b, edges.near a b = true ↔ graph.Adj a b)
    {done rest : List Uid} (keys : edges.keys = done ++ rest) {seen : BTreeSet Uid}
    (taken : ∀ u, u ∈ seen ↔ ∃ start ∈ done, (∃ v, graph.Adj start v) ∧ graph.Reachable start u) :
    Left graph rest seen (edges.componentsFrom rest seen) := by
  induction rest generalizing done seen with
  | nil =>
    refine ⟨.nil, List.forall_mem_nil _, List.forall_mem_nil _, fun u => ⟨?_, ?_⟩,
      List.forall_mem_nil _, List.forall_mem_nil _⟩
    · rintro ⟨⟨v, edge⟩, free⟩
      have mem := adj_key adj edge
      rw [keys, List.append_nil] at mem
      exact absurd ((taken u).mpr ⟨u, mem, ⟨v, edge⟩, .rfl⟩) free
    · rintro ⟨_, none', _⟩
      cases none'
  | cons start rest ih =>
    have keys' : edges.keys = done ++ [start] ++ rest := by
      rw [keys, List.append_assoc]
      rfl
    have alone : (edges.neighbours start).isEmpty = true ↔ ¬ ∃ v, graph.Adj start v := by
      rw [List.isEmpty_iff, List.eq_nil_iff_forall_not_mem, not_exists]
      exact forall_congr' fun v => not_congr (adj_neighbours adj start v)
    rw [componentsFrom]
    split
    · -- The unit has a component already, or nothing is claimed of it.
      rename_i past
      rw [Bool.or_eq_true, alone, ← BTreeSet.mem_def] at past
      have taken' : ∀ u, u ∈ seen ↔
          ∃ first ∈ done ++ [start], (∃ v, graph.Adj first v) ∧ graph.Reachable first u := by
        intro u
        rw [taken u]
        constructor
        · rintro ⟨first, mem, held⟩
          exact ⟨first, List.mem_append_left _ mem, held⟩
        · rintro ⟨first, mem, edge, reach⟩
          rcases List.mem_append.mp mem with early | here
          · exact ⟨first, early, edge, reach⟩
          · cases List.mem_singleton.mp here
            obtain ⟨root, early, edge', lead⟩ :=
              (taken start).mp (past.resolve_right (not_not_intro edge))
            exact ⟨root, early, edge', lead.trans reach⟩
      have later := ih keys' taken'
      exact { later with opened := fun c mem => List.mem_cons_of_mem _ (later.opened c mem) }
    · rename_i fresh
      rw [Bool.or_eq_true, alone, ← BTreeSet.mem_def, not_or, not_not] at fresh
      obtain ⟨free, edge⟩ := fresh
      have inside : start ∈ edges.keys := by
        rw [keys]
        exact List.mem_append_right _ List.mem_cons_self
      have mem_members := mem_taken adj inside
      generalize Flood.run edges.neighbours edges.pops (∅, [start]) = members at mem_members
      -- What it reaches has an edge, and no component yet.
      have edged : ∀ u ∈ members, ∃ v, graph.Adj u v := by
        intro u mem
        by_cases same : u = start
        · exact same ▸ edge
        · exact Flood.reachable_adj ((mem_members u).mp mem) same
      have unseen : ∀ u ∈ members, u ∉ seen := by
        intro u mem held
        obtain ⟨root, early, edge', lead⟩ := (taken u).mp held
        exact free ((taken start).mpr
          ⟨root, early, edge', lead.trans ((mem_members u).mp mem).symm⟩)
      have least : ∀ m ∈ members, start ≤ m := by
        intro m mem
        obtain ⟨v, edge'⟩ := edged m mem
        have listed := adj_key adj edge'
        have ascending := edges.keys_pairwise
        rw [keys] at listed ascending
        rcases List.mem_append.mp listed with early | late
        · exact absurd ((taken m).mpr ⟨m, early, ⟨v, edge'⟩, .rfl⟩) (unseen m mem)
        · rcases List.mem_cons.mp late with same | later
          · exact same.ge
          · have tail := (List.pairwise_append.mp ascending).2.1
            exact ((List.pairwise_cons.mp tail).1 m later).le
      have whole : ∀ u ∈ members, ∀ v, v ∈ members ↔ graph.Reachable u v := by
        intro u mem v
        have lead := (mem_members u).mp mem
        rw [mem_members]
        exact ⟨lead.symm.trans, lead.trans⟩
      have opener := (mem_members start).mpr .rfl
      have taken' : ∀ u, u ∈ seen.extend members.toList ↔
          ∃ first ∈ done ++ [start], (∃ v, graph.Adj first v) ∧ graph.Reachable first u := by
        intro u
        rw [BTreeSet.mem_extend, BTreeSet.mem_toList, mem_members, taken u]
        constructor
        · rintro (reach | ⟨first, mem, held⟩)
          · exact ⟨start, List.mem_append_right _ List.mem_cons_self, edge, reach⟩
          · exact ⟨first, List.mem_append_left _ mem, held⟩
        · rintro ⟨first, mem, held⟩
          rcases List.mem_append.mp mem with early | here
          · exact .inr ⟨first, early, held⟩
          · cases List.mem_singleton.mp here
            exact .inl held.2
      have later := ih keys' taken'
      dsimp only
      rw [head_least opener least]
      have tail := (List.pairwise_append.mp (keys ▸ edges.keys_pairwise)).2.1
      refine ⟨?_, ?_, ?_, fun u => ?_, ?_, ?_⟩
      · rw [List.map_cons, List.pairwise_cons]
        refine ⟨fun id mem => ?_, later.ordered⟩
        obtain ⟨c, among, rfl⟩ := List.mem_map.mp mem
        exact (List.pairwise_cons.mp tail).1 c.id (later.opened c among)
      · exact List.forall_mem_cons.mpr
          ⟨List.mem_cons_self, fun c mem => List.mem_cons_of_mem _ (later.opened c mem)⟩
      · exact List.forall_mem_cons.mpr ⟨⟨opener, least⟩, later.least⟩
      · rw [List.exists_mem_cons_iff, ← later.covered u, BTreeSet.mem_extend, BTreeSet.mem_toList]
        by_cases mem : u ∈ members
        · exact iff_of_true ⟨edged u mem, unseen u mem⟩ (.inl mem)
        · rw [or_iff_right mem, or_iff_right mem]
      · exact List.forall_mem_cons.mpr ⟨whole, later.whole⟩
      · exact List.forall_mem_cons.mpr
          ⟨⟨_, rfl, diameter_greatest adj ⟨start, opener⟩ whole⟩, later.across⟩

theorem components_of (adj : ∀ a b, edges.near a b = true ↔ graph.Adj a b) :
    Components graph edges.components := by
  have none' : ∀ u, u ∈ (∅ : BTreeSet Uid) ↔
      ∃ start ∈ ([] : List Uid), (∃ v, graph.Adj start v) ∧ graph.Reachable start u := by
    intro u
    simp
  have left := components_left adj (List.nil_append edges.keys).symm none'
  refine ⟨left.ordered, left.least, fun u => ?_, left.whole, left.across⟩
  rw [components, ← left.covered u, and_iff_left (BTreeSet.not_mem_emptyCollection u)]

end
end Edges

/-- A graph has one list of components. -/
theorem Components.unique {graph : SimpleGraph Uid} {cs ds : List Class}
    (one : Components graph cs) (two : Components graph ds) : cs = ds := by
  have within : ∀ {cs ds : List Class}, Components graph cs → Components graph ds →
      ∀ c ∈ cs, c ∈ ds := by
    intro cs ds one two c here
    have opener := (one.least c here).1
    obtain ⟨d, there, held⟩ := (two.covered c.id).mp ((one.covered c.id).mpr ⟨c, here, opener⟩)
    suffices alike : d = c from alike ▸ there
    have members : d.members = c.members := BTreeSet.ext_mem fun v =>
      (two.whole d there c.id held v).trans (one.whole c here c.id opener v).symm
    have id : d.id = c.id := le_antisymm ((two.least d there).2 c.id held)
      ((one.least c here).2 d.id (members ▸ (two.least d there).1))
    obtain ⟨far, across, greatest⟩ := one.across c here
    obtain ⟨far', across', greatest'⟩ := two.across d there
    rw [members] at greatest'
    have diameter : d.diameter = c.diameter := by
      rw [across, across', greatest'.unique greatest]
    cases c
    cases d
    cases id
    cases members
    cases diameter
    rfl
  have ascending : ∀ {cs : List Class}, Components graph cs →
      cs.Pairwise fun c d => c.id < d.id := fun one => List.pairwise_map.mp one.ordered
  refine (List.perm_ext_iff_of_nodup ?_ ?_).mpr (fun c =>
    ⟨within one two c, within two one c⟩) |>.eq_of_pairwise ?_ (ascending one) (ascending two)
  · exact (ascending one).imp fun less same => (same ▸ less).false
  · exact (ascending two).imp fun less same => (same ▸ less).false
  · exact fun c d _ _ less more => absurd more less.asymm

/-- Among the components and the greedy cliques of one graph, a component of diameter 1 is a
clique, and a clique that is a component has diameter 1. -/
theorem Components.diameter_one {graph : SimpleGraph Uid} {cs : List Class}
    (components : Components graph cs) {ds : List (Uid × BTreeSet Uid)}
    (greedy : Cliques.Greedy graph.Adj (fun v => ∃ w, graph.Adj v w) ds) {c : Class}
    (here : c ∈ cs) : c.diameter = some 1 ↔ (c.id, c.members) ∈ ds := by
  obtain ⟨opener, first⟩ := components.least c here
  obtain ⟨far, across, ⟨attained, greatest⟩⟩ := components.across c here
  rw [across]
  constructor
  · rintro ⟨⟩
    -- Members are next to each other, so none is left to a later clique.
    have close : ∀ u ∈ c.members, ∀ v ∈ c.members, u ≠ v → graph.Adj u v := by
      intro u mem v mem' other
      have reach := (components.whole c here u mem v).mp mem'
      have apart := reach.pos_dist_of_ne other
      have near := greatest ⟨u, mem, v, mem', rfl⟩
      exact SimpleGraph.dist_eq_one_iff_adj.mp (le_antisymm near apart)
    have inside : ∀ u ∈ c.members, ∀ d ∈ ds, u ∈ d.2 →
        d.1 ∈ c.members ∧ ∀ v ∈ d.2, v ∈ c.members := by
      intro u mem d there held
      have each : ∀ v ∈ d.2, v ∈ c.members := by
        intro v held'
        by_cases same : u = v
        · exact same ▸ mem
        · exact (components.whole c here u mem v).mpr
            (greedy.cliques d there u held v held' same).reachable
      exact ⟨each d.1 (greedy.least d there).1, each⟩
    obtain ⟨d, there, held⟩ :=
      (greedy.covered c.id).mp ((components.covered c.id).mpr ⟨c, here, opener⟩)
    obtain ⟨within, each⟩ := inside c.id opener d there held
    have id : d.1 = c.id := le_antisymm ((greedy.least d there).2 c.id held) (first d.1 within)
    suffices members : d.2 = c.members by
      rw [← id, ← members]
      exact there
    refine BTreeSet.ext_mem fun v => ⟨each v, fun mem => ?_⟩
    obtain ⟨e, among, held'⟩ :=
      (greedy.covered v).mp ((components.covered v).mpr ⟨c, here, mem⟩)
    by_cases same : e.1 = d.1
    · have shared := (greedy.least e among).1
      rw [same] at shared
      exact greedy.apart e among d there d.1 shared (greedy.least d there).1 ▸ held'
    · have before : d.1 < e.1 :=
        lt_of_le_of_ne (id ▸ first e.1 (inside v mem e among held').1) (Ne.symm same)
      obtain ⟨m, within', early, apart⟩ := greedy.taken d there e among before v held'
        (before.trans_le ((greedy.least e among).2 v held'))
      exact absurd (close v mem m (each m within') early.ne') apart
  · intro there
    have close := greedy.cliques _ there
    obtain ⟨w, edge⟩ := (components.covered c.id).mpr ⟨c, here, opener⟩
    have mem := (components.whole c here c.id opener w).mpr edge.reachable
    have one := greatest ⟨c.id, opener, w, mem, SimpleGraph.dist_eq_one_iff_adj.mpr edge⟩
    obtain ⟨u, mem', v, mem'', rfl⟩ := attained
    refine congrArg some (le_antisymm ?_ one)
    by_cases same : u = v
    · rw [same, SimpleGraph.dist_self]
      exact Nat.zero_le 1
    · exact (SimpleGraph.dist_eq_one_iff_adj.mpr (close u mem' v mem'' same)).le

end Proposition

namespace Store
section
variable [Blake3] {s : Store} {policy : Proposition.Policy} {scope : Option (BTreeSet Uid)}
  {u v : Uid}

/-- The adjacency is the claims that count, read either way. -/
theorem near_same : (s.sameAsEdges policy scope).near u v = true ↔ s.Same policy scope u v := by
  have general : ∀ (rels : List Relation) (edges : Proposition.Edges),
      (rels.foldl (fun out rel => if s.claims policy scope rel then
          (out.link rel.src rel.dst).link rel.dst rel.src else out) edges).near u v = true ↔
        edges.near u v = true ∨ ∃ rel ∈ rels, s.claims policy scope rel = true ∧
          (rel.src = u ∧ rel.dst = v ∨ rel.src = v ∧ rel.dst = u) := by
    intro rels
    induction rels with
    | nil => simp
    | cons rel rels ih =>
      intro edges
      rw [List.foldl_cons, ih]
      simp only [List.exists_mem_cons_iff]
      by_cases counts : s.claims policy scope rel = true
      · rw [if_pos counts, Proposition.Edges.near_link, Proposition.Edges.near_link,
          and_iff_right counts, or_assoc, or_assoc,
          eq_comm (a := u), eq_comm (a := v), eq_comm (a := u), eq_comm (a := v),
          and_comm (a := rel.dst = u), or_assoc]
      · rw [if_neg counts]
        simp [counts]
  rw [sameAsEdges, general, Proposition.Edges.near_empty, Same]
  exact or_iff_right Bool.false_ne_true

theorem Same.symm (same : s.Same policy scope u v) : s.Same policy scope v u := by
  obtain ⟨rel, mem, counts, ends⟩ := same
  exact ⟨rel, mem, counts, ends.symm⟩

theorem Same.ne (same : s.Same policy scope u v) : u ≠ v := by
  obtain ⟨rel, _, counts, ends⟩ := same
  simp only [claims, Bool.and_eq_true, bne_iff_ne] at counts
  rcases ends with ⟨rfl, rfl⟩ | ⟨rfl, rfl⟩
  · exact counts.1.1.1.1.2
  · exact counts.1.1.1.1.2.symm

theorem near_symmetric (s : Store) (policy : Proposition.Policy) (scope : Option (BTreeSet Uid))
    (u v : Uid) : (s.sameAsEdges policy scope).near u v =
      (s.sameAsEdges policy scope).near v u := by
  rw [Bool.eq_iff_iff, near_same, near_same]
  exact ⟨Same.symm, Same.symm⟩

/-! Strict classes. -/

/-- Trying the neighbours of a seed gives what trying every later unit gives. -/
theorem strict_plain (s : Store) (policy : Proposition.Policy) (scope : Option (BTreeSet Uid)) :
    (s.sameAsEdges policy scope).strict =
      (Cliques.partition (s.sameAsEdges policy scope).near
        (Cliques.after (s.sameAsEdges policy scope).vertices)
        (s.sameAsEdges policy scope).vertices ∅).map
          fun c => { id := c.1, members := c.2, diameter := none } := by
  rw [Proposition.Edges.strict, Cliques.partition_next (Cliques.after _) ∅]
  exact fun seed _ => Proposition.Edges.candidates_next (s.near_symmetric policy scope) seed

theorem strict_bare : ∀ c ∈ (s.sameAsEdges policy scope).strict, c.diameter = none := by
  intro c mem
  obtain ⟨_, _, rfl⟩ := List.mem_map.mp mem
  rfl

/-- A class without its diameter. -/
def parts (classes : List Proposition.Class) : List (Uid × BTreeSet Uid) :=
  classes.map fun c => (c.id, c.members)

theorem greedy_strict (s : Store) (policy : Proposition.Policy) (scope : Option (BTreeSet Uid)) :
    Cliques.Greedy (s.Same policy scope) (fun v => ∃ w, s.Same policy scope v w)
      (parts (s.sameAsEdges policy scope).strict) := by
  have greedy := Cliques.partition_greedy (s.sameAsEdges policy scope).vertices_ascending
    (s.near_symmetric policy scope)
  have named : parts (s.sameAsEdges policy scope).strict =
      Cliques.partition (s.sameAsEdges policy scope).near
        (Cliques.after (s.sameAsEdges policy scope).vertices)
        (s.sameAsEdges policy scope).vertices ∅ := by
    rw [strict_plain, parts, List.map_map]
    exact List.map_id _
  rw [named]
  refine ⟨greedy.ordered, greedy.least, fun v => ?_, greedy.apart, fun c mem a one b two other =>
    near_same.mp (greedy.cliques c mem a one b two other),
    fun c mem d mem' less v held later => ?_⟩
  · rw [← greedy.covered v, Proposition.Edges.mem_vertices]
    simp only [near_same]
  · obtain ⟨m, inside, early, unlike⟩ := greedy.taken c mem d mem' less v held later
    exact ⟨m, inside, early, fun same => unlike (near_same.mpr same)⟩

/-- Greedy cliques of the claims, without diameters, are the strict classes. -/
theorem strict_of_greedy {cs : List Proposition.Class} (bare : ∀ c ∈ cs, c.diameter = none)
    (greedy : Cliques.Greedy (s.Same policy scope) (fun v => ∃ w, s.Same policy scope v w)
      (parts cs)) : (s.sameAsEdges policy scope).strict = cs := by
  have rebuilt : ∀ cs : List Proposition.Class, (∀ c ∈ cs, c.diameter = none) →
      (parts cs).map (fun c => { id := c.1, members := c.2, diameter := none }) = cs := by
    intro cs bare
    rw [parts, List.map_map]
    refine (List.map_congr_left fun c mem => ?_).trans (List.map_id cs)
    rw [Function.comp_apply, ← bare c mem]
    rfl
  rw [← rebuilt _ strict_bare, (s.greedy_strict policy scope).unique greedy, rebuilt _ bare]

theorem strict_iff (s : Store) (policy : Proposition.Policy) (scope : Option (BTreeSet Uid))
    (cs : List Proposition.Class) :
    (s.sameAsEdges policy scope).strict = cs ↔ (∀ c ∈ cs, c.diameter = none) ∧
      Cliques.Greedy (s.Same policy scope) (fun v => ∃ w, s.Same policy scope v w) (parts cs) := by
  constructor
  · rintro rfl
    exact ⟨strict_bare, s.greedy_strict policy scope⟩
  · exact fun both => strict_of_greedy both.1 both.2

/-- The strict classes are the one answer there is: greedy cliques of the claims, in the order
of the units that opened them, without a diameter. Asking for agents only changes which claims
count. -/
theorem strict_classes_iff (s : Store) (n : UInt32) (scope : Option (BTreeSet Uid))
    (cs : List Proposition.Class) :
    (s.classes .strict scope = cs ↔ (∀ c ∈ cs, c.diameter = none) ∧
      Cliques.Greedy (s.Same .strict scope) (fun v => ∃ w, s.Same .strict scope v w)
        (parts cs)) ∧
    (s.classes (.attested n) scope = cs ↔ (∀ c ∈ cs, c.diameter = none) ∧
      Cliques.Greedy (s.Same (.attested n) scope) (fun v => ∃ w, s.Same (.attested n) scope v w)
        (parts cs)) :=
  ⟨s.strict_iff .strict scope cs, s.strict_iff (.attested n) scope cs⟩

/-- Only trying the neighbours of a seed gives the classes that trying every later unit with an
edge gives. -/
theorem strict_classes_plain (s : Store) (n : UInt32) (scope : Option (BTreeSet Uid)) :
    let plain := fun policy : Proposition.Policy =>
      (Cliques.partition (s.sameAsEdges policy scope).near
        (Cliques.after (s.sameAsEdges policy scope).vertices)
        (s.sameAsEdges policy scope).vertices ∅).map
          fun c => ({ id := c.1, members := c.2, diameter := none } : Proposition.Class)
    s.classes .strict scope = plain .strict ∧ s.classes (.attested n) scope = plain (.attested n) :=
  ⟨s.strict_plain .strict scope, s.strict_plain (.attested n) scope⟩

/-! Component classes. -/

/-- The claims that count, as a graph. -/
def sameGraph (s : Store) (policy : Proposition.Policy) (scope : Option (BTreeSet Uid)) :
    SimpleGraph Uid where
  Adj := s.Same policy scope
  symm := ⟨fun _ _ => Same.symm⟩
  loopless := ⟨fun _ same => same.ne rfl⟩

theorem components_component (s : Store) (scope : Option (BTreeSet Uid)) :
    Proposition.Components (s.sameGraph .component scope) (s.classes .component scope) :=
  Proposition.Edges.components_of fun _ _ => near_same

/-- The component classes are the connected components of the claims, with their diameters. -/
theorem component_classes_iff (s : Store) (scope : Option (BTreeSet Uid))
    (cs : List Proposition.Class) :
    s.classes .component scope = cs ↔
      Proposition.Components (s.sameGraph .component scope) cs := by
  have here := s.components_component scope
  exact ⟨fun same => same ▸ here, here.unique⟩

/-- A component of diameter 1 is a strict class, and a strict class that is a component has
diameter 1. -/
theorem component_strict_iff (s : Store) (scope : Option (BTreeSet Uid)) (id : Uid)
    (members : BTreeSet Uid) :
    { id, members, diameter := some 1 } ∈ s.classes .component scope ↔
      { id, members, diameter := none } ∈ s.classes .strict scope ∧
        ∃ d, { id, members, diameter := d } ∈ s.classes .component scope := by
  -- Neither policy asks for agents, so both read the same claims.
  have greedy : Cliques.Greedy (s.sameGraph .component scope).Adj
      (fun v => ∃ w, (s.sameGraph .component scope).Adj v w) (parts (s.classes .strict scope)) :=
    s.greedy_strict .strict scope
  have strict : (id, members) ∈ parts (s.classes .strict scope) ↔
      { id, members, diameter := none } ∈ s.classes .strict scope := by
    rw [parts, List.mem_map]
    refine ⟨fun ⟨c, there, same⟩ => ?_, fun there => ⟨_, there, rfl⟩⟩
    have bare : c.diameter = none := strict_bare c there
    cases c
    cases bare
    cases same
    exact there
  have components := s.components_component scope
  constructor
  · intro here
    exact ⟨strict.mp ((components.diameter_one greedy here).mp rfl), some 1, here⟩
  · rintro ⟨there, d, here⟩
    have one : d = some 1 := (components.diameter_one greedy here).mpr (strict.mpr there)
    rw [← one]
    exact here

/-! The order of delivery. -/

section
variable [Unicode] {given given' : List Record} {t : Store}

/-- An edge that is held has a kind that is read back from its name. -/
theorem kind_held (delivered : Delivered given s) (clean : Clean given) {key : RelKey}
    {rel : Relation} (held : s.interp.relations.get key = some rel) :
    relKey rel = key ∧ RelKind.parse rel.kind.asStr = some rel.kind := by
  obtain ⟨r, mem, keyed, same⟩ := delivered.edge_from clean held
  have kind : RelKind.parse r.bare.kind.asStr = some r.bare.kind :=
    (clean.faithful _ mem).valid.kind
  rw [same] at kind
  refine ⟨?_, kind⟩
  rw [← keyed]
  exact (congrArg relKey same).symm

/-- Who attested an edge that two stores hold is the same in both. -/
theorem attestations_level (left : Delivered given s) (right : Delivered given' t)
    (clean : Clean given) (same : ∀ r, r ∈ given ↔ r ∈ given') {key : RelKey} {rel rel' : Relation}
    (held : s.interp.relations.get key = some rel)
    (held' : t.interp.relations.get key = some rel') :
    s.attestationsOf rel.uid = t.attestationsOf rel'.uid := by
  have clean' : Clean given' := clean.mono fun r mem => (same r).mpr mem
  have level := left.level right clean same
  obtain ⟨_, run, _⟩ := left.run clean
  obtain ⟨_, run', _⟩ := right.run clean'
  obtain ⟨keyed, named⟩ := held_rid (run.kept.told (left.subjects_apart clean)) run.kept.sound held
  obtain ⟨keyed', named'⟩ :=
    held_rid (run'.kept.told (right.subjects_apart clean')) run'.kept.sound held'
  have uid : rel.uid = rel'.uid := uid_of_key (keyed.trans keyed'.symm)
  have units : s.units.contains rel.uid = t.units.contains rel'.uid := by
    rw [Bool.eq_iff_iff, left.unit_held clean, right.unit_held clean', uid]
    simp only [same]
  rw [BTreeMap.contains, BTreeMap.contains] at units
  rw [attestationsOf, attestationsOf]
  cases here : s.units.get rel.uid with
  | some u =>
    rw [here] at units
    obtain ⟨u', there⟩ := Option.isSome_iff_exists.mp units.symm
    rw [there]
    refine BTreeSet.ext_mem fun a => ?_
    rw [left.unit_on clean here, right.unit_on clean' there, same, uid]
  | none =>
    rw [here] at units
    have there : t.units.get rel'.uid = none := by
      rw [← Option.not_isSome_iff_eq_none, ← units]
      exact Bool.false_ne_true
    rw [there]
    dsimp only
    rw [Interpretive.relationById, Interpretive.relationById, named, named', Option.bind_some,
      Option.bind_some, held, held', Option.map_some, Option.map_some,
      level.attested key rel rel' held held']

theorem same_delivered (left : Delivered given s) (right : Delivered given' t)
    (clean : Clean given) (same : ∀ r, r ∈ given ↔ r ∈ given') (both : s.Same policy scope u v) :
    t.Same policy scope u v := by
  have clean' : Clean given' := clean.mono fun r mem => (same r).mpr mem
  have level := left.level right clean same
  obtain ⟨rel, mem, counts, ends⟩ := both
  obtain ⟨⟨key, kept⟩, entry, rfl⟩ := List.mem_map.mp mem
  dsimp only at counts ends
  have held := (BTreeMap.mem_entries_iff _ _ _).mp entry
  have held' : (t.interp.relations.get key).isSome = true := by
    rw [← level.edges key, held]
    rfl
  obtain ⟨other, held'⟩ := Option.isSome_iff_exists.mp held'
  have attested := attestations_level left right clean same held held'
  obtain ⟨keyed, kind⟩ := kind_held left clean held
  obtain ⟨keyed', kind'⟩ := kind_held right clean' held'
  have parts := keyed.trans keyed'.symm
  have uid : kept.uid = other.uid := uid_of_key parts
  obtain ⟨named, ends'⟩ := Prod.mk.inj (toLex.injective parts)
  obtain ⟨src, dst⟩ := Prod.mk.inj (toLex.injective ends')
  have kinds : kept.kind = other.kind := by
    rw [named, kind'] at kind
    exact (Option.some.inj kind).symm
  have units : ∀ w, s.units.contains w = t.units.contains w := by
    intro w
    rw [Bool.eq_iff_iff, left.unit_held clean, right.unit_held clean']
    simp only [same]
  have within : ∀ w, s.inScope scope w = t.inScope scope w := by
    intro w
    simp only [inScope, units]
  have claimed : s.claims policy scope kept = t.claims policy scope other := by
    rw [claims, claims, attestedBy, attestedBy, attested, Interpretive.isWithdrawn,
      Interpretive.isWithdrawn, kinds, src, dst, uid, within, within, level.withdrawals]
  refine ⟨other, List.mem_map.mpr ⟨(key, other), (BTreeMap.mem_entries_iff _ _ _).mpr held', rfl⟩,
    claimed.symm.trans counts, ?_⟩
  rw [src, dst] at ends
  exact ends

end
end
end Store

section
local instance plainClaimText : Unicode := .plain
local instance modPrimeClaimHash : Blake3 := .modPrime

/-- A claim that two units are the same. -/
def claimEdge : Relation :=
  { selfEdge ∅ with kind := .extension sameAs, dst := (selfEdge ∅).uid }

end
end Smysl
