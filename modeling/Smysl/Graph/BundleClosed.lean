import Smysl.Cbor.RoundTrip
import Smysl.Graph.Bundle
import Smysl.Graph.Replay
import Smysl.Graph.Survivors

/-!
A bundle is closed under every reference but two. What is kept is the least set
that has the roots and follows the edges, the notes of commits and resolutions,
the reasons of withdrawals and the steps of the view's threads; the note of a
relation and the positions of a contention are not followed.
-/
namespace Smysl
open ByteString

section
variable {K V : Type} [LinearOrder K] [LinearOrder V]

theorem mem_insert_at (m : BTreeMap K (BTreeSet V)) (k j : K) (v w : V) :
    w ∈ ((insertAt m k v).get j).getD ∅ ↔ (k = j ∧ v = w) ∨ w ∈ (m.get j).getD ∅ := by
  rw [insertAt, BTreeMap.get_alter]
  by_cases here : j = k
  · rw [if_pos here, Option.getD_some, BTreeSet.mem_insert, here]
    constructor
    · intro either
      rcases either with same | held
      · exact Or.inl ⟨rfl, same.symm⟩
      · exact Or.inr held
    · intro either
      rcases either with ⟨_, same⟩ | held
      · exact Or.inl same.symm
      · exact Or.inr held
  · rw [if_neg here]
    constructor
    · intro held
      exact Or.inr held
    · intro either
      rcases either with ⟨same, _⟩ | held
      · exact absurd same.symm here
      · exact held

theorem mem_insert_all {X : Type} (key : X → K) (value : X → V) (xs : List X)
    (m : BTreeMap K (BTreeSet V)) (j : K) (w : V) :
    w ∈ ((xs.foldl (fun m x => insertAt m (key x) (value x)) m).get j).getD ∅ ↔
      (∃ x ∈ xs, key x = j ∧ value x = w) ∨ w ∈ (m.get j).getD ∅ := by
  induction xs generalizing m with
  | nil => simp
  | cons x xs ih =>
    rw [List.foldl_cons, ih, mem_insert_at, List.exists_mem_cons_iff, or_left_comm, or_assoc]

end

namespace Adjacency
open StoreRead

variable (units : List (Uid × UnitCore)) (relations : List Relation)

/-- An edge leads from a unit to what it refers to, and along a relation. -/
theorem mem_links (extensions : List String) (n v : Uid) :
    (∃ kind, (n, v, kind) ∈ links extensions units relations) ↔
      (∃ e ∈ units, e.1 = n ∧ Refers e.2 v) ∨ ∃ r ∈ relations, r.src = n ∧ r.dst = v := by
  constructor
  · intro linked
    obtain ⟨kind, mem⟩ := linked
    rw [links, List.mem_append] at mem
    rcases mem with mem | mem
    · apply Or.inl
      obtain ⟨e, held, mem⟩ := List.mem_flatMap.mp mem
      rcases List.mem_append.mp mem with mem | mem
      · obtain ⟨d, dep, same⟩ := List.mem_map.mp mem
        cases same
        exact ⟨e, held, rfl, Or.inr ((BTreeSet.mem_toList _ _).mp dep)⟩
      · obtain ⟨g, ground, same⟩ := List.mem_map.mp mem
        cases same
        exact ⟨e, held, rfl, Or.inl ((BTreeSet.mem_toList _ _).mp ground)⟩
    · apply Or.inr
      obtain ⟨r, held, same⟩ := List.mem_map.mp mem
      cases same
      exact ⟨r, held, rfl, rfl⟩
  · intro either
    rcases either with ⟨e, held, here, ground | dep⟩ | ⟨r, held, src, dst⟩
    · refine ⟨.grounds, List.mem_append_left _ (List.mem_flatMap.mpr ⟨e, held, ?_⟩)⟩
      rw [← here]
      exact List.mem_append_right _ (List.mem_map_of_mem ((BTreeSet.mem_toList _ _).mpr ground))
    · refine ⟨.deps, List.mem_append_left _ (List.mem_flatMap.mpr ⟨e, held, ?_⟩)⟩
      rw [← here]
      exact List.mem_append_left _ (List.mem_map_of_mem ((BTreeSet.mem_toList _ _).mpr dep))
    · refine ⟨edgeKind extensions r.kind, List.mem_append_right _ ?_⟩
      rw [← src, ← dst]
      exact List.mem_map_of_mem held

/-- The edges held for a node are its links. -/
theorem mem_fwd (n : Uid) (e : Edge) : e ∈ ((fromParts units relations).fwd.get n).getD ∅ ↔
    ∃ link ∈ links (fromParts units relations).extensions units relations,
      link.1 = n ∧ toLex (link.2.2, link.2.1) = e := by
  rw [fromParts]
  dsimp only
  rw [mem_insert_all Prod.fst (fun link : Uid × Uid × EdgeKind => toLex (link.2.2, link.2.1))]
  exact or_iff_left (BTreeSet.not_mem_emptyCollection e)

theorem mem_rev (n : Uid) (e : Edge) : e ∈ ((fromParts units relations).rev.get n).getD ∅ ↔
    ∃ link ∈ links (fromParts units relations).extensions units relations,
      link.2.1 = n ∧ toLex (link.2.2, link.1) = e := by
  rw [fromParts]
  dsimp only
  rw [mem_insert_all (fun link : Uid × Uid × EdgeKind => link.2.1)
    (fun link : Uid × Uid × EdgeKind => toLex (link.2.2, link.1))]
  exact or_iff_left (BTreeSet.not_mem_emptyCollection e)

theorem mem_out (n v : Uid) :
    v ∈ (fromParts units relations).out n ↔
      (∃ e ∈ units, e.1 = n ∧ Refers e.2 v) ∨ ∃ r ∈ relations, r.src = n ∧ r.dst = v := by
  rw [← mem_links units relations (fromParts units relations).extensions, out,
    BTreeSet.mem_toList, BTreeSet.mem_ofList, List.mem_map]
  have held := mem_fwd units relations n
  constructor
  · intro found
    obtain ⟨e, mem, same⟩ := found
    obtain ⟨link, linked, from', edge⟩ := (held e).mp ((BTreeSet.mem_toList _ _).mp mem)
    refine ⟨link.2.2, ?_⟩
    rw [← edge] at same
    rw [← from', ← same]
    exact linked
  · intro found
    obtain ⟨kind, linked⟩ := found
    exact ⟨toLex (kind, v), (BTreeSet.mem_toList _ _).mpr ((held _).mpr ⟨_, linked, rfl, rfl⟩), rfl⟩

/-- Where an edge leads is a node. -/
theorem out_bounded (n v : Uid) (mem : v ∈ (fromParts units relations).out n) :
    v ∈ (fromParts units relations).order := by
  rw [fromParts, BTreeSet.mem_toList, BTreeSet.mem_ofList, List.mem_append]
  rcases (mem_out units relations n v).mp mem with ⟨e, held, _, refers⟩ | ⟨r, held, _, dst⟩
  · apply Or.inl
    apply List.mem_flatMap.mpr
    refine ⟨e, held, List.mem_cons_of_mem _ (List.mem_append.mpr ?_)⟩
    rw [BTreeSet.mem_toList, BTreeSet.mem_toList]
    exact Or.symm refers
  · apply Or.inr
    apply List.mem_flatMap.mpr
    refine ⟨r, held, ?_⟩
    rw [← dst]
    exact List.mem_cons_of_mem _ List.mem_cons_self

/-- And so is where it comes from. -/
theorem out_node {n v : Uid} (mem : v ∈ (fromParts units relations).out n) :
    n ∈ (fromParts units relations).order := by
  rw [fromParts, BTreeSet.mem_toList, BTreeSet.mem_ofList, List.mem_append]
  rcases (mem_out units relations n v).mp mem with ⟨e, held, here, _⟩ | ⟨r, held, src, _⟩
  · rw [← here]
    exact Or.inl (List.mem_flatMap.mpr ⟨e, held, List.mem_cons_self⟩)
  · rw [← src]
    exact Or.inr (List.mem_flatMap.mpr ⟨r, held, List.mem_cons_self⟩)

theorem closure_least (roots : List Uid) :
    Worklist.Least (fromParts units relations).out
      (fun u => u ∈ roots ∧ u ∈ (fromParts units relations).order)
      ((fromParts units relations).closure roots) := by
  have least := @Worklist.search_least _ _ _ _ (out_bounded units relations)
    (roots.filter (fun u => decide (u ∈ (fromParts units relations).order)))
    (fun r mem => of_decide_eq_true (List.mem_filter.mp mem).2)
  refine ⟨fun r mem => ?_, least.closed, fun X roots' => ?_⟩
  · apply least.roots
    exact List.mem_filter.mpr ⟨mem.1, decide_eq_true mem.2⟩
  · apply least.within X
    intro r mem
    obtain ⟨root, node⟩ := List.mem_filter.mp mem
    exact roots' r ⟨root, of_decide_eq_true node⟩

end Adjacency

namespace Store
open StoreRead

section
variable [Blake3] (s : Store) (view : View)

/-- An edge that is followed: what a unit refers to, or a relation that is not
withdrawn. -/
def Follows (u v : Uid) : Prop :=
  (∃ held, s.units.get u = some held ∧ Refers held.core v) ∨
    ∃ rel ∈ s.read.relations, s.interp.isWithdrawn rel = false ∧ rel.src = u ∧ rel.dst = v

def EdgeIn (X : Set Uid) (rid : Uid) : Prop :=
  ∃ rel, s.interp.relationById rid = some rel ∧ rel.src ∈ X ∧ rel.dst ∈ X

/-- What a resolution is about is in the set. -/
def TargetIn (X : Set Uid) : ResolutionTarget → Prop
  | .relation rid => s.EdgeIn X rid
  | .contention id => ∃ c ∈ s.interp.contentions, c.id = id ∧ c.overUnit ∈ X

/-- A set that has the roots and follows the references. -/
structure FollowsReferences (X : Set Uid) : Prop where
  roots : ∀ u ∈ view.roots, u ∈ s.adjacency.order → u ∈ X
  edges : ∀ u ∈ X, ∀ v, s.Follows u v → v ∈ X
  notes : ∀ c, .commit c ∈ s.records → c.unit ∈ X → ∀ u ∈ c.note, u ∈ X
  reasons : ∀ w, .withdrawal w ∈ s.records → s.EdgeIn X w.relation → ∀ u ∈ w.reason, u ∈ X
  settled : ∀ res, .resolution res ∈ s.records → s.TargetIn X res.target → ∀ u ∈ res.note, u ∈ X
  steps : ∀ th, .thread th ∈ s.records → th.id ∈ view.threads → ∀ st ∈ th.steps, st.unit ∈ X

/-- The units that every such set has. -/
def Needed : Set Uid := { u | ∀ X, s.FollowsReferences view X → u ∈ X }

theorem mem_out (u v : Uid) : v ∈ s.adjacency.out u ↔ s.Follows u v := by
  rw [adjacency, Adjacency.mem_out]
  constructor
  · intro either
    rcases either with ⟨e, mem, here, refers⟩ | ⟨rel, mem, ends⟩
    · obtain ⟨held, entry, same⟩ := List.mem_map.mp mem
      rw [← same] at here refers
      refine Or.inl ⟨held.2, ?_, refers⟩
      rw [← here]
      exact (BTreeMap.mem_entries_iff _ _ _).mp entry
    · obtain ⟨held, live⟩ := List.mem_filter.mp mem
      rw [Bool.not_eq_true'] at live
      exact Or.inr ⟨rel, held, live, ends⟩
  · intro either
    rcases either with ⟨held, found, refers⟩ | ⟨rel, held, live, ends⟩
    · refine Or.inl ⟨(u, held.core), List.mem_map.mpr ⟨(u, held), ?_, rfl⟩, rfl, refers⟩
      exact (BTreeMap.mem_entries_iff _ _ _).mpr found
    · refine Or.inr ⟨rel, List.mem_filter.mpr ⟨held, ?_⟩, ends⟩
      rw [live]
      rfl

theorem reachable_least :
    Worklist.Least s.adjacency.out (fun u => u ∈ view.roots ∧ u ∈ s.adjacency.order)
      (s.reachable view) := by
  have least := Adjacency.closure_least s.cores
    (s.interp.relations.values.filter (fun r => !s.interp.isWithdrawn r)) view.roots.toList
  simp only [BTreeSet.mem_toList] at least
  exact least

omit [Blake3] in
theorem edge_kept_iff (keep : BTreeSet Uid) (rid : Uid) :
    s.edgeKept keep rid = true ↔ s.EdgeIn {u | u ∈ keep} rid := by
  rw [edgeKept, Option.any_eq_true, EdgeIn]
  apply exists_congr
  intro rel
  rw [Bool.and_eq_true]
  rfl

omit [Blake3] in
theorem on_a_kept_thing_iff (keep : BTreeSet Uid) (target : ResolutionTarget) :
    s.onAKeptThing keep target = true ↔ s.TargetIn {u | u ∈ keep} target := by
  cases target with
  | relation rid => exact edge_kept_iff s keep rid
  | contention id =>
    rw [onAKeptThing, List.any_eq_true, TargetIn]
    apply exists_congr
    intro c
    rw [Bool.and_eq_true, beq_iff_eq]
    rfl

variable {s view}

omit [Blake3] in
theorem EdgeIn.mono {X Y : Set Uid} (within : X ⊆ Y) {rid : Uid} (edge : s.EdgeIn X rid) :
    s.EdgeIn Y rid := by
  obtain ⟨rel, found, src, dst⟩ := edge
  exact ⟨rel, found, within src, within dst⟩

omit [Blake3] in
theorem TargetIn.mono {X Y : Set Uid} (within : X ⊆ Y) {target : ResolutionTarget}
    (about : s.TargetIn X target) : s.TargetIn Y target := by
  cases target with
  | relation rid => exact EdgeIn.mono within about
  | contention id =>
    obtain ⟨c, held, same, mem⟩ := about
    exact ⟨c, held, same, within mem⟩

/-- What a record makes wanted is in every set that follows the references and
has what is kept. -/
theorem named_within {X : Set Uid} (follows : s.FollowsReferences view X) {keep : BTreeSet Uid}
    (within : ∀ u ∈ keep, u ∈ X) {r : Record} (recorded : r ∈ s.records) :
    ∀ u ∈ s.named view keep r, u ∈ X := by
  intro u mem
  cases r with
  | commit c =>
    rw [named] at mem
    split at mem
    · rename_i held
      exact follows.notes c recorded (within _ held) u (Option.mem_toList.mp mem)
    · cases mem
  | withdrawal w =>
    rw [named] at mem
    split at mem
    · rename_i held
      have edge := EdgeIn.mono within ((edge_kept_iff s keep _).mp held)
      exact follows.reasons w recorded edge u (Option.mem_toList.mp mem)
    · cases mem
  | resolution res =>
    rw [named] at mem
    split at mem
    · rename_i held
      have about := TargetIn.mono within ((on_a_kept_thing_iff s keep _).mp held)
      exact follows.settled res recorded about u (Option.mem_toList.mp mem)
    · cases mem
  | thread th =>
    rw [named] at mem
    split at mem
    · rename_i held
      obtain ⟨st, step, same⟩ := List.mem_map.mp mem
      rw [← same]
      exact follows.steps th recorded held st step
    · cases mem
  | _ => cases mem

/-- Where nothing more is wanted, what is kept follows the references. -/
theorem follows_of_quiet {keep : BTreeSet Uid} (roots : ∀ u ∈ s.reachable view, u ∈ keep)
    (closed : ∀ u ∈ keep, ∀ v ∈ s.adjacency.out u, v ∈ keep)
    (quiet : ∀ r ∈ s.records, ∀ u ∈ s.named view keep r, u ∈ keep) :
    s.FollowsReferences view {u | u ∈ keep} where
  roots u root node := roots u ((reachable_least s view).roots u ⟨root, node⟩)
  edges u held v edge := closed u held v ((mem_out s u v).mpr edge)
  notes c recorded held u noted := by
    apply quiet _ recorded
    have kept : keep.contains c.unit = true := held
    rw [named, if_pos kept]
    exact Option.mem_toList.mpr noted
  reasons w recorded edge u reason := by
    apply quiet _ recorded
    rw [named, if_pos ((edge_kept_iff s keep _).mpr edge)]
    exact Option.mem_toList.mpr reason
  settled res recorded about u noted := by
    apply quiet _ recorded
    rw [named, if_pos ((on_a_kept_thing_iff s keep _).mpr about)]
    exact Option.mem_toList.mpr noted
  steps th recorded threaded st step := by
    apply quiet _ recorded
    have kept : view.threads.contains th.id = true := threaded
    rw [named, if_pos kept]
    exact List.mem_map_of_mem step

/-- What is kept at any time: every edge from it leads back into it. -/
def Closed (s : Store) (keep : BTreeSet Uid) : Prop :=
  ∀ u ∈ keep, ∀ v ∈ s.adjacency.out u, v ∈ keep

theorem mem_pull (keep : BTreeSet Uid) (u v : Uid) :
    v ∈ s.pull keep u ↔ (v = u ∨ v ∈ keep) ∨ v ∈ s.adjacency.closure [u] := by
  rw [pull, BTreeSet.mem_extend, BTreeSet.mem_toList, BTreeSet.mem_insert, or_comm]

theorem closure_one_least (u : Uid) :
    Worklist.Least s.adjacency.out (fun v => v ∈ [u] ∧ v ∈ s.adjacency.order)
      (s.adjacency.closure [u]) :=
  Adjacency.closure_least s.cores
    (s.interp.relations.values.filter (fun r => !s.interp.isWithdrawn r)) [u]

theorem pull_closed {keep : BTreeSet Uid} (closed : s.Closed keep) (u : Uid) :
    s.Closed (s.pull keep u) := by
  have least := closure_one_least (s := s) u
  intro v held w edge
  rw [mem_pull] at held ⊢
  rcases held with (here | held) | reached
  · rw [here] at edge
    have start := least.roots u ⟨List.mem_singleton.mpr rfl, Adjacency.out_node _ _ edge⟩
    exact Or.inr (least.closed u start w edge)
  · exact Or.inl (Or.inr (closed v held w edge))
  · exact Or.inr (least.closed v reached w edge)

theorem pull_within {X : Set Uid} (follows : s.FollowsReferences view X) {keep : BTreeSet Uid}
    (within : ∀ u ∈ keep, u ∈ X) {u : Uid} (mem : u ∈ X) : ∀ v ∈ s.pull keep u, v ∈ X := by
  intro v pulled
  rw [mem_pull] at pulled
  rcases pulled with (here | held) | reached
  · rw [here]
    exact mem
  · exact within v held
  · apply (closure_one_least (s := s) u).within X _ _ v reached
    · intro r start
      rw [List.mem_singleton.mp start.1]
      exact mem
    · intro n inside m edge
      exact follows.edges n inside m ((mem_out s n m).mp edge)

/-- Pulling units in keeps what was kept and each of them, and stays closed. -/
theorem pull_all_closed (added : List Uid) {keep : BTreeSet Uid} (closed : s.Closed keep) :
    s.Closed (added.foldl s.pull keep) ∧ (∀ u ∈ keep, u ∈ added.foldl s.pull keep) ∧
      ∀ u ∈ added, u ∈ added.foldl s.pull keep := by
  induction added generalizing keep with
  | nil => exact ⟨closed, fun _ held => held, fun _ mem => nomatch mem⟩
  | cons a added ih =>
    obtain ⟨stays, kept, all⟩ := ih (pull_closed closed a)
    rw [List.foldl_cons]
    refine ⟨stays, fun u held => ?_, fun u mem => ?_⟩
    · apply kept
      rw [mem_pull]
      exact Or.inl (Or.inr held)
    · rcases List.mem_cons.mp mem with here | mem
      · apply kept
        rw [mem_pull]
        exact Or.inl (Or.inl here)
      · exact all u mem

theorem pull_all_within {X : Set Uid} (follows : s.FollowsReferences view X) (added : List Uid)
    {keep : BTreeSet Uid} (within : ∀ u ∈ keep, u ∈ X) (wanted : ∀ u ∈ added, u ∈ X) :
    ∀ u ∈ added.foldl s.pull keep, u ∈ X := by
  induction added generalizing keep with
  | nil => exact within
  | cons a added ih =>
    rw [List.foldl_cons]
    apply ih (pull_within follows within (wanted a List.mem_cons_self))
    intro u mem
    exact wanted u (List.mem_cons_of_mem a mem)

omit [Blake3] in
theorem mem_wanted (keep : BTreeSet Uid) (u : Uid) :
    u ∈ s.wanted view keep ↔ (∃ r ∈ s.records, u ∈ s.named view keep r) ∧ u ∉ keep := by
  rw [wanted, List.mem_filter, List.mem_flatMap, Bool.not_eq_true', ← Bool.not_eq_true]
  rfl

omit [Blake3] in
theorem named_nameable {keep : BTreeSet Uid} {r : Record} (recorded : r ∈ s.records) {u : Uid}
    (mem : u ∈ s.named view keep r) : u ∈ s.nameable := by
  apply List.mem_flatMap.mpr
  refine ⟨r, recorded, ?_⟩
  cases r with
  | commit c =>
    rw [named] at mem
    split at mem
    · exact mem
    · cases mem
  | withdrawal w =>
    rw [named] at mem
    split at mem
    · exact mem
    · cases mem
  | resolution res =>
    rw [named] at mem
    split at mem
    · exact mem
    · cases mem
  | thread th =>
    rw [named] at mem
    split at mem
    · exact mem
    · cases mem
  | _ => cases mem

/-- A round that adds something leaves fewer of the nameable units out. -/
theorem round_falls {keep : BTreeSet Uid} (closed : s.Closed keep)
    (more : (s.wanted view keep).isEmpty = false) :
    Worklist.unseen s.nameable ((s.wanted view keep).foldl s.pull keep) <
      Worklist.unseen s.nameable keep := by
  obtain ⟨_, kept, all⟩ := pull_all_closed (s.wanted view keep) closed
  cases listed : s.wanted view keep with
  | nil =>
    rw [listed] at more
    cases more
  | cons u rest =>
    have first : u ∈ s.wanted view keep := by
      rw [listed]
      exact List.mem_cons_self
    obtain ⟨⟨r, recorded, mem⟩, fresh⟩ := (mem_wanted keep u).mp first
    rw [← listed]
    exact Worklist.unseen_grows kept (named_nameable recorded mem) fresh (all u first)

/-- With a round for each nameable unit nothing stays wanted. -/
theorem close_keep_set_ends {rounds : Nat} {keep : BTreeSet Uid} (closed : s.Closed keep)
    (enough : Worklist.unseen s.nameable keep ≤ rounds) :
    s.Closed (s.closeKeepSet view rounds keep) ∧
      (∀ u ∈ keep, u ∈ s.closeKeepSet view rounds keep) ∧
      s.wanted view (s.closeKeepSet view rounds keep) = [] := by
  induction rounds generalizing keep with
  | zero =>
    rw [closeKeepSet]
    refine ⟨closed, fun _ held => held, ?_⟩
    by_contra more
    have less := round_falls closed (List.isEmpty_eq_false_iff.mpr more)
    omega
  | succ rounds ih =>
    rw [closeKeepSet]
    split
    · rename_i quiet
      exact ⟨closed, fun _ held => held, List.isEmpty_iff.mp quiet⟩
    · rename_i more
      have less := round_falls closed (Bool.eq_false_of_not_eq_true more)
      obtain ⟨stays, kept, _⟩ := pull_all_closed (s.wanted view keep) closed
      obtain ⟨closed', kept', quiet⟩ := ih stays (by omega)
      exact ⟨closed', fun u held => kept' u (kept u held), quiet⟩

theorem close_keep_set_within {X : Set Uid} (follows : s.FollowsReferences view X) {rounds : Nat}
    {keep : BTreeSet Uid} (within : ∀ u ∈ keep, u ∈ X) :
    ∀ u ∈ s.closeKeepSet view rounds keep, u ∈ X := by
  induction rounds generalizing keep with
  | zero => exact within
  | succ rounds ih =>
    rw [closeKeepSet]
    split
    · exact within
    · apply ih
      apply pull_all_within follows _ within
      intro u mem
      obtain ⟨⟨r, recorded, mem⟩, _⟩ := (mem_wanted keep u).mp mem
      exact named_within follows within recorded u mem

theorem keep_set_follows : s.FollowsReferences view {u | u ∈ s.keepSet view} := by
  have closed : s.Closed (s.reachable view) := (reachable_least s view).closed
  have ends := @close_keep_set_ends _ s view s.nameable.length _ closed
    (List.length_filter_le _ _)
  obtain ⟨stays, kept, quiet⟩ := ends
  apply follows_of_quiet kept stays
  intro r recorded u mem
  by_contra fresh
  have more := (mem_wanted _ u).mpr ⟨⟨r, recorded, mem⟩, fresh⟩
  rw [quiet] at more
  cases more

/-- What is kept is the least set that has the roots and follows the references. -/
theorem mem_keep_set (u : Uid) : u ∈ s.keepSet view ↔ u ∈ s.Needed view := by
  constructor
  · intro held X follows
    apply close_keep_set_within follows _ u held
    apply (reachable_least s view).within X
    · intro r start
      exact follows.roots r start.1 start.2
    · intro n inside m edge
      exact follows.edges n inside m ((mem_out s n m).mp edge)
  · intro needed
    exact needed _ keep_set_follows

end

/-- The units a record names. -/
def Names : Record → Uid → Prop
  | .unit core, u => Refers core u
  | .relation rel, u => u = rel.src ∨ u = rel.dst ∨ u ∈ rel.note
  | .commit c, u => u = c.unit ∨ u ∈ c.note
  | .withdrawal w, u => u ∈ w.reason
  | .resolution res, u => u ∈ res.note
  | .contention c, u => u = c.overUnit ∨ u ∈ c.positions
  | .thread th, u => ∃ st ∈ th.steps, st.unit = u
  | .labelBinding b, u => u = b.uid
  | _, _ => False

def recordedUnits (records : List Record) : List UnitCore :=
  records.filterMap fun r =>
    match r with
    | .unit core => some core
    | _ => none

section
variable [Unicode] [Blake3]

/-- A uid stands for what a unit refers to. -/
def ContentAddressed (records : List Record) : Prop :=
  ∀ core ∈ recordedUnits records, ∀ core' ∈ recordedUnits records,
    canonicalUid core = canonicalUid core' → core.deps = core'.deps ∧ core.grounds = core'.grounds

instance (records : List Record) : Decidable (ContentAddressed records) :=
  inferInstanceAs (Decidable (∀ core ∈ recordedUnits records, ∀ core' ∈ recordedUnits records,
    canonicalUid core = canonicalUid core' → core.deps = core'.deps ∧ core.grounds = core'.grounds))

omit [Unicode] [Blake3] in
theorem mem_recorded_units {records : List Record} {core : UnitCore} :
    core ∈ recordedUnits records ↔ .unit core ∈ records := by
  rw [recordedUnits, List.mem_filterMap]
  constructor
  · intro found
    obtain ⟨r, mem, here⟩ := found
    cases r <;> cases here
    exact mem
  · intro mem
    exact ⟨_, mem, rfl⟩

/-- It does where the hash tells the units apart and they can be read back. -/
theorem content_addressed_of_apart {records : List Record}
    (apart : HashApart (subjectStrings records)) (valid : ∀ r ∈ records, r.Valid)
    (fits : ∀ r ∈ records, (toCbor r).length < Cursor.limit) : ContentAddressed records := by
  intro core mem core' mem' same
  rw [mem_recorded_units] at mem mem'
  have bytes : unitCoreBytes core = unitCoreBytes core' :=
    apart _ (mem_subject_strings.mpr (Or.inl ⟨core, mem, rfl⟩)) _
      (mem_subject_strings.mpr (Or.inl ⟨core', mem', rfl⟩)) (congrArg Digest.raw same)
  have encoded : toCbor (.unit core) = toCbor (.unit core') := by
    rw [toCbor, toCbor, payloadBytes, payloadBytes, bytes]
    rfl
  have read := from_cbor_reads (valid _ mem) (fits _ mem) []
  rw [encoded, from_cbor_reads (valid _ mem') (fits _ mem') []] at read
  injection read with read
  injection read with read _
  injection read with read
  rw [read]
  exact ⟨rfl, rfl⟩

/-- Every unit that a record of the bundle names, and that is held, is a unit
of the bundle. -/
def BundleClosed (s : Store) (byTid : BTreeMap Tid (BTreeSet Uid)) (view : View)
    (unknown : UnknownRecords) : Prop :=
  ∀ r ∈ s.emitted byTid view (s.keepSet view) unknown, ∀ u, Names r u → s.read.Present u →
    HasUnit (s.emitted byTid view (s.keepSet view) unknown) u

/-- The references that are not followed lead to what is needed anyway. -/
structure NamesNeeded (s : Store) (view : View) : Prop where
  notes : ∀ rel, .relation rel ∈ s.records → rel.src ∈ s.Needed view → rel.dst ∈ s.Needed view →
    ∀ u ∈ rel.note, s.read.Present u → u ∈ s.Needed view
  positions : ∀ c, .contention c ∈ s.records → c.overUnit ∈ s.Needed view →
    ∀ u ∈ c.positions, s.read.Present u → u ∈ s.Needed view

variable {s : Store} {byTid : BTreeMap Tid (BTreeSet Uid)} {view : View}
  {unknown : UnknownRecords}

theorem bundle_has_unit (sound : Sound s) {u : Uid} (present : s.read.Present u) :
    HasUnit (s.emitted byTid view (s.keepSet view) unknown) u ↔ u ∈ s.Needed view := by
  rw [← mem_keep_set]
  constructor
  · intro has
    obtain ⟨core, mem, here⟩ := has
    rw [← here]
    exact (List.mem_filter.mp mem).2
  · intro kept
    obtain ⟨core, mem, here⟩ := (has_unit_iff s.records u).mpr ((present_iff sound u).mp present)
    refine ⟨core, List.mem_filter.mpr ⟨mem, ?_⟩, here⟩
    rw [included, here]
    exact kept

/-- What a recorded unit refers to is followed. -/
theorem recorded_follows (sound : Sound s) (addressed : ContentAddressed s.records)
    {core : UnitCore} (recorded : .unit core ∈ s.records) {u : Uid} (refers : Refers core u) :
    s.Follows (canonicalUid core) u := by
  obtain ⟨first, found⟩ := Option.isSome_iff_exists.mp (first_unit_of_mem recorded)
  obtain ⟨named, mem⟩ := first_unit_some found
  have held := sound.cores (canonicalUid core)
  rw [found] at held
  obtain ⟨unit, held, same⟩ := Option.map_eq_some_iff.mp held
  obtain ⟨deps, grounds⟩ := addressed first (mem_recorded_units.mpr mem) core
    (mem_recorded_units.mpr recorded) named
  refine Or.inl ⟨unit, held, ?_⟩
  rw [same, Refers, grounds, deps]
  exact refers

/-- A record of the bundle names only what is needed, but for the note of a
relation and the positions of a contention. -/
theorem included_names_needed (sound : Sound s) (addressed : ContentAddressed s.records)
    (needed : s.NamesNeeded view) {r : Record} (recorded : r ∈ s.records)
    (inside : s.included byTid view (s.keepSet view) unknown r = true) {u : Uid}
    (named : Names r u) (present : s.read.Present u) : u ∈ s.Needed view := by
  have kept : ∀ v, (s.keepSet view).contains v = true → v ∈ s.Needed view := by
    intro v held
    exact (mem_keep_set v).mp held
  have follows := @keep_set_follows _ s view
  rw [← mem_keep_set]
  cases r with
  | unit core =>
    rw [included] at inside
    exact follows.edges _ inside u (recorded_follows sound addressed recorded named)
  | relation rel =>
    rw [included, Bool.and_eq_true] at inside
    rcases named with src | dst | note
    · rw [src]
      exact inside.1
    · rw [dst]
      exact inside.2
    · exact (mem_keep_set u).mpr
        (needed.notes rel recorded (kept _ inside.1) (kept _ inside.2) u note present)
  | commit c =>
    rw [included] at inside
    rcases named with unit | note
    · rw [unit]
      exact inside
    · exact follows.notes c recorded inside u note
  | withdrawal w =>
    rw [included, edge_kept_iff] at inside
    exact follows.reasons w recorded inside u named
  | resolution res =>
    rw [included, on_a_kept_thing_iff] at inside
    exact follows.settled res recorded inside u named
  | contention c =>
    rw [included] at inside
    rcases named with over' | position
    · rw [over']
      exact inside
    · exact (mem_keep_set u).mpr (needed.positions c recorded (kept _ inside) u position present)
  | thread th =>
    rw [included] at inside
    obtain ⟨st, step, same⟩ := named
    rw [← same]
    exact follows.steps th recorded inside st step
  | labelBinding b =>
    rw [included] at inside
    rw [show u = b.uid from named]
    exact inside
  | _ => exact absurd named id

/-- A bundle is closed exactly when every held unit that a relation between
needed units has as its note, or that a contention over a needed unit has as a
position, is needed as well. -/
theorem bundle_closed_iff (reachable : s.Reachable) (addressed : ContentAddressed s.records)
    (byTid : BTreeMap Tid (BTreeSet Uid)) (view : View) (unknown : UnknownRecords) :
    s.BundleClosed byTid view unknown ↔ s.NamesNeeded view := by
  have kept : ∀ v, v ∈ s.Needed view → (s.keepSet view).contains v = true := by
    intro v needed
    exact (mem_keep_set v).mpr needed
  constructor
  · intro closed
    constructor
    · intro rel recorded src dst u note present
      have emitted : .relation rel ∈ s.emitted byTid view (s.keepSet view) unknown := by
        refine List.mem_filter.mpr ⟨recorded, ?_⟩
        rw [included, kept _ src, kept _ dst]
        rfl
      exact (bundle_has_unit reachable.sound present).mp
        (closed _ emitted u (Or.inr (Or.inr note)) present)
    · intro c recorded over' u position present
      have emitted : .contention c ∈ s.emitted byTid view (s.keepSet view) unknown := by
        refine List.mem_filter.mpr ⟨recorded, ?_⟩
        rw [included, kept _ over']
      exact (bundle_has_unit reachable.sound present).mp
        (closed _ emitted u (Or.inr position) present)
  · intro needed r emitted u named present
    obtain ⟨recorded, inside⟩ := List.mem_filter.mp emitted
    exact (bundle_has_unit reachable.sound present).mpr
      (included_names_needed reachable.sound addressed needed recorded inside named present)

end

section
local instance plainBundleText : Unicode := .plain
local instance modPrimeBundleHash : Blake3 := .modPrime

/-- Two units and an edge between them, with a third for its note. -/
def notedEdge : Store :=
  let a := bareClaim "a" present_a ∅
  let b := bareClaim "b" present_b ∅
  let n := bareClaim "n" present_n ∅
  fromRecords [.unit a, .unit b, .unit n, .relation
    { bareEdge .elaborates (canonicalUid a) (canonicalUid b) with note := some (canonicalUid n) }]

/-- A view of the unit the edge comes from. -/
def notedView : View where
  id := ⟨"v/a", view_a_accepted⟩
  roots := BTreeSet.ofList [canonicalUid (bareClaim "a" present_a ∅)]
  threads := ∅
  requires := ∅
  granularity := .standard
  intent := "i"
  lang := ⟨"en", en_accepted⟩
  extra := ∅

theorem noted_edge_reachable : notedEdge.Reachable := by
  unfold notedEdge
  exact .fromRecords _

theorem noted_edge_closed_iff :
    notedEdge.BundleClosed ∅ notedView .keep ↔ notedEdge.NamesNeeded notedView :=
  bundle_closed_iff noted_edge_reachable (by decide +kernel) ∅ notedView .keep

/-- The note of an edge in the bundle is held and is not in the bundle. -/
theorem note_of_edge_left_out :
    notedEdge.Reachable ∧ ¬ notedEdge.BundleClosed ∅ notedView .keep := by
  refine ⟨noted_edge_reachable, fun closed => ?_⟩
  have named : ∃ r ∈ notedEdge.emitted ∅ notedView (notedEdge.keepSet notedView) .keep,
      Names r (canonicalUid (bareClaim "n" (by decide) ∅)) := by
    refine ⟨.relation { bareEdge .elaborates (canonicalUid (bareClaim "a" (by decide) ∅))
      (canonicalUid (bareClaim "b" (by decide) ∅)) with
      note := some (canonicalUid (bareClaim "n" (by decide) ∅)) }, by decide +kernel, ?_⟩
    exact Or.inr (Or.inr rfl)
  obtain ⟨r, emitted, names⟩ := named
  have present : notedEdge.read.Present (canonicalUid (bareClaim "n" (by decide) ∅)) := by
    unfold StoreRead.Present
    decide +kernel
  obtain ⟨core, mem, here⟩ := closed r emitted _ names present
  have absent : ∀ core ∈ recordedUnits
      (notedEdge.emitted ∅ notedView (notedEdge.keepSet notedView) .keep),
      canonicalUid core ≠ canonicalUid (bareClaim "n" (by decide) ∅) := by decide +kernel
  exact absent core (mem_recorded_units.mpr mem) here

end
end Store
end Smysl
