import Smysl.Lib.Worklist

/-!
A queue over the edges of a graph that keeps, for each node, the edge it was first
reached by, and the walk these edges give back.
-/
namespace Routes
open BTreeSet Worklist

variable {K E : Type} [LinearOrder K] {src dst : E → K}

/-- A walk along edges of the graph. -/
inductive Walk (src dst : E → K) (edges : List E) : K → K → List E → Prop
  | stay (n : K) : Walk src dst edges n n []
  | step {e : E} {m : K} {rest : List E} (mem : e ∈ edges)
    (walk : Walk src dst edges (dst e) m rest) : Walk src dst edges (src e) m (e :: rest)

structure Search (K E : Type) [LinearOrder K] where
  queue : List K
  seen : BTreeSet K
  prev : BTreeMap K E

/-- An edge that leaves `n` is followed where it leads to a new node. -/
def follow (src dst : E → K) (within : K → Bool) (n : K) (s : Search K E) (e : E) : Search K E :=
  if src e = n ∧ within (dst e) = true ∧ ¬ dst e ∈ s.seen then
    { queue := s.queue ++ [dst e], seen := s.seen.insert (dst e), prev := s.prev.insert (dst e) e }
  else s

/-- Nodes are taken from the front until the target is, at most so many of them. -/
def search (src dst : E → K) (edges : List E) (within : K → Bool) (target : K) :
    Nat → Search K E → Search K E
  | 0, s => s
  | pops + 1, s =>
    match s.queue with
    | [] => s
    | n :: rest =>
      if n = target then s
      else search src dst edges within target pops
        (edges.foldl (follow src dst within n) { s with queue := rest })

/-- The walk that ends in `path`, from the edges the nodes were reached by. -/
def back (src : E → K) (prev : BTreeMap K E) (start : K) : Nat → K → List E → Option (List E)
  | 0, n, path => if n = start then some path else none
  | left + 1, n, path =>
    if n = start then some path
    else
      match prev.get n with
      | some e => back src prev start left (src e) (e :: path)
      | none => none

def begin_ (start : K) : Search K E :=
  { queue := [start], seen := BTreeSet.empty.insert start, prev := BTreeMap.empty }

/-- The first of the shortest walks, with so many edges at most. -/
def route (src dst : E → K) (edges : List E) (within : K → Bool) (long : Nat) (start target : K) :
    Option (List E) :=
  let found := search src dst edges within target (edges.length + 1) (begin_ start)
  if target ∈ found.seen then back src found.prev start long target [] else none

/-- Every node seen is the start, or was reached by an edge from a node seen. -/
structure Sound (src dst : E → K) (edges : List E) (start : K) (s : Search K E) : Prop where
  root : start ∈ s.seen
  queued : ∀ n ∈ s.queue, n ∈ s.seen
  reached : ∀ n ∈ s.seen, n = start ∨ ∃ e, s.prev.get n = some e
  edge : ∀ n e, s.prev.get n = some e → e ∈ edges ∧ dst e = n ∧ src e ∈ s.seen

theorem begin_sound (src dst : E → K) (edges : List E) (start : K) :
    Sound src dst edges start (begin_ start) where
  root := (mem_insert _ _ _).mpr (Or.inl rfl)
  queued n mem := by
    rw [List.mem_singleton.mp mem]
    exact (mem_insert _ _ _).mpr (Or.inl rfl)
  reached n mem := by
    rcases (mem_insert _ _ _).mp mem with same | absent
    · exact Or.inl same
    · exact absurd absent (not_mem_empty n)
  edge n e found := by
    rw [begin_, BTreeMap.get_empty] at found
    cases found

section Following
variable {edges : List E} {within : K → Bool} {n start : K} {s : Search K E} {e : E}

theorem follow_cases (src dst : E → K) (within : K → Bool) (n : K) (s : Search K E) (e : E) :
    (¬ (src e = n ∧ within (dst e) = true ∧ ¬ dst e ∈ s.seen) ∧ follow src dst within n s e = s) ∨
    (src e = n ∧ within (dst e) = true ∧ ¬ dst e ∈ s.seen ∧ follow src dst within n s e =
      { queue := s.queue ++ [dst e], seen := s.seen.insert (dst e),
        prev := s.prev.insert (dst e) e }) := by
  by_cases taken : src e = n ∧ within (dst e) = true ∧ ¬ dst e ∈ s.seen
  · exact Or.inr ⟨taken.1, taken.2.1, taken.2.2, if_pos taken⟩
  · exact Or.inl ⟨taken, if_neg taken⟩

theorem follow_sound (within : K → Bool) (mem : e ∈ edges) (here : n ∈ s.seen)
    (sound : Sound src dst edges start s) :
    Sound src dst edges start (follow src dst within n s e) := by
  rcases follow_cases src dst within n s e with
    ⟨_, same⟩ | ⟨leaves, _, new, taken⟩
  · rw [same]
    exact sound
  · rw [taken]
    constructor
    · exact (mem_insert _ _ _).mpr (Or.inr sound.root)
    · intro m queued
      apply (mem_insert _ _ _).mpr
      rcases List.mem_append.mp queued with before | last
      · exact Or.inr (sound.queued m before)
      · exact Or.inl (List.mem_singleton.mp last)
    · intro m seen
      dsimp only
      rw [BTreeMap.get_insert]
      by_cases same : m = dst e
      · exact Or.inr ⟨e, if_pos same⟩
      · rw [if_neg same]
        exact sound.reached m (((mem_insert _ _ _).mp seen).resolve_left same)
    · intro m f found
      rw [BTreeMap.get_insert] at found
      split at found
      · rename_i same
        cases found
        exact ⟨mem, same.symm, (mem_insert _ _ _).mpr (Or.inr (leaves ▸ here))⟩
      · obtain ⟨held, ends, before⟩ := sound.edge m f found
        exact ⟨held, ends, (mem_insert _ _ _).mpr (Or.inr before)⟩

/-- What the edges that leave a node do to the search. -/
structure Followed (src dst : E → K) (within : K → Bool) (n : K) (es : List E)
    (s s' : Search K E) : Prop where
  kept : ∀ m ∈ s.seen, m ∈ s'.seen
  queue : ∀ m ∈ s.queue, m ∈ s'.queue
  new : ∀ m ∈ s'.seen, m ∈ s.seen ∨ m ∈ s'.queue
  looked : ∀ e ∈ es, src e = n → within (dst e) = true → dst e ∈ s'.seen

theorem follow_all (src dst : E → K) (within : K → Bool) (n : K) (es : List E) (s : Search K E) :
    Followed src dst within n es s (es.foldl (follow src dst within n) s) := by
  induction es generalizing s with
  | nil =>
    exact ⟨fun _ mem => mem, fun _ mem => mem, fun _ mem => Or.inl mem, fun _ mem => nomatch mem⟩
  | cons e es ih =>
    rw [List.foldl_cons]
    have rest := ih (follow src dst within n s e)
    have seen_ : ∀ m ∈ s.seen, m ∈ (follow src dst within n s e).seen := by
      intro m mem
      rcases follow_cases src dst within n s e with ⟨_, same⟩ | ⟨_, _, _, taken⟩
      · rw [same]
        exact mem
      · rw [taken]
        exact (mem_insert _ _ _).mpr (Or.inr mem)
    constructor
    · exact fun m mem => rest.kept m (seen_ m mem)
    · intro m mem
      apply rest.queue
      rcases follow_cases src dst within n s e with ⟨_, same⟩ | ⟨_, _, _, taken⟩
      · rw [same]
        exact mem
      · rw [taken]
        exact List.mem_append_left _ mem
    · intro m mem
      rcases rest.new m mem with before | queued
      · rcases follow_cases src dst within n s e with
          ⟨_, same⟩ | ⟨_, _, _, taken⟩
        · rw [same] at before
          exact Or.inl before
        · rw [taken] at before
          rcases (mem_insert _ _ _).mp before with last | old
          · apply Or.inr (rest.queue m _)
            rw [taken, last]
            exact List.mem_append_right _ List.mem_cons_self
          · exact Or.inl old
      · exact Or.inr queued
    · intro f mem leaves inside
      rcases List.mem_cons.mp mem with same | later
      · rw [same] at leaves inside ⊢
        apply rest.kept
        rcases follow_cases src dst within n s e with
          ⟨not, same⟩ | ⟨_, _, _, taken⟩
        · rw [same]
          by_contra new
          exact not ⟨leaves, inside, new⟩
        · rw [taken]
          exact (mem_insert _ _ _).mpr (Or.inl rfl)
      · exact rest.looked f later leaves inside

theorem follow_all_sound {es : List E} (mem : ∀ e ∈ es, e ∈ edges) (here : n ∈ s.seen)
    (sound : Sound src dst edges start s) :
    Sound src dst edges start (es.foldl (follow src dst within n) s) := by
  induction es generalizing s with
  | nil => exact sound
  | cons e es ih =>
    rw [List.foldl_cons]
    have first := follow_sound within (mem e List.mem_cons_self) here sound
    apply ih (fun f held => mem f (List.mem_cons_of_mem e held)) _ first
    exact (follow_all src dst within n [e] s).kept n here

/-- What is still to be taken: what is queued, and what no edge led to yet. -/
def remaining (dst : E → K) (edges : List E) (s : Search K E) : Nat :=
  unseen (edges.map dst) s.seen + s.queue.length

theorem follow_remaining (mem : e ∈ edges) :
    remaining dst edges (follow src dst within n s e) ≤ remaining dst edges s := by
  rcases follow_cases src dst within n s e with ⟨_, same⟩ | ⟨_, _, new, taken⟩
  · rw [same]
  · have less := unseen_insert (List.mem_map_of_mem (f := dst) mem) new
    rw [taken, remaining, remaining, List.length_append, List.length_singleton]
    dsimp only
    omega

theorem follow_all_remaining (src dst : E → K) (within : K → Bool) (n : K) {es : List E}
    (mem : ∀ e ∈ es, e ∈ edges) (s : Search K E) :
    remaining dst edges (es.foldl (follow src dst within n) s) ≤ remaining dst edges s := by
  induction es generalizing s with
  | nil => exact le_refl _
  | cons e es ih =>
    rw [List.foldl_cons]
    exact (ih (fun f held => mem f (List.mem_cons_of_mem e held)) _).trans
      (follow_remaining (mem e List.mem_cons_self))


/-- What was seen and is not queued has its edges followed. -/
def Explored (src dst : E → K) (edges : List E) (within : K → Bool) (s : Search K E) : Prop :=
  ∀ n ∈ s.seen, n ∉ s.queue → ∀ e ∈ edges, src e = n → within (dst e) = true → dst e ∈ s.seen

theorem begin_explored (edges : List E) (within : K → Bool) (start : K) :
    Explored src dst edges within (begin_ start) := by
  intro n seen out
  rcases (mem_insert _ _ _).mp seen with same | absent
  · exact absurd (List.mem_singleton.mpr same) out
  · exact absurd absent (not_mem_empty n)

section Taking
variable {rest : List K}

/-- The node at the front is taken and its edges are followed. -/
theorem taken_sound (queue : s.queue = n :: rest) (sound : Sound src dst edges start s) :
    Sound src dst edges start (edges.foldl (follow src dst within n) { s with queue := rest }) := by
  have here : n ∈ s.seen := sound.queued n (queue ▸ List.mem_cons_self)
  refine follow_all_sound (s := { s with queue := rest }) (fun _ mem => mem) here ?_
  constructor
  · exact sound.root
  · exact fun m mem => sound.queued m (queue ▸ List.mem_cons_of_mem n mem)
  · exact sound.reached
  · exact sound.edge

theorem taken_explored (queue : s.queue = n :: rest)
    (explored : Explored src dst edges within s) :
    Explored src dst edges within
      (edges.foldl (follow src dst within n) { s with queue := rest }) := by
  have all := follow_all src dst within n edges { s with queue := rest }
  intro m seen out e mem leaves inside
  have old := (all.new m seen).resolve_right out
  by_cases same : m = n
  · exact all.looked e mem (leaves.trans same) inside
  · apply all.kept
    apply explored m old _ e mem leaves inside
    intro queued
    rw [queue] at queued
    rcases List.mem_cons.mp queued with first | later
    · exact same first
    · exact out (all.queue m later)

theorem taken_remaining (src dst : E → K) (edges : List E) (within : K → Bool)
    (queue : s.queue = n :: rest) :
    remaining dst edges (edges.foldl (follow src dst within n) { s with queue := rest }) + 1 ≤
      remaining dst edges s := by
  have less := follow_all_remaining src dst within n (fun _ (mem : _ ∈ edges) => mem)
    { s with queue := rest }
  rw [remaining, remaining] at *
  rw [queue, List.length_cons]
  dsimp only at less
  omega

end Taking

/-- How a search that was given enough nodes to take ends. -/
structure Ended (src dst : E → K) (edges : List E) (within : K → Bool) (start target : K)
    (s : Search K E) : Prop where
  sound : Sound src dst edges start s
  whole : target ∈ s.seen ∨ s.queue = [] ∧ Explored src dst edges within s

theorem search_ended (target : K) {pops : Nat} {s : Search K E}
    (sound : Sound src dst edges start s) (explored : Explored src dst edges within s)
    (enough : remaining dst edges s ≤ pops) :
    Ended src dst edges within start target (search src dst edges within target pops s) := by
  induction pops generalizing s with
  | zero =>
    have empty : s.queue = [] := by
      apply List.length_eq_zero_iff.mp
      rw [remaining] at enough
      omega
    exact ⟨sound, Or.inr ⟨empty, explored⟩⟩
  | succ pops ih =>
    rw [search]
    split
    · rename_i empty
      exact ⟨sound, Or.inr ⟨empty, explored⟩⟩
    · rename_i n rest queue
      by_cases same : n = target
      · rw [if_pos same]
        exact ⟨sound, Or.inl (same ▸ sound.queued n (queue ▸ List.mem_cons_self))⟩
      · rw [if_neg same]
        have fewer := taken_remaining src dst edges within queue
        exact ih (taken_sound queue sound) (taken_explored queue explored) (by omega)

/-- What is explored with nothing queued is closed under walks. -/
theorem walk_seen {path : List E} {m : K} (walk : Walk src dst edges n m path)
    (inside : ∀ e ∈ path, within (dst e) = true) (empty : s.queue = [])
    (explored : Explored src dst edges within s) (seen : n ∈ s.seen) : m ∈ s.seen := by
  induction walk with
  | stay n => exact seen
  | @step e m rest mem walk ih =>
    apply ih (fun f held => inside f (List.mem_cons_of_mem e held))
    apply explored (src e) seen _ e mem rfl (inside e List.mem_cons_self)
    rw [empty]
    exact List.not_mem_nil

section Rising
variable {rank : K → Nat}

/-- Where every edge rises, the edges the nodes were reached by lead back to the start. -/
theorem back_walk (rises : ∀ e ∈ edges, rank (src e) < rank (dst e))
    (sound : Sound src dst edges start s) {target : K} {long : Nat} {m : K} {path : List E}
    (seen : m ∈ s.seen) (enough : rank m ≤ long) (walk : Walk src dst edges m target path) :
    ∃ whole, back src s.prev start long m path = some whole ∧
      Walk src dst edges start target whole := by
  induction long generalizing m path with
  | zero =>
    rw [back]
    by_cases same : m = start
    · exact ⟨path, if_pos same, same ▸ walk⟩
    · obtain ⟨e, found⟩ := (sound.reached m seen).resolve_left same
      obtain ⟨mem, ends, _⟩ := sound.edge m e found
      have less := rises e mem
      rw [ends] at less
      omega
  | succ long ih =>
    rw [back]
    by_cases same : m = start
    · exact ⟨path, if_pos same, same ▸ walk⟩
    · obtain ⟨e, found⟩ := (sound.reached m seen).resolve_left same
      obtain ⟨mem, ends, before⟩ := sound.edge m e found
      have less := rises e mem
      rw [if_neg same, found]
      rw [ends] at less
      rw [← ends] at walk
      exact ih before (by omega) (.step mem walk)

/-- A route is a walk, and there is one wherever a walk stays within the bounds. -/
theorem route_walk (within : K → Bool) (rises : ∀ e ∈ edges, rank (src e) < rank (dst e))
    {target : K} {long : Nat}
    (enough : rank target ≤ long) {other : List E} (walk : Walk src dst edges start target other)
    (inside : ∀ e ∈ other, within (dst e) = true) :
    ∃ path, route src dst edges within long start target = some path ∧
      Walk src dst edges start target path := by
  have few : remaining dst edges (begin_ start) ≤ edges.length + 1 := by
    have part : unseen (edges.map dst) (BTreeSet.empty.insert start) ≤ edges.length := by
      rw [unseen]
      exact (List.length_filter_le _ _).trans (List.length_map (f := dst)).le
    rw [remaining, begin_]
    exact Nat.add_le_add_right part 1
  have ended := search_ended target (begin_sound src dst edges start)
    (begin_explored edges within start) few
  have seen : target ∈ (search src dst edges within target (edges.length + 1)
      (begin_ start)).seen := by
    rcases ended.whole with here | ⟨empty, explored⟩
    · exact here
    · exact walk_seen walk inside empty explored ended.sound.root
  obtain ⟨path, found, whole⟩ :=
    back_walk rises ended.sound seen enough (.stay target)
  refine ⟨path, ?_, whole⟩
  rw [route]
  exact (if_pos seen).trans found

omit [LinearOrder K] in
/-- Edges of a walk lie between its ends. -/
theorem walk_between (rises : ∀ e ∈ edges, rank (src e) < rank (dst e)) {m : K} {path : List E}
    (walk : Walk src dst edges n m path) :
    rank n ≤ rank m ∧ ∀ e ∈ path, e ∈ edges ∧ rank n ≤ rank (src e) ∧ rank (dst e) ≤ rank m := by
  induction walk with
  | stay n => exact ⟨le_refl _, fun _ mem => nomatch mem⟩
  | @step e m rest mem walk ih =>
    have less := rises e mem
    obtain ⟨up, between⟩ := ih
    refine ⟨by omega, fun f held => ?_⟩
    rcases List.mem_cons.mp held with same | later
    · rw [same]
      exact ⟨mem, le_refl _, up⟩
    · obtain ⟨held, above, below⟩ := between f later
      exact ⟨held, by omega, below⟩

end Rising
end Following
end Routes
