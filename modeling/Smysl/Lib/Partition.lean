import Smysl.Lib.Breadth

/-!
Parts of a graph whose nodes are ordered: cliques, taken greedily, and what a node leads to,
taken with a queue.
-/

/-!
A greedy partition into cliques: the least node without a class opens one, and each later node
without a class joins if it is next to every node that has joined.
-/
namespace Cliques
open BTreeSet

variable {K : Type} [LinearOrder K]

/-- A candidate joins a class if no class has it and it is next to all who have joined. -/
def join (near : K → K → Bool) (state : BTreeSet K × BTreeSet K) (c : K) :
    BTreeSet K × BTreeSet K :=
  if state.2.contains c then state
  else if state.1.toList.all (near c) then (state.1.insert c, state.2.insert c)
  else state

/-- The members of the class a seed opens, and what has a class then. -/
def grow (near : K → K → Bool) (candidates : K → List K) (seed : K) (assigned : BTreeSet K) :
    BTreeSet K × BTreeSet K :=
  (candidates seed).foldl (join near) ((∅ : BTreeSet K).insert seed, assigned.insert seed)

/-- The classes, each with what opened it. -/
def partition (near : K → K → Bool) (candidates : K → List K) :
    List K → BTreeSet K → List (K × BTreeSet K)
  | [], _ => []
  | seed :: rest, assigned =>
    if assigned.contains seed then partition near candidates rest assigned
    else
      let grown := grow near candidates seed assigned
      (seed, grown.1) :: partition near candidates rest grown.2

variable {near : K → K → Bool} {candidates : K → List K}

theorem join_taken {state : BTreeSet K × BTreeSet K} {c : K} (taken : c ∈ state.2) :
    join near state c = state := by
  rw [join, if_pos ((mem_def _ _).mp taken)]

theorem join_all {state : BTreeSet K × BTreeSet K} {c : K} (free : c ∉ state.2)
    (all : ∀ m ∈ state.1, near c m = true) :
    join near state c = (state.1.insert c, state.2.insert c) := by
  rw [join, if_neg fun held => free ((mem_def _ _).mpr held), if_pos]
  rw [List.all_eq_true]
  exact fun m mem => all m ((mem_toList _ _).mp mem)

theorem join_apart {state : BTreeSet K × BTreeSet K} {c : K}
    (apart : ¬ ∀ m ∈ state.1, near c m = true) : join near state c = state := by
  rw [join]
  split
  · rfl
  · rw [if_neg]
    rw [List.all_eq_true]
    exact fun each => apart fun m mem => each m ((mem_toList _ _).mpr mem)

/-! Which nodes join. -/

/-- What is on the way to a class: who has joined has a class, and stands before the rest. -/
structure Growing (state : BTreeSet K × BTreeSet K) (rest : List K) : Prop where
  held : ∀ m ∈ state.1, m ∈ state.2
  before : ∀ m ∈ state.1, ∀ c ∈ rest, m < c
  ascending : rest.Pairwise (· < ·)

theorem Growing.tail {state : BTreeSet K × BTreeSet K} {c : K} {rest : List K}
    (growing : Growing state (c :: rest)) : Growing state rest where
  held := growing.held
  before m mem d later := growing.before m mem d (List.mem_cons_of_mem _ later)
  ascending := (List.pairwise_cons.mp growing.ascending).2

theorem Growing.insert {state : BTreeSet K × BTreeSet K} {c : K} {rest : List K}
    (growing : Growing state (c :: rest)) :
    Growing (state.1.insert c, state.2.insert c) rest where
  held m mem := by
    rw [mem_insert] at mem ⊢
    exact mem.imp_right (growing.held m)
  before m mem d later := by
    rcases (mem_insert _ _ _).mp mem with rfl | old
    · exact (List.pairwise_cons.mp growing.ascending).1 d later
    · exact growing.before m old d (List.mem_cons_of_mem _ later)
  ascending := (List.pairwise_cons.mp growing.ascending).2

/-- A candidate joins exactly when no class had it and it is next to all members before it. -/
theorem grow_from {rest : List K} {state : BTreeSet K × BTreeSet K} (growing : Growing state rest) :
    (∀ c, c ∈ (rest.foldl (join near) state).1 ↔ c ∈ state.1 ∨ (c ∈ rest ∧ c ∉ state.2 ∧
        ∀ m ∈ (rest.foldl (join near) state).1, m < c → near c m = true)) ∧
      ∀ c, c ∈ (rest.foldl (join near) state).2 ↔
        c ∈ state.2 ∨ c ∈ (rest.foldl (join near) state).1 := by
  induction rest generalizing state with
  | nil =>
    refine ⟨fun c => ?_, fun c => ?_⟩
    · simp
    · exact (or_iff_left_of_imp (growing.held c)).symm
  | cons x rest ih =>
    have later := (List.pairwise_cons.mp growing.ascending).1
    have outside : x ∉ rest := fun mem => lt_irrefl x (later x mem)
    have unjoined : x ∉ state.1 := fun mem =>
      lt_irrefl x (growing.before x mem x List.mem_cons_self)
    rw [List.foldl_cons]
    by_cases taken : x ∈ state.2
    · rw [join_taken taken]
      obtain ⟨members, assigned⟩ := ih growing.tail
      refine ⟨fun c => ?_, assigned⟩
      rw [members c, List.mem_cons]
      refine or_congr_right (and_congr_left fun both => (or_iff_right ?_).symm)
      rintro rfl
      exact both.1 taken
    · by_cases all : ∀ m ∈ state.1, near x m = true
      · rw [join_all taken all]
        obtain ⟨members, assigned⟩ := ih growing.insert
        generalize rest.foldl (join near) (state.1.insert x, state.2.insert x) = after at *
        refine ⟨fun c => ?_, fun c => ?_⟩
        · rw [members c, mem_insert, mem_insert, List.mem_cons]
          by_cases same : c = x
          · subst same
            refine iff_of_true (.inl (.inl rfl)) (.inr ⟨.inl rfl, taken, fun m mem less => ?_⟩)
            rcases (members m).mp mem with first | ⟨mem', _⟩
            · rcases (mem_insert _ _ _).mp first with rfl | old
              · exact absurd less (lt_irrefl m)
              · exact all m old
            · exact absurd (later m mem') (not_lt_of_gt less)
          · simp only [same, false_or]
        · rw [assigned c, mem_insert, or_assoc, or_iff_right_iff_imp]
          rintro rfl
          exact .inr ((members c).mpr (.inl ((mem_insert _ _ _).mpr (.inl rfl))))
      · rw [join_apart all]
        obtain ⟨members, assigned⟩ := ih growing.tail
        refine ⟨fun c => ?_, assigned⟩
        rw [members c, List.mem_cons]
        refine or_congr_right (and_congr_left fun both => (or_iff_right ?_).symm)
        rintro rfl
        refine all fun m mem => both.2 m ((members m).mpr (.inl mem)) ?_
        exact growing.before m mem c List.mem_cons_self

/-- The candidates that count are those next to the seed. -/
theorem grow_next (all : K → List K) {seed : K} {assigned : BTreeSet K}
    (next : candidates seed = (all seed).filter fun c => near c seed) :
    grow near candidates seed assigned = grow near all seed assigned := by
  have general : ∀ (cs : List K) (state : BTreeSet K × BTreeSet K), seed ∈ state.1 →
      (cs.filter fun c => near c seed).foldl (join near) state = cs.foldl (join near) state := by
    intro cs
    induction cs with
    | nil => exact fun _ _ => rfl
    | cons c cs ih =>
      intro state held
      have kept : seed ∈ (join near state c).1 := by
        rw [join]
        split
        · exact held
        · split
          · exact (mem_insert _ _ _).mpr (.inr held)
          · exact held
      rw [List.foldl_cons, List.filter_cons]
      split
      · rw [List.foldl_cons, ih _ kept]
      · rename_i apart
        rw [join_apart fun each => apart (each seed held), ih _ held]
  rw [grow, grow, next]
  exact general _ _ ((mem_insert _ _ _).mpr (.inl rfl))

/-- Trying the nodes next to a seed is trying all of them. -/
theorem partition_next (all : K → List K) {vertices : List K} (assigned : BTreeSet K)
    (next : ∀ seed ∈ vertices, candidates seed = (all seed).filter fun c => near c seed) :
    partition near candidates vertices assigned = partition near all vertices assigned := by
  induction vertices generalizing assigned with
  | nil => rfl
  | cons seed rest ih =>
    have later := fun s mem => next s (List.mem_cons_of_mem _ mem)
    rw [partition, partition, grow_next all (next seed List.mem_cons_self)]
    dsimp only
    rw [ih _ later, ih _ later]

/-! What the classes are. -/

/-- The greedy cliques of some nodes: classes in the order of what opened them, which is the
least of each; each node in one; all of a class next to each other; and no node is in a later
class that the class would have taken. -/
structure Greedy (near : K → K → Prop) (node : K → Prop) (classes : List (K × BTreeSet K)) :
    Prop where
  ordered : (classes.map Prod.fst).Pairwise (· < ·)
  least : ∀ c ∈ classes, c.1 ∈ c.2 ∧ ∀ m ∈ c.2, c.1 ≤ m
  covered : ∀ v, node v ↔ ∃ c ∈ classes, v ∈ c.2
  apart : ∀ c ∈ classes, ∀ d ∈ classes, ∀ v, v ∈ c.2 → v ∈ d.2 → c = d
  cliques : ∀ c ∈ classes, ∀ a ∈ c.2, ∀ b ∈ c.2, a ≠ b → near a b
  taken : ∀ c ∈ classes, ∀ d ∈ classes, c.1 < d.1 → ∀ v ∈ d.2, c.1 < v →
    ∃ m ∈ c.2, m < v ∧ ¬ near v m

/-- All the later nodes, as candidates. -/
def after (vertices : List K) (seed : K) : List K := vertices.filter fun c => seed < c

/-- What the classes of the nodes that are left are, where some have one already. -/
structure Rest (near : K → K → Bool) (left : List K) (assigned : BTreeSet K)
    (classes : List (K × BTreeSet K)) : Prop where
  ordered : (classes.map Prod.fst).Pairwise (· < ·)
  opened : ∀ c ∈ classes, c.1 ∈ left
  least : ∀ c ∈ classes, c.1 ∈ c.2 ∧ ∀ m ∈ c.2, c.1 ≤ m
  covered : ∀ v, (v ∈ left ∧ v ∉ assigned) ↔ ∃ c ∈ classes, v ∈ c.2
  apart : ∀ c ∈ classes, ∀ d ∈ classes, ∀ v, v ∈ c.2 → v ∈ d.2 → c = d
  cliques : ∀ c ∈ classes, ∀ a ∈ c.2, ∀ b ∈ c.2, b < a → near a b = true
  taken : ∀ c ∈ classes, ∀ d ∈ classes, c.1 < d.1 → ∀ v ∈ d.2, c.1 < v →
    ∃ m ∈ c.2, m < v ∧ near v m = false

/-- The class that a seed opens, and what has a class after it. -/
theorem grow_class {vertices : List K} (ascending : vertices.Pairwise (· < ·)) {seed : K}
    {assigned : BTreeSet K} :
    (∀ c, c ∈ (grow near (after vertices) seed assigned).1 ↔
      c = seed ∨ (c ∈ vertices ∧ seed < c ∧ c ∉ assigned ∧
        ∀ m ∈ (grow near (after vertices) seed assigned).1, m < c → near c m = true)) ∧
    ∀ c, c ∈ (grow near (after vertices) seed assigned).2 ↔
      c ∈ assigned ∨ c ∈ (grow near (after vertices) seed assigned).1 := by
  have growing : Growing ((∅ : BTreeSet K).insert seed, assigned.insert seed)
      (after vertices seed) := by
    refine ⟨fun m mem => ?_, fun m mem c later => ?_, ascending.filter _⟩
    · rw [mem_insert] at mem ⊢
      exact .inl (mem.resolve_right (not_mem_emptyCollection m))
    · rw [mem_insert] at mem
      rw [mem.resolve_right (not_mem_emptyCollection m)]
      exact of_decide_eq_true (List.mem_filter.mp later).2
  obtain ⟨members, held⟩ := @grow_from _ _ near _ _ growing
  rw [grow]
  generalize (after vertices seed).foldl (join near) _ = grown at *
  refine ⟨fun c => ?_, fun c => ?_⟩
  · rw [members c, mem_insert, or_iff_left (not_mem_emptyCollection c), after, List.mem_filter,
      decide_eq_true_eq, mem_insert, not_or]
    constructor
    · rintro (same | ⟨⟨inside, later⟩, ⟨_, free⟩, each⟩)
      · exact .inl same
      · exact .inr ⟨inside, later, free, each⟩
    · rintro (same | ⟨inside, later, free, each⟩)
      · exact .inl same
      · exact .inr ⟨⟨inside, later⟩, ⟨later.ne', free⟩, each⟩
  · rw [held c, mem_insert, or_assoc, or_iff_right_iff_imp]
    rintro rfl
    exact .inr ((members c).mpr (.inl ((mem_insert _ _ _).mpr (.inl rfl))))

/-- One class after another, from where some nodes have one: every node before what is left
has. -/
theorem partition_rest {done left : List K} (ascending : (done ++ left).Pairwise (· < ·))
    {assigned : BTreeSet K} (before : ∀ v ∈ done, v ∈ assigned) :
    Rest near left assigned (partition near (after (done ++ left)) left assigned) := by
  induction left generalizing done assigned with
  | nil =>
    exact ⟨List.Pairwise.nil, by simp [partition], by simp [partition], by simp [partition],
      by simp [partition], by simp [partition], by simp [partition]⟩
  | cons seed rest ih =>
    have shifted : done ++ seed :: rest = (done ++ [seed]) ++ rest := by simp
    have right := (List.pairwise_append.mp ascending).2.1
    have later := (List.pairwise_cons.mp right).1
    rw [partition]
    by_cases held : seed ∈ assigned
    · rw [if_pos ((mem_def _ _).mp held), shifted]
      have inner := ih (shifted ▸ ascending) (List.forall_mem_append.mpr
        ⟨before, List.forall_mem_singleton.mpr held⟩)
      refine { inner with
        opened := fun c mem => List.mem_cons_of_mem _ (inner.opened c mem)
        covered := fun v => ?_ }
      rw [← inner.covered v, List.mem_cons]
      refine and_congr_left fun free => or_iff_right ?_
      rintro rfl
      exact free held
    · rw [if_neg fun here => held ((mem_def _ _).mpr here)]
      dsimp only
      obtain ⟨members, assigned'⟩ := @grow_class K _ near _ ascending seed assigned
      rw [shifted] at ascending members assigned' ⊢
      generalize grow near (after (done ++ [seed] ++ rest)) seed assigned = grown at *
      have own : seed ∈ grown.1 := (members seed).mpr (.inl rfl)
      have shifted' : ∀ v ∈ done ++ [seed], v ∈ grown.2 := List.forall_mem_append.mpr
        ⟨fun v mem => (assigned' v).mpr (.inl (before v mem)),
          List.forall_mem_singleton.mpr ((assigned' seed).mpr (.inr own))⟩
      have inner := ih ascending shifted'
      -- The members that come after the seed are among what is left.
      have inside : ∀ v ∈ grown.1, v = seed ∨ (v ∈ rest ∧ seed < v ∧ v ∉ assigned) := by
        intro v mem
        rcases (members v).mp mem with same | ⟨all, less, free, _⟩
        · exact .inl same
        · rcases List.mem_append.mp all with old | new
          · rcases List.mem_append.mp old with old | same
            · exact absurd (before v old) free
            · exact .inl (List.mem_singleton.mp same)
          · exact .inr ⟨new, less, free⟩
      have outside : ∀ c ∈ partition near (after (done ++ [seed] ++ rest)) rest grown.2,
          ∀ v ∈ c.2, v ∈ rest ∧ v ∉ grown.2 := fun c mem v held' =>
        (inner.covered v).mpr ⟨c, mem, held'⟩
      constructor
      · rw [List.map_cons, List.pairwise_cons]
        refine ⟨fun id mem => ?_, inner.ordered⟩
        obtain ⟨c, mem', rfl⟩ := List.mem_map.mp mem
        exact later c.1 (inner.opened c mem')
      · exact List.forall_mem_cons.mpr ⟨List.mem_cons_self,
          fun c mem => List.mem_cons_of_mem _ (inner.opened c mem)⟩
      · refine List.forall_mem_cons.mpr ⟨⟨own, fun m mem => ?_⟩, inner.least⟩
        rcases inside m mem with rfl | ⟨_, less, _⟩
        · exact le_refl _
        · exact less.le
      · intro v
        rw [List.exists_mem_cons_iff, ← inner.covered v, List.mem_cons]
        constructor
        · rintro ⟨here, free⟩
          by_cases mine : v ∈ grown.1
          · exact .inl mine
          · refine .inr ⟨here.resolve_left ?_, fun taken => ?_⟩
            · rintro rfl
              exact mine own
            · exact ((assigned' v).mp taken).elim free mine
        · rintro (mine | ⟨there, free⟩)
          · rcases inside v mine with rfl | ⟨there, _, free⟩
            · exact ⟨.inl rfl, held⟩
            · exact ⟨.inr there, free⟩
          · exact ⟨.inr there, fun taken => free ((assigned' v).mpr (.inl taken))⟩
      · have clear : ∀ d ∈ partition near (after (done ++ [seed] ++ rest)) rest grown.2,
            ∀ v, v ∈ grown.1 → v ∉ d.2 := fun d mem v mine theirs =>
          (outside d mem v theirs).2 ((assigned' v).mpr (.inr mine))
        intro c mem d mem' v one two
        rcases List.mem_cons.mp mem with rfl | mem
        · rcases List.mem_cons.mp mem' with rfl | mem'
          · rfl
          · exact absurd two (clear d mem' v one)
        · rcases List.mem_cons.mp mem' with rfl | mem'
          · exact absurd one (clear c mem v two)
          · exact inner.apart c mem d mem' v one two
      · refine List.forall_mem_cons.mpr ⟨fun a one b two less => ?_, inner.cliques⟩
        rcases (members a).mp one with rfl | ⟨_, _, _, each⟩
        · rcases inside b two with rfl | ⟨_, more, _⟩
          · exact absurd less (lt_irrefl _)
          · exact absurd less (not_lt_of_gt more)
        · exact each b two less
      · intro c mem d mem' less v theirs after'
        rcases List.mem_cons.mp mem' with rfl | mem'
        · rcases List.mem_cons.mp mem with rfl | mem
          · exact absurd less (lt_irrefl _)
          · exact absurd less (not_lt_of_gt (later c.1 (inner.opened c mem)))
        · rcases List.mem_cons.mp mem with rfl | mem
          · obtain ⟨there, free⟩ := outside d mem' v theirs
            rw [assigned' v, not_or] at free
            by_contra none'
            refine free.2 ((members v).mpr (.inr ⟨List.mem_append_right _ there, after', free.1,
              fun m one before' => ?_⟩))
            by_contra apart
            exact none' ⟨m, one, before', by simpa using apart⟩
          · exact inner.taken c mem d mem' less v theirs after'

/-- The partition is the greedy one. -/
theorem partition_greedy {vertices : List K} (ascending : vertices.Pairwise (· < ·))
    (symmetric : ∀ a b, near a b = near b a) :
    Greedy (fun a b => near a b = true) (· ∈ vertices)
      (partition near (after vertices) vertices ∅) := by
  have rest := @partition_rest K _ near [] vertices ascending ∅ (List.forall_mem_nil _)
  rw [List.nil_append] at rest
  refine ⟨rest.ordered, rest.least, fun v => ?_, rest.apart, fun c mem a one b two other => ?_,
    fun c mem d mem' less v held later => ?_⟩
  · rw [← rest.covered v]
    exact (and_iff_left (not_mem_emptyCollection v)).symm
  · rcases lt_or_gt_of_ne other with less | more
    · rw [symmetric]
      exact rest.cliques c mem b two a one less
    · exact rest.cliques c mem a one b two more
  · obtain ⟨m, inside, early, unlike⟩ := rest.taken c mem d mem' less v held later
    exact ⟨m, inside, early, by rw [unlike]; exact Bool.false_ne_true⟩

section
variable {near : K → K → Prop} {node : K → Prop} {cs ds : List (K × BTreeSet K)}

/-- A node that two lists of greedy cliques have in classes opened apart has one before it. -/
theorem Greedy.opens_first (one : Greedy near node cs) (two : Greedy near node ds) {v : K}
    (before : ∀ m, node m → m < v → ∀ c ∈ cs, ∀ d ∈ ds, m ∈ c.2 → m ∈ d.2 → c.1 = d.1)
    {c d : K × BTreeSet K} (here : c ∈ cs) (there : d ∈ ds) (held : v ∈ c.2) (held' : v ∈ d.2) :
    ¬ c.1 < d.1 := by
  intro less
  have later : c.1 < v := lt_of_lt_of_le less ((two.least d there).2 v held')
  have inner := (one.covered c.1).mpr ⟨c, here, (one.least c here).1⟩
  obtain ⟨e, among, opens⟩ := (two.covered c.1).mp inner
  have same := before c.1 inner later c here e among (one.least c here).1 opens
  -- Among `ds`, the class of `c.1` would have taken `v` but for some `m`.
  obtain ⟨m, mem, early, apart⟩ := two.taken e among d there (same ▸ less) v held' (same ▸ later)
  have inner := (two.covered m).mpr ⟨e, among, mem⟩
  obtain ⟨f, within, inside⟩ := (one.covered m).mp inner
  have shared := (before m inner early f within e among inside mem).trans same.symm
  have first := (one.least f within).1
  rw [shared] at first
  rw [one.apart f within c here c.1 first (one.least c here).1] at inside
  exact apart (one.cliques c here v held m inside early.ne')

/-- The class of a node is opened by the same node in any two lists of greedy cliques. -/
theorem Greedy.same_opener (one : Greedy near node cs) (two : Greedy near node ds) {v : K}
    (inner : node v) : ∀ c ∈ cs, ∀ d ∈ ds, v ∈ c.2 → v ∈ d.2 → c.1 = d.1 := by
  have finite : {v | node v}.Finite := by
    refine ((cs.flatMap fun c => c.2.toList).finite_toSet).subset fun v inner => ?_
    obtain ⟨c, here, held⟩ := (one.covered v).mp inner
    exact List.mem_flatMap.mpr ⟨c, here, (mem_toList _ _).mpr held⟩
  have founded : {v | node v}.WellFoundedOn (· < ·) := finite.wellFoundedOn
  refine founded.induction inner (P := fun v => ∀ c ∈ cs, ∀ d ∈ ds, v ∈ c.2 → v ∈ d.2 → c.1 = d.1)
    fun v _ before c here d there held held' => ?_
  rcases lt_trichotomy c.1 d.1 with less | same | more
  · exact absurd less (one.opens_first two before here there held held')
  · exact same
  · refine absurd more (two.opens_first one ?_ there here held' held)
    exact fun m inner early d there c here held' held =>
      (before m inner early c here d there held held').symm

/-- Nothing else is a list of the greedy cliques. -/
theorem Greedy.unique (one : Greedy near node cs) (two : Greedy near node ds) : cs = ds := by
  have within : ∀ {cs ds : List (K × BTreeSet K)}, Greedy near node cs →
      Greedy near node ds → ∀ c ∈ cs, c ∈ ds := by
    intro cs ds one two c here
    have members : ∀ v ∈ c.2, ∃ d ∈ ds, d.1 = c.1 ∧ v ∈ d.2 := fun v held => by
      have inner := (one.covered v).mpr ⟨c, here, held⟩
      obtain ⟨d, there, held'⟩ := (two.covered v).mp inner
      exact ⟨d, there, (one.same_opener two inner c here d there held held').symm, held'⟩
    obtain ⟨d, there, same, opened⟩ := members c.1 (one.least c here).1
    suffices alike : d = c from alike ▸ there
    refine Prod.ext same (ext_mem fun v => ⟨fun held => ?_, fun held => ?_⟩)
    · have inner := (two.covered v).mpr ⟨d, there, held⟩
      obtain ⟨e, among, held'⟩ := (one.covered v).mp inner
      have opener := (one.same_opener two inner e among d there held' held).trans same
      have first := (one.least e among).1
      rw [opener] at first
      rwa [one.apart e among c here c.1 first (one.least c here).1] at held'
    · obtain ⟨e, among, same', held'⟩ := members v held
      have first := (two.least e among).1
      rw [same'] at first
      rwa [two.apart e among d there c.1 first opened] at held'
  have ascending : ∀ {cs : List (K × BTreeSet K)}, Greedy near node cs →
      cs.Pairwise fun c d => c.1 < d.1 := fun one => List.pairwise_map.mp one.ordered
  refine (List.perm_ext_iff_of_nodup ?_ ?_).mpr (fun c =>
    ⟨within one two c, within two one c⟩) |>.eq_of_pairwise ?_ (ascending one) (ascending two)
  · exact (ascending one).imp fun less same => (same ▸ less).false
  · exact (ascending two).imp fun less same => (same ▸ less).false
  · exact fun c d _ _ less more => absurd more less.asymm

end

end Cliques

/-!
Searches with a queue. One marks a node when it is taken, so that a node may wait more than
once; one notes how far a node is when it is put in the queue, and so finds the distances.
-/
namespace Flood
open BTreeSet Worklist

variable {K : Type} [LinearOrder K]

/-- Take from the front, skip what was taken before, and put what is next at the end. -/
def run (next : K → List K) : Nat → BTreeSet K × List K → BTreeSet K
  | 0, state => state.1
  | _ + 1, (taken, []) => taken
  | pops + 1, (taken, n :: queue) =>
    if taken.contains n then run next pops (taken, queue)
    else
      let taken := taken.insert n
      run next pops (taken, queue ++ (next n).filter fun m => !taken.contains m)

/-- Put what has no distance yet at the end, one further than what it is next to. -/
def note (far : Nat) (state : BTreeMap K Nat × List K) (m : K) : BTreeMap K Nat × List K :=
  if state.1.contains m then state else (state.1.insert m (far + 1), state.2 ++ [m])

/-- Take from the front, and note what is next. -/
def depths (next : K → List K) : Nat → BTreeMap K Nat × List K → BTreeMap K Nat
  | 0, state => state.1
  | _ + 1, (depth, []) => depth
  | pops + 1, (depth, n :: queue) =>
    depths next pops ((next n).foldl (note ((depth.get n).getD 0)) (depth, queue))

section Run

variable {next : K → List K} {all : List K}

/-- What may still be put in the queue. -/
def owed (next : K → List K) (all : List K) (taken : BTreeSet K) : Nat :=
  ((all.filter fun n => !taken.contains n).map fun n => (next n).length).sum

theorem owed_insert {taken : BTreeSet K} {n : K} (mem : n ∈ all) (fresh : n ∉ taken) :
    owed next all (taken.insert n) + (next n).length ≤ owed next all taken := by
  rw [owed, owed]
  induction all with
  | nil => cases mem
  | cons x rest ih =>
    have less : ∀ rest : List K, ((rest.filter fun n' => !(taken.insert n).contains n').map
        fun n => (next n).length).sum ≤
          ((rest.filter fun n => !taken.contains n).map fun n => (next n).length).sum := by
      intro rest
      have part : rest.filter (fun n' => !(taken.insert n).contains n') =
          (rest.filter fun n' => !taken.contains n').filter fun n' =>
            !(taken.insert n).contains n' := by
        rw [List.filter_filter]
        refine List.filter_congr fun m _ => ?_
        by_cases held : taken.contains m = true
        · have more : (taken.insert n).contains m = true :=
            (mem_def _ _).mp ((mem_insert _ _ _).mpr (.inr ((mem_def _ _).mpr held)))
          rw [held, more]
          rfl
        · rw [Bool.not_eq_true] at held
          rw [held, Bool.not_false, Bool.and_true]
      rw [part]
      exact (List.filter_sublist.map _).sum_le_sum fun _ _ => Nat.zero_le _
    have held : (taken.insert n).contains n = true :=
      (mem_def _ _).mp ((mem_insert _ _ _).mpr (.inl rfl))
    have free : taken.contains n = false := by
      rw [← Bool.not_eq_true, ← mem_def]
      exact fresh
    by_cases same : n = x
    · subst same
      rw [List.filter_cons_of_neg (by rw [held]; exact Bool.false_ne_true),
        List.filter_cons_of_pos (by rw [free]; rfl), List.map_cons, List.sum_cons, Nat.add_comm]
      exact Nat.add_le_add_left (less rest) _
    · have inside := ih ((List.mem_cons.mp mem).resolve_left same)
      have alike : (taken.insert n).contains x = taken.contains x := by
        rw [Bool.eq_iff_iff, ← mem_def, ← mem_def, mem_insert, or_iff_right (Ne.symm same)]
      rw [List.filter_cons, List.filter_cons, alike]
      split
      · rw [List.map_cons, List.map_cons, List.sum_cons, List.sum_cons]
        omega
      · exact inside

/-- What is least over some roots is least over others that lead to them. -/
theorem roots_of {start start' : K → Prop} {out : BTreeSet K}
    (least : Least next start out) (fewer : ∀ r, start' r → start r)
    (lead : ∀ X : Set K, (∀ r, start' r → r ∈ X) → (∀ n ∈ X, ∀ m ∈ next n, m ∈ X) →
      ∀ r, start r → r ∈ X) : Least next start' out :=
  ⟨fun r from_ => least.roots r (fewer r from_), least.closed,
    fun X roots closed => least.within X (lead X roots closed) closed⟩

/-- What a search takes is the least set that has what it took before and what waited, where
what was taken before leads to these. -/
theorem run_least (bounded : ∀ n, ∀ m ∈ next n, m ∈ all) {pops : Nat} {taken : BTreeSet K}
    {queue : List K} (inside : ∀ n ∈ queue, n ∈ all)
    (led : ∀ n ∈ taken, ∀ m ∈ next n, m ∈ taken ∨ m ∈ queue)
    (enough : queue.length + owed next all taken ≤ pops) :
    Least next (fun n => n ∈ taken ∨ n ∈ queue) (run next pops (taken, queue)) := by
  have done : ∀ {taken : BTreeSet K},
      (∀ n ∈ taken, ∀ m ∈ next n, m ∈ taken ∨ m ∈ ([] : List K)) →
      Least next (fun n => n ∈ taken ∨ n ∈ ([] : List K)) taken := fun led =>
    ⟨fun r start => start.resolve_right List.not_mem_nil,
      fun n mem m edge => (led n mem m edge).resolve_right List.not_mem_nil,
      fun X roots _ n mem => roots n (.inl mem)⟩
  induction pops generalizing taken queue with
  | zero =>
    obtain rfl : queue = [] := List.length_eq_zero_iff.mp (by omega)
    exact done led
  | succ pops ih =>
    cases queue with
    | nil => exact done led
    | cons n queue =>
      rw [List.length_cons] at enough
      have rest : ∀ m ∈ queue, m ∈ all := fun m mem => inside m (List.mem_cons_of_mem n mem)
      rw [run]
      split
      · rename_i held
        have held : n ∈ taken := (mem_def _ _).mpr held
        have least := ih rest (fun k mem m edge => (led k mem m edge).elim .inl fun waits =>
          (List.mem_cons.mp waits).elim (fun same => .inl (same ▸ held)) .inr) (by omega)
        refine roots_of least (fun r start => start.elim .inl fun waits =>
          (List.mem_cons.mp waits).elim (fun same => .inl (same ▸ held)) .inr)
          fun X roots _ r start => roots r (start.imp_right (List.mem_cons_of_mem n))
      · rename_i unheld
        have fresh : n ∉ taken := fun mem => unheld ((mem_def _ _).mp mem)
        have paid := @owed_insert _ _ next _ _ _ (inside n List.mem_cons_self) fresh
        have most := (List.filter_sublist (p := fun m => !(taken.insert n).contains m)
          (l := next n)).length_le
        have new : ∀ m, m ∈ (next n).filter (fun m => !(taken.insert n).contains m) ↔
            m ∈ next n ∧ m ∉ taken.insert n := by
          intro m
          rw [List.mem_filter, Bool.not_eq_true', ← Bool.not_eq_true, ← mem_def]
        dsimp only
        have led' : ∀ k ∈ taken.insert n, ∀ m ∈ next k, m ∈ taken.insert n ∨
            m ∈ queue ++ (next n).filter fun m => !(taken.insert n).contains m := by
          intro k mem m edge
          by_cases here : m ∈ taken.insert n
          · exact .inl here
          · refine .inr (List.mem_append.mpr ?_)
            rcases (mem_insert _ _ _).mp mem with rfl | old
            · exact .inr ((new m).mpr ⟨edge, here⟩)
            · rw [mem_insert, not_or] at here
              rcases led k old m edge with taken' | waits
              · exact absurd taken' here.2
              · exact .inl ((List.mem_cons.mp waits).resolve_left here.1)
        have least := ih
          (List.forall_mem_append.mpr ⟨rest, fun m mem => bounded n m ((new m).mp mem).1⟩) led'
          (by rw [List.length_append]; omega)
        refine roots_of least (fun r start => ?_) fun X roots closed r start => ?_
        · rw [mem_insert, List.mem_append]
          rcases start with old | waits
          · exact .inl (.inr old)
          · exact (List.mem_cons.mp waits).elim (fun same => .inl (.inl same))
              fun later => .inr (.inl later)
        · rcases start with here | waits
          · rcases (mem_insert _ _ _).mp here with rfl | old
            · exact roots r (.inr List.mem_cons_self)
            · exact roots r (.inl old)
          · rcases List.mem_append.mp waits with later | pushed
            · exact roots r (.inr (List.mem_cons_of_mem n later))
            · exact closed n (roots n (.inr List.mem_cons_self)) r ((new r).mp pushed).1

/-- From one root, what is taken is what is at some distance. -/
theorem mem_run (bounded : ∀ n, ∀ m ∈ next n, m ∈ all) {root : K} (inside : root ∈ all)
    {pops : Nat} (enough : 1 + owed next all ∅ ≤ pops) (n : K) :
    n ∈ run next pops (∅, [root]) ↔ ∃ k, Breadth.Steps next root k n := by
  have led : ∀ n ∈ (∅ : BTreeSet K), ∀ m ∈ next n, m ∈ (∅ : BTreeSet K) ∨ m ∈ [root] :=
    fun k mem => absurd mem (not_mem_emptyCollection k)
  have least := run_least bounded (List.forall_mem_singleton.mpr inside) led enough
  constructor
  · refine least.within {n | ∃ k, Breadth.Steps next root k n} (fun r start => ?_)
      (fun n walk m edge => ?_) n
    · rcases start with none' | here
      · exact absurd none' (not_mem_emptyCollection r)
      · exact ⟨0, by rw [List.mem_singleton.mp here]; exact .start⟩
    · obtain ⟨k, walk⟩ := walk
      exact ⟨k + 1, .step walk edge⟩
  · rintro ⟨k, walk⟩
    induction walk with
    | start => exact least.roots root (.inr List.mem_cons_self)
    | step _ edge ih => exact least.closed _ ih _ edge

end Run

section Depths
open Breadth

variable {next : K → List K} {all : List K} {root : K}

/-- What the search knows: distances are right; what waits has one, nearest first and none more
than one further than the first; and what no longer waits leads to what has one. -/
structure Known (next : K → List K) (root : K) (depth : BTreeMap K Nat) (queue : List K) :
    Prop where
  right : ∀ n d, depth.get n = some d → AtDistance next root d n
  rooted : (depth.get root).isSome = true
  waits : ∀ n ∈ queue, (depth.get n).isSome = true
  nearest : (queue.map fun n => (depth.get n).getD 0).Pairwise (· ≤ ·)
  spread : ∀ n ∈ queue.head?, ∀ m ∈ queue, (depth.get m).getD 0 ≤ (depth.get n).getD 0 + 1
  led : ∀ n, (depth.get n).isSome = true → n ∉ queue → ∀ m ∈ next n, (depth.get m).isSome = true

/-- What is no further than the first that waits has a distance. -/
theorem known_near {depth : BTreeMap K Nat} {n : K} {queue : List K}
    (known : Known next root depth (n :: queue)) {k : Nat} {m : K}
    (here : AtDistance next root k m) (near : k ≤ (depth.get n).getD 0) :
    (depth.get m).isSome = true := by
  induction k generalizing m with
  | zero =>
    rw [(at_distance_zero m).mp here]
    exact known.rooted
  | succ k ih =>
    obtain ⟨p, before, edge⟩ := distance_before here
    have held := ih before (by omega)
    refine known.led p held (fun waits => ?_) m edge
    obtain ⟨d, found⟩ := Option.isSome_iff_exists.mp held
    have same := (known.right p d found).unique before
    have first := known.nearest
    rw [List.map_cons, List.pairwise_cons] at first
    rcases List.mem_cons.mp waits with rfl | later
    · rw [found, Option.getD_some] at near
      omega
    · have least := first.1 _ (List.mem_map_of_mem later)
      rw [found, Option.getD_some] at least
      omega

/-- What is known while the nodes next to one are noted: those before it in the queue are as
they were, and what is new is one further. -/
structure Noting (next : K → List K) (root n : K) (far : Nat) (depth : BTreeMap K Nat)
    (queue : List K) : Prop where
  right : ∀ m d, depth.get m = some d → AtDistance next root d m
  rooted : (depth.get root).isSome = true
  own : depth.get n = some far
  waits : ∀ m ∈ queue, (depth.get m).isSome = true
  nearest : (queue.map fun m => (depth.get m).getD 0).Pairwise (· ≤ ·)
  least : ∀ m ∈ queue, far ≤ (depth.get m).getD 0 ∧ (depth.get m).getD 0 ≤ far + 1
  near : ∀ k m, AtDistance next root k m → k ≤ far → (depth.get m).isSome = true
  led : ∀ m, (depth.get m).isSome = true → m ∉ queue → m ≠ n →
    ∀ x ∈ next m, (depth.get x).isSome = true

theorem noting_of_known {depth : BTreeMap K Nat} {n : K} {queue : List K}
    (known : Known next root depth (n :: queue)) :
    Noting next root n ((depth.get n).getD 0) depth queue := by
  obtain ⟨d, found⟩ := Option.isSome_iff_exists.mp (known.waits n List.mem_cons_self)
  have order := known.nearest
  rw [List.map_cons, List.pairwise_cons] at order
  refine ⟨known.right, known.rooted, by rw [found, Option.getD_some],
    fun m mem => known.waits m (List.mem_cons_of_mem n mem), order.2, fun m mem => ⟨?_, ?_⟩,
    fun k m here near => known_near known here near, fun m held unqueued other => ?_⟩
  · exact order.1 _ (List.mem_map_of_mem mem)
  · exact known.spread n rfl m (List.mem_cons_of_mem n mem)
  · refine known.led m held fun waits => ?_
    exact (List.mem_cons.mp waits).elim other unqueued

theorem note_held {far : Nat} {depth : BTreeMap K Nat} {queue : List K} {m : K}
    (held : (depth.get m).isSome = true) : note far (depth, queue) m = (depth, queue) := by
  rw [note, if_pos (show depth.contains m = true from held)]

theorem note_new {far : Nat} {depth : BTreeMap K Nat} {queue : List K} {m : K}
    (unheld : ¬ (depth.get m).isSome = true) :
    note far (depth, queue) m = (depth.insert m (far + 1), queue ++ [m]) := by
  rw [note, if_neg (show ¬ depth.contains m = true from unheld)]

theorem insert_some {depth : BTreeMap K Nat} {m : K} (far : Nat) {x : K}
    (held : (depth.get x).isSome = true) : ((depth.insert m far).get x).isSome = true := by
  rw [BTreeMap.get_insert]
  split
  · rfl
  · exact held

/-- A node next to the one taken gets a distance if it has none. -/
theorem noting_note {n : K} {far : Nat} {depth : BTreeMap K Nat} {queue : List K}
    (noting : Noting next root n far depth queue) {m : K} (edge : m ∈ next n) :
    Noting next root n far (note far (depth, queue) m).1 (note far (depth, queue) m).2 ∧
      ((note far (depth, queue) m).1.get m).isSome = true ∧
      ∀ x, (depth.get x).isSome = true → ((note far (depth, queue) m).1.get x).isSome = true := by
  by_cases held : (depth.get m).isSome = true
  · rw [note_held held]
    exact ⟨noting, held, fun x some' => some'⟩
  · rw [note_new held]
    have old : ∀ x, (depth.get x).isSome = true →
        (depth.insert m (far + 1)).get x = depth.get x := by
      intro x some'
      rw [BTreeMap.get_insert, if_neg]
      rintro rfl
      exact held some'
    have own : (depth.insert m (far + 1)).get m = some (far + 1) := by
      rw [BTreeMap.get_insert, if_pos rfl]
    have here : AtDistance next root (far + 1) m := by
      obtain ⟨k, le, there⟩ := distance_step (noting.right n far noting.own) edge
      rcases Nat.lt_or_eq_of_le le with less | same
      · exact absurd (noting.near k m there (by omega)) held
      · rw [← same]
        exact there
    have same : queue.map (fun x => ((depth.insert m (far + 1)).get x).getD 0) =
        queue.map fun x => (depth.get x).getD 0 :=
      List.map_congr_left fun x mem => by rw [old x (noting.waits x mem)]
    refine ⟨⟨fun x d found => ?_, insert_some _ noting.rooted, ?_, ?_, ?_, ?_,
      fun k x there near => insert_some _ (noting.near k x there near),
      fun x some' unqueued other y edge' => ?_⟩, by rw [own]; rfl,
      fun x some' => insert_some _ some'⟩
    · rw [BTreeMap.get_insert] at found
      split at found
      · rename_i same
        cases found
        rw [same]
        exact here
      · exact noting.right x d found
    · rw [old n (by rw [noting.own]; rfl), noting.own]
    · intro x mem
      rcases List.mem_append.mp mem with before | new
      · exact insert_some _ (noting.waits x before)
      · rw [List.mem_singleton.mp new, own]
        rfl
    · rw [List.map_append, same, List.map_singleton, own, Option.getD_some, List.pairwise_append]
      refine ⟨noting.nearest, List.pairwise_singleton _ _, fun a mem b last => ?_⟩
      obtain ⟨x, inside, rfl⟩ := List.mem_map.mp mem
      rw [List.mem_singleton.mp last]
      exact (noting.least x inside).2
    · intro x mem
      rcases List.mem_append.mp mem with before | new
      · rw [old x (noting.waits x before)]
        exact noting.least x before
      · rw [List.mem_singleton.mp new, own, Option.getD_some]
        exact ⟨Nat.le_succ far, le_refl _⟩
    · rw [List.mem_append, List.mem_singleton, not_or] at unqueued
      rw [BTreeMap.get_insert, if_neg unqueued.2] at some'
      exact insert_some _ (noting.led x some' unqueued.1 other y edge')

theorem noting_all {n : K} {far : Nat} (ms : List K) (edges : ∀ m ∈ ms, m ∈ next n)
    {depth : BTreeMap K Nat} {queue : List K} (noting : Noting next root n far depth queue) :
    Noting next root n far (ms.foldl (note far) (depth, queue)).1
        (ms.foldl (note far) (depth, queue)).2 ∧
      (∀ m ∈ ms, ((ms.foldl (note far) (depth, queue)).1.get m).isSome = true) ∧
      ∀ x, (depth.get x).isSome = true →
        ((ms.foldl (note far) (depth, queue)).1.get x).isSome = true := by
  induction ms generalizing depth queue with
  | nil => exact ⟨noting, List.forall_mem_nil _, fun x some' => some'⟩
  | cons m ms ih =>
    obtain ⟨noted, own, kept⟩ := noting_note noting (edges m List.mem_cons_self)
    obtain ⟨after, each, kept'⟩ := ih (fun x mem => edges x (List.mem_cons_of_mem m mem)) noted
    rw [List.foldl_cons]
    exact ⟨after, List.forall_mem_cons.mpr ⟨kept' m own, each⟩,
      fun x some' => kept' x (kept x some')⟩

/-- One node taken keeps what is known. -/
theorem known_pop {depth : BTreeMap K Nat} {n : K} {queue : List K}
    (known : Known next root depth (n :: queue)) :
    Known next root ((next n).foldl (note ((depth.get n).getD 0)) (depth, queue)).1
      ((next n).foldl (note ((depth.get n).getD 0)) (depth, queue)).2 := by
  obtain ⟨after, each, kept⟩ := noting_all (next n) (fun m mem => mem) (noting_of_known known)
  refine ⟨after.right, after.rooted, after.waits, after.nearest, fun a first b mem => ?_,
    fun m some' unqueued x edge => ?_⟩
  · have low := (after.least a (List.mem_of_mem_head? first)).1
    have high := (after.least b mem).2
    omega
  · by_cases same : m = n
    · rw [same] at edge
      exact each x edge
    · exact after.led m some' unqueued same x edge

/-- What has no distance yet, and what waits. -/
def remaining (all : List K) (state : BTreeMap K Nat × List K) : Nat :=
  (all.filter fun n => !state.1.contains n).length + state.2.length

theorem remaining_note {far : Nat} {state : BTreeMap K Nat × List K} {m : K} (mem : m ∈ all) :
    remaining all (note far state m) ≤ remaining all state := by
  rw [note]
  split
  · exact le_refl _
  · rename_i unheld
    rw [remaining, remaining, List.length_append, List.length_singleton]
    have fewer : (all.filter fun n => !(state.1.insert m (far + 1)).contains n).length <
        (all.filter fun n => !state.1.contains n).length := by
      have part : all.filter (fun n => !(state.1.insert m (far + 1)).contains n) =
          (all.filter fun n => !state.1.contains n).filter fun n => decide (n ≠ m) := by
        rw [List.filter_filter]
        refine List.filter_congr fun n _ => ?_
        rw [BTreeMap.contains, BTreeMap.get_insert, BTreeMap.contains]
        by_cases same : n = m
        · simp [same]
        · simp [same]
      rw [part]
      refine List.length_filter_lt_length_iff_exists.mpr ⟨m, List.mem_filter.mpr ⟨mem, ?_⟩, ?_⟩
      · simpa using unheld
      · simp
    dsimp only
    omega

theorem remaining_all {far : Nat} (ms : List K) (inside : ∀ m ∈ ms, m ∈ all)
    (state : BTreeMap K Nat × List K) :
    remaining all (ms.foldl (note far) state) ≤ remaining all state := by
  induction ms generalizing state with
  | nil => exact le_refl _
  | cons m ms ih =>
    rw [List.foldl_cons]
    exact (ih (fun x mem => inside x (List.mem_cons_of_mem m mem)) _).trans
      (remaining_note (inside m List.mem_cons_self))

theorem depths_known (bounded : ∀ n, ∀ m ∈ next n, m ∈ all) {pops : Nat} {depth : BTreeMap K Nat}
    {queue : List K} (known : Known next root depth queue)
    (enough : remaining all (depth, queue) ≤ pops) :
    Known next root (depths next pops (depth, queue)) [] := by
  induction pops generalizing depth queue with
  | zero =>
    obtain rfl : queue = [] := List.length_eq_zero_iff.mp (by
      rw [remaining] at enough
      dsimp only at enough
      omega)
    exact known
  | succ pops ih =>
    cases queue with
    | nil => exact known
    | cons n queue =>
      refine ih (known_pop known) ?_
      have less := @remaining_all _ _ _ ((depth.get n).getD 0) (next n) (bounded n)
        (depth, queue)
      change remaining all ((next n).foldl (note ((depth.get n).getD 0)) (depth, queue)) ≤ pops
      have one : remaining all (depth, n :: queue) = remaining all (depth, queue) + 1 := rfl
      omega

/-- The distances the search finds are the distances there are. -/
theorem depths_exact (bounded : ∀ n, ∀ m ∈ next n, m ∈ all) {pops : Nat}
    (enough : all.length + 1 ≤ pops) (n : K) (d : Nat) :
    (depths next pops ((∅ : BTreeMap K Nat).insert root 0, [root])).get n = some d ↔
      AtDistance next root d n := by
  have first : ∀ m, ((∅ : BTreeMap K Nat).insert root 0).get m =
      if m = root then some 0 else none := fun m => BTreeMap.get_insert _ _ _ _
  have start : Known next root ((∅ : BTreeMap K Nat).insert root 0) [root] := by
    refine ⟨fun m d found => ?_, by rw [first, if_pos rfl]; rfl, fun m mem => ?_,
      List.pairwise_singleton _ _, fun m head x mem => ?_, fun m some' unqueued => ?_⟩
    · rw [first] at found
      split at found
      · rename_i same
        cases found
        rw [same]
        exact (at_distance_zero root).mpr rfl
      · cases found
    · rw [List.mem_singleton.mp mem, first, if_pos rfl]
      rfl
    · cases head
      rw [List.mem_singleton.mp mem]
      exact Nat.le_succ _
    · rw [first, if_neg fun same => unqueued (List.mem_singleton.mpr same)] at some'
      cases some'
  have room : remaining all ((∅ : BTreeMap K Nat).insert root 0, [root]) ≤ pops := by
    have most := List.length_filter_le
      (fun m => !((∅ : BTreeMap K Nat).insert root 0).contains m) all
    change (all.filter fun m => !((∅ : BTreeMap K Nat).insert root 0).contains m).length + 1 ≤ pops
    omega
  have whole := depths_known bounded start room
  constructor
  · exact whole.right n d
  · intro here
    have reached : ∀ k m, Steps next root k m → ((depths next pops
        ((∅ : BTreeMap K Nat).insert root 0, [root])).get m).isSome = true := by
      intro k m walk
      induction walk with
      | start => exact whole.rooted
      | step _ edge ih => exact whole.led _ ih List.not_mem_nil _ edge
    obtain ⟨k, found⟩ := Option.isSome_iff_exists.mp (reached d n here.walk)
    rw [found, (whole.right n k found).unique here]

end Depths

/-! Where the edges go both ways. -/

section Graph
open Breadth

variable {next : K → List K} {graph : SimpleGraph K}

omit [LinearOrder K] in
theorem steps_iff_walk (edges : ∀ a b, b ∈ next a ↔ graph.Adj a b) {a b : K} {k : Nat} :
    Steps next a k b ↔ ∃ walk : graph.Walk a b, walk.length = k := by
  constructor
  · intro steps
    induction steps with
    | start => exact ⟨.nil, rfl⟩
    | step _ edge ih =>
      obtain ⟨walk, long⟩ := ih
      exact ⟨walk.concat ((edges _ _).mp edge), by rw [SimpleGraph.Walk.length_concat, long]⟩
  · rintro ⟨walk, rfl⟩
    induction walk using SimpleGraph.Walk.concatRec with
    | Hnil => exact .start
    | Hconcat walk edge ih =>
      rw [SimpleGraph.Walk.length_concat]
      exact .step ih ((edges _ _).mpr edge)

omit [LinearOrder K] in
theorem reachable_iff_steps (edges : ∀ a b, b ∈ next a ↔ graph.Adj a b) {a b : K} :
    graph.Reachable a b ↔ ∃ k, Steps next a k b := by
  constructor
  · rintro ⟨walk⟩
    exact ⟨walk.length, (steps_iff_walk edges).mpr ⟨walk, rfl⟩⟩
  · rintro ⟨k, steps⟩
    obtain ⟨walk, _⟩ := (steps_iff_walk edges).mp steps
    exact ⟨walk⟩

omit [LinearOrder K] in
theorem distance_iff_dist (edges : ∀ a b, b ∈ next a ↔ graph.Adj a b) {a b : K} {k : Nat} :
    AtDistance next a k b ↔ graph.Reachable a b ∧ graph.dist a b = k := by
  constructor
  · intro here
    obtain ⟨walk, long⟩ := (steps_iff_walk edges).mp here.walk
    have reach : graph.Reachable a b := ⟨walk⟩
    obtain ⟨short, least⟩ := reach.exists_walk_length_eq_dist
    refine ⟨reach, le_antisymm (long ▸ graph.dist_le walk) ?_⟩
    exact least ▸ here.least _ ((steps_iff_walk edges).mpr ⟨short, rfl⟩)
  · rintro ⟨reach, rfl⟩
    refine ⟨(steps_iff_walk edges).mpr reach.exists_walk_length_eq_dist, fun j steps => ?_⟩
    obtain ⟨walk, rfl⟩ := (steps_iff_walk edges).mp steps
    exact graph.dist_le walk

omit [LinearOrder K] in
/-- A node that another leads to is that node, or next to some node. -/
theorem reachable_adj {a b : K} (reach : graph.Reachable a b) (other : b ≠ a) :
    ∃ c, graph.Adj b c := by
  obtain ⟨walk⟩ := reach.symm
  cases walk with
  | nil => exact absurd rfl other
  | cons edge _ => exact ⟨_, edge⟩

end Graph

end Flood
