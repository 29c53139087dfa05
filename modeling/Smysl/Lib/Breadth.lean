import Smysl.Lib.Worklist

/-!
A search level by level. What it returns is what lies within the limit, each node
once and at its distance.
-/
namespace Breadth
open BTreeSet Worklist

variable {K T : Type} [LinearOrder K]

/-- What is seen for the first time is put behind what was seen before it. -/
def see (tag : K → T) (state : BTreeSet K × List (K × T)) (m : K) : BTreeSet K × List (K × T) :=
  if state.1.contains m then state else (state.1.insert m, state.2 ++ [(m, tag m)])

/-- What was seen once a level was looked at, and what of it is new. -/
def expand (next : K → List K) (tag : K → K → T) (level : List (K × T)) (seen : BTreeSet K) :
    BTreeSet K × List (K × T) :=
  level.foldl (fun state n => (next n.1).foldl (see (tag n.1)) state) (seen, [])

/-- One level after the other up to the limit, and at most so many of them. -/
def search (next : K → List K) (tag : K → K → T) (sort : List (K × T) → List (K × T))
    (limit : Option Nat) : Nat → Nat → List (K × T) → BTreeSet K → List (K × Nat × T)
  | 0, _, _, _ => []
  | levels + 1, depth, frontier, seen =>
    if frontier.isEmpty || limit.any (fun l => decide (l < depth)) then []
    else
      let level := sort frontier
      let after := expand next tag level seen
      level.map (fun n => (n.1, depth, n.2)) ++
        search next tag sort limit levels (depth + 1) after.2 after.1

section Distance

/-- A walk of so many steps. -/
inductive Steps (next : K → List K) (root : K) : Nat → K → Prop
  | start : Steps next root 0 root
  | step {k : Nat} {n m : K} (walk : Steps next root k n) (edge : m ∈ next n) :
    Steps next root (k + 1) m

/-- The shortest walk has so many steps. -/
structure AtDistance (next : K → List K) (root : K) (k : Nat) (n : K) : Prop where
  walk : Steps next root k n
  least : ∀ j, Steps next root j n → k ≤ j

variable {next : K → List K} {root : K}

omit [LinearOrder K] in
theorem AtDistance.unique {j k : Nat} {n : K} (one : AtDistance next root j n)
    (other : AtDistance next root k n) : j = k :=
  le_antisymm (one.least k other.walk) (other.least j one.walk)

omit [LinearOrder K] in
theorem at_distance_zero (n : K) : AtDistance next root 0 n ↔ n = root := by
  constructor
  · intro here
    cases here.walk
    rfl
  · intro same
    rw [same]
    exact ⟨.start, fun j _ => Nat.zero_le j⟩

omit [LinearOrder K] in
theorem distance_of_steps {k : Nat} {n : K} (walk : Steps next root k n) :
    ∃ j ≤ k, AtDistance next root j n := by
  classical
  have some_ : ∃ j, Steps next root j n := ⟨k, walk⟩
  exact ⟨Nat.find some_, Nat.find_min' some_ walk, Nat.find_spec some_,
    fun j other => Nat.find_min' some_ other⟩

omit [LinearOrder K] in
/-- The step before the last of a shortest walk is at its distance too. -/
theorem distance_before {k : Nat} {m : K} (here : AtDistance next root (k + 1) m) :
    ∃ n, AtDistance next root k n ∧ m ∈ next n := by
  cases here.walk with
  | @step _ n _ walk edge =>
    refine ⟨n, ⟨walk, fun j other => ?_⟩, edge⟩
    have := here.least (j + 1) (.step other edge)
    omega

omit [LinearOrder K] in
theorem distance_below {j k : Nat} (below : j ≤ k) {m : K} (here : AtDistance next root k m) :
    ∃ n, AtDistance next root j n := by
  induction k generalizing m with
  | zero =>
    rw [Nat.le_zero.mp below]
    exact ⟨m, here⟩
  | succ k ih =>
    rcases Nat.lt_or_eq_of_le below with less | same
    · obtain ⟨n, before, _⟩ := distance_before here
      exact ih (by omega) before
    · rw [same]
      exact ⟨m, here⟩

omit [LinearOrder K] in
theorem distance_step {k : Nat} {n m : K} (here : AtDistance next root k n) (edge : m ∈ next n) :
    ∃ j ≤ k + 1, AtDistance next root j m := distance_of_steps (.step here.walk edge)

omit [LinearOrder K] in
theorem steps_mono {more : K → List K} (within : ∀ n, ∀ m ∈ next n, m ∈ more n) {k : Nat} {n : K}
    (walk : Steps next root k n) : Steps more root k n := by
  induction walk with
  | start => exact .start
  | step _ edge ih => exact .step ih (within _ _ edge)

/-- No further than the limit. -/
def Upto (limit : Option Nat) (k : Nat) : Prop := ∀ l, limit = some l → k ≤ l

theorem Upto.less {limit : Option Nat} {j k : Nat} (upto : Upto limit k) (below : j ≤ k) :
    Upto limit j := fun l same => below.trans (upto l same)

omit [LinearOrder K] in
/-- Fewer edges keep every distance up to a limit, if and only if every node within it keeps an
edge from a node one step nearer. -/
theorem same_distances_iff {more : K → List K} (within : ∀ n, ∀ m ∈ next n, m ∈ more n)
    (limit : Option Nat) :
    (∀ k n, Upto limit k → (AtDistance next root k n ↔ AtDistance more root k n)) ↔
      ∀ k m, Upto limit (k + 1) → AtDistance more root (k + 1) m →
        ∃ n, AtDistance more root k n ∧ m ∈ next n := by
  constructor
  · intro same k m upto here
    obtain ⟨n, before, edge⟩ := distance_before ((same (k + 1) m upto).mpr here)
    exact ⟨n, (same k n (upto.less (Nat.le_succ k))).mp before, edge⟩
  · intro kept
    have walks : ∀ k n, Upto limit k → AtDistance more root k n → Steps next root k n := by
      intro k
      induction k with
      | zero =>
        intro n _ here
        rw [(at_distance_zero n).mp here]
        exact .start
      | succ k ih =>
        intro m upto here
        obtain ⟨n, before, edge⟩ := kept k m upto here
        exact .step (ih n (upto.less (Nat.le_succ k)) before) edge
    have far : ∀ k n, Upto limit k → AtDistance more root k n → AtDistance next root k n :=
      fun k n upto here =>
        ⟨walks k n upto here, fun j walk => here.least j (steps_mono within walk)⟩
    intro k n upto
    constructor
    · intro here
      obtain ⟨j, le, there⟩ := distance_of_steps (steps_mono within here.walk)
      have same := here.unique (far j n (upto.less le) there)
      rw [same]
      exact there
    · exact far k n upto

omit [LinearOrder K] in
/-- Something lies beyond a level if and only if the level has an edge that leaves the ball. -/
theorem beyond_iff (limit : Nat) :
    (∃ n m, AtDistance next root limit n ∧ m ∈ next n ∧
        ¬ ∃ k ≤ limit, AtDistance next root k m) ↔
      ∃ k m, limit < k ∧ AtDistance next root k m := by
  constructor
  · rintro ⟨n, m, here, edge, outside⟩
    obtain ⟨k, _, there⟩ := distance_step here edge
    refine ⟨k, m, ?_, there⟩
    by_contra near
    exact outside ⟨k, by omega, there⟩
  · rintro ⟨k, m, beyond, far⟩
    obtain ⟨v, there⟩ := distance_below (Nat.succ_le_of_lt beyond) far
    obtain ⟨n, here, edge⟩ := distance_before there
    refine ⟨n, v, here, edge, ?_⟩
    rintro ⟨j, near, other⟩
    have := there.unique other
    omega

end Distance

section Level

theorem see_cases (tag : K → T) (state : BTreeSet K × List (K × T)) (m : K) :
    (m ∈ state.1 ∧ see tag state m = state) ∨
      (m ∉ state.1 ∧ see tag state m = (state.1.insert m, state.2 ++ [(m, tag m)])) := by
  rw [see]
  by_cases held : state.1.contains m = true
  · apply Or.inl
    rw [if_pos held]
    exact ⟨(mem_def _ _).mpr held, rfl⟩
  · apply Or.inr
    rw [if_neg held]
    exact ⟨fun mem => held ((mem_def _ _).mp mem), rfl⟩

theorem see_seen (tag : K → T) (state : BTreeSet K × List (K × T)) (m n : K) :
    n ∈ (see tag state m).1 ↔ n ∈ state.1 ∨ n = m := by
  rcases see_cases tag state m with ⟨held, same⟩ | ⟨_, seen⟩
  · rw [same]
    constructor
    · exact Or.inl
    · intro either
      rcases either with mem | here
      · exact mem
      · rw [here]
        exact held
  · rw [seen, mem_insert]
    exact or_comm

theorem see_all_seen (tag : K → T) (ms : List K) (state : BTreeSet K × List (K × T)) (n : K) :
    n ∈ (ms.foldl (see tag) state).1 ↔ n ∈ state.1 ∨ n ∈ ms := by
  induction ms generalizing state with
  | nil => simp
  | cons m ms ih => rw [List.foldl_cons, ih, see_seen, List.mem_cons, or_assoc]

theorem fresh_see {seen : BTreeSet K} {state : BTreeSet K × List (K × T)}
    (fresh : Fresh seen state.1 (state.2.map Prod.fst)) (tag : K → T) (m : K) :
    Fresh seen (see tag state m).1 ((see tag state m).2.map Prod.fst) := by
  rcases see_cases tag state m with ⟨_, same⟩ | ⟨unheld, new⟩
  · rw [same]
    exact fresh
  · rw [new, List.map_append, List.map_singleton]
    exact fresh_insert fresh unheld

theorem fresh_see_all {seen : BTreeSet K} (tag : K → T) (ms : List K)
    {state : BTreeSet K × List (K × T)} (fresh : Fresh seen state.1 (state.2.map Prod.fst)) :
    Fresh seen (ms.foldl (see tag) state).1 ((ms.foldl (see tag) state).2.map Prod.fst) := by
  induction ms generalizing state with
  | nil => exact fresh
  | cons m ms ih => exact ih (fresh_see fresh tag m)

theorem expand_from (next : K → List K) (tag : K → K → T) (level : List (K × T))
    {seen : BTreeSet K} {state after : BTreeSet K × List (K × T)}
    (fresh : Fresh seen state.1 (state.2.map Prod.fst))
    (run : level.foldl (fun state n => (next n.1).foldl (see (tag n.1)) state) state = after) :
    Fresh seen after.1 (after.2.map Prod.fst) ∧
      ∀ n, n ∈ after.1 ↔ n ∈ state.1 ∨ ∃ m ∈ level.map Prod.fst, n ∈ next m := by
  induction level generalizing state with
  | nil =>
    rw [← run]
    exact ⟨fresh, fun n => by simp⟩
  | cons e level ih =>
    obtain ⟨rest, mem⟩ := ih (fresh_see_all (tag e.1) (next e.1) fresh) run
    refine ⟨rest, fun n => ?_⟩
    rw [mem, see_all_seen, or_assoc]
    simp

theorem expand_fresh (next : K → List K) (tag : K → K → T) (level : List (K × T))
    (seen : BTreeSet K) :
    Fresh seen (expand next tag level seen).1 ((expand next tag level seen).2.map Prod.fst) :=
  (expand_from next tag level (fresh_none seen) rfl).1

theorem expand_seen (next : K → List K) (tag : K → K → T) (level : List (K × T))
    (seen : BTreeSet K) (n : K) :
    n ∈ (expand next tag level seen).1 ↔ n ∈ seen ∨ ∃ m ∈ level.map Prod.fst, n ∈ next m :=
  (expand_from next tag level (fresh_none seen) rfl).2 n

variable {next : K → List K} {root : K}

/-- The state before the level of a depth is looked at. -/
structure Before (next : K → List K) (root : K) (depth : Nat) (frontier : List (K × T))
    (seen : BTreeSet K) : Prop where
  distinct : (frontier.map Prod.fst).Nodup
  level : ∀ n, n ∈ frontier.map Prod.fst ↔ AtDistance next root depth n
  ball : ∀ n, n ∈ seen ↔ ∃ k ≤ depth, Steps next root k n

theorem before_first (tag : T) :
    Before next root 0 [(root, tag)] ((∅ : BTreeSet K).insert root) := by
  refine ⟨List.nodup_singleton root, fun n => ?_, fun n => ?_⟩
  · rw [at_distance_zero]
    simp
  · rw [mem_insert, or_iff_left (not_mem_emptyCollection n)]
    constructor
    · intro same
      rw [same]
      exact ⟨0, le_refl 0, .start⟩
    · rintro ⟨k, le, walk⟩
      rw [Nat.le_zero.mp le] at walk
      cases walk
      rfl

theorem before_next {depth : Nat} {frontier level : List (K × T)} {seen : BTreeSet K}
    (before : Before next root depth frontier seen) (perm : level.Perm frontier)
    (tag : K → K → T) :
    Before next root (depth + 1) (expand next tag level seen).2 (expand next tag level seen).1 := by
  have fresh := expand_fresh next tag level seen
  have onLevel : ∀ n, n ∈ level.map Prod.fst ↔ AtDistance next root depth n := by
    intro n
    rw [(perm.map Prod.fst).mem_iff, before.level]
  have ball : ∀ n, n ∈ (expand next tag level seen).1 ↔
      ∃ k ≤ depth + 1, Steps next root k n := by
    intro n
    rw [expand_seen, before.ball]
    constructor
    · rintro (⟨k, le, walk⟩ | ⟨m, mem, edge⟩)
      · exact ⟨k, by omega, walk⟩
      · exact ⟨depth + 1, le_refl _, .step ((onLevel m).mp mem).walk edge⟩
    · rintro ⟨k, le, walk⟩
      obtain ⟨j, shorter, here⟩ := distance_of_steps walk
      by_cases near : j ≤ depth
      · exact Or.inl ⟨j, near, here.walk⟩
      · have same : j = depth + 1 := by omega
        rw [same] at here
        obtain ⟨m, there, edge⟩ := distance_before here
        exact Or.inr ⟨m, (onLevel m).mpr there, edge⟩
  refine ⟨fresh.distinct, fun n => ?_, ball⟩
  -- what is new is in the larger ball and not in the smaller one
  rw [fresh.mem_found, ball, before.ball]
  constructor
  · rintro ⟨⟨k, le, walk⟩, outside⟩
    have far : ∀ j, Steps next root j n → depth + 1 ≤ j := by
      intro j other
      by_contra near
      exact outside ⟨j, by omega, other⟩
    have same : k = depth + 1 := le_antisymm le (far k walk)
    rw [same] at walk
    exact ⟨walk, far⟩
  · intro here
    refine ⟨⟨depth + 1, le_refl _, here.walk⟩, ?_⟩
    rintro ⟨k, le, walk⟩
    have := here.least k walk
    omega

end Level

section Search

variable {next : K → List K} {root : K} {tag : K → K → T} {sort : List (K × T) → List (K × T)}
  (sorted : ∀ xs, (sort xs).Perm xs) {limit : Option Nat}
include sorted

theorem search_at {levels depth : Nat} {frontier : List (K × T)} {seen : BTreeSet K}
    (before : Before next root depth frontier seen) {e : K × Nat × T}
    (mem : e ∈ search next tag sort limit levels depth frontier seen) :
    depth ≤ e.2.1 ∧ Upto limit e.2.1 ∧ AtDistance next root e.2.1 e.1 := by
  induction levels generalizing depth frontier seen with
  | zero => cases mem
  | succ levels ih =>
    rw [search] at mem
    split at mem
    · cases mem
    · rename_i going
      rcases List.mem_append.mp mem with here | later
      · obtain ⟨n, on, same⟩ := List.mem_map.mp here
        rw [← same]
        refine ⟨le_refl _, fun l bound => ?_, ?_⟩
        · by_contra beyond
          apply going
          rw [bound, Option.any_some, decide_eq_true (Nat.lt_of_not_le beyond), Bool.or_true]
        · exact (before.level n.1).mp
            (List.mem_map_of_mem ((sorted frontier).mem_iff.mp on))
      · obtain ⟨deep, rest⟩ := ih (before_next before (sorted frontier) tag) later
        exact ⟨by omega, rest⟩

theorem search_distinct {levels depth : Nat} {frontier : List (K × T)} {seen : BTreeSet K}
    (before : Before next root depth frontier seen) :
    ((search next tag sort limit levels depth frontier seen).map Prod.fst).Nodup := by
  induction levels generalizing depth frontier seen with
  | zero => exact List.nodup_nil
  | succ levels ih =>
    rw [search]
    split
    · exact List.nodup_nil
    · have after := before_next before (sorted frontier) tag
      rw [List.map_append, List.map_map]
      apply List.Nodup.append _ (ih after)
      · intro n here later
        obtain ⟨e, mem, same⟩ := List.mem_map.mp later
        obtain ⟨deep, _, far⟩ := search_at sorted after mem
        obtain ⟨x, on, name⟩ := List.mem_map.mp here
        have near := (before.level x.1).mp
          (List.mem_map_of_mem ((sorted frontier).mem_iff.mp on))
        rw [show x.1 = n from name, ← same] at near
        have := near.unique far
        omega
      · exact ((sorted frontier).map Prod.fst).nodup_iff.mpr before.distinct

/-- With a level for each node that is not seen yet, nothing within the limit is missed. -/
theorem search_whole {all : List K} (bounded : ∀ n, ∀ m ∈ next n, m ∈ all) {levels depth : Nat}
    {frontier : List (K × T)} {seen : BTreeSet K} (before : Before next root depth frontier seen)
    (enough : frontier = [] ∨ unseen all seen < levels) {k : Nat} (deep : depth ≤ k)
    (upto : Upto limit k) {n : K} (here : AtDistance next root k n) :
    ∃ t, (n, k, t) ∈ search next tag sort limit levels depth frontier seen := by
  have some_ : frontier ≠ [] := by
    intro none'
    obtain ⟨m, there⟩ := distance_below deep here
    have mem := (before.level m).mpr there
    rw [none'] at mem
    cases mem
  have room : unseen all seen < levels := enough.resolve_left some_
  induction levels generalizing depth frontier seen with
  | zero => omega
  | succ levels ih =>
    have going : ¬ (frontier.isEmpty || limit.any (fun l => decide (l < depth))) = true := by
      intro stop
      rcases Bool.or_eq_true_iff.mp stop with none' | past
      · exact some_ (List.isEmpty_iff.mp none')
      · obtain ⟨l, bound, less⟩ := (Option.any_eq_true _ _).mp past
        have := upto l bound
        have := of_decide_eq_true less
        omega
    rw [search, if_neg going]
    rcases Nat.lt_or_eq_of_le deep with deeper | same
    · have after := before_next before (sorted frontier) tag
      obtain ⟨m, there⟩ := distance_below (Nat.succ_le_of_lt deeper) here
      have fresh := expand_fresh next tag (sort frontier) seen
      have mem := (after.level m).mpr there
      have new : (expand next tag (sort frontier) seen).2 ≠ [] := by
        intro none'
        rw [none'] at mem
        cases mem
      have inside : m ∈ all := by
        obtain ⟨v, _, edge⟩ := distance_before there
        exact bounded v m edge
      have less : unseen all (expand next tag (sort frontier) seen).1 < unseen all seen := by
        apply unseen_grows _ inside (fresh.new m mem)
        · exact (fresh.held m).mpr (Or.inr mem)
        · exact fun v old => (fresh.held v).mpr (Or.inl old)
      obtain ⟨t, found⟩ := ih after (Or.inr (by omega)) (Nat.succ_le_of_lt deeper) new (by omega)
      exact ⟨t, List.mem_append_right _ found⟩
    · rw [← same] at here ⊢
      obtain ⟨x, on, name⟩ := List.mem_map.mp ((before.level n).mpr here)
      refine ⟨x.2, List.mem_append_left _ (List.mem_map.mpr ⟨x, ?_, ?_⟩)⟩
      · exact (sorted frontier).mem_iff.mpr on
      · rw [name]

/-- The search from a root, with a level for each node there is. -/
theorem mem_search {all : List K} (bounded : ∀ n, ∀ m ∈ next n, m ∈ all) (t₀ : T) (k : Nat)
    (n : K) :
    (∃ t, (n, k, t) ∈ search next tag sort limit (all.length + 1) 0 [(root, t₀)]
        ((∅ : BTreeSet K).insert root)) ↔
      AtDistance next root k n ∧ Upto limit k := by
  constructor
  · rintro ⟨t, mem⟩
    obtain ⟨_, upto, here⟩ := search_at sorted (before_first t₀) mem
    exact ⟨here, upto⟩
  · rintro ⟨here, upto⟩
    apply search_whole sorted bounded (before_first t₀) (Or.inr _) (Nat.zero_le k) upto here
    have := List.length_filter_le (fun n => !((∅ : BTreeSet K).insert root).contains n) all
    rw [unseen]
    omega

end Search

/-- What a search with a stack reaches from a root is what is at some distance. -/
theorem mem_trail {next : K → List K} {all : List K} (bounded : ∀ n, ∀ m ∈ next n, m ∈ all)
    {root : K} (inside : root ∈ all) :
    (trail next all.length (push (∅, []) root, [])).Nodup ∧
      ∀ n, n ∈ trail next all.length (push (∅, []) root, []) ↔
        n ≠ root ∧ ∃ k, AtDistance next root k n := by
  have least := search_least bounded (List.forall_mem_singleton.mpr inside)
  have fresh := @trail_fresh K _ next _ all.length (push (∅, []) root, [])
    (fresh_none (push (∅, []) root).1)
  have first : ∀ n, n ∈ (push ((∅, []) : State K) root).1 ↔ n = root := by
    intro n
    rw [push_seen]
    exact or_iff_left (not_mem_emptyCollection n)
  refine ⟨fresh.distinct, fun n => ?_⟩
  rw [fresh.mem_found, first, and_comm]
  apply and_congr_right
  intro other
  clear other
  constructor
  · intro mem
    have walks := least.within {n | ∃ k, Steps next root k n}
      (fun r start => ⟨0, by rw [List.mem_singleton.mp start]; exact .start⟩)
      (fun n walk m edge => by
        obtain ⟨k, walk⟩ := walk
        exact ⟨k + 1, .step walk edge⟩) n mem
    obtain ⟨k, walk⟩ := walks
    obtain ⟨j, _, here⟩ := distance_of_steps walk
    exact ⟨j, here⟩
  · rintro ⟨k, here⟩
    have walk := here.walk
    clear here
    induction walk with
    | start => exact least.roots root List.mem_cons_self
    | step _ edge ih => exact least.closed _ ih _ edge

end Breadth
