import Mathlib.Logic.Relation
import Mathlib.Order.WithBot
import Mathlib.Tactic.Ring
import Smysl.Lib.OrdMap

/-!
What has to be met, at a level, for something to be met at a level. The search
pops an obligation, raises what is needed, and pushes what that obliges; its
result is the least assignment of levels that meets the start and everything it
obliges itself to.
-/
namespace Obligations

variable {K L : Type} [LinearOrder K] [LinearOrder L]

/-- The level something has, if any. -/
def level (m : BTreeMap K L) (k : K) : WithBot L :=
  match m.get k with
  | some l => (l : WithBot L)
  | none => ⊥

def run (obliges : K → L → List (K × L)) :
    Nat → BTreeMap K L → List (K × L) → BTreeMap K L
  | 0, need, _ => need
  | _ + 1, need, [] => need
  | pops + 1, need, (x, l) :: work =>
    match need.get x with
    | some held =>
      if l ≤ held then run obliges pops need work
      else run obliges pops (need.insert x l) ((obliges x l).reverse ++ work)
    | none => run obliges pops (need.insert x l) ((obliges x l).reverse ++ work)

omit [LinearOrder L] in
theorem level_insert (m : BTreeMap K L) (k j : K) (l : L) :
    level (m.insert k l) j = if j = k then (l : WithBot L) else level m j := by
  by_cases here : j = k
  · rw [level, BTreeMap.get_insert, if_pos here, if_pos here]
  · rw [level, BTreeMap.get_insert, if_neg here, if_neg here, level]

omit [LinearOrder L] in
theorem level_empty (k : K) : level (∅ : BTreeMap K L) k = ⊥ := rfl

omit [LinearOrder L] in
theorem level_get {m : BTreeMap K L} {k : K} {l : L} :
    level m k = (l : WithBot L) ↔ m.get k = some l := by
  rw [level]
  cases m.get k with
  | none => simp
  | some held => simp

/-- Either an obligation is met already, or it raises what is needed. -/
theorem run_cons (obliges : K → L → List (K × L)) (pops : Nat) (need : BTreeMap K L) (x : K)
    (l : L) (work : List (K × L)) :
    ((l : WithBot L) ≤ level need x ∧
      run obliges (pops + 1) need ((x, l) :: work) = run obliges pops need work) ∨
    (level need x < (l : WithBot L) ∧
      run obliges (pops + 1) need ((x, l) :: work) =
        run obliges pops (need.insert x l) ((obliges x l).reverse ++ work)) := by
  rw [run, level]
  cases need.get x with
  | none => exact Or.inr ⟨WithBot.bot_lt_coe l, rfl⟩
  | some held =>
    dsimp only
    by_cases met : l ≤ held
    · rw [if_pos met]
      exact Or.inl ⟨WithBot.coe_le_coe.mpr met, rfl⟩
    · rw [if_neg met]
      exact Or.inr ⟨WithBot.coe_lt_coe.mpr (not_le.mp met), rfl⟩

/-- Everything it holds at a level has what that obliges. -/
def Meets (obliges : K → L → List (K × L)) (m : BTreeMap K L) : Prop :=
  ∀ (x : K) (l : L), level m x = (l : WithBot L) → ∀ o ∈ obliges x l,
    (o.2 : WithBot L) ≤ level m o.1

/-- The pairs that are not met yet. -/
def unmet (all : List (K × L)) (need : BTreeMap K L) : Nat :=
  (all.filter (fun o => decide (level need o.1 < (o.2 : WithBot L)))).length

theorem unmet_falls {all : List (K × L)} {need out : BTreeMap K L} {o : K × L} (mem : o ∈ all)
    (lower : level need o.1 < (o.2 : WithBot L)) (grown : ∀ x, level need x ≤ level out x)
    (met : (o.2 : WithBot L) ≤ level out o.1) : unmet all out < unmet all need := by
  have part : all.filter (fun o => decide (level out o.1 < (o.2 : WithBot L))) =
      (all.filter (fun o => decide (level need o.1 < (o.2 : WithBot L)))).filter
        (fun o => decide (level out o.1 < (o.2 : WithBot L))) := by
    rw [List.filter_filter]
    apply List.filter_congr
    intro o _
    by_cases open' : level out o.1 < (o.2 : WithBot L)
    · rw [decide_eq_true open', decide_eq_true (lt_of_le_of_lt (grown o.1) open')]
      rfl
    · rw [decide_eq_false open']
      rfl
  rw [unmet, part, unmet]
  apply List.length_filter_lt_length_iff_exists.mpr
  refine ⟨o, List.mem_filter.mpr ⟨mem, decide_eq_true lower⟩, ?_⟩
  simp [met]

/-- Raising something does not lower anything. -/
theorem insert_grown {need : BTreeMap K L} {x : K} {l : L}
    (lower : level need x < (l : WithBot L)) (z : K) :
    level need z ≤ level (need.insert x l) z := by
  rw [level_insert]
  split
  · rename_i here
    rw [here]
    exact le_of_lt lower
  · exact le_refl _

theorem unmet_insert {all : List (K × L)} {need : BTreeMap K L} {x : K} {l : L}
    (mem : (x, l) ∈ all) (lower : level need x < (l : WithBot L)) :
    unmet all (need.insert x l) < unmet all need := by
  apply unmet_falls mem lower (insert_grown lower)
  rw [level_insert, if_pos rfl]

section
variable {obliges : K → L → List (K × L)}

/-- What the search keeps: what is held and not on the stack is met. -/
def Pending (obliges : K → L → List (K × L)) (need : BTreeMap K L) (work : List (K × L)) : Prop :=
  ∀ (x : K) (l : L), level need x = (l : WithBot L) → ∀ o ∈ obliges x l,
    (o.2 : WithBot L) ≤ level need o.1 ∨ o ∈ work

/-- What the result of the search is. -/
structure Settled (obliges : K → L → List (K × L)) (need : BTreeMap K L) (work : List (K × L))
    (out : BTreeMap K L) : Prop where
  grown : ∀ x, level need x ≤ level out x
  met : ∀ o ∈ work, (o.2 : WithBot L) ≤ level out o.1
  meets : Meets obliges out
  within : ∀ m, Meets obliges m → (∀ x, level need x ≤ level m x) →
    (∀ o ∈ work, (o.2 : WithBot L) ≤ level m o.1) → ∀ x, level out x ≤ level m x
  told : ∀ (x : K) (l : L), level out x = (l : WithBot L) →
    level need x = (l : WithBot L) ∨ (x, l) ∈ work ∨ ∃ y k, (x, l) ∈ obliges y k

theorem settled_done {need : BTreeMap K L} (pending : Pending obliges need []) :
    Settled obliges need [] need where
  grown x := le_refl _
  met o mem := nomatch mem
  meets x l held o mem := by
    rcases pending x l held o mem with met | stacked
    · exact met
    · cases stacked
  within m _ below _ x := below x
  told x l held := Or.inl held

theorem settled_skip {need out : BTreeMap K L} {x : K} {l : L} {work : List (K × L)}
    (met : (l : WithBot L) ≤ level need x) (settled : Settled obliges need work out) :
    Settled obliges need ((x, l) :: work) out where
  grown := settled.grown
  met o mem := by
    rcases List.mem_cons.mp mem with here | mem
    · rw [here]
      exact met.trans (settled.grown x)
    · exact settled.met o mem
  meets := settled.meets
  within m meets below works y :=
    settled.within m meets below (fun o mem => works o (List.mem_cons_of_mem _ mem)) y
  told y k held := by
    rcases settled.told y k held with old | work | obliged
    · exact Or.inl old
    · exact Or.inr (Or.inl (List.mem_cons_of_mem _ work))
    · exact Or.inr (Or.inr obliged)

theorem settled_raise
    (mono : ∀ x l k, l ≤ k → ∀ o ∈ obliges x l, o ∈ obliges x k)
    {need out : BTreeMap K L} {x : K} {l : L} {work : List (K × L)}
    (lower : level need x < (l : WithBot L))
    (settled : Settled obliges (need.insert x l) ((obliges x l).reverse ++ work) out) :
    Settled obliges need ((x, l) :: work) out where
  grown y := (insert_grown lower y).trans (settled.grown y)
  met o mem := by
    rcases List.mem_cons.mp mem with here | mem
    · have raised := settled.grown x
      rw [level_insert, if_pos rfl] at raised
      rw [here]
      exact raised
    · exact settled.met o (List.mem_append_right _ mem)
  meets := settled.meets
  within m meets below works y := by
    have start := works (x, l) List.mem_cons_self
    apply settled.within m meets _ _ y
    · intro z
      rw [level_insert]
      split
      · rename_i here
        rw [here]
        exact start
      · exact below z
    · intro o mem
      rcases List.mem_append.mp mem with obliged | mem
      · obtain ⟨k, held⟩ : ∃ k : L, level m x = (k : WithBot L) := by
          cases at' : level m x with
          | bot =>
            rw [at'] at start
            exact absurd start (not_le.mpr (WithBot.bot_lt_coe l))
          | coe k => exact ⟨k, rfl⟩
        rw [held] at start
        exact meets x k held o
          (mono x l k (WithBot.coe_le_coe.mp start) o (List.mem_reverse.mp obliged))
      · exact works o (List.mem_cons_of_mem _ mem)
  told y k held := by
    rcases settled.told y k held with old | work' | obliged
    · rw [level_insert] at old
      split at old
      · rename_i here
        rw [here, WithBot.coe_inj.mp old]
        exact Or.inr (Or.inl List.mem_cons_self)
      · exact Or.inl old
    · rcases List.mem_append.mp work' with obliged | work'
      · exact Or.inr (Or.inr ⟨x, l, List.mem_reverse.mp obliged⟩)
      · exact Or.inr (Or.inl (List.mem_cons_of_mem _ work'))
    · exact Or.inr (Or.inr obliged)

theorem pending_raise {need : BTreeMap K L} {x : K} {l : L} {work : List (K × L)}
    (lower : level need x < (l : WithBot L)) (pending : Pending obliges need ((x, l) :: work)) :
    Pending obliges (need.insert x l) ((obliges x l).reverse ++ work) := by
  intro y k held o mem
  have grown := insert_grown lower
  rw [level_insert] at held
  split at held
  · rename_i here
    rw [here, ← WithBot.coe_inj.mp held] at mem
    exact Or.inr (List.mem_append_left _ (List.mem_reverse.mpr mem))
  · rcases pending y k held o mem with met | stacked
    · exact Or.inl (met.trans (grown o.1))
    · rcases List.mem_cons.mp stacked with here | stacked
      · apply Or.inl
        rw [here, level_insert, if_pos rfl]
      · exact Or.inr (List.mem_append_right _ stacked)

theorem pending_skip {need : BTreeMap K L} {x : K} {l : L} {work : List (K × L)}
    (met : (l : WithBot L) ≤ level need x) (pending : Pending obliges need ((x, l) :: work)) :
    Pending obliges need work := by
  intro y k held o mem
  rcases pending y k held o mem with met' | stacked
  · exact Or.inl met'
  · rcases List.mem_cons.mp stacked with here | stacked
    · apply Or.inl
      rw [here]
      exact met
    · exact Or.inr stacked

/-- A pop for what is on the stack, and for every pair as many as it can push. -/
def left (all : List (K × L)) (width : Nat) (need : BTreeMap K L) (work : List (K × L)) : Nat :=
  unmet all need * (width + 1) + work.length

theorem run_settled (mono : ∀ x l k, l ≤ k → ∀ o ∈ obliges x l, o ∈ obliges x k)
    {all : List (K × L)} (bounded : ∀ x l, ∀ o ∈ obliges x l, o ∈ all) {width : Nat}
    (narrow : ∀ x l, (obliges x l).length ≤ width) {pops : Nat} {need : BTreeMap K L}
    {work : List (K × L)} (inside : ∀ o ∈ work, o ∈ all) (pending : Pending obliges need work)
    (enough : left all width need work ≤ pops) :
    Settled obliges need work (run obliges pops need work) := by
  induction pops generalizing need work with
  | zero =>
    have empty : work = [] := by
      rw [left] at enough
      exact List.eq_nil_of_length_eq_zero (by omega)
    rw [empty] at pending ⊢
    exact settled_done pending
  | succ pops ih =>
    cases work with
    | nil => exact settled_done pending
    | cons o work =>
      obtain ⟨x, l⟩ := o
      rw [left, List.length_cons] at enough
      have inside' : ∀ o ∈ work, o ∈ all := fun o mem => inside o (List.mem_cons_of_mem _ mem)
      rcases run_cons obliges pops need x l work with ⟨met, same⟩ | ⟨lower, same⟩
      · rw [same]
        apply settled_skip met
        apply ih inside' (pending_skip met pending)
        rw [left]
        omega
      · rw [same]
        apply settled_raise mono lower
        apply ih _ (pending_raise lower pending)
        · have less := unmet_insert (inside _ List.mem_cons_self) lower
          have pushed := narrow x l
          have product : unmet all (need.insert x l) * (width + 1) + (width + 1) ≤
              unmet all need * (width + 1) := by
            calc unmet all (need.insert x l) * (width + 1) + (width + 1)
                = (unmet all (need.insert x l) + 1) * (width + 1) := by ring
              _ ≤ unmet all need * (width + 1) := Nat.mul_le_mul_right _ less
          rw [left, List.length_append, List.length_reverse]
          omega
        · intro o mem
          rcases List.mem_append.mp mem with obliged | mem
          · exact bounded x l o (List.mem_reverse.mp obliged)
          · exact inside' o mem

/-- The search from one obligation. -/
theorem search_settled (mono : ∀ x l k, l ≤ k → ∀ o ∈ obliges x l, o ∈ obliges x k)
    {all : List (K × L)} (bounded : ∀ x l, ∀ o ∈ obliges x l, o ∈ all) {width : Nat}
    (narrow : ∀ x l, (obliges x l).length ≤ width) {start : K × L} (inside : start ∈ all) :
    Settled obliges ∅ [start] (run obliges (all.length * (width + 1) + 1) ∅ [start]) := by
  apply run_settled mono bounded narrow
  · intro o mem
    rw [List.mem_singleton.mp mem]
    exact inside
  · intro x l held
    rw [level_empty] at held
    exact absurd held WithBot.bot_ne_coe
  · rw [left, List.length_singleton]
    have few : unmet all (∅ : BTreeMap K L) ≤ all.length := List.length_filter_le _ _
    have product := Nat.mul_le_mul_right (width + 1) few
    omega

/-! The search may take what is pending in any order. -/

/-- One step of a search that takes any pending obligation next, and puts what it
pushes anywhere. -/
inductive Step (obliges : K → L → List (K × L)) :
    BTreeMap K L × List (K × L) → BTreeMap K L × List (K × L) → Prop
  | skip {need : BTreeMap K L} {x : K} {l : L} {work rest : List (K × L)}
    (taken : work.Perm ((x, l) :: rest)) (met : (l : WithBot L) ≤ level need x) :
    Step obliges (need, work) (need, rest)
  | raise {need : BTreeMap K L} {x : K} {l : L} {work rest pushed : List (K × L)}
    (taken : work.Perm ((x, l) :: rest)) (lower : level need x < (l : WithBot L))
    (put : pushed.Perm (obliges x l ++ rest)) :
    Step obliges (need, work) (need.insert x l, pushed)

theorem Pending.congr {need : BTreeMap K L} {work work' : List (K × L)}
    (same : ∀ o ∈ work, o ∈ work') (pending : Pending obliges need work) :
    Pending obliges need work' := by
  intro x l held o mem
  exact (pending x l held o mem).imp_right (same o)

theorem Settled.congr {need out : BTreeMap K L} {work work' : List (K × L)}
    (same : ∀ o, o ∈ work ↔ o ∈ work') (settled : Settled obliges need work out) :
    Settled obliges need work' out where
  grown := settled.grown
  met o mem := settled.met o ((same o).mpr mem)
  meets := settled.meets
  within m meets below works :=
    settled.within m meets below fun o mem => works o ((same o).mp mem)
  told x l held := (settled.told x l held).imp_right fun either => either.imp_left (same (x, l)).mp

theorem step_pending {before after : BTreeMap K L × List (K × L)}
    (step : Step obliges before after) (pending : Pending obliges before.1 before.2) :
    Pending obliges after.1 after.2 := by
  cases step with
  | skip taken met =>
    exact pending_skip met (pending.congr fun o mem => taken.mem_iff.mp mem)
  | raise taken lower put =>
    have raised := pending_raise lower (pending.congr fun o mem => taken.mem_iff.mp mem)
    apply raised.congr
    intro o mem
    rw [put.mem_iff, List.mem_append]
    rcases List.mem_append.mp mem with obliged | mem
    · exact Or.inl (List.mem_reverse.mp obliged)
    · exact Or.inr mem

theorem step_settled (mono : ∀ x l k, l ≤ k → ∀ o ∈ obliges x l, o ∈ obliges x k)
    {before after : BTreeMap K L × List (K × L)} {out : BTreeMap K L}
    (step : Step obliges before after) (settled : Settled obliges after.1 after.2 out) :
    Settled obliges before.1 before.2 out := by
  cases step with
  | skip taken met =>
    exact (settled_skip met settled).congr fun o => taken.mem_iff.symm
  | @raise need x l work rest pushed taken lower put =>
    have same : Settled obliges (need.insert x l) ((obliges x l).reverse ++ rest) out := by
      apply settled.congr
      intro o
      rw [put.mem_iff, List.mem_append, List.mem_append, List.mem_reverse]
    exact (settled_raise mono lower same).congr fun o => taken.mem_iff.symm

/-- Each step leaves less to do. -/
theorem step_left {all : List (K × L)} (bounded : ∀ x l, ∀ o ∈ obliges x l, o ∈ all) {width : Nat}
    (narrow : ∀ x l, (obliges x l).length ≤ width) {before after : BTreeMap K L × List (K × L)}
    (inside : ∀ o ∈ before.2, o ∈ all) (step : Step obliges before after) :
    (∀ o ∈ after.2, o ∈ all) ∧ left all width after.1 after.2 < left all width before.1 before.2 := by
  cases step with
  | skip taken met =>
    refine ⟨fun o mem => inside o (taken.mem_iff.mpr (List.mem_cons_of_mem _ mem)), ?_⟩
    have size := taken.length_eq
    rw [List.length_cons] at size
    dsimp only [left]
    omega
  | @raise need x l work rest pushed taken lower put =>
    constructor
    · intro o mem
      rcases List.mem_append.mp (put.mem_iff.mp mem) with obliged | mem
      · exact bounded x l o obliged
      · exact inside o (taken.mem_iff.mpr (List.mem_cons_of_mem _ mem))
    · have size := taken.length_eq
      have size' := put.length_eq
      have few := narrow x l
      have less := unmet_insert (inside (x, l) (taken.mem_iff.mpr List.mem_cons_self)) lower
      have product : (unmet all (need.insert x l) + 1) * (width + 1) ≤
          unmet all need * (width + 1) := Nat.mul_le_mul_right _ less
      rw [Nat.add_mul] at product
      rw [List.length_cons] at size
      rw [List.length_append] at size'
      dsimp only [left]
      omega

/-- A search that is at its end has settled what it began with, in whatever order. -/
theorem steps_settled (mono : ∀ x l k, l ≤ k → ∀ o ∈ obliges x l, o ∈ obliges x k)
    {before : BTreeMap K L × List (K × L)} {out : BTreeMap K L}
    (steps : Relation.ReflTransGen (Step obliges) before (out, []))
    (pending : Pending obliges before.1 before.2) : Settled obliges before.1 before.2 out := by
  induction steps using Relation.ReflTransGen.head_induction_on with
  | refl => exact settled_done pending
  | head step _ ih => exact step_settled mono step (ih (step_pending step pending))

/-- Two results of one search have the same levels. -/
theorem Settled.unique {need out out' : BTreeMap K L} {work : List (K × L)}
    (left : Settled obliges need work out) (right : Settled obliges need work out') (x : K) :
    level out x = level out' x :=
  le_antisymm (left.within out' right.meets right.grown right.met x)
    (right.within out left.meets left.grown left.met x)

/-- However it is taken, a search takes no more steps than there is left to do. -/
theorem steps_bounded {all : List (K × L)} (bounded : ∀ x l, ∀ o ∈ obliges x l, o ∈ all)
    {width : Nat} (narrow : ∀ x l, (obliges x l).length ≤ width)
    (states : Nat → BTreeMap K L × List (K × L)) (inside : ∀ o ∈ (states 0).2, o ∈ all) {n : Nat}
    (steps : ∀ i < n, Step obliges (states i) (states (i + 1))) :
    n + left all width (states n).1 (states n).2 ≤ left all width (states 0).1 (states 0).2 := by
  have along : ∀ i ≤ n, (∀ o ∈ (states i).2, o ∈ all) ∧
      i + left all width (states i).1 (states i).2 ≤
        left all width (states 0).1 (states 0).2 := by
    intro i
    induction i with
    | zero =>
      intro _
      exact ⟨inside, by omega⟩
    | succ i ih =>
      intro below
      obtain ⟨held, so_far⟩ := ih (by omega)
      obtain ⟨held', less⟩ := step_left bounded narrow held (steps i (by omega))
      exact ⟨held', by omega⟩
  exact (along n (le_refl n)).2

end
end Obligations
