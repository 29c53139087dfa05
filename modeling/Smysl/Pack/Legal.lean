import Smysl.Pack.Honest

/-!
A pack is legal where its focus units can have their bodies, what it takes fits,
and the exact search, which does not follow the caller's support edges, has
nothing to follow over them.
-/
namespace Smysl
open Obligations PackProblem

namespace Store
section
variable [Blake3] (s : Store) (support : EdgeSet)

omit [Blake3] in
theorem contains_iff_lowest {S : Selection} {u : Uid} :
    S.contains u = true ↔ (Lod.l0 : WithBot Lod) ≤ level S u := by
  rw [BTreeMap.contains, level]
  cases S.get u with
  | none => simp
  | some l => simp [Lod.l0_le]

/-- A selection lacks nothing where it has what its units oblige. -/
theorem meets_iff {S : Selection} : Meets (s.obliges support) S ↔
    ∀ e ∈ S.entries, ∀ u ∈ s.draggedIn support e.1 e.2, S.contains u = true := by
  constructor
  · intro meets e mem u dragged
    have held := level_get.mpr ((BTreeMap.mem_entries_iff S e.1 e.2).mp mem)
    apply contains_iff_lowest.mpr
    exact meets e.1 e.2 held (u, .l0) (List.mem_map.mpr ⟨u, dragged, rfl⟩)
  · intro all x l held o mem
    obtain ⟨u, dragged, same⟩ := List.mem_map.mp mem
    rw [← same]
    apply contains_iff_lowest.mp
    exact all (x, l) ((BTreeMap.mem_entries_iff S x l).mpr (level_get.mp held)) u dragged

variable {s support}

/-- What meets its obligations still does when united with what does. -/
theorem meets_union {S T need : Selection} (level' : ∀ x, level T x = level S x ⊔ level need x)
    (meets : Meets (s.obliges support) S) (more : Meets (s.obliges support) need) :
    Meets (s.obliges support) T := by
  intro x l held o mem
  rw [level'] at held ⊢
  rcases max_choice (level S x) (level need x) with same | same
  · exact (meets x l (same.symm.trans held) o mem).trans le_sup_left
  · exact (more x l (same.symm.trans held) o mem).trans le_sup_right

omit [Blake3] in
/-- A pinned unit that is present is selected, with its body where it has one. -/
theorem pin_violation_none {S : Selection} {f : Uid} {unit : _}
    (found : s.units.get f = some unit) :
    s.pinViolation S f = none ↔
      ∃ l, S.get f = some l ∧ (Lod.l1 ≤ l ∨ unit.core.body = none) := by
  rw [pinViolation, found]
  dsimp only
  cases S.get f with
  | none => simp
  | some l =>
    dsimp only
    split
    · rename_i deep
      simp [deep]
    · rename_i shallow
      split
      · rename_i bare
        simp [Option.isNone_iff_eq_none.mp bare]
      · rename_i body
        rw [Option.isNone_iff_eq_none] at body
        simp [shallow, body]

end
end Store

namespace PackRequest
section
variable [Blake3] {req : PackRequest} {s : Store}

/-- Focus units can have their bodies: nothing is capped below them. -/
def Pinnable (req : PackRequest) (s : Store) : Prop :=
  req.maxLod = some .l0 → ∀ f ∈ req.focus, ∀ unit, s.units.get f = some unit →
    unit.core.body = none

/-- What units in scope rest on over the caller's support edges is in their
closures as it is. -/
def SupportObliged (req : PackRequest) (s : Store) : Prop :=
  ∀ u ∈ req.within s, ∀ unit, s.units.get u = some unit →
    ∀ l ∈ (availableLevels unit.core).map req.cap,
      s.requiredVia u l req.support = s.required u l

/-- A pack is made of the floor, of the whole scope where it fits, of closures
of candidates, and where the exact search is run of closures of anchors. -/
theorem pack_made {branchAndBound : Bool} {salience : Salience} {pk : Pack}
    (ok : req.pack s branchAndBound salience = .ok pk) {P Q : Selection → Prop}
    (union : ∀ S T need, (∀ x, level T x = level S x ⊔ level need x) → P S → Q need → P T)
    (base : P (req.floor s)) (every : req.wholeFits s = true → Q (req.everything s))
    (chosen : ∀ c ∈ req.candidates s, Q (s.requiredVia c.1 c.2 req.support))
    (anchors : req.searches s branchAndBound = true → ¬ req.wholeFits s = true →
      ∀ a, (req.problem s salience).Anchor (req.within s) a → Q (s.required a.1 a.2)) :
    P pk.selection := by
  obtain ⟨_, _, affordable, _, _, result⟩ := pack_ok ok
  by_cases fits : req.wholeFits s = true
  · rw [((pack_spent ok).1 fits).1]
    exact union _ _ _ (whole_level req s) base (every fits)
  · have greedy : P (req.solveGreedy s salience).selection := by
      rw [solveGreedy, start, if_neg fits]
      apply greedy_maintains _ _ _ base
      intro S uid l mem held
      apply union S _ (s.requiredVia uid l req.support) _ held (chosen (uid, l) mem)
      intro x
      exact accepted_level S uid l x
    rcases result with ⟨searches, selection, _⟩ | ⟨_, selection, _⟩
    · rw [selection]
      rcases (solve_result (req.problem s salience) (req.within s) affordable
        (req.solveGreedy s salience).selection).2 with admissible | same
      · obtain ⟨⟨as, valid, made⟩, _⟩ := admissible
        rw [made]
        have general : ∀ (as : List (Uid × Lod)) (S : Selection),
            (∀ a ∈ as, (req.problem s salience).Anchor (req.within s) a) → P S →
            P ((req.problem s salience).anchored S as) := by
          intro as
          induction as with
          | nil =>
            intro S _ held
            exact held
          | cons a as ih =>
            intro S valid held
            apply ih _ fun b mem => valid b (List.mem_cons_of_mem a mem)
            exact union _ _ _ (union_level S (s.required a.1 a.2)) held
              (anchors searches fits a (valid a List.mem_cons_self))
        exact general as _ valid base
      · rw [same]
        exact greedy
    · rw [selection]
      exact greedy

theorem floor_meets (req : PackRequest) (s : Store) :
    Meets (s.obliges req.support) (req.floor s) := by
  have general : ∀ (fs : List Uid) (S : Selection), Meets (s.obliges req.support) S →
      Meets (s.obliges req.support) (fs.foldl (fun selection f =>
        (s.requiredVia f (req.want s f) req.support).entries.foldl raise selection) S) := by
    intro fs
    induction fs with
    | nil =>
      intro S meets
      exact meets
    | cons f fs ih =>
      intro S meets
      apply ih
      exact Store.meets_union (union_level S _) meets (s.required_settled f (req.want s f)).meets
  apply general
  intro x l held
  rw [level_empty] at held
  exact absurd held WithBot.bot_ne_coe

/-- A focus unit is in the floor, at least at the level it is wanted at. -/
theorem floor_wants (req : PackRequest) (s : Store) {f : Uid} (mem : f ∈ req.focus) :
    (req.want s f : WithBot Lod) ≤ level (req.floor s) f :=
  (s.required_self f (req.want s f)).trans
    ((union_all_above (fun f => s.requiredVia f (req.want s f) req.support) req.focus.toList ∅
      f).2 f ((BTreeSet.mem_toList _ _).mpr mem))

theorem pack_above_floor {branchAndBound : Bool} {salience : Salience} {pk : Pack}
    (ok : req.pack s branchAndBound salience = .ok pk) (u : Uid) :
    level (req.floor s) u ≤ level pk.selection u := by
  let Above : Selection → Prop := fun S => ∀ u, level (req.floor s) u ≤ level S u
  have above : Above pk.selection := by
    apply pack_made (Q := fun _ => True) ok _ (fun _ => le_refl _) (fun _ => trivial)
      (fun _ _ => trivial) (fun _ _ _ _ => trivial)
    intro S T need same held _ u
    rw [same]
    exact (held u).trans le_sup_left
  exact above u

/-- Capped at the lowest level, nothing is above it. -/
theorem pack_shallow {branchAndBound : Bool} {salience : Salience} {pk : Pack}
    (ok : req.pack s branchAndBound salience = .ok pk) (capped : req.maxLod = some .l0) (u : Uid)
    (l : Lod) (held : level pk.selection u = (l : WithBot Lod)) : l = .l0 := by
  have low : ∀ k, req.cap k = .l0 := by
    intro k
    rw [cap, capped]
    cases k <;> rfl
  let Shallow : Selection → Prop := fun S =>
    ∀ (u : Uid) (l : Lod), level S u = (l : WithBot Lod) → l = .l0
  have required : ∀ (support : EdgeSet) (u : Uid) (l : Lod), l = .l0 →
      Shallow (s.requiredVia u l support) := by
    intro support u l lowest x k held
    rcases s.required_levels held with ⟨_, asked⟩ | ⟨dragged, _⟩
    · exact asked.trans lowest
    · exact dragged
  have shallow : Shallow pk.selection := by
    apply pack_made (Q := Shallow) ok
    · intro S T need same held more x k at'
      rw [same] at at'
      rcases max_choice (level S x) (level need x) with left | right
      · exact held x k (left.symm.trans at')
      · exact more x k (right.symm.trans at')
    · intro x k at'
      rcases floor_levels at' with ⟨_, wanted⟩ | ⟨dragged, _⟩
      · rw [wanted, want, low]
      · exact dragged
    · intro _ x k at'
      obtain ⟨_, unit, _, most⟩ := everything_get.mp (level_get.mp at')
      obtain ⟨j, _, same⟩ := List.mem_map.mp (List.max?_mem most)
      rw [← same, low]
    · intro c mem
      apply required
      obtain ⟨u, _, listed⟩ := List.mem_flatMap.mp mem
      split at listed
      · cases listed
      · obtain ⟨k, _, same⟩ := List.mem_map.mp listed
        rw [← same, low]
    · intro _ _ a anchor
      apply required
      obtain ⟨_, unit, _, listed⟩ := anchor
      obtain ⟨k, _, same⟩ := List.mem_map.mp (((req.problem s salience).mem_capped _ _).mp listed)
      rw [← same]
      exact low k
  exact shallow u l held

/-- The focus units of a pack have their bodies if and only if they can. -/
theorem pack_pins_iff {branchAndBound : Bool} {salience : Salience} {pk : Pack}
    (ok : req.pack s branchAndBound salience = .ok pk) :
    (∀ f ∈ req.focus, s.pinViolation pk.selection f = none) ↔ req.Pinnable s := by
  obtain ⟨_, present, _⟩ := pack_ok ok
  constructor
  · intro pinned capped f mem unit found
    obtain ⟨l, held, deep | bare⟩ := (Store.pin_violation_none found).mp (pinned f mem)
    · rw [pack_shallow ok capped f l (level_get.mpr held)] at deep
      exact absurd deep (by decide)
    · exact bare
  · intro pinnable f mem
    obtain ⟨unit, found⟩ : ∃ unit, s.units.get f = some unit :=
      (BTreeMap.contains_iff _ _).mp (present f mem)
    have wanted := (floor_wants req s mem).trans (pack_above_floor ok f)
    apply (Store.pin_violation_none found).mpr
    cases held : pk.selection.get f with
    | none =>
      rw [level, held] at wanted
      exact absurd wanted (not_le.mpr (WithBot.bot_lt_coe _))
    | some l =>
      refine ⟨l, rfl, ?_⟩
      rw [level_get.mpr held] at wanted
      have under := WithBot.coe_le_coe.mp wanted
      by_cases capped : req.maxLod = some .l0
      · exact Or.inr (pinnable capped f mem unit found)
      · apply Or.inl
        refine le_trans ?_ under
        have deep : Lod.l1 ≤ s.highestAvailable f := le_max_right _ _
        rw [want, cap]
        cases most : req.maxLod with
        | none => exact deep
        | some m =>
          dsimp only
          split
          · cases m with
            | l0 => exact absurd most capped
            | l1 => decide
            | l2 => decide
          · exact deep

/-- A pack has what its units drag in, where the exact search has nothing to
follow over the support edges. -/
theorem pack_meets {branchAndBound : Bool} {salience : Salience} {pk : Pack}
    (ok : req.pack s branchAndBound salience = .ok pk)
    (obliged : req.searches s branchAndBound = true → ¬ req.wholeFits s = true →
      req.SupportObliged s) :
    Meets (s.obliges req.support) pk.selection := by
  apply pack_made (Q := Meets (s.obliges req.support)) ok
  · intro S T need same meets more
    exact Store.meets_union same meets more
  · exact floor_meets req s
  · intro fits
    have nothing := (Bool.and_eq_true_iff.mp fits).2
    exact (s.meets_iff req.support).mpr
      (s.violations_empty.mp (List.isEmpty_iff.mp nothing)).1
  · intro c _
    exact (s.required_settled c.1 c.2).meets
  · intro searches partly a anchor
    obtain ⟨inside, unit, found, listed⟩ := anchor
    rw [← obliged searches partly a.1 inside unit found a.2
      (((req.problem s salience).mem_capped _ _).mp listed)]
    exact (s.required_settled a.1 a.2).meets

end

section
local instance plainLegalText : Unicode := .plain
local instance modPrimeLegalHash : Blake3 := .modPrime

def premise : UnitCore := bareClaim "b" present_b ∅

/-- A unit with a body, conditioned by the other. -/
def conditioned : UnitCore :=
  { bareClaim "a" present_a ∅ with
    body := some "c"
    body_nonempty := by decide
    detail_has_body := by decide }

def conditionedStore : Store :=
  Store.fromRecords [.unit premise, .unit conditioned,
    .relation (bareEdge .conditions (canonicalUid premise) (canonicalUid conditioned))]

/-- A budget for the unit with its body, or for both gists. -/
def overPremises : PackRequest where
  budget := 2
  mode := .exact
  external := some fun _ => 1
  support := { all := true }

def conditionedSalience : Salience :=
  BTreeMap.ofList [(canonicalUid premise, 1 / 10), (canonicalUid conditioned, 1)]

end
end PackRequest
end Smysl
