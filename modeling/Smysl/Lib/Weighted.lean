import Mathlib

/-!
Walks in a weighted directed graph, and labels as upper bounds on their weights:
labels that no edge improves are below every walk, and where some walk has the
label's weight it is the distance.
-/
namespace Weighted

variable {V : Type} {E F : V → V → Int → Prop}

/-- A walk and its weight. -/
inductive Walk (E : V → V → Int → Prop) (u : V) : V → Int → Prop
  | nil : Walk E u u 0
  | snoc {v x : V} {w k : Int} (walk : Walk E u v w) (edge : E v x k) : Walk E u x (w + k)

/-- No walk that returns to where it began has negative weight. -/
def Nonnegative (E : V → V → Int → Prop) : Prop := ∀ v w, Walk E v v w → 0 ≤ w

/-- The least weight of a walk between two vertices. -/
def Distance (E : V → V → Int → Prop) (u v : V) (d : Int) : Prop := IsLeast { w | Walk E u v w } d

namespace Walk

theorem single {u v : V} {k : Int} (edge : E u v k) : Walk E u v k := by
  have walk := Walk.nil.snoc edge
  rwa [zero_add] at walk

theorem append {u v x : V} {w k : Int} (first : Walk E u v w) (second : Walk E v x k) :
    Walk E u x (w + k) := by
  induction second with
  | nil =>
    rw [add_zero]
    exact first
  | snoc _ edge ih =>
    rw [← add_assoc]
    exact ih.snoc edge

theorem cons {u v x : V} {w k : Int} (edge : E u v k) (walk : Walk E v x w) :
    Walk E u x (k + w) := (single edge).append walk

theorem mono (within : ∀ u v k, E u v k → F u v k) {u v : V} {w : Int} (walk : Walk E u v w) :
    Walk F u v w := by
  induction walk with
  | nil => exact .nil
  | snoc _ edge ih => exact ih.snoc (within _ _ _ edge)

/-- The walk backwards, in the graph reversed. -/
theorem reverse {u v : V} {w : Int} (walk : Walk E u v w) :
    Walk (fun a b k => E b a k) v u w := by
  induction walk with
  | nil => exact .nil
  | snoc _ edge ih =>
    rw [add_comm]
    exact cons edge ih

end Walk

/-- A total label that no edge improves is below every walk. -/
theorem label_le {p : V → Int} (settled : ∀ u v k, E u v k → p v ≤ p u + k) {u v : V} {w : Int}
    (walk : Walk E u v w) : p v ≤ p u + w := by
  induction walk with
  | nil => rw [add_zero]
  | snoc _ edge ih =>
    have last := settled _ _ _ edge
    omega

theorem nonnegative_of_label {p : V → Int} (settled : ∀ u v k, E u v k → p v ≤ p u + k) :
    Nonnegative E := by
  intro v w walk
  have low := label_le settled walk
  omega

/-- A partial label that no edge from a labelled vertex improves. -/
def Settled (E : V → V → Int → Prop) (label : V → Option Int) : Prop :=
  ∀ u du, label u = some du → ∀ v k, E u v k → ∃ dv, label v = some dv ∧ dv ≤ du + k

theorem Settled.le {label : V → Option Int} (settled : Settled E label) {u v : V} {du w : Int}
    (start : label u = some du) (walk : Walk E u v w) :
    ∃ dv, label v = some dv ∧ dv ≤ du + w := by
  induction walk with
  | nil => exact ⟨du, start, by omega⟩
  | snoc _ edge ih =>
    obtain ⟨dv, labelled, low⟩ := ih
    obtain ⟨dx, labelled', low'⟩ := settled _ dv labelled _ _ edge
    exact ⟨dx, labelled', by omega⟩

/-- A settled label that some walk attains is the distance, and a vertex without one is out of
reach. -/
theorem Settled.distance_iff {label : V → Option Int} {u : V} (settled : Settled E label)
    (start : ∃ du ≤ 0, label u = some du)
    (sound : ∀ v d, label v = some d → Walk E u v d) (v : V) (d : Int) :
    label v = some d ↔ Distance E u v d := by
  obtain ⟨du, small, start⟩ := start
  constructor
  · intro labelled
    refine ⟨sound v d labelled, fun w walk => ?_⟩
    obtain ⟨dv, labelled', low⟩ := settled.le start walk
    rw [labelled] at labelled'
    cases labelled'
    omega
  · intro least
    obtain ⟨dv, labelled, low⟩ := settled.le start least.1
    have above := least.2 (sound v dv labelled)
    have same : dv = d := by omega
    rw [labelled, same]

theorem Distance.unique {u v : V} {d d' : Int} (first : Distance E u v d)
    (second : Distance E u v d') : d = d' := IsLeast.unique first second

/-- A distance is that of a smaller graph which has a walk as short for every walk. -/
theorem distance_iff_of_shorter {u v : V} (within : ∀ w, Walk F u v w → Walk E u v w)
    (shorter : ∀ w, Walk E u v w → ∃ w' ≤ w, Walk F u v w') (d : Int) :
    Distance F u v d ↔ Distance E u v d := by
  constructor
  · intro least
    refine ⟨within d least.1, fun w walk => ?_⟩
    obtain ⟨w', low, walk'⟩ := shorter w walk
    exact le_trans (least.2 walk') low
  · intro least
    obtain ⟨w', low, walk'⟩ := shorter d least.1
    have above := least.2 (within w' walk')
    have same : w' = d := le_antisymm low above
    rw [same] at walk'
    exact ⟨walk', fun w walk => least.2 (within w walk)⟩

/-- The graph without the edges that lead to `s`. -/
def Away (E : V → V → Int → Prop) (s u v : V) (k : Int) : Prop := E u v k ∧ v ≠ s

/-- Where no cycle is negative, a walk is as short without returning to where it began. -/
theorem away_shorter (sound : Nonnegative E) {s v : V} {w : Int} (walk : Walk E s v w) :
    ∃ w' ≤ w, Walk (Away E s) s v w' := by
  induction walk with
  | nil => exact ⟨0, le_rfl, .nil⟩
  | @snoc v x w k walk edge ih =>
    by_cases back : x = s
    · subst back
      exact ⟨0, sound x _ (walk.snoc edge), .nil⟩
    · obtain ⟨w', low, walk'⟩ := ih
      exact ⟨w' + k, by omega, walk'.snoc ⟨edge, back⟩⟩

theorem away_distance (sound : Nonnegative E) (s v : V) (d : Int) :
    Distance (Away E s) s v d ↔ Distance E s v d :=
  distance_iff_of_shorter (fun _ walk => walk.mono (fun _ _ _ edge => edge.1))
    (fun _ walk => away_shorter sound walk) d

/-- The graph reversed. -/
def Back (E : V → V → Int → Prop) (u v : V) (k : Int) : Prop := E v u k

theorem back_distance (u v : V) (d : Int) : Distance (Back E) u v d ↔ Distance E v u d := by
  have same : { w | Walk (Back E) u v w } = { w | Walk E v u w } := by
    ext w
    exact ⟨Walk.reverse, Walk.reverse⟩
  rw [Distance, Distance, same]

theorem back_nonnegative (sound : Nonnegative E) : Nonnegative (Back E) :=
  fun v w walk => sound v w walk.reverse

/-- A walk either keeps away from `s` at every edge, or goes to it and comes from it. -/
theorem through_or_apart {s u v : V} {w : Int} (apart : u ≠ s) (walk : Walk E u v w) :
    (v ≠ s ∧ Walk (fun a b k => E a b k ∧ a ≠ s ∧ b ≠ s) u v w) ∨
      ∃ w₁ w₂, Walk E u s w₁ ∧ Walk E s v w₂ ∧ w = w₁ + w₂ := by
  induction walk with
  | nil => exact Or.inl ⟨apart, .nil⟩
  | @snoc v x w k walk edge ih =>
    rcases ih with ⟨before, walk'⟩ | ⟨w₁, w₂, to_, from', sum⟩
    · by_cases here : x = s
      · subst here
        exact Or.inr ⟨w + k, 0, walk.snoc edge, .nil, (add_zero _).symm⟩
      · exact Or.inl ⟨here, walk'.snoc ⟨edge, before, here⟩⟩
    · exact Or.inr ⟨w₁, w₂ + k, to_, from'.snoc edge, by omega⟩

/-- No cycle is negative when none that keeps away from `s` is, and none that begins at it. -/
theorem nonnegative_of_apart {s : V}
    (apart : Nonnegative (fun a b k => E a b k ∧ a ≠ s ∧ b ≠ s))
    (through : ∀ w, Walk E s s w → 0 ≤ w) : Nonnegative E := by
  intro v w walk
  by_cases here : v = s
  · subst here
    exact through w walk
  · rcases through_or_apart here walk with ⟨_, walk'⟩ | ⟨w₁, w₂, to_, from', sum⟩
    · exact apart v w walk'
    · have around := through _ (from'.append to_)
      omega

/-- No cycle through `s` is negative when the distances from it and back to it do not cross. -/
theorem through_nonnegative {s : V} {up down : V → Option Int} (upward : Settled (Away E s) up)
    (downward : Settled (Away (Back E) s) down) (upStart : up s = some 0)
    (downStart : down s = some 0) (loops : ∀ k, E s s k → 0 ≤ k)
    (uncrossed : ∀ v a b, v ≠ s → up v = some a → down v = some b → 0 ≤ a + b) :
    ∀ w, Walk E s s w → 0 ≤ w := by
  have along : ∀ v w, Walk E s v w →
      (v = s → 0 ≤ w) ∧ (v ≠ s → ∃ d, up v = some d ∧ d ≤ w) := by
    intro v w walk
    induction walk with
    | nil => exact ⟨fun _ => le_rfl, fun away => absurd rfl away⟩
    | @snoc v x w k walk edge ih =>
      obtain ⟨here, there⟩ := ih
      by_cases from' : v = s
      · subst from'
        refine ⟨fun back => ?_, fun away => ?_⟩
        · subst back
          have round := here rfl
          have loop := loops k edge
          omega
        · obtain ⟨d, labelled, low⟩ := upward v 0 upStart x k ⟨edge, away⟩
          have round := here rfl
          exact ⟨d, labelled, by omega⟩
      · obtain ⟨d, labelled, low⟩ := there from'
        refine ⟨fun back => ?_, fun away => ?_⟩
        · subst back
          obtain ⟨e, labelled', low'⟩ := downward x 0 downStart v k ⟨edge, from'⟩
          have round := uncrossed v d e from' labelled labelled'
          omega
        · obtain ⟨e, labelled', low'⟩ := upward v d labelled x k ⟨edge, away⟩
          exact ⟨e, labelled', by omega⟩
  exact fun w walk => (along s w walk).1 rfl

end Weighted
