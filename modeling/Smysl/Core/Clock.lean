import Mathlib.Tactic.NormNum
import Smysl.Core.Types.Unit

/-!
Moving a hybrid logical clock on. A clock whose counter is at the end of its
range, in the latest millisecond there is, has no next reading.
-/
namespace Smysl
namespace Hlc

/-- What orders the readings: the wall clock, then the counter. -/
def reading (h : Hlc) : ℕ ×ₗ ℕ := toLex (h.wallMs.toNat, h.counter.toNat)

/-- Advance from `prev`; a counter at its end wraps. -/
def advance (prev : Hlc) (agent : AgentId) (wall : UInt64) : Hlc :=
  if prev.wallMs < wall then
    { wallMs := wall, counter := 0, agent := agent }
  else
    { wallMs := prev.wallMs, counter := prev.counter + 1, agent := agent }

/-- Merge two observed clocks. -/
def observe (own remote : Hlc) (agent : AgentId) (wall : UInt64) : Hlc :=
  let hi := max (max own.wallMs remote.wallMs) wall
  let counter :=
    if hi = own.wallMs ∧ hi = remote.wallMs then max own.counter remote.counter + 1
    else if hi = own.wallMs then own.counter + 1
    else if hi = remote.wallMs then remote.counter + 1
    else 0
  { wallMs := hi, counter := counter, agent := agent }

/-- Whether adding one overflows. -/
def overflows (counter : UInt32) : Bool := decide (2 ^ 32 ≤ counter.toNat + 1)

/-- Whether `advance` adds one where that overflows. -/
def advanceOverflows (prev : Hlc) (wall : UInt64) : Bool :=
  if prev.wallMs < wall then false else overflows prev.counter

/-- Whether `observe` adds one where that overflows. -/
def observeOverflows (own remote : Hlc) (wall : UInt64) : Bool :=
  let hi := max (max own.wallMs remote.wallMs) wall
  if hi = own.wallMs ∧ hi = remote.wallMs then overflows (max own.counter remote.counter)
  else if hi = own.wallMs then overflows own.counter
  else if hi = remote.wallMs then overflows remote.counter
  else false

/-- The counter is at the end of its range, in the millisecond `hi`. -/
def Spent (h : Hlc) (hi : UInt64) : Prop := h.wallMs = hi ∧ h.counter = 0xFFFFFFFF

instance (h : Hlc) (hi : UInt64) : Decidable (h.Spent hi) :=
  inferInstanceAs (Decidable (h.wallMs = hi ∧ h.counter = 0xFFFFFFFF))

theorem reading_lt (g h : Hlc) : g.reading < h.reading ↔ g.wallMs < h.wallMs ∨
    (g.wallMs = h.wallMs ∧ g.counter < h.counter) := by
  rw [reading, reading, Prod.Lex.toLex_lt_toLex, UInt64.lt_iff_toNat_lt, UInt32.lt_iff_toNat_lt,
    UInt64.toNat_inj]

theorem overflows_iff (c : UInt32) : overflows c = true ↔ c = 0xFFFFFFFF := by
  have bound := c.toNat_lt
  have last : (0xFFFFFFFF : UInt32).toNat = 2 ^ 32 - 1 := rfl
  rw [overflows, decide_eq_true_iff, ← UInt32.toNat_inj, last]
  omega

/-- One more is more, but at the end of the range. -/
theorem lt_succ_iff {c d : UInt32} (below : c ≤ d) : c < d + 1 ↔ overflows d = false := by
  have bound := d.toNat_lt
  have one : (1 : UInt32).toNat = 1 := rfl
  rw [UInt32.le_iff_toNat_le] at below
  rw [← Bool.not_eq_true, overflows, decide_eq_true_iff, UInt32.lt_iff_toNat_lt, UInt32.toNat_add,
    one]
  constructor
  · intro less full
    have wraps : d.toNat + 1 = 2 ^ 32 := by omega
    rw [wraps, Nat.mod_self] at less
    omega
  · intro room
    rw [Nat.mod_eq_of_lt (by omega)]
    omega

theorem spent_iff (h : Hlc) (hi : UInt64) :
    h.Spent hi ↔ h.wallMs = hi ∧ overflows h.counter = true := by
  rw [Spent, overflows_iff]

/-- A clock moves on, without an overflow, unless it is at the end of its counter and
the wall clock is not later. -/
theorem advance_moves_iff (prev : Hlc) (agent : AgentId) (wall : UInt64) :
    prev.reading < (prev.advance agent wall).reading ∧ advanceOverflows prev wall = false ↔
      ¬ (wall ≤ prev.wallMs ∧ prev.counter = 0xFFFFFFFF) := by
  rw [reading_lt, advance, advanceOverflows, ← overflows_iff]
  by_cases later : prev.wallMs < wall
  · rw [if_pos later, if_pos later]
    have earlier : ¬ wall ≤ prev.wallMs := UInt64.not_le.mpr later
    exact iff_of_true ⟨Or.inl later, rfl⟩ fun both => earlier both.1
  · rw [if_neg later, if_neg later]
    have stalled : wall ≤ prev.wallMs := UInt64.not_lt.mp later
    dsimp only
    rw [lt_succ_iff (UInt32.le_refl _)]
    simp [stalled]

theorem le_hi (own remote : Hlc) (wall : UInt64) :
    own.wallMs ≤ max (max own.wallMs remote.wallMs) wall ∧
      remote.wallMs ≤ max (max own.wallMs remote.wallMs) wall := by
  have left : ∀ a b : UInt64, a ≤ max a b ∧ b ≤ max a b := by
    intro a b
    rw [UInt64.max_def]
    split
    · rename_i below
      exact ⟨below, UInt64.le_refl b⟩
    · rename_i above
      exact ⟨UInt64.le_refl a, UInt64.le_of_lt (UInt64.not_le.mp above)⟩
  obtain ⟨first, second⟩ := left own.wallMs remote.wallMs
  have last := (left (max own.wallMs remote.wallMs) wall).1
  exact ⟨UInt64.le_trans first last, UInt64.le_trans second last⟩

/-- The greater of two counters is at its end when one of them is. -/
theorem max_overflows (c d : UInt32) :
    overflows (max c d) = false ↔ overflows c = false ∧ overflows d = false := by
  have left := c.toNat_lt
  have right := d.toNat_lt
  rw [UInt32.max_def]
  simp only [← Bool.not_eq_true, overflows, decide_eq_true_iff]
  split
  · rename_i below
    rw [UInt32.le_iff_toNat_le] at below
    omega
  · rename_i above
    rw [UInt32.le_iff_toNat_le] at above
    omega

theorem le_max_counter (c d : UInt32) : c ≤ max c d ∧ d ≤ max c d := by
  rw [UInt32.max_def]
  split
  · rename_i below
    exact ⟨below, UInt32.le_refl d⟩
  · rename_i above
    exact ⟨UInt32.le_refl c, UInt32.le_of_lt (UInt32.not_le.mp above)⟩

/-- A merged clock is later than both, without an overflow, unless one of them is at the
end of its counter in the latest millisecond. -/
theorem observe_moves_iff (own remote : Hlc) (agent : AgentId) (wall : UInt64) :
    (own.reading < (observe own remote agent wall).reading ∧
      remote.reading < (observe own remote agent wall).reading) ∧
        observeOverflows own remote wall = false ↔
      ¬ own.Spent (max (max own.wallMs remote.wallMs) wall) ∧
        ¬ remote.Spent (max (max own.wallMs remote.wallMs) wall) := by
  obtain ⟨ownBelow, remoteBelow⟩ := le_hi own remote wall
  rw [reading_lt, reading_lt, observe, observeOverflows, spent_iff, spent_iff]
  dsimp only
  generalize max (max own.wallMs remote.wallMs) wall = hi at ownBelow remoteBelow ⊢
  have below : ∀ {a : UInt64}, a ≤ hi → hi ≠ a → a < hi := by
    intro a le ne
    rw [UInt64.lt_iff_toNat_lt]
    rw [UInt64.le_iff_toNat_le] at le
    have apart : hi.toNat ≠ a.toNat := fun same => ne (UInt64.toNat_inj.mp same)
    omega
  by_cases here : hi = own.wallMs
  · by_cases there : hi = remote.wallMs
    · obtain ⟨first, second⟩ := le_max_counter own.counter remote.counter
      have both : hi = own.wallMs ∧ hi = remote.wallMs := ⟨here, there⟩
      simp only [if_pos both]
      rw [lt_succ_iff first, lt_succ_iff second, max_overflows]
      simp [← here, ← there, UInt64.lt_irrefl]
    · have earlier := below remoteBelow there
      have apart : ¬ (hi = own.wallMs ∧ hi = remote.wallMs) := fun both => there both.2
      simp only [if_neg apart, if_pos here]
      rw [lt_succ_iff (UInt32.le_refl _)]
      simp [← here, earlier, Ne.symm there]
  · have earlier := below ownBelow here
    have apart : ¬ (hi = own.wallMs ∧ hi = remote.wallMs) := fun both => here both.1
    by_cases there : hi = remote.wallMs
    · simp only [if_neg apart, if_neg here, if_pos there]
      rw [lt_succ_iff (UInt32.le_refl _)]
      simp [← there, earlier, Ne.symm here]
    · have earlier' := below remoteBelow there
      simp only [if_neg apart, if_neg here, if_neg there]
      simp [earlier, earlier', Ne.symm here, Ne.symm there]

/-- Both ways of moving a clock on give a later reading, without an overflow, exactly
when no clock they start from is at the end of its counter in the latest millisecond. -/
theorem clocks_move_iff (prev own remote : Hlc) (agent : AgentId) (wall : UInt64) :
    (prev.reading < (prev.advance agent wall).reading ∧ advanceOverflows prev wall = false ↔
      ¬ (wall ≤ prev.wallMs ∧ prev.counter = 0xFFFFFFFF)) ∧
    ((own.reading < (observe own remote agent wall).reading ∧
        remote.reading < (observe own remote agent wall).reading) ∧
          observeOverflows own remote wall = false ↔
      ¬ own.Spent (max (max own.wallMs remote.wallMs) wall) ∧
        ¬ remote.Spent (max (max own.wallMs remote.wallMs) wall)) :=
  ⟨advance_moves_iff prev agent wall, observe_moves_iff own remote agent wall⟩

/-- A stalled clock at the end of its counter goes back. -/
theorem spent_clock_goes_back : ¬ ∀ (prev own remote : Hlc) (agent : AgentId) (wall : UInt64),
    (prev.reading < (prev.advance agent wall).reading ∧ advanceOverflows prev wall = false) ∧
      (own.reading < (observe own remote agent wall).reading ∧
        remote.reading < (observe own remote agent wall).reading) ∧
          observeOverflows own remote wall = false := by
  intro all
  have back := (all ⟨0, 0xFFFFFFFF, ⟨"human:a", by decide⟩⟩ ⟨0, 0, ⟨"human:a", by decide⟩⟩
    ⟨0, 0, ⟨"human:a", by decide⟩⟩ ⟨"human:a", by decide⟩ 0).1.1
  revert back
  decide

end Hlc
end Smysl
