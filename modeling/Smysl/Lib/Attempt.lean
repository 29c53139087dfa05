import Mathlib.Tactic.Common

/-!
Computations over a state that may give up without a value, and that may be stuck: not
return at all. What holds of a state before one and of the state after, by how it ended.
-/

/-- A computation over `σ`. It is stuck, or gives up, or has a value. -/
def Attempt (σ α : Type) : Type := σ → Option (Option α × σ)

namespace Attempt
variable {σ α β : Type}

/-- What follows a value; giving up ends it. -/
def andThen (p : Attempt σ α) (f : α → Attempt σ β) : Attempt σ β := fun s =>
  match p s with
  | none => none
  | some (none, s') => some (none, s')
  | some (some a, s') => f a s'

instance : Monad (Attempt σ) where
  pure a := fun s => some (some a, s)
  bind := andThen

def failed : Attempt σ α := fun s => some (none, s)

/-- A value, or giving up where there is none. -/
def given (o : Option α) : Attempt σ α := fun s => some (o, s)

/-- A value, or being stuck where there is none. -/
def taken (o : Option α) : Attempt σ α := fun s => o.map (fun a => (some a, s))

def update (f : σ → σ) : Attempt σ Unit := fun s => some (some (), f s)

def current : Attempt σ σ := fun s => some (some s, s)

/-- What to go on with from where a computation gave up. -/
def rescue (p q : Attempt σ α) : Attempt σ α := fun s =>
  match p s with
  | none => none
  | some (none, s') => q s'
  | some (some a, s') => some (some a, s')

/-- From states in `P` it is not stuck, and ends in `Q` with a value or gives up in `R`. -/
def Ensures (P : σ → Prop) (p : Attempt σ α) (Q : α → σ → Prop) (R : σ → Prop) : Prop :=
  ∀ s, P s → (∃ a s', p s = some (some a, s') ∧ Q a s') ∨ ∃ s', p s = some (none, s') ∧ R s'

variable {P : σ → Prop} {R : σ → Prop}

theorem Ensures.bind {p : Attempt σ α} {f : α → Attempt σ β} {Q : α → σ → Prop}
    {Q' : β → σ → Prop} (first : Ensures P p Q R) (next : ∀ a, Ensures (Q a) (f a) Q' R) :
    Ensures P (p >>= f) Q' R := by
  intro s before
  change (∃ b s', andThen p f s = _ ∧ _) ∨ ∃ s', andThen p f s = _ ∧ _
  rw [andThen]
  rcases first s before with ⟨a, s', run, after⟩ | ⟨s', run, after⟩
  · rw [run]
    exact next a s' after
  · rw [run]
    exact .inr ⟨s', rfl, after⟩

theorem Ensures.pure {Q : α → σ → Prop} {a : α} (after : ∀ s, P s → Q a s) :
    Ensures P (Pure.pure a : Attempt σ α) Q R := by
  intro s before
  exact .inl ⟨a, s, rfl, after s before⟩

theorem Ensures.failed {Q : α → σ → Prop} (after : ∀ s, P s → R s) :
    Ensures P (failed : Attempt σ α) Q R := by
  intro s before
  exact .inr ⟨s, rfl, after s before⟩

theorem Ensures.given {Q : α → σ → Prop} {o : Option α} (value : ∀ a s, o = some a → P s → Q a s)
    (after : ∀ s, P s → R s) : Ensures P (given o) Q R := by
  intro s before
  cases o with
  | none => exact .inr ⟨s, rfl, after s before⟩
  | some a => exact .inl ⟨a, s, rfl, value a s rfl before⟩

theorem Ensures.taken {Q : α → σ → Prop} {o : Option α} {a : α} (held : o = some a)
    (after : ∀ s, P s → Q a s) : Ensures P (taken o) Q R := by
  intro s before
  rw [held]
  exact .inl ⟨a, s, rfl, after s before⟩

theorem Ensures.rescue {p q : Attempt σ α} {Q : α → σ → Prop} {R' : σ → Prop}
    (first : Ensures P p Q R') (next : Ensures R' q Q R) : Ensures P (rescue p q) Q R := by
  intro s before
  rw [Attempt.rescue]
  rcases first s before with ⟨a, s', run, after⟩ | ⟨s', run, after⟩
  · rw [run]
    exact .inl ⟨a, s', rfl, after⟩
  · rw [run]
    exact next s' after

theorem Ensures.update {Q : Unit → σ → Prop} {f : σ → σ} (after : ∀ s, P s → Q () (f s)) :
    Ensures P (update f) Q R := by
  intro s before
  exact .inl ⟨(), f s, rfl, after s before⟩

theorem Ensures.current {Q : σ → σ → Prop} (after : ∀ s, P s → Q s s) :
    Ensures P current Q R := by
  intro s before
  exact .inl ⟨s, s, rfl, after s before⟩

theorem Ensures.weaken {P' : σ → Prop} {p : Attempt σ α} {Q Q' : α → σ → Prop} {R' : σ → Prop}
    (holds : Ensures P p Q R) (before : ∀ s, P' s → P s) (after : ∀ a s, Q a s → Q' a s)
    (gave_up : ∀ s, R s → R' s) : Ensures P' p Q' R' := by
  intro s held
  rcases holds s (before s held) with ⟨a, s', run, ends⟩ | ⟨s', run, ends⟩
  · exact .inl ⟨a, s', run, after a s' ends⟩
  · exact .inr ⟨s', run, gave_up s' ends⟩

/-! Where a computation goes on from a value, and where it is stuck. -/

theorem bind_value {p : Attempt σ α} {f : α → Attempt σ β} {s s' : σ} {a : α}
    (run : p s = some (some a, s')) : (p >>= f) s = f a s' := by
  change andThen p f s = _
  rw [andThen, run]

theorem bind_stuck {p : Attempt σ α} {f : α → Attempt σ β} {s : σ} (run : p s = none) :
    (p >>= f) s = none := by
  change andThen p f s = _
  rw [andThen, run]

end Attempt
