import Smysl.Lib.Bytes

/-!
Readers of fields of fixed width from the front of a byte string: from which bytes one is
sure to recover a value, and what is known of any value it returns.
-/
namespace Fixed
open ByteString

def Reader (ε α : Type) : Type := Bytes → Except ε (α × Bytes)

namespace Reader
variable {ε α β : Type}

instance : Monad (Reader ε) where
  pure a := fun b => .ok (a, b)
  bind p f := fun b =>
    match p b with
    | .ok (a, b) => f a b
    | .error e => .error e

def fail (e : ε) : Reader ε α := fun _ => .error e

/-- The value, or the error a missing one is reported as. -/
def orFail (e : ε) : Option α → Reader ε α
  | some a => pure a
  | none => fail e

/-- So many bytes. -/
def take (short : ε) (n : Nat) : Reader ε Bytes := fun b =>
  if n ≤ b.length then .ok (b.take n, b.drop n) else .error short

/-- `n` values, one after the other. -/
def times (p : Reader ε α) : Nat → Reader ε (List α)
  | 0 => pure []
  | n + 1 => do
    let a ← p
    let as ← times p n
    pure (a :: as)

end Reader

open Reader

variable {ε α β : Type}

/-- From `raw`, whatever follows it, `p` reads `a` and leaves what follows. -/
def Recovers (p : Reader ε α) (raw : Bytes) (a : α) : Prop :=
  ∀ more, p (raw ++ more) = .ok (a, more)

namespace Recovers

theorem pure (a : α) : Recovers (Pure.pure a : Reader ε α) [] a := fun _ => rfl

theorem bind {p : Reader ε α} {f : α → Reader ε β} {raw raw' : Bytes} {a : α} {b : β}
    (first : Recovers p raw a) (second : Recovers (f a) raw' b) :
    Recovers (p >>= f) (raw ++ raw') b := by
  intro more
  rw [List.append_assoc]
  change (match p (raw ++ (raw' ++ more)) with
    | .ok (a, b) => f a b
    | .error e => .error e) = _
  rw [first]
  exact second more

/-- The last step of a run, which reads nothing more. -/
theorem bind_end {p : Reader ε α} {f : α → Reader ε β} {raw : Bytes} {a : α} {b : β}
    (first : Recovers p raw a) (second : Recovers (f a) [] b) : Recovers (p >>= f) raw b := by
  have run := first.bind second
  rwa [List.append_nil] at run

theorem map {p : Reader ε α} {raw : Bytes} {a : α} (each : Recovers p raw a) (f : α → β) :
    Recovers (f <$> p) raw (f a) :=
  show Recovers (p >>= fun a => Pure.pure (f a)) raw (f a) from each.bind_end (Recovers.pure _)

theorem orFail {o : Option α} {a : α} (e : ε) (found : o = some a) :
    Recovers (Reader.orFail e o) [] a := by
  subst found
  exact Recovers.pure a

theorem take (short : ε) {n : Nat} {raw : Bytes} (same : raw.length = n) :
    Recovers (Reader.take short n) raw raw := by
  intro more
  rw [Reader.take, if_pos (by rw [List.length_append]; omega), ← same, List.take_left,
    List.drop_left]

theorem times {p : Reader ε α} {raw : α → Bytes} {as : List α}
    (each : ∀ a ∈ as, Recovers p (raw a) a) :
    Recovers (Reader.times p as.length) (as.flatMap raw) as := by
  induction as with
  | nil => exact Recovers.pure []
  | cons a as ih =>
    rw [List.forall_mem_cons] at each
    exact each.1.bind ((ih each.2).bind_end (Recovers.pure _))

end Recovers

/-- Whatever `p` returns is in `Q`. -/
def Returns (p : Reader ε α) (Q : α → Prop) : Prop := ∀ b a more, p b = .ok (a, more) → Q a

namespace Returns

theorem pure {Q : α → Prop} {a : α} (holds : Q a) : Returns (Pure.pure a : Reader ε α) Q := by
  intro b a' more run
  cases run
  exact holds

theorem fail {Q : α → Prop} (e : ε) : Returns (Reader.fail e) Q := fun _ _ _ run => nomatch run

theorem bind {p : Reader ε α} {f : α → Reader ε β} {Q : α → Prop} {R : β → Prop}
    (first : Returns p Q) (second : ∀ a, Q a → Returns (f a) R) : Returns (p >>= f) R := by
  intro b c more run
  change (match p b with
    | .ok (a, b) => f a b
    | .error e => .error e) = .ok (c, more) at run
  cases read : p b with
  | error e =>
    rw [read] at run
    cases run
  | ok result =>
    obtain ⟨a, rest⟩ := result
    rw [read] at run
    exact second a (first b a rest read) rest c more run

theorem mono {p : Reader ε α} {Q R : α → Prop} (all : Returns p Q) (within : ∀ a, Q a → R a) :
    Returns p R := fun b a more run => within a (all b a more run)

theorem trivial (p : Reader ε α) : Returns p (fun _ => True) := fun _ _ _ _ => True.intro

theorem orFail (e : ε) (o : Option α) : Returns (Reader.orFail e o) (fun a => o = some a) := by
  cases o with
  | none => exact Returns.fail e
  | some a => exact Returns.pure rfl

theorem take (short : ε) (n : Nat) :
    Returns (Reader.take short n) (fun raw => raw.length = n) := by
  intro b a more run
  rw [Reader.take] at run
  split at run
  · rename_i enough
    cases run
    rw [List.length_take]
    omega
  · cases run

theorem times {p : Reader ε α} {Q : α → Prop} (each : Returns p Q) (n : Nat) :
    Returns (Reader.times p n) (fun as => as.length = n ∧ ∀ a ∈ as, Q a) := by
  induction n with
  | zero => exact Returns.pure ⟨rfl, List.forall_mem_nil _⟩
  | succ n ih =>
    refine each.bind (fun a head => ih.bind (fun as tail => Returns.pure ?_))
    exact ⟨congrArg Nat.succ tail.1, List.forall_mem_cons.mpr ⟨head, tail.2⟩⟩

end Returns
end Fixed
