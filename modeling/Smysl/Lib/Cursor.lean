import Smysl.Lib.Bytes

/-!
Parsers over a byte cursor, and three ways to reason about them.

`Steady`: a parser that stopped inside its input does the same when more input
follows, and what it consumed is a prefix of what it was given.
`Yields`: what a successful run says about the value and the bytes consumed.
`Reads`: the bytes from which a parser is sure to read a given value.
-/
namespace Cursor
open ByteString

/-- A place in a buffer: its offset, and the bytes from there on. -/
structure Dec where
  pos : Nat
  rest : Bytes
  deriving Repr, DecidableEq

namespace Dec

def advance (d : Dec) (n : Nat) : Dec := ⟨d.pos + n, d.rest.drop n⟩

/-- The same place in a buffer that goes on for longer. -/
def extend (d : Dec) (more : Bytes) : Dec := ⟨d.pos, d.rest ++ more⟩

@[simp] theorem extend_pos (d : Dec) (more : Bytes) : (d.extend more).pos = d.pos := rfl

@[simp] theorem extend_rest (d : Dec) (more : Bytes) :
    (d.extend more).rest = d.rest ++ more := rfl

end Dec

def Parser (ε α : Type) := Dec → Except ε (α × Dec)

namespace Parser
variable {ε α β : Type}

instance : Monad (Parser ε) where
  pure a := fun d => .ok (a, d)
  bind p f := fun d =>
    match p d with
    | .ok (a, d) => f a d
    | .error e => .error e

def fail (e : ε) : Parser ε α := fun _ => .error e

def position : Parser ε Nat := fun d => .ok (d.pos, d)

/-- The cursor itself, to say later what stood there. -/
def here : Parser ε Dec := fun d => .ok (d, d)

/-- The value, or the error a missing one is reported as. -/
def orFail (e : ε) : Option α → Parser ε α
  | some a => pure a
  | none => fail e

def reject (wrong : Bool) (e : ε) : Parser ε Unit := if wrong then fail e else pure ()

/-- `n` rounds of a loop body over a loop state. -/
def loop (body : α → Parser ε α) : Nat → α → Parser ε α
  | 0, a => pure a
  | n + 1, a => body a >>= loop body n

/-- `n` values, one after the other. -/
def times (p : Parser ε α) : Nat → Parser ε (List α)
  | 0 => pure []
  | n + 1 => do
    let a ← p
    let as ← times p n
    pure (a :: as)

/-- A value together with the bytes it was read from. -/
def spanned (p : Parser ε α) : Parser ε (α × Bytes) := fun d =>
  match p d with
  | .ok (a, d') => .ok ((a, d.rest.take (d'.pos - d.pos)), d')
  | .error e => .error e

@[simp] theorem pure_run (a : α) (d : Dec) : (pure a : Parser ε α) d = .ok (a, d) := rfl

@[simp] theorem fail_run (e : ε) (d : Dec) : (fail e : Parser ε α) d = .error e := rfl

theorem bind_run (p : Parser ε α) (f : α → Parser ε β) (d : Dec) :
    (p >>= f) d = match p d with
      | .ok (a, d) => f a d
      | .error e => .error e := rfl

theorem bind_ok {p : Parser ε α} {f : α → Parser ε β} {d d₂ : Dec} {b : β}
    (run : (p >>= f) d = .ok (b, d₂)) : ∃ a d₁, p d = .ok (a, d₁) ∧ f a d₁ = .ok (b, d₂) := by
  rw [bind_run] at run
  split at run
  · rename_i a d₁ first
    exact ⟨a, d₁, first, run⟩
  · simp at run

theorem map_ok {p : Parser ε α} {f : α → β} {d d₁ : Dec} {b : β}
    (run : (f <$> p) d = .ok (b, d₁)) : ∃ a, p d = .ok (a, d₁) ∧ f a = b := by
  obtain ⟨a, d', first, done⟩ := bind_ok (show (p >>= fun a => pure (f a)) d = _ from run)
  cases done
  exact ⟨a, first, rfl⟩

theorem bind_of_ok {p : Parser ε α} {f : α → Parser ε β} {d d₁ : Dec} {a : α}
    (first : p d = .ok (a, d₁)) : (p >>= f) d = f a d₁ := by
  rw [bind_run, first]

end Parser

open Cursor.Parser

/-- The errors that say the input ended too early. -/
class Short (ε : Type) where
  short : ε → Prop

section
variable {ε α β γ : Type}

/-- A parser whose answer does not change when its input is extended, unless
it said that the input was too short. -/
class Steady [Short ε] (p : Parser ε α) : Prop where
  ok : ∀ {d d' : Dec} {a : α}, p d = .ok (a, d') →
    (∃ raw, d.rest = raw ++ d'.rest ∧ d'.pos = d.pos + raw.length) ∧
      ∀ more, p (d.extend more) = .ok (a, d'.extend more)
  err : ∀ {d : Dec} {e : ε}, p d = .error e → ¬ Short.short e →
    ∀ more, p (d.extend more) = .error e

namespace Steady
variable [Short ε]

instance pure (a : α) : Steady (Pure.pure a : Parser ε α) where
  ok run := by
    cases run
    exact ⟨⟨[], by simp⟩, fun _ => rfl⟩
  err run := by cases run

instance fail (e : ε) : Steady (Parser.fail e : Parser ε α) where
  ok run := by cases run
  err run _ _ := run

instance position : Steady (Parser.position : Parser ε Nat) where
  ok run := by
    cases run
    exact ⟨⟨[], by simp⟩, fun _ => rfl⟩
  err run := by cases run

instance bind (p : Parser ε α) (f : α → Parser ε β) [first : Steady p]
    [second : ∀ a, Steady (f a)] : Steady (p >>= f) where
  ok run := by
    obtain ⟨a, d₁, run₁, run₂⟩ := bind_ok run
    obtain ⟨⟨raw₁, eq₁, pos₁⟩, more₁⟩ := first.ok run₁
    obtain ⟨⟨raw₂, eq₂, pos₂⟩, more₂⟩ := (second a).ok run₂
    refine ⟨⟨raw₁ ++ raw₂, by rw [eq₁, eq₂, List.append_assoc], ?_⟩, fun more => ?_⟩
    · rw [pos₂, pos₁, List.length_append, Nat.add_assoc]
    · rw [bind_of_ok (more₁ more), more₂ more]
  err {d e} run long more := by
    rw [bind_run] at run ⊢
    cases run₁ : p d with
    | ok done =>
      obtain ⟨a, d₁⟩ := done
      rw [run₁] at run
      rw [(first.ok run₁).2 more]
      exact (second a).err run long more
    | error e₁ =>
      rw [run₁] at run
      cases run
      rw [first.err run₁ long more]

instance map (f : α → β) (p : Parser ε α) [Steady p] : Steady (f <$> p) :=
  inferInstanceAs (Steady (p >>= fun a => Pure.pure (f a)))

instance ite (c : Prop) [Decidable c] (p q : Parser ε α) [left : Steady p] [right : Steady q] :
    Steady (if c then p else q) := by
  split
  · exact left
  · exact right

instance orFail (e : ε) (o : Option α) : Steady (Parser.orFail e o) := by
  cases o
  · exact Steady.fail e
  · exact Steady.pure _

instance reject (wrong : Bool) (e : ε) : Steady (Parser.reject wrong e) := by
  unfold Parser.reject
  infer_instance

instance loop (body : α → Parser ε α) [∀ a, Steady (body a)] (n : Nat) (a : α) :
    Steady (Parser.loop body n a) := by
  induction n generalizing a with
  | zero => exact Steady.pure a
  | succ n ih => exact Steady.bind _ _

instance times (p : Parser ε α) [Steady p] (n : Nat) : Steady (Parser.times p n) := by
  induction n with
  | zero => exact Steady.pure []
  | succ n ih => exact Steady.bind _ _

theorem spanned_ok {p : Parser ε α} [steady : Steady p] {d d' : Dec} {a : α} {raw : Bytes}
    (run : Parser.spanned p d = .ok ((a, raw), d')) :
    p d = .ok (a, d') ∧ d.rest = raw ++ d'.rest := by
  rw [Parser.spanned] at run
  split at run
  · rename_i a₁ d₁ run₁
    cases run
    obtain ⟨⟨raw, eq, pos⟩, _⟩ := steady.ok run₁
    refine ⟨run₁, ?_⟩
    rw [pos, Nat.add_sub_cancel_left, eq, List.take_left]
  · cases run

instance spanned (p : Parser ε α) [steady : Steady p] : Steady (Parser.spanned p) where
  ok {d d' a} run := by
    obtain ⟨run₁, eq₁⟩ := spanned_ok run
    obtain ⟨⟨raw, eq, pos⟩, more⟩ := steady.ok run₁
    refine ⟨⟨raw, eq, pos⟩, fun s => ?_⟩
    have same : a.2 = raw := List.append_cancel_right (eq₁.symm.trans eq)
    rw [Parser.spanned, more s]
    simp [pos, eq, ← same]
  err {d e} run long more := by
    rw [Parser.spanned] at run ⊢
    cases run₁ : p d with
    | ok done => simp [run₁] at run
    | error e₁ =>
      rw [run₁] at run
      cases run
      rw [steady.err run₁ long more]

/-- Reading a prefix of what is read in full either gives the same value from
the same bytes, or finds the input short. -/
theorem prefix_short_or_same {p : Parser ε α} [steady : Steady p] {pos : Nat} {t s : Bytes}
    {a : α} {d' : Dec} (full : p ⟨pos, t ++ s⟩ = .ok (a, d')) :
    (∃ e, p ⟨pos, t⟩ = .error e ∧ Short.short e) ∨
      ∃ t', p ⟨pos, t⟩ = .ok (a, ⟨d'.pos, t'⟩) ∧ d'.rest = t' ++ s := by
  cases run : p ⟨pos, t⟩ with
  | error e =>
    by_cases short : Short.short e
    · exact .inl ⟨e, rfl, short⟩
    · have again := steady.err run short s
      rw [Dec.extend, full] at again
      cases again
  | ok done =>
    obtain ⟨b, d₁⟩ := done
    have again := (steady.ok run).2 s
    rw [Dec.extend, full] at again
    cases again
    exact .inr ⟨d₁.rest, rfl, rfl⟩

end Steady

/-- `n` rounds of a step from one loop state to another, over a string cut into
what each round took. -/
inductive Rounds (step : α → α → Bytes → Prop) : Nat → α → α → Bytes → Prop
  | done (a : α) : Rounds step 0 a a []
  | next {n : Nat} {a b c : α} {raw₁ raw₂ : Bytes} (first : step a b raw₁)
      (later : Rounds step n b c raw₂) : Rounds step (n + 1) a c (raw₁ ++ raw₂)

/-- `n` successful rounds of a loop body. -/
inductive Chain (body : α → Parser ε α) : Nat → α → Dec → α → Dec → Prop
  | done (a : α) (d : Dec) : Chain body 0 a d a d
  | next {n : Nat} {a b c : α} {d d₁ d₂ : Dec} (first : body a d = .ok (b, d₁))
      (later : Chain body n b d₁ c d₂) : Chain body (n + 1) a d c d₂

theorem loop_chain {body : α → Parser ε α} {n : Nat} {a b : α} {d d' : Dec} :
    Parser.loop body n a d = .ok (b, d') ↔ Chain body n a d b d' := by
  constructor
  · intro run
    induction n generalizing a d with
    | zero =>
      cases run
      exact .done _ _
    | succ n ih =>
      obtain ⟨c, d₁, first, later⟩ := bind_ok run
      exact .next first (ih later)
  · intro chain
    induction chain with
    | done a d => rfl
    | next first _ ih => exact (bind_of_ok first).trans ih

/-- Every successful run of `p` gives a value and a consumed string related by
`post`. -/
def Yields (p : Parser ε α) (post : α → Bytes → Prop) : Prop :=
  ∀ ⦃d d' : Dec⦄ ⦃a : α⦄, p d = .ok (a, d') → ∃ raw, d.rest = raw ++ d'.rest ∧ post a raw

namespace Yields

theorem mono {p : Parser ε α} {post post' : α → Bytes → Prop} (yields : Yields p post)
    (weaken : ∀ a raw, post a raw → post' a raw) : Yields p post' := fun _ _ _ run =>
  have ⟨raw, eq, holds⟩ := yields run
  ⟨raw, eq, weaken _ raw holds⟩

theorem pure {post : α → Bytes → Prop} {a : α} (holds : post a []) :
    Yields (Pure.pure a : Parser ε α) post := by
  intro d d' b run
  cases run
  exact ⟨[], rfl, holds⟩

theorem fail {post : α → Bytes → Prop} (e : ε) : Yields (Parser.fail e) post :=
  fun _ _ _ run => nomatch run

theorem bind {p : Parser ε α} {f : α → Parser ε β} {mid : α → Bytes → Prop}
    {post : β → Bytes → Prop} (first : Yields p mid)
    (second : ∀ a raw₁, mid a raw₁ → Yields (f a) (fun b raw₂ => post b (raw₁ ++ raw₂))) :
    Yields (p >>= f) post := by
  intro d d₂ b run
  obtain ⟨a, d₁, run₁, run₂⟩ := bind_ok run
  obtain ⟨raw₁, eq₁, holds₁⟩ := first run₁
  obtain ⟨raw₂, eq₂, holds₂⟩ := second a raw₁ holds₁ run₂
  exact ⟨raw₁ ++ raw₂, by rw [eq₁, eq₂, List.append_assoc], holds₂⟩

theorem position_bind {f : Nat → Parser ε β} {post : β → Bytes → Prop}
    (second : ∀ pos, Yields (f pos) post) : Yields (position >>= f) post :=
  fun _ _ _ run => second _ run

theorem reject_bind {wrong : Bool} {e : ε} {f : Unit → Parser ε β} {post : β → Bytes → Prop}
    (second : wrong = false → Yields (f ()) post) : Yields (reject wrong e >>= f) post := by
  intro d d' b run
  cases wrong with
  | false => exact second rfl run
  | true => cases run

theorem orFail_bind {o : Option α} {e : ε} {f : α → Parser ε β} {post : β → Bytes → Prop}
    (second : ∀ a, o = some a → Yields (f a) post) : Yields (orFail e o >>= f) post := by
  intro d d' b run
  cases o with
  | some a => exact second a rfl run
  | none => cases run

theorem orFail {o : Option α} {e : ε} {post : α → Bytes → Prop}
    (holds : ∀ a, o = some a → post a []) : Yields (orFail e o) post := by
  cases o with
  | some a => exact Yields.pure (holds a rfl)
  | none => exact Yields.fail e

theorem loop {body : α → Parser ε α} {step : α → α → Bytes → Prop}
    (round : ∀ a, Yields (body a) (step a)) (n : Nat) (a : α) :
    Yields (Parser.loop body n a) (Rounds step n a) := by
  induction n generalizing a with
  | zero => exact Yields.pure (Rounds.done a)
  | succ n ih =>
    refine Yields.bind (round a) fun b raw₁ first => (ih b).mono fun c raw₂ later => ?_
    exact Rounds.next first later

theorem times {p : Parser ε α} {post : α → Bytes → Prop} (each : Yields p post) (n : Nat) :
    Yields (Parser.times p n)
      (fun as raw => ∃ raws, raw = raws.flatten ∧ as.length = n ∧ List.Forall₂ post as raws) := by
  induction n with
  | zero => exact Yields.pure ⟨[], rfl, rfl, .nil⟩
  | succ n ih =>
    refine Yields.bind each fun a raw₁ first => Yields.bind ih ?_
    rintro as _ ⟨raws, rfl, len, rest⟩
    exact Yields.pure ⟨raw₁ :: raws, by simp, by simp [len], .cons first rest⟩

theorem spanned [Short ε] {p : Parser ε α} [Steady p] {post : α → Bytes → Prop}
    (each : Yields p post) :
    Yields (Parser.spanned p) (fun v raw => v.2 = raw ∧ post v.1 raw) := by
  rintro d d' ⟨a, raw⟩ run
  obtain ⟨run₁, eq₁⟩ := Steady.spanned_ok run
  obtain ⟨raw', eq₂, holds⟩ := each run₁
  have same : raw = raw' := List.append_cancel_right (eq₁.symm.trans eq₂)
  exact ⟨raw', eq₂, same, holds⟩

end Yields

/-- The greatest offset a cursor can reach. -/
def limit : Nat := 2 ^ 64

/-- From `raw`, whatever follows it, `p` reads `a` and stops right after. -/
def Reads (p : Parser ε α) (raw : Bytes) (a : α) : Prop :=
  ∀ pos more, pos + raw.length < limit →
    p ⟨pos, raw ++ more⟩ = .ok (a, ⟨pos + raw.length, more⟩)

namespace Reads

theorem of_fits {p : Parser ε α} {raw : Bytes} {a : α}
    (reads : raw.length < limit → Reads p raw a) : Reads p raw a :=
  fun pos more fits => reads (by omega) pos more fits

theorem unique {p : Parser ε α} {raw : Bytes} {a b : α} (one : Reads p raw a)
    (two : Reads p raw b) (fits : raw.length < limit) : a = b := by
  have same := one 0 [] (by omega)
  rw [two 0 [] (by omega)] at same
  cases same
  rfl

theorem pure (a : α) : Reads (Pure.pure a : Parser ε α) [] a := fun _ _ _ => rfl

theorem bind {p : Parser ε α} {f : α → Parser ε β} {raw₁ raw₂ : Bytes} {a : α} {b : β}
    (first : Reads p raw₁ a) (second : Reads (f a) raw₂ b) :
    Reads (p >>= f) (raw₁ ++ raw₂) b := by
  intro pos more fits
  rw [List.length_append] at fits
  have run₁ := first pos (raw₂ ++ more) (by omega)
  have run₂ := second (pos + raw₁.length) more (by omega)
  rw [List.append_assoc, bind_of_ok run₁, run₂, List.length_append, Nat.add_assoc]

/-- The last step of a run, which consumes nothing more. -/
theorem bind_end {p : Parser ε α} {f : α → Parser ε β} {raw : Bytes} {a : α} {b : β}
    (first : Reads p raw a) (second : Reads (f a) [] b) : Reads (p >>= f) raw b := by
  have run := Reads.bind first second
  rwa [List.append_nil] at run

theorem cons_bind {p : Parser ε α} {f : α → Parser ε β} {c : UInt8} {raw : Bytes} {a : α} {b : β}
    (first : Reads p [c] a) (second : Reads (f a) raw b) : Reads (p >>= f) (c :: raw) b :=
  Reads.bind first second

theorem position_bind {f : Nat → Parser ε β} {raw : Bytes} {b : β}
    (second : ∀ pos, Reads (f pos) raw b) : Reads (position >>= f) raw b :=
  fun pos more fits => second pos pos more fits

theorem reject_bind {wrong : Bool} {e : ε} {f : Unit → Parser ε β} {raw : Bytes} {b : β}
    (right : wrong = false) (second : Reads (f ()) raw b) :
    Reads (reject wrong e >>= f) raw b := by
  subst right
  exact second

theorem orFail_bind {o : Option α} {e : ε} {f : α → Parser ε β} {raw : Bytes} {a : α} {b : β}
    (found : o = some a) (second : Reads (f a) raw b) : Reads (orFail e o >>= f) raw b := by
  subst found
  exact second

theorem orFail {o : Option α} {e : ε} {a : α} (found : o = some a) :
    Reads (Parser.orFail e o) [] a := by
  subst found
  exact Reads.pure a

theorem loop {body : α → Parser ε α} {n : Nat} {a b : α} {raw : Bytes}
    (rounds : Rounds (fun a b raw => Reads (body a) raw b) n a b raw) :
    Reads (Parser.loop body n a) raw b := by
  induction rounds with
  | done a => exact Reads.pure a
  | next first _ ih => exact Reads.bind first ih

/-- A loop over ascending items, whose body takes an item that is above the one
before it. -/
theorem loop_ascending {κ τ : Type} {body : Option κ × α → Parser ε (Option κ × α)} {key : τ → κ}
    {raw : τ → Bytes} {add : α → τ → α} {below : κ → κ → Prop} {items : List τ}
    (round : ∀ st, ∀ x ∈ items, (∀ p ∈ st.1, below p (key x)) →
      Reads (body st) (raw x) (some (key x), add st.2 x))
    (ascending : items.Pairwise (fun x y => below (key x) (key y))) (prev : Option κ) (a : α)
    (above : ∀ p ∈ prev, ∀ x ∈ items, below p (key x)) : ∃ last,
      Reads (Parser.loop body items.length (prev, a)) (items.flatMap raw)
        (last, items.foldl add a) := by
  induction items generalizing prev a with
  | nil => exact ⟨prev, Reads.pure _⟩
  | cons x items ih =>
    obtain ⟨least, ascending⟩ := List.pairwise_cons.mp ascending
    have first := round (prev, a) x List.mem_cons_self fun p held =>
      above p held x List.mem_cons_self
    obtain ⟨last, later⟩ := ih (fun st y mem => round st y (List.mem_cons_of_mem _ mem)) ascending
      (some (key x)) (add a x) (by
        rintro p ⟨rfl⟩ y mem
        exact least y mem)
    exact ⟨last, Reads.bind first later⟩

/-- Such a loop from its start, with what is made of its last state. -/
theorem loop_ascending_bind {κ τ : Type} {body : Option κ × α → Parser ε (Option κ × α)}
    {key : τ → κ} {raw : τ → Bytes} (add : α → τ → α) {below : κ → κ → Prop} {items : List τ}
    {f : Option κ × α → Parser ε β} {a : α} {b : β}
    (round : ∀ st, ∀ x ∈ items, (∀ p ∈ st.1, below p (key x)) →
      Reads (body st) (raw x) (some (key x), add st.2 x))
    (ascending : items.Pairwise (fun x y => below (key x) (key y)))
    (finish : ∀ last, Reads (f (last, items.foldl add a)) [] b) :
    Reads (Parser.loop body items.length (none, a) >>= f) (items.flatMap raw) b := by
  obtain ⟨last, run⟩ := loop_ascending round ascending none a (fun p held => nomatch held)
  exact Reads.bind_end run (finish last)

theorem times {p : Parser ε α} {as : List α} {raws : List Bytes}
    (each : List.Forall₂ (fun a raw => Reads p raw a) as raws) :
    Reads (Parser.times p as.length) raws.flatten as := by
  induction each with
  | nil => exact Reads.pure []
  | cons first _ ih => exact Reads.bind first (Reads.bind_end ih (Reads.pure _))

theorem spanned {p : Parser ε α} {raw : Bytes} {a : α} (each : Reads p raw a) :
    Reads (Parser.spanned p) raw (a, raw) := by
  intro pos more fits
  rw [Parser.spanned, each pos more fits]
  simp

theorem map {β : Type} {p : Parser ε α} {raw : Bytes} {a : α} (each : Reads p raw a) (f : α → β) :
    Reads (f <$> p) raw (f a) :=
  show Reads (p >>= fun a => Pure.pure (f a)) raw (f a) from each.bind_end (Reads.pure _)

/-- A steady parser that reads `a` from `raw` finds every proper prefix short. -/
theorem proper_prefix_short [Short ε] {p : Parser ε α} [Steady p] {raw : Bytes} {a : α}
    (reads : Reads p raw a) {t s : Bytes} (cut : raw = t ++ s) (rest : s ≠ [])
    {pos : Nat} (fits : pos + raw.length < limit) :
    ∃ e, p ⟨pos, t⟩ = .error e ∧ Short.short e := by
  have full := reads pos [] fits
  rw [List.append_nil, cut] at full
  rcases Steady.prefix_short_or_same full with short | ⟨t', _, left⟩
  · exact short
  · have gone : t' ++ s = [] := left.symm
    simp [rest] at gone

end Reads
end
end Cursor
