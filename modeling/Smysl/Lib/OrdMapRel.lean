import Smysl.Lib.OrdMap

/-!
Two ordered maps that answer every lookup alike iterate alike.
-/
namespace BTreeMap
open OrdMap

variable {K V W : Type} [LinearOrder K]

theorem keys_of_same {m : BTreeMap K V} {n : BTreeMap K W}
    (same : ∀ k, (m.get k).isSome = (n.get k).isSome) : m.keys = n.keys := by
  have : Std.Irrefl (fun a b : K => a < b) := ⟨lt_irrefl⟩
  have : Std.Antisymm (fun a b : K => a < b) := ⟨fun a b ab ba => absurd (ab.trans ba) (lt_irrefl _)⟩
  refine List.Pairwise.eq_of_mem_iff m.keys_pairwise n.keys_pairwise fun k => ?_
  rw [mem_keys_iff, mem_keys_iff, contains, contains, same]

/-- Entries that hold related values under the same keys. -/
theorem entries_related {R : V → W → Prop} {m : BTreeMap K V} {n : BTreeMap K W}
    (same : ∀ k, (m.get k).isSome = (n.get k).isSome)
    (each : ∀ k v w, m.get k = some v → n.get k = some w → R v w) :
    List.Forall₂ (fun a b => a.1 = b.1 ∧ R a.2 b.2) m.entries n.entries := by
  have keys : m.entries.map Prod.fst = n.entries.map Prod.fst := keys_of_same same
  have inM : ∀ e ∈ m.entries, m.get e.1 = some e.2 := fun e mem => (mem_entries_iff m e.1 e.2).mp mem
  have inN : ∀ e ∈ n.entries, n.get e.1 = some e.2 := fun e mem => (mem_entries_iff n e.1 e.2).mp mem
  generalize m.entries = es at keys inM ⊢
  generalize n.entries = fs at keys inN ⊢
  induction es generalizing fs with
  | nil =>
    cases fs with
    | nil => exact .nil
    | cons f fs => cases keys
  | cons e es ih =>
    cases fs with
    | nil => cases keys
    | cons f fs =>
      obtain ⟨first, rest⟩ := List.cons.inj keys
      refine .cons ⟨first, ?_⟩ (ih (fun x mem => inM x (List.mem_cons_of_mem _ mem)) fs rest
        fun x mem => inN x (List.mem_cons_of_mem _ mem))
      refine each e.1 e.2 f.2 (inM e List.mem_cons_self) ?_
      rw [first]
      exact inN f List.mem_cons_self

/-- Entries read through `f` depend on the lookups read through `f`. -/
theorem entries_map_eq {X : Type} {f : V → X} {g : W → X} {m : BTreeMap K V} {n : BTreeMap K W}
    (same : ∀ k, (m.get k).map f = (n.get k).map g) :
    m.entries.map (fun e => (e.1, f e.2)) = n.entries.map (fun e => (e.1, g e.2)) := by
  have some : ∀ k, (m.get k).isSome = (n.get k).isSome := by
    intro k
    rw [← Option.isSome_map, same, Option.isSome_map]
  have related := @entries_related K V W _ (fun v w => f v = g w) m n some (by
    intro k v w left right
    have here := same k
    rw [left, right] at here
    exact Option.some.inj here)
  generalize m.entries = es at related ⊢
  generalize n.entries = fs at related ⊢
  induction related with
  | nil => rfl
  | cons pair _ ih => rw [List.map_cons, List.map_cons, ih, pair.1, pair.2]

/-- Entries related pair by pair, keys alike, are related where they are looked up. -/
theorem related_get {P : K × V → K × W → Prop} {m : BTreeMap K V} {n : BTreeMap K W}
    (pairs : List.Forall₂ P m.entries n.entries) (keyed : ∀ a b, P a b → a.1 = b.1)
    {k : K} {v : V} {w : W} (left : m.get k = some v) (right : n.get k = some w) :
    P (k, v) (k, w) := by
  rw [get] at left right
  generalize m.entries = es at pairs left
  generalize n.entries = fs at pairs right
  induction pairs with
  | nil => cases left
  | @cons e f _ _ pair _ ih =>
    obtain ⟨i, x⟩ := e
    obtain ⟨j, y⟩ := f
    cases keyed _ _ pair
    rw [lookup] at left right
    split at left
    · rename_i here
      rw [if_pos here] at right
      cases left
      cases right
      rw [← here]
      exact pair
    · rename_i other
      rw [if_neg other] at right
      exact ih left right

/-- What related values add up to. -/
theorem entries_flatMap_eq {X : Type} {f : K → V → List X} {g : K → W → List X}
    {m : BTreeMap K V} {n : BTreeMap K W} (same : ∀ k, (m.get k).isSome = (n.get k).isSome)
    (each : ∀ k v w, m.get k = some v → n.get k = some w → f k v = g k w) :
    m.entries.flatMap (fun e => f e.1 e.2) = n.entries.flatMap (fun e => g e.1 e.2) := by
  have related := @entries_related K V W _ (fun v w => ∀ k, m.get k = some v →
    n.get k = some w → f k v = g k w) m n same (fun _ v w _ _ k => each k v w)
  have inM : ∀ e ∈ m.entries, m.get e.1 = some e.2 := fun e mem => (mem_entries_iff m e.1 e.2).mp mem
  have inN : ∀ e ∈ n.entries, n.get e.1 = some e.2 := fun e mem => (mem_entries_iff n e.1 e.2).mp mem
  generalize m.entries = es at related inM ⊢
  generalize n.entries = fs at related inN ⊢
  induction related with
  | nil => rfl
  | @cons e e' _ _ pair _ ih =>
    rw [List.flatMap_cons, List.flatMap_cons,
      ih (fun x mem => inM x (List.mem_cons_of_mem _ mem))
        (fun x mem => inN x (List.mem_cons_of_mem _ mem))]
    have right := inN e' List.mem_cons_self
    rw [← pair.1] at right
    rw [pair.2 e.1 (inM e List.mem_cons_self) right, pair.1]

end BTreeMap

namespace List

/-- Related elements written one after the other: if the total is not shorter,
nothing was. -/
theorem flatMap_length_related {α β γ : Type} {R : α → β → Prop} {f : α → List γ} {g : β → List γ}
    {as : List α} {bs : List β} (related : Forall₂ R as bs)
    (shorter : ∀ a b, R a b → (f a).length ≤ (g b).length) :
    (as.flatMap f).length ≤ (bs.flatMap g).length ∧
      ((as.flatMap f).length = (bs.flatMap g).length →
        Forall₂ (fun a b => R a b ∧ (f a).length = (g b).length) as bs) := by
  induction related with
  | nil => exact ⟨le_rfl, fun _ => .nil⟩
  | cons pair _ ih =>
    obtain ⟨rest, exact⟩ := ih
    have first := shorter _ _ pair
    rw [flatMap_cons, flatMap_cons, length_append, length_append]
    exact ⟨by omega, fun same => .cons ⟨pair, by omega⟩ (exact (by omega))⟩

end List

namespace BTreeMap
open OrdMap

variable {K V W : Type} [LinearOrder K]

theorem values_flatMap {X : Type} (m : BTreeMap K V) (f : V → List X) :
    m.values.flatMap f = m.entries.flatMap (fun e => f e.2) := by
  rw [values, List.flatMap_map]

theorem values_flatMap_eq {X : Type} {f : V → List X} {g : W → List X}
    {m : BTreeMap K V} {n : BTreeMap K W} (same : ∀ k, (m.get k).isSome = (n.get k).isSome)
    (each : ∀ k v w, m.get k = some v → n.get k = some w → f v = g w) :
    m.values.flatMap f = n.values.flatMap g := by
  rw [values_flatMap, values_flatMap]
  exact @entries_flatMap_eq K V W _ X (fun _ => f) (fun _ => g) m n same each

/-- Values that add up to the same length add the same lengths, if none of the
one map adds more than its counterpart. -/
theorem lengths_agree {X : Type} {f : V → List X} {g : W → List X}
    {m : BTreeMap K V} {n : BTreeMap K W} (same : ∀ k, (m.get k).isSome = (n.get k).isSome)
    (shorter : ∀ k v w, m.get k = some v → n.get k = some w → (f v).length ≤ (g w).length)
    (total : (m.entries.flatMap (fun e => f e.2)).length =
      (n.entries.flatMap (fun e => g e.2)).length)
    {k : K} {v : V} {w : W} (left : m.get k = some v) (right : n.get k = some w) :
    (f v).length = (g w).length := by
  have related := @entries_related K V W _ (fun v w => (f v).length ≤ (g w).length) m n same shorter
  have pairs := (@List.flatMap_length_related _ _ _ _ (fun e : K × V => f e.2)
    (fun e : K × W => g e.2) _ _ related (fun _ _ pair => pair.2)).2 total
  exact (related_get pairs (fun _ _ pair => pair.1.1) left right).2

/-- Values that add up alike and are alike under every other key are alike under
this one. -/
theorem last_agrees {X : Type} {f : V → List X} {g : W → List X}
    {m : BTreeMap K V} {n : BTreeMap K W} (same : ∀ k, (m.get k).isSome = (n.get k).isSome)
    {k : K} (others : ∀ j v w, j ≠ k → m.get j = some v → n.get j = some w → f v = g w)
    (total : m.entries.flatMap (fun e => f e.2) = n.entries.flatMap (fun e => g e.2))
    {v : V} {w : W} (left : m.get k = some v) (right : n.get k = some w) : f v = g w := by
  have related : List.Forall₂ (fun a b => a.1 = b.1 ∧ (a.1 ≠ k → f a.2 = g b.2))
      m.entries n.entries := by
    have pairs := @entries_related K V W _ (fun _ _ => True) m n same (fun _ _ _ _ _ => trivial)
    have inM : ∀ e ∈ m.entries, m.get e.1 = some e.2 := fun e mem => (mem_entries_iff m e.1 e.2).mp mem
    have inN : ∀ e ∈ n.entries, n.get e.1 = some e.2 := fun e mem => (mem_entries_iff n e.1 e.2).mp mem
    generalize m.entries = es at pairs inM ⊢
    generalize n.entries = fs at pairs inN ⊢
    induction pairs with
    | nil => exact .nil
    | @cons e e' _ _ pair _ ih =>
      refine .cons ⟨pair.1, fun other => ?_⟩ (ih (fun x mem => inM x (List.mem_cons_of_mem _ mem))
        (fun x mem => inN x (List.mem_cons_of_mem _ mem)))
      have found := inN e' List.mem_cons_self
      rw [← pair.1] at found
      exact others e.1 e.2 e'.2 other (inM e List.mem_cons_self) found
  have distinct : (m.entries.map Prod.fst).Nodup := m.keys_nodup
  rw [get] at left right
  generalize m.entries = es at related left total distinct
  generalize n.entries = fs at related right total
  induction related with
  | nil => cases left
  | @cons e e' es fs pair rest ih =>
    obtain ⟨i, x⟩ := e
    obtain ⟨j, y⟩ := e'
    cases pair.1
    obtain ⟨fresh, apart⟩ := List.nodup_cons.mp distinct
    rw [List.flatMap_cons, List.flatMap_cons] at total
    rw [lookup] at left right
    split at left
    · rename_i here
      rw [if_pos here] at right
      cases left
      cases right
      have tail : es.flatMap (fun e => f e.2) = fs.flatMap (fun e => g e.2) := by
        clear ih total distinct apart
        dsimp only at here fresh
        rw [here] at fresh
        induction rest with
        | nil => rfl
        | @cons a b _ _ pair _ ih =>
          rw [List.map_cons, List.mem_cons, not_or] at fresh
          rw [List.flatMap_cons, List.flatMap_cons, pair.2 (Ne.symm fresh.1), ih fresh.2]
      rw [tail, List.append_cancel_right_eq] at total
      exact total
    · rename_i other
      rw [if_neg other] at right
      dsimp only at total
      rw [pair.2 other, List.append_cancel_left_eq] at total
      exact ih left apart right total

end BTreeMap
