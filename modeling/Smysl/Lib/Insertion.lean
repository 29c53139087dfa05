import Mathlib

/-!
Closing a list under what its members need, by insertion: what is missing is put
immediately before the first member that needs it, until nothing is. What was put in
comes before all that need it; what was there keeps its order, so the whole is in order
when nothing there leads, through what was not, to something at or after its own place.
-/
namespace Insertion

/-! One member before another. -/

section
variable {K : Type} {l m : List K} {a b c : K}

def Before (l : List K) (a b : K) : Prop := [a, b].Sublist l

theorem Before.mono (before : Before l a b) (part : l.Sublist m) : Before m a b :=
  before.trans part

theorem Before.mem_left (before : Before l a b) : a ∈ l := before.subset List.mem_cons_self

theorem Before.mem_right (before : Before l a b) : b ∈ l :=
  before.subset (List.mem_cons_of_mem _ (List.mem_singleton_self b))

theorem before_cons_iff : Before (c :: l) a b ↔ a = c ∧ b ∈ l ∨ Before l a b := by
  rw [Before, Before, List.sublist_cons_iff]
  constructor
  · rintro (later | ⟨r, same, rest⟩)
    · exact Or.inr later
    · obtain ⟨rfl, rfl⟩ := List.cons.inj same
      exact Or.inl ⟨rfl, List.singleton_sublist.mp rest⟩
  · rintro (⟨rfl, mem⟩ | later)
    · exact Or.inr ⟨[b], rfl, List.singleton_sublist.mpr mem⟩
    · exact Or.inl later

theorem Before.trans' (nodup : l.Nodup) (ab : Before l a b) (bc : Before l b c) :
    Before l a c := by
  induction l with
  | nil => exact absurd ab.mem_left List.not_mem_nil
  | cons d l ih =>
    obtain ⟨fresh, nodup⟩ := List.nodup_cons.mp nodup
    rw [before_cons_iff] at ab bc ⊢
    rcases bc with ⟨rfl, mem⟩ | bc
    · rcases ab with ⟨_, mem'⟩ | ab
      · exact absurd mem' fresh
      · exact absurd ab.mem_right fresh
    · rcases ab with ⟨rfl, _⟩ | ab
      · exact Or.inl ⟨rfl, bc.mem_right⟩
      · exact Or.inr (ih nodup ab bc)

theorem not_before_self (nodup : l.Nodup) : ¬ Before l a a := by
  intro before
  have distinct := nodup.sublist before
  rw [List.nodup_cons] at distinct
  exact distinct.1 (List.mem_singleton_self a)

theorem before_or (memA : a ∈ l) (memB : b ∈ l) (other : a ≠ b) : Before l a b ∨ Before l b a := by
  induction l with
  | nil => cases memA
  | cons d l ih =>
    rw [before_cons_iff, before_cons_iff]
    rcases List.mem_cons.mp memA with sameA | inA
    · rcases List.mem_cons.mp memB with sameB | inB
      · exact absurd (sameA.trans sameB.symm) other
      · exact Or.inl (Or.inl ⟨sameA, inB⟩)
    · rcases List.mem_cons.mp memB with sameB | inB
      · exact Or.inr (Or.inl ⟨sameB, inA⟩)
      · exact (ih inA inB).imp Or.inr Or.inr

theorem before_filter (p : K → Bool) (before : Before l a b) (goodA : p a = true)
    (goodB : p b = true) : Before (l.filter p) a b := by
  have kept := before.filter p
  rw [List.filter_cons_of_pos goodA, List.filter_cons_of_pos goodB, List.filter_nil] at kept
  exact kept

theorem Before.asymm (nodup : l.Nodup) (before : Before l a b) : ¬ Before l b a :=
  fun back => not_before_self nodup (before.trans' nodup back)

theorem before_append_of_mem {pre post : List K} (memA : a ∈ pre) (memB : b ∈ post) :
    Before (pre ++ post) a b :=
  (List.singleton_sublist.mpr memA).append (List.singleton_sublist.mpr memB)

/-- What comes after a member that is there once is in what follows it. -/
theorem after_split {pre post : List K} (nodup : (pre ++ a :: post).Nodup)
    (before : Before (pre ++ a :: post) a b) : b ∈ post := by
  induction pre with
  | nil =>
    rcases before_cons_iff.mp before with ⟨_, mem⟩ | later
    · exact mem
    · exact absurd later.mem_left (List.nodup_cons.mp nodup).1
  | cons d pre ih =>
    obtain ⟨fresh, nodup⟩ := List.nodup_cons.mp nodup
    rcases before_cons_iff.mp before with ⟨rfl, _⟩ | later
    · exact absurd (List.mem_append_right _ List.mem_cons_self) fresh
    · exact ih nodup later

/-! Putting one more in. -/

section
variable {pre post : List K} {d : K}

theorem before_insert (fresh : d ∉ pre ++ post) (otherA : a ≠ d) (otherB : b ≠ d) :
    Before (pre ++ d :: post) a b ↔ Before (pre ++ post) a b := by
  classical
  have dropped : (pre ++ d :: post).filter (fun k => decide (k ≠ d)) = pre ++ post := by
    rw [List.filter_append, List.filter_cons_of_neg (by simp), ← List.filter_append]
    exact List.filter_eq_self.mpr fun k mem => decide_eq_true (ne_of_mem_of_not_mem mem fresh)
  constructor
  · intro before
    rw [← dropped]
    exact before_filter _ before (decide_eq_true otherA) (decide_eq_true otherB)
  · exact fun before => before.mono ((List.sublist_cons_self d post).append_left pre)

theorem inserted_before (mem : a ∈ post) : Before (pre ++ d :: post) d a :=
  (before_cons_iff.mpr (Or.inl ⟨rfl, mem⟩)).mono (List.sublist_append_right _ _)

theorem first_or_after (mem : a ∈ d :: post) : a = d ∨ Before (pre ++ d :: post) d a :=
  (List.mem_cons.mp mem).imp_right inserted_before

theorem mem_insert_iff : a ∈ pre ++ d :: post ↔ a = d ∨ a ∈ pre ++ post := by
  rw [List.mem_append, List.mem_append, List.mem_cons]
  tauto

theorem insert_nodup (nodup : (pre ++ post).Nodup) (fresh : d ∉ pre ++ post) :
    (pre ++ d :: post).Nodup :=
  List.nodup_middle.mpr (List.nodup_cons.mpr ⟨fresh, nodup⟩)

end
end

/-! The rounds. -/

section
variable {α K : Type} [DecidableEq K] (key : α → K) (needs : K → List K) (fill : α → K → α)

/-- The first member that needs something missing: what is before it, what is missing, the
member, and what follows. -/
def gap (present : List K) : List α → Option (List α × K × α × List α)
  | [] => none
  | x :: xs =>
    match (needs (key x)).find? (fun d => !present.contains d) with
    | some d => some ([], d, x, xs)
    | none => (gap present xs).map (fun g => (x :: g.1, g.2))

/-- Insert what is first missing, and say what needed it. -/
def round (xs : List α) : Option (List α × K × K) :=
  (gap key needs (xs.map key) xs).map (fun g =>
    (g.1 ++ fill g.2.2.1 g.2.1 :: g.2.2.1 :: g.2.2.2, g.2.1, key g.2.2.1))

def close : Nat → List α × List (K × K) → List α × List (K × K)
  | 0, state => state
  | rounds + 1, state =>
    match round key needs fill state.1 with
    | none => state
    | some (xs, d, by_) => close rounds (xs, state.2 ++ [(d, by_)])

/-- Whether all that a member needs is there. -/
def Complete (present : List K) (k : K) : Prop := ∀ d ∈ needs k, d ∈ present

variable {key needs fill} {present : List K} {xs : List α}

theorem complete_iff {k : K} : Complete needs present k ↔
    (needs k).find? (fun d => !present.contains d) = none := by
  rw [List.find?_eq_none, Complete]
  refine forall₂_congr fun d _ => ?_
  rw [Bool.not_eq_true', Bool.not_eq_false, List.contains_iff_mem]

theorem gap_none (none_ : gap key needs present xs = none) :
    ∀ x ∈ xs, Complete needs present (key x) := by
  induction xs with
  | nil => exact fun x mem => nomatch mem
  | cons x xs ih =>
    rw [gap] at none_
    cases found : (needs (key x)).find? (fun d => !present.contains d) with
    | some d =>
      rw [found] at none_
      cases none_
    | none =>
      rw [found] at none_
      rw [List.forall_mem_cons]
      exact ⟨complete_iff.mpr found, ih (Option.map_eq_none_iff.mp none_)⟩

theorem gap_some {pre post : List α} {d : K} {x : α}
    (some_ : gap key needs present xs = some (pre, d, x, post)) :
    xs = pre ++ x :: post ∧ (∀ y ∈ pre, Complete needs present (key y)) ∧
      d ∈ needs (key x) ∧ d ∉ present := by
  induction xs generalizing pre with
  | nil => cases some_
  | cons y xs ih =>
    rw [gap] at some_
    cases found : (needs (key y)).find? (fun d => !present.contains d) with
    | some e =>
      rw [found] at some_
      cases some_
      have absent := List.find?_some found
      rw [Bool.not_eq_true', ← Bool.not_eq_true, List.contains_iff_mem] at absent
      exact ⟨rfl, fun _ mem => (nomatch mem), List.mem_of_find?_eq_some found, absent⟩
    | none =>
      rw [found] at some_
      obtain ⟨⟨pre', rest⟩, inner, same⟩ := Option.map_eq_some_iff.mp some_
      obtain ⟨rfl, rfl⟩ := Prod.mk.inj same
      obtain ⟨split, complete, missing⟩ := ih inner
      refine ⟨congrArg (y :: ·) split, ?_, missing⟩
      rw [List.forall_mem_cons]
      exact ⟨complete_iff.mpr found, complete⟩

/-- What one round does. -/
theorem round_cases {ys : List α} {d by_ : K} (done : round key needs fill xs = some (ys, d, by_)) :
    ∃ pre x post, xs = pre ++ x :: post ∧ ys = pre ++ fill x d :: x :: post ∧ by_ = key x ∧
      (∀ y ∈ pre, Complete needs (xs.map key) (key y)) ∧ d ∈ needs (key x) ∧ d ∉ xs.map key := by
  obtain ⟨⟨pre, e, x, post⟩, found, same⟩ := Option.map_eq_some_iff.mp done
  cases same
  obtain ⟨split, complete, needed, absent⟩ := gap_some found
  exact ⟨pre, x, post, split, rfl, rfl, complete, needed, absent⟩

theorem round_none (none_ : round key needs fill xs = none) :
    ∀ k ∈ xs.map key, Complete needs (xs.map key) k := by
  intro k mem
  obtain ⟨x, held, rfl⟩ := List.mem_map.mp mem
  exact gap_none (Option.map_eq_none_iff.mp none_) x held

end

/-! What the rounds keep. -/

section
variable {K : Type} {needs : K → List K}

/-- Needing something, then something that needs, and so on, by way of what `given` has not. -/
def Through (needs : K → List K) (given : List K) : K → K → Prop :=
  Relation.ReflTransGen (fun a b => b ∈ needs a ∧ b ∉ given)

/-- A given one needs another, or something not given that leads to it. -/
def Leads (needs : K → List K) (given : List K) (x y : K) : Prop :=
  ∃ u, Through needs given x u ∧ y ∈ needs u

/-- No chain of needs comes back to where it began. -/
def Acyclic (needs : K → List K) : Prop :=
  ∀ k, ¬ Relation.TransGen (fun a b => b ∈ needs a) k k

theorem acyclic_of_rank (rank : K → ℕ) (less : ∀ a, ∀ b ∈ needs a, rank b < rank a) :
    Acyclic needs := by
  intro k cycle
  have falls : ∀ a b, Relation.TransGen (fun a b => b ∈ needs a) a b → rank b < rank a := by
    intro a b path
    induction path with
    | single link => exact less _ _ link
    | tail _ link ih => exact (less _ _ link).trans ih
  exact lt_irrefl _ (falls k k cycle)

/-- The first with something missing, and what is missing. -/
structure Missing (needs : K → List K) (pre : List K) (w : K) (post : List K) (d : K) : Prop where
  nodup : (pre ++ w :: post).Nodup
  complete : ∀ k ∈ pre, Complete needs (pre ++ w :: post) k
  needed : d ∈ needs w
  fresh : d ∉ pre ++ w :: post

namespace Missing
variable {pre post : List K} {w d a b : K} (self : Missing needs pre w post d)
include self

theorem incomplete : ¬ Complete needs (pre ++ w :: post) w :=
  fun all => self.fresh (all d self.needed)

theorem other (mem : a ∈ pre ++ w :: post) : a ≠ d := ne_of_mem_of_not_mem mem self.fresh

theorem behind (before : Before (pre ++ d :: w :: post) d a) : a ∈ w :: post :=
  after_split (insert_nodup self.nodup self.fresh) before

theorem old (memA : a ∈ pre ++ w :: post) (memB : b ∈ pre ++ w :: post) :
    Before (pre ++ d :: w :: post) a b ↔ Before (pre ++ w :: post) a b :=
  before_insert self.fresh (self.other memA) (self.other memB)

/-- What was incomplete still is only if it is what needed something or comes after it. -/
theorem after (mem : a ∈ pre ++ w :: post)
    (still : ¬ Complete needs (pre ++ d :: w :: post) a) :
    ¬ Complete needs (pre ++ w :: post) a ∧ a ∈ w :: post := by
  have before : ¬ Complete needs (pre ++ w :: post) a :=
    fun all => still fun e mem => mem_insert_iff.mpr (Or.inr (all e mem))
  exact ⟨before, (List.mem_append.mp mem).resolve_left fun early => before (self.complete a early)⟩

end Missing

/-- What was given, with what was added before the first that needed it. -/
structure Repaired [DecidableEq K] (needs : K → List K) (given ks added : List K) : Prop where
  nodup : ks.Nodup
  kept : ks.filter (fun k => !added.contains k) = given
  within : ∀ d ∈ added, d ∈ ks
  ordered : ∀ d ∈ added, ∀ y ∈ ks, d ∈ needs y → Before ks d y
  chained : ∀ y ∈ ks, ¬ Complete needs ks y → ∀ e ∈ added, e = y ∨ Before ks y e →
    Relation.ReflTransGen (fun a b => b ∈ needs a) e y
  serves : ∀ u ∈ added, ∃ x ∈ given, Before ks u x ∧ Through needs given x u ∧
    ∀ y ∈ given, Before ks u y → y = x ∨ Before ks x y

namespace Repaired
variable [DecidableEq K] {given ks added pre post : List K} {w d a b : K}

theorem start (nodup : given.Nodup) : Repaired needs given given [] where
  nodup := nodup
  kept := List.filter_eq_self.mpr fun _ _ => rfl
  within := fun _ mem => nomatch mem
  ordered := fun _ mem => nomatch mem
  chained := fun _ _ _ _ mem => nomatch mem
  serves := fun _ mem => nomatch mem

theorem mem_given (self : Repaired needs given ks added) :
    a ∈ given ↔ a ∈ ks ∧ a ∉ added := by
  rw [← self.kept, List.mem_filter, Bool.not_eq_true', ← Bool.not_eq_true, List.contains_iff_mem]

theorem given_sublist (self : Repaired needs given ks added) : given.Sublist ks := by
  rw [← self.kept]
  exact List.filter_sublist

/-- One given before another is so among the given alone. -/
theorem before_given (self : Repaired needs given ks added) (memA : a ∈ given) (memB : b ∈ given) :
    Before given a b ↔ Before ks a b := by
  constructor
  · exact fun before => before.mono self.given_sublist
  · intro before
    rcases eq_or_ne a b with rfl | other
    · exact absurd before (not_before_self self.nodup)
    · refine (before_or memA memB other).resolve_right fun back => ?_
      exact before.asymm self.nodup (back.mono self.given_sublist)

section
variable (self : Repaired needs given (pre ++ w :: post) added)
  (missing : Missing needs pre w post d)
include self missing

theorem not_added : d ∉ added := fun mem => missing.fresh (self.within d mem)

theorem not_given : d ∉ given := fun mem => missing.fresh (self.mem_given.mp mem).1

/-- What was added and is not yet passed rests on what is to be added. -/
theorem rests (held : a ∈ added) (mem : a ∈ w :: post) :
    Relation.TransGen (fun a b => b ∈ needs a) a d := by
  have reaches := self.chained w (List.mem_append_right _ List.mem_cons_self) missing.incomplete a
    held (first_or_after mem)
  exact Relation.TransGen.tail' reaches missing.needed

theorem ordered_step (acyclic : Acyclic needs) : ∀ e ∈ added ++ [d],
    ∀ y ∈ pre ++ d :: w :: post, e ∈ needs y → Before (pre ++ d :: w :: post) e y := by
  intro e held y mem rest
  rcases List.mem_append.mp held with held | same
  · have inside := self.within e held
    rcases mem_insert_iff.mp mem with same | mem
    · rw [same] at rest ⊢
      rcases List.mem_append.mp inside with early | late
      · exact before_append_of_mem early List.mem_cons_self
      · have back := self.rests missing held late
        exact absurd (back.tail rest) (acyclic e)
    · exact (missing.old inside mem).mpr (self.ordered e held y mem rest)
  · obtain rfl := List.mem_singleton.mp same
    rcases mem_insert_iff.mp mem with rfl | mem
    · exact absurd (Relation.TransGen.single rest) (acyclic y)
    · refine inserted_before ((List.mem_append.mp mem).resolve_left fun early => ?_)
      exact missing.fresh (missing.complete y early e rest)

theorem chained_step : ∀ y ∈ pre ++ d :: w :: post,
    ¬ Complete needs (pre ++ d :: w :: post) y → ∀ e ∈ added ++ [d],
      e = y ∨ Before (pre ++ d :: w :: post) y e →
        Relation.ReflTransGen (fun a b => b ∈ needs a) e y := by
  intro y mem still e held after
  rcases mem_insert_iff.mp mem with last | mem
  · rcases List.mem_append.mp held with held | same
    · rcases after with rfl | before
      · exact Relation.ReflTransGen.refl
      · rw [last] at before ⊢
        exact (self.rests missing held (missing.behind before)).to_reflTransGen
    · rw [List.mem_singleton.mp same, last]
  · obtain ⟨incomplete, late⟩ := missing.after mem still
    rcases List.mem_append.mp held with held | same
    · have inside := self.within e held
      exact self.chained y mem incomplete e held
        (after.imp_right (missing.old mem inside).mp)
    · obtain rfl := List.mem_singleton.mp same
      rcases after with rfl | before
      · exact Relation.ReflTransGen.refl
      · exact absurd (inserted_before late) (before.asymm (insert_nodup missing.nodup missing.fresh))

theorem serves_step : ∀ u ∈ added ++ [d], ∃ x ∈ given,
    Before (pre ++ d :: w :: post) u x ∧ Through needs given x u ∧
      ∀ y ∈ given, Before (pre ++ d :: w :: post) u y →
        y = x ∨ Before (pre ++ d :: w :: post) x y := by
  intro u held
  have inside : ∀ {y}, y ∈ given → y ∈ pre ++ w :: post := fun mem => (self.mem_given.mp mem).1
  rcases List.mem_append.mp held with held | same
  · obtain ⟨x, mem, before, through, next⟩ := self.serves u held
    have here := self.within u held
    refine ⟨x, mem, (missing.old here (inside mem)).mpr before, through, fun y other later => ?_⟩
    exact (next y other ((missing.old here (inside other)).mp later)).imp_right
      (missing.old (inside mem) (inside other)).mpr
  · obtain rfl := List.mem_singleton.mp same
    have needy : w ∈ pre ++ w :: post := List.mem_append_right _ List.mem_cons_self
    have link : w ∈ given ∨ w ∈ added := by
      by_cases there : w ∈ added
      · exact Or.inr there
      · exact Or.inl (self.mem_given.mpr ⟨needy, there⟩)
    have step : u ∈ needs w ∧ u ∉ given := ⟨missing.needed, self.not_given missing⟩
    rcases link with given' | added'
    · refine ⟨w, given', inserted_before List.mem_cons_self, .single step, fun y other later => ?_⟩
      exact (first_or_after (missing.behind later)).imp_right
        (missing.old needy (inside other)).mpr
    · obtain ⟨x, mem, before, through, next⟩ := self.serves w added'
      refine ⟨x, mem, ?_, through.tail step, fun y other later => ?_⟩
      · exact (inserted_before List.mem_cons_self).trans' (insert_nodup missing.nodup missing.fresh)
          ((missing.old needy (inside mem)).mpr before)
      · have after : Before (pre ++ w :: post) w y :=
          (first_or_after (missing.behind later)).resolve_left fun same =>
            (self.mem_given.mp other).2 (same ▸ added')
        exact (next y other after).imp_right (missing.old (inside mem) (inside other)).mpr

/-- One round. -/
theorem step (acyclic : Acyclic needs) :
    Repaired needs given (pre ++ d :: w :: post) (added ++ [d]) where
  nodup := insert_nodup missing.nodup missing.fresh
  kept := by
    rw [← self.kept, List.filter_append, List.filter_cons_of_neg (by simp), ← List.filter_append]
    refine List.filter_congr fun k mem => ?_
    rw [List.contains_append, List.contains_cons, beq_false_of_ne (missing.other mem),
      List.contains_nil, Bool.or_false, Bool.or_false]
  within := by
    intro e held
    rcases List.mem_append.mp held with held | same
    · exact mem_insert_iff.mpr (Or.inr (self.within e held))
    · rw [List.mem_singleton.mp same]
      exact List.mem_append_right _ List.mem_cons_self
  ordered := self.ordered_step missing acyclic
  chained := self.chained_step missing
  serves := self.serves_step missing

end

/-- Once nothing is missing, everything comes after what it needs if and only if the given
that lead to others already came after them. -/
theorem ordered_iff (self : Repaired needs given ks added) (whole : ∀ k ∈ ks, Complete needs ks k) :
    (∀ y ∈ ks, ∀ d ∈ needs y, Before ks d y) ↔
      ∀ x ∈ given, ∀ y ∈ given, Leads needs given x y → Before given y x := by
  constructor
  · intro all x memX y memY leads
    obtain ⟨u, through, needed⟩ := leads
    have insideX := (self.mem_given.mp memX).1
    have reached : u ∈ ks ∧ (u = x ∨ Before ks u x) := by
      clear needed
      induction through with
      | refl => exact ⟨insideX, Or.inl rfl⟩
      | @tail b c _ link ih =>
        obtain ⟨mem, upto⟩ := ih
        have before := all b mem c link.1
        refine ⟨whole b mem c link.1, Or.inr ?_⟩
        rcases upto with rfl | upto
        · exact before
        · exact before.trans' self.nodup upto
    have before := all u reached.1 y needed
    rw [self.before_given memY memX]
    rcases reached.2 with rfl | upto
    · exact before
    · exact before.trans' self.nodup upto
  · intro all y memY d needed
    have memD := whole y memY d needed
    by_cases put : d ∈ added
    · exact self.ordered d put y memY needed
    have givenD : d ∈ given := self.mem_given.mpr ⟨memD, put⟩
    by_cases late : y ∈ added
    · obtain ⟨x, memX, _, through, next⟩ := self.serves y late
      have before := all x memX d givenD ⟨y, through, needed⟩
      rw [self.before_given givenD memX] at before
      have other : d ≠ y := fun same => put (same ▸ late)
      refine (before_or memD memY other).resolve_right fun back => ?_
      rcases next d givenD back with rfl | later
      · exact not_before_self self.nodup before
      · exact before.asymm self.nodup later
    · have givenY : y ∈ given := self.mem_given.mpr ⟨memY, late⟩
      exact (self.before_given givenD givenY).mp
        (all y givenY d givenD ⟨y, .refl, needed⟩)

end Repaired
end

/-! The run. -/

section
variable {α K : Type} [DecidableEq K] {key : α → K} {needs : K → List K} {fill : α → K → α}
  {given : List α}

/-- The state of a run: what is in it, without what was logged as added, is what was given. -/
structure Holds (key : α → K) (needs : K → List K) (given : List α)
    (state : List α × List (K × K)) : Prop where
  keys : Repaired needs (given.map key) (state.1.map key) (state.2.map Prod.fst)
  kept : state.1.filter (fun x => !(state.2.map Prod.fst).contains (key x)) = given

theorem Holds.round {xs ys : List α} {log : List (K × K)} {d by_ : K}
    (self : Holds key needs given (xs, log)) (acyclic : Acyclic needs)
    (named : ∀ x d, key (fill x d) = d) (done : round key needs fill xs = some (ys, d, by_)) :
    Holds key needs given (ys, log ++ [(d, by_)]) := by
  obtain ⟨pre, w, post, rfl, rfl, rfl, complete, needed, fresh⟩ := round_cases done
  obtain ⟨keys, kept⟩ := self
  dsimp only at keys kept
  rw [List.map_append, List.map_cons] at keys complete fresh
  have missing : Missing needs (pre.map key) (key w) (post.map key) d := by
    refine ⟨keys.nodup, fun k mem => ?_, needed, fresh⟩
    obtain ⟨y, held, rfl⟩ := List.mem_map.mp mem
    exact complete y held
  have other : ∀ x ∈ pre ++ w :: post, key x ≠ d := fun x mem => missing.other (by
    rw [← List.map_cons, ← List.map_append]
    exact List.mem_map_of_mem mem)
  constructor
  · dsimp only
    rw [List.map_append, List.map_append, List.map_cons, List.map_cons, named]
    exact keys.step missing acyclic
  · dsimp only
    rw [List.map_append, ← kept, List.filter_append, List.filter_cons_of_neg (by simp [named]),
      ← List.filter_append]
    refine List.filter_congr fun x mem => ?_
    rw [List.contains_append, List.map_singleton, List.contains_cons,
      beq_false_of_ne (other x mem), List.contains_nil, Bool.or_false, Bool.or_false]

theorem Holds.close {state : List α × List (K × K)} (self : Holds key needs given state)
    (acyclic : Acyclic needs) (named : ∀ x d, key (fill x d) = d) (rounds : ℕ) :
    Holds key needs given (close key needs fill rounds state) := by
  induction rounds generalizing state with
  | zero => exact self
  | succ rounds ih =>
    rw [Insertion.close]
    split
    · exact self
    · rename_i done
      exact ih (self.round acyclic named done)

/-- What is not in there, of all there is to need. -/
def lacking (key : α → K) (all : List K) (xs : List α) : List K :=
  all.filter (fun k => !(xs.map key).contains k)

theorem round_lacking {all : List K} (known : ∀ k, ∀ d ∈ needs k, d ∈ all)
    (named : ∀ x d, key (fill x d) = d) {xs ys : List α} {d by_ : K}
    (done : round key needs fill xs = some (ys, d, by_)) :
    (lacking key all ys).length < (lacking key all xs).length := by
  obtain ⟨pre, w, post, rfl, rfl, rfl, _, needed, fresh⟩ := round_cases done
  have less : lacking key all (pre ++ fill w d :: w :: post) =
      (lacking key all (pre ++ w :: post)).filter (fun k => !(k == d)) := by
    rw [lacking, lacking, List.filter_filter]
    refine List.filter_congr fun k _ => ?_
    rw [List.map_append, List.map_append, List.map_cons, List.map_cons, named,
      List.contains_append, List.contains_cons, List.contains_append]
    cases k == d <;> simp
  rw [less]
  refine List.length_filter_lt_length_iff_exists.mpr ⟨d, ?_, by simp⟩
  refine List.mem_filter.mpr ⟨known (key w) d needed, ?_⟩
  rw [Bool.not_eq_true', ← Bool.not_eq_true, List.contains_iff_mem]
  exact fresh

/-- As many rounds as there is anything to need are enough. -/
theorem close_done {all : List K} (known : ∀ k, ∀ d ∈ needs k, d ∈ all)
    (named : ∀ x d, key (fill x d) = d) {rounds : ℕ} {state : List α × List (K × K)}
    (enough : (lacking key all state.1).length ≤ rounds) :
    Insertion.round key needs fill (close key needs fill rounds state).1 = none := by
  induction rounds generalizing state with
  | zero =>
    rw [Insertion.close]
    by_contra more
    obtain ⟨⟨ys, d, by_⟩, done⟩ := Option.ne_none_iff_exists'.mp more
    exact absurd (round_lacking known named done) (by omega)
  | succ rounds ih =>
    rw [Insertion.close]
    split
    · assumption
    · rename_i done
      have less := round_lacking known named done
      exact ih (by dsimp only; omega)

end

end Insertion
