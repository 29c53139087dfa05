import Smysl.Surface.Resolve

/-!
The walk that resolves units always returns, and what it returns solves the equations
of the document: each unit's uid is that of its core over the uids its references name.
-/
open Relation

namespace Smysl

section
variable (n : Nat)

/-- How many units the walk is not in the middle of. -/
def untouched (visiting : Nat → Bool) : Nat :=
  ((Finset.range n).filter (fun j => visiting j = false)).card

theorem untouched_mark {visiting : Nat → Bool} {i : Nat} (inside : i < n)
    (free : visiting i = false) :
    untouched n (Function.update visiting i true) + 1 = untouched n visiting := by
  have erased : (Finset.range n).filter (fun j => Function.update visiting i true j = false) =
      ((Finset.range n).filter (fun j => visiting j = false)).erase i := by
    apply Finset.ext
    intro j
    rw [Finset.mem_erase, Finset.mem_filter, Finset.mem_filter]
    by_cases same : j = i
    · subst same
      simp
    · rw [Function.update_of_ne same]
      simp [same]
  have held : i ∈ (Finset.range n).filter (fun j => visiting j = false) :=
    Finset.mem_filter.mpr ⟨Finset.mem_range.mpr inside, free⟩
  rw [untouched, untouched, erased]
  exact Finset.card_erase_add_one held

theorem untouched_le (visiting : Nat → Bool) : untouched n visiting ≤ n := by
  have most := Finset.card_filter_le (Finset.range n) (fun j => visiting j = false)
  rwa [Finset.card_range] at most

end

variable {index : BTreeMap Label Nat} {inner : Nat → Resolving → Option (Option Uid × Resolving)}

/-- A list of references is gone through where each unit it names is resolved. -/
theorem reference_set_returns {n : Nat} {visiting : Nat → Bool}
    (inside : ∀ l j, index.get l = some j → j < n)
    (each : ∀ j st, j < n → st.visiting = visiting →
      ∃ r st', inner j st = some (r, st') ∧ st'.visiting = visiting)
    (refs : List Ref) (st : Resolving) (out : BTreeSet Uid) (here : st.visiting = visiting) :
    ∃ s st', referenceSet index inner refs st out = some (s, st') ∧ st'.visiting = visiting := by
  induction refs generalizing st out with
  | nil => exact ⟨out, st, rfl, here⟩
  | cons r refs ih =>
    cases r with
    | uid u => exact ih st (out.insert u) here
    | label l =>
      rw [referenceSet]
      cases found : index.get l with
      | none => exact ih st out here
      | some j =>
        obtain ⟨r, st', run, same⟩ := each j st (inside l j found) here
        dsimp only
        rw [run]
        cases r with
        | none => exact ih st' out same
        | some u => exact ih st' (out.insert u) same

section
variable [Unicode] [Blake3] {units : List RawUnit}

/-- The walk returns wherever it has a level for each unit it is not in the middle of,
and leaves what it is in the middle of as it was. -/
theorem resolve_returns (inside : ∀ l j, index.get l = some j → j < units.length)
    (levels i : Nat) (st : Resolving) (here : i < units.length)
    (enough : untouched units.length st.visiting < levels) :
    ∃ r st', resolve units index levels i st = some (r, st') ∧ st'.visiting = st.visiting := by
  induction levels generalizing i st with
  | zero => omega
  | succ levels ih =>
    rw [resolve]
    cases done : st.resolved i with
    | some u => exact ⟨some u, st, rfl, rfl⟩
    | none =>
      dsimp only
      by_cases busy : st.visiting i = true
      · rw [if_pos busy]
        exact ⟨none, st, rfl, rfl⟩
      · rw [if_neg busy]
        have free : st.visiting i = false := Bool.eq_false_iff.mpr busy
        have fewer := untouched_mark units.length here free
        have each : ∀ j st', j < units.length →
            st'.visiting = Function.update st.visiting i true →
            ∃ r st'', resolve units index levels j st' = some (r, st'') ∧
              st''.visiting = Function.update st.visiting i true := by
          intro j st' below same
          obtain ⟨r, st'', run, kept⟩ := ih j st' below (by rw [same]; omega)
          exact ⟨r, st'', run, kept.trans same⟩
        have back : Function.update (Function.update st.visiting i true) i false =
            st.visiting := by
          rw [Function.update_idem, ← free, Function.update_eq_self]
        obtain ⟨deps, st₁, run₁, same₁⟩ := reference_set_returns inside each
          (units[i]).deps (st.mark i true) ∅ rfl
        obtain ⟨grounds, st₂, run₂, same₂⟩ := reference_set_returns inside each
          (units[i]).grounds st₁ ∅ same₁
        rw [List.getElem?_eq_getElem here, Option.bind_some, run₁, Option.bind_some, run₂,
          Option.bind_some]
        split
        · refine ⟨_, _, rfl, ?_⟩
          rw [Resolving.keep_visiting, Resolving.mark_visiting, same₂, back]
        · refine ⟨_, _, rfl, ?_⟩
          rw [Resolving.mark_visiting, same₂, back]

/-! What the units of a document come to, as equations. -/

/-- The uid a reference names where each label names a uid. -/
def Ref.under (env : Label → Option Uid) : Ref → Option Uid
  | .uid u => some u
  | .label l => env l

/-- A unit's core where each label names a uid, if it builds. -/
def RawUnit.build (env : Label → Option Uid) (u : RawUnit) : Option UnitCore :=
  (UnitCore.new (u.builder (BTreeSet.ofList (u.deps.filterMap (Ref.under env)))
    (BTreeSet.ofList (u.grounds.filterMap (Ref.under env))))).toOption

variable (units) in
/-- Each label names the uid of its unit's core over what the labels name; one whose unit
has no core, or that is given to no unit, names nothing. -/
structure Substitutes (env : Label → Option Uid) : Prop where
  labelled : ∀ u ∈ units, ∀ l, u.label = some l → env l = (u.build env).map canonicalUid
  declared : ∀ l, (∀ u ∈ units, u.label ≠ some l) → env l = none

omit [Unicode] [Blake3] in
variable (units) in
/-- No two units have the same label. -/
def DistinctLabels : Prop := (units.filterMap RawUnit.label).Nodup

omit [Unicode] [Blake3] in
variable (units) in
/-- A unit labelled `l` references `l'`. -/
def NamesLabel (l l' : Label) : Prop :=
  ∃ u ∈ units, u.label = some l ∧ (Ref.label l' ∈ u.deps ∨ Ref.label l' ∈ u.grounds)

omit [Unicode] [Blake3] in
variable (units) in
/-- No label is reached from itself through references. -/
def AcyclicLabels : Prop := ∀ l, ¬ TransGen (NamesLabel units) l l

variable (units) in
/-- What is resolved is what the equations give. -/
def Good (env : Label → Option Uid) (st : Resolving) : Prop :=
  ∀ (j : Nat) (u : RawUnit), units[j]? = some u → (st.resolved j = none ∧ st.cores j = none) ∨
    ∃ core, u.build env = some core ∧ st.resolved j = some (canonicalUid core) ∧
      st.cores j = some core

/-- What was resolved still is. -/
def Extends (st st' : Resolving) : Prop :=
  ∀ j, (st.resolved j).isSome = true → (st'.resolved j).isSome = true

variable {env : Label → Option Uid}

theorem reference_set_good {visiting : Nat → Bool} {refs : List Ref}
    (each : ∀ l j, Ref.label l ∈ refs → index.get l = some j → ∀ st r st', Good units env st →
      st.visiting = visiting → inner j st = some (r, st') →
        r = env l ∧ Good units env st' ∧ st'.visiting = visiting ∧ Extends st st')
    (missing : ∀ l, index.get l = none → env l = none) {st st' : Resolving}
    {out s : BTreeSet Uid} (good : Good units env st) (here : st.visiting = visiting)
    (run : referenceSet index inner refs st out = some (s, st')) :
    s = out.extend (refs.filterMap (Ref.under env)) ∧ Good units env st' ∧
      st'.visiting = visiting ∧ Extends st st' := by
  induction refs generalizing st out with
  | nil =>
    cases run
    exact ⟨rfl, good, here, fun _ held => held⟩
  | cons r refs ih =>
    have later := @ih fun l j mem => each l j (List.mem_cons_of_mem r mem)
    cases r with
    | uid u => exact later good here run
    | label l =>
      rw [referenceSet] at run
      cases found : index.get l with
      | none =>
        rw [found] at run
        have absent : (Ref.label l).under env = none := missing l found
        rw [List.filterMap_cons_none absent]
        exact later good here run
      | some j =>
        rw [found] at run
        dsimp only at run
        cases first : inner j st with
        | none =>
          rw [first] at run
          cases run
        | some result =>
          obtain ⟨r, st₁⟩ := result
          obtain ⟨value, good₁, here₁, grows⟩ :=
            each l j List.mem_cons_self found st r st₁ good here first
          rw [first] at run
          cases r with
          | none =>
            obtain ⟨set, good₂, here₂, grows₂⟩ := later good₁ here₁ run
            have absent : (Ref.label l).under env = none := value.symm
            rw [List.filterMap_cons_none absent]
            exact ⟨set, good₂, here₂, fun k held => grows₂ k (grows k held)⟩
          | some u =>
            obtain ⟨set, good₂, here₂, grows₂⟩ := later good₁ here₁ run
            have named : (Ref.label l).under env = some u := value.symm
            rw [List.filterMap_cons_some named]
            exact ⟨set, good₂, here₂, fun k held => grows₂ k (grows k held)⟩

variable (units index) in
/-- The unit at one position references the unit at another. -/
def Names (i j : Nat) : Prop :=
  ∃ u l, units[i]? = some u ∧ (Ref.label l ∈ u.deps ∨ Ref.label l ∈ u.grounds) ∧
    index.get l = some j

/-- A unit that is not below one the walk is in the middle of is resolved as the
equations have it. -/
theorem resolve_good (subst : Substitutes units env)
    (placed : ∀ l j, index.get l = some j → ∃ u, units[j]? = some u ∧ u.label = some l)
    (missing : ∀ l, index.get l = none → env l = none)
    (acyclic : ∀ i, ¬ TransGen (Names index units) i i) {levels i : Nat} {st st' : Resolving}
    {u : RawUnit} {r : Option Uid} (here : units[i]? = some u) (good : Good units env st)
    (clear : ∀ k, st.visiting k = true → ¬ ReflTransGen (Names index units) i k)
    (run : resolve units index levels i st = some (r, st')) :
    r = (u.build env).map canonicalUid ∧ st'.resolved i = r ∧ Good units env st' ∧
      st'.visiting = st.visiting ∧ Extends st st' := by
  induction levels generalizing i st st' u r with
  | zero => cases run
  | succ levels ih =>
    rw [resolve] at run
    cases done : st.resolved i with
    | some v =>
      rw [done] at run
      cases run
      rcases good i u here with ⟨unresolved, _⟩ | ⟨core, built, same, _⟩
      · rw [unresolved] at done
        cases done
      · rw [built, ← done]
        exact ⟨same, rfl, good, rfl, fun _ held => held⟩
    | none =>
      rw [done] at run
      dsimp only at run
      have free : ¬ st.visiting i = true := fun busy => clear i busy ReflTransGen.refl
      rw [if_neg free, here, Option.bind_some] at run
      let marked := Function.update st.visiting i true
      have each : ∀ l j, Ref.label l ∈ u.deps ∨ Ref.label l ∈ u.grounds →
          index.get l = some j → ∀ st₁ r st₂, Good units env st₁ → st₁.visiting = marked →
            resolve units index levels j st₁ = some (r, st₂) →
              r = env l ∧ Good units env st₂ ∧ st₂.visiting = marked ∧ Extends st₁ st₂ := by
        intro l j mem found st₁ r st₂ good₁ here₁ run₁
        obtain ⟨v, at_, labelled⟩ := placed l j found
        have step : Names index units i j := ⟨u, l, here, mem, found⟩
        have clear₁ : ∀ k, st₁.visiting k = true → ¬ ReflTransGen (Names index units) j k := by
          intro k busy reach
          rw [here₁] at busy
          by_cases own : k = i
          · rw [own] at reach
            exact acyclic i (TransGen.head' step reach)
          · have before : st.visiting k = true := by
              rwa [show marked k = st.visiting k from Function.update_of_ne own _ _] at busy
            exact clear k before (ReflTransGen.head step reach)
        obtain ⟨value, _, good₂, same, grows⟩ := ih at_ good₁ clear₁ run₁
        have named := subst.labelled v (List.mem_of_getElem? at_) l labelled
        exact ⟨value.trans named.symm, good₂, same.trans here₁, grows⟩
      cases first : referenceSet index (resolve units index levels) u.deps (st.mark i true) ∅ with
      | none =>
        rw [first] at run
        cases run
      | some deps =>
        rw [first, Option.bind_some] at run
        have unmoved : Good units env (st.mark i true) := good
        obtain ⟨depSet, good₁, here₁, grows₁⟩ := reference_set_good
          (fun l j mem found => each l j (.inl mem) found) missing unmoved rfl first
        cases second : referenceSet index (resolve units index levels) u.grounds deps.2 ∅ with
        | none =>
          rw [second] at run
          cases run
        | some grounds =>
          rw [second, Option.bind_some] at run
          obtain ⟨groundSet, good₂, here₂, grows₂⟩ := reference_set_good
            (fun l j mem found => each l j (.inr mem) found) missing good₁ here₁ second
          have made : (UnitCore.new (u.builder deps.1 grounds.1)).toOption = u.build env := by
            rw [depSet, groundSet]
            rfl
          have back : Function.update grounds.2.visiting i false = st.visiting := by
            rw [here₂, Function.update_idem, ← Bool.eq_false_iff.mpr free,
              Function.update_eq_self]
          cases shaped : UnitCore.new (u.builder deps.1 grounds.1) with
          | error e =>
            rw [shaped] at run made
            cases run
            have failed : u.build env = none := made.symm
            rw [failed]
            refine ⟨rfl, ?_, good₂, back, fun k held => grows₂ k (grows₁ k held)⟩
            rcases good₂ i u here with ⟨unresolved, _⟩ | ⟨core, built, _⟩
            · exact unresolved
            · rw [failed] at built
              cases built
          | ok core =>
            rw [shaped] at run made
            cases run
            have built : u.build env = some core := made.symm
            rw [built]
            refine ⟨rfl, Function.update_self _ _ _, ?_, back, ?_⟩
            · intro j v at_
              by_cases own : j = i
              · subst own
                rw [here] at at_
                cases at_
                exact .inr ⟨core, built, Function.update_self _ _ _, Function.update_self _ _ _⟩
              · rw [Resolving.keep_resolved, Resolving.keep_cores, Function.update_of_ne own,
                  Function.update_of_ne own]
                exact good₂ j v at_
            · intro k held
              rw [Resolving.keep_resolved]
              by_cases own : k = i
              · rw [own, Function.update_self]
                rfl
              · rw [Function.update_of_ne own]
                exact grows₂ k (grows₁ k held)

end
end Smysl
