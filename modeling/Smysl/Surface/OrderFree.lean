import Smysl.Lib.Descent
import Smysl.Surface.Walk

/-!
Resolution does not depend on the order of a document. Where labels are distinct and do
not lead back to themselves, each unit gets the one uid that the equations give it, so the
names and the records are the same in any order.
-/
open Relation

namespace Smysl

namespace BTreeMap
variable {K V : Type} [LinearOrder K]

/-- What a map made of a list holds is in the list. -/
theorem mem_of_get_ofList {es : List (K × V)} {k : K} {v : V}
    (found : (BTreeMap.ofList es).get k = some v) : (k, v) ∈ es := by
  induction es using List.reverseRecOn with
  | nil => cases found
  | append_singleton es e ih =>
    have last : BTreeMap.ofList (es ++ [e]) = (BTreeMap.ofList es).insert e.1 e.2 := by
      rw [BTreeMap.ofList, List.foldl_append]
      rfl
    rw [last, BTreeMap.get_insert] at found
    split at found
    · rename_i same
      cases found
      rw [same]
      exact List.mem_append_right es (List.mem_singleton.mpr rfl)
    · exact List.mem_append_left [e] (ih found)

/-- With no key given twice, it holds just what is in the list. -/
theorem get_ofList_iff {es : List (K × V)} (distinct : (es.map Prod.fst).Nodup) (k : K) (v : V) :
    (BTreeMap.ofList es).get k = some v ↔ (k, v) ∈ es := by
  rw [BTreeMap.get_ofList distinct]
  exact ⟨OrdMap.lookup_mem, OrdMap.lookup_of_nodup distinct⟩

end BTreeMap

section
variable {units : List RawUnit}

/-- The labels of the entries made for the labelled units, in order, are among the labels. -/
theorem labelled_sublist {α : Type} (value : RawUnit → Nat → Option α) (start : Nat) :
    ((units.zipIdx start).filterMap fun e =>
      e.1.label.bind fun l => (value e.1 e.2).map fun v => (l, v)).map Prod.fst |>.Sublist
        (units.filterMap RawUnit.label) := by
  induction units generalizing start with
  | nil => exact List.Sublist.refl []
  | cons u units ih =>
    rw [List.zipIdx_cons, List.filterMap_cons, List.filterMap_cons]
    cases label : u.label with
    | none => exact ih (start + 1)
    | some l =>
      cases held : value u start with
      | none => simpa [held] using (ih (start + 1)).cons l
      | some v => simpa [held] using (ih (start + 1)).cons_cons l

theorem mem_labelled {α : Type} (value : RawUnit → Nat → Option α) (l : Label) (v : α) :
    (l, v) ∈ (units.zipIdx.filterMap fun e =>
      e.1.label.bind fun l => (value e.1 e.2).map fun v => (l, v)) ↔
      ∃ (i : Nat) (u : RawUnit), units[i]? = some u ∧ u.label = some l ∧ value u i = some v := by
  constructor
  · intro mem
    obtain ⟨e, entry, made⟩ := List.mem_filterMap.mp mem
    obtain ⟨l', label, made⟩ := Option.bind_eq_some_iff.mp made
    obtain ⟨v', held, same⟩ := Option.map_eq_some_iff.mp made
    cases same
    exact ⟨e.2, e.1, List.mem_zipIdx_iff_getElem?.mp entry, label, held⟩
  · rintro ⟨i, u, here, label, held⟩
    apply List.mem_filterMap.mpr
    refine ⟨(u, i), List.mem_zipIdx_iff_getElem?.mpr here, ?_⟩
    rw [label, Option.bind_some, held]
    rfl

theorem label_index_eq : labelIndex units = BTreeMap.ofList (units.zipIdx.filterMap fun e =>
    e.1.label.bind fun l => (some e.2).map fun i => (l, i)) := by
  rw [labelIndex]
  congr 1
  apply List.filterMap_congr
  intro e _
  cases e.1.label with
  | none => rfl
  | some l => rfl

theorem label_index_inside {l : Label} {j : Nat} (found : (labelIndex units).get l = some j) :
    ∃ u, units[j]? = some u ∧ u.label = some l := by
  rw [label_index_eq] at found
  obtain ⟨i, u, here, label, same⟩ :=
    (mem_labelled (fun _ i => some i) l j).mp (BTreeMap.mem_of_get_ofList found)
  cases same
  exact ⟨u, here, label⟩

theorem label_index_iff (distinct : DistinctLabels units) (l : Label) (j : Nat) :
    (labelIndex units).get l = some j ↔ ∃ u, units[j]? = some u ∧ u.label = some l := by
  constructor
  · exact label_index_inside
  · rintro ⟨u, here, label⟩
    rw [label_index_eq]
    apply (BTreeMap.get_ofList_iff _ l j).mpr
    · exact (mem_labelled (fun _ i => some i) l j).mpr ⟨j, u, here, label, rfl⟩
    · exact (labelled_sublist (fun _ i => some i) 0).nodup distinct

/-- A cycle among the units is one among their labels. -/
theorem acyclic_names (acyclic : AcyclicLabels units) (i : Nat) :
    ¬ TransGen (Names (labelIndex units) units) i i := by
  have along : ∀ {i j : Nat} {l : Label}, (labelIndex units).get l = some i →
      TransGen (Names (labelIndex units) units) i j →
        ∃ l', (labelIndex units).get l' = some j ∧ TransGen (NamesLabel units) l l' := by
    intro i j l start chain
    have step : ∀ {i j : Nat} {l : Label}, (labelIndex units).get l = some i →
        Names (labelIndex units) units i j →
          ∃ l', (labelIndex units).get l' = some j ∧ NamesLabel units l l' := by
      rintro i j l start ⟨u, l', here, named, found⟩
      obtain ⟨v, at_, label⟩ := label_index_inside start
      rw [here] at at_
      cases at_
      exact ⟨l', found, u, List.mem_of_getElem? here, label, named⟩
    induction chain with
    | single first =>
      obtain ⟨l', found, named⟩ := step start first
      exact ⟨l', found, TransGen.single named⟩
    | tail _ last ih =>
      obtain ⟨l', found, chain⟩ := ih
      obtain ⟨l'', found', named⟩ := step found last
      exact ⟨l'', found', TransGen.tail chain named⟩
  intro cycle
  obtain ⟨k, _, ⟨u, l, _, _, found⟩⟩ := TransGen.tail'_iff.mp cycle
  obtain ⟨l', found', chain⟩ := along found cycle
  obtain ⟨v, here, label⟩ := label_index_inside found
  obtain ⟨v', here', label'⟩ := label_index_inside found'
  rw [here] at here'
  cases here'
  rw [label] at label'
  cases label'
  exact acyclic l chain

/-! The names a document keeps. -/

theorem names_by_uid (names : List (Label × Uid)) (l : Label) (u : Uid) :
    l ∈ ((namesByUid names).get u).getD [] ↔ (l, u) ∈ names := by
  have general : ∀ (names : List (Label × Uid)) (m : BTreeMap Uid (List Label)),
      l ∈ ((names.foldl (fun m e => m.alter e.2 (fun o => o.getD [] ++ [e.1])) m).get u).getD [] ↔
        l ∈ (m.get u).getD [] ∨ (l, u) ∈ names := by
    intro names
    induction names with
    | nil =>
      intro m
      simp
    | cons e names ih =>
      intro m
      rw [List.foldl_cons, ih, BTreeMap.get_alter]
      obtain ⟨l', u'⟩ := e
      by_cases same : u = u'
      · subst same
        simp [or_assoc, Prod.ext_iff]
      · rw [if_neg same]
        simp [same, Prod.ext_iff]
  rw [namesByUid, general names ∅]
  simp

theorem keeper_iff (aliases : BTreeMap Label Uid) (u : Uid) (names : List Label) (l : Label) :
    keeper aliases u names = some l ↔ (l ∈ names ∧ aliases.get l = some u) ∧
      ∀ l' ∈ names, aliases.get l' = some u → l ≤ l' := by
  have mem : ∀ l', l' ∈ (names.filter fun l => aliases.get l = some u).insertionSort (· ≤ ·) ↔
      l' ∈ names ∧ aliases.get l' = some u := by
    intro l'
    rw [List.mem_insertionSort, List.mem_filter, decide_eq_true_eq]
  have sorted := List.pairwise_insertionSort (· ≤ ·)
    (names.filter fun l => aliases.get l = some u)
  rw [keeper]
  generalize (names.filter fun l => aliases.get l = some u).insertionSort (· ≤ ·) = held
    at mem sorted
  cases held with
  | nil =>
    constructor
    · intro found
      cases found
    · rintro ⟨here, _⟩
      exact absurd ((mem l).mpr here) List.not_mem_nil
  | cons first rest =>
    have least : ∀ l', l' ∈ names ∧ aliases.get l' = some u → first ≤ l' := by
      intro l' here
      rcases List.mem_cons.mp ((mem l').mpr here) with rfl | later
      · exact le_refl _
      · exact (List.pairwise_cons.mp sorted).1 l' later
    rw [List.head?_cons, Option.some.injEq]
    constructor
    · rintro rfl
      exact ⟨(mem first).mp List.mem_cons_self, fun l' held names' => least l' ⟨held, names'⟩⟩
    · rintro ⟨here, lowest⟩
      have own := (mem first).mp List.mem_cons_self
      exact le_antisymm (least l here) (lowest first own.1 own.2)

/-- A bound label is the first of the names its unit still has. -/
theorem bound_labels_iff {names : List (Label × Uid)} (l : Label) (u : Uid) :
    (boundLabels names).get l = some u ↔ (aliasMap names).get l = some u ∧
      ∀ l', (aliasMap names).get l' = some u → l ≤ l' := by
  let kept (e : Uid × List Label) : Option (Label × Uid) :=
    (keeper (aliasMap names) e.1 e.2).map fun l => (l, e.1)
  have listed : boundLabels names =
      BTreeMap.ofList ((namesByUid names).entries.filterMap kept) := by
    rw [boundLabels, BTreeMap.ofList, List.foldl_filterMap]
    congr 1
    funext labels e
    dsimp only [kept]
    cases keeper (aliasMap names) e.1 e.2 with
    | none => rfl
    | some l => rfl
  have apart : (((namesByUid names).entries.filterMap kept).map Prod.fst).Nodup := by
    rw [List.map_filterMap]
    apply List.Pairwise.filterMap _ _ (List.pairwise_map.mp (namesByUid names).keys_pairwise)
    intro e f below b first b' second same
    obtain ⟨x, foundX, rfl⟩ := Option.map_eq_some_iff.mp first
    obtain ⟨y, foundY, rfl⟩ := Option.map_eq_some_iff.mp second
    obtain ⟨p, keptX, rfl⟩ := Option.map_eq_some_iff.mp foundX
    obtain ⟨q, keptY, rfl⟩ := Option.map_eq_some_iff.mp foundY
    have ofX := ((keeper_iff _ _ _ _).mp keptX).1.2
    have ofY := ((keeper_iff _ _ _ _).mp keptY).1.2
    dsimp only at same
    rw [same, ofY, Option.some.injEq] at ofX
    exact absurd ofX.symm (ne_of_lt below)
  have heldBy : ∀ l', (aliasMap names).get l' = some u →
      l' ∈ ((namesByUid names).get u).getD [] := fun l' found =>
    (names_by_uid names l' u).mpr (BTreeMap.mem_of_get_ofList found)
  rw [listed, BTreeMap.get_ofList_iff apart, List.mem_filterMap]
  constructor
  · rintro ⟨e, entry, made⟩
    obtain ⟨l', found, same⟩ := Option.map_eq_some_iff.mp made
    cases same
    obtain ⟨⟨_, still⟩, lowest⟩ := (keeper_iff _ _ _ _).mp found
    have here : (namesByUid names).get e.1 = some e.2 :=
      (BTreeMap.mem_entries_iff _ _ _).mp entry
    refine ⟨still, fun l' named => lowest l' ?_ named⟩
    have mem := heldBy l' named
    rwa [here] at mem
  · rintro ⟨still, lowest⟩
    have mem := heldBy l still
    cases here : (namesByUid names).get u with
    | none =>
      rw [here] at mem
      exact absurd mem List.not_mem_nil
    | some own =>
      rw [here] at mem
      refine ⟨(u, own), (BTreeMap.mem_entries_iff _ _ _).mpr here, ?_⟩
      have found : keeper (aliasMap names) u own = some l :=
        (keeper_iff _ _ _ _).mpr ⟨⟨mem, still⟩, fun l' _ named => lowest l' named⟩
      dsimp only [kept]
      rw [found]
      rfl

/-! The whole walk. -/

variable [Unicode] [Blake3]

theorem resolve_run (is : List Nat) (inside : ∀ i ∈ is, i < units.length) (st : Resolving)
    (idle : st.visiting = fun _ => false) : ∃ st',
      is.foldlM (fun st i =>
        (resolve units (labelIndex units) (units.length + 1) i st).map Prod.snd) st = some st' ∧
      st'.visiting = fun _ => false := by
  induction is generalizing st with
  | nil => exact ⟨st, rfl, idle⟩
  | cons i is ih =>
    have placed : ∀ l j, (labelIndex units).get l = some j → j < units.length := by
      intro l j found
      obtain ⟨u, here, _⟩ := label_index_inside found
      exact (List.getElem?_eq_some_iff.mp here).1
    have enough := untouched_le units.length st.visiting
    obtain ⟨r, st₁, run, same⟩ := resolve_returns placed (units.length + 1) i st
      (inside i List.mem_cons_self) (by omega)
    obtain ⟨st₂, later, idle₂⟩ := ih (fun j mem => inside j (List.mem_cons_of_mem i mem)) st₁
      (same.trans idle)
    refine ⟨st₂, ?_, idle₂⟩
    rw [List.foldlM_cons, run]
    exact later

variable (units) in
/-- Resolution always returns. -/
theorem resolve_all_returns : ∃ st, resolveAll units = some st := by
  obtain ⟨st, run, _⟩ := resolve_run (List.range units.length)
    (fun i mem => List.mem_range.mp mem) Resolving.start rfl
  exact ⟨st, run⟩

variable {env : Label → Option Uid}

theorem named_or_missing (distinct : DistinctLabels units) (subst : Substitutes units env)
    (l : Label) (absent : (labelIndex units).get l = none) : env l = none := by
  apply subst.declared
  intro u mem label
  obtain ⟨i, here⟩ := List.mem_iff_getElem?.mp mem
  rw [(label_index_iff distinct l i).mpr ⟨u, here, label⟩] at absent
  cases absent

theorem good_run (distinct : DistinctLabels units) (acyclic : AcyclicLabels units)
    (subst : Substitutes units env) (is : List Nat) (inside : ∀ i ∈ is, i < units.length)
    {st st' : Resolving} (good : Good units env st) (idle : st.visiting = fun _ => false)
    (run : is.foldlM (fun st i =>
      (resolve units (labelIndex units) (units.length + 1) i st).map Prod.snd) st = some st') :
    Good units env st' ∧ Extends st st' ∧ ∀ i ∈ is, ∀ u, units[i]? = some u →
      (u.build env).isSome = true → (st'.resolved i).isSome = true := by
  induction is generalizing st with
  | nil =>
    cases run
    exact ⟨good, fun _ held => held, by simp⟩
  | cons i is ih =>
    rw [List.foldlM_cons] at run
    cases first : resolve units (labelIndex units) (units.length + 1) i st with
    | none =>
      rw [first] at run
      cases run
    | some result =>
      obtain ⟨r, st₁⟩ := result
      rw [first] at run
      have here := List.getElem?_eq_getElem (inside i List.mem_cons_self)
      obtain ⟨value, kept, good₁, same, grows⟩ := resolve_good subst
        (fun l j => label_index_inside) (named_or_missing distinct subst)
        (acyclic_names acyclic) here good
        (fun k busy => by rw [idle] at busy; cases busy) first
      obtain ⟨good₂, grows₂, all⟩ := ih (fun j mem => inside j (List.mem_cons_of_mem i mem)) good₁
        (same.trans idle) run
      refine ⟨good₂, fun j held => grows₂ j (grows j held), fun j mem u at_ builds => ?_⟩
      rcases List.mem_cons.mp mem with rfl | mem
      · rw [here] at at_
        cases at_
        apply grows₂
        rw [kept, value, Option.isSome_map]
        exact builds
      · exact all j mem u at_ builds

/-- Every unit is resolved to what the equations give, with its core if it has one. -/
theorem resolve_all_good (distinct : DistinctLabels units) (acyclic : AcyclicLabels units)
    (subst : Substitutes units env) {st : Resolving} (run : resolveAll units = some st) (i : Nat)
    (u : RawUnit) (here : units[i]? = some u) :
    st.resolved i = (u.build env).map canonicalUid ∧ st.cores i = u.build env := by
  have start : Good units env Resolving.start := fun _ _ _ => .inl ⟨rfl, rfl⟩
  obtain ⟨good, _, all⟩ := good_run distinct acyclic subst (List.range units.length)
    (fun i mem => List.mem_range.mp mem) start rfl run
  have below := (List.getElem?_eq_some_iff.mp here).1
  rcases good i u here with ⟨unresolved, coreless⟩ | ⟨core, built, resolved, kept⟩
  · have failed : u.build env = none := by
      apply Option.eq_none_iff_forall_ne_some.mpr
      intro core built
      have held := all i (List.mem_range.mpr below) u here (by rw [built]; rfl)
      rw [unresolved] at held
      cases held
    rw [failed]
    exact ⟨unresolved, coreless⟩
  · rw [built]
    exact ⟨resolved, kept⟩

/-- References resolve to what the equations give. -/
theorem alias_solves (distinct : DistinctLabels units) (acyclic : AcyclicLabels units)
    (subst : Substitutes units env) {st : Resolving} (run : resolveAll units = some st)
    (l : Label) : (aliasMap (declared units st)).get l = env l := by
  have apart : ((declared units st).map Prod.fst).Nodup :=
    (labelled_sublist (fun _ i => st.resolved i) 0).nodup distinct
  apply Option.ext
  intro u
  rw [aliasMap, BTreeMap.get_ofList_iff apart, declared,
    mem_labelled (fun _ i => st.resolved i) l u]
  constructor
  · rintro ⟨i, v, here, label, held⟩
    have resolved := (resolve_all_good distinct acyclic subst run i v here).1
    rw [subst.labelled v (List.mem_of_getElem? here) l label, ← resolved, held]
  · intro named
    have labelled : ∃ v ∈ units, v.label = some l := by
      by_contra absent
      have gone : env l = none := subst.declared l fun v mem label => absent ⟨v, mem, label⟩
      rw [gone] at named
      cases named
    obtain ⟨v, mem, label⟩ := labelled
    obtain ⟨i, here⟩ := List.mem_iff_getElem?.mp mem
    have resolved := (resolve_all_good distinct acyclic subst run i v here).1
    refine ⟨i, v, here, label, ?_⟩
    rw [resolved, ← subst.labelled v mem l label, named]

/-- The equations have one solution. -/
theorem substitution_unique (distinct : DistinctLabels units) (acyclic : AcyclicLabels units)
    (subst : Substitutes units env) {env' : Label → Option Uid}
    (subst' : Substitutes units env') : env' = env := by
  obtain ⟨st, run⟩ := resolve_all_returns units
  funext l
  rw [← alias_solves distinct acyclic subst run l, alias_solves distinct acyclic subst' run l]

omit [Unicode] [Blake3] in
theorem Ref.under_congr {env env' : Label → Option Uid} {refs : List Ref}
    (same : ∀ l, Ref.label l ∈ refs → env l = env' l) :
    refs.filterMap (Ref.under env) = refs.filterMap (Ref.under env') := by
  apply List.filterMap_congr
  intro r mem
  cases r with
  | uid u => rfl
  | label l => exact same l mem

/-- The equations have a solution. -/
theorem substitution_exists (distinct : DistinctLabels units) (acyclic : AcyclicLabels units) :
    ∃ env, Substitutes units env := by
  let named (env : Label → Option Uid) (l : Label) : Option Uid :=
    ((labelIndex units).get l).bind fun j => units[j]?.bind fun u =>
      (u.build env).map canonicalUid
  have inside : ∀ l l', NamesLabel units l l' →
      l ∈ {l | l ∈ units.filterMap RawUnit.label} := by
    rintro l l' ⟨u, mem, label, _⟩
    exact List.mem_filterMap.mpr ⟨u, mem, label⟩
  have reads : ∀ env env' l, (∀ l', NamesLabel units l l' → env l' = env' l') →
      named env l = named env' l := by
    intro env env' l same
    dsimp only [named]
    cases found : (labelIndex units).get l with
    | none => rfl
    | some j =>
      obtain ⟨u, here, label⟩ := label_index_inside found
      have mem := List.mem_of_getElem? here
      have deps : u.deps.filterMap (Ref.under env) = u.deps.filterMap (Ref.under env') :=
        Ref.under_congr fun l' ref => same l' ⟨u, mem, label, .inl ref⟩
      have grounds : u.grounds.filterMap (Ref.under env) =
          u.grounds.filterMap (Ref.under env') :=
        Ref.under_congr fun l' ref => same l' ⟨u, mem, label, .inr ref⟩
      rw [Option.bind_some, Option.bind_some, here, Option.bind_some, Option.bind_some,
        RawUnit.build, RawUnit.build, deps, grounds]
  obtain ⟨env, solves⟩ := Descent.solvable (List.finite_toSet _) inside acyclic named reads
  refine ⟨env, ?_, ?_⟩
  · intro u mem l label
    obtain ⟨j, here⟩ := List.mem_iff_getElem?.mp mem
    have found := (label_index_iff distinct l j).mpr ⟨u, here, label⟩
    rw [solves l]
    dsimp only [named]
    rw [found, Option.bind_some, here, Option.bind_some]
  · intro l absent
    have missing : (labelIndex units).get l = none := by
      apply Option.eq_none_iff_forall_ne_some.mpr
      intro j found
      obtain ⟨u, here, label⟩ := label_index_inside found
      exact absent u (List.mem_of_getElem? here) label
    rw [solves l]
    dsimp only [named]
    rw [missing]
    rfl

theorem mem_cores (distinct : DistinctLabels units) (acyclic : AcyclicLabels units)
    (subst : Substitutes units env) {st : Resolving} (run : resolveAll units = some st)
    (core : UnitCore) : core ∈ (List.range units.length).filterMap st.cores ↔
      ∃ u ∈ units, u.build env = some core := by
  rw [List.mem_filterMap]
  constructor
  · rintro ⟨i, mem, held⟩
    have here := List.getElem?_eq_getElem (List.mem_range.mp mem)
    have kept := (resolve_all_good distinct acyclic subst run i _ here).2
    rw [held] at kept
    exact ⟨_, List.mem_of_getElem? here, kept.symm⟩
  · rintro ⟨u, mem, built⟩
    obtain ⟨i, here⟩ := List.mem_iff_getElem?.mp mem
    have kept := (resolve_all_good distinct acyclic subst run i u here).2
    rw [built] at kept
    exact ⟨i, List.mem_range.mpr (List.getElem?_eq_some_iff.mp here).1, kept⟩

end

/-! A document and the same blocks in another order. -/

/-- The record blocks of each kind, in another order. -/
structure RawDocument.Reordered (d d' : RawDocument) : Prop where
  source : d'.source = d.source
  units : d'.units.Perm d.units
  relations : d'.relations.Perm d.relations
  threads : d'.threads.Perm d.threads
  schemas : d'.schemas.Perm d.schemas
  lifecycle : d'.lifecycle.Perm d.lifecycle
  commits : d'.commits.Perm d.commits
  redactions : d'.redactions.Perm d.redactions
  datings : d'.datings.Perm d.datings
  manifests : d'.manifests.Perm d.manifests
  view : d'.view = d.view

namespace RawDocument

theorem Reordered.sourced {d d' : RawDocument} (reordered : d.Reordered d') :
    d'.sourced.Perm d.sourced := by
  rw [RawDocument.sourced, RawDocument.sourced, reordered.source]
  cases d.source with
  | none => exact reordered.units
  | some given => exact reordered.units.map _

theorem Reordered.mem_records {d d' : RawDocument} [Blake3] (reordered : d.Reordered d')
    {cores cores' : List UnitCore} (same : ∀ c, c ∈ cores' ↔ c ∈ cores)
    (labels aliases : BTreeMap Label Uid) (r : Record) :
    r ∈ d'.recordsOf cores' labels aliases ↔ r ∈ d.recordsOf cores labels aliases := by
  simp only [recordsOf, List.mem_append, List.mem_map, List.mem_filterMap, same,
    reordered.view, reordered.relations.mem_iff, reordered.threads.mem_iff,
    reordered.schemas.mem_iff, reordered.lifecycle.mem_iff, reordered.commits.mem_iff,
    reordered.redactions.mem_iff, reordered.datings.mem_iff, reordered.manifests.mem_iff]

end RawDocument

section
variable {units units' : List RawUnit}

theorem DistinctLabels.perm (distinct : DistinctLabels units) (perm : units'.Perm units) :
    DistinctLabels units' := (perm.filterMap RawUnit.label).nodup_iff.mpr distinct

theorem names_label_perm (perm : units'.Perm units) : NamesLabel units' = NamesLabel units := by
  funext l l'
  simp only [NamesLabel, perm.mem_iff]

theorem AcyclicLabels.perm (acyclic : AcyclicLabels units) (perm : units'.Perm units) :
    AcyclicLabels units' := by
  intro l
  rw [names_label_perm perm]
  exact acyclic l

variable [Unicode] [Blake3] {env : Label → Option Uid}

theorem Substitutes.perm (subst : Substitutes units env) (perm : units'.Perm units) :
    Substitutes units' env where
  labelled u mem := subst.labelled u (perm.mem_iff.mp mem)
  declared l absent := subst.declared l fun u mem => absent u (perm.mem_iff.mpr mem)

end

/-- Whether a record is a unit. -/
def Record.isUnit : Record → Bool
  | .unit _ => true
  | _ => false

section
variable {aliases : BTreeMap Label Uid}

theorem RawRelation.not_unit {r : RawRelation} {rec : Record}
    (made : r.record aliases = some rec) : rec.isUnit = false := by
  simp only [RawRelation.record, Option.bind_eq_some_iff, Option.map_eq_some_iff] at made
  obtain ⟨_, _, _, _, rfl⟩ := made
  rfl

theorem RawLifecycle.not_unit [Blake3] {r : RawLifecycle} {rec : Record}
    (made : r.record aliases = some rec) : rec.isUnit = false := by
  simp only [RawLifecycle.record, Option.bind_eq_some_iff] at made
  obtain ⟨_, _, _, _, made⟩ := made
  split at made
  · cases made
    rfl
  · cases made
    rfl
  · cases made

theorem RawCommit.not_unit {c : RawCommit} {rec : Record}
    (made : c.record aliases = some rec) : rec.isUnit = false := by
  simp only [RawCommit.record, Option.bind_eq_some_iff, Option.map_eq_some_iff] at made
  obtain ⟨_, _, _, _, rfl⟩ := made
  rfl

theorem RawRedaction.not_unit {r : RawRedaction} {rec : Record}
    (made : r.record aliases = some rec) : rec.isUnit = false := by
  obtain ⟨_, _, rfl⟩ := Option.map_eq_some_iff.mp made
  rfl

theorem RawDating.not_unit {d : RawDating} {rec : Record}
    (made : d.record aliases = some rec) : rec.isUnit = false := by
  simp only [RawDating.record, Option.bind_eq_some_iff, Option.map_eq_some_iff] at made
  obtain ⟨_, _, _, _, _, _, rfl⟩ := made
  rfl

theorem no_units_made {α : Type} {f : α → Option Record}
    (plain : ∀ {a rec}, f a = some rec → rec.isUnit = false) (l : List α) :
    (l.filterMap f).countP Record.isUnit = 0 := by
  apply List.countP_eq_zero.mpr
  intro rec mem
  obtain ⟨a, _, made⟩ := List.mem_filterMap.mp mem
  rw [plain made]
  exact Bool.false_ne_true

theorem no_units_among {α : Type} {f : α → Record} (plain : ∀ a, (f a).isUnit = false)
    (l : List α) : (l.map f).countP Record.isUnit = 0 := by
  apply List.countP_eq_zero.mpr
  intro rec mem
  obtain ⟨a, _, rfl⟩ := List.mem_map.mp mem
  rw [plain a]
  exact Bool.false_ne_true

/-- The units among the records of a document are its cores. -/
theorem RawDocument.units_counted [Blake3] (d : RawDocument) (cores : List UnitCore)
    (labels : BTreeMap Label Uid) :
    (d.recordsOf cores labels aliases).countP Record.isUnit = cores.length := by
  have units : (cores.map Record.unit).countP Record.isUnit = cores.length := by
    rw [List.countP_map]
    exact List.countP_eq_length.mpr fun _ _ => rfl
  have view : ((d.view.map fun v => Record.view (v.view aliases)).toList).countP
      Record.isUnit = 0 := by
    cases d.view with
    | none => rfl
    | some v => rfl
  rw [RawDocument.recordsOf]
  simp only [List.countP_append]
  rw [no_units_among (fun _ => rfl), no_units_among (fun _ => rfl), units,
    no_units_among (fun _ => rfl), no_units_made RawRelation.not_unit,
    no_units_among (fun _ => rfl), no_units_made RawLifecycle.not_unit,
    no_units_made RawCommit.not_unit, no_units_made RawRedaction.not_unit,
    no_units_made RawDating.not_unit, view]
  omega

end

section
variable [Unicode] [Blake3]

end

section
local instance plainResolveText : Unicode := .plain
local instance modPrimeResolveHash : Blake3 := .modPrime

def stated : Label := ⟨"claim/stated", by decide⟩
def derived : Label := ⟨"claim/derived", by decide⟩

/-- A claim under a name, over what it depends on. -/
def namedClaim (label : Label) (gist : String) (deps : List Ref) : RawUnit where
  label := some label
  schema := .kernel .claim
  gist := gist
  body := none
  detail := none
  deps := deps
  grounds := []
  status := .speculative
  source := none
  payload := none
  salience := none
  lang := none

def unitsOnly (units : List RawUnit) : RawDocument where
  source := none
  units := units
  relations := []
  threads := []
  schemas := []
  lifecycle := []
  commits := []
  redactions := []
  datings := []
  manifests := []
  view := none

/-- A claim and what it depends on, named before it is declared. -/
def forwardNamed : List RawUnit :=
  [namedClaim derived "b" [.label stated], namedClaim stated "a" []]

end
end Smysl
