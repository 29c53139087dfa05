import Smysl.Time.Engine

/-!
What rule E finds does not depend on how many seeds it fills in. Whichever subjects
are streamed, the network is over those a live dating or a free constraint names and
those whose own seed is empty; where there is neither, nothing is solved.
-/
namespace Smysl

variable [Blake3]

/-- The subjects the constraints over which cannot all hold. -/
def Effective.contested (out : Effective) : List Subject :=
  (out.dated.entries.filter (fun e => e.2.contested)).map Prod.fst

/-! Seeds. -/

omit [Blake3] in
theorem seed_off_said {axis : Axis} (off : axis ≠ .said) (c : Corpus) (s : Subject) :
    seed c s axis = .unevidenced .speculative := if_pos off

omit [Blake3] in
theorem seed_uncontested (c : Corpus) (s : Subject) (axis : Axis) :
    (seed c s axis).contested = false := by
  unfold seed
  split
  · rfl
  · cases s with
    | unit uid =>
      dsimp only
      split
      · rfl
      · split
        · rfl
        · split <;> rfl
    | manifest mid =>
      dsimp only
      split
      · rfl
      · split <;> rfl

omit [Blake3] in
/-- Off the said axis no seed is empty. -/
theorem said_of_empty {c : Corpus} {s : Subject} {axis : Axis}
    (empty : (seed c s axis).interval.isEmpty = true) : axis = .said := by
  by_contra off
  rw [seed_off_said off] at empty
  cases empty

/-! The streamed subjects. -/

section
variable (c : Corpus) (axis : Axis)

omit [Blake3] in
/-- A subject joins the network exactly when its seed is empty, whatever is filled in. -/
theorem mem_streamed (every : Bool) (others : List Subject)
    (st : BTreeSet Subject × BTreeMap Subject Dated) (s : Subject) :
    s ∈ (others.foldl (streamOne c axis every) st).1 ↔
      s ∈ st.1 ∨ s ∈ others ∧ (seed c s axis).interval.isEmpty = true := by
  induction others generalizing st with
  | nil => simp
  | cons o others ih =>
    have one : s ∈ (streamOne c axis every st o).1 ↔
        s ∈ st.1 ∨ s = o ∧ (seed c s axis).interval.isEmpty = true := by
      rw [streamOne]
      split
      · rename_i held
        constructor
        · exact Or.inl
        · rintro (mem | ⟨rfl, _⟩)
          · exact mem
          · exact held
      · split
        · rename_i skipped
          constructor
          · exact Or.inl
          · rintro (mem | ⟨_, empty⟩)
            · exact mem
            · exact absurd (said_of_empty empty) skipped.1
        · dsimp only
          split
          · rename_i empty
            rw [BTreeSet.mem_insert, or_comm]
            constructor
            · rintro (mem | rfl)
              · exact Or.inl mem
              · exact Or.inr ⟨rfl, empty⟩
            · rintro (mem | ⟨rfl, _⟩)
              · exact Or.inl mem
              · exact Or.inr rfl
          · rename_i full
            have same : (if every = true then (st.1, st.2.insert o (seed c o axis)) else st).1 =
                st.1 := by
              split <;> rfl
            rw [same]
            constructor
            · exact Or.inl
            · rintro (mem | ⟨rfl, empty⟩)
              · exact mem
              · exact absurd empty full
    rw [List.foldl_cons, ih, one, List.mem_cons, or_and_right, or_assoc]

omit [Blake3] in
/-- What is filled in is each other subject's seed. -/
theorem streamed_seeds (others : List Subject) (st : BTreeSet Subject × BTreeMap Subject Dated)
    (s : Subject) (d : Dated)
    (found : (others.foldl (streamOne c axis true) st).2.get s = some d) :
    st.2.get s = some d ∨ s ∈ others ∧ d = seed c s axis := by
  induction others generalizing st with
  | nil => exact Or.inl found
  | cons o others ih =>
    rw [List.foldl_cons] at found
    rcases ih _ found with held | ⟨mem, same⟩
    · rw [streamOne] at held
      split at held
      · exact Or.inl held
      · split at held
        · exact Or.inl held
        · dsimp only at held
          split at held
          · exact Or.inl held
          · rw [if_pos rfl, BTreeMap.get_insert] at held
            split at held
            · rename_i same
              cases held
              exact Or.inr ⟨same ▸ List.mem_cons_self, by rw [same]⟩
            · exact Or.inl held
    · exact Or.inr ⟨List.mem_cons_of_mem _ mem, same⟩

omit [Blake3] in
theorem streamed_kept (others : List Subject) (st : BTreeSet Subject × BTreeMap Subject Dated)
    (s : Subject) (held : st.2.get s = some (seed c s axis)) :
    (others.foldl (streamOne c axis true) st).2.get s = some (seed c s axis) := by
  induction others generalizing st with
  | nil => exact held
  | cons o others ih =>
    rw [List.foldl_cons]
    apply ih
    rw [streamOne]
    split
    · exact held
    · split
      · exact held
      · dsimp only
        split
        · exact held
        · rw [if_pos rfl, BTreeMap.get_insert]
          split
          · rename_i same
            rw [same]
          · exact held

omit [Blake3] in
/-- Every subject that does not join the network has its seed filled in. -/
theorem streamed_filled (others : List Subject) (st : BTreeSet Subject × BTreeMap Subject Dated)
    (s : Subject) (mem : s ∈ others) (apart : s ∉ (others.foldl (streamOne c axis true) st).1) :
    (others.foldl (streamOne c axis true) st).2.get s = some (seed c s axis) := by
  induction others generalizing st with
  | nil => cases mem
  | cons o others ih =>
    rw [List.foldl_cons] at apart ⊢
    rcases List.mem_cons.mp mem with rfl | mem
    · rw [mem_streamed, not_or] at apart
      have out : s ∉ (streamOne c axis true st s).1 := apart.1
      apply streamed_kept
      rw [streamOne] at out ⊢
      split at out
      · rename_i held
        exact absurd held out
      · rename_i fresh
        rw [if_neg fresh, if_neg (by simp)]
        rw [if_neg (by simp)] at out
        dsimp only at out ⊢
        split at out
        · exact absurd ((BTreeSet.mem_insert _ _ _).mpr (Or.inl rfl)) out
        · rename_i full
          rw [if_neg full, if_pos rfl, BTreeMap.get_insert, if_pos rfl]
    · exact ih _ mem apart

omit [Blake3] in
/-- Nothing is filled in unless it is asked for. -/
theorem streamed_nothing (others : List Subject)
    (st : BTreeSet Subject × BTreeMap Subject Dated) :
    (others.foldl (streamOne c axis false) st).2 = st.2 := by
  induction others generalizing st with
  | nil => rfl
  | cons o others ih =>
    rw [List.foldl_cons, ih, streamOne]
    split
    · rfl
    · split
      · rfl
      · dsimp only
        split <;> rfl

end

/-! What is filled in is carried along. -/

/-- A state of the solve, with what is filed under `dated` replaced. -/
def refill (m : BTreeMap Subject Dated) (st : List Dated × Effective) : List Dated × Effective :=
  (st.1, { st.2 with dated := m })

section
variable (m : BTreeMap Subject Dated) (c : Corpus) (axis : Axis) (live : List Live)
  (frees : List Free) (subjects : List Subject)

theorem offset_one_refill (st : List Dated × Effective) (s : Subject) :
    offsetOne c axis live subjects (refill m st) s =
      refill m (offsetOne c axis live subjects st s) := by
  unfold offsetOne
  cases subjects.findIdx? (fun t => t == s) with
  | none => rfl
  | some i =>
    simp only [refill]
    cases st.1[i]? with
    | none => rfl
    | some d => rfl

theorem contest_refill (s : TimeStatus) (st : List Dated × Effective) (v : Nat) :
    contest live frees s subjects (refill m st) v =
      refill m (contest live frees s subjects st v) := by
  simp only [contest, refill]
  cases st.1[v]? with
  | none => rfl
  | some d =>
    cases subjects[v]? with
    | none => rfl
    | some subject =>
      dsimp only
      split <;> rfl

theorem tighten_refill (st : List Dated × Effective) (s : TimeStatus) :
    tighten live frees subjects (refill m st) s = refill m (tighten live frees subjects st s) := by
  unfold tighten
  have along (vs : List Nat) : vs.foldl (contest live frees s subjects) (refill m st) =
      refill m (vs.foldl (contest live frees s subjects) st) :=
    List.foldl_hom (refill m) (fun st v => contest_refill m live frees subjects s st v)
  have state : (refill m st).1 = st.1 := rfl
  dsimp only
  rw [state, along]
  rfl

/-- What every subject is filed under, over what is filled in. -/
def fileAll (filed : List (Subject × Dated)) (m : BTreeMap Subject Dated) :
    BTreeMap Subject Dated := filed.foldl (fun m e => m.insert e.1 e.2) m

theorem offset_one_length (st : List Dated × Effective) (s : Subject) :
    (offsetOne c axis live subjects st s).1.length = st.1.length := by
  unfold offsetOne
  split
  · rfl
  · split
    · rfl
    · exact List.length_set

theorem contest_length (s : TimeStatus) (st : List Dated × Effective) (v : Nat) :
    (contest live frees s subjects st v).1.length = st.1.length := by
  unfold contest
  split
  · split
    · rfl
    · exact List.length_set
  · rfl

omit [Blake3] in
theorem fold_length {X : Type} (f : List Dated × Effective → X → List Dated × Effective)
    (one : ∀ st x, (f st x).1.length = st.1.length) (xs : List X)
    (st : List Dated × Effective) : (xs.foldl f st).1.length = st.1.length := by
  induction xs generalizing st with
  | nil => rfl
  | cons x xs ih => rw [List.foldl_cons, ih, one]

theorem tighten_length (st : List Dated × Effective) (s : TimeStatus)
    (whole : st.1.length = subjects.length) :
    (tighten live frees subjects st s).1.length = subjects.length := by
  unfold tighten
  have contested := fold_length (contest live frees s subjects)
    (contest_length live frees subjects s)
    ((buildStratum subjects st.1 live frees s).net.solve saturatingAdd).inconsistent st
  simp only [List.length_map, List.length_zipIdx, List.length_zip]
  rw [contested, whole, Nat.min_self]

theorem strata_length (strata : List TimeStatus) (st : List Dated × Effective)
    (whole : st.1.length = subjects.length) :
    (strata.foldl (tighten live frees subjects) st).1.length = subjects.length := by
  induction strata generalizing st with
  | nil => exact whole
  | cons s strata ih => exact ih _ (tighten_length live frees subjects st s whole)

/-- The network's answer does not depend on what is filled in, which it is filed over: one state
for each of its subjects. -/
theorem solve_network_refill (out : Effective) : ∃ filed : List (Subject × Dated),
    filed.map Prod.fst = subjects ∧
    ∀ m, solveNetwork c axis live frees subjects { out with dated := m } =
      { solveNetwork c axis live frees subjects out with dated := fileAll filed m } := by
  by_cases none : subjects.isEmpty = true
  · refine ⟨[], (List.isEmpty_iff.mp none).symm, fun m => ?_⟩
    rw [solveNetwork, solveNetwork, if_pos none, if_pos none]
    rfl
  · let seeds := subjects.map (fun s => seed c s axis)
    let solved := TimeStatus.strata.foldl (tighten live frees subjects)
      (applyOffsets c axis live subjects seeds out)
    have whole : solved.1.length = subjects.length := by
      apply strata_length
      rw [applyOffsets, fold_length _ (offset_one_length c axis live subjects)]
      exact List.length_map _
    refine ⟨subjects.zip solved.1, List.map_fst_zip (le_of_eq whole.symm), fun m => ?_⟩
    have offsets : applyOffsets c axis live subjects seeds { out with dated := m } =
        refill m (applyOffsets c axis live subjects seeds out) := by
      change List.foldl _ (refill m (seeds, out)) _ = refill m (List.foldl _ (seeds, out) _)
      exact List.foldl_hom (refill m) (fun st s => offset_one_refill m c axis live subjects st s)
    have strata : TimeStatus.strata.foldl (tighten live frees subjects)
        (applyOffsets c axis live subjects seeds { out with dated := m }) = refill m solved := by
      rw [offsets]
      exact List.foldl_hom (refill m) (fun st s => tighten_refill m live frees subjects st s)
    rw [solveNetwork, solveNetwork, if_neg none, if_neg none]
    dsimp only
    rw [strata]
    rfl

end

/-! The answers. -/

section
variable (c : Corpus) (axis : Axis)

/-- The live datings of an axis, and what is counted on the way. -/
abbrev enlisted : List Live × Effective := liveDatings c axis { axisSaid := axis = .said }

/-- The subjects whose seeds are read. -/
def candidates : Option (BTreeSet Subject) → List Subject
  | some among => among.toList.filter c.holds
  | none => c.subjects

/-- The subjects that join the network, and the seeds filled in. -/
def streamed (among : Option (BTreeSet Subject)) (every : Bool) :
    BTreeSet Subject × BTreeMap Subject Dated :=
  (candidates c among).foldl (streamOne c axis every)
    (BTreeSet.ofList ((touched (enlisted c axis).1 (free c)).filter c.holds), ∅)

theorem solve_time_eq (among : Option (BTreeSet Subject)) (every : Bool) :
    solveTime c axis among every =
      solveNetwork c axis (enlisted c axis).1 (free c) (streamed c axis among every).1.toList
        { (enlisted c axis).2 with dated := (streamed c axis among every).2 } := by
  cases among <;> rfl

/-- The subjects the network is over. -/
def involved : BTreeSet Subject := (streamed c axis none false).1

omit [Blake3] in
theorem mem_subjects (s : Subject) : s ∈ c.subjects ↔ c.holds s = true := by
  rw [Corpus.subjects, List.mem_append, List.mem_map, List.mem_map]
  cases s with
  | unit uid =>
    rw [Corpus.holds, StoreRead.containsUid, ← BTreeMap.mem_keys_iff]
    simp
  | manifest mid =>
    rw [Corpus.holds, ← BTreeMap.mem_keys_iff]
    simp

theorem mem_involved (s : Subject) : s ∈ involved c axis ↔
    (s ∈ touched (enlisted c axis).1 (free c) ∧ c.holds s = true) ∨
      c.holds s = true ∧ (seed c s axis).interval.isEmpty = true := by
  rw [involved, streamed, mem_streamed, BTreeSet.mem_ofList, List.mem_filter, candidates,
    mem_subjects]

/-- Every subject streamed: the network is over the same ones, whatever is filled in. -/
theorem streamed_all (every : Bool) : (streamed c axis none every).1 = involved c axis := by
  apply BTreeSet.ext_mem
  intro s
  rw [mem_involved, streamed, mem_streamed, BTreeSet.mem_ofList, List.mem_filter, candidates,
    mem_subjects]

/-- Only some streamed: still the same ones, where those are among them. -/
theorem streamed_among (among : BTreeSet Subject) (within : ∀ s ∈ involved c axis, s ∈ among) :
    (streamed c axis (some among) false).1 = involved c axis := by
  apply BTreeSet.ext_mem
  intro s
  rw [mem_involved, streamed, mem_streamed, BTreeSet.mem_ofList, List.mem_filter, candidates,
    List.mem_filter, BTreeSet.mem_toList]
  constructor
  · rintro (named | ⟨⟨_, held⟩, empty⟩)
    · exact Or.inl named
    · exact Or.inr ⟨held, empty⟩
  · rintro (named | ⟨held, empty⟩)
    · exact Or.inl named
    · have mem := within s ((mem_involved c axis s).mpr (Or.inr ⟨held, empty⟩))
      exact Or.inr ⟨⟨mem, held⟩, empty⟩

theorem findings_among_eq (among : BTreeSet Subject)
    (within : ∀ s ∈ involved c axis, s ∈ among) :
    findingsAmong c axis among = findings c axis := by
  have some_ : (streamed c axis (some among) false).2 = ∅ := streamed_nothing c axis _ _
  have none_ : (streamed c axis none false).2 = ∅ := streamed_nothing c axis _ _
  rw [findingsAmong, findings, solve_time_eq, solve_time_eq, streamed_among c axis among within,
    some_, none_]
  rfl

/-- The full solve and the findings: one answer, filed over the other subjects' seeds or over
nothing. -/
theorem effective_over_findings : ∃ filed : List (Subject × Dated),
    filed.map Prod.fst = (involved c axis).toList ∧
    findings c axis = { findings c axis with dated := fileAll filed ∅ } ∧
    effective c axis =
      { findings c axis with dated := fileAll filed (streamed c axis none true).2 } := by
  obtain ⟨filed, keys, refilled⟩ := solve_network_refill c axis (enlisted c axis).1 (free c)
    (involved c axis).toList (enlisted c axis).2
  have none_ : (streamed c axis none false).2 = ∅ := streamed_nothing c axis _ _
  have found : findings c axis =
      { solveNetwork c axis (enlisted c axis).1 (free c) (involved c axis).toList
          (enlisted c axis).2 with dated := fileAll filed ∅ } := by
    rw [findings, solve_time_eq, streamed_all, none_, refilled]
  refine ⟨filed, keys, ?_, ?_⟩
  · rw [found]
  · rw [effective, solve_time_eq, streamed_all, refilled, found]

omit [Blake3] in
theorem file_all_contains (filed : List (Subject × Dated)) (m : BTreeMap Subject Dated)
    (s : Subject) : (fileAll filed m).contains s = true ↔
      m.contains s = true ∨ s ∈ filed.map Prod.fst := by
  induction filed generalizing m with
  | nil => simp [fileAll]
  | cons e filed ih =>
    have inserted : (m.insert e.1 e.2).contains s = true ↔ m.contains s = true ∨ s = e.1 := by
      rw [BTreeMap.contains, BTreeMap.get_insert, BTreeMap.contains]
      by_cases here : s = e.1
      · simp [here]
      · simp [here]
    have rest := ih (m.insert e.1 e.2)
    rw [fileAll] at rest ⊢
    rw [List.foldl_cons, rest, inserted, List.map_cons, List.mem_cons, or_assoc]

omit [Blake3] in
/-- Two maps with the same contested entries have the same after the same filing. -/
theorem file_all_contested (filed : List (Subject × Dated)) (m n : BTreeMap Subject Dated)
    (alike : ∀ s d, d.contested = true → (m.get s = some d ↔ n.get s = some d)) :
    ∀ s d, d.contested = true →
      ((fileAll filed m).get s = some d ↔ (fileAll filed n).get s = some d) := by
  induction filed generalizing m n with
  | nil => exact alike
  | cons e filed ih =>
    apply ih
    intro s d contested
    rw [BTreeMap.get_insert, BTreeMap.get_insert]
    split
    · exact Iff.rfl
    · exact alike s d contested

omit [Blake3] in
theorem contested_same {m n : BTreeMap Subject Dated}
    (alike : ∀ s d, d.contested = true → (m.get s = some d ↔ n.get s = some d)) :
    m.entries.filter (fun e => e.2.contested) = n.entries.filter (fun e => e.2.contested) := by
  have held (m : BTreeMap Subject Dated) (s : Subject) (d : Dated) :
      (m.filter (fun _ d => d.contested)).get s = some d ↔
        m.get s = some d ∧ d.contested = true := by
    rw [← BTreeMap.mem_entries_iff, ← BTreeMap.mem_entries_iff, BTreeMap.filter, List.mem_filter]
  have same : m.filter (fun _ d => d.contested) = n.filter (fun _ d => d.contested) := by
    apply BTreeMap.ext_get
    intro s
    apply Option.ext
    intro d
    rw [held, held]
    constructor
    · intro ⟨found, contested⟩
      exact ⟨(alike s d contested).mp found, contested⟩
    · intro ⟨found, contested⟩
      exact ⟨(alike s d contested).mpr found, contested⟩
  exact congrArg BTreeMap.entries same

theorem contested_agree : (findings c axis).contested = (effective c axis).contested := by
  obtain ⟨filed, _, found, full⟩ := effective_over_findings c axis
  rw [found, full, Effective.contested, Effective.contested]
  refine congrArg (List.map Prod.fst) (contested_same (file_all_contested filed _ _ ?_))
  intro s d contested
  refine iff_of_false (fun none => nomatch none) (fun held => ?_)
  rcases streamed_seeds c axis _ _ s d held with none | ⟨_, same⟩
  · cases none
  · rw [same, seed_uncontested] at contested
    cases contested

theorem findings_contain_iff (s : Subject) :
    (findings c axis).dated.contains s = true ↔ s ∈ involved c axis := by
  obtain ⟨filed, keys, found, _⟩ := effective_over_findings c axis
  rw [found, file_all_contains, keys, BTreeSet.mem_toList]
  exact or_iff_right (fun none => nomatch none)

/-! Quiescence. -/

variable {c axis} in
theorem quiescent_alone (quiet : quiescent c axis = true) :
    enlisted c axis = ([], { axisSaid := axis = .said }) ∧ free c = [] ∧
      involved c axis = ∅ := by
  have parts : c.library.datings.isEmpty = true ∧ (free c).isEmpty = true ∧
      ∀ s, c.holds s = true → (seed c s axis).interval.isEmpty = false := by
    rw [quiescent] at quiet
    split at quiet
    · cases quiet
    · rename_i still
      rw [Bool.or_eq_true, not_or, Bool.not_eq_true', Bool.not_eq_true', Bool.not_eq_false,
        Bool.not_eq_false] at still
      refine ⟨still.1, still.2, fun s held => ?_⟩
      split at quiet
      · rename_i off
        rw [seed_off_said off]
        rfl
      · have all := List.all_eq_true.mp quiet s ((mem_subjects c s).mpr held)
        exact Bool.not_eq_true' _ ▸ all
  obtain ⟨undated, unconstrained, full⟩ := parts
  have frees : free c = [] := List.isEmpty_iff.mp unconstrained
  have alone : enlisted c axis = ([], { axisSaid := axis = .said }) := by
    rw [enlisted, liveDatings, List.isEmpty_iff.mp undated]
    rfl
  refine ⟨alone, frees, ?_⟩
  apply BTreeSet.ext_mem
  intro s
  rw [mem_involved, alone, frees]
  refine iff_of_false ?_ (BTreeSet.not_mem_emptyCollection s)
  rintro (⟨named, _⟩ | ⟨held, empty⟩)
  · cases named
  · rw [full s held] at empty
    cases empty

/-- Where rule E has nothing to do it finds nothing, and every subject keeps its seed. -/
theorem quiescent_answers (quiet : quiescent c axis = true) :
    findings c axis = { axisSaid := axis = .said } ∧
      ∀ s, (effective c axis).dated.get s = if c.holds s then some (seed c s axis) else none := by
  obtain ⟨alone, frees, none_⟩ := quiescent_alone quiet
  have emptied : (involved c axis).toList = [] := by
    rw [none_]
    rfl
  constructor
  · have nothing : (streamed c axis none false).2 = ∅ := streamed_nothing c axis _ _
    rw [findings, solve_time_eq, streamed_all, nothing, emptied, alone]
    rfl
  · intro s
    have dated : (effective c axis).dated = (streamed c axis none true).2 := by
      rw [effective, solve_time_eq, streamed_all, emptied]
      rfl
    rw [dated]
    split
    · rename_i held
      apply streamed_filled
      · exact (mem_subjects c s).mpr held
      · change s ∉ (streamed c axis none true).1
        rw [streamed_all, none_]
        exact BTreeSet.not_mem_emptyCollection s
    · rename_i absent
      cases found : (streamed c axis none true).2.get s with
      | none => rfl
      | some d =>
        rcases streamed_seeds c axis _ _ s d found with none | ⟨mem, _⟩
        · cases none
        · exact absurd ((mem_subjects c s).mp mem) absent

/-- Dropping the subjects nothing bears on changes no answer: the findings report what the full
solve reports, from any set of candidates that has the subjects involved; and where rule E has
nothing to do there is nothing to find, and every recorded interval stands. -/
theorem findings_agree :
    ((findings c axis).inconsistent = (effective c axis).inconsistent ∧
      (findings c axis).contested = (effective c axis).contested ∧
      (findings c axis).notApplied = (effective c axis).notApplied) ∧
    (∀ among : BTreeSet Subject, (∀ s, (findings c axis).dated.contains s = true → s ∈ among) →
      findingsAmong c axis among = findings c axis) ∧
    (quiescent c axis = true →
      findings c axis = { axisSaid := axis = .said } ∧
      ∀ s, (effective c axis).dated.get s =
        if c.holds s then some (seed c s axis) else none) := by
  obtain ⟨filed, _, _, full⟩ := effective_over_findings c axis
  refine ⟨⟨?_, contested_agree c axis, ?_⟩, fun among within => ?_, quiescent_answers c axis⟩
  · rw [full]
  · rw [full]
  · exact findings_among_eq c axis among
      (fun s mem => within s ((findings_contain_iff c axis s).mpr mem))

end
end Smysl
