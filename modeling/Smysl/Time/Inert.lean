import Smysl.Graph.Survivors
import Smysl.Time.Strata
import Smysl.Time.Seeds
import Smysl.Time.Offsets

/-!
One offset more, worse evidenced than what it is over. Where the other offsets leave it
without effect on a seed, no stratum makes anything else of any subject: the networks are the
same, or one is placed in the other.
-/
namespace Smysl
open Stn (Network Patient)

section
variable [Blake3]

/-! The state the strata start from. -/

section
variable (c : Corpus) (axis : Axis) (live : List Live) {subjects : List Subject}
  (nodup : subjects.Nodup) {i : Nat} {t : Subject} (named : subjects[i]? = some t)

/-- What the offsets over a subject make of its seed. -/
def offsetSeed (t : Subject) : Dated :=
  (applyOffset c axis t (offsetsOf live t) (seed c t axis)).dated

include nodup named

theorem offset_one_get (st : List Dated × Effective) (s : Subject) :
    (offsetOne c axis live subjects st s).1[i]? =
      if s = t then (st.1[i]?).map (fun d => (applyOffset c axis t (offsetsOf live t) d).dated)
      else st.1[i]? := by
  have named_ : subjects.findIdx? (fun t => t == s) = indexOf subjects s := rfl
  rw [offsetOne, named_]
  cases found : indexOf subjects s with
  | none =>
    have other : s ≠ t := by
      rintro rfl
      rw [(index_of_iff nodup s i).mpr named] at found
      cases found
    rw [if_neg other]
  | some j =>
    have there := (index_of_iff nodup s j).mp found
    dsimp only
    by_cases same : s = t
    · subst same
      have here : j = i := by
        rw [(index_of_iff nodup s i).mpr named] at found
        exact (Option.some.inj found).symm
      subst here
      rw [if_pos rfl]
      cases held : st.1[j]? with
      | none => exact held
      | some d => exact List.getElem?_set_self (List.getElem?_eq_some_iff.mp held).1
    · have apart : j ≠ i := by
        rintro rfl
        rw [there] at named
        exact same (Option.some.inj named)
      rw [if_neg same]
      cases held : st.1[j]? with
      | none => rfl
      | some d => exact List.getElem?_set_ne apart

theorem offsets_get {ss : List Subject} (once : ss.Nodup) (st : List Dated × Effective) :
    (ss.foldl (offsetOne c axis live subjects) st).1[i]? =
      if t ∈ ss then (st.1[i]?).map (fun d => (applyOffset c axis t (offsetsOf live t) d).dated)
      else st.1[i]? := by
  induction ss generalizing st with
  | nil => rfl
  | cons s ss ih =>
    obtain ⟨fresh, once⟩ := List.nodup_cons.mp once
    rw [List.foldl_cons, ih once, offset_one_get c axis live nodup named]
    by_cases same : s = t
    · subst same
      rw [if_neg fresh, if_pos rfl, if_pos List.mem_cons_self]
    · rw [if_neg same]
      refine if_congr ?_ rfl rfl
      rw [List.mem_cons]
      exact (or_iff_right (Ne.symm same)).symm

theorem apply_offsets_get (out : Effective) :
    (applyOffsets c axis live subjects (subjects.map (fun s => seed c s axis)) out).1[i]? =
      some (offsetSeed c axis live t) := by
  have once : (offsetSubjects live).Nodup := BTreeSet.toList_nodup _
  rw [applyOffsets, offsets_get c axis live nodup named once, List.getElem?_map, named]
  split
  · rfl
  · rename_i none_
    have empty : offsetsOf live t = [] := by
      by_contra some_
      exact none_ (mem_offset_subjects some_)
    rw [offsetSeed, empty]
    rfl

omit nodup named in
theorem apply_offsets_length (state : List Dated) (out : Effective) :
    (applyOffsets c axis live subjects state out).1.length = state.length :=
  fold_length _ (offset_one_length c axis live subjects) _ _

end

/-! The strata, one after another. -/

omit [Blake3] in
/-- An offset is no constraint. -/
theorem build_offset {x : Live} {ms : Int64} (value : x.dating.value = .offset ms)
    (pre post : List Live) (subjects : List Subject) (state : List Dated) (frees : List Free)
    (s : TimeStatus) : buildStratum subjects state (pre ++ x :: post) frees s =
      buildStratum subjects state (pre ++ post) frees s := by
  have nothing (st : Stratum) : addDating subjects state st x = st := by
    rw [addDating, value]
  have same (st : Stratum) : ((pre ++ x :: post).filter (fun l => decide (s ≤ l.status))).foldl
      (addDating subjects state) st =
        ((pre ++ post).filter (fun l => decide (s ≤ l.status))).foldl
          (addDating subjects state) st := by
    rw [List.filter_append, List.filter_append, List.filter_cons, List.foldl_append,
      List.foldl_append]
    split
    · rw [List.foldl_cons, nothing]
    · rfl
  rw [buildStratum, buildStratum]
  dsimp only
  rw [same]

section
variable (live live' : List Live) (frees : List Free)

/-- No stratum of a run has a search that gives up on a node. -/
def PatientAlong (subjects : List Subject) : List TimeStatus → List Dated × Effective → Prop
  | [], _ => True
  | s :: strata, st =>
    Patient saturatingAdd (buildStratum subjects st.1 live frees s).net ∧
      PatientAlong subjects strata (tighten live frees subjects st s)

variable {live live'} (same : ∀ subjects state s,
  buildStratum subjects state live' frees s = buildStratum subjects state live frees s)
include same

/-- Over the same subjects at the same, a stratum of the same network makes the same. -/
theorem tighten_same {subjects : List Subject} {st st' : List Dated × Effective}
    (whole : st.1.length = subjects.length) (alike : st'.1 = st.1) (s : TimeStatus) :
    (tighten live' frees subjects st' s).1 = (tighten live frees subjects st s).1 := by
  have whole' : st'.1.length = subjects.length := alike ▸ whole
  apply List.ext_getElem?
  intro i
  cases held : st.1[i]? with
  | none =>
    have beyond := List.getElem?_eq_none_iff.mp held
    rw [List.getElem?_eq_none, List.getElem?_eq_none]
    · rw [tighten_length live frees subjects st s whole]
      omega
    · rw [tighten_length live' frees subjects st' s whole']
      omega
  | some d =>
    obtain ⟨subject, made⟩ := @tighten_get _ live frees _ _ whole s _ _ held
    obtain ⟨subject', made'⟩ := @tighten_get _ live' frees _ _ whole' s _ _
      ((congrArg (·[i]?) alike).trans held)
    rw [made, made', same, alike]
    exact congrArg some (settle_dated rfl rfl rfl rfl)

theorem strata_same {subjects : List Subject} (strata : List TimeStatus)
    {st st' : List Dated × Effective} (whole : st.1.length = subjects.length)
    (alike : st'.1 = st.1) : (strata.foldl (tighten live' frees subjects) st').1 =
      (strata.foldl (tighten live frees subjects) st).1 := by
  induction strata generalizing st st' with
  | nil => exact alike
  | cons s strata ih =>
    exact ih (tighten_length live frees subjects st s whole) (tighten_same frees same whole alike s)

theorem strata_along {w : Widened} {own : Nat → Dated} (known : ∀ l ∈ live, l.Known w)
    (known' : ∀ f ∈ frees, f.Known w)
    (quiet : ∀ j, w.old j = false → j < w.more.length → Quiet (own j))
    (strata : List TimeStatus) {st st' : List Dated × Effective} (along : w.Along own st.1 st'.1)
    (patient : PatientAlong live frees w.fewer strata st) :
    w.Along own (strata.foldl (tighten live frees w.fewer) st).1
      (strata.foldl (tighten live' frees w.more) st').1 := by
  induction strata generalizing st st' with
  | nil => exact along
  | cons s strata ih =>
    exact ih (along.tighten known known' quiet patient.1 (same _ _ s)) patient.2

end

/-! What is in effect. -/

section
variable (c : Corpus) (axis : Axis)

/-- What the strata begin with. -/
def offsetState : List Dated × Effective :=
  applyOffsets c axis (enlisted c axis).1 (involved c axis).toList
    ((involved c axis).toList.map (fun s => seed c s axis))
    { (enlisted c axis).2 with dated := (streamed c axis none true).2 }

/-- What the strata leave. -/
def settled : List Dated :=
  (TimeStatus.strata.foldl (tighten (enlisted c axis).1 (free c) (involved c axis).toList)
    (offsetState c axis)).1

/-- No search of any stratum gives up on a node. -/
def Steady : Prop :=
  PatientAlong (enlisted c axis).1 (free c) (involved c axis).toList TimeStatus.strata
    (offsetState c axis)

theorem offset_state_length : (offsetState c axis).1.length = (involved c axis).toList.length :=
  (apply_offsets_length c axis _ _ _).trans (List.length_map _)

theorem settled_length : (settled c axis).length = (involved c axis).toList.length :=
  strata_length _ _ _ _ _ (offset_state_length c axis)

omit [Blake3] in
variable {c axis} in
/-- What is filled in of the subjects nothing bears on is kept. -/
theorem filled_kept {X : Type} {f : List Dated × Effective → X → List Dated × Effective}
    (one : ∀ m st x, f (refill m st) x = refill m (f st x)) (xs : List X)
    (st : List Dated × Effective) : (xs.foldl f st).2.dated = st.2.dated := by
  have along := @List.foldl_hom _ _ _ (refill st.2.dated) f f xs st (fun st x => one _ st x)
  exact congrArg (fun st => st.2.dated) along

theorem effective_dated : (effective c axis).dated =
    fileAll ((involved c axis).toList.zip (settled c axis)) (streamed c axis none true).2 := by
  rw [effective, solve_time_eq, streamed_all, solveNetwork]
  split
  · rename_i none_
    rw [List.isEmpty_iff.mp none_]
    rfl
  · have offset : (offsetState c axis).2.dated = (streamed c axis none true).2 :=
      filled_kept (fun m st s => offset_one_refill m c axis _ _ st s) _ _
    have kept : (TimeStatus.strata.foldl
        (tighten (enlisted c axis).1 (free c) (involved c axis).toList)
          (offsetState c axis)).2.dated = (streamed c axis none true).2 :=
      (filled_kept (fun m st s => tighten_refill m _ _ _ st s) _ _).trans offset
    exact congrArg (fileAll ((involved c axis).toList.zip (settled c axis))) kept

omit [Blake3] in
theorem file_all_apart {es : List (Subject × Dated)} {s : Subject} (apart : s ∉ es.map Prod.fst)
    (m : BTreeMap Subject Dated) : (fileAll es m).get s = m.get s := by
  induction es generalizing m with
  | nil => rfl
  | cons e es ih =>
    rw [List.map_cons, List.mem_cons, not_or] at apart
    exact (ih apart.2 (m.insert e.1 e.2)).trans
      ((BTreeMap.get_insert m e.1 s e.2).trans (if_neg apart.1))

omit [Blake3] in
theorem file_all_mem {es : List (Subject × Dated)} (distinct : (es.map Prod.fst).Nodup)
    {s : Subject} {d : Dated} (mem : (s, d) ∈ es) (m : BTreeMap Subject Dated) :
    (fileAll es m).get s = some d := by
  induction es generalizing m with
  | nil => cases mem
  | cons e es ih =>
    obtain ⟨fresh, distinct⟩ := List.nodup_cons.mp distinct
    rcases List.mem_cons.mp mem with rfl | later
    · exact (file_all_apart fresh (m.insert s d)).trans
        ((BTreeMap.get_insert m s s d).trans (if_pos rfl))
    · exact ih distinct later (m.insert e.1 e.2)

theorem filed_keys : ((involved c axis).toList.zip (settled c axis)).map Prod.fst =
    (involved c axis).toList :=
  List.map_fst_zip (settled_length c axis).ge

variable {c axis}

/-- A subject of the network is at what the strata leave it at. -/
theorem effective_involved {s : Subject} {i : Nat} (named : (involved c axis).toList[i]? = some s) :
    (effective c axis).dated.get s = (settled c axis)[i]? := by
  have inside := (List.getElem?_eq_some_iff.mp named).1
  have inside' : i < (settled c axis).length := settled_length c axis ▸ inside
  rw [effective_dated, List.getElem?_eq_getElem inside']
  refine file_all_mem ?_ ?_ _
  · rw [filed_keys]
    exact BTreeSet.toList_nodup _
  · rw [List.mem_iff_getElem?]
    exact ⟨i, List.getElem?_zip_eq_some.mpr ⟨named, List.getElem?_eq_getElem inside'⟩⟩

/-- Every other subject is at its seed. -/
theorem effective_apart {s : Subject} (apart : s ∉ involved c axis) :
    (effective c axis).dated.get s = if c.holds s then some (seed c s axis) else none := by
  have outside : s ∉ (involved c axis).toList := fun mem => apart ((BTreeSet.mem_toList _ _).mp mem)
  rw [effective_dated, file_all_apart (by rw [filed_keys]; exact outside)]
  split
  · rename_i held
    refine streamed_filled c axis _ _ s ((mem_subjects c s).mpr held) ?_
    exact fun mem => apart ((streamed_all c axis true) ▸ mem)
  · rename_i missing
    rw [Option.eq_none_iff_forall_ne_some]
    intro d found
    rcases streamed_seeds c axis _ _ s d found with none_ | ⟨mem, _⟩
    · cases none_
    · exact missing ((mem_subjects c s).mp mem)

end

/-! One dating more. -/

/-- A store with one more dating. -/
def Corpus.withDating (c : Corpus) (did : Did) (dating : Dating) : Corpus :=
  { c with library := { c.library with datings := c.library.datings.insert did dating } }

/-- A dating, where it is live. -/
def liveOne (c : Corpus) (axis : Axis) (e : Did × Dating) : Option Live :=
  if e.2.axis ≠ axis then none
  else if c.withdrawals.any (fun w => w.relation == asUid e.1) then none
  else if e.2.basis.any c.isUnfounded then none
  else if heldByLock c e.1 e.2 then none
  else if (resolveTarget c e.2.target).isEmpty then none
  else some ⟨e.1, e.2, ((e.2.basis.bind c.coreOf).map (fun u => ofStatus u.status)).getD
    .speculative, resolveTarget c e.2.target⟩

theorem enlist_live (c : Corpus) (axis : Axis) (st : List Live × Effective) (e : Did × Dating) :
    (enlist c axis st e).1 = st.1 ++ (liveOne c axis e).toList := by
  unfold enlist liveOne
  dsimp only
  split
  · exact (List.append_nil _).symm
  · split
    · exact (List.append_nil _).symm
    · split
      · exact (List.append_nil _).symm
      · split
        · exact (List.append_nil _).symm
        · split
          · exact (List.append_nil _).symm
          · rfl

theorem enlisted_eq (c : Corpus) (axis : Axis) :
    (enlisted c axis).1 = c.library.datings.entries.filterMap (liveOne c axis) := by
  have general (es : List (Did × Dating)) (st : List Live × Effective) :
      (es.foldl (enlist c axis) st).1 = st.1 ++ es.filterMap (liveOne c axis) := by
    induction es generalizing st with
    | nil => exact (List.append_nil _).symm
    | cons e es ih =>
      rw [List.foldl_cons, ih, enlist_live, List.filterMap_cons, List.append_assoc]
      cases liveOne c axis e <;> rfl
  exact general _ _

omit [Blake3] in
/-- A new key is put between what is before it and what is after. -/
theorem upsert_split {k : Did} {es : List (Did × Dating)} (fresh : OrdMap.lookup k es = none)
    (f : Option Dating → Dating) : ∃ pre post, es = pre ++ post ∧
      OrdMap.upsert k f es = pre ++ (k, f none) :: post := by
  induction es with
  | nil => exact ⟨[], [], rfl, rfl⟩
  | cons e es ih =>
    obtain ⟨j, v⟩ := e
    rw [OrdMap.lookup] at fresh
    rw [OrdMap.upsert]
    split
    · exact ⟨[], (j, v) :: es, rfl, rfl⟩
    · by_cases same : j = k
      · rw [if_pos same] at fresh
        cases fresh
      · rw [if_neg same] at fresh ⊢
        obtain ⟨pre, post, rfl, inserted⟩ := ih fresh
        exact ⟨(j, v) :: pre, post, rfl, congrArg ((j, v) :: ·) inserted⟩

section
variable {c : Corpus} {axis : Axis} {did : Did} {dating : Dating} {x : Live}

theorem live_one_did {e : Did × Dating} {l : Live} (live : liveOne c axis e = some l) :
    l.did = e.1 ∧ l.dating = e.2 := by
  unfold liveOne at live
  repeat (split at live; · cases live)
  cases live
  exact ⟨rfl, rfl⟩

theorem live_one_with {e : Did × Dating}
    (lock : heldByLock (c.withDating did dating) e.1 e.2 = heldByLock c e.1 e.2) :
    liveOne (c.withDating did dating) axis e = liveOne c axis e := by
  unfold liveOne
  rw [lock]
  rfl

/-- The datings that are live with one more that is, where it has no other held. -/
theorem enlisted_with (fresh : c.library.datings.get did = none)
    (locks : ∀ e ∈ c.library.datings.entries,
      heldByLock (c.withDating did dating) e.1 e.2 = heldByLock c e.1 e.2)
    (joined : liveOne (c.withDating did dating) axis (did, dating) = some x) :
    ∃ pre post, (enlisted c axis).1 = pre ++ post ∧
      (enlisted (c.withDating did dating) axis).1 = pre ++ x :: post ∧
      (∀ l ∈ pre, l.did < x.did) ∧ ∀ l ∈ post, x.did < l.did := by
  obtain ⟨pre, post, split_, inserted⟩ := upsert_split fresh (fun _ => dating)
  have held (es : List (Did × Dating)) (part : ∀ e ∈ es, e ∈ c.library.datings.entries) :
      es.filterMap (liveOne (c.withDating did dating) axis) = es.filterMap (liveOne c axis) :=
    List.filterMap_congr fun e mem => live_one_with (locks e (part e mem))
  have ascending := (c.library.datings.insert did dating).ascending
  change OrdMap.Ascending (OrdMap.upsert did _ _) at ascending
  rw [inserted] at ascending
  refine ⟨pre.filterMap (liveOne c axis), post.filterMap (liveOne c axis), ?_, ?_, ?_, ?_⟩
  · rw [enlisted_eq, split_, List.filterMap_append]
  · rw [enlisted_eq]
    change (OrdMap.upsert did _ _).filterMap _ = _
    rw [inserted, List.filterMap_append, List.filterMap_cons, joined, held pre, held post]
    · intro e mem
      rw [split_]
      exact List.mem_append_right _ mem
    · intro e mem
      rw [split_]
      exact List.mem_append_left _ mem
  · intro l mem
    obtain ⟨e, mem, live⟩ := List.mem_filterMap.mp mem
    rw [(live_one_did joined).1, (live_one_did live).1]
    exact (List.pairwise_append.mp ascending).2.2 e mem (did, dating) List.mem_cons_self
  · intro l mem
    obtain ⟨e, mem, live⟩ := List.mem_filterMap.mp mem
    rw [(live_one_did joined).1, (live_one_did live).1]
    exact List.rel_of_pairwise_cons (List.pairwise_append.mp ascending).2.1 mem

omit [Blake3] in
theorem mem_touched_with {pre post : List Live} {frees : List Free} {ms : Int64}
    (value : x.dating.value = .offset ms) (s : Subject) :
    s ∈ touched (pre ++ x :: post) frees ↔ s ∈ touched (pre ++ post) frees ∨ s ∈ x.scope := by
  simp only [touched, List.flatMap_append, List.flatMap_cons, value, List.append_nil,
    List.mem_append]
  tauto

theorem mem_involved_with {pre post : List Live} {ms : Int64}
    (value : x.dating.value = .offset ms) (before : (enlisted c axis).1 = pre ++ post)
    (after : (enlisted (c.withDating did dating) axis).1 = pre ++ x :: post) (s : Subject) :
    s ∈ involved (c.withDating did dating) axis ↔
      s ∈ involved c axis ∨ s ∈ x.scope ∧ c.holds s = true := by
  rw [mem_involved, mem_involved, before, after, mem_touched_with value]
  have frees : free (c.withDating did dating) = free c := rfl
  have holds : (c.withDating did dating).holds s = c.holds s := rfl
  have seeds : seed (c.withDating did dating) s axis = seed c s axis := rfl
  rw [frees, holds, seeds]
  tauto

end

/-! One offset more, worse evidenced. -/

omit [Blake3] in
/-- The subjects of a set among those of a larger. -/
theorem widened {a b : BTreeSet Subject} (part : ∀ s ∈ a, s ∈ b) :
    ∃ w : Widened, w.fewer = a.toList ∧ w.more = b.toList := by
  classical
  have inside : a.toList.Sublist b.toList := by
    refine List.sublist_of_subperm_of_pairwise (List.subperm_of_subset a.toList_nodup ?_)
      a.toList_pairwise b.toList_pairwise
    intro s mem
    rw [BTreeSet.mem_toList] at mem ⊢
    exact part s mem
  obtain ⟨f, places⟩ := List.sublist_iff_exists_orderEmbedding_getElem?_eq.mp inside
  exact ⟨⟨a.toList, b.toList, f, fun j => decide (∃ i, f i = j), f.strictMono,
    fun j => decide_eq_true_iff, fun i => (places i).symm, b.toList_nodup, a.toList_nodup⟩, rfl,
    rfl⟩

omit [Blake3] in
/-- A subject at a further place is not among the fewer. -/
theorem Widened.new_apart (w : Widened) {j : Nat} {t : Subject} (new : w.old j = false)
    (at_ : w.more[j]? = some t) : t ∉ w.fewer := by
  intro mem
  obtain ⟨i, there⟩ := List.mem_iff_getElem?.mp mem
  have place := (w.same i).trans there
  have same : w.index i = j := Option.some.inj
    (((index_of_iff w.nodup t _).mpr place).symm.trans ((index_of_iff w.nodup t j).mpr at_))
  rw [(w.old_iff j).mpr ⟨i, same⟩] at new
  cases new

omit [Blake3] in
/-- A subject that is not among the fewer is at a further place. -/
theorem Widened.apart_new (w : Widened) {j : Nat} {t : Subject} (apart : t ∉ w.fewer)
    (at_ : w.more[j]? = some t) : w.old j = false := by
  by_contra old
  obtain ⟨i, rfl⟩ := (w.old_iff j).mp (Bool.eq_true_of_not_eq_false old)
  exact apart (List.mem_of_getElem? ((w.same i).symm.trans at_))

/-- Whether one more live offset comes to nothing: it has no other dating held, the other
offsets over what it is over leave it without effect, and what it is over is in the network
already or no search gives up on a node. -/
structure Idle (c : Corpus) (axis : Axis) (dating : Dating) (x : Live) (ms : Int) : Prop where
  locks : ∀ e ∈ c.library.datings.entries,
    heldByLock (c.withDating x.did dating) e.1 e.2 = heldByLock c e.1 e.2
  harmless : ∀ s ∈ x.scope,
    Harmless (seed c s axis) (offsetsOf (enlisted c axis).1 s) x.did ms
  steady : (∀ s ∈ x.scope, c.holds s = true → s ∈ involved c axis) ∨ Steady c axis

section
variable {c : Corpus} {axis : Axis} {did : Did} {dating : Dating} {x : Live} {ms : Int64}
  {pre post : List Live} (value : x.dating.value = .offset ms)
  (before : (enlisted c axis).1 = pre ++ post)

include value before in
/-- Over what it is not over, one offset more changes no seed; over the rest, as the others are. -/
theorem offset_seed_with (earlier : ∀ l ∈ pre, l.did < x.did) (later : ∀ l ∈ post, x.did < l.did)
    {t : Subject} (weaker : t ∈ x.scope → ¬ Outranks (seed c t axis) x) :
    offsetSeed (c.withDating did dating) axis (pre ++ x :: post) t =
      offsetSeed c axis (enlisted c axis).1 t ↔
    (t ∈ x.scope →
      Harmless (seed c t axis) (offsetsOf (enlisted c axis).1 t) x.did ms.toInt) := by
  change (applyOffset c axis t (offsetsOf (pre ++ x :: post) t) (seed c t axis)).dated = _ ↔ _
  rw [before, offsetSeed, offsets_of_append, offsets_of_cons value, offsets_of_append]
  by_cases within : t ∈ x.scope
  · rw [if_pos (List.contains_iff_mem.mpr within), forall_prop_of_true within]
    exact apply_harmless_iff (fun o mem => earlier o.1 (mem_offsets_of mem).1)
      (fun o mem => later o.1 (mem_offsets_of mem).1) (weaker within)
  · rw [if_neg (mt List.contains_iff_mem.mp within)]
    exact iff_of_true rfl fun mem => absurd mem within

omit [Blake3] in
theorem mem_touched_live {live : List Live} {frees : List Free} {l : Live} (mem : l ∈ live)
    {s : Subject} (here : s ∈ l.scope ++ match l.dating.value with
      | .relative _ (.unit u) => [Subject.unit u]
      | _ => []) : s ∈ touched live frees :=
  List.mem_append_left _ (List.mem_flatMap.mpr ⟨l, mem, here⟩)

omit [Blake3] in
theorem live_known {w : Widened} {live : List Live} {frees : List Free}
    (known : ∀ s ∈ touched live frees, s ∈ w.more → s ∈ w.fewer) : ∀ l ∈ live, l.Known w := by
  intro l mem
  refine ⟨fun s within => known s (mem_touched_live mem (List.mem_append_left _ within)),
    fun allen u relative => ?_⟩
  refine known _ (mem_touched_live mem (List.mem_append_right _ ?_))
  rw [relative]
  exact List.mem_singleton_self _

omit [Blake3] in
theorem frees_known {w : Widened} {live : List Live} {frees : List Free}
    (known : ∀ s ∈ touched live frees, s ∈ w.more → s ∈ w.fewer) : ∀ f ∈ frees, f.Known w := by
  intro f mem
  cases f with
  | order kind earlier later status =>
    constructor
    · exact known _ (List.mem_append_right _
        (List.mem_flatMap.mpr ⟨_, mem, List.mem_cons_self⟩))
    · exact known _ (List.mem_append_right _
        (List.mem_flatMap.mpr ⟨_, mem, List.mem_cons_of_mem _ (List.mem_singleton_self _)⟩))
  | noLater kind subject than status =>
    exact known _ (List.mem_append_right _
      (List.mem_flatMap.mpr ⟨_, mem, List.mem_singleton_self _⟩))

omit [Blake3] in
/-- A seed with something in it is quiet. -/
theorem seed_quiet {c : Corpus} {s : Subject} {axis : Axis}
    (full : (seed c s axis).interval.isEmpty = false) : Quiet (seed c s axis) := by
  have near := seed_near c s axis
  refine ⟨full, near.lo, fun b bound => ?_⟩
  have bounds := near.hi b bound
  rw [minInstant]
  rw [maxInstant] at *
  omega

end

/-! What is in effect with the one more. -/

section
variable {c c' : Corpus} {axis : Axis}
  (seeds : ∀ t, seed c' t axis = seed c t axis) (frees : free c' = free c)
  (holds : ∀ t, c'.holds t = c.holds t)
  (offsets : ∀ t,
    offsetSeed c' axis (enlisted c' axis).1 t = offsetSeed c axis (enlisted c axis).1 t)
  (unseen : ∀ subjects state s,
    buildStratum subjects state (enlisted c' axis).1 (free c) s =
      buildStratum subjects state (enlisted c axis).1 (free c) s)

omit [Blake3] in
theorem mem_at {a : BTreeSet Subject} {t : Subject} (mem : t ∈ a) :
    ∃ i : Nat, a.toList[i]? = some t :=
  List.mem_iff_getElem?.mp ((BTreeSet.mem_toList _ _).mpr mem)

theorem offset_state_get {i : Nat} {t : Subject} (at_ : (involved c axis).toList[i]? = some t) :
    (offsetState c axis).1[i]? = some (offsetSeed c axis (enlisted c axis).1 t) :=
  apply_offsets_get c axis _ (BTreeSet.toList_nodup _) at_ _

theorem offset_state_beyond {i : Nat} (beyond : (involved c axis).toList[i]? = none) :
    (offsetState c axis).1[i]? = none := by
  rw [List.getElem?_eq_none_iff] at beyond ⊢
  rw [offset_state_length]
  exact beyond

include seeds frees holds offsets unseen

/-- Over the same subjects every stratum is the same. -/
theorem effective_same (same : involved c' axis = involved c axis) (s : Subject) :
    (effective c' axis).dated.get s = (effective c axis).dated.get s := by
  have states : (offsetState c' axis).1 = (offsetState c axis).1 := by
    apply List.ext_getElem?
    intro i
    cases at_ : (involved c axis).toList[i]? with
    | none => rw [offset_state_beyond at_, offset_state_beyond (same.symm ▸ at_)]
    | some t => rw [offset_state_get at_, offset_state_get (same.symm ▸ at_), offsets]
  have left : settled c' axis = settled c axis := by
    rw [settled, same, frees]
    exact strata_same (free c) unseen _ (offset_state_length c axis) states
  by_cases mem : s ∈ involved c axis
  · obtain ⟨i, at_⟩ := mem_at mem
    rw [effective_involved at_, effective_involved (same.symm ▸ at_), left]
  · rw [effective_apart mem, effective_apart (same.symm ▸ mem), seeds, holds]

/-- Over more subjects, none of which anything bore on, every stratum is placed in the one over
more, where no search gives up on a node. -/
theorem effective_wider (part : ∀ t ∈ involved c axis, t ∈ involved c' axis)
    (held : ∀ t ∈ involved c' axis, c.holds t = true) (steady : Steady c axis) (s : Subject) :
    (effective c' axis).dated.get s = (effective c axis).dated.get s := by
  obtain ⟨w, fewer, more⟩ := widened part
  have known : ∀ t ∈ touched (enlisted c axis).1 (free c), t ∈ w.more → t ∈ w.fewer := by
    intro t names mem
    rw [more, BTreeSet.mem_toList] at mem
    rw [fewer, BTreeSet.mem_toList]
    exact (mem_involved c axis t).mpr (Or.inl ⟨names, held t mem⟩)
  have added {t : Subject} (mem : t ∈ w.more) (apart : t ∉ w.fewer) :
      offsetSeed c axis (enlisted c axis).1 t = seed c t axis ∧ Quiet (seed c t axis) := by
    rw [more, BTreeSet.mem_toList] at mem
    rw [fewer, BTreeSet.mem_toList] at apart
    have none_ := mt (mem_involved c axis t).mpr apart
    rw [not_or] at none_
    have empty : offsetsOf (enlisted c axis).1 t = [] := by
      by_contra some_
      exact none_.1 ⟨touched_of_offsets some_, held t mem⟩
    refine ⟨?_, seed_quiet (Bool.eq_false_of_not_eq_true fun e => none_.2 ⟨held t mem, e⟩)⟩
    rw [offsetSeed, empty]
    rfl
  let own (j : Nat) : Dated :=
    (w.more[j]?).elim (.unevidenced .speculative) (fun t => seed c t axis)
  have own_at {j : Nat} {t : Subject} (at_ : w.more[j]? = some t) : own j = seed c t axis := by
    change (w.more[j]?).elim _ _ = _
    rw [at_]
    rfl
  have along : w.Along own (offsetState c axis).1 (offsetState c' axis).1 := by
    refine ⟨?_, ?_, fun i => ?_, fun j new inside => ?_⟩
    · rw [fewer, offset_state_length]
    · rw [more, offset_state_length]
    · have place := w.same i
      cases at_ : (involved c axis).toList[i]? with
      | none =>
        rw [fewer, more, at_] at place
        rw [offset_state_beyond at_, offset_state_beyond place]
      | some t =>
        rw [fewer, more, at_] at place
        rw [offset_state_get at_, offset_state_get place, offsets]
    · have at_ := List.getElem?_eq_getElem inside
      obtain ⟨same, _⟩ := added (List.getElem_mem inside) (w.new_apart new at_)
      rw [own_at at_, ← same, ← offsets]
      exact offset_state_get (more ▸ at_)
  have settled_ : w.Along own (settled c axis) (settled c' axis) := by
    rw [settled, settled, frees, ← fewer, ← more]
    refine strata_along (free c) unseen (live_known known) (frees_known known) ?_ _ along
      (fewer.symm ▸ steady)
    intro j new inside
    have at_ := List.getElem?_eq_getElem inside
    rw [own_at at_]
    exact (added (List.getElem_mem inside) (w.new_apart new at_)).2
  by_cases mem : s ∈ involved c axis
  · obtain ⟨i, at_⟩ := mem_at mem
    have place := w.same i
    rw [fewer, more, at_] at place
    rw [effective_involved at_, effective_involved place, settled_.same]
  · rw [effective_apart mem]
    by_cases mem' : s ∈ involved c' axis
    · obtain ⟨j, at_⟩ := mem_at mem'
      rw [← more] at at_
      have inside := (List.getElem?_eq_some_iff.mp at_).1
      have apart : s ∉ w.fewer := by
        rw [fewer, BTreeSet.mem_toList]
        exact mem
      have new := w.apart_new apart at_
      rw [effective_involved (more ▸ at_), settled_.new j new inside, if_pos (held s mem'),
        own_at at_]
    · rw [effective_apart mem', seeds, holds]

end

/-- What is in effect with one more offset that comes to nothing is what was. -/
theorem idle_effective {c : Corpus} {axis : Axis} {dating : Dating} {x : Live} {ms : Int64}
    (fresh : c.library.datings.get x.did = none)
    (joined : liveOne (c.withDating x.did dating) axis (x.did, dating) = some x)
    (value : dating.value = .offset ms) (weaker : ∀ s ∈ x.scope, ¬ Outranks (seed c s axis) x)
    (idle : Idle c axis dating x ms.toInt) (s : Subject) :
    (effective (c.withDating x.did dating) axis).dated.get s =
      (effective c axis).dated.get s := by
  obtain ⟨pre, post, before, after, earlier, later⟩ := enlisted_with fresh idle.locks joined
  have value' : x.dating.value = .offset ms := by rw [(live_one_did joined).2, value]
  have grown := mem_involved_with value' before after
  have offsets (t : Subject) : offsetSeed (c.withDating x.did dating) axis
      (enlisted (c.withDating x.did dating) axis).1 t =
        offsetSeed c axis (enlisted c axis).1 t := by
    rw [after]
    exact (offset_seed_with value' before earlier later (weaker t)).mpr (idle.harmless t)
  have unseen (subjects : List Subject) (state : List Dated) (st : TimeStatus) :
      buildStratum subjects state (enlisted (c.withDating x.did dating) axis).1 (free c) st =
        buildStratum subjects state (enlisted c axis).1 (free c) st := by
    rw [after, before]
    exact build_offset value' pre post subjects state (free c) st
  rcases idle.steady with already | steady
  · refine @effective_same _ c (c.withDating x.did dating) axis (fun _ => rfl) rfl (fun _ => rfl)
      offsets unseen ?_ s
    apply BTreeSet.ext_mem
    intro t
    rw [grown]
    exact or_iff_left_of_imp fun more => already t more.1 more.2
  · refine @effective_wider _ c (c.withDating x.did dating) axis (fun _ => rfl) rfl (fun _ => rfl)
      offsets unseen (fun t mem => (grown t).mpr (Or.inl mem)) (fun t mem => ?_)
      steady s
    rcases (mem_involved _ axis t).mp mem with ⟨_, held⟩ | ⟨held, _⟩
    · exact held
    · exact held

/-- A dating that is live, as the engine lists it. -/
theorem live_joined {c : Corpus} {axis : Axis} {dating : Dating} {x : Live}
    (live : x ∈ (enlisted (c.withDating x.did dating) axis).1) :
    liveOne (c.withDating x.did dating) axis (x.did, dating) = some x := by
  rw [enlisted_eq] at live
  obtain ⟨⟨did, given⟩, held, live⟩ := List.mem_filterMap.mp live
  have same : did = x.did := (live_one_did live).1.symm
  subst same
  have found := (BTreeMap.mem_entries_iff _ _ _).mp held
  have put := (BTreeMap.get_insert c.library.datings x.did x.did dating).trans (if_pos rfl)
  have here : given = dating := Option.some.inj (found.symm.trans put)
  rw [here] at live
  exact live

section
variable (c : Corpus) (axis : Axis) (s : Subject)

/-- Whether the seed of a subject of the network is shifted before the strata. -/
def SeedShifted : Prop :=
  ∃ (i : Nat) (d : Dated) (did : Did) (at_ : TimeStatus),
    (involved c axis).toList[i]? = some s ∧ (offsetState c axis).1[i]? = some d ∧
      d.whyLo = some ⟨.offset did, none, at_⟩

theorem seed_shifted_iff (held : c.holds s = true) :
    SeedShifted c axis s ↔ OffsetMoves c axis s (offsetsOf (enlisted c axis).1 s) := by
  constructor
  · rintro ⟨i, d, did, at_, named, there, moved⟩
    rw [offset_state_get named] at there
    cases there
    exact ⟨did, at_, moved⟩
  · rintro ⟨did, at_, moved⟩
    have some_ : offsetsOf (enlisted c axis).1 s ≠ [] := by
      intro none_
      rw [none_] at moved
      exact seed_unmoved c s axis did at_ moved
    have mem : s ∈ involved c axis :=
      (mem_involved c axis s).mpr (Or.inl ⟨touched_of_offsets some_, held⟩)
    obtain ⟨i, named⟩ := mem_at mem
    exact ⟨i, _, did, at_, named, offset_state_get named, moved⟩

end

end

section
local instance plainOffsetText : Unicode := .plain
local instance modPrimeOffsetHash : Blake3 := .modPrime

/-- A claim whose source was observed at an instant. -/
def observedAt (ms : UInt64) : UnitCore :=
  { bareClaim "a" present_a ∅ with
    source := some ⟨⟨.tool, none, by simp⟩, "log", none, some ms, none, none, none, ∅,
      SourceRef.no_span, SourceRef.no_span_located⟩
    sourced := fun _ => rfl }

def observedClaim : Subject := .unit (canonicalUid (observedAt 1000))

def correctedBy : AgentId := ⟨"human:a", human_a_accepted⟩

/-- An offset over the claim with no basis given. -/
def baselessOffset (ms : Int64) (wallMs : UInt64) : Dating :=
  ⟨.unit (canonicalUid (observedAt 1000)), .said, .offset ms, none, correctedBy,
    ⟨wallMs, 0, correctedBy⟩, ∅⟩

def didOf (d : Dating) : Did := Digest.of (datingBytes d)

/-- The claim, and one offset over it. -/
def offsetOnce : Corpus where
  read := (Store.fromRecords [.unit (observedAt 1000)]).read
  library := { datings := BTreeMap.ofList [(didOf (baselessOffset 5 1), baselessOffset 5 1)] }

def baselessLive (ms : Int64) (wallMs : UInt64) : Live :=
  ⟨didOf (baselessOffset ms wallMs), baselessOffset ms wallMs, .speculative, [observedClaim]⟩

theorem offset_once_involved : observedClaim ∈ involved offsetOnce .said := by
  decide +kernel

end

end Smysl
