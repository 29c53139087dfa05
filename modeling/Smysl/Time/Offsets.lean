import Smysl.Time.Findings

/-!
Offsets over one subject. They are compared with each other before their statuses are
looked at, and where they agree only the first is tested: what that makes of a seed,
when it is moved, and when one offset more makes no difference.
-/
namespace Smysl

variable [Blake3]

/-! The offsets over a subject. -/

/-- Whether an offset is no worse evidenced than either bound it would move. -/
def Outranks (base : Dated) (l : Live) : Prop := base.loStatus ≤ l.status ∧ base.hiStatus ≤ l.status

instance (base : Dated) (l : Live) : Decidable (Outranks base l) :=
  inferInstanceAs (Decidable (_ ∧ _))

def Agree (os : List (Live × Int)) : Prop := ∀ o ∈ os, ∀ p ∈ os, o.2 = p.2

/-- A seed moved by an offset. -/
def shiftedBy (base : Dated) (l : Live) (ms : Int) : Dated :=
  let at_ := min l.status base.loStatus
  ⟨base.interval.shift ms, at_, at_, some ⟨.offset l.did, none, at_⟩,
    some ⟨.offset l.did, none, at_⟩, false⟩

/-- What the code tests of the one offset it looks at. -/
def Admitted (base : Dated) (l : Live) : Prop := base.interval.isUndated = false ∧ Outranks base l

omit [Blake3] in
theorem agree_cons_iff (l : Live) (ms : Int) (rest : List (Live × Int)) :
    Agree ((l, ms) :: rest) ↔ rest.any (fun o => o.2 != ms) = false := by
  rw [List.any_eq_false]
  constructor
  · intro agree o mem
    rw [agree o (List.mem_cons_of_mem _ mem) (l, ms) List.mem_cons_self]
    simp
  · intro same
    have each : ∀ o ∈ (l, ms) :: rest, o.2 = ms := by
      rw [List.forall_mem_cons]
      exact ⟨rfl, fun o mem => by simpa using same o mem⟩
    exact fun o mem p mem' => (each o mem).trans (each p mem').symm

omit [Blake3] in
theorem not_admitted_iff {base : Dated} {l : Live} : ¬ Admitted base l ↔
    (base.interval.isUndated || decide (l.status < base.loStatus) ||
      decide (l.status < base.hiStatus)) = true := by
  rw [Admitted, Outranks, Bool.or_eq_true, Bool.or_eq_true, decide_eq_true_eq, decide_eq_true_eq,
    ← not_le, ← not_le, ← Bool.not_eq_true]
  tauto

section
variable {c : Corpus} {axis : Axis} {s : Subject} {os : List (Live × Int)} {d : Dated}

theorem apply_disagreeing (apart : ¬ Agree os) :
    (applyOffset c axis s os d).dated = { d with contested := true } := by
  cases os with
  | nil => exact absurd (fun o mem => nomatch mem) apart
  | cons o rest =>
    rw [agree_cons_iff, Bool.not_eq_false] at apart
    rw [applyOffset]
    exact congrArg Shifted.dated (if_pos apart)

theorem apply_refused (agree : Agree os)
    (refused : ∀ o, os.head? = some o → ¬ Admitted (seed c s axis) o.1) :
    (applyOffset c axis s os d).dated = d := by
  cases os with
  | nil => rfl
  | cons o rest =>
    have refused := not_admitted_iff.mp (refused o rfl)
    rw [agree_cons_iff] at agree
    rw [applyOffset]
    dsimp only
    rw [agree, if_neg Bool.false_ne_true, if_pos refused]

theorem apply_admitted {o : Live × Int} (agree : Agree os) (first : os.head? = some o)
    (admitted : Admitted (seed c s axis) o.1) :
    (applyOffset c axis s os d).dated = shiftedBy (seed c s axis) o.1 o.2 := by
  cases os with
  | nil => cases first
  | cons p rest =>
    cases first
    have admitted := mt not_admitted_iff.mpr (not_not.mpr admitted)
    rw [agree_cons_iff] at agree
    rw [applyOffset]
    dsimp only
    rw [agree, if_neg Bool.false_ne_true, if_neg admitted]
    rfl

/-- Whether the offsets over a subject shift its seed. -/
def OffsetMoves (c : Corpus) (axis : Axis) (s : Subject) (os : List (Live × Int)) : Prop :=
  ∃ did at_, (applyOffset c axis s os (seed c s axis)).dated.whyLo = some ⟨.offset did, none, at_⟩

omit [Blake3] in
theorem seed_unmoved (c : Corpus) (s : Subject) (axis : Axis) (did : Did) (at_ : TimeStatus) :
    (seed c s axis).whyLo ≠ some ⟨.offset did, none, at_⟩ := by
  unfold seed
  split
  · exact fun none_ => nomatch none_
  · cases s with
    | unit uid =>
      dsimp only
      cases (c.coreOf uid).bind UnitCore.source with
      | none => exact fun none_ => nomatch none_
      | some source =>
        dsimp only
        cases source.published.bind Edtf.valueOf with
        | some v => exact fun recorded => nomatch recorded
        | none =>
          dsimp only
          cases source.observed.filter (fun ms => decide ((ms.toNat : Int) ≤ maxInstant)) with
          | none => exact fun none_ => nomatch none_
          | some ms => exact fun recorded => nomatch recorded
    | manifest mid =>
      dsimp only
      cases c.library.manifests.get mid with
      | none => exact fun none_ => nomatch none_
      | some m =>
        dsimp only
        cases m.published.bind Edtf.valueOf with
        | none => exact fun none_ => nomatch none_
        | some v => exact fun recorded => nomatch recorded

/-- A seed is shifted where all its offsets agree and the first of them is admitted. -/
theorem offset_moves_iff : OffsetMoves c axis s os ↔
    Agree os ∧ ∃ o, os.head? = some o ∧ Admitted (seed c s axis) o.1 := by
  rw [OffsetMoves]
  by_cases agree : Agree os
  · rw [and_iff_right agree]
    by_cases admitted : ∃ o, os.head? = some o ∧ Admitted (seed c s axis) o.1
    · refine iff_of_true ?_ admitted
      obtain ⟨o, first, admitted⟩ := admitted
      rw [apply_admitted agree first admitted]
      exact ⟨_, _, rfl⟩
    · refine iff_of_false ?_ admitted
      rw [apply_refused agree fun o first good => admitted ⟨o, first, good⟩]
      rintro ⟨did, at_, moved⟩
      exact seed_unmoved c s axis did at_ moved
  · refine iff_of_false ?_ (fun both => agree both.1)
    rw [apply_disagreeing agree]
    rintro ⟨did, at_, moved⟩
    exact seed_unmoved c s axis did at_ moved

/-- Whether some offsets over a subject are no worse evidenced than its bounds, and agree. -/
def Entitled (base : Dated) (os : List (Live × Int)) : Prop :=
  (∃ o ∈ os, Outranks base o.1) ∧
    ∀ o ∈ os, ∀ p ∈ os, Outranks base o.1 → Outranks base p.1 → o.2 = p.2

/-- Whether the others over a subject, and the order, leave it to the better offsets. -/
structure Unshadowed (base : Dated) (os : List (Live × Int)) : Prop where
  agree : Agree os
  dated : base.interval.isUndated = false
  first : ∀ o, os.head? = some o → Outranks base o.1

theorem offset_moves_entitled_iff : (OffsetMoves c axis s os ↔ Entitled (seed c s axis) os) ↔
    (Entitled (seed c s axis) os → Unshadowed (seed c s axis) os) := by
  have only : OffsetMoves c axis s os → Entitled (seed c s axis) os := by
    rw [offset_moves_iff]
    rintro ⟨agree, o, first, admitted⟩
    exact ⟨⟨o, List.mem_of_head? first, admitted.2⟩, fun p mem q mem' _ _ => agree p mem q mem'⟩
  constructor
  · intro same entitled
    obtain ⟨agree, o, first, admitted⟩ := offset_moves_iff.mp (same.mpr entitled)
    refine ⟨agree, admitted.1, fun p first' => ?_⟩
    rw [first] at first'
    cases first'
    exact admitted.2
  · refine fun clear => ⟨only, fun entitled => ?_⟩
    obtain ⟨agree, dated, best⟩ := clear entitled
    obtain ⟨⟨o, mem, _⟩, _⟩ := entitled
    rw [offset_moves_iff]
    cases os with
    | nil => cases mem
    | cons p rest => exact ⟨agree, p, rfl, dated, best p rfl⟩

/-! One offset more. -/

/-- Whether a further offset, worse evidenced than a seed's bounds, leaves what the others make
of the seed: there are none, or they are at odds already, or it agrees with them and either
comes after one of them or the first of them is not admitted either. -/
def Harmless (base : Dated) (os : List (Live × Int)) (did : Did) (ms : Int) : Prop :=
  os = [] ∨ ¬ Agree os ∨ (∀ o ∈ os, o.2 = ms) ∧
    ((∃ o ∈ os, o.1.did < did) ∨ ∀ o, os.head? = some o → ¬ Admitted base o.1)

theorem apply_harmless {pre post : List (Live × Int)} {x : Live} {ms : Int}
    (after : ∀ o ∈ post, x.did < o.1.did) (weaker : ¬ Outranks (seed c s axis) x)
    (harmless : Harmless (seed c s axis) (pre ++ post) x.did ms) :
    (applyOffset c axis s (pre ++ (x, ms) :: post) d).dated =
      (applyOffset c axis s (pre ++ post) d).dated := by
  have part : ∀ o ∈ pre ++ post, o ∈ pre ++ (x, ms) :: post := by
    intro o mem
    rw [List.mem_append] at mem ⊢
    exact mem.imp_right (List.mem_cons_of_mem _)
  have refused : ¬ Admitted (seed c s axis) x := fun admitted => weaker admitted.2
  rcases harmless with none_ | apart | ⟨same, order⟩
  · obtain ⟨rfl, rfl⟩ := List.append_eq_nil_iff.mp none_
    rw [List.nil_append, List.append_nil]
    have alone : Agree [(x, ms)] := (agree_cons_iff x ms []).mpr rfl
    rw [apply_refused alone]
    · rfl
    · intro o first
      cases first
      exact refused
  · rw [apply_disagreeing apart, apply_disagreeing]
    exact fun agree => apart fun o mem p mem' => agree o (part o mem) p (part p mem')
  · have agree : Agree (pre ++ post) := fun o mem p mem' => (same o mem).trans (same p mem').symm
    have all : ∀ o ∈ pre ++ (x, ms) :: post, o.2 = ms := by
      intro o mem
      rcases List.mem_append.mp mem with before | rest
      · exact same o (List.mem_append_left _ before)
      · rcases List.mem_cons.mp rest with rfl | later
        · rfl
        · exact same o (List.mem_append_right _ later)
    have agree' : Agree (pre ++ (x, ms) :: post) :=
      fun o mem p mem' => (all o mem).trans (all p mem').symm
    cases pre with
    | nil =>
      simp only [List.nil_append] at *
      have first : ∀ o, post.head? = some o → ¬ Admitted (seed c s axis) o.1 := by
        rcases order with ⟨o, mem, lt⟩ | first
        · exact absurd (after o mem) (not_lt.mpr lt.le)
        · exact first
      rw [apply_refused agree first, apply_refused agree']
      intro o head
      cases head
      exact refused
    | cons p pre =>
      by_cases admitted : Admitted (seed c s axis) p.1
      · rw [apply_admitted agree rfl admitted, apply_admitted agree' rfl admitted]
      · have kept (o : Live × Int) (head : some p = some o) : ¬ Admitted (seed c s axis) o.1 := by
          cases head
          exact admitted
        rw [apply_refused agree kept, apply_refused agree' kept]

/-- Nothing else leaves a seed as the others make it. -/
theorem apply_harmless_iff {pre post : List (Live × Int)} {x : Live} {ms : Int}
    (before : ∀ o ∈ pre, o.1.did < x.did) (after : ∀ o ∈ post, x.did < o.1.did)
    (weaker : ¬ Outranks (seed c s axis) x) :
    (applyOffset c axis s (pre ++ (x, ms) :: post) (seed c s axis)).dated =
      (applyOffset c axis s (pre ++ post) (seed c s axis)).dated ↔
    Harmless (seed c s axis) (pre ++ post) x.did ms := by
  refine ⟨fun same => ?_, apply_harmless after weaker⟩
  by_contra harm
  rw [Harmless, not_or, not_or, not_not] at harm
  obtain ⟨some_, agree, harm⟩ := harm
  by_cases all : ∀ o ∈ pre ++ post, o.2 = ms
  · -- It agrees, and comes first: the one that counted no longer does.
    have first := not_and.mp harm all
    rw [not_or] at first
    obtain ⟨earliest, admitted⟩ := first
    have empty : pre = [] := List.eq_nil_iff_forall_not_mem.mpr
      fun o mem => earliest ⟨o, List.mem_append_left _ mem, before o mem⟩
    subst empty
    simp only [List.nil_append] at *
    obtain ⟨o, head, admitted⟩ : ∃ o, post.head? = some o ∧ Admitted (seed c s axis) o.1 := by
      by_contra none_
      exact admitted fun o head good => none_ ⟨o, head, good⟩
    have agree' : Agree ((x, ms) :: post) := by
      rw [agree_cons_iff, List.any_eq_false]
      intro o mem
      rw [all o mem]
      simp
    rw [apply_admitted agree head admitted, apply_refused agree'] at same
    · exact seed_unmoved c s axis _ _ (congrArg Dated.whyLo same)
    · intro p first
      cases first
      exact fun good => weaker good.2
  · -- It is at odds with the others, which were not at odds.
    have apart : ¬ Agree (pre ++ (x, ms) :: post) := by
      refine fun agree' => all fun o mem => agree' o ?_ (x, ms) ?_
      · rw [List.mem_append] at mem ⊢
        exact mem.imp_right (List.mem_cons_of_mem _)
      · exact List.mem_append_right _ List.mem_cons_self
    rw [apply_disagreeing apart] at same
    have kept : (applyOffset c axis s (pre ++ post) (seed c s axis)).dated.contested = false := by
      by_cases admitted : ∃ o, (pre ++ post).head? = some o ∧ Admitted (seed c s axis) o.1
      · obtain ⟨o, head, admitted⟩ := admitted
        rw [apply_admitted agree head admitted]
        rfl
      · rw [apply_refused agree fun o head good => admitted ⟨o, head, good⟩]
        exact seed_uncontested c s axis
    rw [← same] at kept
    cases kept

end

/-! What the offsets make of every subject's seed. -/

omit [Blake3] in
theorem offsets_of_append (pre post : List Live) (s : Subject) :
    offsetsOf (pre ++ post) s = offsetsOf pre s ++ offsetsOf post s := List.filterMap_append

omit [Blake3] in
theorem offsets_of_cons {x : Live} {ms : Int64} (value : x.dating.value = .offset ms)
    (post : List Live) (s : Subject) : offsetsOf (x :: post) s =
      if x.scope.contains s then (x, ms.toInt) :: offsetsOf post s else offsetsOf post s := by
  rw [offsetsOf, List.filterMap_cons, value]
  dsimp only
  by_cases within : x.scope.contains s = true
  · rw [if_pos within, if_pos within]
    rfl
  · rw [if_neg within, if_neg within]
    rfl

omit [Blake3] in
theorem mem_offsets_of {live : List Live} {s : Subject} {o : Live × Int}
    (mem : o ∈ offsetsOf live s) :
    o.1 ∈ live ∧ s ∈ o.1.scope ∧ ∃ ms, o.1.dating.value = .offset ms := by
  obtain ⟨l, held, made⟩ := List.mem_filterMap.mp mem
  cases value : l.dating.value with
  | offset ms =>
    rw [value] at made
    dsimp only at made
    split at made
    · rename_i within
      cases made
      exact ⟨held, List.contains_iff_mem.mp within, ms, value⟩
    · cases made
  | _ =>
    rw [value] at made
    cases made

omit [Blake3] in
/-- A subject over which there are offsets is among those the offsets are applied to. -/
theorem mem_offset_subjects {live : List Live} {s : Subject} (some_ : offsetsOf live s ≠ []) :
    s ∈ offsetSubjects live := by
  obtain ⟨o, mem⟩ := List.exists_mem_of_ne_nil _ some_
  obtain ⟨held, within, ms, value⟩ := mem_offsets_of mem
  rw [offsetSubjects, sortedOnce, BTreeSet.mem_toList, BTreeSet.mem_ofList, List.mem_flatMap]
  refine ⟨o.1, held, ?_⟩
  rw [value]
  exact within

omit [Blake3] in
/-- A subject over which there are offsets is among those that constraints name. -/
theorem touched_of_offsets {live : List Live} {frees : List Free} {s : Subject}
    (some_ : offsetsOf live s ≠ []) : s ∈ touched live frees := by
  obtain ⟨o, mem⟩ := List.exists_mem_of_ne_nil _ some_
  obtain ⟨held, within, _⟩ := mem_offsets_of mem
  exact List.mem_append_left _ (List.mem_flatMap.mpr ⟨o.1, held, List.mem_append_left _ within⟩)

end Smysl
