import Smysl.Time.Frame
import Smysl.Time.Findings

/-!
One stratum over some subjects and over more, where nothing bears on those added but
their own bounds: the networks are one placed in the other, and what a stratum makes
of each subject is the same.
-/
namespace Smysl
open Stn (Network Solution Placing Placed Framed Patient node reference)

/-- The subjects of one network among those of another. -/
structure Widened where
  fewer : List Subject
  more : List Subject
  index : Nat → Nat
  old : Nat → Bool
  ascending : StrictMono index
  old_iff : ∀ j, old j = true ↔ ∃ i, index i = j
  same : ∀ i, more[index i]? = fewer[i]?
  nodup : more.Nodup
  nodup_fewer : fewer.Nodup

namespace Widened
variable (w : Widened)

/-- The nodes of one network among those of the other. -/
def placing : Placing := Placing.ofVars w.index w.old w.ascending w.old_iff

theorem to_node (i : Nat) : w.placing.to_ (node i) = node (w.index i) := rfl

theorem old_node (j : Nat) : w.placing.old (node j) = w.old j := rfl

theorem index_lt (i : Nat) : w.index i < w.more.length ↔ i < w.fewer.length := by
  rw [← not_le, ← not_le, ← List.getElem?_eq_none_iff, ← List.getElem?_eq_none_iff, w.same]

end Widened

theorem index_of_iff {subjects : List Subject} (nodup : subjects.Nodup) (s : Subject) (i : Nat) :
    indexOf subjects s = some i ↔ subjects[i]? = some s := by
  rw [indexOf, List.findIdx?_eq_some_iff_getElem]
  constructor
  · rintro ⟨inside, here, _⟩
    rw [List.getElem?_eq_getElem inside]
    exact congrArg some (beq_iff_eq.mp here)
  · intro found
    obtain ⟨inside, here⟩ := List.getElem?_eq_some_iff.mp found
    refine ⟨inside, beq_iff_eq.mpr here, fun j before => ?_⟩
    rw [beq_iff_eq]
    intro there
    have same := (List.Nodup.getElem_inj_iff nodup).mp (there.trans here.symm)
    omega

/-- A subject that is only among more where it is among the fewer is found at its place. -/
theorem Widened.index_of (w : Widened) {s : Subject} (known : s ∈ w.more → s ∈ w.fewer) :
    indexOf w.more s = (indexOf w.fewer s).map w.index := by
  cases found : indexOf w.fewer s with
  | some i =>
    rw [index_of_iff w.nodup_fewer] at found
    rw [Option.map_some, index_of_iff w.nodup, w.same]
    exact found
  | none =>
    rw [Option.map_none]
    cases found' : indexOf w.more s with
    | none => rfl
    | some j =>
      rw [index_of_iff w.nodup] at found'
      obtain ⟨i, inside, here⟩ := List.mem_iff_getElem.mp (known (List.mem_of_getElem? found'))
      have there := (index_of_iff w.nodup_fewer s i).mpr
        (List.getElem?_eq_some_iff.mpr ⟨inside, here⟩)
      rw [there] at found
      cases found

theorem index_of_lt {subjects : List Subject} (nodup : subjects.Nodup) {s : Subject} {i : Nat}
    (found : indexOf subjects s = some i) : i < subjects.length := by
  rw [index_of_iff nodup] at found
  exact (List.getElem?_eq_some_iff.mp found).1

/-! The constraints. -/

/-- What the further subjects' own constraints may be. -/
def OwnBounds (w : Widened) (own : Nat → TimeInterval) (edges : List Stn.Edge) : Prop :=
  ∀ e ∈ edges, ∀ j, w.old j = false →
    (e.dst = node j → ∃ b, (own j).hi = .at_ b ∧ e.weight = lastOf b) ∧
    (e.src = node j → ∃ a, (own j).lo = .at_ a ∧ e.weight = -a)

/-- Two strata in the making, one over more subjects. -/
structure Built (w : Widened) (own : Nat → TimeInterval) (small large : Stratum) : Prop where
  causes : large.causes = small.causes
  vars : small.net.vars = w.fewer.length
  vars' : large.net.vars = w.more.length
  placed : Placed w.placing small.net.edges large.net.edges
  proper : large.net.Proper
  own : OwnBounds w own large.net.edges

namespace Built
variable {w : Widened} {own : Nat → TimeInterval} {small large : Stratum}

/-- A constraint between nodes of both. -/
theorem constrain (built : Built w own small large) (u v : Nat) (weight : Int) (by_ : Nat)
    (src : w.placing.to_ u ≤ w.more.length) (dst : w.placing.to_ v ≤ w.more.length) :
    Built w own { small with net := small.net.constrain u v weight by_ }
      { large with
        net := large.net.constrain (w.placing.to_ u) (w.placing.to_ v) weight by_ } := by
  refine ⟨built.causes, built.vars, built.vars', ⟨?_, ?_⟩, ?_, ?_⟩
  · change (large.net.edges ++ [_]).filter _ = (small.net.edges ++ [_]).map _
    rw [List.filter_append, built.placed.kept, List.map_append]
    congr 1
    rw [List.filter_cons_of_pos, List.filter_nil]
    · rfl
    · change (w.placing.old (w.placing.to_ u) && w.placing.old (w.placing.to_ v)) = true
      rw [w.placing.old_to, w.placing.old_to]
      rfl
  · intro e mem
    rcases List.mem_append.mp mem with earlier | last
    · exact built.placed.further e earlier
    · rw [List.mem_singleton.mp last]
      exact Or.inl ⟨w.placing.old_to u, w.placing.old_to v⟩
  · intro e mem
    change _ ≤ large.net.vars ∧ _ ≤ large.net.vars
    rcases List.mem_append.mp mem with earlier | last
    · exact built.proper e earlier
    · rw [List.mem_singleton.mp last, built.vars']
      exact ⟨src, dst⟩
  · intro e mem j new
    rcases List.mem_append.mp mem with earlier | last
    · exact built.own e earlier j new
    · rw [List.mem_singleton.mp last]
      have apart (x : Nat) : w.placing.to_ x ≠ node j := w.placing.new_ne new
      exact ⟨fun same => absurd same (apart v), fun same => absurd same (apart u)⟩

variable {i : Nat} (inside : w.index i < w.more.length) (b : TimeBound) (by_ : Nat)

theorem reference_le : w.placing.to_ reference ≤ w.more.length := by
  rw [w.placing.reference]
  exact Nat.zero_le _

include inside in
theorem node_le : w.placing.to_ (node i) ≤ w.more.length := inside

include inside

theorem lower (built : Built w own small large) :
    Built w own (small.lower i b by_) (large.lower (w.index i) b by_) := by
  cases b with
  | unbounded => exact built
  | at_ a => exact built.constrain (node i) reference (-a) by_ (node_le inside) reference_le

theorem upperAt (built : Built w own small large) :
    Built w own (small.upperAt i b by_) (large.upperAt (w.index i) b by_) := by
  cases b with
  | unbounded => exact built
  | at_ a => exact built.constrain reference (node i) a by_ reference_le (node_le inside)

theorem upper (built : Built w own small large) :
    Built w own (small.upper i b by_) (large.upper (w.index i) b by_) := by
  cases b with
  | unbounded => exact built
  | at_ a => exact built.constrain reference (node i) (lastOf a) by_ reference_le (node_le inside)

theorem lowerLast (built : Built w own small large) :
    Built w own (small.lowerLast i b by_) (large.lowerLast (w.index i) b by_) := by
  cases b with
  | unbounded => exact built
  | at_ a =>
    exact built.constrain (node i) reference (-lastOf a) by_ (node_le inside) reference_le

theorem noLater {j : Nat} (inside' : w.index j < w.more.length)
    (built : Built w own small large) :
    Built w own (small.noLater i j by_) (large.noLater (w.index i) (w.index j) by_) :=
  built.constrain (node j) (node i) 0 by_ (node_le inside') (node_le inside)

theorem same {j : Nat} (inside' : w.index j < w.more.length)
    (built : Built w own small large) :
    Built w own (small.same i j by_) (large.same (w.index i) (w.index j) by_) :=
  (built.noLater inside by_ inside').noLater inside' by_ inside

omit inside

theorem pushCause (built : Built w own small large) (cause : Cause) (through : Option Subject) :
    Built w own (small.pushCause cause through).1 (large.pushCause cause through).1 ∧
      (large.pushCause cause through).2 = (small.pushCause cause through).2 := by
  refine ⟨⟨?_, built.vars, built.vars', built.placed, built.proper, built.own⟩, ?_⟩
  · change large.causes ++ _ = small.causes ++ _
    rw [built.causes]
  · change large.causes.length = small.causes.length
    rw [built.causes]

/-- A further subject's own bounds. -/
theorem bounds_new (built : Built w own small large) {j : Nat} (new : w.old j = false)
    (inside : j < w.more.length) :
    Built w own small ((large.lower j (own j).lo by_).upper j (own j).hi by_) := by
  have further {st : Stratum} (built : Built w own small st) (u v : Nat) (weight : Int)
      (shape : (u = node j ∧ v = reference ∧ ∃ a, (own j).lo = .at_ a ∧ weight = -a) ∨
        (u = reference ∧ v = node j ∧ ∃ b, (own j).hi = .at_ b ∧ weight = lastOf b)) :
      Built w own small { st with net := st.net.constrain u v weight by_ } := by
    have new' : w.placing.old (node j) = false := new
    have root := Placed.old_reference w.placing
    have apart : node j ≠ reference := Nat.succ_ne_zero j
    refine ⟨built.causes, built.vars, built.vars', ⟨?_, ?_⟩, ?_, ?_⟩
    · change (st.net.edges ++ [_]).filter _ = _
      rw [List.filter_append, built.placed.kept, List.filter_cons_of_neg, List.filter_nil,
        List.append_nil]
      rcases shape with ⟨rfl, _, _⟩ | ⟨_, rfl, _⟩
      · rw [new', Bool.false_and]
        decide
      · rw [new', Bool.and_false]
        decide
    · intro e mem
      rcases List.mem_append.mp mem with earlier | last
      · exact built.placed.further e earlier
      · rw [List.mem_singleton.mp last]
        rcases shape with ⟨rfl, rfl, _⟩ | ⟨rfl, rfl, _⟩
        · exact Or.inr (Or.inr ⟨new', rfl⟩)
        · exact Or.inr (Or.inl ⟨rfl, new'⟩)
    · intro e mem
      change _ ≤ st.net.vars ∧ _ ≤ st.net.vars
      rcases List.mem_append.mp mem with earlier | last
      · exact built.proper e earlier
      · rw [List.mem_singleton.mp last, built.vars']
        rcases shape with ⟨rfl, rfl, _⟩ | ⟨rfl, rfl, _⟩
        · exact ⟨inside, Nat.zero_le _⟩
        · exact ⟨Nat.zero_le _, inside⟩
    · intro e mem k fresh
      rcases List.mem_append.mp mem with earlier | last
      · exact built.own e earlier k fresh
      · rw [List.mem_singleton.mp last]
        have other : node k ≠ reference := Nat.succ_ne_zero k
        rcases shape with ⟨rfl, rfl, given⟩ | ⟨rfl, rfl, given⟩
        · refine ⟨fun same => absurd same.symm other, fun same => ?_⟩
          rw [← Nat.succ.inj same]
          exact given
        · refine ⟨fun same => ?_, fun same => absurd same.symm other⟩
          rw [← Nat.succ.inj same]
          exact given
  have first : Built w own small (large.lower j (own j).lo by_) := by
    cases held : (own j).lo with
    | unbounded => exact built
    | at_ a => exact further built _ _ _ (Or.inl ⟨rfl, rfl, a, held, rfl⟩)
  cases held : (own j).hi with
  | unbounded => exact first
  | at_ b => exact further first _ _ _ (Or.inr ⟨rfl, rfl, b, held, rfl⟩)

end Built

/-! A whole stratum. -/

/-- The subjects a dating's constraints are over are among the fewer if among the more. -/
def Live.Known (w : Widened) (l : Live) : Prop :=
  (∀ s ∈ l.scope, s ∈ w.more → s ∈ w.fewer) ∧
    ∀ allen u, l.dating.value = .relative allen (.unit u) →
      Subject.unit u ∈ w.more → Subject.unit u ∈ w.fewer

def Free.Known (w : Widened) : Free → Prop
  | .order _ earlier later _ =>
    (earlier ∈ w.more → earlier ∈ w.fewer) ∧ (later ∈ w.more → later ∈ w.fewer)
  | .noLater _ subject _ _ => subject ∈ w.more → subject ∈ w.fewer

namespace Built
variable {w : Widened} {own : Nat → TimeInterval} {small large : Stratum}

/-- One step after another, in both. -/
theorem steps {X : Type} {f g : Stratum → X → Stratum} {xs : List X}
    (step : ∀ x ∈ xs, ∀ small large, Built w own small large → Built w own (f small x) (g large x))
    (built : Built w own small large) : Built w own (xs.foldl f small) (xs.foldl g large) := by
  induction xs generalizing small large with
  | nil => exact built
  | cons x xs ih =>
    rw [List.forall_mem_cons] at step
    exact ih step.2 (step.1 _ _ built)

theorem add_free (built : Built w own small large) {f : Free} (known : f.Known w) :
    Built w own (addFree w.fewer small f) (addFree w.more large f) := by
  cases f with
  | order kind earlier later status =>
    rw [addFree, addFree, w.index_of known.1, w.index_of known.2]
    cases first : indexOf w.fewer earlier with
    | none => exact built
    | some a =>
      cases second : indexOf w.fewer later with
      | none => exact built
      | some b =>
        obtain ⟨pushed, same⟩ := built.pushCause (.free kind) (some later)
        have inA := (w.index_lt a).mpr (index_of_lt w.nodup_fewer first)
        have inB := (w.index_lt b).mpr (index_of_lt w.nodup_fewer second)
        dsimp only [Option.map_some]
        rw [same]
        exact pushed.noLater inA _ inB
  | noLater kind subject than status =>
    rw [addFree, addFree, w.index_of known]
    cases found : indexOf w.fewer subject with
    | none => exact built
    | some i =>
      obtain ⟨pushed, same⟩ := built.pushCause (.free kind) none
      have inside := (w.index_lt i).mpr (index_of_lt w.nodup_fewer found)
      dsimp only [Option.map_some]
      rw [same]
      exact pushed.upper inside _ _

/-- The other end of a relation, in both. -/
theorem relate_ (built : Built w own small large) (allen : Allen) {other other' : Other}
    (placed : other'.variable_ = other.variable_.map w.index)
    (within : ∀ j, other.variable_ = some j → j < w.fewer.length)
    (extent : other.variable_ = none → other'.extent = other.extent) {i : Nat}
    (inside : w.index i < w.more.length) (by_ : Nat) :
    Built w own (relate small allen other i by_) (relate large allen other' (w.index i) by_) := by
  cases other with
  | mk variable_ subject reach =>
    cases other' with
    | mk variable_' subject' reach' =>
      dsimp only at placed within extent
      subst placed
      cases variable_ with
      | none =>
        have same := extent rfl
        subst same
        cases allen with
        | before => exact built.upperAt inside _ _
        | after => exact built.lowerLast inside _ _
        | meets => exact (built.lower inside _ _).upperAt inside _ _
        | _ => exact (built.lower inside _ _).upper inside _ _
      | some j =>
        have inside' := (w.index_lt j).mpr (within j rfl)
        cases allen with
        | before => exact built.noLater inside _ inside'
        | after => exact built.noLater inside' _ inside
        | _ => exact built.same inside _ inside'

theorem add_dating (built : Built w own small large) {l : Live} (known : l.Known w)
    (state state' : List Dated) :
    Built w own (addDating w.fewer state small l) (addDating w.more state' large l) := by
  rw [addDating, addDating]
  cases value : l.dating.value with
  | offset ms => exact built
  | absolute text =>
    dsimp only
    cases Edtf.valueOf text with
    | none => exact built
    | some v =>
      obtain ⟨pushed, same⟩ := built.pushCause (.dating l.did) none
      dsimp only
      rw [same]
      refine pushed.steps fun s mem small large built => ?_
      rw [w.index_of (known.1 s mem)]
      cases found : indexOf w.fewer s with
      | none => exact built
      | some i =>
        have inside := (w.index_lt i).mpr (index_of_lt w.nodup_fewer found)
        exact (built.lower inside _ _).upper inside _ _
  | relative allen target =>
    dsimp only
    have ends : (relativeTarget w.more state' target).variable_ =
        (relativeTarget w.fewer state target).variable_.map w.index ∧
        (∀ j, (relativeTarget w.fewer state target).variable_ = some j → j < w.fewer.length) ∧
        ((relativeTarget w.fewer state target).variable_ = none →
          (relativeTarget w.more state' target).extent =
            (relativeTarget w.fewer state target).extent) ∧
        (relativeTarget w.more state' target).subject =
          (relativeTarget w.fewer state target).subject := by
      cases target with
      | unit u =>
        rw [relativeTarget, relativeTarget]
        dsimp only
        rw [w.index_of (known.2 allen u value)]
        refine ⟨rfl, fun j found => index_of_lt w.nodup_fewer found, fun none_ => ?_, rfl⟩
        rw [none_]
        rfl
      | _ => exact ⟨rfl, fun j none_ => (nomatch none_), fun _ => rfl, rfl⟩
    obtain ⟨placed, within, extents, subjects⟩ := ends
    refine built.steps fun s mem small large built => ?_
    rw [w.index_of (known.1 s mem)]
    cases found : indexOf w.fewer s with
    | none => exact built
    | some i =>
      have inside := (w.index_lt i).mpr (index_of_lt w.nodup_fewer found)
      obtain ⟨pushed, same⟩ := built.pushCause (.dating l.did)
        (relativeTarget w.fewer state target).subject
      dsimp only [Option.map_some]
      rw [subjects, same]
      exact pushed.relate_ allen placed within extents inside _

/-- The bounds the subjects have. -/
theorem bounds (built : Built w own small large) {es es' : List (Dated × Nat)} (by_ : Nat)
    (along : es'.filter (fun e => w.old e.2) = es.map (fun e => (e.1, w.index e.2)))
    (inside : ∀ e ∈ es', e.2 < w.more.length)
    (fresh : ∀ e ∈ es', w.old e.2 = false → e.1.interval = own e.2) :
    Built w own
      (es.foldl (fun st (d, i) =>
        (st.lower i d.interval.lo by_).upper i d.interval.hi by_) small)
      (es'.foldl (fun st (d, i) =>
        (st.lower i d.interval.lo by_).upper i d.interval.hi by_) large) := by
  induction es' generalizing es small large with
  | nil =>
    rw [List.filter_nil] at along
    rw [List.map_eq_nil_iff.mp along.symm]
    exact built
  | cons e es' ih =>
    rw [List.forall_mem_cons] at inside fresh
    by_cases old : w.old e.2 = true
    · rw [@List.filter_cons_of_pos _ (fun e : Dated × Nat => w.old e.2) _ _ old] at along
      cases es with
      | nil => cases along
      | cons e₀ es =>
        obtain ⟨rfl, along'⟩ := List.cons.inj along
        exact ih ((built.lower inside.1 _ _).upper inside.1 _ _) along' inside.2 fresh.2
    · rw [@List.filter_cons_of_neg _ (fun e : Dated × Nat => w.old e.2) _ _ old] at along
      have new := Bool.eq_false_of_not_eq_true old
      refine ih ?_ along inside.2 fresh.2
      dsimp only
      rw [fresh.1 new]
      exact built.bounds_new by_ new inside.1

end Built

/-- What each subject is at, among the fewer and among the more. -/
structure Widened.Along (w : Widened) (own : Nat → Dated) (state state' : List Dated) : Prop where
  length : state.length = w.fewer.length
  length' : state'.length = w.more.length
  same : ∀ i, state'[w.index i]? = state[i]?
  new : ∀ j, w.old j = false → j < w.more.length → state'[j]? = some (own j)

theorem Widened.Along.zip_idx {w : Widened} {own : Nat → Dated} {state state' : List Dated}
    (along : w.Along own state state') :
    (state'.zipIdx).filter (fun e => w.old e.2) =
      (state.zipIdx).map (fun e => (e.1, w.index e.2)) := by
  have snd {l : List Dated} : (l.zipIdx).Pairwise (fun a b => a.2 < b.2) := by
    have ascending : ((l.zipIdx).map Prod.snd).Pairwise (· < ·) := by
      rw [List.zipIdx_map_snd]
      exact List.pairwise_lt_range'
    exact List.pairwise_map.mp ascending
  have antisymm : Std.Antisymm (fun a b : Dated × Nat => a.2 < b.2) :=
    ⟨fun a b ab ba => absurd (ab.trans ba) (lt_irrefl _)⟩
  have irrefl : Std.Irrefl (fun a b : Dated × Nat => a.2 < b.2) := ⟨fun a => lt_irrefl a.2⟩
  refine List.Pairwise.eq_of_mem_iff (snd.filter _)
    (List.pairwise_map.mpr (snd.imp (fun lt => w.ascending lt))) fun e => ?_
  obtain ⟨d, j⟩ := e
  rw [List.mem_filter, List.mem_zipIdx_iff_getElem?, List.mem_map, w.old_iff]
  constructor
  · rintro ⟨found, i, rfl⟩
    exact ⟨(d, i), List.mem_zipIdx_iff_getElem?.mpr ((along.same i).symm.trans found), rfl⟩
  · rintro ⟨⟨d', i⟩, mem, same⟩
    cases same
    rw [List.mem_zipIdx_iff_getElem?] at mem
    exact ⟨(along.same i).trans mem, i, rfl⟩

/-- The networks of a stratum. -/
theorem Widened.Along.built {w : Widened} {own : Nat → Dated} {state state' : List Dated}
    (along : w.Along own state state') {live : List Live} {frees : List Free}
    (known : ∀ l ∈ live, l.Known w) (known' : ∀ f ∈ frees, f.Known w) (s : TimeStatus) :
    Built w (fun j => (own j).interval) (buildStratum w.fewer state live frees s)
      (buildStratum w.more state' live frees s) := by
  have empty : Built w (fun j => (own j).interval)
      (Stratum.pushCause { net := ⟨w.fewer.length, []⟩ } .asRecorded none).1
      (Stratum.pushCause { net := ⟨w.more.length, []⟩ } .asRecorded none).1 :=
    ⟨rfl, rfl, rfl, ⟨rfl, fun _ mem => (nomatch mem)⟩, fun _ mem => (nomatch mem),
      fun _ mem => nomatch mem⟩
  rw [buildStratum, buildStratum]
  refine Built.steps (fun f mem _ _ built => ?_) (Built.steps (fun l mem _ _ built => ?_)
    (empty.bounds _ along.zip_idx (fun e mem => ?_) (fun e mem new => ?_)))
  · exact built.add_free (known' f (List.mem_of_mem_filter mem))
  · exact built.add_dating (known l (List.mem_of_mem_filter mem)) state state'
  · have found := List.mem_zipIdx_iff_getElem?.mp mem
    rw [← along.length']
    exact (List.getElem?_eq_some_iff.mp found).1
  · have found := List.mem_zipIdx_iff_getElem?.mp mem
    have inside : e.2 < w.more.length := by
      rw [← along.length']
      exact (List.getElem?_eq_some_iff.mp found).1
    rw [along.new e.2 new inside] at found
    exact congrArg Dated.interval (Option.some.inj found).symm

/-! What a stratum makes of one subject. -/

section
variable [Blake3] {live live' : List Live} {frees frees' : List Free} {s : TimeStatus}

theorem contest_get {subjects : List Subject} {st : List Dated × Effective}
    (whole : st.1.length = subjects.length) (v i : Nat) :
    (contest live frees s subjects st v).1[i]? =
      if v = i then (st.1[i]?).map (fun d => { d with contested := true }) else st.1[i]? := by
  rw [contest]
  cases held : st.1[v]? with
  | none =>
    dsimp only
    split
    · rename_i here
      rw [← here, held]
      rfl
    · rfl
  | some d =>
    have inside := (List.getElem?_eq_some_iff.mp held).1
    have named : v < subjects.length := by omega
    rw [List.getElem?_eq_getElem named]
    dsimp only
    split
    · rename_i contested
      split
      · rename_i here
        rw [← here, held, Option.map_some]
        congr 1
        cases d
        cases contested
        rfl
      · rfl
    · dsimp only
      by_cases here : v = i
      · rw [if_pos here, ← here, List.getElem?_set_self inside, held, Option.map_some]
      · rw [if_neg here, List.getElem?_set_ne here]

theorem contests_get {subjects : List Subject} {st : List Dated × Effective}
    (whole : st.1.length = subjects.length) (vs : List Nat) (i : Nat) :
    (vs.foldl (contest live frees s subjects) st).1[i]? =
      (st.1[i]?).map (fun d => if i ∈ vs then { d with contested := true } else d) := by
  induction vs generalizing st with
  | nil => simp
  | cons v vs ih =>
    have kept := contest_length live frees subjects s st v
    rw [List.foldl_cons, ih (kept.trans whole), contest_get whole]
    by_cases here : v = i
    · rw [if_pos here, Option.map_map]
      refine congrFun (congrArg Option.map (funext fun d => ?_)) _
      rw [if_pos (here ▸ List.mem_cons_self)]
      dsimp only [Function.comp]
      split <;> rfl
    · rw [if_neg here]
      refine congrFun (congrArg Option.map (funext fun d => if_congr ?_ rfl rfl)) _
      rw [List.mem_cons]
      exact (or_iff_right (Ne.symm here)).symm

/-- What a stratum makes of a subject does not look at which subject it is, nor at what it would
report. -/
theorem move_lower_dated {subject subject' : Subject} {lo : Option Int}
    {why : Option (Cause × Option Subject)} {m m' : Move} (same : m'.dated = m.dated) :
    (moveLower subject' s lo why m').dated = (moveLower subject s lo why m).dated := by
  obtain ⟨d, notApplied, inconsistent⟩ := m
  obtain ⟨d', notApplied', inconsistent'⟩ := m'
  cases same
  unfold moveLower
  cases lo with
  | none => rfl
  | some lo =>
    cases d.interval.lo with
    | unbounded =>
      dsimp only
      split
      · rfl
      · split <;> rfl
    | at_ a =>
      dsimp only
      split
      · rfl
      · split <;> rfl

theorem move_upper_dated {subject subject' : Subject} {hi : Option Int}
    {why : Option (Cause × Option Subject)} {m m' : Move} (same : m'.dated = m.dated) :
    (moveUpper subject' s hi why m').dated = (moveUpper subject s hi why m).dated := by
  obtain ⟨d, notApplied, inconsistent⟩ := m
  obtain ⟨d', notApplied', inconsistent'⟩ := m'
  cases same
  unfold moveUpper
  cases hi with
  | none => rfl
  | some last =>
    cases d.interval.hi with
    | unbounded =>
      dsimp only
      split
      · rfl
      · split <;> rfl
    | at_ a =>
      dsimp only
      split
      · rfl
      · split <;> rfl

omit [Blake3] in
theorem closed_dated {m m' : Move} (same : m'.dated = m.dated) {cs cs' : List TimeContention} :
    (if m'.dated.interval.isEmpty then
        { m' with dated := { m'.dated with contested := true }, inconsistent := cs' }
      else m').dated =
      (if m.dated.interval.isEmpty then
        { m with dated := { m.dated with contested := true }, inconsistent := cs }
      else m).dated := by
  rw [same]
  split
  · rfl
  · exact same

theorem settle_dated {causes : List (Cause × Option Subject)} {sol sol' : Solution}
    {subject subject' : Subject} {i i' : Nat} {d : Dated}
    (lower : (sol'.lower[i']?).join = (sol.lower[i]?).join)
    (upper : (sol'.upper[i']?).join = (sol.upper[i]?).join)
    (lowerBy : (sol'.lowerBy[i']?).join = (sol.lowerBy[i]?).join)
    (upperBy : (sol'.upperBy[i']?).join = (sol.upperBy[i]?).join) :
    (settleSubject live' frees' s causes sol' subject' i' d).dated =
      (settleSubject live frees s causes sol subject i d).dated := by
  have moved : (moveUpper subject' s ((sol'.upper[i']?).join)
      (((sol'.upperBy[i']?).join).bind (fun b => causes[b]?))
      (moveLower subject' s ((sol'.lower[i']?).join)
        (((sol'.lowerBy[i']?).join).bind (fun b => causes[b]?)) { dated := d })).dated =
      (moveUpper subject s ((sol.upper[i]?).join)
        (((sol.upperBy[i]?).join).bind (fun b => causes[b]?))
        (moveLower subject s ((sol.lower[i]?).join)
          (((sol.lowerBy[i]?).join).bind (fun b => causes[b]?)) { dated := d })).dated := by
    rw [lower, upper, lowerBy, upperBy]
    exact move_upper_dated (move_lower_dated rfl)
  rw [settleSubject, settleSubject]
  split
  · rfl
  · exact closed_dated moved

/-- A subject that a stratum's bounds do not tighten stays as it is. -/
theorem settle_still {causes : List (Cause × Option Subject)} {sol : Solution} {subject : Subject}
    {i : Nat} {d : Dated}
    (lower : ∀ l, (sol.lower[i]?).join = some l → ∃ a, d.interval.lo = .at_ a ∧ l ≤ a)
    (upper : ∀ l, (sol.upper[i]?).join = some l →
      ∃ b, d.interval.hi = .at_ b ∧ b ≤ saturatingAdd l 1)
    (full : d.interval.isEmpty = false) :
    (settleSubject live frees s causes sol subject i d).dated = d := by
  rw [settleSubject]
  split
  · rfl
  · dsimp only
    have first (why : Option (Cause × Option Subject)) :
        moveLower subject s ((sol.lower[i]?).join) why { dated := d } = { dated := d } := by
      cases held : (sol.lower[i]?).join with
      | none => rfl
      | some l =>
        obtain ⟨a, bound, le⟩ := lower l held
        unfold moveLower
        dsimp only
        rw [bound]
        exact if_pos (decide_eq_false (not_lt.mpr le))
    have second (why : Option (Cause × Option Subject)) :
        moveUpper subject s ((sol.upper[i]?).join) why { dated := d } = { dated := d } := by
      cases held : (sol.upper[i]?).join with
      | none => rfl
      | some l =>
        obtain ⟨b, bound, le⟩ := upper l held
        unfold moveUpper
        dsimp only
        rw [bound]
        exact if_pos (decide_eq_false (not_lt.mpr le))
    rw [first, second, if_neg (by rw [full]; decide)]

theorem tighten_get {subjects : List Subject} {st : List Dated × Effective}
    (whole : st.1.length = subjects.length) (s : TimeStatus) {i : Nat} {d : Dated}
    (held : st.1[i]? = some d) : ∃ subject, (tighten live frees subjects st s).1[i]? =
      some (settleSubject live frees s (buildStratum subjects st.1 live frees s).causes
        ((buildStratum subjects st.1 live frees s).net.solve saturatingAdd) subject i
        (if i ∈ ((buildStratum subjects st.1 live frees s).net.solve saturatingAdd).inconsistent
          then { d with contested := true } else d)).dated := by
  have inside : i < subjects.length := by
    rw [← whole]
    exact (List.getElem?_eq_some_iff.mp held).1
  refine ⟨subjects[i], ?_⟩
  have contested := @contests_get _ live frees s subjects st whole
    ((buildStratum subjects st.1 live frees s).net.solve saturatingAdd).inconsistent i
  rw [held, Option.map_some] at contested
  have zipped : (subjects.zip (((buildStratum subjects st.1 live frees s).net.solve
      saturatingAdd).inconsistent.foldl (contest live frees s subjects) st).1)[i]? =
        some (subjects[i],
          if i ∈ ((buildStratum subjects st.1 live frees s).net.solve saturatingAdd).inconsistent
            then { d with contested := true } else d) :=
    List.getElem?_zip_eq_some.mpr ⟨List.getElem?_eq_getElem inside, contested⟩
  rw [tighten]
  dsimp only
  rw [List.map_map, List.getElem?_map, List.getElem?_zipIdx, zipped]
  simp

/-- What is known of a subject nothing bears on: an interval of instants with something in it. -/
structure Quiet (d : Dated) : Prop where
  full : d.interval.isEmpty = false
  lo : ∀ a : Int, d.interval.lo = .at_ a → -maxInstant ≤ a ∧ a ≤ maxInstant
  hi : ∀ b : Int, d.interval.hi = .at_ b → minInstant < b ∧ b ≤ maxInstant

omit [Blake3] in
theorem full_lt {i : TimeInterval} (full : i.isEmpty = false) {a b : Int} (lo : i.lo = .at_ a)
    (hi : i.hi = .at_ b) : a < b := by
  rw [TimeInterval.isEmpty, lo, hi] at full
  exact not_le.mp (of_decide_eq_false full)

omit [Blake3] in
theorem saturating_zero {a : Int} (low : -maxInstant ≤ a) (high : a ≤ maxInstant) :
    saturatingAdd 0 a = a := by
  rw [saturatingAdd, minInstant] at *
  rw [maxInstant] at *
  omega

omit [Blake3] in
theorem saturating_last {b : Int} (low : minInstant < b) (high : b ≤ maxInstant) :
    saturatingAdd 0 (lastOf b) = b - 1 ∧ saturatingAdd (b - 1) 1 = b := by
  rw [saturatingAdd, saturatingAdd, lastOf]
  rw [minInstant] at *
  rw [maxInstant] at *
  omega

omit [Blake3] in
theorem solve_lower {net : Network} {j : Nat} {l : Int}
    (found : ((net.solve saturatingAdd).lower[j]?).join = some l) :
    ∃ x, (net.shortest saturatingAdd (net.vars + 1) true).dist (node j) = some x ∧ l = -x := by
  rw [Network.solve] at found
  dsimp only at found
  rw [Stn.range_join] at found
  split at found
  · obtain ⟨x, held, same⟩ := Option.map_eq_some_iff.mp found
    exact ⟨x, held, same.symm⟩
  · cases found

omit [Blake3] in
theorem solve_upper {net : Network} {j : Nat} {l : Int}
    (found : ((net.solve saturatingAdd).upper[j]?).join = some l) :
    (net.shortest saturatingAdd (net.vars + 1) false).dist (node j) = some l := by
  rw [Network.solve] at found
  dsimp only at found
  rw [Stn.range_join] at found
  split at found
  · exact found
  · cases found

omit [Blake3] in
theorem Built.framed {w : Widened} {own : Nat → TimeInterval} {small large : Stratum}
    (built : Built w own small large) : Framed w.placing small.net large.net := by
  refine ⟨built.placed, fun v => ?_, built.proper⟩
  rw [built.vars, built.vars']
  cases v with
  | zero => exact iff_of_true (Nat.succ_pos _) (Nat.succ_pos _)
  | succ i =>
    change w.index i + 1 < _ ↔ _
    rw [Nat.add_lt_add_iff_right, Nat.add_lt_add_iff_right]
    exact w.index_lt i

omit [Blake3] in
/-- In the larger network a further subject that is quiet is in no inconsistency, and its bounds
are its own. -/
theorem Built.still {w : Widened} {own : Nat → Dated} {small large : Stratum}
    (built : Built w (fun j => (own j).interval) small large)
    (patient : Patient saturatingAdd small.net) {j : Nat} (new : w.old j = false)
    (quiet : Quiet (own j)) :
    j ∉ (large.net.solve saturatingAdd).inconsistent ∧
      (∀ l, ((large.net.solve saturatingAdd).lower[j]?).join = some l →
        ∃ a, (own j).interval.lo = .at_ a ∧ l ≤ a) ∧
      ∀ l, ((large.net.solve saturatingAdd).upper[j]?).join = some l →
        ∃ b, (own j).interval.hi = .at_ b ∧ b ≤ saturatingAdd l 1 := by
  have framed := built.framed
  refine ⟨?_, fun l found => ?_, fun l found => ?_⟩
  · refine Stn.consistent_new framed patient new fun e held e' held' src dst src' dst' => ?_
    obtain ⟨b, hi, weight⟩ := (built.own e held j new).1 dst
    obtain ⟨a, lo, weight'⟩ := (built.own e' held' j new).2 src'
    have above := quiet.hi b hi
    have below := quiet.lo a lo
    have full := quiet.full
    have some_ := full_lt full lo hi
    rw [weight, weight', (saturating_last above.1 above.2).1,
      saturating_zero (by omega) (by omega)]
    omega
  · obtain ⟨x, bound, rfl⟩ := solve_lower found
    obtain ⟨e, held, src, _, rfl⟩ := Stn.lower_new framed new bound
    obtain ⟨a, lo, weight⟩ := (built.own e held j new).2 src
    have below := quiet.lo a lo
    refine ⟨a, lo, ?_⟩
    rw [weight, saturating_zero (by omega) (by omega), neg_neg]
  · obtain ⟨e, held, _, dst, rfl⟩ := Stn.upper_new framed new (solve_upper found)
    obtain ⟨b, hi, weight⟩ := (built.own e held j new).1 dst
    have above := quiet.hi b hi
    refine ⟨b, hi, ?_⟩
    rw [weight, (saturating_last above.1 above.2).1, (saturating_last above.1 above.2).2]

/-- A stratum over more subjects makes the same of the fewer, and nothing of the others. -/
theorem Widened.Along.tighten {w : Widened} {own : Nat → Dated} {st st' : List Dated × Effective}
    (along : w.Along own st.1 st'.1) (known : ∀ l ∈ live, l.Known w)
    (known' : ∀ f ∈ frees, f.Known w)
    (quiet : ∀ j, w.old j = false → j < w.more.length → Quiet (own j))
    (patient : Patient saturatingAdd (buildStratum w.fewer st.1 live frees s).net)
    (same : buildStratum w.more st'.1 live' frees s = buildStratum w.more st'.1 live frees s) :
    w.Along own (tighten live frees w.fewer st s).1 (tighten live' frees w.more st' s).1 := by
  have built := along.built known known' s
  have framed := built.framed
  refine ⟨tighten_length live frees w.fewer st s along.length,
    tighten_length live' frees w.more st' s along.length', fun i => ?_, fun j new inside => ?_⟩
  · cases held : st.1[i]? with
    | none =>
      have beyond : w.fewer.length ≤ i := by
        rw [← along.length]
        exact List.getElem?_eq_none_iff.mp held
      have beyond' : w.more.length ≤ w.index i := by
        rw [← not_lt, w.index_lt]
        omega
      have length := tighten_length live frees w.fewer st s along.length
      have length' := tighten_length live' frees w.more st' s along.length'
      rw [List.getElem?_eq_none (length' ▸ beyond'), List.getElem?_eq_none (length ▸ beyond)]
    | some d =>
      obtain ⟨subject, made⟩ := @tighten_get _ live frees _ _ along.length s _ _ held
      obtain ⟨subject', made'⟩ := @tighten_get _ live' frees _ _ along.length' s _ _
        ((along.same i).trans held)
      obtain ⟨upper, lower, upperBy, lowerBy⟩ := Stn.solve_placed framed patient i
      have contested := Stn.inconsistent_placed framed patient i
      rw [made, made', same, built.causes]
      refine congrArg some ?_
      rw [if_congr contested rfl rfl]
      exact settle_dated lower upper lowerBy upperBy
  · obtain ⟨subject, made⟩ := @tighten_get _ live' frees _ _ along.length' s _ _
      (along.new j new inside)
    have quiet' := quiet j new inside
    obtain ⟨apart, lower, upper⟩ := built.still patient new quiet'
    rw [made, same, if_neg apart, settle_still lower upper quiet'.full]

end

end Smysl
