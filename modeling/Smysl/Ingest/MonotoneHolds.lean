import Smysl.Check.Epistemics
import Smysl.Ingest.MonotoneSettles
import Smysl.Lib.Descent

/-!
What the pass promises of a batch, and that it keeps it where the sweep is in time: nothing is
lost or raised, no reference is left on a name that has moved, the batch is in rule M as the
check reads it, and a second pass finds nothing to do.
-/
open Relation

namespace Smysl
namespace Monotone

section
variable [Unicode] [Blake3]

/-- A unit as it is returned: no higher than it was, with its references followed, and otherwise
the same. -/
structure Carried (lead : Uid → Uid) (u v : UnitCore) : Prop where
  same : Ceiling.SameBut v (u.pointing lead)
  status : v.status ≤ u.status

/-- A batch as it is returned is what it was, in rule M. -/
structure Sustained (s : Store) (units : List UnitCore) : Prop where
  carried : List.Forall₂ (Carried (successor (apply s.read units).remap)) units
    (apply s.read units).units
  /-- A reference is re-pointed from a unit of the batch to what it was returned as. -/
  moved : ∀ a b, (apply s.read units).remap.get a = some b →
    ∃ e ∈ units.zip (apply s.read units).units, canonicalUid e.1 = a ∧ canonicalUid e.2 = b
  /-- No returned unit names the old uid of one that moved. -/
  current : ∀ v ∈ (apply s.read units).units, ∀ e ∈ units.zip (apply s.read units).units,
    canonicalUid e.2 ≠ canonicalUid e.1 → ¬ StoreRead.Refers v (canonicalUid e.1)
  /-- None that ends derived or inferred exceeds a ground in the result or the store. -/
  grounded : ∀ v ∈ (apply s.read units).units, v.status.isRuleMConstrained = true →
    ∀ g ∈ v.grounds, ∀ w, (w ∈ (apply s.read units).units ∧ canonicalUid w = g) ∨
      s.read.coreAt g = some w → v.status ≤ w.status
  /-- The check over the store and the result says nothing of the result. -/
  unreported : ∀ d ∈ Epistemics.run
      (Overlay.new s ((apply s.read units).units.map .unit)).read
      (Overlay.new s ((apply s.read units).units.map .unit)).adjacency,
    ∀ v ∈ (apply s.read units).units, d.subject ≠ canonicalUid v
  again : (apply s.read (apply s.read units).units).units = (apply s.read units).units

/-- The references of a batch among itself do not go round in a circle. -/
def Acyclic (units : List UnitCore) : Prop :=
  ∀ u, ¬ TransGen (fun a b => ∃ core ∈ units, canonicalUid core = a ∧ StoreRead.Refers core b) u u

section
variable {s : Store} {units : List UnitCore} {fin : UnitCore → UnitCore}

/-- What a unit becomes names what it named, followed. -/
theorem refers_fin (follows : Follows s.read units fin) {u : UnitCore} (mem : u ∈ units) {r : Uid}
    (names : StoreRead.Refers (fin u) r) :
    ∃ x, StoreRead.Refers u x ∧ leads units fin x = r := by
  rw [follows.settled u mem] at names
  have same := weaken_same (statusIn s.read units fin) (u.pointing (leads units fin))
  rw [StoreRead.Refers, same.grounds, same.deps] at names
  rcases names with names | names
  · obtain ⟨x, named, lead⟩ := (mem_follow_by _ _ _).mp names
    exact ⟨x, Or.inl named, lead⟩
  · obtain ⟨x, named, lead⟩ := (mem_follow_by _ _ _).mp names
    exact ⟨x, Or.inr named, lead⟩

/-- What a unit that has settled names has settled too: a batch unit of that uid does not
move. -/
theorem named_settled (acyclic : Acyclic units) (apart : Apart s.read units fin)
    (follows : Follows s.read units fin) {u : UnitCore} (mem : u ∈ units) {b : UnitCore}
    (own : b ∈ units) (names : StoreRead.Refers (fin u) (canonicalUid b)) : fin b = b := by
  have finite : {a | ∃ core ∈ units, canonicalUid core = a}.Finite :=
    (List.finite_toSet (units.map canonicalUid)).subset (by
      rintro a ⟨core, mem, rfl⟩
      exact List.mem_map_of_mem mem)
  have founded := Descent.forward_founded finite
    (fun x y step => ⟨step.choose, step.choose_spec.1, step.choose_spec.2.1⟩) acyclic
  -- along the references: what is named has settled before the unit that names it
  generalize here : canonicalUid u = a
  induction a using founded.induction generalizing u b with
  | _ a ih =>
    obtain ⟨x, named, lead⟩ := refers_fin follows mem names
    cases held : (originals units).get x with
    | none =>
      rw [leads_outside fun v mem => originals_none held mem] at lead
      rw [lead] at held
      exact absurd rfl (originals_none held own)
    | some c =>
      obtain ⟨inside, rfl⟩ := originals_get held
      rw [leads_held apart inside] at lead
      have same : fin c = b := apart.batch (fin c)
        (List.mem_append_right _ (List.mem_map_of_mem inside)) b (List.mem_append_left _ own) lead
      have still : b.pointing (leads units fin) = b := by
        apply unitPointing.point_still
        intro r names
        cases at_ : (originals units).get r with
        | none => exact leads_outside fun v mem => originals_none at_ mem
        | some d =>
          obtain ⟨within, rfl⟩ := originals_get at_
          rw [leads_held apart within, ih (canonicalUid c) ⟨u, mem, here, named⟩ inside within
            (same ▸ names) rfl]
      calc fin b = weaken (statusIn s.read units fin) (b.pointing (leads units fin)) :=
            follows.settled b own
        _ = weaken (statusIn s.read units fin) (fin c) := by rw [still, same]
        _ = weaken (statusIn s.read units fin) (weaken (statusIn s.read units fin)
              (c.pointing (leads units fin))) := by rw [← follows.settled c inside]
        _ = weaken (statusIn s.read units fin) (c.pointing (leads units fin)) :=
            weaken_again authored_in
        _ = fin c := (follows.settled c inside).symm
        _ = b := same

theorem mem_in_order {u : UnitCore} (mem : u ∈ units) : u ∈ inOrder units units := by
  obtain ⟨i, inside, here⟩ := List.mem_iff_getElem.mp mem
  refine List.mem_filterMap.mpr ⟨i, topological_all units inside, ?_⟩
  rw [List.getElem?_eq_getElem inside, here]

/-- What the pass remembers is where references lead. -/
theorem remap_leads (apart : Apart s.read units fin) (r : Uid) :
    successor (movedBy fin (inOrder units units)) r = leads units fin r := by
  have alone : ∀ a ∈ units, ∀ b ∈ units, canonicalUid a = canonicalUid b → a = b :=
    fun a mem b mem' => apart.batch a (List.mem_append_left _ mem) b (List.mem_append_left _ mem')
  cases held : (originals units).get r with
  | none =>
    have outside : ∀ u ∈ units, canonicalUid u ≠ r := fun u mem => originals_none held mem
    rw [leads_outside outside, successor_outside fun d mem => outside d (in_order_mem mem)]
  | some b =>
    obtain ⟨mem, rfl⟩ := originals_get held
    rw [leads_held apart mem, successor_moved alone (fun _ => in_order_mem) mem,
      if_pos (mem_in_order mem)]

omit s in
theorem moved_get {before : List UnitCore} {a b : Uid}
    (found : (movedBy fin before).get a = some b) :
    ∃ d ∈ before, canonicalUid d = a ∧ canonicalUid (fin d) = b := by
  induction before using List.reverseRecOn with
  | nil => cases found
  | append_singleton before u ih =>
    have earlier (found : (movedBy fin before).get a = some b) :
        ∃ d ∈ before ++ [u], canonicalUid d = a ∧ canonicalUid (fin d) = b := by
      obtain ⟨d, mem, same⟩ := ih found
      exact ⟨d, List.mem_append_left _ mem, same⟩
    rw [moved_snoc] at found
    split at found
    · exact earlier found
    · rw [BTreeMap.get_insert] at found
      split at found
      · rename_i here
        cases found
        exact ⟨u, by simp, here.symm, rfl⟩
      · exact earlier found

theorem fin_carried (follows : Follows s.read units fin) {u : UnitCore} (mem : u ∈ units) :
    Carried (leads units fin) u (fin u) := by
  rw [follows.settled u mem]
  exact ⟨weaken_same _ _, (weaken_most authored_in).1⟩

/-- None is above a ground of it, whatever its status. -/
theorem fin_grounded (apart : Apart s.read units fin) (follows : Follows s.read units fin)
    {u : UnitCore} (mem : u ∈ units) {g : Uid} (ground : g ∈ (fin u).grounds) {w : UnitCore}
    (held : (w ∈ units.map fin ∧ canonicalUid w = g) ∨ s.read.coreAt g = some w) :
    (fin u).status ≤ w.status := by
  have known : statusIn s.read units fin g = some w.status := by
    rcases held with ⟨mem, rfl⟩ | held
    · obtain ⟨d, own, rfl⟩ := List.mem_map.mp mem
      exact status_became apart own
    · exact status_stored apart held
  have same := (fin_carried follows mem).same.grounds
  rw [same] at ground
  rw [follows.settled u mem]
  exact (weaken_most authored_in).2 g ground w.status known

/-- What has settled settles where it is. -/
theorem settled_follows (apart : Apart s.read units fin) (follows : Follows s.read units fin) :
    Apart s.read (units.map fin) id ∧ Follows s.read (units.map fin) id := by
  have still (r : Uid) : leads (units.map fin) id r = r := by
    rw [leads]
    cases held : (originals (units.map fin)).get r with
    | none => rfl
    | some u => exact (originals_get held).2
  have status : statusIn s.read (units.map fin) id = statusIn s.read units fin := by
    funext g
    rw [statusIn, List.map_id]
    rfl
  have pointed (u : UnitCore) : u.pointing (leads (units.map fin) id) = u :=
    unitPointing.point_still fun r _ => still r
  refine ⟨⟨?_, ?_⟩, ⟨?_, ?_, ?_⟩⟩
  · rw [List.map_id]
    exact fun a mem b mem' => apart.batch a (List.mem_append_right _ (by simpa using mem)) b
      (List.mem_append_right _ (by simpa using mem'))
  · rw [List.map_id]
    exact apart.store
  · intro v mem
    obtain ⟨u, own, rfl⟩ := List.mem_map.mp mem
    rw [pointed, status, follows.settled u own, weaken_again authored_in]
    rfl
  · exact fun _ _ _ _ m _ _ moves => absurd rfl moves
  · intro before n after _
    apply weaken_congr
    intro g _
    rw [seenBy]
    split
    · rfl
    · rename_i unseen
      simp only [Bool.or_eq_true, not_or, Bool.not_eq_true] at unseen
      obtain ⟨⟨batch, stored⟩, -⟩ := unseen
      rw [BTreeMap.contains, Option.isSome_eq_false_iff, Option.isNone_iff_eq_none] at batch
      rw [StoreRead.containsUid, BTreeMap.contains, Option.isSome_eq_false_iff,
        Option.isNone_iff_eq_none] at stored
      rw [statusIn, List.map_id, batch, StoreRead.coreAt, stored]
      rfl

/-- Where the sweep is in time, a batch whose references do not go round is brought into rule
M and otherwise carried as it is. -/
theorem apply_sustains (acyclic : Acyclic units) (apart : Apart s.read units fin)
    (follows : Follows s.read units fin) : Sustained s units := by
  obtain ⟨result, remap⟩ := apply_settles apart follows
  have lead : successor (apply s.read units).remap = leads units fin := by
    funext r
    rw [remap, remap_leads apart]
  have zipped : units.zip (units.map fin) = units.map fun u => (u, fin u) := by
    have both : (units.map id).zip (units.map fin) = units.map fun u => (id u, fin u) :=
      List.zip_map'
    rwa [List.map_id] at both
  have paired {e : UnitCore × UnitCore} (mem : e ∈ units.zip (units.map fin)) :
      e.1 ∈ units ∧ e.2 = fin e.1 := by
    rw [zipped] at mem
    obtain ⟨c, own, rfl⟩ := List.mem_map.mp mem
    exact ⟨own, rfl⟩
  have alike {v core : UnitCore} (mem : v ∈ units.map fin)
      (held : s.read.coreAt (canonicalUid v) = some core ∨
        (core ∈ units.map fin ∧ canonicalUid core = canonicalUid v)) : core = v := by
    rcases held with held | ⟨own, named⟩
    · exact apart.store v mem core held
    · exact apart.batch core (List.mem_append_right _ own) v (List.mem_append_right _ mem) named
  have overlay {u : Uid} {core : UnitCore}
      (held : (Overlay.new s ((units.map fin).map .unit)).read.coreAt u = some core) :
      s.read.coreAt u = some core ∨ (core ∈ units.map fin ∧ canonicalUid core = u) := by
    rcases Overlay.new_core held with held | ⟨mem, named⟩
    · exact .inl held
    · obtain ⟨c, own, same⟩ := List.mem_map.mp mem
      cases same
      exact .inr ⟨own, named⟩
  constructor
  · rw [result, lead, List.forall₂_map_right_iff, List.forall₂_same]
    exact fun u mem => fin_carried follows mem
  · intro a b found
    rw [remap] at found
    obtain ⟨d, mem, before, after⟩ := moved_get found
    refine ⟨(d, fin d), ?_, before, after⟩
    rw [result, zipped]
    exact List.mem_map_of_mem (in_order_mem mem)
  · rw [result]
    intro v mem e zipped moves names
    obtain ⟨u, own, rfl⟩ := List.mem_map.mp mem
    obtain ⟨inside, became⟩ := paired zipped
    rw [became, named_settled acyclic apart follows own inside names] at moves
    exact moves rfl
  · rw [result]
    intro v mem _ g ground w held
    obtain ⟨u, own, rfl⟩ := List.mem_map.mp mem
    exact fin_grounded apart follows own ground held
  · rw [result]
    intro d said v mem
    refine Epistemics.within_unreported ?_ _ d said
    intro core held _ g ground w present
    rw [alike mem (overlay held)] at ground ⊢
    obtain ⟨u, own, rfl⟩ := List.mem_map.mp mem
    exact fin_grounded apart follows own ground (overlay present).symm
  · obtain ⟨apart', follows'⟩ := settled_follows apart follows
    rw [result, (apply_settles apart' follows').1, List.map_id]

end

omit [Unicode] [Blake3] in
/-- A condition on what comes before each of a list, by place. -/
theorem all_splits {α : Type} {P : List α → α → Prop} {l : List α}
    (all : ∀ i ∈ List.range l.length, ∀ n ∈ l[i]?, P (l.take i) n) :
    ∀ before n after, l = before ++ n :: after → P before n := by
  rintro before n after rfl
  have here := all before.length (by simp) n (by simp)
  rwa [List.take_left] at here

end

section Examples
local instance plainMonotoneText : Unicode := .plain
local instance modPrimeMonotoneHash : Blake3 := .modPrime

/-- A derived claim on the given grounds. -/
def derivedClaim (gist : String) (present : isBlank gist = false) (ground : Uid) : UnitCore :=
  { bareClaim gist present ∅ with
    grounds := .ofList [ground]
    status := .derived
    authored := by simp
    sourced := by simp [Status.requiresSource]
    grounded := fun _ => rfl }

def weak : UnitCore := bareClaim "w" (by decide) ∅

/-- A claim that is above its ground. -/
def overclaim : UnitCore := derivedClaim "m" present_m (canonicalUid weak)

/-- A claim that depends on it. -/
def dependant : UnitCore := bareClaim "k" (by decide) (.ofList [canonicalUid overclaim])

/-- The overclaim at its ground's status, and its dependant on that. -/
def settling (u : UnitCore) : UnitCore :=
  if u = overclaim then overclaim.weakenTo .speculative
  else if u = dependant then
    bareClaim "k" (by decide) (.ofList [canonicalUid (overclaim.weakenTo .speculative)])
  else u

/-- How deep a unit rests, by its place in the list. -/
theorem acyclic_of_depth {units : List UnitCore} (depth : List Uid)
    (rests : ∀ u ∈ units, ∀ r ∈ u.grounds.toList ++ u.deps.toList,
      depth.idxOf r < depth.idxOf (canonicalUid u)) : Acyclic units := by
  apply no_circle depth.idxOf
  rintro a b ⟨core, mem, rfl, names⟩
  apply rests core mem
  rw [List.mem_append, BTreeSet.mem_toList, BTreeSet.mem_toList]
  exact names

theorem in_time_sustained : Sustained .new [weak, overclaim, dependant] := by
  have batch : ∀ a ∈ [weak, overclaim, dependant] ++ [weak, overclaim, dependant].map settling,
      ∀ b ∈ [weak, overclaim, dependant] ++ [weak, overclaim, dependant].map settling,
        canonicalUid a = canonicalUid b → a = b := by
    decide +kernel
  have settled : ∀ u ∈ [weak, overclaim, dependant],
      settling u = weaken (statusIn Store.new.read [weak, overclaim, dependant] settling)
        (u.pointing (leads [weak, overclaim, dependant] settling)) := by
    decide +kernel
  refine apply_sustains (acyclic_of_depth (.map canonicalUid [weak, overclaim, dependant])
    (by decide +kernel)) ⟨batch, fun a _ c held => nomatch held⟩ ⟨settled, ?_, ?_⟩
  · refine all_splits (P := fun before n => ∀ m ∈ [weak, overclaim, dependant],
      StoreRead.Refers n (canonicalUid m) → canonicalUid (settling m) ≠ canonicalUid m →
        m ∈ before) ?_
    decide +kernel
  · refine all_splits (P := fun before n =>
      weaken (seenBy Store.new.read [weak, overclaim, dependant] settling before)
          (n.pointing (leads [weak, overclaim, dependant] settling)) =
        weaken (statusIn Store.new.read [weak, overclaim, dependant] settling)
          (n.pointing (leads [weak, overclaim, dependant] settling))) ?_
    decide +kernel

/-- A claim that is above what the overclaim comes to be, and names that. -/
def ahead : UnitCore :=
  derivedClaim "n" present_n (canonicalUid (overclaim.weakenTo .speculative))

/-- Two units of one uid are one. -/
def Named (units : List UnitCore) : Prop :=
  ∀ a ∈ units, ∀ b ∈ units, canonicalUid a = canonicalUid b → a = b

/-- A dependant that is swept before what it depends on keeps its old uid; and a claim on the
uid that another comes to have, swept before that one, stays above it. -/
theorem swept_early_stale :
    (Acyclic [dependant, weak, overclaim] ∧
      Named ([dependant, weak, overclaim] ++
        (apply Store.new.read [dependant, weak, overclaim]).units) ∧
      ¬ Sustained .new [dependant, weak, overclaim]) ∧
    (Acyclic [ahead, weak, overclaim] ∧
      Named ([ahead, weak, overclaim] ++ (apply Store.new.read [ahead, weak, overclaim]).units) ∧
      ¬ Sustained .new [ahead, weak, overclaim]) := by
  refine ⟨⟨?_, ?_, ?_⟩, ?_, ?_, ?_⟩
  · exact acyclic_of_depth (.map canonicalUid [weak, overclaim, dependant]) (by decide +kernel)
  · unfold Named
    decide +kernel
  · intro kept
    have stale : ∃ v ∈ (apply Store.new.read [dependant, weak, overclaim]).units,
        ∃ e ∈ [dependant, weak, overclaim].zip
          (apply Store.new.read [dependant, weak, overclaim]).units,
          canonicalUid e.2 ≠ canonicalUid e.1 ∧ StoreRead.Refers v (canonicalUid e.1) := by
      decide +kernel
    obtain ⟨v, mem, e, zipped, moves, names⟩ := stale
    exact kept.current v mem e zipped moves names
  · exact acyclic_of_depth (.map canonicalUid [overclaim.weakenTo .speculative, weak, overclaim,
      ahead]) (by decide +kernel)
  · unfold Named
    decide +kernel
  · intro kept
    have above : ∃ v ∈ (apply Store.new.read [ahead, weak, overclaim]).units,
        v.status.isRuleMConstrained = true ∧ ∃ g ∈ v.grounds.toList,
          ∃ w ∈ (apply Store.new.read [ahead, weak, overclaim]).units,
            canonicalUid w = g ∧ ¬ v.status ≤ w.status := by
      decide +kernel
    obtain ⟨v, mem, constrained, g, ground, w, held, named, over_⟩ := above
    exact over_ (kept.grounded v mem constrained g ((BTreeSet.mem_toList _ _).mp ground) w
      (.inl ⟨held, named⟩))

end Examples

end Monotone
end Smysl
