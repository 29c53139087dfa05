import Smysl.Ingest.Monotone

/-!
What a batch is to become under rule M, and when one sweep takes it there.
-/
open Relation

namespace Smysl
namespace Monotone

section
variable [Unicode] [Blake3]

theorem originals_snoc (us : List UnitCore) (u : UnitCore) :
    originals (us ++ [u]) = (originals us).insert (canonicalUid u) u := by
  rw [originals, originals, BTreeMap.ofList, BTreeMap.ofList, List.map_append, List.foldl_append]
  rfl

theorem originals_get {us : List UnitCore} {r : Uid} {u : UnitCore}
    (found : (originals us).get r = some u) : u ∈ us ∧ canonicalUid u = r := by
  induction us using List.reverseRecOn with
  | nil => cases found
  | append_singleton us v ih =>
    rw [originals_snoc, BTreeMap.get_insert] at found
    split at found
    · rename_i here
      cases found
      exact ⟨by simp, here.symm⟩
    · exact ⟨List.mem_append_left _ (ih found).1, (ih found).2⟩

theorem originals_held {us : List UnitCore} {u : UnitCore} (mem : u ∈ us) :
    ∃ v, (originals us).get (canonicalUid u) = some v := by
  induction us using List.reverseRecOn with
  | nil => cases mem
  | append_singleton us v ih =>
    rw [originals_snoc, BTreeMap.get_insert]
    split
    · exact ⟨v, rfl⟩
    · rename_i apart
      rcases List.mem_append.mp mem with mem | mem
      · exact ih mem
      · rw [List.mem_singleton.mp mem] at apart
        exact absurd rfl apart

theorem originals_none {us : List UnitCore} {r : Uid} (none_ : (originals us).get r = none)
    {u : UnitCore} (mem : u ∈ us) : canonicalUid u ≠ r := by
  rintro rfl
  obtain ⟨v, held⟩ := originals_held mem
  rw [none_] at held
  cases held

section
variable (store : StoreRead) (units : List UnitCore) (fin : UnitCore → UnitCore)

/-- Where a reference of the batch leads: to what the unit it names becomes. -/
def leads (r : Uid) : Uid :=
  match (originals units).get r with
  | some u => canonicalUid (fin u)
  | none => r

/-- The status a uid carries once the batch is what it becomes. -/
def statusIn (g : Uid) : Option Status :=
  match (originals (units.map fin)).get g with
  | some u => some u.status
  | none => (store.coreAt g).map UnitCore.status

/-- The statuses that are seen when some of the batch has been swept: not those of a uid that
neither the batch nor the store holds and that only what is swept later comes to. -/
def seenBy (before : List UnitCore) (g : Uid) : Option Status :=
  if (originals units).contains g || store.containsUid g ||
      (originals (before.map fin)).contains g then statusIn store units fin g
  else none

/-- What the batch is to become: each unit its own with its references where they lead, within
its weakest ground. And that a sweep in order takes it there: what moves comes before the units
that name it, and no ground that is not seen in time would weaken a unit further. -/
structure Follows : Prop where
  settled : ∀ u ∈ units,
    fin u = weaken (statusIn store units fin) (u.pointing (leads units fin))
  swept : ∀ before n after, inOrder units units = before ++ n :: after → ∀ m ∈ units,
    StoreRead.Refers n (canonicalUid m) → canonicalUid (fin m) ≠ canonicalUid m → m ∈ before
  seen : ∀ before n after, inOrder units units = before ++ n :: after →
    weaken (seenBy store units fin before) (n.pointing (leads units fin)) =
      weaken (statusIn store units fin) (n.pointing (leads units fin))

/-- No two of the units at hand that differ have the same uid. -/
structure Apart : Prop where
  batch : ∀ a ∈ units ++ units.map fin, ∀ b ∈ units ++ units.map fin,
    canonicalUid a = canonicalUid b → a = b
  store : ∀ a ∈ units.map fin, ∀ c, store.coreAt (canonicalUid a) = some c → c = a

/-- Where what has been swept has moved. -/
def movedBy (before : List UnitCore) : BTreeMap Uid Uid :=
  before.foldl (fun remap u => if canonicalUid (fin u) = canonicalUid u then remap
    else remap.insert (canonicalUid u) (canonicalUid (fin u))) ∅

end

section
variable {store : StoreRead} {units : List UnitCore} {fin : UnitCore → UnitCore}

theorem moved_snoc (before : List UnitCore) (u : UnitCore) :
    movedBy fin (before ++ [u]) = if canonicalUid (fin u) = canonicalUid u then movedBy fin before
      else (movedBy fin before).insert (canonicalUid u) (canonicalUid (fin u)) := by
  rw [movedBy, List.foldl_append]
  rfl

/-- What has been swept is followed to what it became. -/
theorem successor_moved (alone : ∀ a ∈ units, ∀ b ∈ units, canonicalUid a = canonicalUid b → a = b)
    {before : List UnitCore} (inside : ∀ d ∈ before, d ∈ units) {d : UnitCore} (mem : d ∈ units) :
    successor (movedBy fin before) (canonicalUid d) =
      if d ∈ before then canonicalUid (fin d) else canonicalUid d := by
  induction before using List.reverseRecOn with
  | nil => rfl
  | append_singleton before u ih =>
    have earlier := ih fun e mem => inside e (List.mem_append_left _ mem)
    have own : u ∈ units := inside u (by simp)
    rw [moved_snoc]
    by_cases same : d = u
    · have listed : d ∈ before ++ [u] := by simp [same]
      rw [if_pos listed]
      by_cases still : canonicalUid (fin u) = canonicalUid u
      · rw [if_pos still, earlier, same]
        split
        · rfl
        · exact still.symm
      · rw [if_neg still, successor_insert, same, Function.update_self]
    · have other : canonicalUid d ≠ canonicalUid u := fun here => same (alone d mem u own here)
      have listed : d ∈ before ++ [u] ↔ d ∈ before := by simp [same]
      simp only [listed]
      split
      · exact earlier
      · rw [successor_insert, Function.update_of_ne other, earlier]

theorem successor_outside {before : List UnitCore} {r : Uid}
    (outside : ∀ d ∈ before, canonicalUid d ≠ r) : successor (movedBy fin before) r = r := by
  induction before using List.reverseRecOn with
  | nil => rfl
  | append_singleton before u ih =>
    have earlier := ih fun e mem => outside e (List.mem_append_left _ mem)
    rw [moved_snoc]
    split
    · exact earlier
    · rw [successor_insert, Function.update_of_ne (outside u (by simp)).symm, earlier]

theorem authored_in (g : Uid) (s : Status) (known : statusIn store units fin g = some s) :
    s ≠ .unfounded := by
  rw [statusIn] at known
  split at known
  · rename_i u _
    cases known
    exact u.authored
  · obtain ⟨c, -, rfl⟩ := Option.map_eq_some_iff.mp known
    exact c.authored

theorem leads_held (apart : Apart store units fin) {u : UnitCore} (mem : u ∈ units) :
    leads units fin (canonicalUid u) = canonicalUid (fin u) := by
  obtain ⟨v, held⟩ := originals_held mem
  obtain ⟨mem', same⟩ := originals_get held
  rw [leads, held, apart.batch v (List.mem_append_left _ mem') u (List.mem_append_left _ mem) same]

theorem leads_outside {r : Uid} (outside : ∀ u ∈ units, canonicalUid u ≠ r) :
    leads units fin r = r := by
  rw [leads]
  cases held : (originals units).get r with
  | none => rfl
  | some u => exact absurd (originals_get held).2 (outside u (originals_get held).1)

theorem status_became (apart : Apart store units fin) {u : UnitCore} (mem : u ∈ units) :
    statusIn store units fin (canonicalUid (fin u)) = some (fin u).status := by
  have became : fin u ∈ units.map fin := List.mem_map_of_mem mem
  obtain ⟨v, held⟩ := originals_held became
  obtain ⟨mem', same⟩ := originals_get held
  rw [statusIn, held, apart.batch v (List.mem_append_right _ mem') (fin u)
    (List.mem_append_right _ became) same]

/-- A status the store knows is the one the batch's result has too. -/
theorem status_stored (apart : Apart store units fin) {g : Uid} {c : UnitCore}
    (held : store.coreAt g = some c) : statusIn store units fin g = some c.status := by
  rw [statusIn]
  split
  · rename_i u found
    obtain ⟨mem, rfl⟩ := originals_get found
    rw [apart.store u mem c held]
  · rw [held]
    rfl

/-- The sweep follows references to where they lead. -/
theorem followed (apart : Apart store units fin) (follows : Follows store units fin)
    {before after : List UnitCore} {n : UnitCore}
    (here : inOrder units units = before ++ n :: after) (inside : ∀ d ∈ before, d ∈ units) :
    n.pointing (successor (movedBy fin before)) = n.pointing (leads units fin) := by
  apply unitPointing.point_congr
  intro r names
  have alone : ∀ a ∈ units, ∀ b ∈ units, canonicalUid a = canonicalUid b → a = b :=
    fun a mem b mem' => apart.batch a (List.mem_append_left _ mem) b (List.mem_append_left _ mem')
  cases held : (originals units).get r with
  | none =>
    have outside : ∀ u ∈ units, canonicalUid u ≠ r := fun u mem => originals_none held mem
    rw [leads_outside outside, successor_outside fun d mem => outside d (inside d mem)]
  | some b =>
    obtain ⟨mem, rfl⟩ := originals_get held
    rw [leads_held apart mem, successor_moved alone inside mem]
    split
    · rfl
    · rename_i later
      exact (not_imp_comm.mp (follows.swept before n after here b mem names) later).symm

/-- What the sweep looks up is what it can see of what the batch becomes. -/
theorem status_seen (apart : Apart store units fin) (follows : Follows store units fin)
    {before after : List UnitCore} {n : UnitCore}
    (here : inOrder units units = before ++ n :: after) (inside : ∀ d ∈ before, d ∈ units)
    {g : Uid} (names : g ∈ (n.pointing (leads units fin)).grounds) :
    statusOf g (originals (before.map fin)) (originals units) store =
      seenBy store units fin before g := by
  rw [statusOf]
  cases swept : (originals (before.map fin)).get g with
  | some v =>
    obtain ⟨mem, named⟩ := originals_get swept
    obtain ⟨d, early, rfl⟩ := List.mem_map.mp mem
    have seen : (originals (before.map fin)).contains g = true := by
      rw [BTreeMap.contains, swept]
      rfl
    rw [seenBy, if_pos (by rw [seen, Bool.or_true]), ← named,
      status_became apart (inside d early)]
  | none =>
    cases held : (originals units).get g with
    | some b =>
      -- what is of the batch and not swept has not moved
      obtain ⟨mem, named⟩ := originals_get held
      obtain ⟨x, ground, lead⟩ := (mem_follow_by _ _ _).mp names
      have still : fin b = b := by
        cases first : (originals units).get x with
        | none =>
          rw [leads_outside fun u mem => originals_none first mem] at lead
          rw [lead, held] at first
          cases first
        | some c =>
          obtain ⟨own, rfl⟩ := originals_get first
          rw [leads_held apart own] at lead
          have later : c ∉ before := fun mem =>
            originals_none swept (List.mem_map_of_mem mem) lead
          have stays := not_imp_comm.mp
            (follows.swept before n after here c own (Or.inl ground)) later
          have same : c = b := apart.batch c (List.mem_append_left _ own) b
            (List.mem_append_left _ mem) (by rw [named, ← lead, stays])
          rw [← same]
          exact apart.batch (fin c) (List.mem_append_right _ (List.mem_map_of_mem own)) c
            (List.mem_append_left _ own) stays
      have seen : (originals units).contains g = true := by
        rw [BTreeMap.contains, held]
        rfl
      have status := status_became apart mem
      rw [still, named] at status
      rw [seenBy, if_pos (by rw [seen, Bool.true_or, Bool.true_or]), status]
    | none =>
      cases stored : store.coreAt g with
      | some c =>
        have seen : store.containsUid g = true := by
          obtain ⟨u, found, -⟩ := Option.map_eq_some_iff.mp stored
          rw [StoreRead.containsUid, BTreeMap.contains, found]
          rfl
        rw [seenBy, if_pos (by rw [seen, Bool.or_true, Bool.true_or]),
          status_stored apart stored]
        rfl
      | none =>
        have unseen : store.containsUid g = false := by
          rw [StoreRead.coreAt, Option.map_eq_none_iff] at stored
          rw [StoreRead.containsUid, BTreeMap.contains, stored]
          rfl
        rw [seenBy, if_neg (by simp [BTreeMap.contains, held, swept, unseen])]
        rfl

/-- One unit of the sweep becomes what it is to become. -/
theorem visit_settles (apart : Apart store units fin) (follows : Follows store units fin)
    {before after : List UnitCore} {n : UnitCore}
    (here : inOrder units units = before ++ n :: after) (inside : ∀ d ∈ before, d ∈ units)
    (own : n ∈ units) (weakened : List Weakening) :
    ∃ weakened', visit store (originals units)
        ⟨movedBy fin before, originals (before.map fin), weakened⟩ n =
      (fin n, ⟨movedBy fin (before ++ [n]), originals ((before ++ [n]).map fin), weakened'⟩) := by
  have core : weaken (fun uid => statusOf uid (originals (before.map fin)) (originals units) store)
      (n.pointing (leads units fin)) = fin n := by
    rw [weaken_congr fun g mem => status_seen apart follows here inside mem,
      follows.seen before n after here, ← follows.settled n own]
  rw [visit]
  dsimp only
  rw [followed apart follows here inside, core, moved_snoc, List.map_append, List.map_singleton,
    originals_snoc]
  exact ⟨_, rfl⟩

theorem in_order_mem {d : UnitCore} (mem : d ∈ inOrder units units) : d ∈ units := by
  obtain ⟨i, -, found⟩ := List.mem_filterMap.mp mem
  exact List.mem_of_getElem? found

/-- The run: each unit's place holds what it is to become. -/
theorem sweep_settles (apart : Apart store units fin) (follows : Follows store units fin)
    (order : List Nat) (bounded : ∀ i ∈ order, i < units.length) {before : List UnitCore}
    (here : inOrder units units = before ++ order.filterMap (units[·]?))
    (weakened : List Weakening) (placed : List (Option UnitCore)) :
    ∃ weakened', order.foldl (sweepOne store units)
        (⟨movedBy fin before, originals (before.map fin), weakened⟩, placed) =
      (⟨movedBy fin (inOrder units units), originals ((inOrder units units).map fin), weakened'⟩,
        order.foldl (fun placed i => placed.set i ((units[i]?).map fin)) placed) := by
  induction order generalizing before weakened placed with
  | nil =>
    rw [List.filterMap_nil, List.append_nil] at here
    exact ⟨weakened, by rw [here]; rfl⟩
  | cons i order ih =>
    have inside := bounded i List.mem_cons_self
    have found : units[i]? = some units[i] := List.getElem?_eq_getElem inside
    rw [List.foldl_cons, List.foldl_cons, sweepOne, found]
    rw [List.filterMap_cons_some found] at here
    have own : ∀ d ∈ before, d ∈ units := fun d mem =>
      in_order_mem (here ▸ List.mem_append_left _ mem)
    obtain ⟨weakened', visited⟩ := visit_settles apart follows here own
      (List.mem_of_getElem? found) weakened
    dsimp only
    rw [visited]
    exact ih (fun j mem => bounded j (List.mem_cons_of_mem i mem))
      (by rw [here, List.append_assoc, List.singleton_append]) weakened' _

/-- The whole pass: the units in their order, each as it is to become. -/
theorem apply_settles (apart : Apart store units fin) (follows : Follows store units fin) :
    (apply store units).units = units.map fin ∧
      (apply store units).remap = movedBy fin (inOrder units units) := by
  have swept : ∃ weakened, (topological units).foldl (sweepOne store units)
      (⟨∅, ∅, []⟩, List.replicate units.length none) =
        (⟨movedBy fin (inOrder units units), originals ((inOrder units units).map fin), weakened⟩,
          (topological units).foldl (fun placed i => placed.set i ((units[i]?).map fin))
            (List.replicate units.length none)) :=
    sweep_settles apart follows (topological units) (topological_bounded units)
      (List.nil_append _).symm [] _
  obtain ⟨weakened, swept⟩ := swept
  rw [apply, swept, placed_all]
  dsimp only
  rw [List.filterMap_map]
  exact ⟨congrFun List.filterMap_eq_map' units, rfl⟩

end

end

end Monotone
end Smysl
