import Smysl.Graph.BundleClosed
import Smysl.Graph.Delivery
import Smysl.Graph.Retraction
import Smysl.Lib.Pointing

/-!
Re-pointing references after a unit has been replaced. Nothing is rewritten: a
corrected unit is a new record, with a `supersedes` edge to the one it replaces.
-/
open Relation

namespace Smysl

/-- Where a reference leads. -/
def successor (remap : BTreeMap Uid Uid) (u : Uid) : Uid := (remap.get u).getD u

/-- The set with each element followed. -/
def followBy (lead : Uid → Uid) (set : BTreeSet Uid) : BTreeSet Uid :=
  BTreeSet.ofList (set.toList.map lead)

def follow (set : BTreeSet Uid) (remap : BTreeMap Uid Uid) : BTreeSet Uid :=
  followBy (successor remap) set

theorem mem_follow_by (lead : Uid → Uid) (set : BTreeSet Uid) (u : Uid) :
    u ∈ followBy lead set ↔ ∃ v ∈ set, lead v = u := by
  simp only [followBy, BTreeSet.mem_ofList, List.mem_map, BTreeSet.mem_toList]

theorem follow_by_is_empty (lead : Uid → Uid) (set : BTreeSet Uid) :
    (followBy lead set).isEmpty = set.isEmpty := by
  rw [Bool.eq_iff_iff, BTreeSet.isEmpty, BTreeSet.isEmpty, List.isEmpty_iff, List.isEmpty_iff,
    List.eq_nil_iff_forall_not_mem, List.eq_nil_iff_forall_not_mem]
  constructor
  · intro none u mem
    apply none (lead u)
    rw [BTreeSet.mem_toList, mem_follow_by]
    exact ⟨u, (BTreeSet.mem_toList _ _).mp mem, rfl⟩
  · intro none u mem
    rw [BTreeSet.mem_toList, mem_follow_by] at mem
    obtain ⟨v, mem, _⟩ := mem
    exact none v ((BTreeSet.mem_toList _ _).mpr mem)

namespace UnitCore

/-- The unit with its grounds and deps followed. -/
def pointing (lead : Uid → Uid) (core : UnitCore) : UnitCore :=
  { core with
    grounds := followBy lead core.grounds
    deps := followBy lead core.deps
    grounded := by
      intro requires
      rw [follow_by_is_empty]
      exact core.grounded requires }

end UnitCore

section
variable [Unicode] [Blake3]

/-- What each unit still waits for: the positions of its grounds. -/
def pendingGrounds (units : List UnitCore) : List (BTreeSet Nat) :=
  let index := BTreeMap.ofList (units.zipIdx.map (fun e => (canonicalUid e.1, e.2)))
  units.map (fun u => BTreeSet.ofList (u.grounds.toList.filterMap index.get))

end

/-- The first unit not placed that waits for nothing. -/
def nextReady (out : List Nat) (pending : List (BTreeSet Nat)) : Option Nat :=
  (List.range pending.length).find? (fun i =>
    !out.contains i && (pending.getD i ∅).isEmpty)

/-- The rounds of the sort, with what is placed and what each unit waits for. -/
def placeReady : Nat → List Nat → List (BTreeSet Nat) → List Nat
  | 0, out, _ => out
  | rounds + 1, out, pending =>
    match nextReady out pending with
    | none => out
    | some next =>
      placeReady rounds (out ++ [next])
        (pending.map (fun p => BTreeSet.ofList (p.toList.filter (· != next))))

section
variable [Unicode] [Blake3]

/-- Positions of the units, so that a unit's grounds come before it; a cycle is left in the
order it came in. -/
def topological (units : List UnitCore) : List Nat :=
  let out := placeReady units.length [] (pendingGrounds units)
  out ++ (List.range units.length).filter (fun i => !out.contains i)

/-- What the rewritten units were and are. -/
def rewritten (before : List Uid) (units : List UnitCore) : BTreeMap Uid Uid :=
  (before.zip units).foldl (fun remap e =>
    if canonicalUid e.2 = e.1 then remap else remap.insert e.1 (canonicalUid e.2)) ∅

/-- One unit of the sweep: its references are followed, and where it moved. -/
def settleOne (units : List UnitCore) (state : BTreeMap Uid Uid × List (Option UnitCore))
    (i : Nat) : BTreeMap Uid Uid × List (Option UnitCore) :=
  match units[i]? with
  | none => state
  | some unit =>
    let core := unit.pointing (successor state.1)
    let was := canonicalUid unit
    let now := canonicalUid core
    (if now = was then state.1 else state.1.insert was now, state.2.set i (some core))

/-- Re-point every reference after units have been rewritten in place. -/
def resettle (before : List Uid) (units : List UnitCore) (relations : List Relation) :
    List UnitCore × List Relation × BTreeMap Uid Uid :=
  let settled := (topological units).foldl (settleOne units)
    (rewritten before units, List.replicate units.length none)
  (settled.2.filterMap id,
    relations.map (fun r =>
      { r with src := successor settled.1 r.src, dst := successor settled.1 r.dst }),
    settled.1)

end

/-- What relinking would do. -/
structure Relinked where
  records : List Record
  moved : BTreeMap Uid Uid
  /-- References that cannot be fixed, as holder and target. -/
  dangling : List (Uid × Uid)
  /-- Targets with more than one successor and no ordering between them. -/
  forked : List Uid
  deriving DecidableEq

namespace StoreRead

/-- Whether this exact edge exists. -/
def hasRelation (s : StoreRead) (kind : RelKind) (src dst : Uid) : Bool :=
  s.interp.relations.contains (toLex (kind.asStr, toLex (src, dst)))

/-- The successors no other successor supersedes. -/
def latest (s : StoreRead) (succs : BTreeSet Uid) : List Uid :=
  succs.toList.filter (fun a =>
    !succs.toList.any (fun b => b != a && s.hasRelation .supersedes b a))

/-- The one successor that counts: the only one, or the only latest one. -/
def chosen (s : StoreRead) (succs : BTreeSet Uid) : Option Uid :=
  match succs.toList with
  | [] => none
  | [only] => some only
  | _ =>
    match s.latest succs with
    | [only] => some only
    | _ => none

section
variable [Unicode] [Blake3]

/-- The units that supersede each unit. -/
def direct (s : StoreRead) : BTreeMap Uid (BTreeSet Uid) :=
  (s.relationsOfKind .supersedes).foldl (fun direct r => insertAt direct r.dst r.src) ∅

/-- The one replacement of each unit that has one. -/
def one (s : StoreRead) : BTreeMap Uid Uid :=
  s.direct.entries.foldl (fun one e =>
    match s.chosen e.2 with
    | some only => one.insert e.1 only
    | none => one) ∅

/-- Targets with successors and no one that counts. -/
def forked (s : StoreRead) : List Uid :=
  (s.direct.entries.filter (fun e =>
    !e.2.toList.isEmpty && (s.chosen e.2).isNone)).map Prod.fst

end
end StoreRead

/-- Follow single replacements to the last one; a cycle is left where it closes. -/
def chase (one : BTreeMap Uid Uid) : Nat → Uid → BTreeSet Uid → Uid
  | 0, at_, _ => at_
  | steps + 1, at_, seen =>
    match one.get at_ with
    | none => at_
    | some next => if at_ ∈ seen then at_ else chase one steps next (seen.insert at_)

/-- The end of the chain from each replaced unit. -/
def collapse (one : BTreeMap Uid Uid) : BTreeMap Uid Uid :=
  one.keys.foldl (fun newest start =>
    let end_ := chase one (one.entries.length + 1) start ∅
    if end_ = start then newest else newest.insert start end_) ∅

section
variable [Unicode] [Blake3]

/-- Each superseded unit's newest replacement, and the units that are forked. -/
def supersessionHeads (s : StoreRead) : BTreeMap Uid Uid × List Uid :=
  (collapse s.one, s.forked)

namespace StoreRead

/-- The units that are not replaced themselves. -/
def candidates (s : StoreRead) (newest : BTreeMap Uid Uid) : List (Uid × UnitCore) :=
  (s.units.entries.filter (fun e => !newest.contains e.1)).map (fun e => (e.1, e.2.core))

omit [Unicode] [Blake3] in
/-- What a unit names and the store does not hold. -/
def missing (s : StoreRead) (e : Uid × UnitCore) : List (Uid ×ₗ Uid) :=
  ((e.2.grounds.toList ++ e.2.deps.toList).filter (fun r => !s.containsUid r)).map
    (fun r => toLex (e.1, r))

end StoreRead

/-- The records that replace a unit by what it became. -/
def correction (e : Uid × UnitCore) : List Record :=
  if canonicalUid e.2 = e.1 then []
  else [.unit e.2, .relation (Relation.new .supersedes (canonicalUid e.2) e.1)]

/-- Re-point references onto the newest replacement of what they name. -/
def relink (s : StoreRead) : Relinked :=
  let (newest, forked) := supersessionHeads s
  let candidates := s.candidates newest
  let dangling := (BTreeSet.ofList (candidates.flatMap s.missing)).toList.map ofLex
  if newest.isEmpty then ⟨[], ∅, dangling, forked⟩
  else
    let before := candidates.map Prod.fst
    let repointed := candidates.map (fun e => e.2.pointing (successor newest))
    let settled := (resettle before repointed []).1
    let both := before.zip settled
    { records := both.flatMap correction
      moved := both.foldl (fun moved e =>
        if canonicalUid e.2 = e.1 then moved else moved.insert e.1 (canonicalUid e.2)) ∅
      dangling := dangling
      forked := forked }

end

/-! What the sort, the sweep and the heads come to. -/

section
variable [Unicode] [Blake3]

/-- Units, named by their uids, as nodes. -/
def unitPointing : Pointing UnitCore Uid where
  refs core := {u | StoreRead.Refers core u}
  point := UnitCore.pointing
  address := canonicalUid
  refs_point lead core := by
    ext u
    simp only [StoreRead.Refers, UnitCore.pointing, mem_follow_by, Set.mem_ofPred_eq,
      Set.mem_image]
    constructor
    · intro either
      rcases either with ⟨v, mem, same⟩ | ⟨v, mem, same⟩
      · exact ⟨v, Or.inl mem, same⟩
      · exact ⟨v, Or.inr mem, same⟩
    · intro found
      obtain ⟨v, mem | mem, same⟩ := found
      · exact Or.inl ⟨v, mem, same⟩
      · exact Or.inr ⟨v, mem, same⟩
  point_congr f g core same := by
    have sets : ∀ set : BTreeSet Uid, (∀ r ∈ set, f r = g r) → followBy f set = followBy g set := by
      intro set agree
      rw [followBy, followBy]
      congr 1
      apply List.map_congr_left
      intro r mem
      exact agree r ((BTreeSet.mem_toList _ _).mp mem)
    have grounds := sets core.grounds fun r mem => same r (Or.inl mem)
    have deps := sets core.deps fun r mem => same r (Or.inr mem)
    simp only [UnitCore.pointing, grounds, deps]
  point_point f g core := by
    have sets : ∀ set : BTreeSet Uid,
        followBy f (followBy g set) = followBy (f ∘ g) set := by
      intro set
      apply BTreeSet.ext_mem
      intro u
      simp only [mem_follow_by, Function.comp]
      constructor
      · intro found
        obtain ⟨v, ⟨w, mem, rfl⟩, same⟩ := found
        exact ⟨w, mem, same⟩
      · intro found
        obtain ⟨w, mem, same⟩ := found
        exact ⟨g w, ⟨w, mem, rfl⟩, same⟩
    simp only [UnitCore.pointing, sets]
  point_id core := by
    have sets : ∀ set : BTreeSet Uid, followBy id set = set := by
      intro set
      rw [followBy, List.map_id, BTreeSet.ofList_toList]
    simp only [UnitCore.pointing, sets]

omit [Unicode] [Blake3] in
theorem place_ready_bounded {n : Nat} {out : List Nat} {pending : List (BTreeSet Nat)}
    (rounds : Nat) (size : pending.length = n) (bounded : ∀ i ∈ out, i < n) :
    ∀ i ∈ placeReady rounds out pending, i < n := by
  induction rounds generalizing out pending with
  | zero => exact bounded
  | succ rounds ih =>
    rw [placeReady]
    split
    · exact bounded
    · rename_i next ready
      apply ih
      · rw [List.length_map, size]
      · intro i mem
        rcases List.mem_append.mp mem with mem | mem
        · exact bounded i mem
        · have inside := List.mem_of_find?_eq_some ready
          rw [List.mem_singleton.mp mem]
          rw [List.mem_range, size] at inside
          exact inside

theorem topological_bounded (units : List UnitCore) :
    ∀ i ∈ topological units, i < units.length := by
  intro i mem
  rw [topological] at mem
  rcases List.mem_append.mp mem with mem | mem
  · apply place_ready_bounded units.length _ _ i mem
    · rw [pendingGrounds, List.length_map]
    · intro j none
      cases none
  · exact List.mem_range.mp (List.mem_filter.mp mem).1

theorem topological_all (units : List UnitCore) {i : Nat} (inside : i < units.length) :
    i ∈ topological units := by
  rw [topological, List.mem_append, List.mem_filter, List.mem_range]
  by_cases placed : i ∈ placeReady units.length [] (pendingGrounds units)
  · exact Or.inl placed
  · refine Or.inr ⟨inside, ?_⟩
    rw [List.contains_eq_mem, decide_eq_false placed]
    rfl

omit [Unicode] [Blake3] in
theorem successor_insert (remap : BTreeMap Uid Uid) (u v : Uid) :
    successor (remap.insert u v) = Function.update (successor remap) u v := by
  funext r
  rw [successor, BTreeMap.get_insert]
  by_cases here : r = u
  · rw [if_pos here, here, Function.update_self]
    rfl
  · rw [if_neg here, Function.update_of_ne here, successor]

/-- The loop is the sweep, and each result is put where its unit was. -/
theorem settle_all (units : List UnitCore) (order : List Nat)
    (bounded : ∀ i ∈ order, i < units.length) (remap : BTreeMap Uid Uid)
    (placed : List (Option UnitCore)) :
    (order.foldl (settleOne units) (remap, placed)).2 =
      (order.zip (unitPointing.sweep (successor remap) (order.filterMap (units[·]?)))).foldl
        (fun placed e => placed.set e.1 (some e.2)) placed := by
  induction order generalizing remap placed with
  | nil => rfl
  | cons i order ih =>
    have inside := bounded i List.mem_cons_self
    have found : units[i]? = some units[i] := List.getElem?_eq_getElem inside
    have later : ∀ j ∈ order, j < units.length := fun j mem =>
      bounded j (List.mem_cons_of_mem i mem)
    have known : successor (if canonicalUid (units[i].pointing (successor remap)) =
          canonicalUid units[i] then remap
        else remap.insert (canonicalUid units[i])
          (canonicalUid (units[i].pointing (successor remap)))) =
        unitPointing.visit (successor remap) units[i] := by
      rw [Pointing.visit]
      change _ = if canonicalUid (units[i].pointing (successor remap)) = canonicalUid units[i]
        then _ else Function.update (successor remap) (canonicalUid units[i])
          (canonicalUid (units[i].pointing (successor remap)))
      split
      · rfl
      · exact successor_insert _ _ _
    rw [List.foldl_cons, settleOne, found]
    dsimp only
    rw [ih later, known, List.filterMap_cons_some found, Pointing.sweep, List.zip_cons_cons,
      List.foldl_cons]
    rfl

omit [Unicode] [Blake3] in
theorem set_all_length (g : Nat → Option UnitCore) (order : List Nat)
    (placed : List (Option UnitCore)) :
    (order.foldl (fun placed i => placed.set i (g i)) placed).length = placed.length := by
  induction order generalizing placed with
  | nil => rfl
  | cons i order ih => rw [List.foldl_cons, ih, List.length_set]

omit [Unicode] [Blake3] in
theorem set_all_get (g : Nat → Option UnitCore) (order : List Nat)
    (placed : List (Option UnitCore)) {k : Nat} (inside : k < placed.length) :
    (order.foldl (fun placed i => placed.set i (g i)) placed)[k]? =
      if k ∈ order then some (g k) else placed[k]? := by
  induction order generalizing placed with
  | nil => rfl
  | cons i order ih =>
    rw [List.foldl_cons, ih _ (by rw [List.length_set]; exact inside)]
    by_cases later : k ∈ order
    · rw [if_pos later, if_pos (List.mem_cons_of_mem i later)]
    · rw [if_neg later]
      by_cases here : i = k
      · rw [here, if_pos List.mem_cons_self, List.getElem?_set_self inside]
      · rw [List.getElem?_set_ne here, if_neg]
        intro mem
        rcases List.mem_cons.mp mem with same | mem
        · exact here same.symm
        · exact later mem

omit [Unicode] [Blake3] in
/-- Putting the images of the units one by one is putting each at its own position. -/
theorem zip_set_all (units : List UnitCore) (image : UnitCore → UnitCore) (order : List Nat)
    (bounded : ∀ i ∈ order, i < units.length) (placed : List (Option UnitCore)) :
    (order.zip ((order.filterMap (units[·]?)).map image)).foldl
        (fun placed e => placed.set e.1 (some e.2)) placed =
      order.foldl (fun placed i => placed.set i ((units[i]?).map image)) placed := by
  induction order generalizing placed with
  | nil => rfl
  | cons i order ih =>
    have inside := bounded i List.mem_cons_self
    have found : units[i]? = some units[i] := List.getElem?_eq_getElem inside
    rw [List.filterMap_cons_some found, List.map_cons, List.zip_cons_cons, List.foldl_cons,
      List.foldl_cons, found, ih fun j mem => bounded j (List.mem_cons_of_mem i mem)]
    rfl

/-- The units at the positions of the sort. -/
def inOrder {α : Type} (units : List UnitCore) (xs : List α) : List α :=
  (topological units).filterMap (xs[·]?)

/-- What is put at the places of the sort is each unit's image at its own. -/
theorem placed_all (units : List UnitCore) (image : UnitCore → UnitCore) :
    (topological units).foldl (fun placed i => placed.set i ((units[i]?).map image))
      (List.replicate units.length none) = units.map fun u => some (image u) := by
  apply List.ext_getElem?
  intro k
  by_cases inside : k < units.length
  · rw [set_all_get (fun i => (units[i]?).map image) _ _ (by
        rw [List.length_replicate]
        exact inside), if_pos (topological_all units inside), List.getElem?_map,
      List.getElem?_eq_getElem inside]
    rfl
  · rw [List.getElem?_eq_none, List.getElem?_eq_none]
    · rw [List.length_map]
      omega
    · rw [set_all_length (fun i => (units[i]?).map image), List.length_replicate]
      omega

/-- Where the sweep takes every unit to its image, so does the whole pass. -/
theorem resettle_swept {before : List Uid} {units : List UnitCore} {image : UnitCore → UnitCore}
    (swept : unitPointing.sweep (successor (rewritten before units)) (inOrder units units) =
      (inOrder units units).map image) (relations : List Relation) :
    (resettle before units relations).1 = units.map image := by
  have bounded := topological_bounded units
  rw [resettle]
  dsimp only
  rw [settle_all units _ bounded, ← inOrder, swept]
  rw [inOrder, zip_set_all units image _ bounded, placed_all, List.filterMap_map]
  exact congrFun List.filterMap_eq_map' units

/-- The rewritten units lead where they moved to, and nothing else leads anywhere. -/
theorem rewritten_fold (pairs : List (Uid × UnitCore)) (distinct : (pairs.map Prod.fst).Nodup)
    (remap : BTreeMap Uid Uid) (fresh : ∀ e ∈ pairs, successor remap e.1 = e.1) :
    (∀ e ∈ pairs, successor (pairs.foldl (fun remap e =>
        if canonicalUid e.2 = e.1 then remap else remap.insert e.1 (canonicalUid e.2)) remap) e.1 =
          canonicalUid e.2) ∧
      ∀ r, (∀ e ∈ pairs, e.1 ≠ r) → successor (pairs.foldl (fun remap e =>
        if canonicalUid e.2 = e.1 then remap else remap.insert e.1 (canonicalUid e.2)) remap) r =
          successor remap r := by
  induction pairs generalizing remap with
  | nil => exact ⟨fun e mem => (nomatch mem), fun r _ => rfl⟩
  | cons d pairs ih =>
    obtain ⟨alone, distinct⟩ := List.nodup_cons.mp distinct
    have apart : ∀ e ∈ pairs, e.1 ≠ d.1 := fun e mem same =>
      alone (List.mem_map.mpr ⟨e, mem, same⟩)
    have step : ∀ r, successor (if canonicalUid d.2 = d.1 then remap
        else remap.insert d.1 (canonicalUid d.2)) r =
          if r = d.1 then canonicalUid d.2 else successor remap r := by
      intro r
      by_cases same : canonicalUid d.2 = d.1
      · rw [if_pos same]
        by_cases here : r = d.1
        · rw [if_pos here, here, same]
          exact fresh d List.mem_cons_self
        · rw [if_neg here]
      · rw [if_neg same, successor_insert, Function.update_apply]
    obtain ⟨moved, rest⟩ := ih distinct _ (by
      intro e mem
      rw [step, if_neg (apart e mem)]
      exact fresh e (List.mem_cons_of_mem d mem))
    rw [List.foldl_cons]
    constructor
    · intro e mem
      rcases List.mem_cons.mp mem with here | mem
      · rw [here, rest d.1 apart, step, if_pos rfl]
      · exact moved e mem
    · intro r other
      rw [rest r fun e mem => other e (List.mem_cons_of_mem d mem), step,
        if_neg (Ne.symm (other d List.mem_cons_self))]

namespace StoreRead
variable (s : StoreRead)

/-- The units that supersede a unit. -/
def succs (u : Uid) : BTreeSet Uid := (s.direct.get u).getD ∅

omit [Unicode] in
theorem mem_succs (x u : Uid) : x ∈ s.succs u ↔ s.Succeeds x u := by
  rw [succs, direct, mem_insert_all Relation.dst Relation.src, Succeeds]
  constructor
  · intro either
    rcases either with ⟨r, mem, dst, src⟩ | none
    · exact ⟨r, mem, src, dst⟩
    · exact absurd none (BTreeSet.not_mem_emptyCollection x)
  · intro found
    obtain ⟨r, mem, src, dst⟩ := found
    exact Or.inl ⟨r, mem, dst, src⟩

omit [Unicode] [Blake3] in
/-- What a loop over a map inserts, key by key. -/
theorem insert_each_get {f : BTreeSet Uid → Option Uid} {es : List (Uid × BTreeSet Uid)}
    (distinct : (es.map Prod.fst).Nodup) (m : BTreeMap Uid Uid)
    (fresh : ∀ e ∈ es, m.get e.1 = none) (u : Uid) :
    (es.foldl (fun m e =>
      match f e.2 with
      | some only => m.insert e.1 only
      | none => m) m).get u = ((OrdMap.lookup u es).bind f).or (m.get u) := by
  induction es generalizing m with
  | nil => rfl
  | cons d es ih =>
    obtain ⟨alone, distinct⟩ := List.nodup_cons.mp distinct
    have step : ∀ k, (match f d.2 with
        | some only => m.insert d.1 only
        | none => m).get k = if k = d.1 then (f d.2).or (m.get k) else m.get k := by
      intro k
      cases f d.2 with
      | none => simp
      | some only =>
        dsimp only
        rw [BTreeMap.get_insert]
        by_cases here : k = d.1
        · rw [if_pos here, if_pos here]
          rfl
        · rw [if_neg here, if_neg here]
    rw [List.foldl_cons, ih distinct]
    · rw [step, OrdMap.lookup]
      by_cases here : d.1 = u
      · have none : OrdMap.lookup u es = none := by
          rw [OrdMap.lookup_none_iff, ← here]
          exact alone
        rw [none, if_pos here.symm, if_pos here]
        rfl
      · rw [if_neg (Ne.symm here), if_neg here]
    · intro e mem
      rw [step, if_neg]
      · exact fresh e (List.mem_cons_of_mem d mem)
      · intro same
        exact alone (List.mem_map.mpr ⟨e, mem, same⟩)

omit [Unicode] in
theorem one_get (u : Uid) : s.one.get u = s.chosen (s.succs u) := by
  rw [one, insert_each_get (OrdMap.ascending_keys_nodup s.direct.ascending) ∅
    (fun e _ => BTreeMap.get_emptyCollection e.1), BTreeMap.get_emptyCollection, Option.or_none]
  change (s.direct.get u).bind s.chosen = _
  rw [succs]
  cases s.direct.get u <;> rfl

omit [Unicode] in
/-- A forked unit has successors, none of which counts. -/
theorem mem_forked (u : Uid) :
    u ∈ s.forked ↔ (∃ x, x ∈ s.succs u) ∧ s.chosen (s.succs u) = none := by
  rw [forked, List.mem_map]
  have nonempty : ∀ set : BTreeSet Uid, (!set.toList.isEmpty) = true ↔ ∃ x, x ∈ set := by
    intro set
    rw [Bool.not_eq_true', List.isEmpty_eq_false_iff_exists_mem]
    simp only [BTreeSet.mem_toList]
  constructor
  · intro found
    obtain ⟨e, mem, here⟩ := found
    obtain ⟨held, forks⟩ := List.mem_filter.mp mem
    rw [Bool.and_eq_true, nonempty, Option.isNone_iff_eq_none] at forks
    have found := (BTreeMap.mem_entries_iff s.direct e.1 e.2).mp held
    rw [← here, succs, found]
    exact forks
  · intro forks
    cases found : s.direct.get u with
    | none =>
      rw [succs, found] at forks
      obtain ⟨⟨x, mem⟩, _⟩ := forks
      exact absurd mem (BTreeSet.not_mem_emptyCollection x)
    | some set =>
      rw [succs, found] at forks
      refine ⟨(u, set), List.mem_filter.mpr ⟨(BTreeMap.mem_entries_iff _ _ _).mpr found, ?_⟩, rfl⟩
      rw [Bool.and_eq_true, nonempty, Option.isNone_iff_eq_none]
      exact forks

end StoreRead

/-- One replacement after another, a chain that does not close. -/
def ChainsEnd (one : BTreeMap Uid Uid) : Prop := ∀ u, ¬ TransGen (fun a b => one.get a = some b) u u

omit [Unicode] [Blake3] in
/-- A chain that does not close is followed to a unit nothing replaces. -/
theorem chase_ends {one : BTreeMap Uid Uid} (ending : ChainsEnd one) {steps : Nat} {at_ : Uid}
    {seen : BTreeSet Uid} (behind : ∀ x ∈ seen, TransGen (fun a b => one.get a = some b) x at_)
    (enough : Worklist.unseen one.keys seen < steps) :
    one.get (chase one steps at_ seen) = none := by
  induction steps generalizing at_ seen with
  | zero => omega
  | succ steps ih =>
    rw [chase]
    cases found : one.get at_ with
    | none => exact found
    | some next =>
      have fresh : at_ ∉ seen := fun mem => ending at_ (behind at_ mem)
      have key : at_ ∈ one.keys := by
        rw [BTreeMap.mem_keys_iff, BTreeMap.contains, found]
        rfl
      have less := Worklist.unseen_insert key fresh
      dsimp only
      rw [if_neg fresh]
      apply ih _ (by omega)
      intro x mem
      rcases (BTreeSet.mem_insert _ _ _).mp mem with here | before
      · rw [here]
        exact TransGen.single found
      · exact (behind x before).tail found

omit [Unicode] [Blake3] in
theorem collapse_fold (f : Uid → Uid) {keys : List Uid} (distinct : keys.Nodup)
    (m : BTreeMap Uid Uid) (fresh : ∀ k ∈ keys, m.get k = none) (u : Uid) :
    (keys.foldl (fun newest start =>
      if f start = start then newest else newest.insert start (f start)) m).get u =
      if u ∈ keys ∧ f u ≠ u then some (f u) else m.get u := by
  induction keys generalizing m with
  | nil => simp
  | cons k keys ih =>
    obtain ⟨alone, distinct⟩ := List.nodup_cons.mp distinct
    have step : ∀ j, (if f k = k then m else m.insert k (f k)).get j =
        if j = k ∧ f k ≠ k then some (f k) else m.get j := by
      intro j
      by_cases still : f k = k
      · rw [if_pos still, if_neg]
        intro both
        exact both.2 still
      · rw [if_neg still, BTreeMap.get_insert]
        by_cases here : j = k
        · rw [if_pos here, if_pos ⟨here, still⟩]
        · rw [if_neg here, if_neg]
          intro both
          exact here both.1
    rw [List.foldl_cons, ih distinct]
    · rw [step]
      by_cases here : u = k
      · rw [← here, if_neg fun both => alone (here ▸ both.1)]
        by_cases still : f u = u
        · rw [if_neg fun both => both.2 still, if_neg fun both => both.2 still]
        · rw [if_pos ⟨rfl, still⟩, if_pos ⟨List.mem_cons_self, still⟩]
      · simp only [List.mem_cons, here, false_or, false_and, if_false]
    · intro j mem
      rw [step, if_neg]
      · exact fresh j (List.mem_cons_of_mem k mem)
      · intro both
        rw [both.1] at mem
        exact alone mem

omit [Unicode] [Blake3] in
/-- Where no chain closes, every replaced unit has a newest replacement, which nothing
replaces. -/
theorem collapse_ends {one : BTreeMap Uid Uid} (ending : ChainsEnd one) :
    (∀ k h, (collapse one).get k = some h → (collapse one).get h = none) ∧
      ∀ k, (collapse one).get k = none ↔ one.get k = none := by
  have ends : ∀ k, one.get (chase one (one.entries.length + 1) k ∅) = none := by
    intro k
    apply chase_ends ending
    · intro x none
      exact absurd none (BTreeSet.not_mem_emptyCollection x)
    · apply Nat.lt_succ_of_le
      apply (List.length_filter_le _ _).trans
      rw [BTreeMap.keys, List.length_map]
  have get := fun u => collapse_fold (fun k => chase one (one.entries.length + 1) k ∅)
    one.keys_nodup ∅ (fun k _ => BTreeMap.get_emptyCollection k) u
  have key : ∀ k, k ∈ one.keys ↔ one.get k ≠ none := by
    intro k
    rw [BTreeMap.mem_keys_iff, BTreeMap.contains, Option.isSome_iff_ne_none]
  have none_iff : ∀ k, (collapse one).get k = none ↔ one.get k = none := by
    intro k
    rw [collapse, get k, BTreeMap.get_emptyCollection]
    constructor
    · intro missing
      by_contra replaced
      rw [if_pos] at missing
      · cases missing
      · refine ⟨(key k).mpr replaced, fun same => replaced ?_⟩
        have ended := ends k
        rw [same] at ended
        exact ended
    · intro missing
      rw [if_neg]
      intro both
      exact (key k).mp both.1 missing
  refine ⟨fun k h found => ?_, none_iff⟩
  rw [none_iff]
  rw [collapse, get k, BTreeMap.get_emptyCollection] at found
  split at found
  · cases found
    exact ends k
  · cases found

end
end Smysl
