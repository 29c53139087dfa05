import Smysl.Query.Expand

/-!
The pass that leaves a query with current units: a superseded unit gives way to its newest
head, and a forked one to the units that directly supersede it.
-/
open Relation

namespace Smysl
open ByteString

/-- What running a query answers; what else a ranked hit carries is left open. -/
inductive Answer (P : Type)
  | scope (uids : List Uid)
  | ranked (fused : List (Uid × P))
  | count (n : Nat)
  | groups (parts : List (String × List Uid))
  | packed (uids : List Uid)
  deriving DecidableEq

namespace Answer
variable {P : Type}

/-- The units an answer names, in order. -/
def uids : Answer P → List Uid
  | scope uids => uids
  | packed uids => uids
  | ranked fused => fused.map Prod.fst
  | groups parts => parts.flatMap Prod.snd
  | count _ => []

/-- A count or a grouping is produced after the pass. -/
def isList : Answer P → Bool
  | count _ => false
  | groups _ => false
  | _ => true

end Answer

namespace StoreRead
section
variable [Blake3]

/-- The units that directly supersede a unit. -/
def directSuccessors (s : StoreRead) (uid : Uid) : List Uid :=
  (BTreeSet.ofList (((s.relationsOfKind .supersedes).filter (fun r => r.dst == uid)).map
    Relation.src)).toList

/-- What the pass puts in place of a unit. -/
def replacements (s : StoreRead) (newest : BTreeMap Uid Uid) (forked : BTreeSet Uid) (uid : Uid) :
    List Uid :=
  match newest.get uid with
  | some head => [head]
  | none => if forked.contains uid then s.directSuccessors uid else [uid]

/-- The finding that units in scope are superseded by several that nothing orders. -/
def forksMet (forksSeen : Nat) : List Diagnostic :=
  if 0 < forksSeen then
    [{ code := .w464
       span := ⟨0, 0⟩
       message := toString forksSeen ++ " unit(s) in scope are superseded by two or more units " ++
         "that nothing                  orders; no single head exists, so every successor is kept" }]
  else []

/-- Replace superseded units by their newest head, and forked ones by their successors. -/
def supersede {P : Type} (s : StoreRead) (answer : Answer P) (warnings : List Diagnostic) :
    Answer P × List Diagnostic :=
  let heads := supersessionHeads s
  if heads.1.isEmpty && heads.2.isEmpty then (answer, warnings)
  else if answer.isList then
    let forked := BTreeSet.ofList heads.2
    let forksSeen := (answer.uids.filter (fun u =>
      !heads.1.contains u && forked.contains u)).length
    (.scope (BTreeSet.ofList (answer.uids.flatMap (s.replacements heads.1 forked))).toList,
      warnings ++ forksMet forksSeen)
  else (answer, warnings)

/-- Something supersedes the unit. -/
def Succeeded (s : StoreRead) (u : Uid) : Prop := ∃ x, s.Succeeds x u

/-- Reached along supersessions, from what was replaced to what replaced it. -/
def Above (s : StoreRead) (u m : Uid) : Prop := TransGen (fun a b => s.Succeeds b a) u m

/-- What the pass is for. -/
structure SupersedeSettles {P : Type} (s : StoreRead) (answer : Answer P) : Prop where
  current : ∀ u ∈ (s.supersede answer []).1.uids, ¬ s.Succeeded u
  complete : ∀ u ∈ answer.uids, s.Succeeded u → ∀ m, s.Above u m → ¬ s.Succeeded m →
    s.containsUid m = true → m ∈ (s.supersede answer []).1.uids
  distinct : (s.supersede answer []).1.uids.Nodup
  idempotent : (s.supersede (s.supersede answer []).1 []).1 = (s.supersede answer []).1

/-- A result leads to a unit: it is the unit, or its chain of single replacements ends there,
or it is forked and the unit directly supersedes it. -/
def LeadsTo (s : StoreRead) (v m : Uid) : Prop :=
  v = m ∨ s.newest.get v = some m ∨ (v ∈ s.forked ∧ s.Succeeds m v)

/-- No chain of single replacements from a result ends at a fork, what supersedes a forked
result is not superseded, and other results lead to the tops of the branches that a chain
leaves aside. -/
structure Unbranched (s : StoreRead) (results : List Uid) : Prop where
  chains : ∀ u ∈ results, ∀ h, s.newest.get u = some h → h ∉ s.forked
  forks : ∀ u ∈ results, u ∈ s.forked → ∀ x, s.Succeeds x u → ¬ s.Succeeded x
  aside : ∀ u ∈ results, ∀ h, s.newest.get u = some h → ∀ m, s.Above u m → ¬ s.Succeeded m →
    s.containsUid m = true → m ≠ h → ∃ v ∈ results, v ≠ u ∧ s.LeadsTo v m
  distinct : (∀ u, ¬ s.Succeeded u) → results.Nodup

end

section
variable [Blake3] {s : StoreRead}

theorem mem_direct_successors (x u : Uid) : x ∈ s.directSuccessors u ↔ s.Succeeds x u := by
  rw [directSuccessors, BTreeSet.mem_toList, BTreeSet.mem_ofList, List.mem_map, Succeeds]
  constructor
  · rintro ⟨r, mem, src⟩
    obtain ⟨held, dst⟩ := List.mem_filter.mp mem
    exact ⟨r, held, src, beq_iff_eq.mp dst⟩
  · rintro ⟨r, held, src, dst⟩
    exact ⟨r, List.mem_filter.mpr ⟨held, beq_iff_eq.mpr dst⟩, src⟩

/-- A forked unit is superseded. -/
theorem superseded_of_forked {u : Uid} (forks : u ∈ s.forked) : s.Succeeded u := by
  obtain ⟨⟨x, mem⟩, _⟩ := (s.mem_forked u).mp forks
  exact ⟨x, (s.mem_succs x u).mp mem⟩

variable (ends : ChainsEnd s.one)
include ends

theorem superseded_of_newest {u h : Uid} (found : s.newest.get u = some h) : s.Succeeded u := by
  cases chosen : s.chosen (s.succs u) with
  | none =>
    rw [(newest_none ends u).mpr chosen] at found
    cases found
  | some x => exact ⟨x, (s.mem_succs x u).mp (s.chosen_mem chosen)⟩

/-- A superseded unit has a head or is forked. -/
theorem superseded_iff (u : Uid) :
    s.Succeeded u ↔ (∃ h, s.newest.get u = some h) ∨ u ∈ s.forked := by
  constructor
  · rintro ⟨x, above⟩
    cases found : s.newest.get u with
    | some h => exact Or.inl ⟨h, rfl⟩
    | none =>
      exact Or.inr ((s.mem_forked u).mpr
        ⟨⟨x, (s.mem_succs x u).mpr above⟩, (newest_none ends u).mp found⟩)
  · rintro (⟨h, found⟩ | forks)
    · exact superseded_of_newest ends found
    · exact superseded_of_forked forks

/-- Not both: a unit with a head is not forked. -/
theorem newest_of_forked {u : Uid} (forks : u ∈ s.forked) : s.newest.get u = none :=
  (newest_none ends u).mpr ((s.mem_forked u).mp forks).2

theorem nothing_replaced_iff :
    (s.newest.isEmpty && s.forked.isEmpty) = true ↔ ∀ u, ¬ s.Succeeded u := by
  rw [Bool.and_eq_true, BTreeMap.isEmpty, List.isEmpty_iff, List.isEmpty_iff,
    List.eq_nil_iff_forall_not_mem, List.eq_nil_iff_forall_not_mem]
  constructor
  · rintro ⟨heads, forks⟩ u above
    rcases (superseded_iff ends u).mp above with ⟨h, found⟩ | forked
    · exact heads (u, h) ((BTreeMap.mem_entries_iff _ _ _).mpr found)
    · exact forks u forked
  · intro none'
    refine ⟨fun e mem => ?_, fun u forks => none' u (superseded_of_forked forks)⟩
    exact none' e.1 (superseded_of_newest ends ((BTreeMap.mem_entries_iff _ _ _).mp mem))

theorem mem_replacements (v m : Uid) :
    m ∈ s.replacements s.newest (BTreeSet.ofList s.forked) v ↔
      (v = m ∧ ¬ s.Succeeded v) ∨ s.newest.get v = some m ∨ (v ∈ s.forked ∧ s.Succeeds m v) := by
  rw [replacements, superseded_iff ends]
  cases found : s.newest.get v with
  | some head =>
    have unforked : v ∉ s.forked := by
      intro forks
      rw [newest_of_forked ends forks] at found
      cases found
    simp [unforked, eq_comm]
  | none =>
    dsimp only
    split
    · rename_i held
      have forks : v ∈ s.forked := by
        rw [← BTreeSet.mem_ofList]
        exact held
      rw [mem_direct_successors]
      simp [forks]
    · rename_i held
      have unforked : v ∉ s.forked := by
        intro forks
        exact held ((BTreeSet.mem_ofList _ _).mpr forks)
      simp [unforked, eq_comm]

/-- The pass changes a list of results where something in the store is superseded. -/
theorem supersede_cases {P : Type} {answer : Answer P} (listed : answer.isList = true) :
    ((∀ u, ¬ s.Succeeded u) ∧ (s.supersede answer []).1 = answer) ∨
      ((∃ u, s.Succeeded u) ∧ (s.supersede answer []).1 =
        .scope (BTreeSet.ofList (answer.uids.flatMap
          (s.replacements s.newest (BTreeSet.ofList s.forked)))).toList) := by
  have unfolded : (s.supersede answer []).1 =
      if (s.newest.isEmpty && s.forked.isEmpty) = true then answer
      else .scope (BTreeSet.ofList (answer.uids.flatMap
        (s.replacements s.newest (BTreeSet.ofList s.forked)))).toList := by
    rw [supersede, if_pos listed]
    exact apply_ite Prod.fst _ _ _
  rw [unfolded]
  by_cases none' : ∀ u, ¬ s.Succeeded u
  · exact Or.inl ⟨none', if_pos ((nothing_replaced_iff ends).mpr none')⟩
  · refine Or.inr ⟨not_forall_not.mp none', if_neg ?_⟩
    exact fun empty => none' ((nothing_replaced_iff ends).mp empty)

/-- A unit that nothing supersedes stays. -/
theorem replacements_current {v : Uid} (current : ¬ s.Succeeded v) :
    s.replacements s.newest (BTreeSet.ofList s.forked) v = [v] := by
  rw [superseded_iff ends] at current
  obtain ⟨headless, unforked⟩ := not_or.mp current
  rw [replacements]
  cases found : s.newest.get v with
  | some h => exact absurd ⟨h, found⟩ headless
  | none =>
    dsimp only
    rw [if_neg]
    exact fun held => unforked ((BTreeSet.mem_ofList _ _).mp held)

omit ends in
/-- What the pass leaves, where something is superseded. -/
theorem mem_replaced {results : List Uid} (m : Uid) :
    m ∈ (BTreeSet.ofList (results.flatMap
        (s.replacements s.newest (BTreeSet.ofList s.forked)))).toList ↔
      ∃ v ∈ results, m ∈ s.replacements s.newest (BTreeSet.ofList s.forked) v := by
  rw [BTreeSet.mem_toList, BTreeSet.mem_ofList, List.mem_flatMap]

/-- Running the pass on current units leaves them as they are. -/
theorem supersede_idle {results : BTreeSet Uid} (current : ∀ u ∈ results, ¬ s.Succeeded u)
    {P : Type} : (s.supersede (.scope results.toList : Answer P) []).1 = .scope results.toList := by
  rcases supersede_cases ends (rfl : (Answer.scope results.toList : Answer P).isList = true) with
    ⟨_, same⟩ | ⟨_, same⟩
  · exact same
  · rw [same]
    have still : results.toList.flatMap
        (s.replacements s.newest (BTreeSet.ofList s.forked)) = results.toList := by
      rw [List.flatMap_congr (g := fun v => [v])
        (fun v mem => replacements_current ends (current v ((BTreeSet.mem_toList _ _).mp mem)))]
      exact List.flatMap_singleton' _
    change Answer.scope (BTreeSet.ofList (results.toList.flatMap _)).toList = _
    rw [still, BTreeSet.ofList_toList]

/-- What the pass leaves is current where no result leads to a fork and no fork to what is
superseded. -/
theorem replacements_all_current_iff (results : List Uid) :
    (∀ v ∈ results, ∀ m ∈ s.replacements s.newest (BTreeSet.ofList s.forked) v,
        ¬ s.Succeeded m) ↔
      (∀ u ∈ results, ∀ h, s.newest.get u = some h → h ∉ s.forked) ∧
        ∀ u ∈ results, u ∈ s.forked → ∀ x, s.Succeeds x u → ¬ s.Succeeded x := by
  constructor
  · intro current
    constructor
    · intro u mem h found forks
      exact current u mem h ((mem_replacements ends u h).mpr (Or.inr (Or.inl found)))
        (superseded_of_forked forks)
    · intro u mem forks x above
      exact current u mem x ((mem_replacements ends u x).mpr (Or.inr (Or.inr ⟨forks, above⟩)))
  · rintro ⟨chains, forks⟩ v mem m stands
    rcases (mem_replacements ends v m).mp stands with ⟨same, current⟩ | found | ⟨forked, above⟩
    · rw [← same]
      exact current
    · rw [superseded_iff ends, newest_ends ends v m found]
      rintro (⟨h, none'⟩ | forked)
      · cases none'
      · exact chains v mem m found forked
    · exact forks v mem forked m above

/-- The pass leaves current units, all of them and each once, if and only if nothing branches
in a way it does not follow. -/
theorem supersede_settles_from {P : Type} {answer : Answer P} (listed : answer.isList = true) :
    s.SupersedeSettles answer ↔ s.Unbranched answer.uids := by
  rcases supersede_cases ends listed with ⟨none', same⟩ | ⟨some_, same⟩
  · have unchained : ∀ u h, s.newest.get u ≠ some h :=
      fun u h found => none' u (superseded_of_newest ends found)
    constructor
    · intro settles
      have distinct := settles.distinct
      rw [same] at distinct
      exact ⟨fun u _ h found => absurd found (unchained u h),
        fun u _ forks => absurd (superseded_of_forked forks) (none' u),
        fun u _ h found => absurd found (unchained u h), fun _ => distinct⟩
    · intro unbranched
      constructor
      · exact fun u _ => none' u
      · exact fun u _ above => absurd above (none' u)
      · rw [same]
        exact unbranched.distinct none'
      · rw [same, same]
  · have mem_out : ∀ m, m ∈ (s.supersede answer []).1.uids ↔ ∃ v ∈ answer.uids,
        m ∈ s.replacements s.newest (BTreeSet.ofList s.forked) v := by
      intro m
      rw [same]
      exact mem_replaced m
    have current_iff : (∀ u ∈ (s.supersede answer []).1.uids, ¬ s.Succeeded u) ↔
        ∀ v ∈ answer.uids, ∀ m ∈ s.replacements s.newest (BTreeSet.ofList s.forked) v,
          ¬ s.Succeeded m := by
      constructor
      · intro current v mem m stands
        exact current m ((mem_out m).mpr ⟨v, mem, stands⟩)
      · intro current m mem
        obtain ⟨v, mem, stands⟩ := (mem_out m).mp mem
        exact current v mem m stands
    rw [replacements_all_current_iff ends] at current_iff
    constructor
    · intro settles
      obtain ⟨chains, forks⟩ := current_iff.mp settles.current
      refine ⟨chains, forks, ?_, fun none' => absurd some_ (not_exists.mpr none')⟩
      intro u mem h found m above current present other
      have brought := settles.complete u mem (superseded_of_newest ends found) m above current
        present
      obtain ⟨v, mem', stands⟩ := (mem_out m).mp brought
      refine ⟨v, mem', ?_, ?_⟩
      · intro here
        rw [here] at stands
        rcases (mem_replacements ends u m).mp stands with ⟨_, now⟩ | found' | ⟨forked, _⟩
        · exact now (superseded_of_newest ends found)
        · rw [found] at found'
          exact other (Option.some.inj found').symm
        · rw [newest_of_forked ends forked] at found
          cases found
      · rcases (mem_replacements ends v m).mp stands with ⟨here, _⟩ | either
        · exact Or.inl here
        · exact Or.inr either
    · intro unbranched
      have current := current_iff.mpr ⟨unbranched.chains, unbranched.forks⟩
      refine ⟨current, ?_, ?_, ?_⟩
      · intro u mem above m reached top present
        rw [mem_out]
        rcases (superseded_iff ends u).mp above with ⟨h, found⟩ | forked
        · by_cases head : m = h
          · exact ⟨u, mem, (mem_replacements ends u m).mpr (Or.inr (Or.inl (head ▸ found)))⟩
          · obtain ⟨v, mem', _, leads⟩ :=
              unbranched.aside u mem h found m reached top present head
            refine ⟨v, mem', (mem_replacements ends v m).mpr ?_⟩
            rcases leads with here | either
            · exact Or.inl ⟨here, by rw [here]; exact top⟩
            · exact Or.inr either
        · -- the first step up from a fork is to a unit that nothing supersedes
          refine ⟨u, mem, (mem_replacements ends u m).mpr (Or.inr (Or.inr ⟨forked, ?_⟩))⟩
          obtain ⟨x, first, rest⟩ := TransGen.head'_iff.mp reached
          rcases ReflTransGen.cases_head rest with here | ⟨y, next, _⟩
          · rw [← here]
            exact first
          · exact absurd ⟨y, next⟩ (unbranched.forks u mem forked x first)
      · rw [same]
        exact BTreeSet.toList_nodup _
      · rw [same] at current ⊢
        apply supersede_idle ends
        intro u mem
        exact current u ((BTreeSet.mem_toList _ _).mpr mem)

omit ends in
theorem supersede_settles_iff {P : Type} (acyclic : ∀ u, ¬ TransGen s.Succeeds u u)
    {answer : Answer P} (listed : answer.isList = true) :
    s.SupersedeSettles answer ↔ s.Unbranched answer.uids :=
  supersede_settles_from (chains_end acyclic) listed

end
end StoreRead

section
local instance plainSupersedeText : Unicode := .plain
local instance modPrimeSupersedeHash : Blake3 := .modPrime

def successive : List UnitCore :=
  [resting "a" present_a [], resting "b" present_b [], resting "m" present_m [],
    resting "n" present_n []]

/-- Four claims, some of which replace others. -/
def succession (edges : List (Nat × Nat)) : Store :=
  let uids := successive.map canonicalUid
  Store.fromRecords (successive.map .unit ++ edges.map (fun e =>
    .relation (Relation.new .supersedes (uids.getD e.1 ⟨Blake3.hash []⟩)
      (uids.getD e.2 ⟨Blake3.hash []⟩))))

theorem succession_acyclic {edges : List (Nat × Nat)}
    (later : ∀ r ∈ (succession edges).read.relationsOfKind .supersedes,
      depth successive r.dst < depth successive r.src) (u : Uid) :
    ¬ TransGen (succession edges).read.Succeeds u u := by
  apply no_circle (depth successive)
  rintro a b ⟨r, mem, src, dst⟩
  rw [← src, ← dst]
  exact later r mem

theorem replaced_once_settles :
    (succession [(1, 0)]).read.SupersedeSettles
        (.scope [canonicalUid (resting "a" (by decide) [])] : Answer Unit) ↔
      (succession [(1, 0)]).read.Unbranched [canonicalUid (resting "a" (by decide) [])] :=
  StoreRead.supersede_settles_iff (succession_acyclic (by decide +kernel)) rfl

/-- A claim was replaced, and its replacement by two others: the pass answers with the first
replacement. -/
theorem chain_into_fork_unsettled :
    ¬ ∀ (s : StoreRead) (answer : Answer Unit), (∀ u, ¬ TransGen s.Succeeds u u) →
      answer.isList = true → s.SupersedeSettles answer := by
  intro all
  have settles := all (succession [(1, 0), (2, 1), (3, 1)]).read
    (.scope [canonicalUid (resting "a" (by decide) [])])
    (succession_acyclic (by decide +kernel)) rfl
  apply settles.current (canonicalUid (resting "b" (by decide) [])) (by decide +kernel)
  refine ⟨canonicalUid (resting "m" (by decide) []), ?_⟩
  rw [← StoreRead.mem_direct_successors]
  decide +kernel

end
end Smysl
