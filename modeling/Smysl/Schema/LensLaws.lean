import Smysl.Schema.Lens

/-!
The laws of lens chains. An op read back gives the view it was applied to exactly when that view
holds nothing the op would have made; what holds of every op on a path holds of the path; and
chains compose as what they do to a view does.
-/
namespace BTreeMap
variable {K V : Type} [LinearOrder K]

theorem get_remove (m : BTreeMap K V) (k j : K) :
    (m.remove k).get j = if j = k then none else m.get j := by
  refine Option.ext fun v => ?_
  have kept : (m.remove k).get j = some v ↔ m.get j = some v ∧ j ≠ k := by
    rw [← mem_entries_iff, ← mem_entries_iff, remove, filter, List.mem_filter, bne_iff_ne]
  rw [kept]
  split
  · rename_i same
    exact ⟨fun held => absurd same held.2, fun none' => by cases none'⟩
  · rename_i other
    exact and_iff_left other

theorem get_removes (ks : List K) (m : BTreeMap K V) (j : K) :
    (ks.foldl remove m).get j = if j ∈ ks then none else m.get j := by
  induction ks generalizing m with
  | nil => rfl
  | cons k ks ih =>
    rw [List.foldl_cons, ih, get_remove]
    by_cases later : j ∈ ks
    · rw [if_pos later, if_pos (List.mem_cons_of_mem k later)]
    · rw [if_neg later]
      exact if_congr (by rw [List.mem_cons, or_iff_left later]) rfl rfl

theorem get_insertAll (m add : BTreeMap K V) (k : K) :
    (m.insertAll add.entries).get k = (add.get k).or (m.get k) := by
  have general : ∀ (es : List (K × V)) (m : BTreeMap K V), (es.map Prod.fst).Nodup →
      (m.insertAll es).get k = (OrdMap.lookup k es).or (m.get k) := by
    intro es
    induction es with
    | nil => exact fun _ _ => rfl
    | cons e es ih =>
      intro m distinct
      obtain ⟨fresh, rest⟩ := List.nodup_cons.mp distinct
      rw [insertAll, List.foldl_cons, ← insertAll, ih _ rest, get_insert, OrdMap.lookup]
      by_cases here : e.1 = k
      · have absent : OrdMap.lookup k es = none := by
          rw [OrdMap.lookup_none_iff, ← here]
          exact fresh
        rw [absent, if_pos here.symm, if_pos here]
        rfl
      · rw [if_neg (Ne.symm here), if_neg here]
  exact general add.entries m add.keys_nodup

theorem contains_false_iff {m : BTreeMap K V} {k : K} : m.contains k = false ↔ m.get k = none := by
  rw [contains, Option.isSome_eq_false_iff, Option.isNone_iff_eq_none]

end BTreeMap

namespace Smysl

theorem HValue.same_str {v : HValue} {s : String} : v.same (.str s) = true ↔ v = .str s := by
  cases v <;> simp [HValue.same]

theorem held_str {payload : BTreeMap String HValue} {key s : String} :
    heldSame payload key (.str s) = true ↔ payload.get key = some (.str s) := by
  rw [heldSame, Option.any_eq_true]
  constructor
  · rintro ⟨v, found, same⟩
    rw [found, HValue.same_str.mp same]
  · exact fun found => ⟨_, found, HValue.same_str.mpr rfl⟩

/-- A condition on another key is untouched. -/
theorem holds_congr {when_ : Option Cond} {p q : BTreeMap String HValue}
    (same : ∀ c ∈ when_, p.get c.key = q.get c.key) : holdsWhen when_ p = holdsWhen when_ q := by
  cases when_ with
  | none => rfl
  | some c =>
    rw [holdsWhen, holdsWhen, Option.all_some, Option.all_some, Cond.holds, Cond.holds, heldSame,
      heldSame, same c rfl]

/-- A condition that holds is on a key that is held. -/
theorem holds_held {when_ : Option Cond} {p : BTreeMap String HValue}
    (holds : holdsWhen when_ p = true) : ∀ c ∈ when_, p.get c.key ≠ none := by
  rintro c ⟨⟩ none'
  rw [holdsWhen, Option.all_some, Cond.holds, heldSame, none'] at holds
  cases holds

namespace HeldOp

/-! Taking an op back. -/

/-- Whether a `split-value` is taken back in a payload. -/
def splitTaken (payload : BTreeMap String HValue) (key dst : String)
    (add : BTreeMap String HValue) : Prop :=
  payload.get key = some (.str dst) ∧ ∀ k x, add.get k = some x → heldSame payload k x = true

/-- When an op taken back gives the view it was applied to: the view holds nothing that the op
would have made. -/
def Undone : HeldOp → UnitView → Prop
  | known (.renameType src dst), v => v.ty = dst → src = dst
  | known (.renameKey src dst), v => v.payload.get dst ≠ none → src = dst
  | known (.mapValue key map), v => ∀ s, v.payload.get key = some (.str s) →
    (∀ n, map.get s = some n → map.entries.find? (fun e => e.2 == n) = some (s, n)) ∧
      (map.get s = none → ∀ e ∈ map.entries, e.2 ≠ s)
  | known (.splitValue key src dst add), v =>
    (v.payload.get key = some (.str src) ∧ add.get key = none ∧
      ∀ k x, add.get k = some x → x.same x = true ∧ v.payload.get k = none) ∨
    (known (.splitValue key src dst add)).forward v = v ∧ ¬ splitTaken v.payload key dst add
  | known (.default key value when_), v =>
    holdsWhen when_ v.payload = true → if v.payload.get key = none then value.same value = true
      else heldSame v.payload key value = false
  | known (.retire key), v => v.payload.get key = none
  | known (.renameRelation _ _), _ | known (.require _ _), _ | unknown _ _, _ => True

theorem rename_type_undone (src dst : SchemaId) (v : UnitView) :
    (known (.renameType src dst)).backward ((known (.renameType src dst)).forward v) = v ↔
      (known (.renameType src dst)).Undone v := by
  rw [Undone, forward]
  by_cases moved : v.ty = src
  · rw [if_pos moved, backward, if_pos rfl, ← moved]
    exact ⟨fun _ here => here, fun _ => rfl⟩
  · rw [if_neg moved, backward]
    by_cases there : v.ty = dst
    · rw [if_pos there]
      constructor
      · intro same _
        rw [← there, ← same]
      · exact fun both => absurd (there.trans (both there).symm) moved
    · rw [if_neg there]
      exact ⟨fun _ here => absurd here there, fun _ => rfl⟩

theorem rename_key_undone (src dst : String) (v : UnitView) :
    (known (.renameKey src dst)).backward ((known (.renameKey src dst)).forward v) = v ↔
      (known (.renameKey src dst)).Undone v := by
  rw [Undone, forward]
  cases found : v.payload.get src with
  | some x =>
    dsimp only
    rw [backward]
    dsimp only
    rw [BTreeMap.get_insert, if_pos rfl, UnitView.ext_iff]
    dsimp only
    rw [and_iff_right rfl]
    have read : ∀ k, (((v.payload.remove src).insert dst x |>.remove dst).insert src x).get k =
        if k = src then some x else if k = dst then none else v.payload.get k := by
      intro k
      rw [BTreeMap.get_insert, BTreeMap.get_remove, BTreeMap.get_insert, BTreeMap.get_remove]
      split
      · rfl
      · split <;> rfl
    constructor
    · intro same held
      by_contra other
      have at' := read dst
      rw [same, if_neg (Ne.symm other), if_pos rfl] at at'
      exact held at'
    · intro free
      refine BTreeMap.ext_get fun k => ?_
      rw [read]
      split
      · rename_i here
        rw [here, found]
      · rename_i away
        split
        · rename_i here
          by_contra other
          exact away (here.trans (free (here ▸ fun none' => other none'.symm)).symm)
        · rfl
  | none =>
    dsimp only
    rw [backward]
    cases held : v.payload.get dst with
    | none => exact ⟨fun _ none' => absurd rfl none', fun _ => rfl⟩
    | some x =>
      dsimp only
      constructor
      · intro same _
        have at' := congrArg (fun w => w.payload.get src) same
        dsimp only at at'
        rw [BTreeMap.get_insert, if_pos rfl, found] at at'
        cases at'
      · intro free
        rw [free (fun none' => by cases none'), held] at found
        cases found

/-- Putting back what a key held undoes putting something else there. -/
theorem insert_back (payload : BTreeMap String HValue) (key : String) (x y : HValue) :
    (payload.insert key x).insert key y = payload ↔ payload.get key = some y := by
  constructor
  · intro same
    rw [← same, BTreeMap.get_insert, if_pos rfl]
  · intro found
    refine BTreeMap.ext_get fun k => ?_
    rw [BTreeMap.get_insert, BTreeMap.get_insert]
    split
    · rename_i here
      rw [here, found]
    · rfl

theorem insert_same (payload : BTreeMap String HValue) (key : String) (y : HValue) :
    payload.insert key y = payload ↔ payload.get key = some y := by
  constructor
  · intro same
    rw [← same, BTreeMap.get_insert, if_pos rfl]
  · intro found
    refine BTreeMap.ext_get fun k => ?_
    rw [BTreeMap.get_insert]
    split
    · rename_i here
      rw [here, found]
    · rfl

theorem map_value_undone (key : String) (map : BTreeMap String String) (v : UnitView) :
    (known (.mapValue key map)).backward ((known (.mapValue key map)).forward v) = v ↔
      (known (.mapValue key map)).Undone v := by
  rw [Undone]
  by_cases text : ∃ s, v.payload.get key = some (.str s)
  · obtain ⟨s, found⟩ := text
    rw [found]
    simp only [Option.some.injEq, HValue.str.injEq, forall_eq']
    cases image : map.get s with
    | some n =>
      have stepped : (known (.mapValue key map)).forward v =
          { v with payload := v.payload.insert key (.str n) } := by
        simp only [forward, found, image]
      -- Something is mapped to `n`, so the value is always taken back to something.
      have some' : (map.entries.find? fun e => e.2 == n).isSome = true := by
        rw [List.find?_isSome]
        exact ⟨(s, n), (BTreeMap.mem_entries_iff _ _ _).mpr image, beq_self_eq_true n⟩
      obtain ⟨e, first⟩ := Option.isSome_iff_exists.mp some'
      have ends : e.2 = n := by simpa using List.find?_some first
      have back : (known (.mapValue key map)).backward ((known (.mapValue key map)).forward v) =
          { v with payload := (v.payload.insert key (.str n)).insert key (.str e.1) } := by
        simp only [stepped, backward, BTreeMap.get_insert, if_pos, first]
      rw [back, UnitView.ext_iff]
      dsimp only
      rw [and_iff_right rfl, insert_back, found]
      simp only [Option.some.injEq, HValue.str.injEq, forall_eq', reduceCtorEq, false_implies,
        and_true, first]
      exact ⟨fun same => Prod.ext same.symm ends, fun same => (congrArg Prod.fst same).symm⟩
    | none =>
      have stepped : (known (.mapValue key map)).forward v = v := by
        simp only [forward, found, image]
      rw [stepped]
      simp only [reduceCtorEq, false_implies, implies_true, true_and, forall_const]
      cases first : map.entries.find? fun e => e.2 == s with
      | none =>
        have back : (known (.mapValue key map)).backward v = v := by
          simp only [backward, found, first]
        rw [back]
        refine iff_of_true rfl fun e mem same => ?_
        exact List.find?_eq_none.mp first e mem (beq_iff_eq.mpr same)
      | some e =>
        have back : (known (.mapValue key map)).backward v =
            { v with payload := v.payload.insert key (.str e.1) } := by
          simp only [backward, found, first]
        have mem := List.mem_of_find?_eq_some first
        have ends : e.2 = s := by simpa using List.find?_some first
        rw [back, UnitView.ext_iff]
        dsimp only
        rw [and_iff_right rfl, insert_same, found]
        refine iff_of_false (fun same => ?_) fun apart => apart e mem ends
        have entry := (BTreeMap.mem_entries_iff _ _ _).mp mem
        cases same
        rw [image] at entry
        cases entry
  · have stepped : (known (.mapValue key map)).forward v = v := by
      rw [forward]
      split
      · rename_i s found
        exact absurd ⟨s, found⟩ text
      · rfl
    have back : (known (.mapValue key map)).backward v = v := by
      rw [backward]
      split
      · rename_i s found
        exact absurd ⟨s, found⟩ text
      · rfl
    rw [stepped, back]
    exact iff_of_true rfl fun s found => absurd ⟨s, found⟩ text

theorem default_undone (key : String) (value : HValue) (when_ : Option Cond) (v : UnitView) :
    (known (.default key value when_)).backward ((known (.default key value when_)).forward v) = v ↔
      (known (.default key value when_)).Undone v := by
  rw [Undone, forward]
  cases found : v.payload.get key with
  | none =>
    have lacks : v.payload.contains key = false := BTreeMap.contains_false_iff.mpr found
    rw [lacks, Bool.not_false, Bool.true_and]
    by_cases holds : holdsWhen when_ v.payload = true
    · have still : holdsWhen when_ (v.payload.insert key value) = true := by
        rw [← holds]
        refine holds_congr fun c here => ?_
        rw [BTreeMap.get_insert, if_neg]
        intro same
        exact holds_held holds c here (same ▸ found)
      rw [if_pos holds, backward]
      dsimp only
      rw [still, Bool.and_true, heldSame, BTreeMap.get_insert, if_pos rfl, Option.any_some]
      simp only [holds, forall_const, if_true]
      by_cases self : value.same value = true
      · rw [if_pos self]
        refine iff_of_true (UnitView.ext rfl (BTreeMap.ext_get fun k => ?_)) self
        dsimp only
        rw [BTreeMap.get_remove, BTreeMap.get_insert]
        split
        · rename_i here
          rw [here, found]
        · rfl
      · rw [if_neg self]
        refine iff_of_false (fun same => ?_) self
        have at' := congrArg (fun w => w.payload.get key) same
        dsimp only at at'
        rw [BTreeMap.get_insert, if_pos rfl, found] at at'
        cases at'
    · have unheld : heldSame v.payload key value = false := by
        rw [heldSame, found]
        rfl
      rw [if_neg holds, backward, unheld, Bool.false_and, if_neg Bool.false_ne_true]
      exact iff_of_true rfl fun held => absurd held holds
  | some x =>
    have has : v.payload.contains key = true :=
      (BTreeMap.contains_iff _ _).mpr ⟨x, found⟩
    rw [has, Bool.not_true, Bool.false_and, if_neg Bool.false_ne_true, backward]
    simp only [reduceCtorEq, if_false]
    by_cases taken : (heldSame v.payload key value && holdsWhen when_ v.payload) = true
    · rw [if_pos taken]
      rw [Bool.and_eq_true] at taken
      refine iff_of_false (fun same => ?_) fun free => ?_
      · have at' := congrArg (fun w => w.payload.get key) same
        dsimp only at at'
        rw [BTreeMap.get_remove, if_pos rfl, found] at at'
        cases at'
      · exact Bool.false_ne_true ((free taken.2).symm.trans taken.1)
    · rw [if_neg taken]
      refine iff_of_true rfl fun holds => ?_
      rw [holds, Bool.and_true] at taken
      exact Bool.not_eq_true _ ▸ taken

theorem retire_undone (key : String) (v : UnitView) :
    (known (.retire key)).backward ((known (.retire key)).forward v) = v ↔
      (known (.retire key)).Undone v := by
  rw [Undone, forward, backward, UnitView.ext_iff]
  dsimp only
  rw [and_iff_right rfl]
  constructor
  · intro same
    rw [← same, BTreeMap.get_remove, if_pos rfl]
  · intro none'
    refine BTreeMap.ext_get fun k => ?_
    rw [BTreeMap.get_remove]
    split
    · rename_i here
      rw [here, none']
    · rfl

section
variable {key src dst : String} {add : BTreeMap String HValue} {v : UnitView}

theorem split_forward_hit (hit : v.payload.get key = some (.str src)) :
    (known (.splitValue key src dst add)).forward v =
      { v with payload := (v.payload.insert key (.str dst)).insertAll add.entries } := by
  rw [forward, if_pos (held_str.mpr hit)]

theorem split_forward_miss (miss : v.payload.get key ≠ some (.str src)) :
    (known (.splitValue key src dst add)).forward v = v := by
  rw [forward, if_neg fun held => miss (held_str.mp held)]

theorem split_taken_iff (payload : BTreeMap String HValue) :
    (heldSame payload key (.str dst) && add.entries.all fun e => heldSame payload e.1 e.2) = true ↔
      splitTaken payload key dst add := by
  rw [Bool.and_eq_true, held_str, List.all_eq_true, splitTaken]
  refine and_congr_right fun _ => ⟨fun all k x held => ?_, fun all e mem => ?_⟩
  · exact all (k, x) ((BTreeMap.mem_entries_iff _ _ _).mpr held)
  · exact all e.1 e.2 ((BTreeMap.mem_entries_iff _ _ _).mp mem)

theorem split_backward_hit (taken : splitTaken v.payload key dst add) :
    (known (.splitValue key src dst add)).backward v =
      { v with payload := add.keys.foldl BTreeMap.remove (v.payload.insert key (.str src)) } := by
  rw [backward, if_pos ((split_taken_iff _).mpr taken)]

theorem split_backward_miss (left : ¬ splitTaken v.payload key dst add) :
    (known (.splitValue key src dst add)).backward v = v := by
  rw [backward, if_neg fun taken => left ((split_taken_iff _).mp taken)]

theorem keys_get {k : String} : k ∈ add.keys ↔ add.get k ≠ none := by
  rw [BTreeMap.mem_keys_iff, BTreeMap.contains, Option.isSome_iff_ne_none]

/-- What a payload holds once a `split-value` is taken back. -/
theorem get_split_back (payload : BTreeMap String HValue) (k : String) :
    (add.keys.foldl BTreeMap.remove (payload.insert key (.str src))).get k =
      if add.get k ≠ none then none else if k = key then some (.str src) else payload.get k := by
  rw [BTreeMap.get_removes, BTreeMap.get_insert]
  exact if_congr keys_get rfl rfl

/-- What a payload holds once its value is split. -/
theorem get_split (payload : BTreeMap String HValue) (k : String) :
    ((payload.insert key (.str dst)).insertAll add.entries).get k =
      (add.get k).or (if k = key then some (.str dst) else payload.get k) := by
  rw [BTreeMap.get_insertAll, BTreeMap.get_insert]

theorem split_value_undone (key src dst : String) (add : BTreeMap String HValue) (v : UnitView) :
    (known (.splitValue key src dst add)).backward
        ((known (.splitValue key src dst add)).forward v) = v ↔
      (known (.splitValue key src dst add)).Undone v := by
  rw [Undone]
  by_cases hit : v.payload.get key = some (.str src)
  · rw [split_forward_hit hit]
    by_cases taken : splitTaken ((v.payload.insert key (.str dst)).insertAll add.entries)
        key dst add
    · rw [split_backward_hit taken, UnitView.ext_iff, UnitView.ext_iff]
      dsimp only
      rw [and_iff_right rfl, and_iff_right rfl]
      constructor
      · intro same
        have read : ∀ k, v.payload.get k = if add.get k ≠ none then none
            else if k = key then some (.str src)
            else ((v.payload.insert key (.str dst)).insertAll add.entries).get k := by
          intro k
          rw [← get_split_back, same]
        have apart : add.get key = none := by
          by_contra inside
          have at' := read key
          rw [if_pos inside, hit] at at'
          cases at'
        refine .inl ⟨hit, apart, fun k x held => ⟨?_, ?_⟩⟩
        · have self := taken.2 k x held
          rw [heldSame, get_split, held] at self
          exact self
        · rw [read, if_pos]
          rw [held]
          exact Option.some_ne_none x
      · rintro (⟨_, apart, fresh⟩ | ⟨same, left⟩)
        · refine BTreeMap.ext_get fun k => ?_
          rw [get_split_back, get_split]
          cases held : add.get k with
          | some x =>
            rw [if_pos (Option.some_ne_none x), (fresh k x held).2]
          | none =>
            rw [if_neg (not_not_intro rfl)]
            split
            · rename_i here
              rw [here, hit]
            · rfl
        · exact absurd (same ▸ taken) left
    · rw [split_backward_miss taken]
      constructor
      · intro same
        refine .inr ⟨same, fun here => taken ?_⟩
        have payload := congrArg UnitView.payload same
        dsimp only at payload
        rw [payload]
        exact here
      · rintro (⟨_, apart, fresh⟩ | ⟨same, _⟩)
        · refine absurd ⟨?_, fun k x held => ?_⟩ taken
          · rw [get_split, apart, if_pos rfl]
            rfl
          · rw [heldSame, get_split, held]
            exact (fresh k x held).1
        · exact same
  · rw [split_forward_miss hit]
    by_cases taken : splitTaken v.payload key dst add
    · rw [split_backward_hit taken]
      refine iff_of_false (fun same => ?_) ?_
      · have at' := @get_split_back key src add v.payload key
        have payload := congrArg UnitView.payload same
        dsimp only at payload
        rw [payload, taken.1, if_pos rfl] at at'
        split at at'
        · cases at'
        · exact hit (taken.1.trans at')
      · rintro (⟨here, _⟩ | ⟨_, left⟩)
        · exact hit here
        · exact left taken
    · rw [split_backward_miss taken]
      exact iff_of_true rfl (.inr ⟨rfl, taken⟩)

end

/-- An op taken back gives the view it was applied to exactly when the view held nothing that
the op would have made. -/
theorem undone_iff (op : HeldOp) (v : UnitView) : op.backward (op.forward v) = v ↔ op.Undone v := by
  match op with
  | known (.renameType src dst) => exact rename_type_undone src dst v
  | known (.renameRelation src dst) => exact iff_of_true rfl trivial
  | known (.renameKey src dst) => exact rename_key_undone src dst v
  | known (.mapValue key map) => exact map_value_undone key map v
  | known (.splitValue key src dst add) => exact split_value_undone key src dst add v
  | known (.require key when_) => exact iff_of_true rfl trivial
  | known (.default key value when_) => exact default_undone key value when_ v
  | known (.retire key) => exact retire_undone key v
  | unknown tag bytes => exact iff_of_true rfl trivial

/-! Applying an op again. -/

/-- When an op applied again gives the view it was taken back from. -/
def Redone : HeldOp → UnitView → Prop
  | known (.renameType src dst), v => v.ty = src → src = dst
  | known (.renameKey src dst), v => v.payload.get src ≠ none → src = dst
  | known (.mapValue key map), v => ∀ s, v.payload.get key = some (.str s) →
    (∃ e ∈ map.entries, e.2 = s) ∨ map.get s = none
  | known (.splitValue key src dst add), v =>
    (splitTaken v.payload key dst add ∧ add.get key = none ∧
      ∀ k x, add.get k = some x → v.payload.get k = some x) ∨
    ¬ splitTaken v.payload key dst add ∧ (known (.splitValue key src dst add)).forward v = v
  | known (.default key value when_), v =>
    if heldSame v.payload key value = true ∧ holdsWhen when_ v.payload = true then
      (∀ c ∈ when_, c.key ≠ key) ∧ v.payload.get key = some value
    else holdsWhen when_ v.payload = true → v.payload.get key ≠ none
  | known (.retire key), v => v.payload.get key = none
  | known (.renameRelation _ _), _ | known (.require _ _), _ | unknown _ _, _ => True

/-- A name moved back and forth is one moved forth and back. -/
theorem rename_type_swap (src dst : SchemaId) (v : UnitView) :
    (known (.renameType src dst)).forward v = (known (.renameType dst src)).backward v ∧
      (known (.renameType src dst)).backward v = (known (.renameType dst src)).forward v :=
  ⟨rfl, rfl⟩

theorem rename_key_swap (src dst : String) (v : UnitView) :
    (known (.renameKey src dst)).forward v = (known (.renameKey dst src)).backward v ∧
      (known (.renameKey src dst)).backward v = (known (.renameKey dst src)).forward v :=
  ⟨rfl, rfl⟩

theorem map_value_redone (key : String) (map : BTreeMap String String) (v : UnitView) :
    (known (.mapValue key map)).forward ((known (.mapValue key map)).backward v) = v ↔
      (known (.mapValue key map)).Redone v := by
  rw [Redone]
  by_cases text : ∃ s, v.payload.get key = some (.str s)
  · obtain ⟨s, found⟩ := text
    rw [found]
    simp only [Option.some.injEq, HValue.str.injEq, forall_eq']
    cases first : map.entries.find? fun e => e.2 == s with
    | some e =>
      have ends : e.2 = s := by simpa using List.find?_some first
      have mem := List.mem_of_find?_eq_some first
      have entry : map.get e.1 = some s := ends ▸ (BTreeMap.mem_entries_iff _ _ _).mp mem
      have again : (known (.mapValue key map)).forward ((known (.mapValue key map)).backward v) =
          { v with payload := (v.payload.insert key (.str e.1)).insert key (.str s) } := by
        simp only [backward, found, first, forward, BTreeMap.get_insert, if_pos, entry]
      rw [again, UnitView.ext_iff]
      dsimp only
      rw [and_iff_right rfl, insert_back]
      exact iff_of_true found (.inl ⟨e, mem, ends⟩)
    | none =>
      have back : (known (.mapValue key map)).backward v = v := by
        simp only [backward, found, first]
      have apart : ¬ ∃ e ∈ map.entries, e.2 = s := by
        rintro ⟨e, mem, ends⟩
        exact List.find?_eq_none.mp first e mem (beq_iff_eq.mpr ends)
      rw [back, or_iff_right apart]
      cases image : map.get s with
      | none =>
        have again : (known (.mapValue key map)).forward v = v := by
          simp only [forward, found, image]
        exact iff_of_true again rfl
      | some n =>
        have again : (known (.mapValue key map)).forward v =
            { v with payload := v.payload.insert key (.str n) } := by
          simp only [forward, found, image]
        rw [again, UnitView.ext_iff]
        dsimp only
        rw [and_iff_right rfl, insert_same, found]
        refine iff_of_false (fun same => apart ⟨(s, n), ?_, ?_⟩) (Option.some_ne_none n)
        · exact (BTreeMap.mem_entries_iff _ _ _).mpr image
        · cases same
          rfl
  · have back : (known (.mapValue key map)).backward v = v := by
      rw [backward]
      split
      · rename_i s found
        exact absurd ⟨s, found⟩ text
      · rfl
    have again : (known (.mapValue key map)).forward v = v := by
      rw [forward]
      split
      · rename_i s found
        exact absurd ⟨s, found⟩ text
      · rfl
    rw [back, again]
    exact iff_of_true rfl fun s found => absurd ⟨s, found⟩ text

theorem split_value_redone (key src dst : String) (add : BTreeMap String HValue) (v : UnitView) :
    (known (.splitValue key src dst add)).forward
        ((known (.splitValue key src dst add)).backward v) = v ↔
      (known (.splitValue key src dst add)).Redone v := by
  rw [Redone]
  by_cases taken : splitTaken v.payload key dst add
  · rw [and_iff_right taken, split_backward_hit taken]
    by_cases apart : add.get key = none
    · rw [split_forward_hit (by rw [get_split_back, if_neg (not_not_intro apart), if_pos rfl]),
        UnitView.ext_iff]
      dsimp only
      rw [and_iff_right rfl, and_iff_right apart]
      constructor
      · intro same
        refine .inl fun k x held => ?_
        rw [← same, get_split, held]
        rfl
      · rintro (held | ⟨left, _⟩)
        · refine BTreeMap.ext_get fun k => ?_
          rw [get_split, get_split_back]
          cases added : add.get k with
          | some x =>
            rw [held k x added]
            rfl
          | none =>
            rw [if_neg (not_not_intro rfl), Option.none_or]
            split
            · rename_i here
              rw [here, taken.1]
            · rfl
        · exact absurd taken left
    · have gone : (add.keys.foldl BTreeMap.remove (v.payload.insert key (.str src))).get key =
          none := by
        rw [get_split_back, if_pos apart]
      rw [split_forward_miss (by rw [gone]; exact nofun), UnitView.ext_iff]
      dsimp only
      rw [and_iff_right rfl]
      refine iff_of_false (fun same => ?_) ?_
      · rw [same, taken.1] at gone
        cases gone
      · rintro (⟨held, _⟩ | ⟨left, _⟩)
        · exact apart held
        · exact left taken
  · rw [split_backward_miss taken, and_iff_right taken]
    exact (or_iff_right fun held => taken held.1).symm

theorem default_redone (key : String) (value : HValue) (when_ : Option Cond) (v : UnitView) :
    (known (.default key value when_)).forward ((known (.default key value when_)).backward v) = v ↔
      (known (.default key value when_)).Redone v := by
  rw [Redone, backward]
  by_cases taken : heldSame v.payload key value = true ∧ holdsWhen when_ v.payload = true
  · rw [if_pos taken, if_pos (Bool.and_eq_true _ _ ▸ taken), forward]
    dsimp only
    have lacks : (v.payload.remove key).contains key = false :=
      BTreeMap.contains_false_iff.mpr (by rw [BTreeMap.get_remove, if_pos rfl])
    rw [lacks, Bool.not_false, Bool.true_and]
    by_cases apart : ∀ c ∈ when_, c.key ≠ key
    · have still : holdsWhen when_ (v.payload.remove key) = true := by
        rw [← taken.2]
        refine holds_congr fun c here => ?_
        rw [BTreeMap.get_remove, if_neg (apart c here)]
      rw [if_pos still, and_iff_right apart, UnitView.ext_iff]
      dsimp only
      rw [and_iff_right rfl]
      constructor
      · intro same
        rw [← same, BTreeMap.get_insert, if_pos rfl]
      · intro found
        refine BTreeMap.ext_get fun k => ?_
        rw [BTreeMap.get_insert, BTreeMap.get_remove]
        split
        · rename_i here
          rw [here, found]
        · rfl
    · have off : ¬ holdsWhen when_ (v.payload.remove key) = true := by
        intro still
        refine apart fun c here same => holds_held still c here ?_
        rw [BTreeMap.get_remove, if_pos same]
      rw [if_neg off]
      refine iff_of_false (fun same => ?_) fun both => apart both.1
      have at' := congrArg (fun w => w.payload.get key) same
      dsimp only at at'
      rw [BTreeMap.get_remove, if_pos rfl] at at'
      rw [heldSame, ← at'] at taken
      cases taken.1
  · rw [if_neg taken, if_neg (Bool.and_eq_true _ _ ▸ taken), forward]
    cases found : v.payload.get key with
    | some x =>
      have has : v.payload.contains key = true := (BTreeMap.contains_iff _ _).mpr ⟨x, found⟩
      rw [has, Bool.not_true, Bool.false_and, if_neg Bool.false_ne_true]
      exact iff_of_true rfl fun _ => Option.some_ne_none x
    | none =>
      rw [BTreeMap.contains_false_iff.mpr found, Bool.not_false, Bool.true_and]
      by_cases holds : holdsWhen when_ v.payload = true
      · rw [if_pos holds]
        refine iff_of_false (fun same => ?_) fun held => held holds rfl
        have at' := congrArg (fun w => w.payload.get key) same
        dsimp only at at'
        rw [BTreeMap.get_insert, if_pos rfl, found] at at'
        cases at'
      · rw [if_neg holds]
        exact iff_of_true rfl fun held => absurd held holds

/-- An op applied again gives the view it was taken back from exactly when the view held what
the op makes, or nothing it works on. -/
theorem redone_iff (op : HeldOp) (v : UnitView) : op.forward (op.backward v) = v ↔ op.Redone v := by
  match op with
  | known (.renameType src dst) =>
    rw [(rename_type_swap src dst v).2, (rename_type_swap src dst _).1,
      rename_type_undone dst src v]
    exact ⟨fun free here => (free here).symm, fun free here => (free here).symm⟩
  | known (.renameRelation src dst) => exact iff_of_true rfl trivial
  | known (.renameKey src dst) =>
    rw [(rename_key_swap src dst v).2, (rename_key_swap src dst _).1, rename_key_undone dst src v]
    exact ⟨fun free here => (free here).symm, fun free here => (free here).symm⟩
  | known (.mapValue key map) => exact map_value_redone key map v
  | known (.splitValue key src dst add) => exact split_value_redone key src dst add v
  | known (.require key when_) => exact iff_of_true rfl trivial
  | known (.default key value when_) => exact default_redone key value when_ v
  | known (.retire key) => exact retire_undone key v
  | unknown tag bytes => exact iff_of_true rfl trivial

/-- Reading an op back after applying it, or applying it after reading it back, gives the view
one began with exactly where these conditions hold, for every op. -/
theorem op_round_trips_iff (op : HeldOp) (v : UnitView) :
    (op.backward (op.forward v) = v ↔ op.Undone v) ∧
      (op.forward (op.backward v) = v ↔ op.Redone v) :=
  ⟨undone_iff op v, redone_iff op v⟩

/-! Paths of ops. -/

/-- Something holds of every step of a run, where the step is taken. -/
def Along {A S : Type} (f : A → S → S) (P : A → S → Prop) : List A → S → Prop
  | [], _ => True
  | a :: rest, s => P a s ∧ Along f P rest (f a s)

/-- A run whose steps are taken back one by one is taken back. -/
theorem run_back {A S : Type} {f g : A → S → S} {P : A → S → Prop}
    (back : ∀ a s, P a s → g a (f a s) = s) (as : List A) (s : S) (along : Along f P as s) :
    as.reverse.foldl (fun s a => g a s) (as.foldl (fun s a => f a s) s) = s := by
  rw [List.foldl_reverse]
  induction as generalizing s with
  | nil => rfl
  | cons a as ih =>
    rw [List.foldl_cons, List.foldr_cons, ih _ along.2]
    exact back a s along.1

theorem refusal_none_iff (id : SchemaId) (src dst : UInt32) (op : HeldOp) :
    op.refusal id src dst = none ↔ op.isInvertible = true := by
  match op with
  | known (.retire _) => exact iff_of_false (Option.some_ne_none _) Bool.false_ne_true
  | unknown _ _ => exact iff_of_false (Option.some_ne_none _) Bool.false_ne_true
  | known (.mapValue key map) =>
    change (if (known (.mapValue key map)).isInvertible then none else _) = none ↔ _
    by_cases inverse : (known (.mapValue key map)).isInvertible = true
    · rw [if_pos inverse]
      exact iff_of_true rfl inverse
    · rw [if_neg inverse]
      exact iff_of_false (Option.some_ne_none _) inverse
  | known (.renameType _ _) => exact iff_of_true rfl rfl
  | known (.renameRelation _ _) => exact iff_of_true rfl rfl
  | known (.renameKey _ _) => exact iff_of_true rfl rfl
  | known (.splitValue _ _ _ _) => exact iff_of_true rfl rfl
  | known (.require _ _) => exact iff_of_true rfl rfl
  | known (.default _ _ _) => exact iff_of_true rfl rfl

/-- An op with an inverse is known, and no `retire`. -/
theorem invertible_known {op : HeldOp} (inverse : op.isInvertible = true) :
    op.isUnknown = false ∧ op.isRetire = false := by
  match op with
  | known (.retire _) => cases inverse
  | unknown _ _ => cases inverse
  | known (.mapValue _ _) => exact ⟨rfl, rfl⟩
  | known (.renameType _ _) => exact ⟨rfl, rfl⟩
  | known (.renameRelation _ _) => exact ⟨rfl, rfl⟩
  | known (.renameKey _ _) => exact ⟨rfl, rfl⟩
  | known (.splitValue _ _ _ _) => exact ⟨rfl, rfl⟩
  | known (.require _ _) => exact ⟨rfl, rfl⟩
  | known (.default _ _ _) => exact ⟨rfl, rfl⟩

end HeldOp

namespace LensChain
section
variable [Unicode] [Blake3] {c d e : LensChain}

theorem forward_ops (c : LensChain) (v : UnitView) :
    c.steps.foldl (fun v s => s.ops.foldl (fun v op => op.forward v) v) v =
      c.ops.foldl (fun v op => op.forward v) v := by
  rw [ops, List.foldl_flatMap]

theorem backward_ops (c : LensChain) (v : UnitView) :
    c.steps.reverse.foldl (fun v s => s.ops.reverse.foldl (fun v op => op.backward v) v) v =
      c.ops.reverse.foldl (fun v op => op.backward v) v := by
  rw [ops, List.reverse_flatMap, List.foldl_flatMap]
  rfl

theorem invertible_iff (c : LensChain) :
    c.isInvertible = true ↔ ∀ op ∈ c.ops, op.isInvertible = true := by
  rw [isInvertible, List.all_eq_true, ops, List.forall_mem_flatMap]
  refine forall₂_congr fun s _ => ?_
  rw [Bool.and_eq_true, HeldStep.isInvertible, List.all_eq_true, HeldStep.isUsable,
    Bool.not_eq_true', List.any_eq_false]
  refine ⟨And.right, fun all => ⟨fun op mem => ?_, all⟩⟩
  rw [(HeldOp.invertible_known (all op mem)).1]
  exact Bool.false_ne_true

theorem usable_iff (c : LensChain) :
    c.isUsable = true ↔ ∀ op ∈ c.ops, op.isUnknown = false := by
  rw [isUsable, List.all_eq_true, ops, List.forall_mem_flatMap]
  refine forall₂_congr fun s _ => ?_
  rw [HeldStep.isUsable, Bool.not_eq_true', List.any_eq_false]
  exact forall₂_congr fun op _ => Bool.not_eq_true _ ▸ Iff.rfl

theorem usable_of_invertible (inverse : c.isInvertible = true) : c.isUsable = true :=
  c.usable_iff.mpr fun op mem => (HeldOp.invertible_known (c.invertible_iff.mp inverse op mem)).1

theorem refused_none_iff (c : LensChain) :
    (c.steps.findSome? fun s => s.ops.findSome? (HeldOp.refusal c.id s.src s.dst)) = none ↔
      c.isInvertible = true := by
  rw [invertible_iff, ops, List.findSome?_eq_none_iff, List.forall_mem_flatMap]
  refine forall₂_congr fun s _ => ?_
  rw [List.findSome?_eq_none_iff]
  exact forall₂_congr fun op _ => HeldOp.refusal_none_iff c.id s.src s.dst op

theorem forward_usable (usable : c.isUsable = true) (v : UnitView) :
    c.forward v = (c.ops.foldl (fun v op => op.forward v) v,
      unmappable (c.ops.foldl (fun v op => op.forward v) v) c.target c.dst false) := by
  rw [forward, if_pos usable, forward_ops]

theorem backward_invertible (inverse : c.isInvertible = true) (v : UnitView) :
    c.backward v = .ok (c.ops.reverse.foldl (fun v op => op.backward v) v,
      unmappable (c.ops.reverse.foldl (fun v op => op.backward v) v) c.sourceFields c.src
        true) := by
  rw [backward, c.refused_none_iff.mpr inverse, backward_ops]

/-- Reading a view forward and back again gives the view, where each op on the way does. -/
theorem backward_forward (inverse : c.isInvertible = true) {v : UnitView}
    (undone : HeldOp.Along HeldOp.forward HeldOp.Undone c.ops v) :
    c.backward (c.forward v).1 = .ok (v, unmappable v c.sourceFields c.src true) := by
  rw [forward_usable (usable_of_invertible inverse), backward_invertible inverse,
    HeldOp.run_back (fun op v => (HeldOp.undone_iff op v).mpr) c.ops v undone]

/-- Reading a view back and forward again gives the view, where each op on the way does. -/
theorem forward_backward {v w : UnitView} {m : UnitView.Mapped} (back : c.backward v = .ok (w, m))
    (redone : HeldOp.Along HeldOp.backward HeldOp.Redone c.ops.reverse v) :
    c.forward w = (v, unmappable v c.target c.dst false) := by
  have inverse : c.isInvertible = true := by
    rw [← refused_none_iff]
    rw [backward] at back
    split at back
    · cases back
    · assumption
  rw [backward_invertible inverse, Except.ok.injEq, Prod.mk.injEq] at back
  have again := HeldOp.run_back (fun op v => (HeldOp.redone_iff op v).mpr) c.ops.reverse v redone
  rw [List.reverse_reverse, back.1] at again
  rw [forward_usable (usable_of_invertible inverse), again]

/-! Refusals. -/

/-- A chain is refused backward at its first op without an inverse. -/
theorem backward_refused_iff (c : LensChain) (v : UnitView) (r : LensRefusal) :
    c.backward v = .error r ↔ ∃ before s after, c.steps = before ++ s :: after ∧
      (∀ t ∈ before, t.isUsable = true ∧ t.isInvertible = true) ∧
      ∃ done op rest, s.ops = done ++ op :: rest ∧ (∀ o ∈ done, o.isInvertible = true) ∧
        op.refusal c.id s.src s.dst = some r := by
  have found : c.backward v = .error r ↔
      (c.steps.findSome? fun s => s.ops.findSome? (HeldOp.refusal c.id s.src s.dst)) = some r := by
    rw [backward]
    cases c.steps.findSome? fun s => s.ops.findSome? (HeldOp.refusal c.id s.src s.dst) with
    | none => exact iff_of_false nofun nofun
    | some refused => rw [Except.error.injEq, Option.some.injEq]
  rw [found, List.findSome?_eq_some_iff]
  refine exists_congr fun before => exists_congr fun s => exists_congr fun after =>
    and_congr_right fun _ => ?_
  rw [and_comm, List.findSome?_eq_some_iff]
  refine and_congr (forall₂_congr fun t _ => ?_) (exists_congr fun done => exists_congr fun op =>
    exists_congr fun rest => and_congr_right fun _ => ?_)
  · rw [List.findSome?_eq_none_iff, HeldStep.isInvertible, List.all_eq_true, HeldStep.isUsable,
      Bool.not_eq_true', List.any_eq_false]
    constructor
    · intro all
      have each := fun op mem => (HeldOp.refusal_none_iff _ _ _ op).mp (all op mem)
      exact ⟨fun op mem => by
        rw [(HeldOp.invertible_known (each op mem)).1]; exact Bool.false_ne_true, each⟩
    · exact fun all op mem => (HeldOp.refusal_none_iff _ _ _ op).mpr (all.2 op mem)
  · rw [and_comm]
    exact and_congr_left fun _ => forall₂_congr fun o _ => HeldOp.refusal_none_iff _ _ _ o

/-! Composition. -/

theorem eq_of_parts (id : c.id = d.id) (src : c.src = d.src) (dst : c.dst = d.dst)
    (steps : c.steps = d.steps) (sources : c.sources = d.sources) (target : c.target = d.target) :
    c = d := by
  obtain ⟨id₁, src₁, dst₁, steps₁, sources₁, target₁, hash₁, joined₁, paired₁, hashed₁⟩ := c
  obtain ⟨id₂, src₂, dst₂, steps₂, sources₂, target₂, hash₂, joined₂, paired₂, hashed₂⟩ := d
  cases id
  cases src
  cases dst
  cases steps
  cases sources
  cases target
  cases hashed₁
  cases hashed₂
  rfl

/-- The table of two chains in a row. -/
def later (c d : LensChain) : Fields :=
  match d.steps, d.target with
  | [], .absent => c.target
  | _, _ => d.target

theorem later_steps {c d : LensChain} (some' : d.steps ≠ []) : later c d = d.target := by
  rw [later]
  split
  · rename_i none' _
    exact absurd none' some'
  · rfl

/-- What composing two chains makes, where it makes one. -/
structure Composed (c d e : LensChain) : Prop where
  id : c.id = d.id
  meets : c.dst = d.src
  sameId : e.id = c.id
  src : e.src = c.src
  dst : e.dst = d.dst
  steps : e.steps = c.steps ++ d.steps
  sources : e.sources = c.sources ++ d.sources
  target : e.target = later c d

theorem compose_iff : c.compose d = .ok e ↔ Composed c d e := by
  rw [compose]
  split
  · rename_i meets
    constructor
    · rintro ⟨⟩
      exact ⟨meets.1, meets.2, rfl, rfl, rfl, rfl, rfl, rfl⟩
    · intro made
      refine congrArg Except.ok (eq_of_parts made.sameId.symm made.src.symm made.dst.symm
        made.steps.symm made.sources.symm made.target.symm)
  · rename_i apart
    exact iff_of_false nofun fun made => apart ⟨made.id, made.meets⟩

theorem Composed.ops (made : Composed c d e) : e.ops = c.ops ++ d.ops := by
  rw [LensChain.ops, made.steps, List.flatMap_append]
  rfl

theorem composed_of (id : c.id = d.id) (meets : c.dst = d.src) : ∃ e, Composed c d e := by
  have made : ∃ e, c.compose d = .ok e := by
    rw [compose, dif_pos ⟨id, meets⟩]
    exact ⟨_, rfl⟩
  obtain ⟨e, made⟩ := made
  exact ⟨e, compose_iff.mp made⟩

theorem later_assoc {a b m n : LensChain} (first : Composed a b m) (last : Composed b c n) :
    later m c = later a n := by
  rw [later, later, last.steps, last.target, first.target, later, later]
  cases c.steps with
  | cons s rest => cases b.steps <;> rfl
  | nil =>
    rw [List.append_nil]
    cases c.target with
    | absent => rfl
    | typed _ => cases b.steps <;> rfl
    | opaque_ => cases b.steps <;> rfl

theorem Composed.assoc {a b m n w : LensChain} (first : Composed a b m) (last : Composed b c n) :
    Composed m c w ↔ Composed a n w := by
  constructor
  · intro whole
    refine ⟨first.id.trans last.sameId.symm, first.meets.trans last.src.symm,
      whole.sameId.trans first.sameId, whole.src.trans first.src, whole.dst.trans last.dst.symm,
      ?_, ?_, whole.target.trans (later_assoc first last)⟩
    · rw [whole.steps, first.steps, last.steps, List.append_assoc]
    · rw [whole.sources, first.sources, last.sources, List.append_assoc]
  · intro whole
    refine ⟨first.sameId.trans (first.id.trans last.id), first.dst.trans last.meets,
      whole.sameId.trans first.sameId.symm, whole.src.trans first.src.symm,
      whole.dst.trans last.dst, ?_, ?_, whole.target.trans (later_assoc first last).symm⟩
    · rw [whole.steps, first.steps, last.steps, List.append_assoc]
    · rw [whole.sources, first.sources, last.sources, List.append_assoc]

/-- Three chains in a row make one chain, whichever two are composed first. -/
theorem compose_assoc (a b c w : LensChain) :
    ((a.compose b).bind fun m => m.compose c) = .ok w ↔
      ((b.compose c).bind fun n => a.compose n) = .ok w := by
  have bound : ∀ (x : Except LensError LensChain) (f : LensChain → Except LensError LensChain),
      x.bind f = .ok w ↔ ∃ m, x = .ok m ∧ f m = .ok w := by
    intro x f
    cases x with
    | error _ => exact iff_of_false nofun fun ⟨_, made, _⟩ => nomatch made
    | ok m => exact ⟨fun made => ⟨m, rfl, made⟩, fun ⟨_, same, made⟩ => by cases same; exact made⟩
  rw [bound, bound]
  simp only [compose_iff]
  constructor
  · rintro ⟨m, first, whole⟩
    obtain ⟨n, last⟩ := composed_of (first.id.symm.trans (first.sameId.symm.trans whole.id))
      (first.dst.symm.trans whole.meets)
    exact ⟨n, last, (first.assoc last).mp whole⟩
  · rintro ⟨n, last, whole⟩
    obtain ⟨m, first⟩ := composed_of (whole.id.trans last.sameId) (whole.meets.trans last.src)
    exact ⟨m, first, (first.assoc last).mpr whole⟩

theorem identity_compose (c : LensChain) : (identity c.id c.src).compose c = .ok c := by
  refine compose_iff.mpr ⟨rfl, rfl, rfl, rfl, rfl, (List.nil_append _).symm,
    (List.nil_append _).symm, ?_⟩
  rw [later]
  split
  · rename_i none'
    exact none'
  · rfl

theorem compose_identity (c : LensChain) : c.compose (identity c.id c.dst) = .ok c :=
  compose_iff.mpr ⟨rfl, rfl, rfl, rfl, rfl, (List.append_nil _).symm, (List.append_nil _).symm, rfl⟩

/-! What a composed chain does. -/

theorem Composed.relations (made : Composed c d e) (k : RelKind) :
    e.relationForward k = d.relationForward (c.relationForward k) ∧
      e.relationBackward k = c.relationBackward (d.relationBackward k) := by
  rw [relationForward, relationBackward, made.steps, List.foldl_append, List.reverse_append,
    List.foldl_append]
  exact ⟨rfl, rfl⟩

theorem Composed.source (made : Composed c d e) (some' : c.steps ≠ []) :
    e.sourceFields = c.sourceFields := by
  have long := c.paired
  rw [sourceFields, sourceFields, made.sources]
  cases listed : c.sources with
  | nil =>
    rw [listed] at long
    exact absurd (List.length_eq_zero_iff.mp long.symm) some'
  | cons f rest => rfl

theorem Composed.usable (made : Composed c d e) :
    e.isUsable = true ↔ c.isUsable = true ∧ d.isUsable = true := by
  rw [usable_iff, usable_iff, usable_iff, made.ops, List.forall_mem_append]

theorem Composed.invertible (made : Composed c d e) :
    e.isInvertible = true ↔ c.isInvertible = true ∧ d.isInvertible = true := by
  rw [invertible_iff, invertible_iff, invertible_iff, made.ops, List.forall_mem_append]

theorem Composed.forward (made : Composed c d e) (some' : d.steps ≠ [])
    (usable : e.isUsable = true) (v : UnitView) : e.forward v = d.forward (c.forward v).1 := by
  obtain ⟨first, next⟩ := made.usable.mp usable
  rw [forward_usable usable, forward_usable first, forward_usable next, made.ops,
    List.foldl_append, made.target, later_steps some', made.dst]

theorem backward_toOption (c : LensChain) (v : UnitView) : (c.backward v).toOption =
    if c.isInvertible = true then
      some (c.ops.reverse.foldl (fun v op => op.backward v) v,
        unmappable (c.ops.reverse.foldl (fun v op => op.backward v) v) c.sourceFields c.src true)
    else none := by
  split
  · rename_i inverse
    rw [backward_invertible inverse]
    rfl
  · rename_i stuck
    rw [backward]
    cases found : c.steps.findSome? fun s => s.ops.findSome? (HeldOp.refusal c.id s.src s.dst) with
    | none => exact absurd (c.refused_none_iff.mp found) stuck
    | some r => rfl

theorem Composed.backward (made : Composed c d e) (some' : c.steps ≠ []) (v : UnitView) :
    (e.backward v).toOption =
      (d.backward v).toOption.bind fun r => (c.backward r.1).toOption := by
  rw [backward_toOption, backward_toOption]
  by_cases next : d.isInvertible = true
  · rw [if_pos next, Option.bind_some, backward_toOption]
    by_cases first : c.isInvertible = true
    · rw [if_pos (made.invertible.mpr ⟨first, next⟩), if_pos first, made.ops, List.reverse_append,
        List.foldl_append, made.source some', made.src]
    · rw [if_neg first, if_neg fun both => first (made.invertible.mp both).1]
  · rw [if_neg next, if_neg fun both => next (made.invertible.mp both).2]
    rfl

/-- A chain read forward and back, or back and forward, gives the view one began with where
each op on the way does; and what is then unmappable is read off that view. -/
theorem chain_round_trips (c : LensChain) :
    (c.isInvertible = true → ∀ v, HeldOp.Along HeldOp.forward HeldOp.Undone c.ops v →
      c.backward (c.forward v).1 = .ok (v, unmappable v c.sourceFields c.src true)) ∧
    ∀ v w m, c.backward v = .ok (w, m) →
      HeldOp.Along HeldOp.backward HeldOp.Redone c.ops.reverse v →
        c.forward w = (v, unmappable v c.target c.dst false) :=
  ⟨fun inverse _ => backward_forward inverse, fun _ _ _ => forward_backward⟩

/-- Chains compose: which two of three are composed first makes no difference, the empty chains
at both ends make none, and the hash of what is composed is over the steps of both in a row. -/
theorem chains_compose (a b c : LensChain) :
    (∀ w, ((a.compose b).bind fun m => m.compose c) = .ok w ↔
      ((b.compose c).bind fun n => a.compose n) = .ok w) ∧
    (identity a.id a.src).compose a = .ok a ∧ a.compose (identity a.id a.dst) = .ok a ∧
    (a.compose b).map hash = if a.id = b.id ∧ a.dst = b.src then
      .ok (chainHash a.id a.src b.dst (a.steps ++ b.steps))
      else .error (.noPath a.id a.src b.dst) := by
  refine ⟨compose_assoc a b c, identity_compose a, compose_identity a, ?_⟩
  rw [compose]
  split
  · rfl
  · rfl

end

section Examples

local instance plainChainText : Unicode := .plain
local instance zeroChainHash : Blake3 := ⟨fun _ => ⟨List.replicate 32 0, Bytes32.width_zero⟩⟩

/-- An owner is a holder from the second revision on. -/
def ownerStep : HeldStep where
  src := 1
  dst := 2
  ops := [.known (.renameKey "owner" "holder")]
  bytes := []
  rises := first_rises

/-- From the third on, what is open is held by nobody. -/
def stateStep : HeldStep where
  src := 2
  dst := 3
  ops := [.known (.splitValue "state" "open" "held" (BTreeMap.ofList [("by", .str "nobody")]))]
  bytes := []
  rises := second_rises

def stepChain (s : HeldStep) : LensChain where
  id := .extension "x.test/held"
  src := s.src
  dst := s.dst
  steps := [s]
  sources := [.absent]
  target := .absent
  hash := chainHash (.extension "x.test/held") s.src s.dst [s]
  joined := by rw [joins, joins, beq_self_eq_true, beq_self_eq_true]; rfl
  paired := rfl
  hashed := rfl

def heldChain : LensChain where
  id := .extension "x.test/held"
  src := 1
  dst := 3
  steps := [ownerStep, stateStep]
  sources := [.absent, .absent]
  target := .absent
  hash := chainHash (.extension "x.test/held") 1 3 [ownerStep, stateStep]
  joined := by decide
  paired := rfl
  hashed := rfl

def heldView : UnitView where
  ty := .extension "x.test/thing"
  payload := BTreeMap.ofList [("owner", .str "ann"), ("state", .str "open")]

theorem chain_round_trips_held : heldChain.backward (heldChain.forward heldView).1 =
    .ok (heldView, unmappable heldView heldChain.sourceFields heldChain.src true) := by
  refine (chain_round_trips heldChain).1 (by decide) heldView ⟨fun held => ?_, .inl ⟨rfl, rfl, ?_⟩,
    trivial⟩
  · exact absurd rfl held
  · intro k x held
    have entry := (BTreeMap.mem_entries_iff _ _ _).mpr held
    have only : (BTreeMap.ofList [("by", HValue.str "nobody")]).entries =
      [("by", .str "nobody")] := rfl
    rw [only, List.mem_singleton] at entry
    cases entry
    exact ⟨rfl, rfl⟩

end Examples
end LensChain
end Smysl
