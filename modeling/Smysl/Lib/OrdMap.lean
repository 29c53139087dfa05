import Mathlib

/-!
Ordered maps and sets as strictly ascending entry lists, the way an ordered
tree map is seen through its iterator: lookups decide equality, iteration is
by ascending key, and an upsert touches one key. Nothing here depends on what
the keys and values are.
-/
namespace OrdMap

variable {K V W : Type} [LinearOrder K]

/-- The entries of a map: keys strictly ascending, so no key occurs twice. -/
def Ascending (es : List (K × V)) : Prop := es.Pairwise (fun a b => a.1 < b.1)

instance (es : List (K × V)) : Decidable (Ascending es) :=
  inferInstanceAs (Decidable (es.Pairwise (fun a b => a.1 < b.1)))

def lookup (k : K) : List (K × V) → Option V
  | [] => none
  | (j, v) :: rest => if j = k then some v else lookup k rest

/-- Replace what is held at `k` by `f` of it, keeping the order. -/
def upsert (k : K) (f : Option V → V) : List (K × V) → List (K × V)
  | [] => [(k, f none)]
  | (j, v) :: rest =>
    if k < j then (k, f none) :: (j, v) :: rest
    else if j = k then (k, f (some v)) :: rest
    else (j, v) :: upsert k f rest

theorem ascending_tail {e : K × V} {es : List (K × V)} (asc : Ascending (e :: es)) :
    Ascending es := List.Pairwise.of_cons asc

theorem ascending_head {e : K × V} {es : List (K × V)} (asc : Ascending (e :: es)) :
    ∀ b ∈ es, e.1 < b.1 := fun _ mem => List.rel_of_pairwise_cons asc mem

theorem lookup_mem {k : K} {v : V} {es : List (K × V)} (found : lookup k es = some v) :
    (k, v) ∈ es := by
  induction es with
  | nil => simp [lookup] at found
  | cons e es ih =>
    obtain ⟨j, w⟩ := e
    rw [lookup] at found
    split at found
    · rename_i same
      simp_all
    · exact List.mem_cons_of_mem _ (ih found)

theorem lookup_of_nodup {k : K} {v : V} {es : List (K × V)}
    (distinct : (es.map Prod.fst).Nodup) (mem : (k, v) ∈ es) : lookup k es = some v := by
  induction es with
  | nil => cases mem
  | cons e es ih =>
    obtain ⟨fresh, rest⟩ := List.nodup_cons.mp distinct
    rw [lookup]
    rcases List.mem_cons.mp mem with rfl | mem
    · rw [if_pos rfl]
    · have other : e.1 ≠ k := fun same => fresh (same ▸ List.mem_map_of_mem mem)
      rw [if_neg other]
      exact ih rest mem

theorem ascending_keys_nodup {es : List (K × V)} (asc : Ascending es) :
    (es.map Prod.fst).Nodup := List.pairwise_map.mpr (asc.imp ne_of_lt)

theorem lookup_of_mem {k : K} {v : V} {es : List (K × V)} (asc : Ascending es)
    (mem : (k, v) ∈ es) : lookup k es = some v := lookup_of_nodup (ascending_keys_nodup asc) mem

theorem lookup_iff_mem {k : K} {v : V} {es : List (K × V)} (asc : Ascending es) :
    lookup k es = some v ↔ (k, v) ∈ es :=
  ⟨lookup_mem, lookup_of_mem asc⟩

theorem lookup_none_iff {k : K} {es : List (K × V)} :
    lookup k es = none ↔ k ∉ es.map Prod.fst := by
  induction es with
  | nil => simp [lookup]
  | cons e es ih =>
    obtain ⟨j, w⟩ := e
    rw [lookup]
    split
    · rename_i same
      simp [same]
    · rename_i different
      simp only [ih, List.map_cons, List.mem_cons, not_or]
      exact ⟨fun h => ⟨fun eq => different eq.symm, h⟩, fun h => h.2⟩

theorem upsert_mem {k : K} {f : Option V → V} {es : List (K × V)} {b : K × V}
    (mem : b ∈ upsert k f es) : b.1 = k ∨ b ∈ es := by
  induction es with
  | nil => simp_all [upsert]
  | cons e es ih =>
    obtain ⟨j, w⟩ := e
    rw [upsert] at mem
    split at mem
    · rcases List.mem_cons.mp mem with same | mem
      · exact Or.inl (by rw [same])
      · exact Or.inr mem
    · split at mem
      · rcases List.mem_cons.mp mem with same | mem
        · exact Or.inl (by rw [same])
        · exact Or.inr (List.mem_cons_of_mem _ mem)
      · rcases List.mem_cons.mp mem with same | mem
        · exact Or.inr (by rw [same]; exact List.mem_cons_self)
        · exact (ih mem).imp id (List.mem_cons_of_mem _)

theorem upsert_ascending {k : K} {f : Option V → V} {es : List (K × V)}
    (asc : Ascending es) : Ascending (upsert k f es) := by
  induction es with
  | nil => simp [upsert, Ascending]
  | cons e es ih =>
    obtain ⟨j, w⟩ := e
    have heads : ∀ b ∈ es, j < b.1 := ascending_head asc
    rw [upsert]
    split
    · rename_i below
      refine List.Pairwise.cons ?_ asc
      intro b mem
      rcases List.mem_cons.mp mem with same | mem
      · rw [same]; exact below
      · exact below.trans (heads b mem)
    · split
      · rename_i same
        subst same
        exact List.Pairwise.cons heads (ascending_tail asc)
      · rename_i notBelow different
        refine List.Pairwise.cons ?_ (ih (ascending_tail asc))
        intro b mem
        rcases upsert_mem mem with key | mem
        · rw [key]
          exact lt_of_le_of_ne (not_lt.mp notBelow) different
        · exact heads b mem

theorem lookup_upsert (k j : K) (f : Option V → V) (es : List (K × V))
    (asc : Ascending es) :
    lookup j (upsert k f es) = if j = k then some (f (lookup k es)) else lookup j es := by
  induction es with
  | nil => simp [upsert, lookup, eq_comm]
  | cons e es ih =>
    obtain ⟨i, w⟩ := e
    rw [upsert]
    split
    · rename_i below
      have absent : lookup k ((i, w) :: es) = none := by
        rw [lookup_none_iff]
        intro mem
        obtain ⟨b, hb, same⟩ := List.mem_map.mp mem
        rcases List.mem_cons.mp hb with first | later
        · rw [first] at same
          exact absurd same below.ne'
        · exact absurd same (below.trans (ascending_head asc b later)).ne'
      rw [lookup, absent]
      by_cases same : j = k
      · simp [same]
      · simp [same, Ne.symm same]
    · split
      · rename_i same
        subst same
        simp only [lookup]
        by_cases same : j = i
        · simp [same]
        · simp [same, Ne.symm same]
      · rename_i notBelow different
        simp only [lookup, if_neg different, ih (ascending_tail asc)]
        by_cases same : i = j
        · subst same
          simp [different]
        · simp [same]

theorem ascending_ext {es fs : List (K × V)} (ascE : Ascending es) (ascF : Ascending fs)
    (same : ∀ k, lookup k es = lookup k fs) : es = fs := by
  have : Std.Irrefl (fun a b : K × V => a.1 < b.1) := ⟨fun a => lt_irrefl a.1⟩
  have : Std.Antisymm (fun a b : K × V => a.1 < b.1) :=
    ⟨fun a b ab ba => absurd (ab.trans ba) (lt_irrefl _)⟩
  refine List.Pairwise.eq_of_mem_iff ascE ascF ?_
  rintro ⟨k, v⟩
  rw [← lookup_iff_mem ascE, ← lookup_iff_mem ascF, same]

end OrdMap

/-- A finite map iterated by ascending key. -/
structure BTreeMap (K V : Type) [LinearOrder K] where
  entries : List (K × V)
  ascending : OrdMap.Ascending entries
deriving DecidableEq

namespace BTreeMap
open OrdMap

variable {K V W : Type} [LinearOrder K]

def empty : BTreeMap K V := ⟨[], List.Pairwise.nil⟩

instance : Inhabited (BTreeMap K V) := ⟨empty⟩
instance : EmptyCollection (BTreeMap K V) := ⟨empty⟩

def get (m : BTreeMap K V) (k : K) : Option V := lookup k m.entries

def contains (m : BTreeMap K V) (k : K) : Bool := (m.get k).isSome

def keys (m : BTreeMap K V) : List K := m.entries.map Prod.fst

def values (m : BTreeMap K V) : List V := m.entries.map Prod.snd

def isEmpty (m : BTreeMap K V) : Bool := m.entries.isEmpty

@[simp] theorem isEmpty_empty : (∅ : BTreeMap K V).isEmpty = true := rfl

/-- The entry at `k`, absent or held, replaced by `f` of it. -/
def alter (m : BTreeMap K V) (k : K) (f : Option V → V) : BTreeMap K V :=
  ⟨upsert k f m.entries, upsert_ascending m.ascending⟩

def insert (m : BTreeMap K V) (k : K) (v : V) : BTreeMap K V := m.alter k (fun _ => v)

/-- Insert where the key is new; keep what is held where it is not. -/
def orInsert (m : BTreeMap K V) (k : K) (v : V) : BTreeMap K V := m.alter k (fun o => o.getD v)

/-- Change the value held at `k`, if any. -/
def modify (m : BTreeMap K V) (k : K) (f : V → V) : BTreeMap K V :=
  ⟨m.entries.map (fun e => if e.1 = k then (e.1, f e.2) else e), by
    refine List.Pairwise.map _ ?_ m.ascending
    intro a b ab
    split <;> split <;> exact ab⟩

def ofList (es : List (K × V)) : BTreeMap K V := es.foldl (fun m e => m.insert e.1 e.2) empty

/-- Keep the entries satisfying `p`. -/
def filter (m : BTreeMap K V) (p : K → V → Bool) : BTreeMap K V :=
  ⟨m.entries.filter (fun e => p e.1 e.2), List.Pairwise.filter _ m.ascending⟩

@[simp] theorem get_empty (k : K) : (empty : BTreeMap K V).get k = none := rfl

@[simp] theorem get_emptyCollection (k : K) : (∅ : BTreeMap K V).get k = none := rfl

theorem get_alter (m : BTreeMap K V) (k j : K) (f : Option V → V) :
    (m.alter k f).get j = if j = k then some (f (m.get k)) else m.get j :=
  lookup_upsert k j f m.entries m.ascending

theorem get_insert (m : BTreeMap K V) (k j : K) (v : V) :
    (m.insert k v).get j = if j = k then some v else m.get j := get_alter m k j _

theorem get_orInsert (m : BTreeMap K V) (k j : K) (v : V) :
    (m.orInsert k v).get j = if j = k then some ((m.get k).getD v) else m.get j :=
  get_alter m k j _

theorem get_modify (m : BTreeMap K V) (k j : K) (f : V → V) :
    (m.modify k f).get j = if j = k then (m.get j).map f else m.get j := by
  obtain ⟨es, asc⟩ := m
  simp only [get, modify]
  clear asc
  induction es with
  | nil => simp [lookup]
  | cons e es ih =>
    obtain ⟨i, v⟩ := e
    simp only [List.map_cons]
    by_cases here : i = k
    · subst here
      by_cases same : i = j
      · subst same
        simp [lookup]
      · simp only [if_true, lookup, if_neg same, ih]
    · by_cases same : i = j
      · subst same
        simp [lookup, here]
      · simp only [if_neg here, lookup, if_neg same, ih]

theorem ext_get {m n : BTreeMap K V} (same : ∀ k, m.get k = n.get k) : m = n := by
  obtain ⟨es, ascE⟩ := m
  obtain ⟨fs, ascF⟩ := n
  have := ascending_ext ascE ascF same
  subst this
  rfl

theorem mem_entries_iff (m : BTreeMap K V) (k : K) (v : V) :
    (k, v) ∈ m.entries ↔ m.get k = some v := (lookup_iff_mem m.ascending).symm

theorem mem_keys_iff (m : BTreeMap K V) (k : K) : k ∈ m.keys ↔ m.contains k = true := by
  rw [contains, get, Option.isSome_iff_ne_none, ne_eq, lookup_none_iff, not_not, keys]

theorem contains_iff (m : BTreeMap K V) (k : K) :
    m.contains k = true ↔ ∃ v, m.get k = some v := by
  rw [contains, Option.isSome_iff_exists]

theorem keys_pairwise (m : BTreeMap K V) : m.keys.Pairwise (· < ·) :=
  List.pairwise_map.mpr m.ascending

theorem keys_nodup (m : BTreeMap K V) : m.keys.Nodup :=
  m.keys_pairwise.imp ne_of_lt

theorem get_ofList {es : List (K × V)} (distinct : (es.map Prod.fst).Nodup) (k : K) :
    (ofList es).get k = lookup k es := by
  have general : ∀ (es : List (K × V)) (m : BTreeMap K V), (es.map Prod.fst).Nodup →
      (es.foldl (fun m e => m.insert e.1 e.2) m).get k = (lookup k es).or (m.get k) := by
    intro es
    induction es with
    | nil =>
      intro m _
      rfl
    | cons e es ih =>
      intro m distinct
      obtain ⟨fresh, rest⟩ := List.nodup_cons.mp distinct
      rw [List.foldl_cons, ih _ rest, get_insert, lookup]
      by_cases here : e.1 = k
      · have absent : lookup k es = none := by
          rw [lookup_none_iff, ← here]
          exact fresh
        rw [absent, if_pos here.symm, if_pos here]
        rfl
      · rw [if_neg (Ne.symm here), if_neg here]
  rw [ofList, general es empty distinct]
  simp [get_empty]

theorem entries_ofList_perm {es : List (K × V)} (distinct : (es.map Prod.fst).Nodup) :
    (ofList es).entries.Perm es := by
  have entriesNodup : (ofList es).entries.Nodup := (ofList es).keys_nodup.of_map
  refine (List.perm_ext_iff_of_nodup entriesNodup distinct.of_map).mpr ?_
  rintro ⟨k, v⟩
  rw [mem_entries_iff, get_ofList distinct]
  exact ⟨lookup_mem, lookup_of_nodup distinct⟩

theorem ofList_perm {m : BTreeMap K V} {es : List (K × V)} (perm : es.Perm m.entries) :
    ofList es = m := by
  have distinct : (es.map Prod.fst).Nodup := (perm.map Prod.fst).nodup_iff.mpr m.keys_nodup
  refine ext_get fun k => ?_
  rw [get_ofList distinct]
  cases here : m.get k with
  | none =>
    rw [lookup_none_iff, (perm.map Prod.fst).mem_iff]
    rw [get, lookup_none_iff] at here
    exact here
  | some v =>
    have mem := (mem_entries_iff m k v).mpr here
    exact lookup_of_nodup distinct (perm.mem_iff.mpr mem)

end BTreeMap

/-- A finite set iterated in ascending order. -/
structure BTreeSet (K : Type) [LinearOrder K] where
  toMap : BTreeMap K Unit
deriving DecidableEq

namespace BTreeSet
open OrdMap

variable {K : Type} [LinearOrder K]

def empty : BTreeSet K := ⟨BTreeMap.empty⟩

instance : Inhabited (BTreeSet K) := ⟨empty⟩
instance : EmptyCollection (BTreeSet K) := ⟨empty⟩

def contains (s : BTreeSet K) (k : K) : Bool := s.toMap.contains k

instance : Membership K (BTreeSet K) := ⟨fun s k => s.contains k = true⟩

instance (s : BTreeSet K) (k : K) : Decidable (k ∈ s) :=
  inferInstanceAs (Decidable (s.contains k = true))

def toList (s : BTreeSet K) : List K := s.toMap.keys

def isEmpty (s : BTreeSet K) : Bool := s.toList.isEmpty

@[simp] theorem isEmpty_empty : (∅ : BTreeSet K).isEmpty = true := rfl

@[simp] theorem toList_empty : (∅ : BTreeSet K).toList = [] := rfl

def insert (s : BTreeSet K) (k : K) : BTreeSet K := ⟨s.toMap.insert k ()⟩

def extend (s : BTreeSet K) (ks : List K) : BTreeSet K := ks.foldl insert s

def ofList (ks : List K) : BTreeSet K := empty.extend ks

theorem mem_def (s : BTreeSet K) (k : K) : k ∈ s ↔ s.contains k = true := Iff.rfl

@[simp] theorem not_mem_empty (k : K) : ¬ k ∈ (empty : BTreeSet K) := by
  simp [mem_def, contains, BTreeMap.contains, empty]

@[simp] theorem not_mem_emptyCollection (k : K) : ¬ k ∈ (∅ : BTreeSet K) := not_mem_empty k

@[simp] theorem mem_toList (s : BTreeSet K) (k : K) : k ∈ s.toList ↔ k ∈ s :=
  s.toMap.mem_keys_iff k

@[simp] theorem mem_insert (s : BTreeSet K) (k j : K) : j ∈ s.insert k ↔ j = k ∨ j ∈ s := by
  simp only [mem_def, contains, BTreeMap.contains, insert, BTreeMap.get_insert]
  split <;> simp_all

@[simp] theorem mem_extend (s : BTreeSet K) (ks : List K) (j : K) :
    j ∈ s.extend ks ↔ j ∈ ks ∨ j ∈ s := by
  induction ks generalizing s with
  | nil => simp [extend]
  | cons k ks ih =>
    have step : s.extend (k :: ks) = (s.insert k).extend ks := rfl
    rw [step, ih, mem_insert, List.mem_cons]
    tauto

@[simp] theorem mem_ofList (ks : List K) (j : K) : j ∈ ofList ks ↔ j ∈ ks := by
  simp [ofList]

theorem ext_mem {s t : BTreeSet K} (same : ∀ k, k ∈ s ↔ k ∈ t) : s = t := by
  obtain ⟨m⟩ := s
  obtain ⟨n⟩ := t
  refine congrArg BTreeSet.mk (BTreeMap.ext_get fun k => ?_)
  have := same k
  simp only [mem_def, contains, BTreeMap.contains] at this
  cases hm : m.get k <;> cases hn : n.get k <;> simp_all

theorem toList_pairwise (s : BTreeSet K) : s.toList.Pairwise (· < ·) := s.toMap.keys_pairwise

theorem toList_nodup (s : BTreeSet K) : s.toList.Nodup := s.toMap.keys_nodup

theorem toList_inj {s t : BTreeSet K} : s.toList = t.toList ↔ s = t := by
  constructor
  · intro same
    refine ext_mem fun k => ?_
    rw [← mem_toList, ← mem_toList, same]
  · rintro rfl; rfl

theorem ofList_toList (s : BTreeSet K) : ofList s.toList = s :=
  ext_mem fun k => by simp

theorem toList_ofList {ks : List K} (asc : ks.Pairwise (· < ·)) : (ofList ks).toList = ks := by
  have : Std.Irrefl (fun a b : K => a < b) := ⟨lt_irrefl⟩
  have : Std.Antisymm (fun a b : K => a < b) := ⟨fun a b ab ba => absurd (ab.trans ba) (lt_irrefl _)⟩
  refine List.Pairwise.eq_of_mem_iff (toList_pairwise _) asc ?_
  intro k
  simp

theorem toList_ofList_perm {ks : List K} (nodup : ks.Nodup) : (ofList ks).toList.Perm ks :=
  (List.perm_ext_iff_of_nodup (toList_nodup _) nodup).mpr fun k => by
    rw [mem_toList, mem_ofList]

theorem isEmpty_iff (s : BTreeSet K) : s.isEmpty = true ↔ s = ∅ := by
  constructor
  · intro none
    refine ext_mem fun k => ?_
    have : s.toList = [] := List.isEmpty_iff.mp none
    rw [← mem_toList, this]
    simp
  · rintro rfl; rfl

end BTreeSet
