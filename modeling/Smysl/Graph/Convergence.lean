import Smysl.Graph.Delivery

/-!
Rule U. Two stores that were given the same records, in whatever order and
batches, have the same digest exactly when no two of the records share the key
of a relation, the id of a view or the id of a contention and are written
differently.
-/
namespace Smysl
open ByteString OrdMap

/-- Contentions by their id. -/
def byId (cs : List Contention) : BTreeMap ContentionId Contention :=
  .ofList (cs.map (fun c => (c.id, c)))

theorem by_id_keys {cs : List Contention} :
    (cs.map (fun c => (c.id, c))).map Prod.fst = cs.map Contention.id := by
  rw [List.map_map]
  rfl

theorem get_by_id {cs : List Contention} (distinct : (cs.map Contention.id).Nodup)
    (id : ContentionId) (c : Contention) : (byId cs).get id = some c ↔ c ∈ cs ∧ c.id = id := by
  have nodup := by_id_keys.symm ▸ distinct
  rw [byId, BTreeMap.get_ofList nodup]
  constructor
  · intro found
    obtain ⟨x, mem, same⟩ := List.mem_map.mp (lookup_mem found)
    cases same
    exact ⟨mem, rfl⟩
  · rintro ⟨mem, rfl⟩
    exact lookup_of_nodup nodup (List.mem_map.mpr ⟨c, mem, rfl⟩)

/-- Sorted by id, contentions are in the order of a map by id. -/
theorem sorted_by_id {cs : List Contention} (distinct : (cs.map Contention.id).Nodup) :
    cs.insertionSort (fun a b => a.id ≤ b.id) = (byId cs).values := by
  have nodup := by_id_keys.symm ▸ distinct
  have entries := (BTreeMap.entries_ofList_perm nodup).map Prod.snd
  have values : (cs.map (fun c => (c.id, c))).map Prod.snd = cs := by
    rw [List.map_map]
    exact List.map_id cs
  rw [values] at entries
  have own : ∀ e ∈ (byId cs).entries, e.1 = e.2.id := by
    intro e mem
    exact ((get_by_id distinct e.1 e.2).mp ((BTreeMap.mem_entries_iff _ _ _).mp mem)).2.symm
  have sorted : (byId cs).values.Pairwise (fun a b => a.id ≤ b.id) := by
    rw [BTreeMap.values, List.pairwise_map]
    refine (byId cs).ascending.imp_of_mem fun left right below => ?_
    rw [← own _ left, ← own _ right]
    exact below.le
  have total : Std.Total (fun a b : Contention => a.id ≤ b.id) := ⟨fun a b => le_total _ _⟩
  have transitive : IsTrans Contention (fun a b => a.id ≤ b.id) := ⟨fun a b c => le_trans⟩
  refine List.Perm.eq_of_pairwise (fun a b left right ab ba => ?_)
    (List.pairwise_insertionSort _ cs) sorted ((List.perm_insertionSort _ cs).trans entries.symm)
  exact List.inj_on_of_nodup_map distinct ((List.mem_insertionSort _).mp left)
    (entries.mem_iff.mp right) (le_antisymm ab ba)

section
variable [Unicode] [Blake3]

/-- Records that share a key are written alike. -/
structure Agreeing (records : List Record) : Prop where
  relations : ∀ r r', .relation r ∈ records → .relation r' ∈ records → relKey r = relKey r' →
    toCbor (.relation r) = toCbor (.relation r')
  views : ∀ v v', .view v ∈ records → .view v' ∈ records → v.id = v'.id →
    toCbor (.view v) = toCbor (.view v')
  contentions : ∀ c c', .contention c ∈ records → .contention c' ∈ records → c.id = c'.id →
    toCbor (.contention c) = toCbor (.contention c')

namespace Store

/-- What two stores given the same records have in common, whatever the order. -/
structure Level (s t : Store) : Prop where
  units : s.units.entries.flatMap (fun e => unitBytes e.1 e.2) =
    t.units.entries.flatMap (fun e => unitBytes e.1 e.2)
  edges : ∀ key, (s.interp.relations.get key).isSome = (t.interp.relations.get key).isSome
  attested : ∀ key r r', s.interp.relations.get key = some r →
    t.interp.relations.get key = some r' → r.attestations = r'.attestations
  threads : s.interp.threads.values.flatMap (fun t => toCbor (.thread t)) =
    t.interp.threads.values.flatMap (fun t => toCbor (.thread t))
  views : ∀ id, (s.interp.views.get id).isSome = (t.interp.views.get id).isSome
  withdrawals : s.interp.withdrawals = t.interp.withdrawals
  resolutions : s.interp.resolutions = t.interp.resolutions
  contentions : ∀ id, ((byId s.interp.contentions).get id).isSome =
    ((byId t.interp.contentions).get id).isSome

omit [Blake3] in
theorem newest_bytes {told : Set Thread} {m n : BTreeMap ThreadKey Thread} (left : Newest told m)
    (right : Newest told n) : m.values.flatMap (fun t => toCbor (.thread t)) =
      n.values.flatMap (fun t => toCbor (.thread t)) := by
  have half : ∀ {m n : BTreeMap ThreadKey Thread}, Newest told m → Newest told n → ∀ k,
      (m.get k).isSome = true → (n.get k).isSome = true := by
    intro m n left right k held
    obtain ⟨t, found⟩ := Option.isSome_iff_exists.mp held
    obtain ⟨mem, rfl, _⟩ := left.held k t found
    exact right.all t mem
  refine BTreeMap.values_flatMap_eq (fun k => Bool.eq_iff_iff.mpr
    ⟨half left right k, half right left k⟩) fun k t t' here there => ?_
  obtain ⟨mem, keyed, most⟩ := left.held k t here
  obtain ⟨mem', keyed', most'⟩ := right.held k t' there
  have same : t.age = t'.age := le_antisymm (most' t mem keyed) (most t' mem' keyed')
  exact (Prod.mk.inj (toLex.injective same)).2

omit [Unicode] [Blake3] in
theorem gathered_unique {K V : Type} [LinearOrder K] [LinearOrder V] {told : Set V} {key : V → K}
    {m n : BTreeMap K (BTreeSet V)} (left : Gathered told key m) (right : Gathered told key n) :
    m = n := by
  refine BTreeMap.ext_get fun k => ?_
  have held := (left.keys k).trans (right.keys k).symm
  rw [BTreeMap.contains, BTreeMap.contains] at held
  cases here : m.get k with
  | none =>
    rw [here] at held
    cases there : n.get k with
    | none => rfl
    | some set =>
      rw [there] at held
      cases held.mpr rfl
  | some set =>
    rw [here] at held
    obtain ⟨set', there⟩ := Option.isSome_iff_exists.mp (held.mp rfl)
    rw [there, BTreeSet.ext_mem fun v => (left.mem k set here v).trans (right.mem k set' there v).symm]

omit [Unicode] [Blake3] in
theorem listed_ids {told : Set Contention} {cs : List Contention} (listed : Listed told cs)
    (id : ContentionId) : ((byId cs).get id).isSome = true ↔ ∃ c ∈ told, c.id = id := by
  rw [Option.isSome_iff_exists]
  constructor
  · rintro ⟨c, found⟩
    obtain ⟨mem, same⟩ := (get_by_id listed.distinct id c).mp found
    exact ⟨c, listed.held c mem, same⟩
  · rintro ⟨c, mem, rfl⟩
    obtain ⟨c', held, same⟩ := List.mem_map.mp (listed.all c mem)
    exact ⟨c', (get_by_id listed.distinct c.id c').mpr ⟨held, same⟩⟩

omit [Unicode] [Blake3] in
theorem recorded_same {α : Type} {mk : α → Record} {rs ts : List Record}
    (same : ∀ r, r ∈ rs ↔ r ∈ ts) : recorded mk rs = recorded mk ts :=
  Set.ext fun x => same (mk x)

/-- Two deliveries of the same records. -/
theorem Delivered.level {given given' : List Record} {s t : Store} (left : Delivered given s)
    (right : Delivered given' t) (clean : Clean given) (same : ∀ r, r ∈ given ↔ r ∈ given') :
    Level s t := by
  have clean' : Clean given' := clean.mono fun r mem => (same r).mpr mem
  have here := left.holds clean
  have there := right.holds clean'
  refine ⟨?_, fun key => ?_, fun key r r' held held' => ?_, ?_, fun id => ?_, ?_, ?_, fun id => ?_⟩
  · refine BTreeMap.entries_flatMap_eq (fun uid => ?_) fun uid u v held held' => ?_
    · rw [Bool.eq_iff_iff]
      refine (left.unit_held clean uid).trans (Iff.trans ?_ (right.unit_held clean' uid).symm)
      simp only [same]
    · have on : u.attestations = v.attestations := BTreeSet.ext_mem fun a => by
        rw [left.unit_on clean held, right.unit_on clean' held', same]
      rw [unitBytes, unitBytes, on]
  · rw [Bool.eq_iff_iff]
    refine (left.edge_held clean key).trans (Iff.trans ?_ (right.edge_held clean' key).symm)
    simp only [same]
  · refine BTreeSet.ext_mem fun a => ?_
    obtain ⟨keyed, on⟩ := left.edge_on clean held a
    obtain ⟨keyed', on'⟩ := right.edge_on clean' held' a
    rw [on, on', recorded_same same, same, uid_of_key (keyed.trans keyed'.symm)]
  · exact newest_bytes here.threads (recorded_same same ▸ there.threads)
  · rw [Bool.eq_iff_iff]
    constructor
    · intro held
      obtain ⟨v, found⟩ := Option.isSome_iff_exists.mp held
      obtain ⟨mem, rfl⟩ := here.views.held id v found
      exact there.views.all v ((same _).mp mem)
    · intro held
      obtain ⟨v, found⟩ := Option.isSome_iff_exists.mp held
      obtain ⟨mem, rfl⟩ := there.views.held id v found
      exact here.views.all v ((same _).mpr mem)
  · exact gathered_unique here.withdrawals (recorded_same same ▸ there.withdrawals)
  · refine BTreeSet.ext_mem fun r => ?_
    rw [here.resolutions, there.resolutions, recorded_same same]
  · rw [Bool.eq_iff_iff, listed_ids here.contentions, listed_ids there.contentions,
      recorded_same same]

omit [Blake3] in
theorem layer_bytes_by_id {i : Interpretive} (distinct : (i.contentions.map Contention.id).Nodup) :
    layerBytes i = i.threads.values.flatMap (fun t => toCbor (.thread t)) ++
      i.views.values.flatMap (fun v => toCbor (.view v)) ++
      i.withdrawals.values.flatMap (fun set =>
        set.toList.flatMap (fun w => toCbor (.withdrawal w))) ++
      i.resolutions.toList.flatMap (fun r => toCbor (.resolution r)) ++
      (byId i.contentions).values.flatMap (fun c => toCbor (.contention c)) := by
  rw [layerBytes, sorted_by_id distinct]

/-- An edge has the fields of a relation given for its key. -/
theorem Delivered.edge_from {given : List Record} {s : Store} (delivered : Delivered given s)
    (clean : Clean given) {key : RelKey} {rel : Relation}
    (held : s.interp.relations.get key = some rel) :
    ∃ r, .relation r ∈ given ∧ relKey r = key ∧ r.bare = rel.bare := by
  have edge := (delivered.sound clean).edges key
  rw [held] at edge
  obtain ⟨r, first, same⟩ := Option.map_eq_some_iff.mp edge.symm
  obtain ⟨named, mem⟩ := first_relation_some first
  exact ⟨r, delivered.from_given mem, named, same⟩

/-- Records that agree where they share a key converge. -/
theorem Delivered.state_bytes_eq {given given' : List Record} {s t : Store}
    (left : Delivered given s) (right : Delivered given' t) (clean : Clean given)
    (same : ∀ r, r ∈ given ↔ r ∈ given') (agreeing : Agreeing given) :
    s.stateBytes = t.stateBytes := by
  have clean' : Clean given' := clean.mono fun r mem => (same r).mpr mem
  have level := left.level right clean same
  have here := left.holds clean
  have there := right.holds clean'
  have edges : s.interp.relations.entries.flatMap (fun e => edgeBytes e.2) =
      t.interp.relations.entries.flatMap (fun e => edgeBytes e.2) := by
    rw [← BTreeMap.values_flatMap, ← BTreeMap.values_flatMap]
    refine BTreeMap.values_flatMap_eq level.edges fun key r r' held held' => ?_
    obtain ⟨x, mem, keyed, bare⟩ := left.edge_from clean held
    obtain ⟨x', mem', keyed', bare'⟩ := right.edge_from clean' held'
    have bytes := agreeing.relations x x' mem ((same _).mpr mem') (keyed.trans keyed'.symm)
    have written : toCbor (.relation x.bare) = toCbor (.relation x'.bare) := bytes
    rw [edge_bytes_bare, edge_bytes_bare, ← bare, ← bare', written,
      level.attested key r r' held held']
  have views : s.interp.views.values.flatMap (fun v => toCbor (.view v)) =
      t.interp.views.values.flatMap (fun v => toCbor (.view v)) := by
    refine BTreeMap.values_flatMap_eq level.views fun id v v' held held' => ?_
    obtain ⟨mem, keyed⟩ := here.views.held id v held
    obtain ⟨mem', keyed'⟩ := there.views.held id v' held'
    exact agreeing.views v v' mem ((same _).mpr mem') (keyed.trans keyed'.symm)
  have contentions : (byId s.interp.contentions).values.flatMap (fun c => toCbor (.contention c)) =
      (byId t.interp.contentions).values.flatMap (fun c => toCbor (.contention c)) := by
    refine BTreeMap.values_flatMap_eq level.contentions fun id c c' held held' => ?_
    obtain ⟨mem, keyed⟩ := (get_by_id here.contentions.distinct id c).mp held
    obtain ⟨mem', keyed'⟩ := (get_by_id there.contentions.distinct id c').mp held'
    exact agreeing.contentions c c' (here.contentions.held c mem)
      ((same _).mpr (there.contentions.held c' mem')) (keyed.trans keyed'.symm)
  rw [stateBytes, stateBytes, level.units, edges, layer_bytes_by_id here.contentions.distinct,
    layer_bytes_by_id there.contentions.distinct, level.threads, views, level.withdrawals,
    level.resolutions, contentions]

end Store
end
end Smysl
