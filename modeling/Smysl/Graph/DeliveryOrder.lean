import Smysl.Graph.Convergence

/-!
Orders of delivery that tell records of one key apart: everything else first,
and of the records of the key a chosen one first or last.
-/
namespace Smysl
open ByteString OrdMap

section
variable [Unicode] [Blake3]

namespace Store

theorem append_runs {records : List Record} (accepted : ∀ r ∈ records, unloggable r = none)
    (s : Store) : ∃ s' report bytes, s.append records = .ok (s', report, bytes) := by
  rw [append, (accepted_iff records).mpr accepted]
  dsimp only
  split
  · exact ⟨_, _, _, rfl⟩
  · exact ⟨_, _, _, rfl⟩

/-- A batch on top of a delivery. -/
theorem delivered_next {given : List Record} {s : Store} (delivered : Delivered given s)
    (records : List Record) (accepted : ∀ r ∈ records, unloggable r = none) :
    ∃ s', Delivered (given ++ records) s' ∧
      s'.records = s.records ++ (splitFresh s.recordHashes records).1 := by
  obtain ⟨s', report, bytes, run⟩ := append_runs accepted s
  exact ⟨s', delivered.append run, (append_split run).1⟩

/-- Records of some kind, told by what is written of them. -/
structure Kind (kind : Record → Bool) : Prop where
  written : ∀ r r', r.written = r'.written → kind r = kind r'

variable {records : List Record} {kind : Record → Bool} {base : Store}

/-- What is not of the kind is no repeat of what is. -/
theorem Kind.fresh (written : Kind kind) (clean : Clean records) {given : List Record} {s : Store}
    (delivered : Delivered given s) (part : ∀ r ∈ given, r ∈ records ∧ kind r = false) {x : Record}
    (mem : x ∈ records) (here : kind x = true) : recordHash x ∉ s.recordHashes := by
  intro held
  obtain ⟨r, kept, same⟩ := (delivered.hashes _).mp held
  obtain ⟨mem', other⟩ := part r (delivered.from_given kept)
  have bytes := clean.apart r mem' x mem same
  have alike := (clean.faithful r mem').written_of_bytes (clean.faithful x mem) bytes
  rw [written.written r x alike, here] at other
  cases other

/-- What a batch of all the records adds once everything else is there is of the
kind. -/
theorem rest_of_kind {given : List Record} {s : Store} (delivered : Delivered given s)
    (others : ∀ r ∈ records, kind r = false → r ∈ given) :
    ∀ r ∈ (splitFresh s.recordHashes records).1, kind r = true := by
  intro r mem
  by_contra other
  have held := delivered.hash_kept
    (others r ((split_fresh_sublist _ _).subset mem) (by simpa using other))
  exact (split_fresh_distinct s.recordHashes records).2 r mem held

/-- Everything else first. -/
theorem base_delivered (clean : Clean records) (kind : Record → Bool) :
    ∃ base, Delivered (records.filter (fun r => !kind r)) base := by
  obtain ⟨base, delivered, _⟩ := delivered_next .none (records.filter (fun r => !kind r))
    fun r mem => (accepted_iff records).mp clean.accepted r (List.mem_filter.mp mem).1
  exact ⟨base, delivered⟩

omit [Unicode] [Blake3] in
theorem mem_base {r : Record} (mem : r ∈ records.filter (fun r => !kind r)) :
    r ∈ records ∧ kind r = false := by
  simpa using List.mem_filter.mp mem

/-- Then one record of the kind, then all the others. -/
theorem deliver_first (written : Kind kind) (clean : Clean records)
    (delivered : Delivered (records.filter (fun r => !kind r)) base) {x : Record}
    (mem : x ∈ records) (here : kind x = true) :
    ∃ given t rest, Delivered given t ∧ (∀ r, r ∈ given ↔ r ∈ records) ∧
      t.records = base.records ++ x :: rest ∧ ∀ r ∈ rest, kind r = true := by
  have accepted := (accepted_iff records).mp clean.accepted
  obtain ⟨s, second, kept⟩ := delivered_next delivered [x] fun r single => by
    rw [List.mem_singleton.mp single]
    exact accepted x mem
  have fresh := written.fresh clean delivered (fun r held => mem_base held) mem here
  rw [splitFresh, if_neg fresh] at kept
  obtain ⟨t, third, kept'⟩ := delivered_next second records accepted
  have others : ∀ r ∈ (splitFresh s.recordHashes records).1, kind r = true :=
    rest_of_kind second fun r mem' other =>
      List.mem_append_left _ (List.mem_filter.mpr ⟨mem', by simp [other]⟩)
  refine ⟨_, t, _, third, fun r => ?_, ?_, others⟩
  · simp only [List.mem_append, List.mem_filter, List.mem_singleton]
    constructor
    · rintro ((⟨held, _⟩ | rfl) | held)
      · exact held
      · exact mem
      · exact held
    · exact Or.inr
  · rw [kept', kept, List.append_assoc]
    rfl

/-- Then all the others of the kind, and one written like the chosen one last. -/
theorem deliver_last (written : Kind kind) (clean : Clean records)
    (delivered : Delivered (records.filter (fun r => !kind r)) base) {x : Record}
    (mem : x ∈ records) (here : kind x = true) :
    ∃ given t rest y, Delivered given t ∧ (∀ r, r ∈ given ↔ r ∈ records) ∧
      t.records = base.records ++ (rest ++ [y]) ∧ (∀ r ∈ rest, kind r = true) ∧ y ∈ records ∧
      y.written = x.written := by
  have accepted := (accepted_iff records).mp clean.accepted
  have alike : ∀ r ∈ records, toCbor r = toCbor x → r.written = x.written := fun r mem' same =>
    (clean.faithful r mem').written_of_bytes (clean.faithful x mem) same
  obtain ⟨s, second, kept⟩ := delivered_next delivered
    (records.filter (fun r => decide (toCbor r ≠ toCbor x)))
    fun r held => accepted r (List.mem_filter.mp held).1
  obtain ⟨t, third, kept'⟩ := delivered_next second records accepted
  have rest : ∀ r ∈ (splitFresh base.recordHashes
      (records.filter (fun r => decide (toCbor r ≠ toCbor x)))).1, kind r = true := by
    intro r held
    by_contra other
    have part := List.mem_filter.mp ((split_fresh_sublist _ _).subset held)
    have old := delivered.hash_kept (List.mem_filter.mpr ⟨part.1, by simp [other]⟩)
    exact (split_fresh_distinct _ _).2 r held old
  -- what is still missing is written like `x`, and there is one such record
  have missing : ∀ r ∈ (splitFresh s.recordHashes records).1, toCbor r = toCbor x := by
    intro r held
    by_contra other
    have old := second.hash_kept (List.mem_append_right _ (List.mem_filter.mpr
      ⟨(split_fresh_sublist _ _).subset held, decide_eq_true other⟩))
    exact (split_fresh_distinct _ _).2 r held old
  have fresh : recordHash x ∉ s.recordHashes := by
    intro held
    obtain ⟨r, kept, same⟩ := (second.hashes _).mp held
    rcases List.mem_append.mp (second.from_given kept) with part | part
    · obtain ⟨mem', other⟩ := mem_base part
      rw [written.written r x (alike r mem' (clean.apart r mem' x mem same)), here] at other
      cases other
    · obtain ⟨mem', other⟩ := List.mem_filter.mp part
      exact of_decide_eq_true other (clean.apart r mem' x mem same)
  obtain ⟨y, last, _⟩ := (mem_split_fresh mem).resolve_left fresh
  have single : (splitFresh s.recordHashes records).1 = [y] := by
    have distinct := (split_fresh_distinct s.recordHashes records).1
    generalize (splitFresh s.recordHashes records).1 = fs at missing last distinct
    match fs with
    | [] => cases last
    | [z] => rw [List.mem_singleton.mp last]
    | z :: z' :: fs =>
      have same : recordHash z = recordHash z' := by
        rw [recordHash, recordHash, missing z (by simp), missing z' (by simp)]
      simp [same] at distinct
  refine ⟨_, t, _, y, third, fun r => ?_, ?_, rest, (split_fresh_sublist _ _).subset last,
    alike y ((split_fresh_sublist _ _).subset last) (missing y last)⟩
  · simp only [List.mem_append, List.mem_filter]
    constructor
    · rintro ((⟨held, _⟩ | ⟨held, _⟩) | held) <;> exact held
    · exact Or.inr
  · rw [kept', kept, single, List.append_assoc]

theorem fold_part {α : Type} (part : Interpretive → α) {rs : List Record}
    (still : ∀ r ∈ rs, ∀ i : Interpretive, part (i.absorbHot r) = part i) (i : Interpretive) :
    part (rs.foldl Interpretive.absorbHot i) = part i := by
  induction rs generalizing i with
  | nil => rfl
  | cons r rs ih =>
    rw [List.foldl_cons, ih fun x mem => still x (List.mem_cons_of_mem _ mem),
      still r List.mem_cons_self]

/-- A part of the layer that the records added later leave alone. -/
theorem same_part {α : Type} {s t : Store} {rs : List Record} (part : Interpretive → α)
    (bare : ∀ i : Interpretive, part i.edgeless = part i) (before : Folded s) (after : Folded t)
    (grown : t.records = s.records ++ rs)
    (still : ∀ r ∈ rs, ∀ i : Interpretive, part (i.absorbHot r) = part i) :
    part t.interp = part s.interp := by
  rw [after.part part bare, before.part part bare, grown, List.foldl_append, fold_part part still]

theorem Delivered.folded {given : List Record} {s : Store} (delivered : Delivered given s)
    (clean : Clean given) : Folded s := (delivered.run clean).choose_spec.1.kept.folded

omit [Unicode] [Blake3] in
/-- The records have nothing under the key. -/
theorem first_relation_none {key : RelKey} {rs : List Record}
    (none : ∀ r, .relation r ∈ rs → relKey r ≠ key) : firstRelation key rs = Option.none := by
  by_contra found
  obtain ⟨r, found⟩ := Option.ne_none_iff_exists'.mp found
  obtain ⟨keyed, mem⟩ := first_relation_some found
  exact none r mem keyed

end Store

/-- Every delivery of the records ends in one digest. -/
def Converges (records : List Record) : Prop :=
  ∀ given given' s t, Store.Delivered given s → Store.Delivered given' t →
    (∀ r, r ∈ given ↔ r ∈ records) → (∀ r, r ∈ given' ↔ r ∈ records) → s.stateHash = t.stateHash

/-- The hash tells apart what the digests of two deliveries of the records take. -/
def StatesApart (records : List Record) : Prop :=
  ∀ given given' s t, Store.Delivered given s → Store.Delivered given' t →
    (∀ r, r ∈ given ↔ r ∈ records) → (∀ r, r ∈ given' ↔ r ∈ records) →
      HashApart [s.stateBytes, t.stateBytes]

namespace Store
variable {records : List Record}

theorem converged_bytes (apart : StatesApart records) (converges : Converges records)
    {given given' : List Record} {s t : Store} (left : Delivered given s)
    (right : Delivered given' t) (same : ∀ r, r ∈ given ↔ r ∈ records)
    (same' : ∀ r, r ∈ given' ↔ r ∈ records) : s.stateBytes = t.stateBytes :=
  apart given given' s t left right same same' _ (by simp) _ (by simp)
    (converges given given' s t left right same same')

def ofKey (key : RelKey) : Record → Bool
  | .relation r => decide (relKey r = key)
  | _ => false

def ofView (id : ViewId) : Record → Bool
  | .view v => decide (v.id = id)
  | _ => false

def ofContention (id : ContentionId) : Record → Bool
  | .contention c => decide (c.id = id)
  | _ => false

omit [Unicode] [Blake3] in
theorem of_key_kind (key : RelKey) : Kind (ofKey key) where
  written r r' same := by
    cases r with
    | relation x =>
      cases r' with
      | relation x' =>
        have bare : x.bare = x'.bare := Record.relation.inj same
        have keys : relKey x = relKey x' := show relKey x.bare = relKey x'.bare by rw [bare]
        rw [ofKey, ofKey, keys]
      | _ => cases same
    | _ =>
      cases r' with
      | relation x' => cases same
      | _ => rfl

omit [Unicode] [Blake3] in
theorem of_view_kind (id : ViewId) : Kind (ofView id) where
  written r r' same := by
    cases r with
    | view x =>
      cases r' with
      | view x' =>
        simp only [Record.written, Record.view.injEq, View.mk.injEq] at same
        rw [ofView, ofView, same.1]
      | _ => cases same
    | _ =>
      cases r' with
      | view x' => cases same
      | _ => rfl

omit [Unicode] [Blake3] in
theorem of_contention_kind (id : ContentionId) : Kind (ofContention id) where
  written r r' same := by
    cases r with
    | contention x =>
      cases r' <;> cases same
      rfl
    | _ =>
      cases r' with
      | contention x' => cases same
      | _ => rfl

omit [Unicode] [Blake3] in
theorem ofKey_spec {key : RelKey} {r : Record} (here : ofKey key r = true) :
    ∃ x, r = .relation x ∧ relKey x = key := by
  cases r <;> simp_all [ofKey]

omit [Unicode] [Blake3] in
theorem ofView_spec {id : ViewId} {r : Record} (here : ofView id r = true) :
    ∃ x, r = .view x ∧ x.id = id := by
  cases r <;> simp_all [ofView]

omit [Unicode] [Blake3] in
theorem ofContention_spec {id : ContentionId} {r : Record} (here : ofContention id r = true) :
    ∃ x, r = .contention x ∧ x.id = id := by
  cases r <;> simp_all [ofContention]

section
variable {s t : Store}

/-- Edges of one first relation add the same to two digests. -/
theorem Level.edge_bytes (level : Level s t) (left : Sound s) (right : Sound t) {key : RelKey}
    (first : firstRelation key s.records = firstRelation key t.records) {r r' : Relation}
    (held : s.interp.relations.get key = some r) (held' : t.interp.relations.get key = some r') :
    edgeBytes r = edgeBytes r' := by
  have edge := left.edges key
  rw [first, ← right.edges, held, held'] at edge
  rw [edge_bytes_bare, edge_bytes_bare, Option.some.inj edge, level.attested key r r' held held']

theorem Level.all_edges (level : Level s t) (left : Sound s) (right : Sound t)
    (first : ∀ key, firstRelation key s.records = firstRelation key t.records) :
    s.interp.relations.entries.flatMap (fun e => edgeBytes e.2) =
      t.interp.relations.entries.flatMap (fun e => edgeBytes e.2) := by
  rw [← BTreeMap.values_flatMap, ← BTreeMap.values_flatMap]
  exact BTreeMap.values_flatMap_eq level.edges fun key r r' held held' =>
    level.edge_bytes left right (first key) held held'

omit [Blake3] in
/-- Digests that agree, where only the edges can differ. -/
theorem Level.edges_agree (level : Level s t) (bytes : s.stateBytes = t.stateBytes)
    (views : s.interp.views = t.interp.views)
    (contentions : s.interp.contentions = t.interp.contentions) :
    s.interp.relations.entries.flatMap (fun e => edgeBytes e.2) =
      t.interp.relations.entries.flatMap (fun e => edgeBytes e.2) := by
  rw [stateBytes, stateBytes, level.units, List.append_cancel_left_eq, layerBytes, layerBytes,
    level.threads, views, level.withdrawals, level.resolutions, contentions,
    List.append_cancel_right_eq] at bytes
  exact bytes

omit [Blake3] in
/-- Digests that agree, where only the views can differ. -/
theorem Level.views_agree (level : Level s t) (bytes : s.stateBytes = t.stateBytes)
    (edges : s.interp.relations.entries.flatMap (fun e => edgeBytes e.2) =
      t.interp.relations.entries.flatMap (fun e => edgeBytes e.2))
    (contentions : s.interp.contentions = t.interp.contentions) :
    s.interp.views.values.flatMap (fun v => toCbor (.view v)) =
      t.interp.views.values.flatMap (fun v => toCbor (.view v)) := by
  rw [stateBytes, stateBytes, level.units, edges, List.append_cancel_left_eq,
    List.append_cancel_left_eq, layerBytes, layerBytes, level.threads, level.withdrawals,
    level.resolutions, contentions, List.append_cancel_right_eq, List.append_cancel_right_eq,
    List.append_cancel_right_eq, List.append_cancel_left_eq] at bytes
  exact bytes

omit [Blake3] in
/-- Digests that agree, where only the contentions can differ. -/
theorem Level.contentions_agree (level : Level s t) (bytes : s.stateBytes = t.stateBytes)
    (edges : s.interp.relations.entries.flatMap (fun e => edgeBytes e.2) =
      t.interp.relations.entries.flatMap (fun e => edgeBytes e.2))
    (views : s.interp.views = t.interp.views)
    (left : (s.interp.contentions.map Contention.id).Nodup)
    (right : (t.interp.contentions.map Contention.id).Nodup) :
    (byId s.interp.contentions).values.flatMap (fun c => toCbor (.contention c)) =
      (byId t.interp.contentions).values.flatMap (fun c => toCbor (.contention c)) := by
  rw [stateBytes, stateBytes, level.units, edges, List.append_cancel_left_eq,
    List.append_cancel_left_eq, layer_bytes_by_id left, layer_bytes_by_id right, level.threads,
    views, level.withdrawals, level.resolutions, List.append_cancel_left_eq] at bytes
  exact bytes

end

omit [Unicode] [Blake3] in
/-- Records added that have no relation of a key do not change which is first. -/
theorem first_relation_grown {s t : Store} {rs : List Record} (grown : t.records = s.records ++ rs)
    {key : RelKey} (none : ∀ r, .relation r ∈ rs → relKey r ≠ key) :
    firstRelation key t.records = firstRelation key s.records := by
  rw [grown, first_relation_append, first_relation_none none, Option.or_none]

/-- Relations given first for a key in two deliveries of one digest are written
alike. -/
theorem relations_agree (clean : Clean records) (apart : StatesApart records)
    (converges : Converges records) {r r' : Relation} (mem : .relation r ∈ records)
    (mem' : .relation r' ∈ records) (keys : relKey r = relKey r') :
    toCbor (.relation r) = toCbor (.relation r') := by
  have kind := of_key_kind (relKey r)
  obtain ⟨base, delivered⟩ := base_delivered clean (ofKey (relKey r))
  have inBase : ∀ x ∈ base.records, ofKey (relKey r) x = false := fun x held =>
    (mem_base (delivered.from_given held)).2
  obtain ⟨given, s, rest, left, same, grown, ofRest⟩ :=
    deliver_first kind clean delivered mem (by simp [ofKey])
  obtain ⟨given', t, rest', right, same', grown', ofRest'⟩ :=
    deliver_first kind clean delivered mem' (by simp [ofKey, keys])
  have bytes := converged_bytes apart converges left right same same'
  have cleanBase := clean.mono fun x held => (@mem_base records (ofKey (relKey r)) x held).1
  have cleanL := clean.mono fun x held => (same x).mp held
  have cleanR := clean.mono fun x held => (same' x).mp held
  have level := left.level right cleanL fun x => (same x).trans (same' x).symm
  have added : ∀ x ∈ .relation r :: rest, ofKey (relKey r) x = true := by
    intro x held
    rcases List.mem_cons.mp held with rfl | held
    · simp [ofKey]
    · exact ofRest x held
  have added' : ∀ x ∈ .relation r' :: rest', ofKey (relKey r) x = true := by
    intro x held
    rcases List.mem_cons.mp held with rfl | held
    · simp [ofKey, keys]
    · exact ofRest' x held
  -- relations touch neither the views nor the contentions
  have still : ∀ {α : Type} (part : Interpretive → α), (∀ i : Interpretive, part i.edgeless = part i) →
      (∀ (i : Interpretive) (x : Relation), part (i.absorbHot (.relation x)) = part i) →
      part s.interp = part t.interp := by
    intro α part bare leaves
    have quiet : ∀ rs : List Record, (∀ x ∈ rs, ofKey (relKey r) x = true) → ∀ x ∈ rs,
        ∀ i : Interpretive, part (i.absorbHot x) = part i := by
      intro rs all x held i
      obtain ⟨y, rfl, _⟩ := ofKey_spec (all x held)
      exact leaves i y
    rw [same_part part bare (delivered.folded cleanBase) (left.folded cleanL) grown (quiet _ added),
      same_part part bare (delivered.folded cleanBase) (right.folded cleanR) grown' (quiet _ added')]
  have edges := level.edges_agree bytes (still Interpretive.views (fun _ => rfl) fun _ _ => rfl)
    (still Interpretive.contentions (fun _ => rfl) fun _ _ => rfl)
  have others : ∀ {u : Store} {rs : List Record}, u.records = base.records ++ rs →
      (∀ x ∈ rs, ofKey (relKey r) x = true) → ∀ key, key ≠ relKey r →
      firstRelation key u.records = firstRelation key base.records := by
    intro u rs grown all key other
    refine first_relation_grown grown fun x held keyed => other ?_
    obtain ⟨y, here, keyed'⟩ := ofKey_spec (all _ held)
    cases here
    exact keyed.symm.trans keyed'
  have first : ∀ {u : Store} {x : Relation} {rs : List Record},
      u.records = base.records ++ .relation x :: rs → relKey x = relKey r →
      firstRelation (relKey r) u.records = some x := by
    intro u x rs grown keyed
    rw [grown, first_relation_append, first_relation_none fun y held keyed' => ?_, Option.none_or]
    · simp [firstRelation, keyed]
    · have other := inBase _ held
      simp [ofKey, keyed'] at other
  obtain ⟨e, held⟩ := Option.isSome_iff_exists.mp
    ((left.edge_held cleanL (relKey r)).mpr ⟨r, (same _).mpr mem, rfl⟩)
  obtain ⟨e', held'⟩ := Option.isSome_iff_exists.mp
    ((right.edge_held cleanR (relKey r)).mpr ⟨r, (same' _).mpr mem, rfl⟩)
  have agree := BTreeMap.last_agrees level.edges (fun key x x' other found found' =>
    level.edge_bytes (left.sound cleanL) (right.sound cleanR)
      ((others grown added key other).trans (others grown' added' key other).symm) found found')
    edges held held'
  rw [edge_bytes_bare, edge_bytes_bare, level.attested _ e e' held held',
    List.append_cancel_right_eq] at agree
  have bareL := (left.sound cleanL).edges (relKey r)
  rw [held, first grown rfl] at bareL
  have bareR := (right.sound cleanR).edges (relKey r)
  rw [held', first grown' keys.symm] at bareR
  rw [Option.some.inj bareL, Option.some.inj bareR] at agree
  exact agree

/-- Records that are no relations leave the edges alike. -/
theorem edges_of_base (level : Level s t) {base : Store} {rs ts : List Record} (left : Sound s)
    (right : Sound t) (grown : s.records = base.records ++ rs)
    (grown' : t.records = base.records ++ ts) (none : ∀ r, .relation r ∉ rs)
    (none' : ∀ r, .relation r ∉ ts) :
    s.interp.relations.entries.flatMap (fun e => edgeBytes e.2) =
      t.interp.relations.entries.flatMap (fun e => edgeBytes e.2) :=
  level.all_edges left right fun _ =>
    (first_relation_grown grown fun r mem => absurd mem (none r)).trans
      (first_relation_grown grown' fun r mem => absurd mem (none' r)).symm

/-- What no view of an id changes, no such records change. -/
theorem quiet_views {α : Type} {id : ViewId} (part : Interpretive → α)
    (leaves : ∀ (i : Interpretive) (x : View), x.id = id → part (i.absorbHot (.view x)) = part i)
    {rs : List Record} (all : ∀ x ∈ rs, ofView id x = true) :
    ∀ x ∈ rs, ∀ i : Interpretive, part (i.absorbHot x) = part i := by
  intro x held i
  obtain ⟨y, rfl, keyed⟩ := ofView_spec (all x held)
  exact leaves i y keyed

theorem other_views {base u : Store} {id : ViewId} {rs : List Record} (before : Folded base)
    (after : Folded u) (grown : u.records = base.records ++ rs)
    (all : ∀ x ∈ rs, ofView id x = true) {j : ViewId} (other : j ≠ id) :
    u.interp.views.get j = base.interp.views.get j := by
  have quiet := quiet_views (fun i => i.views.get j) (fun i x keyed => by
    dsimp only [Interpretive.absorbHot]
    rw [BTreeMap.get_insert, if_neg (by rw [keyed]; exact other)]) all
  exact same_part (fun i => i.views.get j) (fun _ => rfl) before after grown quiet

/-- The view given last is held. -/
theorem last_view {u : Store} {rs : List Record} {x : View} (folded : Folded u)
    (grown : u.records = rs ++ [.view x]) : u.interp.views.get x.id = some x := by
  have part := folded.part Interpretive.views fun _ => rfl
  rw [grown, List.foldl_append] at part
  rw [part]
  dsimp only [List.foldl, Interpretive.absorbHot]
  rw [BTreeMap.get_insert, if_pos rfl]

omit [Unicode] [Blake3] in
theorem no_relation_of_view {id : ViewId} {rs : List Record} (all : ∀ x ∈ rs, ofView id x = true)
    (r : Relation) : .relation r ∉ rs := by
  intro held
  cases all _ held

/-- Views given last for an id in two deliveries of one digest are written alike. -/
theorem views_agree (clean : Clean records) (apart : StatesApart records)
    (converges : Converges records) {v v' : View} (mem : .view v ∈ records)
    (mem' : .view v' ∈ records) (ids : v.id = v'.id) : toCbor (.view v) = toCbor (.view v') := by
  have kind := of_view_kind v.id
  obtain ⟨base, delivered⟩ := base_delivered clean (ofView v.id)
  obtain ⟨given, s, rest, y, left, same, grown, ofRest, _, written⟩ :=
    deliver_last kind clean delivered mem (by simp [ofView])
  obtain ⟨given', t, rest', y', right, same', grown', ofRest', _, written'⟩ :=
    deliver_last kind clean delivered mem' (by simp [ofView, ids])
  have bytes := converged_bytes apart converges left right same same'
  have cleanBase := clean.mono fun x held => (@mem_base records (ofView v.id) x held).1
  have cleanL := clean.mono fun x held => (same x).mp held
  have cleanR := clean.mono fun x held => (same' x).mp held
  have level := left.level right cleanL fun x => (same x).trans (same' x).symm
  have last : ofView v.id y = true := by rw [kind.written y _ written]; simp [ofView]
  have last' : ofView v.id y' = true := by rw [kind.written y' _ written']; simp [ofView, ids]
  obtain ⟨x, rfl, keyed⟩ := ofView_spec last
  obtain ⟨x', rfl, keyed'⟩ := ofView_spec last'
  have all : ∀ z ∈ rest ++ [.view x], ofView v.id z = true := by
    intro z held
    rcases List.mem_append.mp held with held | held
    · exact ofRest z held
    · rw [List.mem_singleton.mp held]
      exact last
  have all' : ∀ z ∈ rest' ++ [.view x'], ofView v.id z = true := by
    intro z held
    rcases List.mem_append.mp held with held | held
    · exact ofRest' z held
    · rw [List.mem_singleton.mp held]
      exact last'
  have folded := delivered.folded cleanBase
  have foldedL := left.folded cleanL
  have foldedR := right.folded cleanR
  have contentions : s.interp.contentions = t.interp.contentions := by
    rw [same_part _ (fun _ => rfl) folded foldedL grown
        (quiet_views Interpretive.contentions (fun _ _ _ => rfl) all),
      same_part _ (fun _ => rfl) folded foldedR grown'
        (quiet_views Interpretive.contentions (fun _ _ _ => rfl) all')]
  have edges := edges_of_base level (left.sound cleanL) (right.sound cleanR) grown grown'
    (no_relation_of_view all) (no_relation_of_view all')
  have agree := level.views_agree bytes edges contentions
  rw [BTreeMap.values_flatMap, BTreeMap.values_flatMap] at agree
  rw [← List.append_assoc] at grown grown'
  have held := last_view foldedL grown
  have held' := last_view foldedR grown'
  rw [keyed] at held
  rw [keyed'] at held'
  rw [List.append_assoc] at grown grown'
  have others : ∀ id w w', id ≠ v.id → s.interp.views.get id = some w →
      t.interp.views.get id = some w' → toCbor (.view w) = toCbor (.view w') := by
    intro id w w' other found found'
    rw [other_views folded foldedL grown all other] at found
    rw [other_views folded foldedR grown' all' other, found] at found'
    rw [Option.some.inj found']
  have here := BTreeMap.last_agrees level.views others agree held held'
  rw [← to_cbor_written (.view v), ← written, ← to_cbor_written (.view v'), ← written',
    to_cbor_written, to_cbor_written]
  exact here

/-- More contentions of an id that is listed are not listed. -/
theorem fold_contentions_known {id : ContentionId} {rs : List Record}
    (all : ∀ r ∈ rs, ofContention id r = true) {i : Interpretive}
    (known : id ∈ i.contentions.map Contention.id) :
    (rs.foldl Interpretive.absorbHot i).contentions = i.contentions := by
  induction rs generalizing i with
  | nil => rfl
  | cons r rs ih =>
    obtain ⟨c, rfl, keyed⟩ := ofContention_spec (all r List.mem_cons_self)
    have held : i.contentions.any (fun e => e.id == c.id) = true := by
      obtain ⟨e, mem, same⟩ := List.mem_map.mp known
      exact List.any_eq_true.mpr ⟨e, mem, by simp [same, keyed]⟩
    have still : i.absorbHot (.contention c) = i := by
      dsimp only [Interpretive.absorbHot]
      rw [if_pos held]
    rw [List.foldl_cons, still]
    exact ih (fun r mem => all r (List.mem_cons_of_mem _ mem)) known

/-- Contentions given first for an id in two deliveries of one digest are written
alike. -/
theorem contentions_agree (clean : Clean records) (apart : StatesApart records)
    (converges : Converges records) {c c' : Contention} (mem : .contention c ∈ records)
    (mem' : .contention c' ∈ records) (ids : c.id = c'.id) :
    toCbor (.contention c) = toCbor (.contention c') := by
  have kind := of_contention_kind c.id
  obtain ⟨base, delivered⟩ := base_delivered clean (ofContention c.id)
  obtain ⟨given, s, rest, left, same, grown, ofRest⟩ :=
    deliver_first kind clean delivered mem (by simp [ofContention])
  obtain ⟨given', t, rest', right, same', grown', ofRest'⟩ :=
    deliver_first kind clean delivered mem' (by simp [ofContention, ids])
  have bytes := converged_bytes apart converges left right same same'
  have cleanBase := clean.mono fun x held => (@mem_base records (ofContention c.id) x held).1
  have cleanL := clean.mono fun x held => (same x).mp held
  have cleanR := clean.mono fun x held => (same' x).mp held
  have level := left.level right cleanL fun x => (same x).trans (same' x).symm
  have all : ∀ x ∈ .contention c :: rest, ofContention c.id x = true := by
    intro x held
    rcases List.mem_cons.mp held with rfl | held
    · simp [ofContention]
    · exact ofRest x held
  have all' : ∀ x ∈ .contention c' :: rest', ofContention c.id x = true := by
    intro x held
    rcases List.mem_cons.mp held with rfl | held
    · simp [ofContention, ids]
    · exact ofRest' x held
  have folded := delivered.folded cleanBase
  have views : s.interp.views = t.interp.views := by
    have leaves : ∀ rs : List Record, (∀ x ∈ rs, ofContention c.id x = true) → ∀ x ∈ rs,
        ∀ i : Interpretive, (i.absorbHot x).views = i.views := by
      intro rs all x held i
      obtain ⟨y, rfl, _⟩ := ofContention_spec (all x held)
      dsimp only [Interpretive.absorbHot]
      split <;> rfl
    rw [same_part Interpretive.views (fun _ => rfl) folded (left.folded cleanL) grown (leaves _ all),
      same_part Interpretive.views (fun _ => rfl) folded (right.folded cleanR) grown' (leaves _ all')]
  have none : ∀ rs : List Record, (∀ x ∈ rs, ofContention c.id x = true) → ∀ r, .relation r ∉ rs := by
    intro rs all r held
    cases all _ held
  have edges := edges_of_base level (left.sound cleanL) (right.sound cleanR) grown grown'
    (none _ all) (none _ all')
  have fresh : ∀ e ∈ base.interp.contentions, e.id ≠ c.id := by
    intro e held keyed
    have told := (delivered.holds cleanBase).contentions.held e held
    have other := (mem_base told).2
    simp [ofContention, keyed] at other
  have listed : ∀ {given : List Record} {u : Store} {x : Contention} {rs : List Record},
      Delivered given u → Clean given → u.records = base.records ++ .contention x :: rs →
      x.id = c.id → (∀ r ∈ rs, ofContention c.id r = true) →
      u.interp.contentions = base.interp.contentions ++ [x] := by
    intro given u x rs delivered clean grown keyed all
    have part := (delivered.folded clean).part Interpretive.contentions fun _ => rfl
    have before := folded.part Interpretive.contentions fun _ => rfl
    rw [grown, List.foldl_append, List.foldl_cons] at part
    have entered : ((base.records.foldl Interpretive.absorbHot {}).absorbHot
        (.contention x)).contentions = base.interp.contentions ++ [x] := by
      dsimp only [Interpretive.absorbHot]
      rw [← before, if_neg]
      intro held
      obtain ⟨e, mem, same⟩ := List.any_eq_true.mp held
      exact fresh e mem (by simpa [keyed] using same)
    rw [part, fold_contentions_known all (by rw [entered]; simp [keyed]), entered]
  have hereL := (left.holds cleanL).contentions.distinct
  have hereR := (right.holds cleanR).contentions.distinct
  have agree := level.contentions_agree bytes edges views hereL hereR
  rw [BTreeMap.values_flatMap, BTreeMap.values_flatMap] at agree
  have inL := listed left cleanL grown rfl ofRest
  have inR := listed right cleanR grown' ids.symm ofRest'
  have others : ∀ id x x', id ≠ c.id → (byId s.interp.contentions).get id = some x →
      (byId t.interp.contentions).get id = some x' →
      toCbor (.contention x) = toCbor (.contention x') := by
    intro id x x' other found found'
    obtain ⟨held, keyed⟩ := (get_by_id hereL id x).mp found
    rw [inL, List.mem_append, List.mem_singleton] at held
    rcases held with held | rfl
    · have again := (get_by_id hereR id x).mpr
        ⟨by rw [inR]; exact List.mem_append_left _ held, keyed⟩
      rw [Option.some.inj (again.symm.trans found')]
    · exact absurd keyed.symm other
  exact BTreeMap.last_agrees level.contentions others agree
    ((get_by_id hereL c.id c).mpr ⟨by simp [inL], rfl⟩)
    ((get_by_id hereR c.id c').mpr ⟨by simp [inR], ids.symm⟩)

/-- Records that agree have one digest, whatever the hash does. -/
theorem states_apart_of_agreeing (clean : Clean records) (agreeing : Agreeing records) :
    StatesApart records := by
  intro given given' s t left right same same' x memX y memY _
  have cleanL := clean.mono fun x held => (same x).mp held
  have agreeL : Agreeing given :=
    ⟨fun r r' mem mem' => agreeing.relations r r' ((same _).mp mem) ((same _).mp mem'),
      fun v v' mem mem' => agreeing.views v v' ((same _).mp mem) ((same _).mp mem'),
      fun c c' mem mem' => agreeing.contentions c c' ((same _).mp mem) ((same _).mp mem')⟩
  have bytes := left.state_bytes_eq right cleanL (fun x => (same x).trans (same' x).symm) agreeL
  simp only [List.mem_cons, List.not_mem_nil, or_false, bytes, or_self] at memX memY
  rw [memX, memY]

/-- The store that one batch makes. -/
def deliverAll (records : List Record) : Store :=
  match new.append records with
  | .ok (s, _, _) => s
  | .error _ => new

theorem deliver_all_delivered (accepted : refuseUnloggable records = .ok ()) :
    Delivered records (deliverAll records) := by
  obtain ⟨s, report, bytes, run⟩ := append_runs ((accepted_iff records).mp accepted) new
  have made : deliverAll records = s := by rw [deliverAll, run]
  rw [made]
  exact Delivered.append .none run

end Store
end

section
local instance plainDeliveryText : Unicode := .plain
local instance modPrimeDeliveryHash : Blake3 := .modPrime

/-- The edge again, with a note. -/
def notedEdge : Relation := { selfEdge ∅ with note := some (selfEdge ∅).src }

namespace Store

end Store
end
end Smysl
