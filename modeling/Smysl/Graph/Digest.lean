import Smysl.Cbor.RoundTrip
import Smysl.Graph.Adjacency

/-!
The digest of what merging has to converge on, and when two stores that differ
in who attested their edges have the same one.
-/
namespace Smysl
open ByteString

section
variable [Unicode]

/-- Attestations as the digest takes them, in order. -/
def attestationsBytes (as : BTreeSet Attestation) : Bytes :=
  as.toList.flatMap (fun a => toCbor (.attestation a))

/-- What a part adds to the digest may grow with it and never stays the same. -/
theorem attestations_bytes_grow {as bs : BTreeSet Attestation} (part : ∀ a ∈ as, a ∈ bs) :
    (attestationsBytes as).length ≤ (attestationsBytes bs).length ∧
      ((attestationsBytes as).length = (attestationsBytes bs).length → as = bs) := by
  have inside : as.toList.Sublist bs.toList := by
    refine List.sublist_of_subperm_of_pairwise (List.subperm_of_subset as.toList_nodup ?_)
      as.toList_pairwise bs.toList_pairwise
    intro a mem
    rw [BTreeSet.mem_toList] at mem ⊢
    exact part a mem
  have general : ∀ {xs ys : List Attestation}, xs.Sublist ys →
      (xs.flatMap (fun a => toCbor (.attestation a))).length ≤
        (ys.flatMap (fun a => toCbor (.attestation a))).length ∧
      ((xs.flatMap (fun a => toCbor (.attestation a))).length =
        (ys.flatMap (fun a => toCbor (.attestation a))).length → xs = ys) := by
    intro xs ys sub
    induction sub with
    | slnil => exact ⟨le_rfl, fun _ => rfl⟩
    | cons a _ ih =>
      have some := List.length_pos_of_ne_nil (to_cbor_nonempty (.attestation a))
      rw [List.flatMap_cons, List.length_append]
      exact ⟨by omega, fun same => by omega⟩
    | cons_cons a _ ih =>
      rw [List.flatMap_cons, List.flatMap_cons, List.length_append, List.length_append]
      exact ⟨by omega, fun same => by rw [ih.2 (by omega)]⟩
  exact ⟨(general inside).1, fun same => BTreeSet.toList_inj.mp ((general inside).2 same)⟩

namespace Store

def unitBytes (uid : Uid) (u : HeldUnit) : Bytes := uid.asBytes ++ attestationsBytes u.attestations

def edgeBytes (r : Relation) : Bytes := toCbor (.relation r) ++ attestationsBytes r.attestations

/-- What the digest takes of the layer besides its relations. -/
def layerBytes (i : Interpretive) : Bytes :=
  i.threads.values.flatMap (fun t => toCbor (.thread t)) ++
  i.views.values.flatMap (fun v => toCbor (.view v)) ++
  i.withdrawals.values.flatMap (fun set =>
    set.toList.flatMap (fun w => toCbor (.withdrawal w))) ++
  i.resolutions.toList.flatMap (fun r => toCbor (.resolution r)) ++
  (i.contentions.insertionSort (fun a b => a.id ≤ b.id)).flatMap (fun c => toCbor (.contention c))

/-- The bytes `state_hash_of` hashes. -/
def stateBytes (s : Store) : Bytes :=
  s.units.entries.flatMap (fun e => unitBytes e.1 e.2) ++
    (s.interp.relations.entries.flatMap (fun e => edgeBytes e.2) ++ layerBytes s.interp)

def stateHash [Blake3] (s : Store) : Bytes32 := hashBytes s.stateBytes

theorem edge_bytes_bare (r : Relation) :
    edgeBytes r = toCbor (.relation r.bare) ++ attestationsBytes r.attestations := rfl

/-- Two stores that hold the same things: the units attested alike, the edges of
one with some of the attestations the other has. -/
structure Within (s t : Store) : Prop where
  units : ∀ uid, (s.units.get uid).isSome = (t.units.get uid).isSome
  attested : ∀ uid u v, s.units.get uid = some u → t.units.get uid = some v →
    u.attestations = v.attestations
  edges : ∀ key, (s.interp.relations.get key).map Relation.bare =
    (t.interp.relations.get key).map Relation.bare
  fewer : ∀ key r r', s.interp.relations.get key = some r → t.interp.relations.get key = some r' →
    ∀ a ∈ r.attestations, a ∈ r'.attestations
  layer : s.interp.edgeless = t.interp.edgeless

omit [Unicode] in
theorem Within.bare {s t : Store} (within : Within s t) {key : RelKey} {r r' : Relation}
    (left : s.interp.relations.get key = some r) (right : t.interp.relations.get key = some r') :
    r.bare = r'.bare := by
  have same := within.edges key
  rw [left, right] at same
  exact Option.some.inj same

/-- The digests agree exactly when no edge has fewer attestations. -/
theorem Within.state_bytes_eq_iff {s t : Store} (within : Within s t) :
    s.stateBytes = t.stateBytes ↔
      ∀ key r r', s.interp.relations.get key = some r → t.interp.relations.get key = some r' →
        ∀ a ∈ r'.attestations, a ∈ r.attestations := by
  have units : s.units.entries.flatMap (fun e => unitBytes e.1 e.2) =
      t.units.entries.flatMap (fun e => unitBytes e.1 e.2) :=
    BTreeMap.entries_flatMap_eq within.units fun uid u v left right => by
      rw [unitBytes, unitBytes, within.attested uid u v left right]
  have layer : layerBytes s.interp = layerBytes t.interp :=
    show layerBytes s.interp.edgeless = layerBytes t.interp.edgeless by rw [within.layer]
  have keys : ∀ key, (s.interp.relations.get key).isSome = (t.interp.relations.get key).isSome := by
    intro key
    rw [← Option.isSome_map, within.edges, Option.isSome_map]
  rw [stateBytes, stateBytes, units, layer, List.append_cancel_left_eq, List.append_cancel_right_eq]
  constructor
  · intro same key r r' left right a mem
    have length := BTreeMap.lengths_agree keys (fun key r r' left right => by
      rw [edge_bytes_bare, edge_bytes_bare, List.length_append, List.length_append,
        within.bare left right]
      exact Nat.add_le_add_left (attestations_bytes_grow (within.fewer key r r' left right)).1 _)
      (congrArg List.length same) left right
    rw [edge_bytes_bare, edge_bytes_bare, List.length_append, List.length_append,
      within.bare left right, Nat.add_left_cancel_iff] at length
    rw [(attestations_bytes_grow (within.fewer key r r' left right)).2 length]
    exact mem
  · intro all
    refine @BTreeMap.entries_flatMap_eq _ _ _ _ _ (fun _ => edgeBytes) (fun _ => edgeBytes) _ _
      keys fun key r r' left right => ?_
    rw [edge_bytes_bare, edge_bytes_bare, within.bare left right, BTreeSet.ext_mem fun a =>
      ⟨within.fewer key r r' left right a, all key r r' left right a⟩]

end Store
end
end Smysl
