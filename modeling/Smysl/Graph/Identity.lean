import Smysl.Cbor.ValueReads
import Smysl.Graph.Sound

/-!
What makes two records the same record: the hash of the encoding. An encoding
names the type of its record and has its payload, so as long as the hash tells
the encodings at hand apart, dropping repeats loses no unit.
-/
namespace Smysl
open ByteString Dec

/-- An unknown record is of a type this build has no decoder for. -/
def Record.Genuine : Record → Prop
  | unknown code _ => code ∉ known
  | _ => True

instance : (r : Record) → Decidable r.Genuine
  | .unknown code _ => inferInstanceAs (Decidable (code ∉ Record.known))
  | .unit _ | .attestation _ | .relation _ | .thread _ | .view _ | .contention _ | .packInfo _
  | .schemaDecl _ | .labelBinding _ | .withdrawal _ | .resolution _ | .commit _ | .manifest _
  | .partText _ | .partReading _ | .dating _ | .redaction _ => isTrue trivial

section
variable [Unicode]

omit [Unicode] in
theorem uint_length (n : Nat) : (Enc.uint n).length ≤ 9 := by
  unfold Enc.uint Enc.head
  split_ifs <;> simp

/-- An encoding determines the type and the payload. -/
theorem to_cbor_parts {r r' : Record} (same : toCbor r = toCbor r') :
    r.typeCode = r'.typeCode ∧ payloadBytes r = payloadBytes r' := by
  rw [toCbor, toCbor, List.append_assoc, List.append_assoc, List.append_cancel_left_eq] at same
  have fits : ∀ c : UInt64, 0 + (Enc.uint c.toNat).length < Cursor.limit := by
    intro c
    have short := uint_length c.toNat
    rw [Cursor.limit]
    omega
  have left := uint_reads r.typeCode 0 (payloadBytes r) (fits _)
  have right := uint_reads r'.typeCode 0 (payloadBytes r') (fits _)
  rw [same, right] at left
  injection left with parts
  injection parts with code rest
  injection rest with _ payload
  exact ⟨code.symm, payload.symm⟩

/-- What is encoded as a unit is one, with the same hashed bytes. -/
theorem unit_of_same_bytes {r : Record} {core : UnitCore} (genuine : r.Genuine)
    (same : toCbor r = toCbor (.unit core)) :
    ∃ core', r = .unit core' ∧ unitCoreBytes core' = unitCoreBytes core := by
  obtain ⟨code, payload⟩ := to_cbor_parts same
  cases r with
  | unit core' => exact ⟨core', rfl, payload⟩
  | unknown c p =>
    rw [Record.typeCode, Record.typeCode] at code
    subst code
    exact absurd (by decide) genuine
  | _ =>
    simp only [Record.typeCode] at code
    exact absurd code (by decide)

end

section
variable [Unicode] [Blake3]

/-- The hash tells the encodings of these records apart. -/
def NoCollision (records : List Record) : Prop :=
  ∀ r ∈ records, ∀ r' ∈ records, Store.recordHash r = Store.recordHash r' → toCbor r = toCbor r'

instance (records : List Record) : Decidable (NoCollision records) :=
  inferInstanceAs (Decidable (∀ r ∈ records, ∀ r' ∈ records,
    Store.recordHash r = Store.recordHash r' → toCbor r = toCbor r'))

namespace Store

theorem split_fresh_sublist (held : BTreeSet Bytes32) (rs : List Record) :
    (splitFresh held rs).1.Sublist rs := by
  induction rs generalizing held with
  | nil => exact List.Sublist.refl []
  | cons r rs ih =>
    rw [splitFresh]
    split
    · exact (ih held).cons r
    · exact (ih _).cons_cons r

/-- No hash is kept twice, and none that was held. -/
theorem split_fresh_distinct (held : BTreeSet Bytes32) (rs : List Record) :
    ((splitFresh held rs).1.map recordHash).Nodup ∧
      ∀ r ∈ (splitFresh held rs).1, recordHash r ∉ held := by
  induction rs generalizing held with
  | nil => exact ⟨List.nodup_nil, fun r mem => nomatch mem⟩
  | cons r rs ih =>
    rw [splitFresh]
    split
    · exact ih held
    · rename_i fresh
      obtain ⟨distinct, beyond⟩ := ih (held.insert (recordHash r))
      refine ⟨List.nodup_cons.mpr ⟨fun again => ?_, distinct⟩, fun x mem => ?_⟩
      · obtain ⟨x, mem, same⟩ := List.mem_map.mp again
        exact beyond x mem (by rw [same]; simp)
      · rcases List.mem_cons.mp mem with rfl | mem
        · exact fresh
        · exact fun old => beyond x mem (by simp [old])

/-- Records that are all fresh are all kept. -/
theorem split_fresh_of_distinct {held : BTreeSet Bytes32} {rs : List Record}
    (distinct : (rs.map recordHash).Nodup) (beyond : ∀ r ∈ rs, recordHash r ∉ held) :
    splitFresh held rs = (rs, []) := by
  induction rs generalizing held with
  | nil => rfl
  | cons r rs ih =>
    obtain ⟨other, distinct⟩ := List.nodup_cons.mp distinct
    have later : splitFresh (held.insert (recordHash r)) rs = (rs, []) := by
      refine ih distinct fun x mem => ?_
      rw [BTreeSet.mem_insert]
      rintro (same | old)
      · exact other (List.mem_map.mpr ⟨x, mem, same⟩)
      · exact beyond x (List.mem_cons_of_mem _ mem) old
    rw [splitFresh, if_neg (beyond r List.mem_cons_self), later]

/-- Dropping repeats keeps the unit first recorded under a uid, where the hash
tells the records apart. -/
theorem split_fresh_first_unit {rs : List Record} (apart : NoCollision rs)
    (genuine : ∀ r ∈ rs, r.Genuine) (uid : Uid) :
    firstUnit uid (splitFresh ∅ rs).1 = firstUnit uid rs := by
  -- what is held already is no unit of this uid
  have general : ∀ (rs : List Record) (held : BTreeSet Bytes32), NoCollision rs →
      (∀ r ∈ rs, r.Genuine) → (∀ r ∈ rs, recordHash r ∈ held → firstUnit uid [r] = none) →
      firstUnit uid (splitFresh held rs).1 = firstUnit uid rs := by
    intro rs
    induction rs with
    | nil =>
      intro held _ _ _
      rfl
    | cons r rs ih =>
      intro held apart genuine old
      have both := first_unit_append uid [r] rs
      rw [List.singleton_append] at both
      have apart' : NoCollision rs := fun x memX y memY =>
        apart x (List.mem_cons_of_mem _ memX) y (List.mem_cons_of_mem _ memY)
      have genuine' : ∀ x ∈ rs, x.Genuine := fun x mem => genuine x (List.mem_cons_of_mem _ mem)
      rw [splitFresh]
      split
      · rename_i again
        rw [both, old r List.mem_cons_self again, Option.none_or]
        exact ih held apart' genuine' fun x mem => old x (List.mem_cons_of_mem _ mem)
      · have kept := first_unit_append uid [r] (splitFresh (held.insert (recordHash r)) rs).1
        rw [List.singleton_append] at kept
        rw [kept, both]
        cases here : firstUnit uid [r] with
        | some core => rfl
        | none =>
          rw [Option.none_or, Option.none_or]
          refine ih _ apart' genuine' fun x mem held' => ?_
          rcases (BTreeSet.mem_insert _ _ _).mp held' with same | held'
          · by_contra found
            obtain ⟨core, found⟩ := Option.ne_none_iff_exists'.mp found
            obtain ⟨named, single⟩ := first_unit_some found
            rw [← List.mem_singleton.mp single] at same mem
            have bytes := apart r List.mem_cons_self _ (List.mem_cons_of_mem _ mem) same.symm
            obtain ⟨core', rfl, hashed⟩ := unit_of_same_bytes (genuine r List.mem_cons_self) bytes
            have first := @first_unit_of_mem _ _ [.unit core'] core' List.mem_cons_self
            rw [canonicalUid, hashed, ← canonicalUid, named, here] at first
            cases first
          · exact old x (List.mem_cons_of_mem _ mem) held'
  exact general rs ∅ apart genuine fun r _ held => absurd held (BTreeSet.not_mem_emptyCollection _)

end Store
end
end Smysl
