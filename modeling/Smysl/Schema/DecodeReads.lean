import Smysl.Schema.Decode
import Smysl.Cbor.Slots
import Smysl.Cbor.Valid

/-!
What is written of field tables and lens steps is read back: values and conditions first,
then ops by the table of their keys, then steps and fields.
-/
namespace Smysl
open ByteString Cursor Cursor.Parser Dec

section Levels

/-- What one reader reads the other reads to the same end. -/
def Weakens {α : Type} (p q : Parser α) : Prop := ∀ ⦃d r⦄, p d = .ok r → q d = .ok r

variable {α β : Type}

theorem Weakens.refl (p : Parser α) : Weakens p p := fun _ _ run => run

theorem Weakens.bind {p q : Parser α} {f g : α → Parser β} (first : Weakens p q)
    (later : ∀ a, Weakens (f a) (g a)) : Weakens (p >>= f) (q >>= g) := by
  rintro d ⟨b, d₂⟩ run
  obtain ⟨a, d₁, run₁, run₂⟩ := bind_ok run
  rw [bind_of_ok (first run₁)]
  exact later a run₂

theorem Weakens.loop {f g : α → Parser α} (each : ∀ a, Weakens (f a) (g a)) (n : Nat)
    (a : α) :
    Weakens (Parser.loop f n a) (Parser.loop g n a) := by
  induction n generalizing a with
  | zero => exact Weakens.refl _
  | succ n ih => exact Weakens.bind (each a) ih

theorem Weakens.spanned {p q : Parser α} (each : Weakens p q) :
    Weakens (Parser.spanned p) (Parser.spanned q) := by
  intro d r run
  rw [Parser.spanned] at run ⊢
  cases inner : p d with
  | error e =>
    rw [inner] at run
    cases run
  | ok out =>
    rw [inner] at run
    rw [each inner]
    exact run

variable [Unicode]

theorem skip_headed_weakens {p q : Parser Unit} (each : Weakens p q) :
    Weakens (skipHeaded p) (skipHeaded q) := by
  refine Weakens.bind (Weakens.refl _) fun h => Weakens.bind (Weakens.refl _) fun after => ?_
  by_cases number : h.1 = 0 ∨ h.1 = 1
  · rw [if_pos number, if_pos number]
    exact Weakens.refl _
  rw [if_neg number, if_neg number]
  by_cases two : h.1 = 2
  · rw [if_pos two, if_pos two]
    exact Weakens.refl _
  rw [if_neg two, if_neg two]
  by_cases three : h.1 = 3
  · rw [if_pos three, if_pos three]
    exact Weakens.refl _
  rw [if_neg three, if_neg three]
  by_cases four : h.1 = 4
  · rw [if_pos four, if_pos four]
    exact Weakens.loop (fun _ => each) _ _
  rw [if_neg four, if_neg four]
  by_cases five : h.1 = 5
  · rw [if_pos five, if_pos five]
    refine Weakens.bind (Weakens.loop (fun prev => ?_) _ _) fun _ => Weakens.refl _
    refine Weakens.bind (Weakens.refl _) fun kstart => Weakens.bind each.spanned fun key => ?_
    split
    · exact Weakens.refl _
    · split
      · exact Weakens.refl _
      · exact Weakens.bind each fun _ => Weakens.refl _
  · rw [if_neg five, if_neg five]
    exact Weakens.refl _

/-- What is skipped with so many levels allowed is skipped with one more. -/
theorem skip_one_weakens (levels : Nat) : Weakens (skipOne levels) (skipOne (levels + 1)) := by
  induction levels with
  | zero =>
    intro d r run
    cases run
  | succ levels ih =>
    refine Weakens.bind (Weakens.refl _) fun start => Weakens.bind (Weakens.refl _) fun b => ?_
    split
    · exact Weakens.refl _
    · split
      · exact Weakens.refl _
      · exact skip_headed_weakens ih

theorem skips_more {raw : Bytes} {n m : Nat} (more : n ≤ m) (item : Reads (skipOne n) raw ()) :
    Reads (skipOne m) raw () := by
  induction more with
  | refl => exact item
  | step _ ih => exact fun pos tail fits => skip_one_weakens _ (ih pos tail fits)

theorem skip_item_reads {raw : Bytes} {levels : Nat} (few : levels ≤ maxNesting + 1)
    (item : Reads (skipOne levels) raw ()) : Reads skipItem raw raw :=
  Reads.bind_end (Reads.spanned (skips_more few item)) (Reads.pure _)

end Levels

namespace LensCodec

section
variable [Unicode] {α : Type}

omit [Unicode] in
theorem from_start_reads {p : Parser α} {raw : Bytes} {a : α} (reads : Reads p raw a)
    (short : raw.length < Cursor.limit) : fromStart p raw = some a := by
  have run := reads 0 [] (by omega)
  rw [List.append_nil] at run
  rw [fromStart, run]

omit [Unicode] in
theorem wholly_reads {p : Parser α} {raw : Bytes} {a : α} (reads : Reads p raw a)
    (short : raw.length < Cursor.limit) : wholly p raw = some a := by
  have run := reads 0 [] (by omega)
  rw [List.append_nil] at run
  rw [wholly, run]
  rfl

omit [Unicode] in
theorem rev_reads (v : UInt32) : Reads rev (Enc.uint v.toNat) v :=
  Reads.position_bind fun start => uint32_reads start v

theorem texts_read {l : List String} (nfc : ∀ s ∈ l, Nfc s) :
    Reads texts (Enc.array (l.map Enc.text)) l :=
  array_reads (fun s mem => text_reads_all (nfc s mem)) fun _ => inferInstance

/-- A value that is written as it is. -/
def Plain (v : HValue) : Prop := v.normal = v

/-- A condition that is written as it is. -/
structure CondKept (c : Cond) : Prop where
  key : Nfc c.key
  value : Plain c.value

section
variable (settled : ∀ s : String, Nfc (Unicode.nfc s))
include settled

theorem dec_value_reads (v : HValue) : Reads decValue (writeValue v) v.normal := by
  intro pos more fits
  have enough : (writeValue v).length ≤ (writeValue v ++ more).length := by
    rw [List.length_append]
    omega
  exact value_reads settled v _ enough pos more fits

theorem dec_object_reads (o : HObject) : Reads decObject (writeObject o) (normalObject o) := by
  intro pos more fits
  have enough : (writeObject o).length ≤ (writeObject o ++ more).length := by
    rw [List.length_append]
    omega
  exact object_reads settled enough pos more fits

theorem cond_reads {c : Cond} (kept : CondKept c) : Reads readCond (condBytes c) c := by
  have one : normalObject [(c.key, c.value)] = [(c.key, c.value)] := by
    rw [normalObject, normal_entries, List.map_singleton, normalEntry, kept.value,
      normalise_of_nfc kept.key]
    rfl
  have read := dec_object_reads settled [(c.key, c.value)]
  rw [one] at read
  refine Reads.position_bind fun start => Reads.bind_end read ?_
  exact Reads.orFail rfl

end

/-! Ops are read by the table of their keys. -/

def whenSlot (when_ : Option Cond) : Option Bytes := when_.map condBytes

/-- What is written of an op, by its keys. -/
def opSlots (op : LensOp) : List (Option Bytes) :=
  some (Enc.text op.tag) ::
    match op with
    | .renameType src dst => [some (Enc.text src.asStr), some (Enc.text dst.asStr)]
    | .renameRelation src dst => [some (Enc.text src.asStr), some (Enc.text dst.asStr)]
    | .renameKey src dst => [some (Enc.text src), some (Enc.text dst)]
    | .mapValue key map =>
      [some (Enc.text key), some (writeObject (map.entries.map fun e => (e.1, HValue.str e.2)))]
    | .splitValue key src dst add =>
      [some (Enc.text key), some (Enc.text src), some (Enc.text dst),
        some (writeObject add.entries)]
    | .require key when_ => [some (Enc.text key), whenSlot when_]
    | .default key value when_ =>
      [some (Enc.text key), some (writeValue value), whenSlot when_]
    | .retire key => [some (Enc.text key)]

theorem op_bytes_slots (op : LensOp) : opBytes op = Enc.map (keyed (opSlots op)) := by
  cases op <;> simp [opBytes, opSlots, keyedFrom, whenSlot, LensOp.tag]

theorem op_slots_few (op : LensOp) : (opSlots op).length ≤ 5 := by
  cases op <;> simp [opSlots]

/-- The keys of an op, as they are read. -/
structure Table (slots : List (Option Bytes)) (keys : BTreeMap Nat Bytes) : Prop where
  get : ∀ j, keys.get j = (slots[j]?).join
  short : ∀ v, some v ∈ slots → v.length < Cursor.limit

omit [Unicode] in
theorem slot_short {slots : List (Option Bytes)} {v : Bytes} (mem : some v ∈ slots) :
    v.length ≤ (Enc.map (keyed slots)).length := by
  obtain ⟨j, here⟩ := List.mem_iff_getElem?.mp mem
  have found := lookup_keyed j 0 slots
  rw [here, Option.join_some] at found
  have held := OrdMap.lookup_mem found
  have part := @part_le_bytes _ Enc.entry (keyedFrom 0 slots) _ held
  have own : v.length ≤ (Enc.entry (0 + j, v)).length := by
    rw [Enc.entry, List.length_append]
    exact Nat.le_add_left _ _
  rw [sorted_map (keyed_ascending 0 slots), Enc.mapOf, List.length_append]
  omega

theorem table_read {slots : List (Option Bytes)} (few : slots.length < 2 ^ 16)
    (items : ∀ v, some v ∈ slots → Reads skipItem v v)
    (short : (Enc.map (keyed slots)).length < Cursor.limit) :
    ∃ keys, fromStart (readKeyed opArms ∅) (Enc.map (keyed slots)) = some keys ∧
      Table slots keys := by
  have asc := keyed_ascending 0 slots
  have count := keyed_length_le 0 slots
  let add (e : Nat × Bytes) (m : BTreeMap Nat Bytes) : BTreeMap Nat Bytes := m.insert e.1 e.2
  let rows := (keyedFrom 0 slots).map fun e => (e.1, e.2, add e)
  have apart : rows.Pairwise (fun r s => r.1 < s.1) := List.pairwise_map.mpr asc
  have read := keyed_reads opArms rows (fun r mem => by
    obtain ⟨e, held, same⟩ := List.mem_map.mp mem
    have bounds := keyed_key_bounds held
    rw [← same]
    exact ⟨by dsimp only; omega, of_field (items e.2 (slot_of_keyed held)) _⟩) apart
    (by rw [List.length_map]; omega) ∅
  have whole : rows.map (fun r => (r.1, r.2.1)) = keyedFrom 0 slots := by
    rw [List.map_map]
    exact List.map_id _
  have made : rows.foldl (fun s r => r.2.2 s) ∅ = BTreeMap.ofList (keyedFrom 0 slots) := by
    rw [List.foldl_map]
    rfl
  rw [whole, made, ← sorted_map asc] at read
  refine ⟨_, from_start_reads read short, ?_, fun v mem => ?_⟩
  · intro j
    have distinct : ((keyedFrom 0 slots).map Prod.fst).Nodup := OrdMap.ascending_keys_nodup asc
    have found := lookup_keyed j 0 slots
    rw [Nat.zero_add] at found
    rw [BTreeMap.get_ofList distinct, found]
  · exact (slot_short mem).trans_lt short

section Keys
variable {slots : List (Option Bytes)} {keys : BTreeMap Nat Bytes}

omit [Unicode] in
theorem Table.at_ (table : Table slots keys) {k : Nat} {v : Bytes}
    (here : slots[k]? = some (some v)) : keys.get k = some v ∧ v.length < Cursor.limit := by
  refine ⟨?_, table.short v (List.mem_of_getElem? here)⟩
  rw [table.get, here]
  rfl

theorem Table.text_at (table : Table slots keys) {k : Nat} {s : String}
    (here : slots[k]? = some (some (Enc.text s))) (nfc : Nfc s) : textAt keys k = some s := by
  obtain ⟨found, short⟩ := table.at_ here
  rw [textAt, found]
  exact from_start_reads (text_reads_all nfc) short

section
variable (settled : ∀ s : String, Nfc (Unicode.nfc s))
include settled

theorem Table.cond_at (table : Table slots keys) {k : Nat} {when_ : Option Cond}
    (here : slots[k]? = some (whenSlot when_)) (kept : ∀ c ∈ when_, CondKept c) :
    optCond keys k = some when_ := by
  rw [optCond]
  cases when_ with
  | none =>
    have absent : keys.get k = none := by
      rw [table.get, here]
      rfl
    rw [absent]
  | some c =>
    obtain ⟨found, short⟩ := table.at_ here
    rw [found]
    dsimp only
    rw [from_start_reads (cond_reads settled (kept c rfl)) short]
    rfl

theorem Table.object_at (table : Table slots keys) {k : Nat} {o : HObject}
    (here : slots[k]? = some (some (writeObject o))) :
    (keys.get k).bind (fromStart decObject) = some (normalObject o) := by
  obtain ⟨found, short⟩ := table.at_ here
  rw [found]
  exact from_start_reads (dec_object_reads settled o) short

theorem Table.value_at (table : Table slots keys) {k : Nat} {v : HValue}
    (here : slots[k]? = some (some (writeValue v))) (plain : Plain v) :
    (keys.get k).bind (fromStart decValue) = some v := by
  obtain ⟨found, short⟩ := table.at_ here
  have read := dec_value_reads settled v
  rw [plain] at read
  rw [found]
  exact from_start_reads read short

omit [Unicode] settled in
/-- Entries of different keys are all first ones. -/
theorem firsts_apart {l : HObject} (distinct : (l.map Prod.fst).Nodup) :
    Firsts.firsts Prod.fst l = l := by
  induction l with
  | nil => rfl
  | cons a l ih =>
    rw [List.map_cons, List.nodup_cons] at distinct
    rw [Firsts.firsts, ih distinct.2]
    congr 1
    apply List.filter_eq_self.mpr
    intro b mem
    apply decide_eq_true
    intro same
    exact distinct.1 (same ▸ List.mem_map_of_mem mem)

omit settled in
/-- A map of plain values is the normal form of its own entries, in another order. -/
theorem plain_entries_perm {o : HObject} (nfc : ∀ e ∈ o, Nfc e.1)
    (plain : ∀ e ∈ o, Plain e.2)
    (distinct : (o.map Prod.fst).Nodup) : (normalObject o).Perm o := by
  have same : o.map normalEntry = o := by
    refine (List.map_congr_left fun e mem => ?_).trans (List.map_id o)
    rw [normalEntry, plain e mem, normalise_of_nfc (nfc e mem)]
    rfl
  rw [normalObject, normal_entries, same, keysInOrder, firsts_apart distinct]
  exact Firsts.sorted_perm o


end
end Keys

/-- A condition that is kept, within the levels an op leaves it. -/
def WhenKept (when_ : Option Cond) : Prop :=
  ∀ c ∈ when_, CondKept c ∧ (HValue.object [(c.key, c.value)]).fits 126 = true

/-- An op whose texts and values are written as they are, and nested no deeper than is skipped:
126 of the 129 levels are left inside of a step, its ops and the op. -/
def OpKept : HeldOp → Prop
  | .known (.renameType src dst) =>
    (SchemaId.parse src.asStr = some src ∧ Nfc src.asStr) ∧
      SchemaId.parse dst.asStr = some dst ∧ Nfc dst.asStr
  | .known (.renameRelation src dst) =>
    (RelKind.parse src.asStr = some src ∧ Nfc src.asStr) ∧
      RelKind.parse dst.asStr = some dst ∧ Nfc dst.asStr
  | .known (.renameKey src dst) => Nfc src ∧ Nfc dst
  | .known (.mapValue key map) => Nfc key ∧ ∀ e ∈ map.entries, Nfc e.1 ∧ Nfc e.2
  | .known (.splitValue key src dst add) =>
    Nfc key ∧ Nfc src ∧ Nfc dst ∧ (∀ e ∈ add.entries, Nfc e.1 ∧ Plain e.2) ∧
      (HValue.object add.entries).fits 126 = true
  | .known (.require key when_) => Nfc key ∧ WhenKept when_
  | .known (.default key value when_) =>
    Nfc key ∧ (Plain value ∧ value.fits 126 = true) ∧ WhenKept when_
  | .known (.retire key) => Nfc key
  | .unknown tag bytes =>
    readOp bytes = some (.unknown tag bytes) ∧ Reads (skipOne 127) bytes ()

theorem tag_nfc (op : LensOp) : Nfc op.tag := by
  apply nfc_of_ascii
  cases op <;> simp only [LensOp.tag] <;> decide +kernel

omit [Unicode] in
theorem texts_fit {levels : Nat} {entries : List (String × String)} :
    HValue.entriesFit (entries.map fun e => (e.1, HValue.str e.2)) (levels + 1) = true := by
  induction entries with
  | nil => rfl
  | cons e entries ih =>
    rw [List.map_cons, HValue.entriesFit, ih]
    rfl

section
variable (settled : ∀ s : String, Nfc (Unicode.nfc s))
include settled

theorem when_skips {when_ : Option Cond} (kept : WhenKept when_) :
    ∀ v ∈ whenSlot when_, Reads (skipOne 126) v () := by
  intro v mem
  obtain ⟨c, held, same⟩ := Option.mem_map.mp mem
  rw [← same]
  exact object_skips settled (kept c held).2

/-- What is written of an op is items. -/
theorem op_items {op : LensOp} (kept : OpKept (.known op)) :
    ∀ v, some v ∈ opSlots op → Reads (skipOne 126) v () := by
  have text {s : String} (nfc : Nfc s) : Reads (skipOne 126) (Enc.text s) () := text_skips nfc 125
  have tag := text (tag_nfc op)
  have all : ∀ slot ∈ opSlots op, ∀ v ∈ slot, Reads (skipOne 126) v () := by
    cases op with
    | renameType src dst =>
      obtain ⟨⟨_, nfc⟩, _, nfc'⟩ := kept
      simp only [opSlots, List.forall_mem_cons, Option.mem_some_iff, forall_eq']
      exact ⟨tag, text nfc, text nfc', fun _ mem => nomatch mem⟩
    | renameRelation src dst =>
      obtain ⟨⟨_, nfc⟩, _, nfc'⟩ := kept
      simp only [opSlots, List.forall_mem_cons, Option.mem_some_iff, forall_eq']
      exact ⟨tag, text nfc, text nfc', fun _ mem => nomatch mem⟩
    | renameKey src dst =>
      obtain ⟨nfc, nfc'⟩ := kept
      simp only [opSlots, List.forall_mem_cons, Option.mem_some_iff, forall_eq']
      exact ⟨tag, text nfc, text nfc', fun _ mem => nomatch mem⟩
    | mapValue key map =>
      obtain ⟨nfc, _⟩ := kept
      simp only [opSlots, List.forall_mem_cons, Option.mem_some_iff, forall_eq']
      refine ⟨tag, text nfc, object_skips settled ?_, fun _ mem => nomatch mem⟩
      rw [HValue.fits, texts_fit]
      rfl
    | splitValue key src dst add =>
      obtain ⟨nfc, nfcS, nfcD, _, fit⟩ := kept
      simp only [opSlots, List.forall_mem_cons, Option.mem_some_iff, forall_eq']
      exact ⟨tag, text nfc, text nfcS, text nfcD, object_skips settled fit,
        fun _ mem => nomatch mem⟩
    | require key when_ =>
      obtain ⟨nfc, held⟩ := kept
      simp only [opSlots, List.forall_mem_cons, Option.mem_some_iff, forall_eq']
      exact ⟨tag, text nfc, when_skips settled held, fun _ mem => nomatch mem⟩
    | default key value when_ =>
      obtain ⟨nfc, ⟨_, fit⟩, held⟩ := kept
      simp only [opSlots, List.forall_mem_cons, Option.mem_some_iff, forall_eq']
      exact ⟨tag, text nfc, value_skips settled value 126 fit, when_skips settled held,
        fun _ mem => nomatch mem⟩
    | retire key =>
      simp only [opSlots, List.forall_mem_cons, Option.mem_some_iff, forall_eq']
      exact ⟨tag, text kept, fun _ mem => nomatch mem⟩
  exact fun v mem => all _ mem v rfl

/-- An op is an item, at the level it stands at inside of a step. -/
theorem op_skips {op : HeldOp} (kept : OpKept op) : Reads (skipOne 127) (writtenOp op) () := by
  cases op with
  | unknown tag bytes => exact kept.2
  | known op =>
    rw [writtenOp, op_bytes_slots]
    have few := op_slots_few op
    exact keyed_skips (by omega) (op_items settled kept)

end

omit [Unicode] in
/-- The texts of a map of texts. -/
theorem texts_of_perm {o : HObject} {map : BTreeMap String String}
    (perm : o.Perm (map.entries.map fun e => (e.1, HValue.str e.2))) : textsOf o = some map := by
  have shaped : ∀ e ∈ o, ∃ s, e.2 = HValue.str s := by
    intro e mem
    obtain ⟨f, _, same⟩ := List.mem_map.mp (perm.mem_iff.mp mem)
    exact ⟨f.2, same ▸ rfl⟩
  obtain ⟨es, same⟩ :
      ∃ es : List (String × String), o = es.map fun e => (e.1, HValue.str e.2) := by
    clear perm
    induction o with
    | nil => exact ⟨[], rfl⟩
    | cons e o ih =>
      obtain ⟨s, here⟩ := shaped e List.mem_cons_self
      obtain ⟨es, rest⟩ := ih fun f mem => shaped f (List.mem_cons_of_mem e mem)
      refine ⟨(e.1, s) :: es, ?_⟩
      rw [List.map_cons, ← rest, ← here]
  have folded (m : BTreeMap String String) : (es.map fun e => (e.1, HValue.str e.2)).foldlM addText
      m = some (es.foldl (fun m e => m.insert e.1 e.2) m) := by
    clear same
    induction es generalizing m with
    | nil => rfl
    | cons e es ih => exact ih _
  have perm' : es.Perm map.entries := by
    rw [same] at perm
    have apart : Function.Injective fun e : String × String => (e.1, HValue.str e.2) := by
      intro e f same
      obtain ⟨key, text⟩ := Prod.mk.inj same
      exact Prod.ext key (HValue.str.inj text)
    exact (List.map_perm_map_iff apart).mp perm
  rw [textsOf, same, folded]
  exact congrArg some (BTreeMap.ofList_perm perm')


theorem slots_tag (op : LensOp) : (opSlots op)[0]? = some (some (Enc.text op.tag)) := rfl

/-- The keys of a known op are those its tag allows. -/
theorem slots_allowed (op : LensOp) :
    ∃ known, allowed op.tag = some known ∧ ∀ k < (opSlots op).length, k ∈ known := by
  cases op <;> refine ⟨_, rfl, ?_⟩ <;>
    simp only [opSlots, List.length_cons, List.length_nil] <;>
    decide

section
variable (settled : ∀ s : String, Nfc (Unicode.nfc s))
include settled

/-- From the table of its keys an op is read back. -/
theorem known_reads {op : LensOp} (kept : OpKept (.known op)) {keys : BTreeMap Nat Bytes}
    (table : Table (opSlots op) keys) : readKnown keys op.tag = some op := by
  cases op with
  | renameType src dst =>
    obtain ⟨⟨parsed, nfc⟩, parsed', nfc'⟩ := kept
    have one : textAt keys 1 = some src.asStr := table.text_at rfl nfc
    have two : textAt keys 2 = some dst.asStr := table.text_at rfl nfc'
    simp [LensOp.tag, readKnown, one, two, parsed, parsed']
  | renameRelation src dst =>
    obtain ⟨⟨parsed, nfc⟩, parsed', nfc'⟩ := kept
    have one : textAt keys 1 = some src.asStr := table.text_at rfl nfc
    have two : textAt keys 2 = some dst.asStr := table.text_at rfl nfc'
    simp [LensOp.tag, readKnown, one, two, parsed, parsed']
  | renameKey src dst =>
    obtain ⟨nfc, nfc'⟩ := kept
    have one : textAt keys 1 = some src := table.text_at rfl nfc
    have two : textAt keys 2 = some dst := table.text_at rfl nfc'
    simp [LensOp.tag, readKnown, one, two]
  | mapValue key map =>
    obtain ⟨nfc, nfcs⟩ := kept
    have one : textAt keys 1 = some key := table.text_at rfl nfc
    have two := table.object_at settled (k := 2)
      (o := map.entries.map fun e => (e.1, HValue.str e.2)) rfl
    have perm := plain_entries_perm (o := map.entries.map fun e => (e.1, HValue.str e.2))
      (by
        intro e mem
        obtain ⟨f, held, same⟩ := List.mem_map.mp mem
        exact same ▸ (nfcs f held).1)
      (by
        intro e mem
        obtain ⟨f, held, same⟩ := List.mem_map.mp mem
        rw [← same, Plain, HValue.normal, normalise_of_nfc (nfcs f held).2])
      (by
        rw [List.map_map]
        exact map.keys_nodup)
    simp [LensOp.tag, readKnown, one, two, texts_of_perm perm]
  | splitValue key src dst add =>
    obtain ⟨nfc, nfcS, nfcD, plain, _⟩ := kept
    have one : textAt keys 1 = some key := table.text_at rfl nfc
    have two : textAt keys 2 = some src := table.text_at rfl nfcS
    have three : textAt keys 3 = some dst := table.text_at rfl nfcD
    have four := table.object_at settled (k := 4) (o := add.entries) rfl
    have perm := plain_entries_perm (fun e mem => (plain e mem).1) (fun e mem => (plain e mem).2)
      add.keys_nodup
    simp [LensOp.tag, readKnown, one, two, three, four, BTreeMap.ofList_perm perm]
  | require key when_ =>
    obtain ⟨nfc, held⟩ := kept
    have one : textAt keys 1 = some key := table.text_at rfl nfc
    have two : optCond keys 2 = some when_ :=
      table.cond_at settled rfl fun c mem => (held c mem).1
    simp [LensOp.tag, readKnown, one, two]
  | default key value when_ =>
    obtain ⟨nfc, ⟨plain, _⟩, held⟩ := kept
    have one : textAt keys 1 = some key := table.text_at rfl nfc
    have two : (keys.get 2).bind (fromStart decValue) = some value :=
      table.value_at settled rfl plain
    have three : optCond keys 3 = some when_ :=
      table.cond_at settled rfl fun c mem => (held c mem).1
    simp [LensOp.tag, readKnown, one, two, three]
  | retire key =>
    have one : textAt keys 1 = some key := table.text_at rfl kept
    simp [LensOp.tag, readKnown, one]

/-- An op is read back from what is written of it. -/
theorem op_reads {op : HeldOp} (kept : OpKept op)
    (short : (writtenOp op).length < Cursor.limit) : readOp (writtenOp op) = some op := by
  cases op with
  | unknown tag bytes => exact kept.1
  | known op =>
    rw [writtenOp, op_bytes_slots] at short ⊢
    have few := op_slots_few op
    have items : ∀ v, some v ∈ opSlots op → Reads skipItem v v := fun v mem =>
      skip_item_reads (show 126 ≤ maxNesting + 1 by decide) (op_items settled kept v mem)
    obtain ⟨keys, read, table⟩ := table_read (by omega) items short
    have tag : textAt keys 0 = some op.tag := table.text_at (slots_tag op) (tag_nfc op)
    obtain ⟨known, allows, inside⟩ := slots_allowed op
    have foreign : keys.keys.any (fun k => !known.contains k) = false := by
      apply List.any_eq_false.mpr
      intro k mem
      have held := (BTreeMap.mem_keys_iff keys k).mp mem
      rw [BTreeMap.contains, table.get] at held
      have below : k < (opSlots op).length := by
        by_contra beyond
        rw [List.getElem?_eq_none (by omega)] at held
        cases held
      simpa using inside k below
    rw [readOp, read]
    simp only [Option.bind_eq_bind, Option.bind_some, tag, allows, foreign]
    rw [if_neg (by decide), known_reads settled kept table]
    rfl

end

end
end LensCodec
end Smysl
