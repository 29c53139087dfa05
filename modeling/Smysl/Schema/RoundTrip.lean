import Smysl.Schema.DecodeReads

/-!
Lens steps and field tables are read back from what is written of them, and steps that were
read are written back as the bytes they came as.
-/
namespace Smysl.LensCodec
open ByteString Cursor Cursor.Parser Dec

section
variable [Unicode]

theorem skips_nonempty {raw : Bytes} {levels : Nat} (item : Reads (skipOne levels) raw ()) :
    raw ≠ [] := by
  rintro rfl
  have run := item 0 [] (by decide)
  cases levels <;> cases run

omit [Unicode] in
theorem array_reads_each {α : Type} {p : Parser α} {write : α → Bytes} {l : List α}
    (each : ∀ a ∈ l, Reads p (write a) a) (filled : ∀ a ∈ l, write a ≠ []) :
    Reads (array p) (Enc.array (l.map write)) l := by
  refine Reads.of_fits fun fits => ?_
  have count := count_le_bytes filled
  rw [List.flatMap_def] at count
  rw [Enc.array, Enc.arrayHead, List.length_append, Cursor.limit] at fits
  rw [Enc.array, Enc.arrayHead, List.length_map]
  refine Reads.bind (expect_reads (by norm_num) (by omega)) (Reads.times ?_)
  clear count fits
  induction l with
  | nil => exact .nil
  | cons a l ih =>
    exact .cons (each a List.mem_cons_self) (ih (fun b mem => each b (List.mem_cons_of_mem _ mem))
      fun b mem => filled b (List.mem_cons_of_mem _ mem))

theorem read_item_reads {α : Type} {read : Bytes → Option α} {raw : Bytes} {a : α}
    (item : Reads skipItem raw raw) (found : raw.length < Cursor.limit → read raw = some a) :
    Reads (readItem read) raw a := by
  refine Reads.of_fits fun short => Reads.position_bind fun start => Reads.bind_end item ?_
  exact Reads.orFail (found short)

/-! Steps. -/

/-- A step with the bytes that are written of its parts, each op of which is kept. -/
structure Built (s : HeldStep) : Prop where
  bytes : s.bytes = writtenStep ⟨s.src, s.dst, s.ops⟩
  ops : ∀ op ∈ s.ops, OpKept op

/-- A step as it was read from an item. -/
structure Received (s : HeldStep) : Prop where
  read : readStep s.bytes = some s
  item : Reads skipItem s.bytes s.bytes

theorem written_step_slots (s : Parts) : writtenStep s = Enc.map (keyed
    [some (Enc.uint s.src.toNat), some (Enc.uint s.dst.toNat),
      some (Enc.array (s.ops.map writtenOp))]) := rfl

section
variable (settled : ∀ s : String, Nfc (Unicode.nfc s))
include settled

theorem ops_skip {ops : List HeldOp} (kept : ∀ op ∈ ops, OpKept op) :
    Reads (skipOne 128) (Enc.array (ops.map writtenOp)) () := by
  apply array_skips
  · intro raw mem
    obtain ⟨op, held, same⟩ := List.mem_map.mp mem
    exact same ▸ op_skips settled (kept op held)
  · intro raw mem
    obtain ⟨op, held, same⟩ := List.mem_map.mp mem
    exact same ▸ skips_nonempty (op_skips settled (kept op held))

theorem ops_read {ops : List HeldOp} (kept : ∀ op ∈ ops, OpKept op) :
    Reads (array (readItem readOp)) (Enc.array (ops.map writtenOp)) ops := by
  refine array_reads_each (fun op mem => ?_) fun op mem =>
    skips_nonempty (op_skips settled (kept op mem))
  exact read_item_reads (skip_item_reads (by decide) (op_skips settled (kept op mem)))
    (op_reads settled (kept op mem))

theorem step_skips {s : HeldStep} (built : Built s) : Reads (skipOne 129) s.bytes () := by
  rw [built.bytes, written_step_slots]
  refine keyed_skips (show 3 < 2 ^ 16 by norm_num) fun v mem => ?_
  have number (v : UInt32) : Reads (skipOne 128) (Enc.uint v.toNat) () := by
    have skip := uint_skips v.toUInt64 127
    rwa [UInt32.toNat_toUInt64] at skip
  simp only [List.mem_cons, Option.some.injEq, List.not_mem_nil, or_false] at mem
  rcases mem with rfl | rfl | rfl
  · exact number _
  · exact number _
  · exact ops_skip settled built.ops

/-- A step is read back from what is written of it. -/
theorem step_reads {s : HeldStep} (built : Built s) (short : s.bytes.length < Cursor.limit) :
    readStep s.bytes = some s := by
  let slots : List (Option (Bytes × (StepAcc → StepAcc))) :=
    [some (Enc.uint s.src.toNat, fun a => { a with src := some s.src }),
      some (Enc.uint s.dst.toNat, fun a => { a with dst := some s.dst }),
      some (Enc.array (s.ops.map writtenOp), fun a => { a with ops := some s.ops })]
  have each : ∀ i x, slots[i]? = some (some x) →
      ∃ arm, stepArms i = some arm ∧ Reads arm x.1 x.2 := by
    intro i x here
    match i with
    | 0 =>
      cases here
      exact of_field (rev_reads s.src) _
    | 1 =>
      cases here
      exact of_field (rev_reads s.dst) _
    | 2 =>
      cases here
      exact of_field (ops_read settled built.ops) _
    | i + 3 => cases here
  have read := slots_read stepArms (show slots.length < 2 ^ 16 from by simp [slots]) each {}
  change Reads _ (writtenStep ⟨s.src, s.dst, s.ops⟩)
    (StepAcc.mk (some s.src) (some s.dst) (some s.ops)) at read
  rw [← built.bytes] at read
  rw [readStep, from_start_reads read short]
  exact dif_pos s.rises

theorem kept_reads {s : HeldStep} (kept : Built s ∨ Received s) :
    Reads (readItem readStep) s.bytes s := by
  rcases kept with built | received
  · exact read_item_reads (skip_item_reads (le_refl 129) (step_skips settled built))
      (step_reads settled built)
  · exact read_item_reads received.item fun _ => received.read

/-- Steps are read back from what is written of them. -/
theorem steps_read {l : List HeldStep} (kept : ∀ s ∈ l, Built s ∨ Received s)
    (short : (encodeSteps (l.map HeldStep.bytes)).length < Cursor.limit) :
    steps (encodeSteps (l.map HeldStep.bytes)) = some l := by
  refine wholly_reads (array_reads_each (fun s mem => kept_reads settled (kept s mem)) ?_) short
  intro s mem
  rcases kept s mem with built | received
  · exact skips_nonempty (step_skips settled built)
  · intro empty
    have run := received.item
    rw [empty] at run
    have none_ := run 0 [] (by decide)
    cases none_

end

theorem read_step_bytes {raw : Bytes} {s : HeldStep} (read : readStep raw = some s) :
    s.bytes = raw := by
  rw [readStep, Option.bind_eq_some_iff] at read
  obtain ⟨a, _, finished⟩ := read
  rw [StepAcc.finish] at finished
  split at finished
  · split at finished
    · cases finished
      rfl
    · cases finished
  · cases finished

theorem read_item_mirrors : Mirrors (readItem readStep) HeldStep.bytes := by
  refine Yields.position_bind fun start => Yields.bind skip_item_mirrors ?_
  rintro raw _ rfl
  refine Yields.orFail fun s read => ?_
  rw [List.append_nil, read_step_bytes read]

/-- Steps that were read are written back as the bytes they were read from. -/
theorem steps_written {b : Bytes} {l : List HeldStep} (read : steps b = some l) :
    encodeSteps (l.map HeldStep.bytes) = b := by
  rw [steps, wholly] at read
  split at read
  · rename_i l' d run
    split at read
    · rename_i done
      cases read
      obtain ⟨raw, whole, same⟩ := array_mirrors read_item_mirrors run
      rw [List.isEmpty_iff.mp done, List.append_nil] at whole
      exact same.symm.trans whole.symm
    · cases read
  · cases read

/-! Field tables. -/

/-- A field whose texts and conditions are written as they are. -/
structure FieldKept (f : Field) : Prop where
  ty : FieldType.parse f.ty.asString = f.ty
  name : Nfc f.ty.asString
  values : ∀ s ∈ f.values, Nfc s
  note : ∀ s ∈ f.note, Nfc s
  requiredWhen : ∀ c ∈ f.requiredWhen, CondKept c
  literals : ∀ s ∈ f.literals, Nfc s

/-- A sequence that is written only when there is something in it. -/
def filledTexts (l : List String) (set : FieldAcc → FieldAcc) :
    Option (Bytes × (FieldAcc → FieldAcc)) :=
  if l.isEmpty then none else some (Enc.array (l.map Enc.text), set)

/-- What is written of a field, by its keys, and what is made of it when it is read. -/
def fieldSlots (f : Field) : List (Option (Bytes × (FieldAcc → FieldAcc))) :=
  [some (Enc.text f.ty.asString, fun a => { a with ty := some (.parse f.ty.asString) }),
    filledTexts f.values (fun a => { a with values := f.values }),
    f.retiredIn.map fun r => (Enc.uint r.toNat, fun a => { a with retiredIn := some r }),
    f.note.map fun n => (Enc.text n, fun a => { a with note := some n }),
    f.requiredFrom.map fun r => (Enc.uint r.toNat, fun a => { a with requiredFrom := some r }),
    f.requiredWhen.map fun c => (condBytes c, fun a => { a with requiredWhen := some c }),
    filledTexts f.literals (fun a => { a with literals := f.literals })]

theorem put_filled_texts (k : Nat) (l : List String) (set : FieldAcc → FieldAcc) :
    putOpt k ((filledTexts l set).map Prod.fst) (fun v => v) = putArray k (l.map Enc.text) := by
  cases l <;> rfl

theorem field_bytes_slots (f : Field) :
    fieldBytes f = Enc.map (keyed ((fieldSlots f).map (Option.map Prod.fst))) := by
  simp only [fieldBytes, fieldSlots, List.map_cons, List.map_nil, Option.map_some, Option.map_map,
    Function.comp_def, keyedFrom, put_filled_texts, put_opt_some, List.append_nil,
    List.append_assoc]
  simp only [put_opt_map]

theorem field_applied (f : Field) : applied (fieldSlots f) {} =
    ⟨some (.parse f.ty.asString), f.values, f.retiredIn, f.note, f.requiredFrom, f.requiredWhen,
      f.literals⟩ := by
  obtain ⟨ty, values, retiredIn, note, requiredFrom, requiredWhen, literals⟩ := f
  cases values <;> cases retiredIn <;> cases note <;> cases requiredFrom <;>
    cases requiredWhen <;> cases literals <;> rfl

section
variable (settled : ∀ s : String, Nfc (Unicode.nfc s))
include settled

theorem field_slot_reads {f : Field} (kept : FieldKept f) :
    ∀ i x, (fieldSlots f)[i]? = some (some x) →
      ∃ arm, fieldArms i = some arm ∧ Reads arm x.1 x.2 := by
  intro i x here
  have filled {l : List String} {set : FieldAcc → FieldAcc} (found : filledTexts l set = some x) :
      x = (Enc.array (l.map Enc.text), set) := by
    rw [filledTexts] at found
    split at found
    · cases found
    · exact (Option.some.inj found).symm
  match i with
  | 0 =>
    cases here
    exact of_field (text_reads_all kept.name)
      (fun v (a : FieldAcc) => { a with ty := some (.parse v) })
  | 1 =>
    rw [filled (Option.some.inj here)]
    exact of_field (texts_read kept.values) (fun v (a : FieldAcc) => { a with values := v })
  | 2 =>
    obtain ⟨r, _, rfl⟩ := Option.map_eq_some_iff.mp (Option.some.inj here)
    exact of_field (rev_reads r) (fun v (a : FieldAcc) => { a with retiredIn := some v })
  | 3 =>
    obtain ⟨n, held, rfl⟩ := Option.map_eq_some_iff.mp (Option.some.inj here)
    exact of_field (text_reads_all (kept.note n held))
      (fun v (a : FieldAcc) => { a with note := some v })
  | 4 =>
    obtain ⟨r, _, rfl⟩ := Option.map_eq_some_iff.mp (Option.some.inj here)
    exact of_field (rev_reads r) (fun v (a : FieldAcc) => { a with requiredFrom := some v })
  | 5 =>
    obtain ⟨c, held, rfl⟩ := Option.map_eq_some_iff.mp (Option.some.inj here)
    exact of_field (cond_reads settled (kept.requiredWhen c held))
      (fun v (a : FieldAcc) => { a with requiredWhen := some v })
  | 6 =>
    rw [filled (Option.some.inj here)]
    exact of_field (texts_read kept.literals) (fun v (a : FieldAcc) => { a with literals := v })
  | i + 7 => cases here

theorem field_reads {f : Field} (kept : FieldKept f) : Reads readField (fieldBytes f) f := by
  have few : (fieldSlots f).length < 2 ^ 16 := show 7 < 2 ^ 16 by norm_num
  have read := slots_read fieldArms few (field_slot_reads settled kept) {}
  rw [← field_bytes_slots, field_applied] at read
  refine Reads.position_bind fun start => Reads.bind_end read (Reads.orFail ?_)
  rw [FieldAcc.finish, kept.ty]
  rfl

/-- A table whose keys are written as they are, as are its fields. -/
def TableKept (fields : BTreeMap String Field) : Prop :=
  ∀ e ∈ fields.entries, Nfc e.1 ∧ FieldKept e.2

theorem table_reads {fields : BTreeMap String Field} (kept : TableKept fields) :
    Reads fieldTable (textMap (fields.entries.map fun e => (Enc.text e.1, fieldBytes e.2)))
      fields := by
  refine Reads.of_fits fun fits => ?_
  let below (e f : String × Field) : Prop := Enc.text e.1 ≤ Enc.text f.1
  have : Std.Total below := ⟨fun e f => le_total (Enc.text e.1) (Enc.text f.1)⟩
  have : IsTrans (String × Field) below := ⟨fun a b c => le_trans⟩
  let row (e : String × Field) : Bytes := Enc.text e.1 ++ fieldBytes e.2
  generalize sortedBy : fields.entries.insertionSort below = es
  have perm : es.Perm fields.entries := sortedBy ▸ List.perm_insertionSort _ _
  have written : textMap (fields.entries.map fun e => (Enc.text e.1, fieldBytes e.2)) =
      Enc.head 5 es.length ++ es.flatMap row := by
    simp only [textMap]
    rw [← List.map_insertionSort below _ (fun e => (Enc.text e.1, fieldBytes e.2)) _
      fun _ _ _ _ => Iff.rfl, sortedBy, List.length_map, List.flatMap_map]
    rfl
  have nfc : ∀ e ∈ es, Nfc e.1 := fun e mem => (kept e (perm.mem_iff.mp mem)).1
  rw [written] at fits ⊢
  rw [List.length_append, Cursor.limit] at fits
  have count := @count_le_bytes _ row es fun e _ =>
    List.append_ne_nil_of_left_ne_nil (solid_nonempty (Enc.text e.1)) _
  have part (e : String × Field) (mem : e ∈ es) : (Enc.text e.1).length < 2 ^ 64 := by
    have here := @part_le_bytes _ row es e mem
    rw [List.length_append] at here
    omega
  have ordered : es.Pairwise (fun e f => KeyOrdered e.1 f.1) := by
    have sorted : es.Pairwise below := sortedBy ▸ List.pairwise_insertionSort below fields.entries
    have nodup : (es.map Prod.fst).Nodup := (perm.map Prod.fst).nodup_iff.mpr fields.keys_nodup
    refine (sorted.and (List.pairwise_map.mp nodup)).imp_of_mem fun {e f} memE memF both => ?_
    have length := text_length e.1
    rw [normalise_of_nfc (nfc e memE)] at length
    have bound := part e memE
    refine key_ordered_of_lt (nfc e memE) (nfc f memF) (by omega) (lt_of_le_of_ne both.1 ?_)
    intro same
    have readF := text_reads_all (nfc f memF)
    rw [← same] at readF
    exact both.2 (Reads.unique (text_reads_all (nfc e memE)) readF (part e memE))
  refine Reads.bind (expect_reads (by norm_num) (by omega)) ?_
  refine Reads.loop_ascending_bind (fun m e => m.insert e.1 e.2) (fun st e mem above => ?_) ordered
    fun last => ?_
  · refine Reads.position_bind fun start => Reads.bind (text_reads_all (nfc e mem)) ?_
    have passed : ¬ (st.1.any (fun p => ¬ KeyOrdered p e.1)) = true := by
      simp only [Option.any_eq_true, decide_eq_true_eq, not_exists, not_and, not_not]
      exact above
    rw [if_neg passed]
    have read := field_reads settled (kept e (perm.mem_iff.mp mem)).2
    exact Reads.bind_end read (Reads.pure _)
  · have same : es.foldl (fun m e => m.insert e.1 e.2) ∅ = fields := BTreeMap.ofList_perm perm
    rw [same]
    exact Reads.pure fields

/-- A field table is read back from what is written of it. -/
theorem shape_reads {fields : BTreeMap String Field} (kept : TableKept fields)
    (short : (encodeShape fields).length < Cursor.limit) :
    shape (encodeShape fields) = some fields := by
  let slots : List (Option (Bytes × (Option (BTreeMap String Field) →
      Option (BTreeMap String Field)))) :=
    [some (textMap (fields.entries.map fun e => (Enc.text e.1, fieldBytes e.2)),
      fun _ => some fields)]
  have each : ∀ i x, slots[i]? = some (some x) →
      ∃ arm, shapeArms i = some arm ∧ Reads arm x.1 x.2 := by
    intro i x here
    match i with
    | 0 =>
      cases here
      exact of_field (table_reads settled kept) fun v _ => some v
    | i + 1 => cases here
  have read := slots_read shapeArms (show slots.length < 2 ^ 16 from by simp [slots]) each none
  change Reads _ (encodeShape fields) (some fields) at read
  rw [shape, wholly_reads read short]
  rfl

end

/-- Steps and field tables that are written as they are are read back, and steps that were read
are written back byte for byte. -/
theorem lens_records_kept (settled : ∀ s : String, Nfc (Unicode.nfc s)) :
    (∀ l : List HeldStep, (∀ s ∈ l, Built s ∨ Received s) →
      (encodeSteps (l.map HeldStep.bytes)).length < Cursor.limit →
        steps (encodeSteps (l.map HeldStep.bytes)) = some l) ∧
    (∀ fields : BTreeMap String Field, TableKept fields →
      (encodeShape fields).length < Cursor.limit → shape (encodeShape fields) = some fields) ∧
    (∀ (b : Bytes) (l : List HeldStep), steps b = some l →
      encodeSteps (l.map HeldStep.bytes) = b) :=
  ⟨fun _ kept short => steps_read settled kept short,
    fun _ kept short => shape_reads settled kept short, fun _ _ read => steps_written read⟩

end

section Examples

local instance plainLensText : Unicode := .plain

/-- A value is split off with a key of its own, which then is required and given a default. -/
def splitOps : List HeldOp :=
  [.known (.renameKey "owner" "holder"),
    .known (.splitValue "state" "open" "held" (BTreeMap.ofList [("by", .str "nobody")])),
    .known (.require "by" (some ⟨"state", .str "held"⟩)),
    .known (.default "by" (.array [.str "nobody", .int 3]) (some ⟨"state", .str "held"⟩))]

def splitStep : HeldStep where
  src := 1
  dst := 2
  ops := splitOps
  bytes := writtenStep ⟨1, 2, splitOps⟩
  rises := first_rises

theorem split_built : Built splitStep where
  bytes := rfl
  ops op mem := by
    have when_ : WhenKept (some ⟨"state", .str "held"⟩) := by
      intro c held
      cases held
      exact ⟨⟨rfl, rfl⟩, rfl⟩
    simp only [splitStep, splitOps, List.mem_cons, List.not_mem_nil, or_false] at mem
    rcases mem with rfl | rfl | rfl | rfl
    · exact ⟨rfl, rfl⟩
    · refine ⟨rfl, rfl, rfl, ?_, rfl⟩
      intro e held
      cases List.mem_singleton.mp held
      exact ⟨rfl, rfl⟩
    · exact ⟨rfl, when_⟩
    · exact ⟨rfl, ⟨rfl, rfl⟩, when_⟩

theorem split_kept :
    steps (encodeSteps ([splitStep].map HeldStep.bytes)) = some [splitStep] :=
  (lens_records_kept fun _ => rfl).1 [splitStep]
    (fun s mem => Or.inl (List.mem_singleton.mp mem ▸ split_built)) (by decide +kernel)

/-- A value within so many arrays. -/
def nested : Nat → HValue
  | 0 => .int 0
  | n + 1 => .array [nested n]

def defaultOf (value : HValue) : Bytes :=
  writtenStep ⟨1, 2, [.known (.default "k" value none)]⟩

/-- The float that a step's default is. -/
def floatOf (s : HeldStep) : List F64 :=
  s.ops.filterMap fun
    | .known (.default _ (.float f) _) => some f
    | _ => none

def tenth : F64 := ⟨false, 1019, 2702159776422298⟩

def namedOther : Field where
  ty := .other "text"
  values := []
  retiredIn := none
  note := none
  requiredFrom := none
  requiredWhen := none
  literals := []

/-- What the types can hold and is not read back: a step that does not rise, a default of null,
one nested too deep and one that is not a quantised float, and a type named as a known one is. -/
theorem lens_records_lost :
    steps (encodeSteps [writtenStep ⟨2, 1, []⟩]) = none ∧
    steps (encodeSteps [defaultOf .null]) = none ∧
    steps (encodeSteps [defaultOf (nested 126)]) = none ∧
    (steps (encodeSteps [defaultOf (.float tenth)])).map (fun l => l.flatMap floatOf) ≠
      some [tenth] ∧
    (shape (encodeShape (BTreeMap.ofList [("k", namedOther)]))).map (fun m =>
      m.values.map Field.ty) = some [.text] := by
  refine ⟨rfl, rfl, ?_, ?_, rfl⟩ <;> decide +kernel

end Examples
end Smysl.LensCodec
