import Smysl.Cbor.Canonical
import Smysl.Cbor.Valid

/-!
Every valid record is read back from its encoding. A payload map is read slot
by slot: each slot of the encoder that is filled takes what was collected one
field further, and the unknown keys come last.
-/
namespace Smysl
open ByteString Cursor Cursor.Parser Dec OrdMap

section
variable {σ : Type}

/-- Reading the filled slots from key `k` on takes `s` to `t`. -/
inductive Stages (arms : Arms σ) : Nat → σ → List (Option Bytes) → σ → Prop
  | done (k : Nat) (s : σ) : Stages arms k s [] s
  | skip {k : Nat} {s t : σ} {slots : List (Option Bytes)} (later : Stages arms (k + 1) s slots t) :
    Stages arms k s (none :: slots) t
  | read {k : Nat} {s t : σ} {slots : List (Option Bytes)} {arm : Parser (σ → σ)} {update : σ → σ}
    {raw : Bytes} (known : arms k = some arm) (reads : Reads arm raw update) (solid : Solid raw)
    (later : Stages arms (k + 1) (update s) slots t) : Stages arms k s (some raw :: slots) t

namespace Stages
variable {arms : Arms σ} {k : Nat} {s t : σ} {slots : List (Option Bytes)} {α : Type}
  {p : Parser α}

theorem field_reads {set : α → σ → σ} {raw : Bytes} {v : α} {arm : Parser (σ → σ)}
    (known : field p set = some arm) (reads : Reads p raw v) : Reads arm raw (set v) := by
  cases known
  exact Reads.bind_end reads (Reads.pure (set v))

/-- A field that is always written. -/
theorem here {set : α → σ → σ} {raw : Bytes} {v : α} [solid : Solid raw] (reads : Reads p raw v)
    (known : arms k = field p set) (later : Stages arms (k + 1) (set v s) slots t) :
    Stages arms k s (some raw :: slots) t :=
  .read known (field_reads rfl reads) solid later

/-- A field that is written when it has a value. -/
theorem opt (fill : Option α → σ → σ) {write : α → Bytes} {o : Option α}
    [solid : ∀ v, Solid (write v)] (reads : ∀ v ∈ o, Reads p (write v) v)
    (known : arms k = field p (fun v => fill (some v))) (blank : fill none s = s)
    (later : Stages arms (k + 1) (fill o s) slots t) :
    Stages arms k s (o.map write :: slots) t := by
  cases o with
  | none =>
    rw [blank] at later
    exact .skip later
  | some v => exact .read known (field_reads rfl (reads v rfl)) (solid v) later

/-- A field that is written unless it is empty. -/
theorem shown {fill : α → σ → σ} {v : α} {present : Bool} {raw : Bytes} [solid : Solid raw]
    (reads : Reads p raw v) (known : arms k = field p fill)
    (blank : present = false → fill v s = s) (later : Stages arms (k + 1) (fill v s) slots t) :
    Stages arms k s (slotWhen present raw :: slots) t := by
  cases present with
  | false =>
    rw [blank rfl] at later
    exact .skip later
  | true => exact .read known (field_reads rfl reads) solid later

/-- A field that is written when it is true. -/
theorem flag {fill : Bool → σ → σ} {b : Bool} {raw : Bytes} [solid : Solid raw]
    {p : Parser Bool} (reads : Reads p raw true) (known : arms k = field p fill)
    (blank : fill false s = s) (later : Stages arms (k + 1) (fill b s) slots t) :
    Stages arms k s (slotWhen b raw :: slots) t := by
  cases b with
  | false =>
    rw [blank] at later
    exact .skip later
  | true => exact .read known (field_reads rfl reads) solid later

/-- A field that is kept as the item it is. -/
theorem item [Unicode] (fill : Option Bytes → σ → σ) {o : Option Bytes}
    (items : ∀ raw ∈ o, IsItem raw) (known : arms k = field skipItem (fun v => fill (some v)))
    (blank : fill none s = s) (later : Stages arms (k + 1) (fill o s) slots t) :
    Stages arms k s (o :: slots) t := by
  cases o with
  | none =>
    rw [blank] at later
    exact .skip later
  | some raw =>
    have whole := items raw rfl
    exact .read known (field_reads rfl whole.reads) (item_solid whole) later

end Stages

theorem rounds_append {α : Type} {step : α → α → Bytes → Prop} {m n : Nat} {a b c : α}
    {raw₁ raw₂ : Bytes} (first : Rounds step m a b raw₁) (later : Rounds step n b c raw₂) :
    Rounds step (m + n) a c (raw₁ ++ raw₂) := by
  induction first with
  | done a =>
    rw [Nat.zero_add, List.nil_append]
    exact later
  | next once _ ih =>
    rw [Nat.succ_add, List.append_assoc]
    exact .next once (ih later)

theorem map_key_reads {prev : Option Nat} {k : Nat} (small : k < 2 ^ 16)
    (above : ∀ p ∈ prev, p < k) : Reads (mapKey prev) (Enc.uint k) k := by
  have value : (UInt64.ofNat k).toNat = k := by
    rw [UInt64.toNat_ofNat']
    omega
  have read := uint_reads (UInt64.ofNat k)
  rw [value] at read
  refine Reads.position_bind fun start => Reads.bind_end read ?_
  simp only [value]
  rw [if_neg (by omega), if_neg, if_neg]
  · exact Reads.pure k
  · cases prev with
    | none => simp
    | some p => simpa using le_of_lt (above p rfl)
  · cases prev with
    | none => simp
    | some p => simpa using ne_of_gt (above p rfl)

variable [Unicode]

abbrev entryReads (arms : Arms σ) (a b : Option Nat × σ × Extra) (raw : Bytes) : Prop :=
  Reads (readEntry arms a) raw b

theorem known_entry_reads {arms : Arms σ} {k : Nat} {arm : Parser (σ → σ)} {update : σ → σ}
    {raw : Bytes} {prev : Option Nat} (s : σ) (extra : Extra) (known : arms k = some arm)
    (reads : Reads arm raw update) [Solid raw] (small : k < 2 ^ 16) (above : ∀ p ∈ prev, p < k) :
    entryReads arms (prev, s, extra) (some k, update s, extra) (Enc.entry (k, raw)) := by
  refine Reads.bind (map_key_reads small above) (reject_null_reads ?_)
  rw [known]
  exact Reads.bind_end reads (Reads.pure _)

theorem unknown_entry_reads {arms : Arms σ} {k : Nat} {raw : Bytes} {prev : Option Nat} (s : σ)
    (extra : Extra) (unknown : arms k = none) (item : IsItem raw) [Solid raw] (small : k < 2 ^ 16)
    (above : ∀ p ∈ prev, p < k) :
    entryReads arms (prev, s, extra) (some k, s, extra.insert k raw) (Enc.entry (k, raw)) := by
  refine Reads.bind (map_key_reads small above) (reject_null_reads ?_)
  rw [unknown]
  exact Reads.bind_end item.reads (Reads.pure _)

theorem stages_rounds {arms : Arms σ} {k : Nat} {s t : σ} {slots : List (Option Bytes)}
    (stages : Stages arms k s slots t) (small : k + slots.length ≤ 2 ^ 16) (prev : Option Nat)
    (below : ∀ p ∈ prev, p < k) : ∃ last, (∀ p ∈ last, p < k + slots.length) ∧
      Rounds (entryReads arms) (keyedFrom k slots).length (prev, s, ∅) (last, t, ∅)
        ((keyedFrom k slots).flatMap Enc.entry) := by
  induction stages generalizing prev with
  | done k s => exact ⟨prev, below, .done _⟩
  | skip later ih =>
    rw [List.length_cons] at small ⊢
    obtain ⟨last, bound, rounds⟩ := ih (by omega) prev fun p held => by
      have := below p held
      omega
    exact ⟨last, fun p held => by have := bound p held; omega, rounds⟩
  | @read k s t slots arm update raw known reads solid later ih =>
    rw [List.length_cons] at small ⊢
    obtain ⟨last, bound, rounds⟩ := ih (by omega) (some k) fun p held => by
      cases held
      omega
    have first := known_entry_reads s ∅ known reads (by omega) below
    exact ⟨last, fun p held => by have := bound p held; omega, .next first rounds⟩

theorem extra_rounds {arms : Arms σ} {es : List (Nat × Bytes)}
    (unknown : ∀ e ∈ es, arms e.1 = none ∧ e.1 < 2 ^ 16 ∧ IsItem e.2 ∧ Solid e.2)
    (asc : Ascending es) (prev : Option Nat) (below : ∀ p ∈ prev, ∀ e ∈ es, p < e.1) (t : σ)
    (extra : Extra) : ∃ last, Rounds (entryReads arms) es.length (prev, t, extra)
      (last, t, es.foldl (fun m e => m.insert e.1 e.2) extra) (es.flatMap Enc.entry) := by
  induction es generalizing prev extra with
  | nil => exact ⟨prev, .done _⟩
  | cons e es ih =>
    obtain ⟨least, asc⟩ := List.pairwise_cons.mp asc
    obtain ⟨beyond, small, item, solid⟩ := unknown e List.mem_cons_self
    obtain ⟨last, rounds⟩ := ih (fun f mem => unknown f (List.mem_cons_of_mem _ mem)) asc
      (some e.1) (by
        rintro p ⟨rfl⟩ f mem
        exact least f mem) (extra.insert e.1 e.2)
    have first := unknown_entry_reads t extra beyond item small fun p held =>
      below p held e List.mem_cons_self
    exact ⟨last, .next first rounds⟩

/-- The map of a record made of what its slots are read into. -/
theorem dec_map_reads {α : Type} {arms : Nat → Arms σ} {emit : σ → List (Option Bytes)}
    {width : Nat} {spelled : Nat → Cursor.Dec → Prop} (fill : ArmsFill arms emit width spelled)
    {init a : σ} {finish : σ → Extra → Option α} {extra : Extra} {r : α}
    (stages : ∀ start, Stages (arms start) 0 init (emit a) a) (valid : ExtraValid width extra)
    (made : finish a extra = some r) :
    Reads (decMap arms init finish) (Enc.map (keyed (emit a) ++ putExtra extra)) r := by
  have high : ∀ e ∈ putExtra extra, width ≤ e.1 := fun e mem => (valid e mem).1
  have asc : Ascending (keyed (emit a) ++ putExtra extra) := by
    refine List.pairwise_append.mpr ⟨keyed_ascending 0 _, extra.ascending, fun x memX y memY => ?_⟩
    have low := (keyed_key_bounds memX).2
    have beyond := high y memY
    rw [fill.slots] at low
    omega
  have small : ∀ e ∈ keyed (emit a) ++ putExtra extra, e.1 < 2 ^ 16 := by
    intro e mem
    rcases List.mem_append.mp mem with known | unknown
    · have low := (keyed_key_bounds known).2
      rw [fill.slots, Nat.zero_add] at low
      exact lt_of_lt_of_le low fill.narrow
    · exact (valid e unknown).2.1
  rw [sorted_map asc, Enc.mapOf]
  refine Reads.of_fits fun fits => ?_
  have count := ascending_count small asc
  refine Reads.position_bind fun start => ?_
  obtain ⟨mid, bound, known⟩ := stages_rounds (stages start)
    (by rw [fill.slots, Nat.zero_add]; exact fill.narrow) none
    fun p held => absurd held (Option.not_mem_none p)
  rw [fill.slots, Nat.zero_add] at bound
  have items : ∀ e ∈ putExtra extra, arms start e.1 = none ∧ e.1 < 2 ^ 16 ∧ IsItem e.2 ∧
      Solid e.2 := by
    intro e mem
    obtain ⟨beyond, low, item⟩ := valid e mem
    exact ⟨(fill.unknown start e.1).mpr beyond, low, item, item_solid item⟩
  have above : ∀ p ∈ mid, ∀ e ∈ putExtra extra, p < e.1 := by
    intro p held e mem
    exact lt_of_lt_of_le (bound p held) (high e mem)
  obtain ⟨last, unknown⟩ := extra_rounds items extra.ascending mid above a ∅
  have rounds := rounds_append known unknown
  rw [← List.length_append, ← List.flatMap_append] at rounds
  have restored : extra.entries.foldl (fun m e => m.insert e.1 e.2) ∅ = extra :=
    BTreeMap.ofList_perm (List.Perm.refl _)
  refine Reads.bind_end (Reads.bind (expect_reads (by norm_num) count)
    (Reads.bind_end (Reads.loop rounds) (Reads.pure _))) ?_
  refine Reads.orFail ?_
  rw [putExtra, restored]
  exact made

theorem normal_text_reads {s : String} (nfc : Nfc s) : Reads text (normalText s) s := by
  rw [normalText, normalise_of_nfc nfc]
  exact text_reads_all nfc

instance (s : String) : Solid (normalText s) := inferInstanceAs (Solid (Enc.text _))

theorem date_reads (start : Nat) {d : Date} (year : d.year.toNat < 10000) :
    Reads (named start Date.parse) (Enc.text d.toText) d :=
  named_reads start (Date.parse_to_text year) d.to_text_ascii

theorem source_finished {a : SourceAcc} {c : UInt8} {reference : String} {kind : Open SourceKind}
    (coded : a.kind = some c) (refers : a.reference = some reference)
    (found : Open.read c = some kind) (forward : ∀ p, a.span = some p → p.1 < p.2)
    (located : a.span.isSome = true → a.manifest.isSome = true) (extra : Extra) :
    a.finish extra = some ⟨kind, normalise reference, a.captured, a.observed, a.published, a.span,
      a.manifest, extra, forward, located⟩ := by
  unfold SourceAcc.finish
  rw [coded, refers]
  simp only [Option.bind_eq_bind, Option.bind_some]
  rw [found]
  -- the guard is not to be evaluated
  exact (Option.bind_some _ _).trans (dif_pos ⟨forward, located⟩)

theorem source_reads {s : SourceRef} (valid : s.Valid) : Reads decSource (encSource s) s := by
  have made : SourceAcc.finish ⟨some s.kind.rawCode, some s.reference, s.captured, s.observed,
      s.published, s.span, s.manifest⟩ s.extra = some s := by
    rw [source_finished rfl rfl (Open.read_of_writable s.kind valid.kind) s.span_forward
      s.span_located, normalise_of_nfc valid.reference]
  rw [source_made made]
  refine dec_map_reads source_fills (fun start => ?_) valid.extra made
  refine .here (code_reads start s.kind.rawCode) rfl ?_
  dsimp only
  refine .here (normal_text_reads valid.reference) rfl ?_
  dsimp only
  refine .opt (fun o a => { a with captured := o })
    (fun d held => date_reads start (valid.captured d held)) rfl rfl ?_
  dsimp only
  refine .opt (fun o a => { a with observed := o }) (fun v _ => uint_reads v) rfl rfl ?_
  dsimp only
  refine .opt (fun o a => { a with published := o })
    (fun t held => text_reads_all (valid.published t held)) rfl rfl ?_
  dsimp only
  refine .opt (fun o a => { a with span := o })
    (fun p held => span_reads start (s.span_forward p held)) rfl rfl ?_
  dsimp only
  refine .opt (fun o a => { a with manifest := o }) (fun m _ => digest_reads m) rfl rfl ?_
  dsimp only
  exact .done _ _

theorem filled_text_of_nfc {o : Option String} (nfc : ∀ t ∈ o, Nfc t) (filled : o ≠ some "") :
    filledText o = o := by
  cases o with
  | none => rfl
  | some t =>
    have nonempty : t ≠ "" := fun empty => filled (by rw [empty])
    simp [filledText, normalise_of_nfc (nfc t rfl), Option.filter, nonempty]

/-- A slot of filled text is the slot of the text where that is normal. -/
theorem filled_text_slots {o : Option String} (nfc : ∀ t ∈ o, Nfc t) (filled : o ≠ some "") :
    (filledText o).map Enc.text = o.map normalText := by
  rw [filled_text_of_nfc nfc filled]
  cases o with
  | none => rfl
  | some t => simp [normalText, normalise_of_nfc (nfc t rfl)]

theorem schema_forward_reads (start : Nat) {s : SchemaId}
    (parsed : SchemaId.parseForward s.asStr = some s) :
    Reads (named start SchemaId.parseForward) (Enc.text s.asStr) s :=
  named_reads start parsed (schema_forward_ascii parsed)

theorem schema_reads (start : Nat) {s : SchemaId} (parsed : SchemaId.parse s.asStr = some s) :
    Reads (named start SchemaId.parse) (Enc.text s.asStr) s :=
  named_reads start parsed (schema_ascii parsed)

instance (s : SourceRef) : Solid (encSource s) := inferInstanceAs (Solid (Enc.map _))

omit [Unicode] in
theorem set_blank {α : Type} [LinearOrder α] {set : BTreeSet α}
    (empty : (!set.isEmpty) = false) : set = ∅ :=
  (BTreeSet.isEmpty_iff set).mp (by simpa using empty)

theorem unit_reads {u : UnitCore} (valid : u.Valid) : Reads decUnit (unitCoreBytes u) u := by
  obtain ⟨schema, nfcGist, nfcBody, nfcDetail, source, unknown⟩ := valid
  have status : (fromU8 (asU8 u.status) : Option Status) = some u.status := from_u8_as_u8 u.status
  have made : UnitAcc.finish ⟨some u.schema, some u.gist, u.body, u.detail, u.deps, u.grounds,
      some (asU8 u.status), u.source, u.payload, u.lang⟩ u.extra = some u := by
    simp only [UnitAcc.finish, Option.bind_eq_bind, Option.bind_some, status]
    rw [UnitCore.new_of_valid u nfcGist (filled_text_of_nfc nfcBody u.body_nonempty)
      (filled_text_of_nfc nfcDetail u.detail_nonempty)]
    rfl
  rw [unit_made made]
  refine dec_map_reads unit_fills (fun start => ?_) unknown made
  simp only [UnitAcc.slots, filled_text_slots nfcBody u.body_nonempty,
    filled_text_slots nfcDetail u.detail_nonempty]
  refine .here (schema_forward_reads start schema) rfl ?_
  dsimp only
  refine .here (normal_text_reads nfcGist) rfl ?_
  dsimp only
  refine .opt (fun o a => { a with body := o }) (fun t held => normal_text_reads (nfcBody t held))
    rfl rfl ?_
  dsimp only
  refine .opt (fun o a => { a with detail := o })
    (fun t held => normal_text_reads (nfcDetail t held)) rfl rfl ?_
  dsimp only
  refine .shown (uid_set_reads u.deps) rfl (fun empty => by rw [set_blank empty]) ?_
  dsimp only
  refine .shown (uid_set_reads u.grounds) rfl (fun empty => by rw [set_blank empty]) ?_
  dsimp only
  refine .here (code_reads start _) rfl ?_
  dsimp only
  refine .opt (fun o a => { a with source := o }) (fun s held => source_reads (source s held))
    rfl rfl ?_
  dsimp only
  refine .opt (fun o a => { a with payload := o }) (fun b _ => bytes_reads_all b) rfl rfl ?_
  dsimp only
  refine .opt (fun o a => { a with lang := o }) (fun t _ => name_reads start t) rfl rfl ?_
  dsimp only
  exact .done _ _

theorem attestation_reads {a : Attestation} (valid : a.Valid) :
    Reads decAttestation (attestationBytes a) a := by
  have made : AttestationAcc.finish ⟨some a.uid, some a.agent, a.hop, a.parents, some a.ts,
      some (asU8 a.op), a.recipe, a.sig, some (asU8 a.rung), a.family⟩ a.extra = some a := by
    simp [AttestationAcc.finish, from_u8_as_u8]
  rw [attestation_made made]
  refine dec_map_reads attestation_fills (fun start => ?_) valid made
  refine .here (uid_reads a.uid) rfl ?_
  dsimp only
  refine .here (name_reads start a.agent) rfl ?_
  dsimp only
  refine .here (uint32_reads start a.hop) rfl ?_
  dsimp only
  refine .shown (uid_set_reads a.parents) rfl (fun empty => by rw [set_blank empty]) ?_
  dsimp only
  refine .here (hlc_reads a.ts) rfl ?_
  dsimp only
  refine .here (code_reads start _) rfl ?_
  dsimp only
  refine .opt (fun o a => { a with recipe := o }) (fun r _ => bytes32_reads r) rfl rfl ?_
  dsimp only
  refine .opt (fun o a => { a with sig := o }) (fun b _ => bytes_reads_all b) rfl rfl ?_
  dsimp only
  refine .here (code_reads start _) rfl ?_
  dsimp only
  refine .opt (fun o a => { a with family := o }) (fun r _ => bytes32_reads r) rfl rfl ?_
  dsimp only
  exact .done _ _

theorem relation_reads {r : Relation} (valid : r.Valid) :
    Reads decRelation (relationBytes r) r := by
  have made : RelationAcc.finish ⟨some r.kind, some r.src, some r.dst, r.weight, r.note⟩ r.extra =
      some r := by
    simp [RelationAcc.finish, ← valid.bare]
  rw [relation_made made]
  refine dec_map_reads relation_fills (fun start => ?_) valid.extra made
  refine .here (rel_kind_reads valid.kind) rfl ?_
  dsimp only
  refine .here (uid_reads r.src) rfl ?_
  dsimp only
  refine .here (uid_reads r.dst) rfl ?_
  dsimp only
  refine .opt (fun o a => { a with weight := o }) (fun w held => f32q_reads (valid.weight w held))
    rfl rfl ?_
  dsimp only
  refine .opt (fun o a => { a with note := o }) (fun u _ => uid_reads u) rfl rfl ?_
  dsimp only
  exact .done _ _

omit [Unicode] in
theorem list_blank {α : Type} {write : α → Bytes} {l : List α}
    (empty : (!(l.map write).isEmpty) = false) : l = [] := by
  simpa using empty

theorem thread_reads {t : Thread} (valid : t.Valid) : Reads decThread (threadBytes t) t := by
  have made : ThreadAcc.finish ⟨some t.id, some t.schema.rawCode, some t.owner, some t.gist,
      t.steps, some t.ts⟩ t.extra = some t := by
    simp [ThreadAcc.finish, Open.read_of_writable t.schema valid.schema]
  rw [thread_made made]
  refine dec_map_reads thread_fills (fun start => ?_) valid.extra made
  refine .here (name_reads start t.id) rfl ?_
  dsimp only
  refine .here (code_reads start _) rfl ?_
  dsimp only
  refine .here (name_reads start t.owner) rfl ?_
  dsimp only
  refine .here (text_reads_all valid.gist) rfl ?_
  dsimp only
  have steps := array_reads (fun s mem => step_reads (valid.steps s mem).role
    (valid.steps s mem).note) (fun s => inferInstanceAs (Solid (encStep s)))
  refine .shown steps rfl (fun empty => by rw [list_blank empty]) ?_
  dsimp only
  refine .here (hlc_reads t.ts) rfl ?_
  dsimp only
  exact .done _ _

/-- An estimator is found again under the id it was written with. -/
theorem estimator_reads {e : ProfileEstimator} (written : e.Written) :
    (∀ s ∈ e.wireId, Nfc s) ∧ (e.wireId.map ProfileEstimator.fromWire).getD .unset = e := by
  cases e with
  | unset => exact ⟨fun s held => (nomatch held), rfl⟩
  | known e =>
    cases e with
    | utf8Div4 => exact absurd rfl written
    | _ =>
      refine ⟨fun s held => ?_, by decide⟩
      cases held
      exact nfc_of_ascii (by decide +kernel)
  | unknown s =>
    obtain ⟨other, nfc⟩ := written
    refine ⟨fun t held => ?_, ?_⟩
    · cases held
      exact nfc
    · simp [ProfileEstimator.wireId, ProfileEstimator.fromWire, other]

theorem granularity_reads {g : GranularityProfile} (valid : g.Valid) :
    Reads decGranularity (encGranularity g) g := by
  obtain ⟨nfc, restored⟩ := estimator_reads valid.estimator
  have made : GranularityAcc.finish ⟨g.profile, g.l0Max, g.l1Min, g.l1Max,
      some g.admission.rawCode, g.estimator⟩ g.extra = some g := by
    simp [GranularityAcc.finish, Open.read_of_writable g.admission valid.admission]
  rw [granularity_made made]
  refine dec_map_reads granularity_fills (fun start => ?_) valid.extra made
  refine .here (text_reads_all valid.profile) rfl ?_
  dsimp only
  refine .here (uint32_reads start g.l0Max) rfl ?_
  dsimp only
  refine .here (uint32_reads start g.l1Min) rfl ?_
  dsimp only
  refine .here (uint32_reads start g.l1Max) rfl ?_
  dsimp only
  refine .here (code_reads start g.admission.rawCode) rfl ?_
  dsimp only
  refine .opt (fun o a => { a with estimator := (o.map ProfileEstimator.fromWire).getD .unset })
    (fun s held => text_reads_all (nfc s held)) rfl rfl ?_
  dsimp only
  rw [restored]
  exact .done _ _

instance (g : GranularityProfile) : Solid (encGranularity g) := inferInstanceAs (Solid (Enc.map _))

theorem view_reads {v : View} (valid : v.Valid) : Reads decView (viewBytes v) v := by
  have made : ViewAcc.finish ⟨some v.id, v.roots, v.threads, v.requires, some v.granularity,
      some v.intent, some v.lang⟩ v.extra = some v := by
    simp [ViewAcc.finish]
  rw [view_made made]
  refine dec_map_reads view_fills (fun start => ?_) valid.extra made
  obtain ⟨threads, sameThreads, readThreads⟩ := @sorted_set_reads _ _ _ _ v.threads
    (fun t _ => name_reads start t) (fun t => inferInstanceAs (Solid (Enc.text t.text)))
  obtain ⟨requires, sameRequires, readRequires⟩ := @sorted_set_reads _ _ _ _ v.requires
    (fun s mem => schema_reads start (valid.requires s mem))
    (fun s => inferInstanceAs (Solid (Enc.text s.asStr)))
  refine .here (name_reads start v.id) rfl ?_
  dsimp only
  refine .shown (uid_set_reads v.roots) rfl (fun empty => by rw [set_blank empty]) ?_
  dsimp only
  refine .shown readThreads rfl (fun empty => by rw [sameThreads,
    show v.threads = ∅ from set_blank empty]) ?_
  dsimp only
  refine .shown readRequires rfl (fun empty => by rw [sameRequires,
    show v.requires = ∅ from set_blank empty]) ?_
  dsimp only
  rw [sameThreads, sameRequires]
  refine .here (granularity_reads valid.granularity) rfl ?_
  dsimp only
  refine .here (text_reads_all valid.intent) rfl ?_
  dsimp only
  refine .here (name_reads start v.lang) rfl ?_
  dsimp only
  exact .done _ _

theorem contention_reads {c : Contention} (valid : c.Valid) :
    Reads decContention (contentionBytes c) c := by
  have made : ContentionAcc.finish ⟨some c.id, some c.overUnit, c.positions, some c.detected,
      some (asU8 c.status)⟩ c.extra = some c := by
    simp [ContentionAcc.finish, from_u8_as_u8]
  rw [contention_made made]
  refine dec_map_reads contention_fills (fun start => ?_) valid.extra made
  refine .here (name_reads start c.id) rfl ?_
  dsimp only
  refine .here (uid_reads c.overUnit) rfl ?_
  dsimp only
  refine .shown (array_reads (fun u _ => uid_reads u) (fun u => inferInstanceAs
    (Solid (Enc.digest u)))) rfl (fun empty => by rw [list_blank empty]) ?_
  dsimp only
  refine .here (detected_reads valid.detected) rfl ?_
  dsimp only
  refine .here (code_reads start _) rfl ?_
  dsimp only
  exact .done _ _

theorem packinfo_reads {p : PackInfo} (valid : p.Valid) :
    Reads decPackinfo (packinfoBytes p) p := by
  have made : PackInfoAcc.finish ⟨some p.budget, some p.used, p.thread, p.dropped, p.degraded,
      some p.optimality, some p.estimator, p.reserved⟩ p.extra = some p := by
    simp [PackInfoAcc.finish]
  rw [packinfo_made made]
  refine dec_map_reads packinfo_fills (fun start => ?_) valid.extra made
  refine .here (uint_reads p.budget) rfl ?_
  dsimp only
  refine .here (uint_reads p.used) rfl ?_
  dsimp only
  refine .opt (fun o a => { a with thread := o }) (fun t _ => name_reads start t) rfl rfl ?_
  dsimp only
  refine .shown (array_reads (fun e _ => fate_reads e) (fun e => inferInstanceAs
    (Solid (encFate e)))) rfl (fun empty => by rw [list_blank empty]) ?_
  dsimp only
  refine .shown (array_reads (fun e _ => fate_reads e) (fun e => inferInstanceAs
    (Solid (encFate e)))) rfl (fun empty => by rw [list_blank empty]) ?_
  dsimp only
  refine .here (optimality_reads valid.gap) rfl ?_
  dsimp only
  refine .here (text_reads_all valid.estimator) rfl ?_
  dsimp only
  refine .shown (uint_reads p.reserved) rfl (fun zero => by rw [show p.reserved = 0 by
    simpa using zero]) ?_
  dsimp only
  exact .done _ _

theorem schema_decl_reads {d : SchemaDecl} (valid : d.Valid) :
    Reads decSchemaDecl (schemaDeclBytes d) d := by
  have made : SchemaDeclAcc.finish ⟨some d.id, some d.version, d.types, d.relations,
      d.payloadShape, d.lenses⟩ d.extra = some d := by
    simp [SchemaDeclAcc.finish]
  rw [schema_decl_made made]
  refine dec_map_reads schema_decl_fills (fun start => ?_) valid.extra made
  refine .here (schema_reads start valid.id) rfl ?_
  dsimp only
  refine .here (uint32_reads start d.version) rfl ?_
  dsimp only
  refine .shown (array_reads (fun t mem => schema_reads start (valid.types t mem))
    (fun t => inferInstanceAs (Solid (Enc.text t.asStr)))) rfl
    (fun empty => by rw [list_blank empty]) ?_
  dsimp only
  refine .shown (array_reads (fun k mem => rel_kind_reads (valid.relations k mem))
    (fun k => inferInstanceAs (Solid (encRelKind k)))) rfl
    (fun empty => by rw [list_blank empty]) ?_
  dsimp only
  refine .opt (fun o a => { a with payloadShape := o }) (fun b _ => bytes_reads_all b) rfl rfl ?_
  dsimp only
  refine .item (fun o a => { a with lenses := o }) valid.lenses rfl rfl ?_
  dsimp only
  exact .done _ _

theorem label_binding_reads {b : LabelBinding} (valid : ExtraValid 2 b.extra) :
    Reads decLabelBinding (labelBindingBytes b) b := by
  have made : LabelBindingAcc.finish ⟨some b.label, some b.uid⟩ b.extra = some b := rfl
  rw [label_binding_made made]
  refine dec_map_reads label_binding_fills (fun start => ?_) valid made
  refine .here (name_reads start b.label) rfl ?_
  dsimp only
  refine .here (uid_reads b.uid) rfl ?_
  dsimp only
  exact .done _ _

theorem withdrawal_reads {w : Withdrawal} (valid : ExtraValid 4 w.extra) :
    Reads decWithdrawal (withdrawalBytes w) w := by
  have made : WithdrawalAcc.finish ⟨some w.relation, some w.agent, some w.ts, w.reason⟩ w.extra =
      some w := rfl
  rw [withdrawal_made made]
  refine dec_map_reads withdrawal_fills (fun start => ?_) valid made
  refine .here (uid_reads w.relation) rfl ?_
  dsimp only
  refine .here (name_reads start w.agent) rfl ?_
  dsimp only
  refine .here (hlc_reads w.ts) rfl ?_
  dsimp only
  refine .opt (fun o a => { a with reason := o }) (fun u _ => uid_reads u) rfl rfl ?_
  dsimp only
  exact .done _ _

theorem resolution_reads {r : Resolution} (valid : ExtraValid 5 r.extra) :
    Reads decResolution (resolutionBytes r) r := by
  obtain ⟨target, agent, ts, note, extra⟩ := r
  cases target with
  | contention c =>
    have made : ResolutionAcc.finish ⟨some c, none, some agent, some ts, note⟩ extra =
        some ⟨.contention c, agent, ts, note, extra⟩ := rfl
    rw [resolution_made made]
    refine dec_map_reads resolution_fills (fun start => ?_) valid made
    refine .here (name_reads start c) rfl (.skip ?_)
    dsimp only
    refine .here (name_reads start agent) rfl ?_
    dsimp only
    refine .here (hlc_reads ts) rfl ?_
    dsimp only
    refine .opt (fun o a => { a with note := o }) (fun u _ => uid_reads u) rfl rfl ?_
    dsimp only
    exact .done _ _
  | relation u =>
    have made : ResolutionAcc.finish ⟨none, some u, some agent, some ts, note⟩ extra =
        some ⟨.relation u, agent, ts, note, extra⟩ := rfl
    rw [resolution_made made]
    refine dec_map_reads resolution_fills (fun start => .skip ?_) valid made
    refine .here (uid_reads u) rfl ?_
    dsimp only
    refine .here (name_reads start agent) rfl ?_
    dsimp only
    refine .here (hlc_reads ts) rfl ?_
    dsimp only
    refine .opt (fun o a => { a with note := o }) (fun u _ => uid_reads u) rfl rfl ?_
    dsimp only
    exact .done _ _

theorem commit_reads {c : Commit} (valid : ExtraValid 5 c.extra) :
    Reads decCommit (commitBytes c) c := by
  have made : CommitAcc.finish ⟨some c.unit, some c.level, some c.agent, some c.ts, c.note⟩
      c.extra = some c := rfl
  rw [commit_made made]
  refine dec_map_reads commit_fills (fun start => ?_) valid made
  refine .here (uid_reads c.unit) rfl ?_
  dsimp only
  refine .here (closed_reads start c.level) rfl ?_
  dsimp only
  refine .here (name_reads start c.agent) rfl ?_
  dsimp only
  refine .here (hlc_reads c.ts) rfl ?_
  dsimp only
  refine .opt (fun o a => { a with note := o }) (fun u _ => uid_reads u) rfl rfl ?_
  dsimp only
  exact .done _ _

theorem part_entry_reads {p : PartEntry} (valid : ExtraValid 5 p.extra) :
    Reads decPartEntry (encPartEntry p) p := by
  have made : PartEntryAcc.finish ⟨some p.tid, some p.length, some p.structureHash, some p.rdid,
      p.lang⟩ p.extra = some p := rfl
  rw [part_entry_made made]
  refine dec_map_reads part_entry_fills (fun start => ?_) valid made
  refine .here (digest_reads p.tid) rfl ?_
  dsimp only
  refine .here (uint_reads p.length) rfl ?_
  dsimp only
  refine .here (bytes32_reads p.structureHash) rfl ?_
  dsimp only
  refine .here (digest_reads p.rdid) rfl ?_
  dsimp only
  refine .opt (fun o a => { a with lang := o }) (fun t _ => name_reads start t) rfl rfl ?_
  dsimp only
  exact .done _ _

theorem opaque_slot {o : Option Bytes} (items : ∀ raw ∈ o, IsItem raw) (empty : UInt8) :
    o.map (encOpaque empty) = o := by
  cases o with
  | none => rfl
  | some raw =>
    have solid := item_solid (items raw rfl)
    have filled := solid_nonempty raw
    simp [encOpaque, filled]

omit [Unicode] in
theorem map_blank {m : BTreeMap String String} (empty : (!m.isEmpty) = false) : m = ∅ := by
  have none : m.isEmpty = true := by simpa using empty
  obtain ⟨entries, asc⟩ := m
  cases List.isEmpty_iff.mp none
  rfl

instance (es : List (String × String)) : Solid (encTextMap es) := by
  have first := @solid_head 5 (by norm_num)
    ((es.map (fun e => (Enc.text e.1, Enc.text e.2))).insertionSort
      (fun a b => a.1 ≤ b.1)).length
  unfold encTextMap
  infer_instance

theorem manifest_reads {m : Manifest} (valid : m.Valid) :
    Reads decManifest (manifestBytes m) m := by
  have made : ManifestAcc.finish ⟨some m.aliasName, some m.parts, some m.lang, some m.reader,
      some m.licence, some m.carry, m.title, m.creators, m.published, m.identifiers, m.origin,
      m.parent.map Prod.fst, m.parent.map Prod.snd, m.supersedes, m.versification, m.lossy, m.raw,
      some m.partPolicy, m.calendar⟩ m.extra = some m := by
    have pair : ∀ a : ManifestAcc, a.parent = m.parent.map Prod.fst →
        a.parentKind = m.parent.map Prod.snd → a.parentPair = some m.parent := by
      intro a first second
      rw [ManifestAcc.parentPair, first, second]
      cases m.parent <;> rfl
    simp [ManifestAcc.finish, pair]
  rw [manifest_made made]
  refine dec_map_reads manifest_fills (fun start => ?_) valid.extra made
  simp only [ManifestAcc.slots, opaque_slot valid.raw]
  refine .here (text_reads_all valid.aliasName) rfl ?_
  dsimp only
  refine .here (array_reads (fun p mem => part_entry_reads (valid.parts p mem))
    (fun p => inferInstanceAs (Solid (encPartEntry p)))) rfl ?_
  dsimp only
  refine .here (name_reads start m.lang) rfl ?_
  dsimp only
  refine .here (text_reads_all valid.reader) rfl ?_
  dsimp only
  refine .here (text_reads_all valid.licence) rfl ?_
  dsimp only
  refine .here (closed_reads start m.carry) rfl ?_
  dsimp only
  refine .opt (fun o a => { a with title := o }) (fun t held => text_reads_all (valid.title t held))
    rfl rfl ?_
  dsimp only
  refine .shown (array_reads (fun t mem => text_reads_all (valid.creators t mem))
    (fun t => inferInstanceAs (Solid (Enc.text t)))) rfl (fun empty => by rw [list_blank empty]) ?_
  dsimp only
  refine .opt (fun o a => { a with published := o })
    (fun t held => text_reads_all (valid.published t held)) rfl rfl ?_
  dsimp only
  refine .shown (text_map_reads valid.identifiers) rfl (fun empty => by rw [map_blank empty]) ?_
  dsimp only
  refine .opt (fun o a => { a with origin := o }) (fun s held => source_reads (valid.origin s held))
    rfl rfl ?_
  dsimp only
  refine .opt (fun o a => { a with parent := o }) (fun d _ => digest_reads d) rfl rfl ?_
  dsimp only
  refine .opt (fun o a => { a with parentKind := o }) (fun k _ => wire_name_reads start k) rfl rfl ?_
  dsimp only
  refine .opt (fun o a => { a with supersedes := o }) (fun d _ => digest_reads d) rfl rfl ?_
  dsimp only
  refine .opt (fun o a => { a with versification := o })
    (fun t held => text_reads_all (valid.versification t held)) rfl rfl ?_
  dsimp only
  refine .flag true_reads rfl rfl ?_
  dsimp only
  refine .item (fun o a => { a with raw := o }) valid.raw rfl rfl ?_
  dsimp only
  refine .here (text_reads_all valid.partPolicy) rfl ?_
  dsimp only
  refine .opt (fun o a => { a with calendar := o }) (fun c _ => wire_name_reads start c) rfl rfl ?_
  dsimp only
  exact .done _ _

theorem part_text_reads {p : PartText} (valid : ExtraValid 2 p.extra) :
    Reads decPartText (partTextBytes p) p := by
  have made : PartTextAcc.finish ⟨some p.tid, some p.text⟩ p.extra = some p := rfl
  rw [part_text_made made]
  refine dec_map_reads part_text_fills (fun start => ?_) valid made
  refine .here (digest_reads p.tid) rfl ?_
  dsimp only
  refine .here (bytes_reads_all p.text) rfl ?_
  dsimp only
  exact .done _ _

theorem part_reading_reads {r : PartReading} (valid : r.Valid) :
    Reads decPartReading (partReadingBytes r) r := by
  have solid := item_solid valid.segments
  have filled := solid_nonempty r.segments
  have made : PartReadingAcc.finish ⟨some r.tid, some r.reader, some r.segments, r.raw⟩ r.extra =
      some r := by
    simp [PartReadingAcc.finish, filled]
  have segments : ∀ raw ∈ some r.segments, IsItem raw := by
    rintro raw ⟨⟩
    exact valid.segments
  rw [part_reading_made made]
  refine dec_map_reads part_reading_fills (fun start => ?_) valid.extra made
  simp only [PartReadingAcc.slots, opaque_slot segments, opaque_slot valid.raw]
  refine .here (digest_reads r.tid) rfl ?_
  dsimp only
  refine .here (text_reads_all valid.reader) rfl ?_
  dsimp only
  refine .item (fun o a => { a with segments := o }) segments rfl rfl ?_
  dsimp only
  refine .item (fun o a => { a with raw := o }) valid.raw rfl rfl ?_
  dsimp only
  exact .done _ _

instance (v : DatingValue) : Solid (encDatingValue v) := by
  unfold encDatingValue
  split <;> infer_instance

theorem dating_reads {d : Dating} (valid : d.Valid) : Reads decDating (datingBytes d) d := by
  have made : DatingAcc.finish ⟨some d.target, some d.axis, some d.value, d.basis, some d.agent,
      some d.ts⟩ d.extra = some d := rfl
  rw [dating_made made]
  refine dec_map_reads dating_fills (fun start => ?_) valid.extra made
  refine .here (dating_target_reads d.target) rfl ?_
  dsimp only
  refine .here (closed_reads start d.axis) rfl ?_
  dsimp only
  refine .here (dating_value_reads valid.value) rfl ?_
  dsimp only
  refine .opt (fun o a => { a with basis := o }) (fun u _ => uid_reads u) rfl rfl ?_
  dsimp only
  refine .here (name_reads start d.agent) rfl ?_
  dsimp only
  refine .here (hlc_reads d.ts) rfl ?_
  dsimp only
  exact .done _ _

theorem redaction_reads {r : Redaction} (valid : ExtraValid 4 r.extra) :
    Reads decRedaction (redactionBytes r) r := by
  have made : RedactionAcc.finish ⟨some r.tid, some r.agent, some r.ts, r.reason⟩ r.extra =
      some r := rfl
  rw [redaction_made made]
  refine dec_map_reads redaction_fills (fun start => ?_) valid made
  refine .here (digest_reads r.tid) rfl ?_
  dsimp only
  refine .here (name_reads start r.agent) rfl ?_
  dsimp only
  refine .here (hlc_reads r.ts) rfl ?_
  dsimp only
  refine .opt (fun o a => { a with reason := o }) (fun u _ => uid_reads u) rfl rfl ?_
  dsimp only
  exact .done _ _

theorem payload_reads {r : Record} (valid : r.Valid) :
    Reads (decPayload r.typeCode) (payloadBytes r) r := by
  cases r with
  | unit u => exact (unit_reads valid).map Record.unit
  | attestation a => exact (attestation_reads valid).map Record.attestation
  | relation r => exact (relation_reads valid).map Record.relation
  | thread t => exact (thread_reads valid).map Record.thread
  | view v => exact (view_reads valid).map Record.view
  | contention c => exact (contention_reads valid).map Record.contention
  | packInfo p => exact (packinfo_reads valid).map Record.packInfo
  | schemaDecl d => exact (schema_decl_reads valid).map Record.schemaDecl
  | labelBinding b => exact (label_binding_reads valid).map Record.labelBinding
  | withdrawal w => exact (withdrawal_reads valid).map Record.withdrawal
  | resolution r => exact (resolution_reads valid).map Record.resolution
  | commit c => exact (commit_reads valid).map Record.commit
  | manifest m => exact (manifest_reads valid).map Record.manifest
  | partText p => exact (part_text_reads valid).map Record.partText
  | partReading r => exact (part_reading_reads valid).map Record.partReading
  | dating d => exact (dating_reads valid).map Record.dating
  | redaction r => exact (redaction_reads valid).map Record.redaction
  | unknown code payload =>
    obtain ⟨beyond, item⟩ := valid
    have skipped : decPayload code = Record.unknown code <$> skipItem := by
      unfold decPayload
      split <;> first | rfl | exact absurd (by decide) beyond
    rw [Record.typeCode, skipped]
    exact item.reads.map _

theorem envelope_reads {r : Record} (valid : r.Valid) : Reads decEnvelope (toCbor r) r := by
  rw [toCbor, List.append_assoc]
  refine Reads.position_bind fun start => Reads.bind (tuple_reads start (by norm_num)) ?_
  exact Reads.bind (uint_reads r.typeCode) (payload_reads valid)

theorem to_cbor_nonempty (r : Record) : toCbor r ≠ [] := by
  rw [toCbor, List.append_assoc]
  exact solid_nonempty (Enc.arrayHead 2 ++ _)

theorem from_cbor_reads {r : Record} (valid : r.Valid) (fits : (toCbor r).length < limit)
    (s : Bytes) : fromCbor (toCbor r ++ s) = .ok (r, (toCbor r).length) := by
  rw [fromCbor, envelope_reads valid 0 s (by simpa using fits)]
  simp

theorem from_cbor_cut {r : Record} (valid : r.Valid) (fits : (toCbor r).length < limit)
    {t s : Bytes} (cut : toCbor r = t ++ s) (rest : s ≠ []) :
    ∃ pos, fromCbor t = .error (.truncated pos) := by
  have placed : 0 + (toCbor r).length < limit := by simpa using fits
  obtain ⟨e, run, pos, rfl⟩ := Reads.proper_prefix_short (envelope_reads valid) cut rest placed
  exact ⟨pos, by rw [fromCbor, run]⟩

/-- What a cut sequence is read as: as many records as are complete in it. -/
structure ReadsComplete (rs : List Record) (t : Bytes) (k : Nat) : Prop where
  some : k ≤ rs.length
  complete : (toCborSeq (rs.take k)).length ≤ t.length
  most : k < rs.length → t.length < (toCborSeq (rs.take (k + 1))).length

theorem seq_from_cut {rs : List Record} (valid : ∀ r ∈ rs, r.Valid)
    (fits : (toCborSeq rs).length < limit) {bytes t : Bytes} {fuel off : Nat}
    (out : List Record) (left : bytes.drop off = t) (cut : t <+: toCborSeq rs)
    (enough : t.length ≤ fuel) : ∃ k, ReadsComplete rs t k ∧ seqFrom fuel bytes off out =
      .ok (out ++ rs.take k, off + (toCborSeq (rs.take k)).length) := by
  induction rs generalizing fuel off out t with
  | nil =>
    have none : t = [] := List.prefix_nil.mp cut
    subst none
    have past : bytes.length ≤ off := List.drop_eq_nil_iff.mp left
    refine ⟨0, ⟨le_rfl, by simp [toCborSeq], by simp⟩, ?_⟩
    cases fuel with
    | zero => simp [seqFrom, toCborSeq]
    | succ fuel => simp [seqFrom, toCborSeq, not_lt.mpr past]
  | cons r rs ih =>
    have first := valid r List.mem_cons_self
    have split : toCborSeq (r :: rs) = toCbor r ++ toCborSeq rs := rfl
    rw [split, List.length_append] at fits
    rw [split] at cut
    have filled : 0 < (toCbor r).length := List.length_pos_iff.mpr (to_cbor_nonempty r)
    by_cases whole : (toCbor r).length ≤ t.length
    · -- the record is complete: the rest is read after it
      obtain ⟨more, rfl⟩ := List.prefix_of_prefix_length_le (List.prefix_append _ _) cut whole
      have tail : more <+: toCborSeq rs := (List.prefix_append_right_inj _).mp cut
      rw [List.length_append] at enough
      cases fuel with
      | zero => omega
      | succ fuel =>
        have next : bytes.drop (off + (toCbor r).length) = more := by
          rw [← List.drop_drop, left, List.drop_left]
        have room : more.length ≤ fuel := by omega
        obtain ⟨k, ⟨few, complete, most⟩, run⟩ := ih
          (fun x mem => valid x (List.mem_cons_of_mem _ mem)) (by omega) (out ++ [r]) next tail room
        have here : off < bytes.length := by
          by_contra past
          rw [List.drop_eq_nil_of_le (by omega)] at left
          simp [to_cbor_nonempty] at left
        refine ⟨k + 1, ⟨by simpa using few, ?_, fun short => ?_⟩, ?_⟩
        · rw [List.take_succ_cons]
          simp only [toCborSeq, List.flatMap_cons, List.length_append] at complete ⊢
          omega
        · have bound := most (by simpa using short)
          rw [List.take_succ_cons]
          simp only [toCborSeq, List.flatMap_cons, List.length_append] at bound ⊢
          omega
        · rw [seqFrom, if_pos here, left, from_cbor_reads first (by omega)]
          dsimp only
          rw [run, List.take_succ_cons]
          simp [toCborSeq, Nat.add_assoc]
    · -- the record is cut: nothing more is read
      obtain ⟨s, cut⟩ := List.prefix_of_prefix_length_le cut (List.prefix_append _ _) (by omega)
      have rest : s ≠ [] := by
        rintro rfl
        rw [List.append_nil] at cut
        exact whole (by rw [cut])
      obtain ⟨pos, torn⟩ := from_cbor_cut first (by omega) cut.symm rest
      refine ⟨0, ⟨Nat.zero_le _, by simp [toCborSeq], fun _ => ?_⟩, ?_⟩
      · simpa [toCborSeq] using whole
      · cases fuel with
        | zero => simp [seqFrom, toCborSeq]
        | succ fuel =>
          rw [seqFrom]
          split
          · rw [left, torn]
            simp [toCborSeq]
          · simp [toCborSeq]

theorem from_cbor_seq_cut {rs : List Record} (valid : ∀ r ∈ rs, r.Valid)
    (fits : (toCborSeq rs).length < limit) {t : Bytes} (cut : t <+: toCborSeq rs) :
    ∃ k, ReadsComplete rs t k ∧ fromCborSeq t = .ok (rs.take k, (toCborSeq (rs.take k)).length) := by
  obtain ⟨k, complete, run⟩ := seq_from_cut valid fits [] (List.drop_zero) cut le_rfl
  refine ⟨k, complete, ?_⟩
  rw [fromCborSeq, run]
  simp

theorem to_cbor_seq_taken (rs : List Record) (k : Nat) :
    toCborSeq (rs.take k) <+: toCborSeq rs := by
  conv_rhs => rw [← List.take_append_drop k rs, toCborSeq, List.flatMap_append]
  exact List.prefix_append _ _

theorem from_cbor_seq_reads {rs : List Record} (valid : ∀ r ∈ rs, r.Valid)
    (fits : (toCborSeq rs).length < limit) :
    fromCborSeq (toCborSeq rs) = .ok (rs, (toCborSeq rs).length) := by
  obtain ⟨k, ⟨few, _, most⟩, run⟩ := from_cbor_seq_cut valid fits (List.prefix_refl _)
  have all : k = rs.length := by
    by_contra other
    have short := most (by omega)
    have := (to_cbor_seq_taken rs (k + 1)).length_le
    omega
  rw [run, all, List.take_length]

/-- A valid record is read back from its encoding, whatever follows it, and
from a cut sequence of valid records as many are read as are complete. -/
theorem valid_records_read_back :
    (∀ r : Record, r.Valid → (toCbor r).length < limit → ∀ s,
      fromCbor (toCbor r ++ s) = .ok (r, (toCbor r).length)) ∧
    (∀ rs : List Record, (∀ r ∈ rs, r.Valid) → (toCborSeq rs).length < limit →
      fromCborSeq (toCborSeq rs) = .ok (rs, (toCborSeq rs).length) ∧
      ∀ t, t <+: toCborSeq rs → ∃ k, ReadsComplete rs t k ∧
        fromCborSeq t = .ok (rs.take k, (toCborSeq (rs.take k)).length)) :=
  ⟨fun _ valid fits s => from_cbor_reads valid fits s, fun _ valid fits =>
    ⟨from_cbor_seq_reads valid fits, fun _ cut => from_cbor_seq_cut valid fits cut⟩⟩

end

/-- A part of two bytes, with no unknown keys. -/
def twoBytePart : Record := .partText ⟨⟨⟨List.replicate 32 0, Bytes32.width_zero⟩⟩, [0x68, 0x69], ∅⟩

theorem two_byte_part_reads_back :
    @fromCbor .plain (@toCbor .plain twoBytePart ++ [0xFF]) =
        .ok (twoBytePart, (@toCbor .plain twoBytePart).length) ∧
      @fromCborSeq .plain (@toCborSeq .plain [twoBytePart]) =
        .ok ([twoBytePart], (@toCborSeq .plain [twoBytePart]).length) := by
  have valid : @Record.Valid .plain twoBytePart := fun e mem => nomatch mem
  have one : (@toCbor .plain twoBytePart).length < limit := by decide
  refine ⟨(@valid_records_read_back .plain).1 _ valid one _, ?_⟩
  refine ((@valid_records_read_back .plain).2 [twoBytePart] (fun r mem => ?_) (by decide)).1
  rw [List.mem_singleton.mp mem]
  exact valid

/-- A view whose profile names the default estimator. -/
def namedEstimatorView (estimator : ProfileEstimator) : Record :=
  .view ⟨⟨"v/a", view_a_accepted⟩, ∅, ∅, ∅,
    { GranularityProfile.standard with estimator := estimator }, "i", ⟨"en", en_accepted⟩, ∅⟩

theorem named_default_estimator_reads_back_unset :
    @fromCbor .plain (@toCbor .plain (namedEstimatorView (.known .utf8Div4))) =
        .ok (namedEstimatorView .unset, (@toCbor .plain (namedEstimatorView .unset)).length) ∧
      namedEstimatorView .unset ≠ namedEstimatorView (.known .utf8Div4) := by
  refine ⟨by rfl, by decide⟩

end Smysl
