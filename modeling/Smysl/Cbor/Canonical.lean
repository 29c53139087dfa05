import Smysl.Cbor.Slots

/-!
Which encodings the decoders take are the encoder's own. Most values have one
spelling; the ones below have a second one that is read and never written, and
some maps may leave out a key the encoder always writes.
-/
namespace Smysl
open ByteString Cursor Cursor.Parser Dec OrdMap

/-- The empty item of a major type: no text, no elements, no entries, or zero. -/
def EmptyItem (major : Nat) (d : Cursor.Dec) : Prop :=
  d.rest.head? = some (UInt8.ofNat (major * 32))

/-- The text that stands here, byte by byte. -/
def Stands (s : String) (d : Cursor.Dec) : Prop :=
  Enc.head 3 (utf8 s).length ++ utf8 s <+: d.rest

/-- A kernel relation spelled by its name, where the encoder writes its code. -/
def NamesKernel (d : Cursor.Dec) : Prop := ∃ k ∈ RelKind.kernel, Stands k.asStr d

theorem kernel_names_short : ∀ k ∈ RelKind.kernel, (utf8 k.asStr).length < 2 ^ 64 := by
  decide

theorem stands_major {s : String} {d : Cursor.Dec} (stands : Stands s d) :
    ∃ b, d.rest.head? = some b ∧ b.toNat / 32 = 3 := by
  obtain ⟨tail, eq⟩ := stands
  rw [← eq, List.append_assoc]
  exact head_first 3 _ _ (by norm_num)

theorem none_always {slots : List (Option Bytes)} (empty : ∀ slot ∈ slots, slot = none) (k : Nat) :
    (slots[k]?).join ≠ none ↔ k ∈ ([] : List Nat) := by
  simp [nothing_written empty]

theorem empty_item_iff {major n : Nat} {tail : Bytes} {d : Cursor.Dec}
    (eq : d.rest = Enc.head major n ++ tail) : EmptyItem major d ↔ n = 0 := by
  have apart : ∀ {info : Nat}, info < 32 → info ≠ 0 →
      UInt8.ofNat (major * 32 + info) ≠ UInt8.ofNat (major * 32) := by
    intro info low positive same
    have values := congrArg UInt8.toNat same
    rw [UInt8.toNat_ofNat', UInt8.toNat_ofNat'] at values
    omega
  rw [EmptyItem, eq, Enc.head]
  split_ifs with short
  · by_cases zero : n = 0
    · simp [zero]
    · simpa [zero] using apart (by omega) zero
  all_goals
    have positive : n ≠ 0 := by omega
    simp only [List.cons_append, List.head?_cons, Option.some.injEq, positive, iff_false]
    exact apart (by norm_num) (by norm_num)

section
variable {α : Type}

/-- A value whose head counts what is in it is empty when the count is zero. -/
theorem shown_of_head {p : Parser α} {present : α → Bool} {major : Nat}
    (heads : Yields p (fun v raw => ∃ n tail, raw = Enc.head major n ++ tail ∧
      (present v = true ↔ n ≠ 0))) ⦃d d' : Cursor.Dec⦄ ⦃v : α⦄ (run : p d = .ok (v, d')) :
    present v = true ∧ True ↔ ¬ EmptyItem major d := by
  obtain ⟨_, eq, n, tail, rfl, shown⟩ := heads run
  rw [List.append_assoc] at eq
  rw [empty_item_iff eq, and_true, shown]

theorem array_shown {f : Parser α} {write : α → Bytes} (each : Mirrors f write) :
    ∀ ⦃d d' : Cursor.Dec⦄ ⦃l : List α⦄, array f d = .ok (l, d') →
      ((!(l.map write).isEmpty) = true ∧ True ↔ ¬ EmptyItem 4 d) := by
  refine shown_of_head ((array_mirrors each).mono ?_)
  rintro l _ rfl
  exact ⟨_, _, rfl, by cases l <;> simp⟩

theorem uid_set_shown : ∀ ⦃d d' : Cursor.Dec⦄ ⦃s : BTreeSet Uid⦄, uidSet d = .ok (s, d') →
    ((!s.isEmpty) = true ∧ True ↔ ¬ EmptyItem 4 d) := by
  refine shown_of_head (uid_set_mirrors.mono ?_)
  rintro s _ rfl
  exact ⟨_, _, rfl, by simp [BTreeSet.isEmpty]⟩

theorem sorted_set_shown [LinearOrder α] {f : Parser α} [Steady f] {write : α → Bytes}
    (each : Mirrors f write) : ∀ ⦃d d' : Cursor.Dec⦄ ⦃l : List α⦄, sortedArray f d = .ok (l, d') →
      ((!(BTreeSet.ofList l).toList.isEmpty) = true ∧ True ↔ ¬ EmptyItem 4 d) := by
  refine shown_of_head ((sorted_set_mirrors each).mono ?_)
  rintro l _ ⟨rfl, _⟩
  refine ⟨_, _, rfl, ?_⟩
  rw [List.length_insertionSort, List.length_map]
  cases (BTreeSet.ofList l).toList <;> simp

/-- Where the elements of an array stand. -/
def arrayPlaces (f : Parser α) : Parser (List Cursor.Dec) := do
  let n ← arrayHead
  times (do
    let place ← here
    let _ ← f
    pure place) n

/-- Every element of an array is spelled as the encoder spells it. -/
def SpelledArray (f : Parser α) (spelled : Cursor.Dec → Prop) (d : Cursor.Dec) : Prop :=
  match arrayPlaces f d with
  | .ok (places, _) => ∀ p ∈ places, spelled p
  | .error _ => False

theorem times_spells {f : Parser α} {write : α → Bytes} {spelled : Cursor.Dec → Prop}
    (each : Spells f write spelled) {n : Nat} {d d' : Cursor.Dec} {l : List α}
    (run : times f n d = .ok (l, d')) : ∃ raws places, d.rest = raws.flatten ++ d'.rest ∧
      l.length = n ∧ raws.length = n ∧
      times (do
        let place ← here
        let _ ← f
        pure place) n d = .ok (places, d') ∧
      (l.map write = raws ↔ ∀ p ∈ places, spelled p) ∧
      ∀ x y, (l.map write).flatten ++ x = raws.flatten ++ y → l.map write = raws := by
  induction n generalizing d l with
  | zero =>
    cases run
    exact ⟨[], [], rfl, rfl, rfl, rfl, by simp, fun _ _ _ => rfl⟩
  | succ n ih =>
    obtain ⟨a, d₁, first, run⟩ := bind_ok run
    obtain ⟨as, d₂, later, done⟩ := bind_ok run
    cases done
    obtain ⟨raw, eq, exact, apart⟩ := each first
    obtain ⟨raws, places, rest, len, len', walk, exacts, aparts⟩ := ih later
    refine ⟨raw :: raws, d :: places, ?_, by simp [len], by simp [len'], ?_, ?_, ?_⟩
    · rw [eq, rest, List.flatten_cons, List.append_assoc]
    · have place : (do
          let place ← here
          let _ ← f
          pure place : Parser Cursor.Dec) d = .ok (d, d₁) := by
        rw [bind_of_ok (show here d = .ok (d, d) from rfl), bind_of_ok first]
        rfl
      rw [times, bind_of_ok place, bind_of_ok walk]
      rfl
    · rw [List.map_cons, List.cons.injEq, exact, exacts, List.forall_mem_cons]
    · intro x y joined
      rw [List.map_cons, List.flatten_cons, List.flatten_cons, List.append_assoc,
        List.append_assoc] at joined
      have head := apart _ _ joined
      rw [head] at joined
      rw [List.map_cons, head, aparts x y (List.append_cancel_left joined)]

theorem array_spells {f : Parser α} {write : α → Bytes} {spelled : Cursor.Dec → Prop}
    (each : Spells f write spelled) :
    Spells (array f) (fun l => Enc.array (l.map write)) (SpelledArray f spelled) := by
  intro d d' l run
  obtain ⟨n, d₁, head, run⟩ := bind_ok run
  obtain ⟨_, eq, rfl, bound⟩ := expect_yields 4 head
  obtain ⟨raws, places, rest, len, len', walk, exact, apart⟩ := times_spells each run
  have place : arrayPlaces f d = .ok (places, d') := by
    rw [arrayPlaces, bind_of_ok head, walk]
  have separate : ∀ x y, Enc.array (l.map write) ++ x = Enc.array raws ++ y →
      l.map write = raws := by
    intro x y joined
    simp only [Enc.array, Enc.arrayHead, List.append_assoc, List.length_map, len, len'] at joined
    exact apart x y (List.append_cancel_left joined)
  refine ⟨Enc.array raws, ?_, ?_, fun x y joined => ?_⟩
  · rw [eq, rest, Enc.array, Enc.arrayHead, len', List.append_assoc]
  · simp only [SpelledArray, place, ← exact]
    constructor
    · intro same
      exact separate [] [] (by rw [same])
    · intro same
      rw [same]
  · dsimp only at joined ⊢
    rw [separate x y joined]

end

theorem uint_mirrors : Mirrors uint (fun v => Enc.uint v.toNat) := uint_yields

theorem lossy_mirrors : Mirrors decTrue (fun _ => encTrue) := true_mirrors.mono fun _ _ h => h.2

theorem lossy_shown ⦃d d' : Cursor.Dec⦄ ⦃b : Bool⦄ (run : decTrue d = .ok (b, d')) :
    b = true ∧ True ↔ True := by
  obtain ⟨_, _, rfl, _⟩ := true_mirrors run
  simp

theorem sorted_set_spells {α : Type} [LinearOrder α] {f : Parser α} [Steady f] {write : α → Bytes}
    (each : Mirrors f write) : Spells (sortedArray f)
      (fun l => Enc.sortedArray ((BTreeSet.ofList l).toList.map write)) (fun _ => True) :=
  Mirrors.spells ((sorted_set_mirrors each).mono fun _ _ h => h.1)

theorem reserved_shown : ∀ ⦃d d' : Cursor.Dec⦄ ⦃n : UInt64⦄, uint d = .ok (n, d') →
    ((n != 0) = true ∧ True ↔ ¬ EmptyItem 0 d) := by
  refine shown_of_head (uint_yields.mono ?_)
  rintro n _ rfl
  refine ⟨n.toNat, [], (List.append_nil _).symm, ?_⟩
  rw [bne_iff_ne, ne_eq, ne_eq, ← UInt64.toNat_inj]
  rfl

section
variable [Unicode]

theorem schema_mirrors (start : Nat) :
    Mirrors (named start SchemaId.parse) (fun s => Enc.text s.asStr) :=
  named_mirrors start fun _ _ => SchemaId.parse_as_str

theorem schema_forward_mirrors (start : Nat) :
    Mirrors (named start SchemaId.parseForward) (fun s => Enc.text s.asStr) :=
  named_mirrors start fun _ _ => SchemaId.parse_forward_as_str

theorem text_shown : ∀ ⦃d d' : Cursor.Dec⦄ ⦃s : String⦄, text d = .ok (s, d') →
    ((normalise s != "") = true ∧ True ↔ ¬ EmptyItem 3 d) := by
  refine shown_of_head (text_yields.mono ?_)
  rintro s _ ⟨rfl, nfc⟩
  refine ⟨(utf8 (normalise s)).length, utf8 (normalise s), rfl, ?_⟩
  have empty : utf8 "" = [] := rfl
  rw [bne_iff_ne, ne_eq, ne_eq, List.length_eq_zero_iff, ← empty, utf8_injective.eq_iff]

theorem text_map_shown : ∀ ⦃d d' : Cursor.Dec⦄ ⦃m : BTreeMap String String⦄,
    decTextMap d = .ok (m, d') → ((!m.isEmpty) = true ∧ True ↔ ¬ EmptyItem 5 d) := by
  refine shown_of_head (text_map_yields.mono ?_)
  rintro m _ ⟨_, _, rfl, rfl⟩
  exact ⟨_, _, rfl, by simp [BTreeMap.isEmpty]⟩

theorem normal_text_mirrors : Mirrors text normalText :=
  text_yields.mono fun s raw read => by
    rw [read.1, normalText, normalise_of_nfc read.2]

theorem text_mirrors : Mirrors text Enc.text := text_yields.mono fun _ _ h => h.1

/-- A date read with a plus sign is written without it. -/
theorem date_spells (start : Nat) : Spells (named start Date.parse)
    (fun d => Enc.text d.toText) (fun d => (0x2B : UInt8) ∉ d.rest.take 11) := by
  intro d d' date run
  obtain ⟨s, d₁, read, run⟩ := bind_ok run
  obtain ⟨raw, eq, rfl, nfc⟩ := text_yields read
  cases parsed : Date.parse s with
  | none =>
    rw [parsed] at run
    cases run
  | some date' =>
    rw [parsed] at run
    cases run
    obtain ⟨len, len', exact⟩ := Date.parse_exact parsed
    have same : Unicode.isNfc date.toText = true := by
      refine nfc_of_ascii fun b mem => ?_
      exact date.to_text_ascii b mem
    have written : Enc.text date.toText = 0x6A :: utf8 date.toText := by
      rw [Enc.text, normalise_of_nfc same, len']
      rfl
    have stood : Enc.text s = 0x6A :: utf8 s := by
      rw [Enc.text, normalise_of_nfc nfc, len]
      rfl
    have taken : d.rest.take 11 = 0x6A :: utf8 s := by
      rw [eq, stood]
      exact List.take_left' (by simp [len])
    refine ⟨Enc.text s, eq, ?_, fun x y joined => ?_⟩
    · dsimp only
      rw [taken, written, stood, List.cons.injEq, utf8_injective.eq_iff, exact]
      simp
    · dsimp only at joined ⊢
      rw [written, stood] at joined ⊢
      have bodies := List.append_inj joined (by simp [len, len'])
      rw [bodies.1]

/-- The text a decoder takes is the only one that stands where it stood. -/
theorem stands_read {s t : String} {d d' : Cursor.Dec} (read : text d = .ok (t, d'))
    (short : (utf8 s).length < 2 ^ 64) : Stands s d ↔ s = t := by
  obtain ⟨n, d₁, head, run⟩ := bind_ok (show (expect 3 >>= textOf d.pos) d = _ from read)
  obtain ⟨_, eq, rfl, bound⟩ := expect_yields 3 head
  obtain ⟨_, rest, rfl, rfl, _⟩ := text_of_yields d.pos n run
  rw [Stands, eq, rest]
  constructor
  · rintro ⟨tail, joined⟩
    rw [List.append_assoc] at joined
    obtain ⟨_, len, bodies⟩ := head_apart (by norm_num) (by norm_num) short bound joined
    exact utf8_injective (List.append_inj bodies len).1
  · rintro rfl
    rw [← List.append_assoc]
    exact List.prefix_append _ _

theorem rel_kind_spells : Spells decRelKind encRelKind (fun d => ¬ NamesKernel d) := by
  intro d d' kind run
  obtain ⟨start, d₀, placed, run⟩ := bind_ok run
  cases placed
  obtain ⟨b, d₀, peeked, run⟩ := bind_ok run
  obtain ⟨rfl, first⟩ := peek_ok peeked
  split at run
  · rename_i number
    obtain ⟨c, d₁, read, run⟩ := bind_ok run
    obtain ⟨raw, eq, rfl⟩ := code_mirrors d₀.pos read
    cases found : RelKind.fromCode c with
    | none =>
      rw [found] at run
      cases run
    | some k =>
      rw [found] at run
      cases run
      have written : encRelKind kind = encCode c := by
        rw [encRelKind, RelKind.from_code_some found]
      refine ⟨encCode c, eq, ?_, fun x y _ => written⟩
      refine iff_of_true written fun named => ?_
      obtain ⟨k, _, stands⟩ := named
      obtain ⟨b', first', major⟩ := stands_major stands
      rw [first] at first'
      cases first'
      omega
  split at run
  · obtain ⟨s, d₁, read, run⟩ := bind_ok run
    obtain ⟨raw, eq, rfl, nfc⟩ := text_yields read
    cases parsed : RelKind.parse s with
    | none =>
      rw [parsed] at run
      cases run
    | some k =>
      rw [parsed] at run
      cases run
      have named : NamesKernel d₀ ↔ kind.code.isSome = true := by
        rw [RelKind.parse_named_iff parsed, NamesKernel]
        refine exists_congr fun k => and_congr_right fun mem => ?_
        exact stands_read read (kernel_names_short k mem)
      refine ⟨Enc.text s, eq, ?_⟩
      dsimp only
      rw [named]
      cases coded : kind.code with
      | none =>
        have written : encRelKind kind = Enc.text s := by
          rw [encRelKind, coded, RelKind.parse_as_str parsed]
        exact ⟨by simpa using written, fun _ _ _ => written⟩
      | some c =>
        have apart : ∀ x y, encRelKind kind ++ x ≠ Enc.text s ++ y := by
          intro x y joined
          obtain ⟨b₁, first₁, major₁⟩ := head_first 0 c.toNat x (by norm_num)
          obtain ⟨b₂, first₂, major₂⟩ := head_first 3 (utf8 (normalise s)).length
            (utf8 (normalise s) ++ y) (by norm_num)
          have code : encRelKind kind = Enc.head 0 c.toNat := by
            rw [encRelKind, coded]
            rfl
          rw [code, Enc.text, List.append_assoc] at joined
          rw [← joined, first₁] at first₂
          cases first₂
          omega
        refine ⟨?_, fun x y joined => absurd joined (apart x y)⟩
        simp only [Option.isSome_some, not_true, iff_false]
        intro same
        exact apart [] [] (by rw [same])
  · cases run

theorem text_map_mirrors : Mirrors decTextMap (fun m => encTextMap m.entries) :=
  text_map_yields.mono fun _ _ ⟨_, _, _, written⟩ => written

/-- A skipped item is never empty, so it is written as it stood. -/
theorem opaque_mirrors {empty : UInt8} : Mirrors skipItem (encOpaque empty) :=
  skip_item_yields.mono fun b raw ⟨same, whole⟩ => by
    rw [encOpaque, if_neg (by simpa using whole.1), same]

theorem rel_kinds_shown ⦃d d' : Cursor.Dec⦄ ⦃l : List RelKind⦄
    (run : array decRelKind d = .ok (l, d')) :
    (!(l.map encRelKind).isEmpty) = true ∧ SpelledArray decRelKind (fun d => ¬ NamesKernel d) d ↔
      ¬ EmptyItem 4 d ∧ SpelledArray decRelKind (fun d => ¬ NamesKernel d) d := by
  obtain ⟨n, d₁, head, run⟩ := bind_ok run
  obtain ⟨_, eq, rfl, _⟩ := expect_yields 4 head
  obtain ⟨_, _, _, rfl, _⟩ := times_spells rel_kind_spells run
  rw [empty_item_iff eq, List.length_eq_zero_iff]
  simp

theorem filled_text_slot (s : String) :
    (filledText (some s)).map Enc.text = slotWhen (normalise s != "") (normalText s) := by
  by_cases empty : normalise s = ""
  · simp [filledText, slotWhen, empty]
  · simp [filledText, slotWhen, empty, Option.filter]
    rfl

def sourceSpelled : Nat → Cursor.Dec → Prop
  | 2, d => (0x2B : UInt8) ∉ d.rest.take 11
  | _, _ => True

theorem source_fills : ArmsFill sourceArms SourceAcc.slots 7 sourceSpelled where
  slots _ := rfl
  narrow := by norm_num
  unknown start := unknown_of (fun k low => by interval_cases k <;> rfl) fun _ => rfl
  plain k d far := by
    obtain ⟨j, rfl⟩ := Nat.exists_eq_add_of_le' far
    trivial
  known start k arm here := by
    match k with
    | 0 => exact mirror_fills (code_mirrors start) here fun _ _ => rfl
    | 1 => exact mirror_fills normal_text_mirrors here fun _ _ => rfl
    | 2 => exact field_fills (date_spells start) here fun _ _ => rfl
    | 3 => exact mirror_fills uint_yields here fun _ _ => rfl
    | 4 => exact mirror_fills text_mirrors here fun _ _ => rfl
    | 5 => exact mirror_fills (span_mirrors start) here fun _ _ => rfl
    | 6 => exact mirror_fills digest_mirrors here fun _ _ => rfl
    | _ + 7 => cases here

/-- The date a source was captured on is written without a plus sign. -/
def CanonicalSource : Cursor.Dec → Prop := SpelledMap sourceArms sourceSpelled []

theorem source_spells : Spells decSource encSource CanonicalSource :=
  dec_map_spells source_fills (none_always (by simp [SourceAcc.slots])) fun _ _ _ => source_made

def unitSpelled : Nat → Cursor.Dec → Prop
  | 2, d => ¬ EmptyItem 3 d
  | 3, d => ¬ EmptyItem 3 d
  | 4, d => ¬ EmptyItem 4 d
  | 5, d => ¬ EmptyItem 4 d
  | 7, d => CanonicalSource d
  | _, _ => True

theorem unit_fills : ArmsFill unitArms UnitAcc.slots 10 unitSpelled where
  slots _ := rfl
  narrow := by norm_num
  unknown start := unknown_of (fun k low => by interval_cases k <;> rfl) fun _ => rfl
  plain k d far := by
    obtain ⟨j, rfl⟩ := Nat.exists_eq_add_of_le' far
    trivial
  known start k arm here := by
    match k with
    | 0 => exact mirror_fills (schema_forward_mirrors start) here fun _ _ => rfl
    | 1 => exact mirror_fills normal_text_mirrors here fun _ _ => rfl
    | 2 =>
      refine field_fills_when normal_text_mirrors.spells here (fun v a => ?_) text_shown
      simp [UnitAcc.slots, filled_text_slot]
    | 3 =>
      refine field_fills_when normal_text_mirrors.spells here (fun v a => ?_) text_shown
      simp [UnitAcc.slots, filled_text_slot]
    | 4 => exact field_fills_when uid_set_mirrors.spells here (fun _ _ => rfl) uid_set_shown
    | 5 => exact field_fills_when uid_set_mirrors.spells here (fun _ _ => rfl) uid_set_shown
    | 6 => exact mirror_fills (code_mirrors start) here fun _ _ => rfl
    | 7 => exact field_fills source_spells here fun _ _ => rfl
    | 8 => exact mirror_fills bytes_yields here fun _ _ => rfl
    | 9 => exact mirror_fills (name_mirrors start) here fun _ _ => rfl
    | _ + 10 => cases here

/-- A body or detail that is there has text in it, and sets have elements. -/
def CanonicalUnit : Cursor.Dec → Prop := SpelledMap unitArms unitSpelled []

theorem unit_spells : Spells decUnit unitCoreBytes CanonicalUnit :=
  dec_map_spells unit_fills (none_always (by simp [UnitAcc.slots])) fun _ _ _ => unit_made

def attestationSpelled : Nat → Cursor.Dec → Prop
  | 3, d => ¬ EmptyItem 4 d
  | _, _ => True

theorem attestation_fills : ArmsFill attestationArms AttestationAcc.slots 10 attestationSpelled where
  slots _ := rfl
  narrow := by norm_num
  unknown start := unknown_of (fun k low => by interval_cases k <;> rfl) fun _ => rfl
  plain k d far := by
    obtain ⟨j, rfl⟩ := Nat.exists_eq_add_of_le' far
    trivial
  known start k arm here := by
    match k with
    | 0 => exact mirror_fills uid_yields here fun _ _ => rfl
    | 1 => exact mirror_fills (name_mirrors start) here fun _ _ => rfl
    | 2 => exact mirror_fills (uint32_mirrors start) here fun _ _ => rfl
    | 3 => exact field_fills_when uid_set_mirrors.spells here (fun _ _ => rfl) uid_set_shown
    | 4 => exact mirror_fills hlc_mirrors here fun _ _ => rfl
    | 5 => exact mirror_fills (code_mirrors start) here fun _ _ => rfl
    | 6 => exact mirror_fills bytes32_mirrors here fun _ _ => rfl
    | 7 => exact mirror_fills bytes_yields here fun _ _ => rfl
    | 8 => exact mirror_fills (code_mirrors start) here fun _ _ => rfl
    | 9 => exact mirror_fills bytes32_mirrors here fun _ _ => rfl
    | _ + 10 => cases here

theorem attestation_always (k : Nat) :
    ((({} : AttestationAcc).slots)[k]?).join ≠ none ↔ k ∈ [2] := by
  rcases Nat.lt_or_ge k 10 with low | far
  · interval_cases k <;> simp [AttestationAcc.slots]
  · have past : (({} : AttestationAcc).slots)[k]? = none := List.getElem?_eq_none far
    rw [past]
    simp
    omega

/-- The hop count is there, also when it is zero. -/
def CanonicalAttestation : Cursor.Dec → Prop := SpelledMap attestationArms attestationSpelled [2]

theorem attestation_spells : Spells decAttestation attestationBytes CanonicalAttestation :=
  dec_map_spells attestation_fills attestation_always fun _ _ _ => attestation_made

def relationSpelled : Nat → Cursor.Dec → Prop
  | 0, d => ¬ NamesKernel d
  | _, _ => True

theorem relation_fills : ArmsFill relationArms RelationAcc.slots 5 relationSpelled where
  slots _ := rfl
  narrow := by norm_num
  unknown start := unknown_of (fun k low => by interval_cases k <;> rfl) fun _ => rfl
  plain k d far := by
    obtain ⟨j, rfl⟩ := Nat.exists_eq_add_of_le' far
    trivial
  known start k arm here := by
    match k with
    | 0 => exact field_fills rel_kind_spells here fun _ _ => rfl
    | 1 => exact mirror_fills uid_yields here fun _ _ => rfl
    | 2 => exact mirror_fills uid_yields here fun _ _ => rfl
    | 3 => exact mirror_fills f32q_yields here fun _ _ => rfl
    | 4 => exact mirror_fills uid_yields here fun _ _ => rfl
    | _ + 5 => cases here

def CanonicalRelation : Cursor.Dec → Prop := SpelledMap relationArms relationSpelled []

theorem relation_spells : Spells decRelation relationBytes CanonicalRelation :=
  dec_map_spells relation_fills (none_always (by simp [RelationAcc.slots])) fun _ _ _ => relation_made

def threadSpelled : Nat → Cursor.Dec → Prop
  | 4, d => ¬ EmptyItem 4 d
  | _, _ => True

theorem thread_fills : ArmsFill threadArms ThreadAcc.slots 6 threadSpelled where
  slots _ := rfl
  narrow := by norm_num
  unknown start := unknown_of (fun k low => by interval_cases k <;> rfl) fun _ => rfl
  plain k d far := by
    obtain ⟨j, rfl⟩ := Nat.exists_eq_add_of_le' far
    trivial
  known start k arm here := by
    match k with
    | 0 => exact mirror_fills (name_mirrors start) here fun _ _ => rfl
    | 1 => exact mirror_fills (code_mirrors start) here fun _ _ => rfl
    | 2 => exact mirror_fills (name_mirrors start) here fun _ _ => rfl
    | 3 => exact mirror_fills text_mirrors here fun _ _ => rfl
    | 4 =>
      exact field_fills_when (array_mirrors step_mirrors).spells here (fun _ _ => rfl) (array_shown step_mirrors)
    | 5 => exact mirror_fills hlc_mirrors here fun _ _ => rfl
    | _ + 6 => cases here

def CanonicalThread : Cursor.Dec → Prop := SpelledMap threadArms threadSpelled []

theorem thread_spells : Spells decThread threadBytes CanonicalThread :=
  dec_map_spells thread_fills (none_always (by simp [ThreadAcc.slots])) fun _ _ _ => thread_made

def granularitySpelled : Nat → Cursor.Dec → Prop
  | 5, d => ¬ Stands TokenEstimator.utf8Div4.id d
  | _, _ => True

theorem estimator_shown ⦃d d' : Cursor.Dec⦄ ⦃s : String⦄ (run : text d = .ok (s, d')) :
    (s != TokenEstimator.utf8Div4.id) = true ∧ True ↔ ¬ Stands TokenEstimator.utf8Div4.id d := by
  rw [stands_read run (by decide), bne_iff_ne, and_true, ne_comm]

theorem granularity_fills : ArmsFill granularityArms GranularityAcc.slots 6 granularitySpelled where
  slots _ := rfl
  narrow := by norm_num
  unknown start := unknown_of (fun k low => by interval_cases k <;> rfl) fun _ => rfl
  plain k d far := by
    obtain ⟨j, rfl⟩ := Nat.exists_eq_add_of_le' far
    trivial
  known start k arm here := by
    match k with
    | 0 => exact mirror_fills text_mirrors here fun _ _ => rfl
    | 1 => exact mirror_fills (uint32_mirrors start) here fun _ _ => rfl
    | 2 => exact mirror_fills (uint32_mirrors start) here fun _ _ => rfl
    | 3 => exact mirror_fills (uint32_mirrors start) here fun _ _ => rfl
    | 4 => exact mirror_fills (code_mirrors start) here fun _ _ => rfl
    | 5 =>
      refine field_fills_when text_mirrors.spells here (fun v a => ?_) estimator_shown
      by_cases named : v = TokenEstimator.utf8Div4.id <;>
        simp [GranularityAcc.slots, ProfileEstimator.wire_id_from_wire, slotWhen, named]
    | _ + 6 => cases here

theorem granularity_always (k : Nat) :
    ((({} : GranularityAcc).slots)[k]?).join ≠ none ↔ k ∈ [0, 1, 2, 3, 4] := by
  rcases Nat.lt_or_ge k 6 with low | far
  · interval_cases k <;> simp [GranularityAcc.slots, GranularityProfile.standard,
      ProfileEstimator.wireId]
  · have past : (({} : GranularityAcc).slots)[k]? = none := List.getElem?_eq_none far
    rw [past]
    simp
    omega

/-- No threshold is left to its default, and the default estimator is not named. -/
def CanonicalGranularity : Cursor.Dec → Prop := SpelledMap granularityArms granularitySpelled [0, 1, 2, 3, 4]

theorem granularity_spells : Spells decGranularity encGranularity CanonicalGranularity :=
  dec_map_spells granularity_fills granularity_always fun _ _ _ => granularity_made

def viewSpelled : Nat → Cursor.Dec → Prop
  | 1, d => ¬ EmptyItem 4 d
  | 2, d => ¬ EmptyItem 4 d
  | 3, d => ¬ EmptyItem 4 d
  | 4, d => CanonicalGranularity d
  | _, _ => True

theorem view_fills : ArmsFill viewArms ViewAcc.slots 7 viewSpelled where
  slots _ := rfl
  narrow := by norm_num
  unknown start := unknown_of (fun k low => by interval_cases k <;> rfl) fun _ => rfl
  plain k d far := by
    obtain ⟨j, rfl⟩ := Nat.exists_eq_add_of_le' far
    trivial
  known start k arm here := by
    match k with
    | 0 => exact mirror_fills (name_mirrors start) here fun _ _ => rfl
    | 1 => exact field_fills_when uid_set_mirrors.spells here (fun _ _ => rfl) uid_set_shown
    | 2 =>
      exact field_fills_when (sorted_set_spells (name_mirrors start)) here (fun _ _ => rfl)
        (sorted_set_shown (name_mirrors start))
    | 3 =>
      exact field_fills_when (sorted_set_spells (schema_mirrors start)) here (fun _ _ => rfl)
        (sorted_set_shown (schema_mirrors start))
    | 4 => exact field_fills granularity_spells here fun _ _ => rfl
    | 5 => exact mirror_fills text_mirrors here fun _ _ => rfl
    | 6 => exact mirror_fills (name_mirrors start) here fun _ _ => rfl
    | _ + 7 => cases here

def CanonicalView : Cursor.Dec → Prop := SpelledMap viewArms viewSpelled []

theorem view_spells : Spells decView viewBytes CanonicalView :=
  dec_map_spells view_fills (none_always (by simp [ViewAcc.slots])) fun _ _ _ => view_made

def contentionSpelled : Nat → Cursor.Dec → Prop
  | 2, d => ¬ EmptyItem 4 d
  | _, _ => True

theorem contention_fills : ArmsFill contentionArms ContentionAcc.slots 5 contentionSpelled where
  slots _ := rfl
  narrow := by norm_num
  unknown start := unknown_of (fun k low => by interval_cases k <;> rfl) fun _ => rfl
  plain k d far := by
    obtain ⟨j, rfl⟩ := Nat.exists_eq_add_of_le' far
    trivial
  known start k arm here := by
    match k with
    | 0 => exact mirror_fills (name_mirrors start) here fun _ _ => rfl
    | 1 => exact mirror_fills uid_yields here fun _ _ => rfl
    | 2 =>
      exact field_fills_when (array_mirrors uid_yields).spells here (fun _ _ => rfl) (array_shown uid_yields)
    | 3 => exact mirror_fills detected_mirrors here fun _ _ => rfl
    | 4 => exact mirror_fills (code_mirrors start) here fun _ _ => rfl
    | _ + 5 => cases here

def CanonicalContention : Cursor.Dec → Prop := SpelledMap contentionArms contentionSpelled []

theorem contention_spells : Spells decContention contentionBytes CanonicalContention :=
  dec_map_spells contention_fills (none_always (by simp [ContentionAcc.slots])) fun _ _ _ => contention_made

def packinfoSpelled : Nat → Cursor.Dec → Prop
  | 3, d => ¬ EmptyItem 4 d
  | 4, d => ¬ EmptyItem 4 d
  | 7, d => ¬ EmptyItem 0 d
  | _, _ => True

theorem packinfo_fills : ArmsFill packinfoArms PackInfoAcc.slots 8 packinfoSpelled where
  slots _ := rfl
  narrow := by norm_num
  unknown start := unknown_of (fun k low => by interval_cases k <;> rfl) fun _ => rfl
  plain k d far := by
    obtain ⟨j, rfl⟩ := Nat.exists_eq_add_of_le' far
    trivial
  known start k arm here := by
    match k with
    | 0 => exact mirror_fills uint_yields here fun _ _ => rfl
    | 1 => exact mirror_fills uint_yields here fun _ _ => rfl
    | 2 => exact mirror_fills (name_mirrors start) here fun _ _ => rfl
    | 3 =>
      exact field_fills_when (array_mirrors fate_mirrors).spells here (fun _ _ => rfl) (array_shown fate_mirrors)
    | 4 =>
      exact field_fills_when (array_mirrors fate_mirrors).spells here (fun _ _ => rfl) (array_shown fate_mirrors)
    | 5 => exact mirror_fills optimality_mirrors here fun _ _ => rfl
    | 6 => exact mirror_fills text_mirrors here fun _ _ => rfl
    | 7 => exact field_fills_when uint_mirrors.spells here (fun _ _ => rfl) reserved_shown
    | _ + 8 => cases here

def CanonicalPackInfo : Cursor.Dec → Prop := SpelledMap packinfoArms packinfoSpelled []

theorem packinfo_spells : Spells decPackinfo packinfoBytes CanonicalPackInfo :=
  dec_map_spells packinfo_fills (none_always (by simp [PackInfoAcc.slots])) fun _ _ _ => packinfo_made

def schemaDeclSpelled : Nat → Cursor.Dec → Prop
  | 2, d => ¬ EmptyItem 4 d
  | 3, d => ¬ EmptyItem 4 d ∧ SpelledArray decRelKind (fun d => ¬ NamesKernel d) d
  | _, _ => True

theorem schema_decl_fills : ArmsFill schemaDeclArms SchemaDeclAcc.slots 6 schemaDeclSpelled where
  slots _ := rfl
  narrow := by norm_num
  unknown start := unknown_of (fun k low => by interval_cases k <;> rfl) fun _ => rfl
  plain k d far := by
    obtain ⟨j, rfl⟩ := Nat.exists_eq_add_of_le' far
    trivial
  known start k arm here := by
    match k with
    | 0 => exact mirror_fills (schema_mirrors start) here fun _ _ => rfl
    | 1 => exact mirror_fills (uint32_mirrors start) here fun _ _ => rfl
    | 2 =>
      have each := schema_mirrors start
      exact field_fills_when (array_mirrors each).spells here (fun _ _ => rfl) (array_shown each)
    | 3 =>
      exact field_fills_when (array_spells rel_kind_spells) here (fun _ _ => rfl) rel_kinds_shown
    | 4 => exact mirror_fills bytes_yields here fun _ _ => rfl
    | 5 => exact mirror_fills skip_item_mirrors here fun _ _ => rfl
    | _ + 6 => cases here

def CanonicalSchemaDecl : Cursor.Dec → Prop := SpelledMap schemaDeclArms schemaDeclSpelled []

theorem schema_decl_spells : Spells decSchemaDecl schemaDeclBytes CanonicalSchemaDecl :=
  dec_map_spells schema_decl_fills (none_always (by simp [SchemaDeclAcc.slots])) fun _ _ _ => schema_decl_made

theorem label_binding_fills : ArmsFill labelBindingArms LabelBindingAcc.slots 2 (fun _ _ => True) where
  slots _ := rfl
  narrow := by norm_num
  unknown start := unknown_of (fun k low => by interval_cases k <;> rfl) fun _ => rfl
  plain _ _ _ := trivial
  known start k arm here := by
    match k with
    | 0 => exact mirror_fills (name_mirrors start) here fun _ _ => rfl
    | 1 => exact mirror_fills uid_yields here fun _ _ => rfl
    | _ + 2 => cases here

theorem label_binding_mirrors : Mirrors decLabelBinding labelBindingBytes :=
  dec_map_mirrors label_binding_fills (nothing_written (by simp [LabelBindingAcc.slots])) fun _ _ _ => label_binding_made

theorem withdrawal_fills : ArmsFill withdrawalArms WithdrawalAcc.slots 4 (fun _ _ => True) where
  slots _ := rfl
  narrow := by norm_num
  unknown start := unknown_of (fun k low => by interval_cases k <;> rfl) fun _ => rfl
  plain _ _ _ := trivial
  known start k arm here := by
    match k with
    | 0 => exact mirror_fills uid_yields here fun _ _ => rfl
    | 1 => exact mirror_fills (name_mirrors start) here fun _ _ => rfl
    | 2 => exact mirror_fills hlc_mirrors here fun _ _ => rfl
    | 3 => exact mirror_fills uid_yields here fun _ _ => rfl
    | _ + 4 => cases here

theorem withdrawal_mirrors : Mirrors decWithdrawal withdrawalBytes :=
  dec_map_mirrors withdrawal_fills (nothing_written (by simp [WithdrawalAcc.slots])) fun _ _ _ => withdrawal_made

theorem resolution_fills : ArmsFill resolutionArms ResolutionAcc.slots 5 (fun _ _ => True) where
  slots _ := rfl
  narrow := by norm_num
  unknown start := unknown_of (fun k low => by interval_cases k <;> rfl) fun _ => rfl
  plain _ _ _ := trivial
  known start k arm here := by
    match k with
    | 0 => exact mirror_fills (name_mirrors start) here fun _ _ => rfl
    | 1 => exact mirror_fills uid_yields here fun _ _ => rfl
    | 2 => exact mirror_fills (name_mirrors start) here fun _ _ => rfl
    | 3 => exact mirror_fills hlc_mirrors here fun _ _ => rfl
    | 4 => exact mirror_fills uid_yields here fun _ _ => rfl
    | _ + 5 => cases here

theorem resolution_mirrors : Mirrors decResolution resolutionBytes :=
  dec_map_mirrors resolution_fills (nothing_written (by simp [ResolutionAcc.slots])) fun _ _ _ => resolution_made

theorem commit_fills : ArmsFill commitArms CommitAcc.slots 5 (fun _ _ => True) where
  slots _ := rfl
  narrow := by norm_num
  unknown start := unknown_of (fun k low => by interval_cases k <;> rfl) fun _ => rfl
  plain _ _ _ := trivial
  known start k arm here := by
    match k with
    | 0 => exact mirror_fills uid_yields here fun _ _ => rfl
    | 1 => exact mirror_fills (closed_mirrors start) here fun _ _ => rfl
    | 2 => exact mirror_fills (name_mirrors start) here fun _ _ => rfl
    | 3 => exact mirror_fills hlc_mirrors here fun _ _ => rfl
    | 4 => exact mirror_fills uid_yields here fun _ _ => rfl
    | _ + 5 => cases here

theorem commit_mirrors : Mirrors decCommit commitBytes :=
  dec_map_mirrors commit_fills (nothing_written (by simp [CommitAcc.slots])) fun _ _ _ => commit_made

theorem part_entry_fills : ArmsFill partEntryArms PartEntryAcc.slots 5 (fun _ _ => True) where
  slots _ := rfl
  narrow := by norm_num
  unknown start := unknown_of (fun k low => by interval_cases k <;> rfl) fun _ => rfl
  plain _ _ _ := trivial
  known start k arm here := by
    match k with
    | 0 => exact mirror_fills digest_mirrors here fun _ _ => rfl
    | 1 => exact mirror_fills uint_yields here fun _ _ => rfl
    | 2 => exact mirror_fills bytes32_mirrors here fun _ _ => rfl
    | 3 => exact mirror_fills digest_mirrors here fun _ _ => rfl
    | 4 => exact mirror_fills (name_mirrors start) here fun _ _ => rfl
    | _ + 5 => cases here

theorem part_entry_mirrors : Mirrors decPartEntry encPartEntry :=
  dec_map_mirrors part_entry_fills (nothing_written (by simp [PartEntryAcc.slots])) fun _ _ _ => part_entry_made

def manifestSpelled : Nat → Cursor.Dec → Prop
  | 7, d => ¬ EmptyItem 4 d
  | 9, d => ¬ EmptyItem 5 d
  | 10, d => CanonicalSource d
  | _, _ => True

theorem manifest_fills : ArmsFill manifestArms ManifestAcc.slots 19 manifestSpelled where
  slots _ := rfl
  narrow := by norm_num
  unknown start := unknown_of (fun k low => by interval_cases k <;> rfl) fun _ => rfl
  plain k d far := by
    obtain ⟨j, rfl⟩ := Nat.exists_eq_add_of_le' far
    trivial
  known start k arm here := by
    match k with
    | 0 => exact mirror_fills text_mirrors here fun _ _ => rfl
    | 1 => exact mirror_fills (array_mirrors part_entry_mirrors) here fun _ _ => rfl
    | 2 => exact mirror_fills (name_mirrors start) here fun _ _ => rfl
    | 3 => exact mirror_fills text_mirrors here fun _ _ => rfl
    | 4 => exact mirror_fills text_mirrors here fun _ _ => rfl
    | 5 => exact mirror_fills (closed_mirrors start) here fun _ _ => rfl
    | 6 => exact mirror_fills text_mirrors here fun _ _ => rfl
    | 7 =>
      exact field_fills_when (array_mirrors text_mirrors).spells here (fun _ _ => rfl) (array_shown text_mirrors)
    | 8 => exact mirror_fills text_mirrors here fun _ _ => rfl
    | 9 => exact field_fills_when text_map_mirrors.spells here (fun _ _ => rfl) text_map_shown
    | 10 => exact field_fills source_spells here fun _ _ => rfl
    | 11 => exact mirror_fills digest_mirrors here fun _ _ => rfl
    | 12 => exact mirror_fills (wire_name_mirrors start) here fun _ _ => rfl
    | 13 => exact mirror_fills digest_mirrors here fun _ _ => rfl
    | 14 => exact mirror_fills text_mirrors here fun _ _ => rfl
    | 15 => exact field_fills_when lossy_mirrors.spells here (fun _ _ => rfl) lossy_shown
    | 16 => exact mirror_fills opaque_mirrors here fun _ _ => rfl
    | 17 => exact mirror_fills text_mirrors here fun _ _ => rfl
    | 18 => exact mirror_fills (wire_name_mirrors start) here fun _ _ => rfl
    | _ + 19 => cases here

def CanonicalManifest : Cursor.Dec → Prop := SpelledMap manifestArms manifestSpelled []

theorem manifest_spells : Spells decManifest manifestBytes CanonicalManifest :=
  dec_map_spells manifest_fills (none_always (by simp [ManifestAcc.slots])) fun _ _ _ => manifest_made

omit [Unicode] in
theorem part_text_fills : ArmsFill partTextArms PartTextAcc.slots 2 (fun _ _ => True) where
  slots _ := rfl
  narrow := by norm_num
  unknown start := unknown_of (fun k low => by interval_cases k <;> rfl) fun _ => rfl
  plain _ _ _ := trivial
  known start k arm here := by
    match k with
    | 0 => exact mirror_fills digest_mirrors here fun _ _ => rfl
    | 1 => exact mirror_fills bytes_yields here fun _ _ => rfl
    | _ + 2 => cases here

theorem part_text_mirrors : Mirrors decPartText partTextBytes :=
  dec_map_mirrors part_text_fills (nothing_written (by simp [PartTextAcc.slots])) fun _ _ _ => part_text_made

theorem part_reading_fills : ArmsFill partReadingArms PartReadingAcc.slots 4 (fun _ _ => True) where
  slots _ := rfl
  narrow := by norm_num
  unknown start := unknown_of (fun k low => by interval_cases k <;> rfl) fun _ => rfl
  plain _ _ _ := trivial
  known start k arm here := by
    match k with
    | 0 => exact mirror_fills digest_mirrors here fun _ _ => rfl
    | 1 => exact mirror_fills text_mirrors here fun _ _ => rfl
    | 2 => exact mirror_fills opaque_mirrors here fun _ _ => rfl
    | 3 => exact mirror_fills opaque_mirrors here fun _ _ => rfl
    | _ + 4 => cases here

theorem part_reading_mirrors : Mirrors decPartReading partReadingBytes :=
  dec_map_mirrors part_reading_fills (nothing_written (by simp [PartReadingAcc.slots])) fun _ _ _ => part_reading_made

theorem dating_fills : ArmsFill datingArms DatingAcc.slots 6 (fun _ _ => True) where
  slots _ := rfl
  narrow := by norm_num
  unknown start := unknown_of (fun k low => by interval_cases k <;> rfl) fun _ => rfl
  plain _ _ _ := trivial
  known start k arm here := by
    match k with
    | 0 => exact mirror_fills dating_target_mirrors here fun _ _ => rfl
    | 1 => exact mirror_fills (closed_mirrors start) here fun _ _ => rfl
    | 2 => exact mirror_fills dating_value_mirrors here fun _ _ => rfl
    | 3 => exact mirror_fills uid_yields here fun _ _ => rfl
    | 4 => exact mirror_fills (name_mirrors start) here fun _ _ => rfl
    | 5 => exact mirror_fills hlc_mirrors here fun _ _ => rfl
    | _ + 6 => cases here

theorem dating_mirrors : Mirrors decDating datingBytes :=
  dec_map_mirrors dating_fills (nothing_written (by simp [DatingAcc.slots])) fun _ _ _ => dating_made

theorem redaction_fills : ArmsFill redactionArms RedactionAcc.slots 4 (fun _ _ => True) where
  slots _ := rfl
  narrow := by norm_num
  unknown start := unknown_of (fun k low => by interval_cases k <;> rfl) fun _ => rfl
  plain _ _ _ := trivial
  known start k arm here := by
    match k with
    | 0 => exact mirror_fills digest_mirrors here fun _ _ => rfl
    | 1 => exact mirror_fills (name_mirrors start) here fun _ _ => rfl
    | 2 => exact mirror_fills hlc_mirrors here fun _ _ => rfl
    | 3 => exact mirror_fills uid_yields here fun _ _ => rfl
    | _ + 4 => cases here

theorem redaction_mirrors : Mirrors decRedaction redactionBytes :=
  dec_map_mirrors redaction_fills (nothing_written (by simp [RedactionAcc.slots])) fun _ _ _ => redaction_made

/-- A payload of a known type spelled as the encoder spells it. One of an
unknown type is kept as it stands. -/
def CanonicalPayload (code : UInt64) : Cursor.Dec → Prop :=
  match code with
  | 1 => CanonicalUnit
  | 2 => CanonicalAttestation
  | 3 => CanonicalRelation
  | 4 => CanonicalThread
  | 5 => CanonicalView
  | 6 => CanonicalContention
  | 7 => CanonicalPackInfo
  | 8 => CanonicalSchemaDecl
  | 14 => CanonicalManifest
  | _ => fun _ => True

def envelopeHead : Parser UInt64 := do
  let start ← position
  tuple start 2
  uint

/-- An envelope whose payload is spelled as the encoder spells it. -/
def Canonical (bytes : Bytes) : Prop :=
  match envelopeHead ⟨0, bytes⟩ with
  | .ok (code, d) => CanonicalPayload code d
  | .error _ => False

theorem record_spells {α : Type} {p : Parser α} {write : α → Bytes} {wrap : α → Record}
    {spelled : Cursor.Dec → Prop} {code : UInt64} {d d' : Cursor.Dec} {r : Record}
    (run : (wrap <$> p) d = .ok (r, d')) (spells : Spells p write spelled)
    (payload : ∀ a, payloadBytes (wrap a) = write a) (typed : ∀ a, (wrap a).typeCode = code) :
    r.typeCode = code ∧ ∃ raw, d.rest = raw ++ d'.rest ∧ (payloadBytes r = raw ↔ spelled d) := by
  obtain ⟨a, read, rfl⟩ := map_ok run
  obtain ⟨raw, eq, exact, _⟩ := spells read
  exact ⟨typed a, raw, eq, by rw [payload, exact]⟩

/-- One case for each record type. -/
theorem payload_spells {code : UInt64} {d d' : Cursor.Dec} {r : Record}
    (run : decPayload code d = .ok (r, d')) : r.typeCode = code ∧
      ∃ raw, d.rest = raw ++ d'.rest ∧ (payloadBytes r = raw ↔ CanonicalPayload code d) := by
  unfold decPayload at run
  split at run <;> simp only [CanonicalPayload]
  · exact record_spells run unit_spells (fun _ => rfl) fun _ => rfl
  · exact record_spells run attestation_spells (fun _ => rfl) fun _ => rfl
  · exact record_spells run relation_spells (fun _ => rfl) fun _ => rfl
  · exact record_spells run thread_spells (fun _ => rfl) fun _ => rfl
  · exact record_spells run view_spells (fun _ => rfl) fun _ => rfl
  · exact record_spells run contention_spells (fun _ => rfl) fun _ => rfl
  · exact record_spells run packinfo_spells (fun _ => rfl) fun _ => rfl
  · exact record_spells run schema_decl_spells (fun _ => rfl) fun _ => rfl
  · exact record_spells run label_binding_mirrors.spells (fun _ => rfl) fun _ => rfl
  · exact record_spells run withdrawal_mirrors.spells (fun _ => rfl) fun _ => rfl
  · exact record_spells run resolution_mirrors.spells (fun _ => rfl) fun _ => rfl
  · exact record_spells run commit_mirrors.spells (fun _ => rfl) fun _ => rfl
  · exact record_spells run manifest_spells (fun _ => rfl) fun _ => rfl
  · exact record_spells run part_text_mirrors.spells (fun _ => rfl) fun _ => rfl
  · exact record_spells run part_reading_mirrors.spells (fun _ => rfl) fun _ => rfl
  · exact record_spells run dating_mirrors.spells (fun _ => rfl) fun _ => rfl
  · exact record_spells run redaction_mirrors.spells (fun _ => rfl) fun _ => rfl
  · exact record_spells run skip_item_mirrors.spells (fun _ => rfl) fun _ => rfl

/-- What is read from an envelope, and how its payload was spelled. -/
theorem from_cbor_parts {bytes : Bytes} {r : Record} {n : Nat}
    (decoded : fromCbor bytes = .ok (r, n)) : ∃ d raw,
      envelopeHead ⟨0, bytes⟩ = .ok (r.typeCode, d) ∧
      bytes.take n = Enc.arrayHead 2 ++ Enc.uint r.typeCode.toNat ++ raw ∧
      (payloadBytes r = raw ↔ CanonicalPayload r.typeCode d) := by
  obtain ⟨d, run, whole, _⟩ := from_cbor_ok decoded
  obtain ⟨start, d₀, placed, run⟩ := bind_ok run
  cases placed
  obtain ⟨⟨⟩, d₁, paired, run⟩ := bind_ok run
  obtain ⟨code, d₂, coded, run⟩ := bind_ok run
  obtain ⟨_, eq₁, rfl⟩ := tuple_mirrors 0 2 paired
  obtain ⟨_, eq₂, rfl⟩ := uint_yields coded
  obtain ⟨typed, raw, eq₃, exact⟩ := payload_spells run
  have head : envelopeHead ⟨0, bytes⟩ = .ok (code, d₂) := by
    rw [envelopeHead, bind_of_ok (show position _ = _ from rfl), bind_of_ok paired, coded]
  have taken : bytes.take n = Enc.arrayHead 2 ++ Enc.uint code.toNat ++ raw := by
    rw [← List.append_cancel_right_eq _ d.rest, ← whole, List.append_assoc, ← eq₃,
      List.append_assoc, ← eq₂, ← eq₁]
  rw [typed]
  exact ⟨d₂, raw, head, taken, exact⟩

/-- A decoded record is written back as the bytes it was read from exactly when
they spelled it as the encoder does. -/
theorem rewritten_iff_canonical {bytes : Bytes} {r : Record} {n : Nat}
    (decoded : fromCbor bytes = .ok (r, n)) : toCbor r = bytes.take n ↔ Canonical bytes := by
  obtain ⟨d, raw, head, taken, exact⟩ := from_cbor_parts decoded
  rw [Canonical, head, toCbor, taken, List.append_cancel_left_eq, exact]

end

/-- A unit with an empty set of dependencies, spelled out. -/
def spelledEmptySet : Bytes :=
  [0x82, 0x01, 0xA4, 0x00, 0x64, 0x64, 0x61, 0x74, 0x61, 0x01, 0x61, 0x67, 0x04, 0x80, 0x06, 0x01]

theorem spelled_unknown_canonical : @toCbor .plain (.unknown 30 [0x00]) =
    [0x82, 0x18, 0x1E, 0x00, 0xFF].take 4 ↔ @Canonical .plain [0x82, 0x18, 0x1E, 0x00, 0xFF] :=
  @rewritten_iff_canonical .plain _ _ 4 (by rfl)

theorem spelled_empty_set_rewritten : ∃ r n, @fromCbor .plain spelledEmptySet = .ok (r, n) ∧
    @toCbor .plain r ≠ spelledEmptySet.take n := by
  have shorter : ∃ out ∈ (@fromCbor .plain spelledEmptySet).toOption,
      @toCbor .plain out.1 ≠ spelledEmptySet.take out.2 := by decide
  obtain ⟨⟨r, n⟩, found, differs⟩ := shorter
  refine ⟨r, n, ?_, differs⟩
  generalize @fromCbor .plain spelledEmptySet = out at found
  cases out <;> cases found
  rfl

end Smysl
