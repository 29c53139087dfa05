import Smysl.Core.Types.Discourse

/-!
The identifier grammars allow ASCII only, so an identifier is in normal form
and is written as it stands.
-/
namespace Smysl
open ByteString

def Ascii (bs : Bytes) : Prop := ∀ b ∈ bs, b.toNat < 128

instance (bs : Bytes) : Decidable (Ascii bs) :=
  inferInstanceAs (Decidable (∀ b ∈ bs, b.toNat < 128))

theorem ascii_append {a b : Bytes} (left : Ascii a) (right : Ascii b) : Ascii (a ++ b) := by
  intro c mem
  rcases List.mem_append.mp mem with early | late
  · exact left c early
  · exact right c late

theorem ascii_cons {c : UInt8} {bs : Bytes} (first : c.toNat < 128) (rest : Ascii bs) :
    Ascii (c :: bs) := by
  intro b mem
  rcases List.mem_cons.mp mem with rfl | later
  · exact first
  · exact rest b later

/-- What a byte class accepts is ASCII, if its greatest byte is. -/
theorem ascii_of_all {class' : UInt8 → Bool} {bs : Bytes}
    (bounded : ∀ c, class' c = true → c.toNat < 128) (all : bs.all class' = true) : Ascii bs :=
  fun b mem => bounded b (List.all_eq_true.mp all b mem)

theorem lowercase_ascii {c : UInt8} (held : isAsciiLowercase c = true) : c.toNat < 128 := by
  simp only [isAsciiLowercase, Bool.and_eq_true, decide_eq_true_eq, UInt8.le_iff_toNat_le] at held
  have high : c.toNat ≤ 122 := held.2
  omega

theorem uppercase_ascii {c : UInt8} (held : isAsciiUppercase c = true) : c.toNat < 128 := by
  simp only [isAsciiUppercase, Bool.and_eq_true, decide_eq_true_eq, UInt8.le_iff_toNat_le] at held
  have high : c.toNat ≤ 90 := held.2
  omega

theorem alphanumeric_ascii {c : UInt8} (held : isAsciiAlphanumeric c = true) : c.toNat < 128 := by
  simp only [isAsciiAlphanumeric, Bool.or_eq_true] at held
  rcases held with (low | up) | digit
  · exact lowercase_ascii low
  · exact uppercase_ascii up
  · exact Date.digit_ascii digit

/-- A byte class made of letters, digits and a few more ASCII bytes. -/
theorem name_class_ascii {c : UInt8} (extras : List UInt8) (ascii : Ascii extras)
    (held : isAsciiLowercase c = true ∨ isAsciiDigit c = true ∨ c ∈ extras) : c.toNat < 128 := by
  rcases held with low | digit | other
  · exact lowercase_ascii low
  · exact Date.digit_ascii digit
  · exact ascii c other

theorem split_once_join {c : UInt8} {bs a b : Bytes} (split : splitOnce c bs = some (a, b)) :
    bs = a ++ c :: b := by
  induction bs generalizing a with
  | nil => cases split
  | cons d bs ih =>
    rw [splitOnce] at split
    split_ifs at split with same
    · cases split
      rw [same, List.nil_append]
    · obtain ⟨⟨a', b'⟩, found, made⟩ := Option.map_eq_some_iff.mp split
      cases made
      rw [ih found, List.cons_append]

theorem split_all_covers {c b : UInt8} {bs : Bytes} (mem : b ∈ bs) :
    b = c ∨ ∃ part ∈ splitAll c bs, b ∈ part := by
  induction bs with
  | nil => cases mem
  | cons d bs ih =>
    by_cases same : b = c
    · exact .inl same
    right
    simp only [splitAll]
    cases parts : splitAll c bs with
    | nil =>
      rcases List.mem_cons.mp mem with rfl | later
      · exact ⟨[b], by simp, by simp⟩
      · obtain _ | ⟨part, inside, _⟩ := ih later
        · contradiction
        · rw [parts] at inside
          cases inside
    | cons part parts' =>
      dsimp only
      rcases List.mem_cons.mp mem with rfl | later
      · exact ⟨b :: part, by simp [same], by simp⟩
      · obtain _ | ⟨found, inside, held⟩ := ih later
        · contradiction
        rw [parts] at inside
        split
        · exact ⟨found, List.mem_cons_of_mem _ inside, held⟩
        · rcases List.mem_cons.mp inside with rfl | beyond
          · exact ⟨d :: found, by simp, List.mem_cons_of_mem _ held⟩
          · exact ⟨found, List.mem_cons_of_mem _ beyond, held⟩

theorem strip_prefix_join {lead : String} {bs rest : Bytes}
    (stripped : stripPrefix lead bs = some rest) : bs = utf8 lead ++ rest := by
  rw [stripPrefix] at stripped
  split at stripped
  · rename_i held
    cases stripped
    obtain ⟨tail, joined⟩ := List.isPrefixOf_iff_prefix.mp held
    rw [← joined, List.drop_left]
  · cases stripped

/-- The words the grammars spell out. -/
theorem words_ascii : ∀ s ∈ ["model", "human", "tool", "x.", "smysl.kernel/"] ++
    KernelType.all.map KernelType.asStr ++ RelKind.kernel.map RelKind.asStr, Ascii (utf8 s) := by
  decide +kernel

theorem ident_ascii {bs : Bytes} (ident : isIdent bs = true) : Ascii bs := by
  cases bs with
  | nil => cases ident
  | cons c cs =>
    simp only [isIdent, Bool.and_eq_true] at ident
    refine ascii_cons (lowercase_ascii ident.1) (ascii_of_all (fun c held => ?_) ident.2)
    refine name_class_ascii [0x2D, 0x5F] (by simp [Ascii]) ?_
    simpa [or_assoc] using held

theorem ext_segment_ascii {bs : Bytes} (segment : isExtSegment bs = true) : Ascii bs := by
  cases bs with
  | nil => cases segment
  | cons c cs =>
    simp only [isExtSegment, Bool.and_eq_true, Bool.or_eq_true] at segment
    refine ascii_cons (name_class_ascii [] (by simp [Ascii]) (by simpa using segment.1))
      (ascii_of_all (fun c held => ?_) segment.2)
    refine name_class_ascii [0x2D, 0x5F, 0x2E] (by simp [Ascii]) ?_
    simpa [or_assoc] using held

theorem label_ascii {s : String} (shaped : isLabelShaped s = true) : Ascii (utf8 s) := by
  rw [isLabelShaped] at shaped
  split at shaped
  · rename_i a b split
    rw [Bool.and_eq_true] at shaped
    rw [split_once_join split]
    exact ascii_append (ident_ascii shaped.1) (ascii_cons (by decide) (ident_ascii shaped.2))
  · cases shaped

theorem agent_ascii {s : String} (agent : isAgentId s = true) : Ascii (utf8 s) := by
  rw [isAgentId] at agent
  split at agent
  · cases agent
  rename_i kind rest split
  split_ifs at agent with wrong
  have kindAscii : Ascii kind := by
    simp only [Bool.and_eq_true, bne_iff_ne, ne_eq, not_and, not_not] at wrong
    by_cases model : kind = utf8 "model"
    · exact model ▸ words_ascii "model" (by simp)
    by_cases human : kind = utf8 "human"
    · exact human ▸ words_ascii "human" (by simp)
    exact wrong ⟨model, human⟩ ▸ words_ascii "tool" (by simp)
  have plain : ∀ c : UInt8, (isAsciiLowercase c || isAsciiDigit c || c == 0x2E || c == 0x5F ||
      c == 0x2D) = true → c.toNat < 128 := by
    intro c held
    refine name_class_ascii [0x2E, 0x5F, 0x2D] (by simp [Ascii]) ?_
    simpa [or_assoc] using held
  have tailPlain : ∀ c : UInt8, (isAsciiLowercase c || isAsciiDigit c || c == 0x2E || c == 0x5F ||
      c == 0x2D || c == 0x3A || c == 0x2F) = true → c.toNat < 128 := by
    intro c held
    refine name_class_ascii [0x2E, 0x5F, 0x2D, 0x3A, 0x2F] (by simp [Ascii]) ?_
    simpa [or_assoc] using held
  rw [split_once_join split]
  refine ascii_append kindAscii (ascii_cons (by decide) ?_)
  cases halves : splitOnce 0x2F rest with
  | none =>
    simp only [halves, Bool.and_eq_true] at agent
    exact ascii_of_all plain agent.1.2
  | some halves' =>
    simp only [halves, Bool.and_eq_true] at agent
    rw [split_once_join halves]
    exact ascii_append (ascii_of_all plain agent.1.2)
      (ascii_cons (by decide) (ascii_of_all tailPlain agent.2.2))

theorem lang_ascii {s : String} (lang : isLangTag s = true) : Ascii (utf8 s) := by
  simp only [isLangTag, Bool.and_eq_true, List.all_eq_true] at lang
  intro b mem
  rcases @split_all_covers 0x2D _ _ mem with rfl | ⟨part, inside, held⟩
  · decide
  · exact alphanumeric_ascii ((lang.2 part inside).2 b held)

theorem name_ascii {kind : NameKind} (a : Name kind) : Ascii (utf8 a.text) := by
  have valid := a.valid
  cases kind
  · exact label_ascii valid
  · exact label_ascii valid
  · exact label_ascii valid
  · exact label_ascii valid
  · exact agent_ascii valid
  · exact lang_ascii valid

/-- An extension name, after its `x.`. -/
theorem extension_ascii {s : String} {rest domain kind : Bytes}
    (stripped : stripPrefix "x." (utf8 s) = some rest)
    (split : splitOnce 0x2F rest = some (domain, kind)) (ident : isIdent domain = true)
    (segment : isExtSegment kind = true) : Ascii (utf8 s) := by
  rw [strip_prefix_join stripped, split_once_join split]
  refine ascii_append (words_ascii "x." (by simp)) (ascii_append (ident_ascii ident) ?_)
  exact ascii_cons (by decide) (ext_segment_ascii segment)

theorem kernel_type_ascii (k : KernelType) : Ascii (utf8 k.asStr) := by
  refine words_ascii k.asStr (List.mem_append_left _ (List.mem_append_right _ ?_))
  exact List.mem_map_of_mem (by cases k <;> simp [KernelType.all])

theorem schema_ascii {s : String} {id : SchemaId} (parsed : SchemaId.parse s = some id) :
    Ascii (utf8 s) := by
  rw [SchemaId.parse] at parsed
  split at parsed
  · rename_i k found
    rw [← find_named KernelType.asStr found]
    exact kernel_type_ascii k
  split at parsed
  · rename_i v stripped
    split at parsed
    · rename_i segment
      rw [strip_prefix_join stripped]
      exact ascii_append (words_ascii "smysl.kernel/" (by simp)) (ext_segment_ascii segment)
    · cases parsed
  · simp only [Option.bind_eq_bind, Option.bind_eq_some_iff] at parsed
    obtain ⟨rest, stripped, ⟨domain, ty⟩, split, last⟩ := parsed
    split at last
    · rename_i held
      rw [Bool.and_eq_true] at held
      exact extension_ascii stripped split held.1 held.2
    · cases last

theorem schema_forward_ascii {s : String} {id : SchemaId}
    (parsed : SchemaId.parseForward s = some id) : Ascii (utf8 s) := by
  simp only [SchemaId.parseForward] at parsed
  split at parsed
  · rename_i found
    exact schema_ascii found
  split at parsed
  · rename_i held
    rw [Bool.and_eq_true] at held
    exact ext_segment_ascii held.2
  · cases parsed

theorem rel_kind_ascii {s : String} {k : RelKind} (parsed : RelKind.parse s = some k) :
    Ascii (utf8 s) := by
  rw [RelKind.parse] at parsed
  split at parsed
  · rename_i found
    have mem := List.mem_of_find?_eq_some found
    rw [← find_named RelKind.asStr found]
    exact words_ascii _ (List.mem_append_right _ (List.mem_map_of_mem mem))
  split at parsed
  · rename_i held
    rw [RelKind.isExtension] at held
    split at held
    · cases held
    · rename_i domain kind split
      obtain ⟨rest, stripped, split⟩ := Option.bind_eq_some_iff.mp split
      rw [Bool.and_eq_true] at held
      exact extension_ascii stripped split held.1 held.2
  · cases parsed

end Smysl
