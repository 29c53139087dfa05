import Smysl.Cbor.Steady

/-!
The payload map loop against the encoder. What the encoder would write for what
has been collected so far is a list with one slot for each known key; reading
an entry sets one slot. After the whole map, the encoder's bytes are the bytes
read exactly when every slot holds what was read for it.
-/
namespace Smysl
open ByteString Cursor Cursor.Parser Dec OrdMap

/-- The entries of the filled slots, keyed by their places. -/
def keyedFrom : Nat → List (Option Bytes) → List (Nat × Bytes)
  | _, [] => []
  | k, slot :: slots => putOpt k slot (fun v => v) ++ keyedFrom (k + 1) slots

abbrev keyed (slots : List (Option Bytes)) : List (Nat × Bytes) := keyedFrom 0 slots

/-- The slot of a field that is written only when there is something in it. -/
def slotWhen (present : Bool) (value : Bytes) : Option Bytes :=
  if present then some value else none

@[simp] theorem slot_when_false (value : Bytes) : slotWhen false value = none := rfl

theorem keyed_key_bounds {k : Nat} {slots : List (Option Bytes)} {e : Nat × Bytes}
    (mem : e ∈ keyedFrom k slots) : k ≤ e.1 ∧ e.1 < k + slots.length := by
  induction slots generalizing k with
  | nil => cases mem
  | cons slot slots ih =>
    rcases List.mem_append.mp mem with first | later
    · cases slot with
      | none => cases first
      | some v =>
        simp only [putOpt, Option.map_some, Option.toList_some, List.mem_singleton] at first
        simp [first]
    · have bounds := ih later
      simp only [List.length_cons]
      omega

theorem keyed_ascending (k : Nat) (slots : List (Option Bytes)) :
    Ascending (keyedFrom k slots) := by
  induction slots generalizing k with
  | nil => exact List.Pairwise.nil
  | cons slot slots ih =>
    refine List.pairwise_append.mpr ⟨?_, ih (k + 1), fun a memA b memB => ?_⟩
    · cases slot <;> simp [putOpt]
    · have first : a ∈ keyedFrom k [slot] := by simpa [keyedFrom] using memA
      have low := (keyed_key_bounds first).2
      have high := (keyed_key_bounds memB).1
      simp only [List.length_singleton] at low
      omega

theorem lookup_append (k : Nat) (es fs : List (Nat × Bytes)) :
    lookup k (es ++ fs) = (lookup k es).or (lookup k fs) := by
  induction es with
  | nil => rfl
  | cons e es ih =>
    rw [List.cons_append, lookup, lookup]
    split
    · rfl
    · exact ih

theorem lookup_keyed (j k : Nat) (slots : List (Option Bytes)) :
    lookup (k + j) (keyedFrom k slots) = (slots[j]?).join := by
  induction slots generalizing j k with
  | nil => rfl
  | cons slot slots ih =>
    rw [keyedFrom, lookup_append]
    cases j with
    | zero =>
      have beyond : lookup k (keyedFrom (k + 1) slots) = none := by
        rw [lookup_none_iff]
        intro mem
        obtain ⟨e, held, same⟩ := List.mem_map.mp mem
        have bounds := keyed_key_bounds held
        omega
      cases slot <;> simp [putOpt, lookup, beyond]
    | succ j =>
      have next := ih j (k + 1)
      have shift : k + (j + 1) = k + 1 + j := by omega
      have other : k ≠ k + 1 + j := by omega
      rw [shift, next]
      cases slot <;> simp [putOpt, lookup, other]

theorem nothing_written {slots : List (Option Bytes)} (empty : ∀ slot ∈ slots, slot = none)
    (k : Nat) : (slots[k]?).join = none := by
  cases here : slots[k]? with
  | none => rfl
  | some slot => exact empty slot (List.mem_of_getElem? here)

theorem ascending_count {es : List (Nat × Bytes)} (small : ∀ e ∈ es, e.1 < 2 ^ 16)
    (asc : Ascending es) : es.length < 2 ^ 64 := by
  have subset : es.map Prod.fst ⊆ List.range (2 ^ 16) := by
    intro k mem
    obtain ⟨e, held, rfl⟩ := List.mem_map.mp mem
    exact List.mem_range.mpr (small e held)
  have len := (ascending_keys_nodup asc).length_le_of_subset subset
  rw [List.length_map, List.length_range] at len
  omega

/-- The bytes of two maps that start one string: when values under one key
cannot be confused, the maps are the same. -/
theorem map_of_apart {es fs : List (Nat × Bytes)} {x y : Bytes}
    (small : ∀ e ∈ es, e.1 < 2 ^ 16) (small' : ∀ f ∈ fs, f.1 < 2 ^ 16)
    (asc : Ascending es) (asc' : Ascending fs)
    (apart : ∀ k v w, (k, v) ∈ es → (k, w) ∈ fs → ∀ x y, v ++ x = w ++ y → v = w)
    (same : Enc.mapOf es ++ x = Enc.mapOf fs ++ y) : es = fs := by
  simp only [Enc.mapOf, List.append_assoc] at same
  obtain ⟨_, len, rest⟩ := head_apart (by norm_num) (by norm_num) (ascending_count small asc)
    (ascending_count small' asc') same
  clear same asc asc'
  induction es generalizing fs with
  | nil => exact (List.length_eq_zero_iff.mp len.symm).symm
  | cons e es ih =>
    cases fs with
    | nil => cases len
    | cons f fs =>
      obtain ⟨k, v⟩ := e
      obtain ⟨j, w⟩ := f
      have kSmall := small (k, v) List.mem_cons_self
      have jSmall := small' (j, w) List.mem_cons_self
      simp only [List.flatMap_cons, Enc.entry, Enc.uint, List.append_assoc] at rest
      dsimp only at kSmall jSmall
      obtain ⟨_, rfl, values⟩ := head_apart (by norm_num) (by norm_num) (by omega) (by omega) rest
      have value := apart k v w List.mem_cons_self List.mem_cons_self _ _ values
      subst value
      have tails := List.append_cancel_left values
      have later := ih (fun e mem => small e (List.mem_cons_of_mem _ mem))
        (fun f mem => small' f (List.mem_cons_of_mem _ mem))
        (fun k v w memE memF => apart k v w (List.mem_cons_of_mem _ memE)
          (List.mem_cons_of_mem _ memF)) (by simpa using len) tails
      rw [later]

theorem sorted_map {es : List (Nat × Bytes)} (asc : Ascending es) :
    Enc.map es = Enc.mapOf es := by
  have sorted : es.Pairwise (fun a b => a.1 ≤ b.1) := asc.imp le_of_lt
  rw [Enc.map, List.Pairwise.insertionSort_eq sorted]

section
variable {σ α : Type}

/-- How a decoder relates to the encoder where the bytes it takes need not be
the encoder's: they are exactly under `spelled`, and otherwise they cannot even
start with them. -/
def Spells (p : Parser α) (write : α → Bytes) (spelled : Cursor.Dec → Prop) : Prop :=
  ∀ ⦃d d' : Cursor.Dec⦄ ⦃a : α⦄, p d = .ok (a, d') → ∃ raw, d.rest = raw ++ d'.rest ∧
    (write a = raw ↔ spelled d) ∧ ∀ x y, write a ++ x = raw ++ y → write a = raw

theorem Mirrors.spells {p : Parser α} {write : α → Bytes} (mirrors : Mirrors p write) :
    Spells p write (fun _ => True) := by
  intro d d' a run
  obtain ⟨raw, eq, rfl⟩ := mirrors run
  exact ⟨write a, eq, by simp, fun _ _ _ => rfl⟩

/-- Reading an entry under `k` sets the slot `k`, to what was read if it was
spelled as the encoder spells it. -/
def FillsSlot (emit : σ → List (Option Bytes)) (k : Nat) (arm : Parser (σ → σ))
    (spelled : Cursor.Dec → Prop) : Prop :=
  ∀ ⦃d d' : Cursor.Dec⦄ ⦃update : σ → σ⦄, arm d = .ok (update, d') → ∃ raw slot,
    d.rest = raw ++ d'.rest ∧ (∀ s, emit (update s) = (emit s).set k slot) ∧
      (slot = some raw ↔ spelled d) ∧ ∀ v x y, slot = some v → v ++ x = raw ++ y → v = raw

theorem field_fills {emit : σ → List (Option Bytes)} {k : Nat} {p : Parser α}
    {set : α → σ → σ} {write : α → Bytes} {spelled : Cursor.Dec → Prop} {arm : Parser (σ → σ)}
    (spells : Spells p write spelled) (here : field p set = some arm)
    (frame : ∀ v s, emit (set v s) = (emit s).set k (some (write v))) :
    FillsSlot emit k arm spelled := by
  intro d d' update run
  cases here
  obtain ⟨v, d₁, read, done⟩ := bind_ok run
  cases done
  obtain ⟨raw, eq, exact, apart⟩ := spells read
  refine ⟨raw, some (write v), eq, frame v, by simpa using exact, ?_⟩
  rintro w x y ⟨rfl⟩ joined
  exact apart x y joined

theorem mirror_fills {emit : σ → List (Option Bytes)} {k : Nat} {p : Parser α}
    {set : α → σ → σ} {write : α → Bytes} {arm : Parser (σ → σ)} (mirrors : Mirrors p write)
    (here : field p set = some arm)
    (frame : ∀ v s, emit (set v s) = (emit s).set k (some (write v))) :
    FillsSlot emit k arm (fun _ => True) :=
  field_fills mirrors.spells here frame

/-- A field the encoder leaves out when it is empty: the empty value is one more
spelling that is not the encoder's. -/
theorem field_fills_when {emit : σ → List (Option Bytes)} {k : Nat} {p : Parser α}
    {set : α → σ → σ} {write : α → Bytes} {present : α → Bool}
    {spelled spelledWhen : Cursor.Dec → Prop} {arm : Parser (σ → σ)}
    (spells : Spells p write spelled) (here : field p set = some arm)
    (frame : ∀ v s, emit (set v s) = (emit s).set k (slotWhen (present v) (write v)))
    (shown : ∀ ⦃d d' : Cursor.Dec⦄ ⦃v : α⦄, p d = .ok (v, d') →
      (present v = true ∧ spelled d ↔ spelledWhen d)) :
    FillsSlot emit k arm spelledWhen := by
  intro d d' update run
  cases here
  obtain ⟨v, d₁, read, done⟩ := bind_ok run
  cases done
  obtain ⟨raw, eq, exact, apart⟩ := spells read
  refine ⟨raw, slotWhen (present v) (write v), eq, frame v, ?_, ?_⟩
  · rw [← shown read, ← exact, slotWhen]
    split <;> simp_all
  · intro w x y held joined
    rw [slotWhen] at held
    split at held
    · cases held
      exact apart x y joined
    · cases held

/-- What the encoder would write under `k` for what was collected. -/
def written (emit : σ → List (Option Bytes)) (width : Nat) (st : σ × Extra) (k : Nat) :
    Option Bytes :=
  if k < width then ((emit st.1)[k]?).join else st.2.get k

/-- The arms of a record against the slots of its encoder. -/
structure ArmsFill (arms : Nat → Arms σ) (emit : σ → List (Option Bytes)) (width : Nat)
    (spelled : Nat → Cursor.Dec → Prop) : Prop where
  slots : ∀ s, (emit s).length = width
  narrow : width ≤ 2 ^ 16
  unknown : ∀ start k, arms start k = none ↔ width ≤ k
  known : ∀ start k arm, arms start k = some arm → FillsSlot emit k arm (spelled k)
  plain : ∀ k d, width ≤ k → spelled k d

theorem unknown_of {arms : Arms σ} {width : Nat} (known : ∀ k < width, (arms k).isSome = true)
    (beyond : ∀ j, arms (j + width) = none) (k : Nat) : arms k = none ↔ width ≤ k := by
  constructor
  · intro missing
    by_contra low
    have here := known k (by omega)
    rw [missing] at here
    cases here
  · intro far
    obtain ⟨j, rfl⟩ := Nat.exists_eq_add_of_le' far
    exact beyond j

/-- One entry as it was read: its key, where its value stood, the value, and
what the encoder would write for it. -/
structure Row where
  key : Nat
  here : Cursor.Dec
  raw : Bytes
  slot : Option Bytes

def Row.entry (r : Row) : Nat × Bytes := (r.key, r.raw)

/-- One entry of the walk that only says where each value stands. -/
def placeEntry [Unicode] (arms : Arms σ) (st : Option Nat × List (Nat × Cursor.Dec)) :
    Parser (Option Nat × List (Nat × Cursor.Dec)) := do
  let k ← mapKey st.1
  rejectNull
  let place ← here
  match arms k with
  | some arm => do
    let _ ← arm
    pure (some k, st.2 ++ [(k, place)])
  | none => do
    let _ ← skipItem
    pure (some k, st.2 ++ [(k, place)])

/-- The keys of a payload map with the places of their values. -/
def mapPlaces [Unicode] (arms : Nat → Arms σ) : Parser (List (Nat × Cursor.Dec)) := do
  let start ← position
  let n ← mapHead
  let out ← loop (placeEntry (arms start)) n (none, [])
  pure out.2

/-- Every value of a payload map is spelled as the encoder spells it, and every
key the encoder always writes is there. -/
def SpelledMap [Unicode] (arms : Nat → Arms σ) (spelled : Nat → Cursor.Dec → Prop)
    (always : List Nat) (d : Cursor.Dec) : Prop :=
  match mapPlaces arms d with
  | .ok (places, _) =>
    (∀ p ∈ places, spelled p.1 p.2) ∧ ∀ k ∈ always, k ∈ places.map Prod.fst
  | .error _ => False

theorem map_key_yields (prev : Option Nat) : Yields (mapKey prev)
    (fun k raw => raw = Enc.uint k ∧ k < 2 ^ 16 ∧ ∀ p ∈ prev, p < k) := by
  refine Yields.position_bind fun start => Yields.bind uint_yields ?_
  rintro k _ rfl
  split
  · exact Yields.fail _
  split
  · exact Yields.fail _
  split
  · exact Yields.fail _
  · rename_i small fresh above
    refine Yields.pure ⟨List.append_nil _, by omega, fun p held => ?_⟩
    cases held
    simp only [Option.any_some, decide_eq_true_eq] at fresh above
    omega

/-- What the rows say under a key. -/
def slotOf (rows : List Row) (k : Nat) : Option (Option Bytes) :=
  (rows.find? (fun r => r.key == k)).map Row.slot

theorem slot_of_row {rows : List Row} (asc : rows.Pairwise (fun r s => r.key < s.key)) {r : Row}
    (mem : r ∈ rows) : slotOf rows r.key = some r.slot := by
  induction rows with
  | nil => cases mem
  | cons s rows ih =>
    obtain ⟨least, asc⟩ := List.pairwise_cons.mp asc
    rw [slotOf, List.find?_cons]
    rcases List.mem_cons.mp mem with rfl | mem
    · simp
    · have other : (s.key == r.key) = false := by
        simpa using ne_of_lt (least r mem)
      rw [other]
      exact ih asc mem

theorem slot_of_absent {rows : List Row} {k : Nat} (absent : k ∉ rows.map Row.key) :
    slotOf rows k = none := by
  simp only [slotOf, Option.map_eq_none_iff, List.find?_eq_none, beq_iff_eq]
  intro r mem same
  exact absent (same ▸ List.mem_map_of_mem mem)

theorem lookup_row_entry {rows : List Row} (asc : rows.Pairwise (fun r s => r.key < s.key))
    {r : Row} (mem : r ∈ rows) : lookup r.key (rows.map Row.entry) = some r.raw :=
  lookup_of_mem (List.pairwise_map.mpr asc) (List.mem_map_of_mem mem)

variable [Unicode] {arms : Nat → Arms σ} {emit : σ → List (Option Bytes)} {width : Nat}
  {spelled : Nat → Cursor.Dec → Prop}

/-- One entry: the row it gives, and what it changes in what would be written. -/
theorem read_entry_row (fill : ArmsFill arms emit width spelled) {start : Nat}
    {st st' : Option Nat × σ × Extra} {d d' : Cursor.Dec}
    (run : readEntry (arms start) st d = .ok (st', d')) : ∃ r : Row,
      d.rest = Enc.entry r.entry ++ d'.rest ∧ r.key < 2 ^ 16 ∧ (∀ p ∈ st.1, p < r.key) ∧
      st'.1 = some r.key ∧ (r.slot = some r.raw ↔ spelled r.key r.here) ∧
      (∀ v x y, r.slot = some v → v ++ x = r.raw ++ y → v = r.raw) ∧
      (∀ k, written emit width st'.2 k = if k = r.key then r.slot else written emit width st.2 k) ∧
      ((∀ k < width, st.2.2.get k = none) → ∀ k < width, st'.2.2.get k = none) ∧
      ∀ places, placeEntry (arms start) (st.1, places) d =
        .ok ((st'.1, places ++ [(r.key, r.here)]), d') := by
  obtain ⟨k, d₁, keyRun, run⟩ := bind_ok run
  obtain ⟨⟨⟩, d₂, nullRun, run⟩ := bind_ok run
  obtain ⟨_, eq₁, rfl, small, above⟩ := map_key_yields st.1 keyRun
  obtain ⟨_, eq₂, rfl⟩ := reject_null_yields nullRun
  rw [eq₂, List.nil_append] at eq₁
  have placed : ∀ places, placeEntry (arms start) (st.1, places) d =
      (match arms start k with
        | some arm => do
          let _ ← arm
          pure (some k, places ++ [(k, d₂)])
        | none => do
          let _ ← skipItem
          pure (some k, places ++ [(k, d₂)]) : Parser _) d₂ := by
    intro places
    rw [placeEntry, bind_of_ok keyRun, bind_of_ok nullRun]
    rfl
  cases here : arms start k with
  | some arm =>
    rw [here] at run
    obtain ⟨update, d₃, armRun, done⟩ := bind_ok run
    cases done
    have inside : k < width := by
      by_contra far
      have missing := (fill.unknown start k).mpr (by omega)
      rw [here] at missing
      cases missing
    obtain ⟨raw, slot, eq₃, frame, exact, apart⟩ := fill.known start k arm here armRun
    refine ⟨⟨k, d₂, raw, slot⟩, ?_, small, above, rfl, exact, apart, fun j => ?_,
      fun clear => clear, fun places => ?_⟩
    · rw [eq₁, eq₃, Row.entry, Enc.entry, List.append_assoc]
    · simp only [written, frame, List.getElem?_set]
      by_cases same : j = k
      · subst same
        simp [inside, fill.slots]
      · simp [same, Ne.symm same]
    · rw [placed, here]
      exact bind_of_ok armRun
  | none =>
    rw [here] at run
    obtain ⟨raw, d₃, skipRun, done⟩ := bind_ok run
    cases done
    have outside := (fill.unknown start k).mp here
    have plain := fun d => fill.plain k d outside
    obtain ⟨_, eq₃, same, _⟩ := skip_item_yields skipRun
    rw [same] at eq₃
    refine ⟨⟨k, d₂, raw, some raw⟩, ?_, small, above, rfl, ?_, ?_, fun j => ?_,
      fun clear j low => ?_, fun places => ?_⟩
    · rw [eq₁, eq₃, Row.entry, Enc.entry, List.append_assoc]
    · simp [plain]
    · rintro v x y ⟨rfl⟩ _
      rfl
    · simp only [written, BTreeMap.get_insert]
      by_cases same : j = k
      · subst same
        simp [Nat.not_lt.mpr outside]
      · simp [same]
    · rw [BTreeMap.get_insert, if_neg (by omega), clear j low]
    · rw [placed, here]
      exact bind_of_ok skipRun

/-- The whole loop: one row for each entry, and what would be written for what
was collected is what the last row under each key says. -/
theorem chain_rows (fill : ArmsFill arms emit width spelled) {start n : Nat}
    {st st' : Option Nat × σ × Extra} {d d' : Cursor.Dec}
    (chain : Chain (readEntry (arms start)) n st d st' d') : ∃ rows : List Row,
      rows.length = n ∧ d.rest = (rows.map Row.entry).flatMap Enc.entry ++ d'.rest ∧
      (∀ r ∈ rows, r.key < 2 ^ 16 ∧ ∀ p ∈ st.1, p < r.key) ∧
      rows.Pairwise (fun r s => r.key < s.key) ∧
      (∀ r ∈ rows, (r.slot = some r.raw ↔ spelled r.key r.here) ∧
        ∀ v x y, r.slot = some v → v ++ x = r.raw ++ y → v = r.raw) ∧
      (∀ k, written emit width st'.2 k = (slotOf rows k).getD (written emit width st.2 k)) ∧
      ((∀ k < width, st.2.2.get k = none) → ∀ k < width, st'.2.2.get k = none) ∧
      ∀ places, Chain (placeEntry (arms start)) n (st.1, places) d
        (st'.1, places ++ rows.map (fun r => (r.key, r.here))) d' := by
  induction chain with
  | done st d =>
    refine ⟨[], rfl, rfl, by simp, .nil, by simp, fun _ => rfl, fun clear => clear, fun places => ?_⟩
    simpa using Chain.done (st.1, places) d
  | next first _ ih =>
    obtain ⟨r, eq, small, above, prev, exact, apart, change, clear, place⟩ :=
      read_entry_row fill first
    obtain ⟨rows, len, rest, bounds, asc, each, later, clears, chain⟩ := ih
    have least : ∀ s ∈ rows, r.key < s.key := fun s mem => (bounds s mem).2 r.key prev
    refine ⟨r :: rows, by simp [len], by simp [eq, rest], ?_, .cons least asc, ?_, fun k => ?_,
      clears ∘ clear, fun places => ?_⟩
    · intro s mem
      rcases List.mem_cons.mp mem with rfl | mem
      · exact ⟨small, above⟩
      · exact ⟨(bounds s mem).1, fun p held => (above p held).trans (least s mem)⟩
    · intro s mem
      rcases List.mem_cons.mp mem with rfl | mem
      · exact ⟨exact, apart⟩
      · exact each s mem
    · rw [later, change]
      by_cases same : k = r.key
      · have gone : slotOf rows k = none := by
          simp only [slotOf, Option.map_eq_none_iff, List.find?_eq_none, beq_iff_eq]
          intro s mem found
          exact absurd (least s mem) (by omega)
        rw [gone, if_pos same, slotOf, List.find?_cons, same]
        simp
      · have other : (r.key == k) = false := by simpa using Ne.symm same
        rw [if_neg same, slotOf, slotOf, List.find?_cons, other]
    · have next := chain (places ++ [(r.key, r.here)])
      rw [List.append_assoc] at next
      exact .next (place places) next

/-- What is written for a finished map is the map as it was read, exactly when
every value is spelled as the encoder spells it and nothing it always writes
is missing. -/
theorem written_map_spells (fill : ArmsFill arms emit width spelled) {init : σ}
    {always : List Nat} (defaults : ∀ k, ((emit init)[k]?).join ≠ none ↔ k ∈ always)
    {d d' : Cursor.Dec} {s : σ} {extra : Extra}
    (run : readMap (arms d.pos) init d = .ok ((s, extra), d')) : ∃ raw, d.rest = raw ++ d'.rest ∧
      (Enc.map (keyed (emit s) ++ putExtra extra) = raw ↔ SpelledMap arms spelled always d) ∧
      (∀ x y, Enc.map (keyed (emit s) ++ putExtra extra) ++ x = raw ++ y →
        Enc.map (keyed (emit s) ++ putExtra extra) = raw) ∧
      ∃ places, mapPlaces arms d = .ok (places, d') := by
  obtain ⟨n, d₁, headRun, run⟩ := bind_ok run
  obtain ⟨⟨prev, s', extra'⟩, d₂, loopRun, done⟩ := bind_ok run
  cases done
  obtain ⟨_, eq₁, rfl, _⟩ := expect_yields 5 headRun
  obtain ⟨rows, rfl, eq₂, bounds, asc, each, change, clears, places⟩ :=
    chain_rows fill (loop_chain.mp loopRun)
  dsimp only at change clears
  have extraHigh : ∀ e ∈ extra.entries, width ≤ e.1 := by
    intro e mem
    by_contra low
    have held := (BTreeMap.mem_entries_iff extra e.1 e.2).mp mem
    rw [clears (fun k _ => BTreeMap.get_empty k) e.1 (by omega)] at held
    cases held
  -- the encoder's entries, and the entries as read, are two ascending lists
  have slotsAsc : Ascending (keyed (emit s) ++ putExtra extra) := by
    refine List.pairwise_append.mpr ⟨keyed_ascending 0 _, extra.ascending, fun a memA b memB => ?_⟩
    have low := (keyed_key_bounds memA).2
    have high := extraHigh b memB
    rw [fill.slots] at low
    omega
  have rowsAsc : Ascending (rows.map Row.entry) := List.pairwise_map.mpr asc
  have lookups : ∀ k, lookup k (keyed (emit s) ++ putExtra extra) =
      (slotOf rows k).getD (((emit init)[k]?).join) := by
    intro k
    have now := change k
    have start := lookup_keyed k 0 (emit s)
    rw [Nat.zero_add] at start
    rw [lookup_append, start]
    simp only [written] at now
    by_cases low : k < width
    · rw [if_pos low, if_pos low] at now
      have none : lookup k (putExtra extra) = Option.none := by
        rw [lookup_none_iff]
        intro mem
        obtain ⟨e, held, rfl⟩ := List.mem_map.mp mem
        exact absurd (extraHigh e held) (by omega)
      rw [none, Option.or_none, now]
    · have past : ∀ s : σ, (emit s)[k]? = Option.none := fun s => by
        rw [List.getElem?_eq_none_iff, fill.slots]
        omega
      rw [if_neg low, if_neg low] at now
      rw [past s, past init, Option.join_none, Option.none_or]
      exact now
  have raws : (Enc.map (keyed (emit s) ++ putExtra extra)) =
      Enc.mapOf (keyed (emit s) ++ putExtra extra) := sorted_map slotsAsc
  have read : d.rest = Enc.mapOf (rows.map Row.entry) ++ d'.rest := by
    rw [eq₁, eq₂, Enc.mapOf, List.length_map, List.append_assoc]
  have place : mapPlaces arms d = .ok (rows.map (fun r => (r.key, r.here)), d') := by
    have walk := loop_chain.mpr (places [])
    rw [mapPlaces, bind_of_ok (show position d = _ from rfl), bind_of_ok headRun,
      bind_of_ok walk]
    rfl
  have agree : keyed (emit s) ++ putExtra extra = rows.map Row.entry ↔
      SpelledMap arms spelled always d := by
    simp only [SpelledMap, place, List.map_map, List.mem_map, forall_exists_index, and_imp,
      forall_apply_eq_imp_iff₂]
    constructor
    · intro same
      constructor
      · intro r mem
        have slot := lookups r.key
        rw [same, lookup_row_entry asc mem, slot_of_row asc mem] at slot
        exact (each r mem).1.mp slot.symm
      · intro k held
        by_contra absent
        have gone : k ∉ rows.map Row.key := by simpa [Function.comp_def] using absent
        have slot := lookups k
        rw [same, slot_of_absent gone] at slot
        have missing : lookup k (rows.map Row.entry) = none := by
          rw [lookup_none_iff, List.map_map]
          exact gone
        rw [missing] at slot
        exact (defaults k).mpr held slot.symm
    · rintro ⟨all, kept⟩
      refine ascending_ext slotsAsc rowsAsc fun k => ?_
      rw [lookups]
      by_cases present : k ∈ rows.map Row.key
      · obtain ⟨r, mem, rfl⟩ := List.mem_map.mp present
        rw [slot_of_row asc mem, lookup_row_entry asc mem]
        exact (each r mem).1.mpr (all r mem)
      · have missing : lookup k (rows.map Row.entry) = none := by
          rw [lookup_none_iff, List.map_map]
          exact present
        rw [slot_of_absent present, missing]
        by_contra kept'
        obtain ⟨r, mem, same⟩ := kept k ((defaults k).mp kept')
        exact present (List.mem_map.mpr ⟨r, mem, same⟩)
  have apart : ∀ x y, Enc.mapOf (keyed (emit s) ++ putExtra extra) ++ x =
      Enc.mapOf (rows.map Row.entry) ++ y →
        keyed (emit s) ++ putExtra extra = rows.map Row.entry := by
    intro x y joined
    refine map_of_apart ?_ ?_ slotsAsc rowsAsc ?_ joined
    · intro e mem
      have held := (lookup_iff_mem slotsAsc).mpr (show (e.1, e.2) ∈ _ from mem)
      rw [lookups] at held
      by_cases present : e.1 ∈ rows.map Row.key
      · obtain ⟨r, rowMem, same⟩ := List.mem_map.mp present
        exact same ▸ (bounds r rowMem).1
      · rw [slot_of_absent present, Option.getD_none] at held
        have inside : e.1 < (emit init).length := by
          by_contra past
          rw [List.getElem?_eq_none (by omega)] at held
          cases held
        rw [fill.slots] at inside
        exact lt_of_lt_of_le inside fill.narrow
    · intro f mem
      obtain ⟨r, rowMem, rfl⟩ := List.mem_map.mp mem
      exact (bounds r rowMem).1
    · intro k v w memV memW x y joined
      obtain ⟨r, rowMem, same⟩ := List.mem_map.mp memW
      cases same
      have held := (lookup_iff_mem slotsAsc).mpr memV
      rw [lookups, slot_of_row asc rowMem] at held
      exact (each r rowMem).2 v x y held joined
  refine ⟨Enc.mapOf (rows.map Row.entry), read, ?_, ?_, _, place⟩
  · rw [raws, ← agree]
    constructor
    · intro same
      exact apart [] [] (by rw [same])
    · intro same
      rw [same]
  · intro x y joined
    rw [raws] at joined ⊢
    rw [apart x y joined]

/-- A payload map decoder spells what the encoder writes under the condition
its entries say. -/
theorem dec_map_spells {init : σ} {finish : σ → Extra → Option α} {write : α → Bytes}
    {always : List Nat} (fill : ArmsFill arms emit width spelled)
    (defaults : ∀ k, ((emit init)[k]?).join ≠ none ↔ k ∈ always)
    (made : ∀ s extra a, finish s extra = some a →
      write a = Enc.map (keyed (emit s) ++ putExtra extra)) :
    Spells (decMap arms init finish) write (SpelledMap arms spelled always) := by
  intro d d' a run
  obtain ⟨start, d₀, placed, run⟩ := bind_ok run
  cases placed
  obtain ⟨⟨s, extra⟩, d₁, read, done⟩ := bind_ok run
  obtain ⟨raw, eq, exact, apart, _⟩ := written_map_spells fill defaults read
  cases found : finish s extra with
  | none =>
    rw [found] at done
    cases done
  | some b =>
    rw [found] at done
    cases done
    rw [made s extra a found]
    exact ⟨raw, eq, exact, apart⟩

/-- Where every value is spelled in one way and nothing is always written, the
decoder mirrors the encoder. -/
theorem dec_map_mirrors {init : σ} {finish : σ → Extra → Option α} {write : α → Bytes}
    (fill : ArmsFill arms emit width (fun _ _ => True))
    (defaults : ∀ k : Nat, ((emit init)[k]?).join = none)
    (made : ∀ s extra a, finish s extra = some a →
      write a = Enc.map (keyed (emit s) ++ putExtra extra)) :
    Mirrors (decMap arms init finish) write := by
  have noDefaults : ∀ k : Nat, ((emit init)[k]?).join ≠ none ↔ k ∈ ([] : List Nat) := by
    simpa using defaults
  intro d d' a run
  obtain ⟨raw, eq, exact, _⟩ := dec_map_spells fill noDefaults made run
  refine ⟨raw, eq, (exact.mpr ?_).symm⟩
  obtain ⟨start, d₀, placed, again⟩ := bind_ok run
  cases placed
  obtain ⟨⟨s, extra⟩, d₁, read, _⟩ := bind_ok again
  obtain ⟨_, _, _, _, places, place⟩ := written_map_spells fill noDefaults read
  simp [SpelledMap, place]

end
end Smysl
