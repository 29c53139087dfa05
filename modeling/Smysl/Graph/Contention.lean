import Smysl.Graph.EffectiveStatus
import Smysl.Graph.Relink

/-!
Contention detection. Merge does not adjudicate: where two agents disagree the
disagreement becomes a contention, found by a function of the merged set, with an
identifier derived from what it is about.
-/
namespace Smysl
open ByteString

/-! The identifier. -/

/-- `ALPHABET`, in ASCII. -/
def alphabet : Bytes := utf8 "abcdefghijklmnopqrstuvwxyz234567"

/-- The 5 bits at a bit offset, the first the highest, with zeros past the end. -/
def fiveBitsAt (bytes : Bytes) (off : Nat) : Nat :=
  (List.range 5).foldl (fun v k =>
    let bit := off + k
    let set := decide (bit < 256) && (bytes.getD (bit / 8) 0).toNat.testBit (7 - bit % 8)
    2 * v + set.toNat) 0

/-- The first characters of a digest in base32. -/
def base32 (bytes : Bytes32) (chars : Nat) : Bytes :=
  (List.range (min chars 52)).map (fun i => alphabet.getD (fiveBitsAt bytes.bytes (i * 5)) 0x61)

/-- The name an identifier of a contention has for a digest: after the letter, what
follows `b3:` in the short form. -/
def derivedName (digest : Bytes32) : Bytes := utf8 "k/c" ++ base32 digest 26

theorem base32_class {bytes : Bytes32} {chars : Nat} {c : UInt8} (mem : c ∈ base32 bytes chars) :
    isAsciiLowercase c = true ∨ isAsciiDigit c = true := by
  have letters : ∀ c ∈ alphabet, isAsciiLowercase c = true ∨ isAsciiDigit c = true := by
    decide +kernel
  obtain ⟨i, _, made⟩ := List.mem_map.mp mem
  rw [← made, List.getD_eq_getElem?_getD]
  by_cases inside : fiveBitsAt bytes.bytes (i * 5) < alphabet.length
  · rw [List.getElem?_eq_getElem inside]
    exact letters _ (List.getElem_mem inside)
  · rw [List.getElem?_eq_none (by omega)]
    exact Or.inl (by decide)

theorem derived_name_valid (digest : Bytes32) :
    isLabelShaped (asciiText (derivedName digest)) = true := by
  have lead : utf8 "k/c" = [0x6B, 0x2F, 0x63] := by decide +kernel
  have ascii : ∀ b ∈ derivedName digest, b.toNat < 128 := by
    intro b mem
    rw [derivedName, lead] at mem
    rcases List.mem_append.mp mem with front | back
    · simp only [List.mem_cons, List.not_mem_nil, or_false] at front
      rcases front with here | here | here <;> rw [here] <;> decide
    · rcases base32_class back with low | digit
      · exact lowercase_ascii low
      · exact Date.digit_ascii digit
  rw [isLabelShaped, utf8_ascii_text ascii, derivedName, lead]
  change (isIdent [0x6B] && isIdent (0x63 :: base32 digest 26)) = true
  rw [Bool.and_eq_true]
  constructor
  · decide
  · rw [isIdent, Bool.and_eq_true, List.all_eq_true]
    constructor
    · decide
    · intro c mem
      rcases base32_class mem with low | digit
      · rw [low, Bool.true_or, Bool.true_or, Bool.true_or]
      · rw [digit, Bool.or_true, Bool.true_or, Bool.true_or]

/-- What the identifier of a contention is a hash of. -/
def identityOf (kind : UInt8) (over_ : Uid) (positions : List Uid) : Bytes :=
  kind :: (over_.asBytes ++ positions.flatMap Digest.asBytes)

/-- A list of uids, sorted, each once. -/
def canonicalised (positions : List Uid) : List Uid := (BTreeSet.ofList positions).toList

/-- `ContentionId::derive`. -/
def ContentionId.derive [Blake3] (kind : DetectionKind) (over_ : Uid) (positions : List Uid) :
    ContentionId :=
  let digest := Blake3.hash (identityOf (asU8 kind) over_ (canonicalised positions))
  ⟨asciiText (derivedName digest), derived_name_valid digest⟩

/-- Whether this contention pins a unit into a pack. -/
def Contention.pins (c : Contention) (uid : Uid) : Bool :=
  c.status == .stillOpen && (c.overUnit == uid || c.positions.contains uid)

/-! What a contention reads as in a store. -/

namespace Store
section
variable [Blake3]

/-- A `rebuts` edge, not withdrawn, from a unit present and not unfounded. -/
def isLiveRebuttal (s : Store) (rel : Relation) : Bool :=
  rel.kind == .rebuts && !s.interp.isWithdrawn rel && s.read.containsUid rel.src
    && !s.unfounded.contains rel.src

def isResolved (s : Store) (target : ResolutionTarget) : Bool :=
  s.interp.resolutions.toList.any (fun r => r.target == target)

/-- What a contention's status reads as in this store. -/
def contentionStatus (s : Store) (c : Contention) : ContentionStatus :=
  if s.isResolved (.contention c.id) then .resolved
  else if c.detected.kind == .of .liveRebuttal then
    let live := c.positions.any (fun a =>
      (s.interp.relations.get (toLex (RelKind.rebuts.asStr, toLex (a, c.overUnit)))).any
        s.isLiveRebuttal)
    if !live || s.unfounded.contains c.overUnit then .stale else c.status
  else c.status

def openContentions (s : Store) : List Contention :=
  s.interp.contentions.filter (fun c => s.contentionStatus c == .stillOpen)

end
end Store

/-! Detection. -/

/-- What detection needs that is not in the store: the labels each source binds, and the
clock of what is detected. -/
structure DetectionContext where
  labels : List (BTreeMap Label Uid) := []
  now : Option Hlc := none

/-- The agent a contention is attributed to when the caller supplied no clock. -/
def mergeAgent : AgentId := ⟨"tool:smysl-merge", by decide +kernel⟩

/-- A contention whose identifier is a function of its content. -/
def contention [Blake3] (kind : DetectionKind) (over_ : Uid) (positions : List Uid)
    (ctx : DetectionContext) : Contention where
  id := ContentionId.derive kind over_ (canonicalised positions)
  overUnit := over_
  positions := canonicalised positions
  detected := ⟨.of kind, ctx.now.getD ⟨0, 0, mergeAgent⟩⟩
  status := .stillOpen
  extra := ∅

namespace StoreRead

/-- Whether every pair is related by `supersedes` in one direction or the other. -/
def totallyOrdered (s : StoreRead) : List Uid → Bool
  | [] => true
  | a :: rest =>
    rest.all (fun b =>
      s.hasRelation .supersedes a b || s.hasRelation .supersedes b a) && s.totallyOrdered rest

variable [Blake3]

/-- Two distinct uids supersede the same target and neither supersedes the other. -/
def supersessionForks (s : StoreRead) (ctx : DetectionContext) : List Contention :=
  (s.direct.entries.filter (fun e => decide (1 < e.2.toList.length))).filterMap (fun e =>
    if s.totallyOrdered e.2.toList then none
    else some (contention .supersessionFork e.1 e.2.toList ctx))

/-- The latest word of each agent, and when, after one commitment more. -/
def latestWord (latest : BTreeMap AgentId (Hlc × Commitment)) (c : Commit) :
    BTreeMap AgentId (Hlc × Commitment) :=
  match latest.get c.agent with
  | some (ts, _) =>
    if c.ts.wallMs < ts.wallMs ∨ c.ts.wallMs = ts.wallMs ∧ c.ts.counter ≤ ts.counter then latest
    else latest.insert c.agent (c.ts, c.level)
  | none => latest.insert c.agent (c.ts, c.level)

/-- Two agents' latest commitments to one unit disagree about how settled it is. -/
def commitmentForks (s : StoreRead) (ctx : DetectionContext) : List Contention :=
  s.interp.commits.entries.filterMap (fun e =>
    if e.2.isEmpty || !s.containsUid e.1 then none
    else
      let latest := e.2.toList.foldl latestWord ∅
      let levels := (latest.values.map Prod.snd).dedup
      if 1 < latest.entries.length ∧ 1 < levels.length then
        some (contention .commitmentFork e.1 [e.1] ctx)
      else none)

/-- One label bound to different uids across the views in scope. -/
def labelCollisions (s : StoreRead) (ctx : DetectionContext) : List Contention :=
  let given := ctx.labels.flatMap BTreeMap.entries
  let held := s.records.filterMap (fun r =>
    match r with
    | .labelBinding b => some (b.label, b.uid)
    | _ => none)
  let bindings := (given ++ held).foldl (fun m e => insertAt m e.1 e.2) ∅
  bindings.entries.filterMap (fun e =>
    match e.2.toList with
    | first :: second :: rest =>
      some (contention .labelCollision first (first :: second :: rest) ctx)
    | _ => none)

end StoreRead

namespace Store
variable [Blake3]

/-- The threads each unit is a step of, by position. -/
def threadsOf (s : Store) : BTreeMap Uid (BTreeSet Nat) :=
  (s.interp.threads.values.zipIdx.flatMap (fun e =>
    e.1.steps.map (fun step => (step.unit, e.2)))).foldl (fun m e => insertAt m e.1 e.2) ∅

/-- A live `rebuts` edge between two units selected in a common thread, over a unit that is
not unfounded. -/
def liveRebuttals (s : Store) (ctx : DetectionContext) : List Contention :=
  (s.read.relationsOfKind .rebuts).filterMap (fun rel =>
    if !s.isLiveRebuttal rel || s.unfounded.contains rel.dst then none
    else
      let together :=
        match s.threadsOf.get rel.src, s.threadsOf.get rel.dst with
        | some a, some b => a.toList.any b.contains
        | _, _ => false
      if together then some (contention .liveRebuttal rel.dst [rel.src, rel.dst] ctx) else none)

/-- What the four detectors find, in the order they run. -/
def found (s : Store) (ctx : DetectionContext) : List Contention :=
  s.read.supersessionForks ctx ++ s.liveRebuttals ctx ++ s.read.labelCollisions ctx ++
    s.read.commitmentForks ctx

/-- `detect`: every contention a store implies, by identifier, each once. -/
def detect (s : Store) (ctx : DetectionContext) : List Contention :=
  let sorted := (s.found ctx).mergeSort (fun a b => decide (a.id ≤ b.id))
  (sorted.destutter (fun a b => a.id ≠ b.id)).map (fun c =>
    { c with status := s.contentionStatus c })

end Store
end Smysl
