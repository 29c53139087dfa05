import Smysl.Graph.Contention
import Smysl.Lib.Extremes

/-!
How settled a unit is, and whether its agents agree about it. Each agent's latest word is
found twice: by detection, which keeps the first commitment of a tie in the order of the
set, and by the answer a caller gets, which keeps the last.
-/
namespace Smysl
open ByteString Extremes

namespace Commit

/-- The clock two commitments are compared by. -/
def clock (c : Commit) : ℕ ×ₗ ℕ := toLex (c.ts.wallMs.toNat, c.ts.counter.toNat)

/-- And by that and the agent. -/
def clockOf (c : Commit) : (ℕ ×ₗ ℕ) ×ₗ AgentId := toLex (c.clock, c.agent)

/-- What a commitment says, and when. -/
def word (c : Commit) : Hlc × Commitment := (c.ts, c.level)

theorem clock_le_iff (c d : Commit) : c.clock ≤ d.clock ↔
    c.ts.wallMs < d.ts.wallMs ∨ c.ts.wallMs = d.ts.wallMs ∧ c.ts.counter ≤ d.ts.counter := by
  rw [clock, clock, Prod.Lex.toLex_le_toLex, UInt64.lt_iff_toNat_lt, UInt32.le_iff_toNat_le,
    UInt64.toNat_inj]

end Commit

namespace Interpretive

def commitsOf (i : Interpretive) (uid : Uid) : BTreeSet Commit := (i.commits.get uid).getD ∅

/-- How settled a unit is: the level of its latest commitment. -/
def commitmentOf (i : Interpretive) (uid : Uid) : Option Commitment :=
  (i.commits.get uid).bind (fun commits =>
    (lastMax Commit.clockOf commits.toList).map Commit.level)

/-- The layer with only what one agent committed to a unit. -/
def onlyFrom (i : Interpretive) (uid : Uid) (agent : AgentId) : Interpretive :=
  let own := BTreeSet.ofList ((i.commitsOf uid).toList.filter (fun c => c.agent == agent))
  { i with commits := (∅ : BTreeMap Uid (BTreeSet Commit)).insert uid own }

/-- An agent's latest level. -/
def latestLevel (i : Interpretive) (uid : Uid) (agent : AgentId) : Option Commitment :=
  (i.onlyFrom uid agent).commitmentOf uid

end Interpretive

/-! What is latest in a set of commitments. -/

section
variable (commits : BTreeSet Commit)

/-- A commitment with the greatest clock of its agent's. -/
def Latest (c : Commit) : Prop :=
  c ∈ commits ∧ ∀ d ∈ commits, d.agent = c.agent → d.clock ≤ c.clock

/-- The first of its agent's latest commitments, the lowest level first. -/
def FirstLatest (c : Commit) : Prop :=
  Latest commits c ∧ ∀ d, Latest commits d → d.agent = c.agent → c ≤ d

/-- And the last of them. -/
def LastLatest (c : Commit) : Prop :=
  Latest commits c ∧ ∀ d, Latest commits d → d.agent = c.agent → d ≤ c

/-- The first of every agent's latest commitments are of one level. -/
def FirstsAgree : Prop := ∀ c d, FirstLatest commits c → FirstLatest commits d → c.level = d.level

/-- And the last of them. -/
def LastsAgree : Prop := ∀ c d, LastLatest commits c → LastLatest commits d → c.level = d.level

variable {commits}

theorem first_unique {c d : Commit} (first : FirstLatest commits c) (second : FirstLatest commits d)
    (same : c.agent = d.agent) : c = d :=
  le_antisymm (first.2 d second.1 same.symm) (second.2 c first.1 same)

theorem last_unique {c d : Commit} (first : LastLatest commits c) (second : LastLatest commits d)
    (same : c.agent = d.agent) : c = d :=
  le_antisymm (second.2 c first.1 same) (first.2 d second.1 same.symm)

/-- The commitments of one agent. -/
def ownedBy (commits : BTreeSet Commit) (agent : AgentId) : List Commit :=
  commits.toList.filter (fun c => c.agent == agent)

theorem mem_owned_by (agent : AgentId) (c : Commit) :
    c ∈ ownedBy commits agent ↔ c ∈ commits ∧ c.agent = agent := by
  rw [ownedBy, List.mem_filter, BTreeSet.mem_toList, beq_iff_eq]

theorem owned_by_ordered (agent : AgentId) : (ownedBy commits agent).Pairwise (· < ·) :=
  List.Pairwise.filter _ (BTreeSet.toList_pairwise commits)

theorem first_max_owned {agent : AgentId} (c : Commit) :
    firstMax Commit.clock (ownedBy commits agent) = some c ↔
      FirstLatest commits c ∧ c.agent = agent := by
  have first_of : ∀ c, firstMax Commit.clock (ownedBy commits agent) = some c →
      FirstLatest commits c ∧ c.agent = agent := by
    intro c found
    obtain ⟨mem, all⟩ := first_max_least Commit.clock (owned_by_ordered agent) found
    obtain ⟨mem, own⟩ := (mem_owned_by agent c).mp mem
    refine ⟨⟨⟨mem, ?_⟩, ?_⟩, own⟩
    · intro d mem' same
      rcases all d ((mem_owned_by agent d).mpr ⟨mem', same.trans own⟩) with less | tie
      · exact less.le
      · exact tie.1.le
    · intro d latest same
      rcases all d ((mem_owned_by agent d).mpr ⟨latest.1, same.trans own⟩) with less | tie
      · exact absurd (latest.2 c mem same.symm) (not_le.mpr less)
      · exact tie.2
  constructor
  · exact first_of c
  · intro both
    cases found : firstMax Commit.clock (ownedBy commits agent) with
    | none =>
      rw [first_max_none] at found
      have mem := (mem_owned_by agent c).mpr ⟨both.1.1.1, both.2⟩
      rw [found] at mem
      cases mem
    | some d =>
      obtain ⟨first, own⟩ := first_of d found
      rw [first_unique first both.1 (own.trans both.2.symm)]

theorem last_max_owned {agent : AgentId} (c : Commit) :
    lastMax Commit.clockOf (ownedBy commits agent) = some c ↔
      LastLatest commits c ∧ c.agent = agent := by
  have last_of : ∀ c, lastMax Commit.clockOf (ownedBy commits agent) = some c →
      LastLatest commits c ∧ c.agent = agent := by
    intro c found
    obtain ⟨mem, all⟩ := last_max_greatest Commit.clockOf (owned_by_ordered agent) found
    obtain ⟨mem, own⟩ := (mem_owned_by agent c).mp mem
    have below : ∀ d ∈ commits, d.agent = c.agent →
        d.clock < c.clock ∨ d.clock = c.clock ∧ d ≤ c := by
      intro d mem' same
      rcases all d ((mem_owned_by agent d).mpr ⟨mem', same.trans own⟩) with less | tie
      · rw [Commit.clockOf, Commit.clockOf, Prod.Lex.toLex_lt_toLex] at less
        rcases less with less | other
        · exact Or.inl less
        · rw [same] at other
          exact absurd other.2 (lt_irrefl _)
      · obtain ⟨tie, le⟩ := tie
        rw [Commit.clockOf, Commit.clockOf, EmbeddingLike.apply_eq_iff_eq, Prod.mk.injEq] at tie
        exact Or.inr ⟨tie.1, le⟩
    refine ⟨⟨⟨mem, ?_⟩, ?_⟩, own⟩
    · intro d mem' same
      rcases below d mem' same with less | tie
      · exact less.le
      · exact tie.1.le
    · intro d latest same
      rcases below d latest.1 same with less | tie
      · exact absurd (latest.2 c mem same.symm) (not_le.mpr less)
      · exact tie.2
  constructor
  · exact last_of c
  · intro both
    cases found : lastMax Commit.clockOf (ownedBy commits agent) with
    | none =>
      rw [last_max_none] at found
      have mem := (mem_owned_by agent c).mpr ⟨both.1.1.1, both.2⟩
      rw [found] at mem
      cases mem
    | some d =>
      obtain ⟨last, own⟩ := last_of d found
      rw [last_unique last both.1 (own.trans both.2.symm)]

end

/-! The two ways of telling. -/

theorem latest_level_iff (i : Interpretive) (uid : Uid) (agent : AgentId) (l : Commitment) :
    i.latestLevel uid agent = some l ↔
      ∃ c, LastLatest (i.commitsOf uid) c ∧ c.agent = agent ∧ c.level = l := by
  have own : i.latestLevel uid agent =
      (lastMax Commit.clockOf (ownedBy (i.commitsOf uid) agent)).map Commit.level := by
    have listed : (BTreeSet.ofList (ownedBy (i.commitsOf uid) agent)).toList =
        ownedBy (i.commitsOf uid) agent := BTreeSet.toList_ofList (owned_by_ordered agent)
    rw [← listed, Interpretive.latestLevel, Interpretive.commitmentOf, Interpretive.onlyFrom]
    dsimp only
    rw [BTreeMap.get_insert, if_pos rfl]
    rfl
  rw [own, Option.map_eq_some_iff]
  simp only [last_max_owned, and_assoc]

namespace StoreRead

theorem latest_word_get (cs : List Commit) (latest : BTreeMap AgentId (Hlc × Commitment))
    (agent : AgentId) (held : Option Commit) (same : latest.get agent = held.map Commit.word) :
    (cs.foldl latestWord latest).get agent =
      ((cs.filter (fun c => c.agent == agent)).foldl (keepBest (earlierOf Commit.clock))
        held).map Commit.word := by
  induction cs generalizing latest held with
  | nil => exact same
  | cons c cs ih =>
    rw [List.foldl_cons]
    by_cases own : c.agent = agent
    · rw [List.filter_cons_of_pos (by rw [beq_iff_eq]; exact own), List.foldl_cons]
      apply ih
      rw [latestWord, own, same]
      cases held with
      | none =>
        dsimp only [Option.map_none]
        rw [BTreeMap.get_insert, if_pos rfl]
        rfl
      | some b =>
        dsimp only [Option.map_some, Commit.word, keepBest]
        rw [earlierOf]
        by_cases older : c.clock ≤ b.clock
        · rw [if_pos older, if_pos ((c.clock_le_iff b).mp older), same]
          rfl
        · rw [if_neg older, if_neg (mt (c.clock_le_iff b).mpr older), BTreeMap.get_insert,
            if_pos rfl]
    · rw [List.filter_cons_of_neg (by rw [beq_iff_eq]; exact own)]
      apply ih
      rw [← same, latestWord]
      split
      · split
        · rfl
        · rw [BTreeMap.get_insert, if_neg (Ne.symm own)]
      · rw [BTreeMap.get_insert, if_neg (Ne.symm own)]

theorem latest_word_iff (commits : BTreeSet Commit) (agent : AgentId) (w : Hlc × Commitment) :
    (commits.toList.foldl latestWord ∅).get agent = some w ↔
      ∃ c, FirstLatest commits c ∧ c.agent = agent ∧ c.word = w := by
  rw [latest_word_get commits.toList ∅ agent none rfl, Option.map_eq_some_iff]
  change (∃ c, firstMax Commit.clock (ownedBy commits agent) = some c ∧ _) ↔ _
  simp only [first_max_owned, and_assoc]

theorem one_lt_length_iff {α : Type} {xs : List α} (nodup : xs.Nodup) :
    1 < xs.length ↔ ∃ a ∈ xs, ∃ b ∈ xs, a ≠ b := by
  classical
  rw [← List.toFinset_card_of_nodup nodup, Finset.one_lt_card]
  simp only [List.mem_toFinset]

/-- Detection finds agents at odds where the first of their latest commitments are. -/
theorem disagree_iff (commits : BTreeSet Commit) :
    (1 < (commits.toList.foldl latestWord ∅).entries.length ∧
      1 < (((commits.toList.foldl latestWord ∅).values.map Prod.snd).dedup).length) ↔
        ¬ FirstsAgree commits := by
  have entry : ∀ e, e ∈ (commits.toList.foldl latestWord ∅).entries ↔
      ∃ c, FirstLatest commits c ∧ (c.agent, c.word) = e := by
    intro e
    rw [BTreeMap.mem_entries_iff _ e.1 e.2, latest_word_iff]
    simp only [Prod.ext_iff]
  have level : ∀ l, l ∈ ((commits.toList.foldl latestWord ∅).values.map Prod.snd).dedup ↔
      ∃ c, FirstLatest commits c ∧ c.level = l := by
    intro l
    rw [List.mem_dedup, BTreeMap.values, List.map_map, List.mem_map]
    constructor
    · intro found
      obtain ⟨e, mem, here⟩ := found
      obtain ⟨c, first, same⟩ := (entry e).mp mem
      rw [← same] at here
      exact ⟨c, first, here⟩
    · intro found
      obtain ⟨c, first, here⟩ := found
      exact ⟨(c.agent, c.word), (entry _).mpr ⟨c, first, rfl⟩, here⟩
  have once : (commits.toList.foldl latestWord ∅).entries.Nodup :=
    List.Nodup.of_map Prod.fst (BTreeMap.keys_nodup _)
  rw [one_lt_length_iff once, one_lt_length_iff (List.nodup_dedup _)]
  constructor
  · intro both agree
    obtain ⟨l, mem, l', mem', differ⟩ := both.2
    obtain ⟨c, first, here⟩ := (level l).mp mem
    obtain ⟨d, second, here'⟩ := (level l').mp mem'
    apply differ
    rw [← here, ← here', agree c d first second]
  · intro odds
    rw [FirstsAgree] at odds
    simp only [not_forall] at odds
    obtain ⟨c, d, first, second, differ⟩ := odds
    refine ⟨⟨_, (entry _).mpr ⟨c, first, rfl⟩, _, (entry _).mpr ⟨d, second, rfl⟩, ?_⟩,
      ⟨_, (level _).mpr ⟨c, first, rfl⟩, _, (level _).mpr ⟨d, second, rfl⟩, differ⟩⟩
    intro same
    exact differ (congrArg (fun e : AgentId × Hlc × Commitment => e.2.2) same)

section
variable [Blake3] (s : StoreRead) (ctx : DetectionContext)

/-- A commitment fork is reported over a unit. -/
def CommitmentFork (uid : Uid) : Prop := ∃ c ∈ s.commitmentForks ctx, c.overUnit = uid

/-- Two agents' latest levels differ. -/
def LevelsDiffer (uid : Uid) : Prop :=
  ∃ a b l l', a ≠ b ∧ s.interp.latestLevel uid a = some l ∧
    s.interp.latestLevel uid b = some l' ∧ l ≠ l'

theorem commitment_fork_iff {uid : Uid} (present : s.Present uid) :
    s.CommitmentFork ctx uid ↔ ¬ FirstsAgree (s.interp.commitsOf uid) := by
  have here : s.containsUid uid = true := present
  rw [CommitmentFork]
  constructor
  · intro reported
    obtain ⟨c, mem, lead⟩ := reported
    obtain ⟨e, mem, made⟩ := List.mem_filterMap.mp mem
    dsimp only at made
    split_ifs at made with skipped odds
    have same : e.1 = uid := by
      rw [← lead, ← Option.some.inj made]
      rfl
    have set : s.interp.commitsOf uid = e.2 := by
      rw [Interpretive.commitsOf, ← same, (BTreeMap.mem_entries_iff _ e.1 e.2).mp mem]
      rfl
    rw [set]
    exact (disagree_iff e.2).mp odds
  · intro odds
    cases held : s.interp.commits.get uid with
    | none =>
      exfalso
      apply odds
      intro c d first second
      have mem := first.1.1
      rw [Interpretive.commitsOf, held] at mem
      exact absurd mem (BTreeSet.not_mem_emptyCollection c)
    | some commits =>
      have set : s.interp.commitsOf uid = commits := by
        rw [Interpretive.commitsOf, held]
        rfl
      rw [set] at odds
      have many := (disagree_iff commits).mpr odds
      have full : commits.isEmpty = false := by
        rw [BTreeSet.isEmpty]
        cases listed : commits.toList with
        | nil =>
          rw [listed] at many
          exact absurd many.1 (by decide)
        | cons c cs => rfl
      refine ⟨contention .commitmentFork uid [uid] ctx, List.mem_filterMap.mpr
        ⟨(uid, commits), (BTreeMap.mem_entries_iff _ _ _).mpr held, ?_⟩, rfl⟩
      dsimp only
      rw [full, here, Bool.not_true, Bool.or_false, if_neg Bool.false_ne_true, if_pos many]

omit [Blake3] in
theorem levels_differ_iff (uid : Uid) :
    s.LevelsDiffer uid ↔ ¬ LastsAgree (s.interp.commitsOf uid) := by
  constructor
  · intro differ agree
    obtain ⟨a, b, l, l', _, first, second, differ⟩ := differ
    obtain ⟨c, last, _, here⟩ := (latest_level_iff _ _ _ _).mp first
    obtain ⟨d, last', _, here'⟩ := (latest_level_iff _ _ _ _).mp second
    apply differ
    rw [← here, ← here', agree c d last last']
  · intro odds
    rw [LastsAgree] at odds
    simp only [not_forall] at odds
    obtain ⟨c, d, last, last', differ⟩ := odds
    refine ⟨c.agent, d.agent, c.level, d.level, ?_, (latest_level_iff _ _ _ _).mpr
      ⟨c, last, rfl, rfl⟩, (latest_level_iff _ _ _ _).mpr ⟨d, last', rfl, rfl⟩, differ⟩
    intro same
    rw [last_unique last last' same] at differ
    exact differ rfl

end
end StoreRead

section
local instance plainCommitText : Unicode := .plain
local instance modPrimeCommitHash : Blake3 := .modPrime

def committer : AgentId := ⟨"human:a", human_a_accepted⟩
def reviewer : AgentId := ⟨"human:b", by decide +kernel⟩

/-- A commitment to a unit at the given level, with the clock at one. -/
def atOne (uid : Uid) (agent : AgentId) (level : Commitment) : Record :=
  .commit ⟨uid, level, agent, ⟨1, 0, agent⟩, none, ∅⟩

/-- A claim that one agent committed to at each of the levels at once, and another at the
last of them. -/
def committed (levels : List Commitment) : Store :=
  let core := bareClaim "a" present_a ∅
  Store.fromRecords (.unit core :: atOne (canonicalUid core) reviewer .canonical ::
    levels.map (atOne (canonicalUid core) committer))

/-- The claim they are committed to. -/
def committedTo : Uid := canonicalUid (bareClaim "a" present_a ∅)

end
end Smysl
