import Smysl.Query.Postings

/-!
A lexical source over several partitions. One table's postings are dealt out among them, and
each partition is scored by the statistics its scope names.
-/
namespace Smysl
open ByteString Merging OrdMap

/-- How a candidate set was split. -/
inductive PartitionKey
  | uncatalogued
  | catalog (manifest lang : String)
  deriving DecidableEq, Repr

/-- What is not catalogued comes first, then manifest by manifest. -/
def PartitionKey.order : PartitionKey → WithBot (String ×ₗ String)
  | .uncatalogued => ⊥
  | .catalog manifest lang => ↑(toLex (manifest, lang))

structure Partition where
  key : PartitionKey
  uids : BTreeSet Uid
  /-- The analyzer chain the partition is searched under. -/
  chain : Option String

/-- What frequencies and sizes are counted over. -/
inductive IdfScope
  | partition
  | collection
  | library
  deriving DecidableEq, Repr

/-- The documents of all partitions. -/
def allOf (partitions : List Partition) : BTreeSet Uid :=
  BTreeSet.ofList (partitions.flatMap (fun p => p.uids.toList))

/-- One query's postings, read from one table and dealt out among its partitions. -/
structure Fanout where
  table : Table
  idf : IdfScope
  /-- The statistics of the universe, for a scope wider than the partition. -/
  universe_ : Option Postings
  /-- Which partition each candidate is in. -/
  partOf : BTreeMap Uid Nat
  parts : Nat

namespace Fanout

def new (table : Table) (partitions : List Partition) (needed : BTreeSet Uid)
    (idf : IdfScope) : Fanout where
  table := table
  idf := idf
  universe_ := if idf = .partition then none else some (table.subset needed)
  partOf := partitions.zipIdx.foldl (fun m e =>
    e.1.uids.toList.foldl (fun m uid => m.insert uid e.2) m) ∅
  parts := partitions.length

/-- A term's postings, by partition. -/
def split (f : Fanout) (term : String) : List (List (Uid × UInt32)) :=
  (f.table.postings term).foldl (fun out e =>
    match f.partOf.get e.1 with
    | some i => out.modify i (· ++ [e])
    | none => out) (List.replicate f.parts [])

def universeDf (f : Fanout) (term : String) : UInt32 :=
  match f.universe_ with
  | some u => u.df term
  | none => 0

/-- A partition, scored by the statistics its scope names. -/
def share (f : Fanout) (idx : Nat) (uids : BTreeSet Uid) : Postings where
  df term :=
    match f.idf with
    | .partition => UInt32.ofNat ((f.split term).getD idx []).length
    | .collection => f.universeDf term
    | .library => f.universeDf term
  postings term := (f.split term).getD idx []
  docLen uid :=
    match f.universe_ with
    | some u => u.docLen uid
    | none => if f.partOf.get uid = some idx then f.table.docLen uid else none
  docs :=
    match f.universe_ with
    | some u => u.docs
    | none => (f.table.corpus uids).1
  totalLen :=
    match f.universe_ with
    | some u => u.totalLen
    | none => (f.table.corpus uids).2
  tf term uid :=
    if f.partOf.get uid = some idx then countOf ((f.split term).getD idx []) uid
    else
      match f.universe_ with
      | some u => u.tf term uid
      | none => 0
  analyzer := f.table.analyzer

end Fanout

/-- One partition's ranked list. -/
structure Ranked where
  key : PartitionKey
  hits : List Hit

/-- Where one partition placed a unit. -/
structure Placement where
  key : PartitionKey
  rank : Nat
  score : Float32
  terms : List (String × Float32)

structure Fused where
  uid : Uid
  score : Float
  placements : List Placement

/-- A list's places, put behind those of the lists before it. -/
def place (m : BTreeMap Uid (List Placement)) (list : Ranked) : BTreeMap Uid (List Placement) :=
  list.hits.zipIdx.foldl (fun m e =>
    m.insert e.1.uid ((m.get e.1.uid).getD [] ++
      [{ key := list.key, rank := e.2 + 1, score := e.1.score, terms := e.1.terms }])) m

/-- Reciprocal rank fusion: partitions in order of their keys, ties by uid. -/
def rrf (lists : List Ranked) : List Fused :=
  let order := lists.mergeSort (fun a b => decide (a.key.order ≤ b.key.order))
  let fused := (order.foldl place ∅).entries.map (fun e =>
    ({ uid := e.1
       score := e.2.foldl (fun sum p => sum + 1 / (60 + p.rank.toFloat)) 0
       placements := e.2 } : Fused))
  fused.mergeSort (fun a b =>
    (if b.score < a.score then Ordering.lt else if a.score < b.score then .gt else .eq).then
      (compare a.uid b.uid) != .gt)

/-- What a lexical source is run with, once its text is bound. -/
structure Lexical where
  text : String
  limit : Nat
  idf : IdfScope
  /-- The units in the language asked for. -/
  inLang : Option (BTreeSet Uid)
  /-- The analyzer of each partition. -/
  analyzer : PartitionKey → Analyze
  store : StoreRead

namespace Lexical

/-- What of a partition is searched. -/
def within (lex : Lexical) (p : Partition) : BTreeSet Uid :=
  match lex.inLang with
  | some allowed => BTreeSet.ofList (p.uids.toList.filter allowed.contains)
  | none => p.uids

def query (lex : Lexical) (p : Partition) : Query :=
  { text := lex.text, limit := lex.limit, within := lex.within p }

/-- The documents of the widest corpus a scope reads. -/
def needed (lex : Lexical) (candidates library : BTreeSet Uid) : BTreeSet Uid :=
  match lex.idf with
  | .library => library
  | _ => candidates

/-- The documents whose statistics score a partition. -/
def universeOf (lex : Lexical) (candidates library : BTreeSet Uid) (p : Partition) : BTreeSet Uid :=
  match lex.idf with
  | .partition => p.uids
  | .collection => candidates
  | .library => library

section
variable [Unicode]

/-- The partitions that something is left of are searched, each over its index. -/
def searchEach (lex : Lexical) (index : Nat → Partition → Postings)
    (partitions : List Partition) : List Ranked :=
  partitions.zipIdx.filterMap (fun e =>
    if (lex.within e.1).isEmpty then none
    else some
      { key := e.1.key
        hits := Bm25View.search ⟨index e.2 e.1, lex.analyzer e.1.key, lex.store⟩ (lex.query e.1) })

/-- The search over one table, dealt out. -/
def fanned (lex : Lexical) (table : Table) (partitions : List Partition)
    (candidates library : BTreeSet Uid) : List Fused :=
  let fan := Fanout.new table partitions (lex.needed candidates library) lex.idf
  rrf (lex.searchEach (fun idx p => fan.share idx p.uids) partitions)

/-- The search with an index of its own for each partition's universe. -/
def indexed (lex : Lexical) (table : Table) (partitions : List Partition)
    (candidates library : BTreeSet Uid) : List Fused :=
  rrf (lex.searchEach (fun _ p => table.subset (lex.universeOf candidates library p)) partitions)

end
end Lexical

namespace Postings

/-- The answers of another index, except that only some documents are listed. -/
structure AnswersAs (share index : Postings) (uids : BTreeSet Uid) : Prop where
  df : share.df = index.df
  postings : ∀ term, share.postings term = keep uids.contains (index.postings term)
  docLen : share.docLen = index.docLen
  docs : share.docs = index.docs
  totalLen : share.totalLen = index.totalLen
  tf : share.tf = index.tf
  analyzer : share.analyzer = index.analyzer

variable {share index : Postings} {uids : BTreeSet Uid}

theorem AnswersAs.avgdl (answers : share.AnswersAs index uids) : share.avgdl = index.avgdl := by
  rw [Postings.avgdl, Postings.avgdl, answers.docs, answers.totalLen]

end Postings

namespace Bm25View

variable {share index : Postings} {uids : BTreeSet Uid} {analyzer : Analyze} {store : StoreRead}

theorem idf_same (answers : share.AnswersAs index uids) (df : UInt32) :
    idf ⟨share, analyzer, store⟩ df = idf ⟨index, analyzer, store⟩ df := by
  rw [idf, idf, answers.docs]

/-- Scored over a share, one more term leaves what is scored over the index and listed. -/
theorem score_term_same (answers : share.AnswersAs index uids)
    (ascending : ∀ term, Ascending (index.postings term)) (avgdl : Float32) (term : String)
    {acc : List (Uid × UInt32 × Float32)} (before : Ascending acc) :
    scoreTerm ⟨share, analyzer, store⟩ avgdl (keep uids.contains acc) term =
        keep uids.contains (scoreTerm ⟨index, analyzer, store⟩ avgdl acc term) ∧
      Ascending (scoreTerm ⟨index, analyzer, store⟩ avgdl acc term) := by
  rw [scoreTerm, scoreTerm]
  simp only [answers.df, answers.postings, answers.docLen, idf_same answers]
  split
  · exact ⟨rfl, before⟩
  · exact ⟨(keep_merge _ before (ascending term)).symm, merge_ascending before (ascending term)⟩

theorem candidates_same (answers : share.AnswersAs index uids)
    (ascending : ∀ term, Ascending (index.postings term)) (terms : List String)
    (avgdl : Float32) :
    candidates ⟨share, analyzer, store⟩ terms avgdl =
      keep uids.contains (candidates ⟨index, analyzer, store⟩ terms avgdl) := by
  have from_ : ∀ acc : List (Uid × UInt32 × Float32), Ascending acc →
      terms.foldl (scoreTerm ⟨share, analyzer, store⟩ avgdl) (keep uids.contains acc) =
        keep uids.contains (terms.foldl (scoreTerm ⟨index, analyzer, store⟩ avgdl) acc) := by
    induction terms with
    | nil => exact fun _ _ => rfl
    | cons term terms ih =>
      intro acc before
      obtain ⟨same, after⟩ := @score_term_same _ _ _ analyzer store answers ascending avgdl term
        acc before
      rw [List.foldl_cons, List.foldl_cons, same]
      exact ih _ after
  exact from_ [] List.Pairwise.nil

theorem contributions_same (answers : share.AnswersAs index uids) (uid : Uid) (len : UInt32)
    (avgdl : Float32) (terms : List String) :
    contributions ⟨share, analyzer, store⟩ uid len avgdl terms =
      contributions ⟨index, analyzer, store⟩ uid len avgdl terms := by
  rw [contributions, contributions]
  simp only [answers.df, answers.tf, idf_same answers]

theorem within_of_admits {q : Query} (some_ : q.within.isEmpty = false) {u : Uid}
    {schema : SchemaId} {status : Status} (passes : q.admitsSchema u schema status = true) :
    u ∈ q.within := by
  by_contra out
  have outside : (!q.within.isEmpty && !q.within.contains u) = true := by
    rw [some_, Bool.not_false, Bool.true_and, Bool.not_eq_true']
    exact Bool.eq_false_of_not_eq_true out
  have refused : q.admitsSchema u schema status = false := if_pos outside
  rw [refused] at passes
  cases passes

/-- A query within what is listed is answered alike. -/
theorem search_same [Unicode] (answers : share.AnswersAs index uids)
    (ascending : ∀ term, Ascending (index.postings term)) {q : Query}
    (some_ : q.within.isEmpty = false) (inside : ∀ u ∈ q.within, u ∈ uids) :
    search ⟨share, analyzer, store⟩ q = search ⟨index, analyzer, store⟩ q := by
  have filters : q.filtersAnything = true := by
    rw [Query.filtersAnything, some_]
    simp
  have admits_same : ∀ u,
      admits ⟨share, analyzer, store⟩ q u = admits ⟨index, analyzer, store⟩ q u := fun _ => rfl
  have listed : ∀ u, admits ⟨index, analyzer, store⟩ q u = true → uids.contains u = true := by
    intro u passes
    rw [admits] at passes
    split at passes
    · cases passes
    · split at passes
      · cases passes
      · rename_i unit _ schema
        rw [Bool.not_eq_true', Bool.not_eq_false] at schema
        exact inside u (within_of_admits some_ schema)
  have kept : ∀ cands : List (Uid × UInt32 × Float32),
      (keep uids.contains cands).filter (fun c =>
          decide (0 < c.2.2) && (!true || admits ⟨index, analyzer, store⟩ q c.1)) =
        cands.filter (fun c =>
          decide (0 < c.2.2) && (!true || admits ⟨index, analyzer, store⟩ q c.1)) := by
    intro cands
    rw [keep, List.filter_filter]
    apply List.filter_congr
    intro c _
    rw [Bool.not_true, Bool.false_or]
    cases passes : admits ⟨index, analyzer, store⟩ q c.1 with
    | false => simp
    | true => rw [listed c.1 passes, Bool.and_true]
  rw [search, search]
  simp only [answers.avgdl, answers.docLen, candidates_same answers ascending,
    contributions_same answers, filters, admits_same, kept]

end Bm25View

namespace Fanout

/-- Each uid is in one partition at most. -/
def Disjoint (partitions : List Partition) : Prop :=
  partitions.Pairwise fun p q => ∀ u ∈ p.uids, u ∉ q.uids

theorem insert_each_get (uids : List Uid) (i : Nat) (m : BTreeMap Uid Nat) (u : Uid) :
    (uids.foldl (fun m uid => m.insert uid i) m).get u = if u ∈ uids then some i else m.get u := by
  induction uids generalizing m with
  | nil => simp
  | cons v uids ih =>
    rw [List.foldl_cons, ih, BTreeMap.get_insert]
    by_cases later : u ∈ uids
    · rw [if_pos later, if_pos (List.mem_cons_of_mem v later)]
    · rw [if_neg later]
      by_cases here : u = v
      · rw [if_pos here, if_pos (here ▸ List.mem_cons_self)]
      · rw [if_neg here, if_neg]
        exact fun mem => (List.mem_cons.mp mem).elim here later

theorem placed_get {ps : List (Partition × Nat)}
    (disjoint : ps.Pairwise fun d e => ∀ u ∈ d.1.uids, u ∉ e.1.uids) (m : BTreeMap Uid Nat)
    (u : Uid) :
    (∀ e ∈ ps, u ∈ e.1.uids → (ps.foldl (fun m e =>
        e.1.uids.toList.foldl (fun m uid => m.insert uid e.2) m) m).get u = some e.2) ∧
      ((∀ e ∈ ps, u ∉ e.1.uids) → (ps.foldl (fun m e =>
        e.1.uids.toList.foldl (fun m uid => m.insert uid e.2) m) m).get u = m.get u) := by
  induction ps generalizing m with
  | nil => exact ⟨fun e mem => (nomatch mem), fun _ => rfl⟩
  | cons d ps ih =>
    obtain ⟨apart, disjoint⟩ := List.pairwise_cons.mp disjoint
    obtain ⟨placed, unplaced⟩ := ih disjoint
      (d.1.uids.toList.foldl (fun m uid => m.insert uid d.2) m)
    rw [insert_each_get] at unplaced
    constructor
    · intro e mem held
      rcases List.mem_cons.mp mem with here | mem
      · rw [here] at held ⊢
        rw [List.foldl_cons, unplaced (fun e mem => apart e mem u held),
          if_pos ((BTreeSet.mem_toList _ _).mpr held)]
      · exact placed e mem held
    · intro none'
      rw [List.foldl_cons, unplaced (fun e mem => none' e (List.mem_cons_of_mem d mem)), if_neg]
      rw [BTreeSet.mem_toList]
      exact none' d List.mem_cons_self

section
variable {table : Table} {partitions : List Partition} (disjoint : Disjoint partitions)
  (needed : BTreeSet Uid) (idf : IdfScope)
include disjoint

/-- A candidate is placed in the partition that holds it. -/
theorem part_of_iff {idx : Nat} {p : Partition} (here : partitions[idx]? = some p) (u : Uid) :
    (new table partitions needed idf).partOf.get u = some idx ↔ u ∈ p.uids := by
  have pairs : partitions.zipIdx.Pairwise fun d e => ∀ u ∈ d.1.uids, u ∉ e.1.uids := by
    have firsts : (partitions.zipIdx.map Prod.fst).Pairwise fun p q =>
        ∀ u ∈ p.uids, u ∉ q.uids := by
      rw [List.zipIdx_map_fst]
      exact disjoint
    exact List.pairwise_map.mp firsts
  obtain ⟨placed, unplaced⟩ := placed_get pairs ∅ u
  have mem : (p, idx) ∈ partitions.zipIdx := List.mem_zipIdx_iff_getElem?.mpr here
  constructor
  · intro found
    by_contra out
    by_cases some_ : ∃ e ∈ partitions.zipIdx, u ∈ e.1.uids
    · obtain ⟨e, mem', held⟩ := some_
      have same : some e.2 = some idx := (placed e mem' held).symm.trans found
      have there := List.mem_zipIdx_iff_getElem?.mp mem'
      rw [Option.some.inj same, here] at there
      rw [Option.some.inj there] at out
      exact out held
    · have lost : _ = some idx := (unplaced (fun e mem held => some_ ⟨e, mem, held⟩)).symm.trans found
      rw [BTreeMap.get_emptyCollection] at lost
      cases lost
  · exact placed (p, idx) mem

omit disjoint in
theorem split_from (partOf : BTreeMap Uid Nat) (es : List (Uid × UInt32))
    (out : List (List (Uid × UInt32))) {i : Nat} (inside : i < out.length) :
    (es.foldl (fun out e =>
        match partOf.get e.1 with
        | some i => out.modify i (· ++ [e])
        | none => out) out).getD i [] =
      out.getD i [] ++ es.filter (fun e => decide (partOf.get e.1 = some i)) := by
  induction es generalizing out with
  | nil => simp
  | cons e es ih =>
    rw [List.foldl_cons, List.filter_cons]
    cases placed : partOf.get e.1 with
    | none =>
      dsimp only
      rw [ih out inside]
      simp
    | some j =>
      dsimp only
      rw [ih _ (by rw [List.length_modify]; exact inside)]
      by_cases here : j = i
      · simp [here, inside]
      · simp [here]

/-- What a partition is dealt is what it holds of the postings. -/
theorem split_share {idx : Nat} {p : Partition} (here : partitions[idx]? = some p)
    (term : String) :
    ((new table partitions needed idf).split term).getD idx [] =
      keep p.uids.contains (table.postings term) := by
  have inside : idx < partitions.length := (List.getElem?_eq_some_iff.mp here).1
  rw [split, split_from]
  · rw [keep]
    have none' : (List.replicate (new table partitions needed idf).parts
        ([] : List (Uid × UInt32))).getD idx [] = [] := by
      rw [List.getD, List.getElem?_replicate]
      split <;> rfl
    rw [none', List.nil_append]
    apply List.filter_congr
    intro e _
    rw [Bool.eq_iff_iff, decide_eq_true_iff, part_of_iff disjoint needed idf here]
    exact BTreeSet.mem_def _ _
  · rw [List.length_replicate]
    exact inside

omit disjoint in
/-- Leaving documents out does not change how often another is counted. -/
theorem count_keep {kept : Uid → Bool} (list : List (Uid × UInt32)) {u : Uid}
    (held : kept u = true) : countOf (keep kept list) u = countOf list u := by
  rw [countOf, countOf, keep, List.find?_filter]
  congr 3
  funext e
  by_cases same : e.1 = u
  · rw [same, held, beq_self_eq_true]
    rfl
  · rw [beq_false_of_ne same]
    simp

/-- A partition's share answers as one index over its universe does, listing only what the
partition holds. -/
theorem share_answers {idx : Nat} {p : Partition} (here : partitions[idx]? = some p)
    {corpus : BTreeSet Uid} (narrow : idf = .partition → corpus = p.uids)
    (wide : idf ≠ .partition → corpus = needed) (inside : ∀ u ∈ p.uids, u ∈ corpus) :
    ((new table partitions needed idf).share idx p.uids).AnswersAs (table.subset corpus)
      p.uids := by
  have placed := fun u => @part_of_iff table _ disjoint needed idf _ _ here u
  have dealt := fun term => @split_share table _ disjoint needed idf _ _ here term
  have postings : ∀ term,
      ((new table partitions needed idf).share idx p.uids).postings term =
        keep p.uids.contains ((table.subset corpus).postings term) := by
    intro term
    change ((new table partitions needed idf).split term).getD idx [] = _
    rw [dealt, Postings.subset, keep, keep, List.filter_filter]
    apply List.filter_congr
    intro e _
    cases held : p.uids.contains e.1 with
    | false => rfl
    | true => exact ((BTreeSet.mem_def _ _).mp (inside e.1 held)).symm
  -- what a partition holds is counted in its own share
  have counted : ∀ term u, u ∈ p.uids →
      countOf (((new table partitions needed idf).split term).getD idx []) u =
        table.tf term u := by
    intro term u held
    rw [dealt, count_keep _ ((BTreeSet.mem_def _ _).mp held), table.counted]
  by_cases scope : idf = .partition
  · have same := narrow scope
    subst scope
    subst same
    refine ⟨?_, postings, ?_, rfl, rfl, ?_, rfl⟩
    · funext term
      change UInt32.ofNat (((new table partitions needed .partition).split term).getD idx
        []).length = _
      rw [dealt]
      rfl
    · funext u
      change (if (new table partitions needed .partition).partOf.get u = some idx then
        table.docLen u else none) = if p.uids.contains u then table.docLen u else none
      exact if_congr ((placed u).trans (BTreeSet.mem_def _ _)) rfl rfl
    · funext term u
      change (if (new table partitions needed .partition).partOf.get u = some idx then
        countOf (((new table partitions needed .partition).split term).getD idx []) u else 0) =
          if p.uids.contains u then table.tf term u else 0
      by_cases held : u ∈ p.uids
      · rw [if_pos ((placed u).mpr held), if_pos ((BTreeSet.mem_def _ _).mp held),
          counted term u held]
      · rw [if_neg (fun there => held ((placed u).mp there)),
          if_neg (fun there => held ((BTreeSet.mem_def _ _).mpr there))]
  · have same := wide scope
    subst same
    have universe_ : (new table partitions corpus idf).universe_ = some (table.subset corpus) :=
      if_neg scope
    refine ⟨?_, postings, ?_, ?_, ?_, ?_, rfl⟩
    · funext term
      cases idf with
      | partition => exact absurd rfl scope
      | collection => rfl
      | library => rfl
    · funext u
      rw [share, universe_]
    · rw [share, universe_]
    · rw [share, universe_]
    · funext term u
      rw [share, universe_]
      dsimp only
      split
      · rename_i there
        have held := (placed u).mp there
        rw [counted term u held]
        exact (if_pos ((BTreeSet.mem_def _ _).mp (inside u held))).symm
      · rfl

end
end Fanout

theorem mem_all_of {partitions : List Partition} (u : Uid) :
    u ∈ allOf partitions ↔ ∃ p ∈ partitions, u ∈ p.uids := by
  rw [allOf, BTreeSet.mem_ofList, List.mem_flatMap]
  simp only [BTreeSet.mem_toList]

namespace Lexical
variable (lex : Lexical) (table : Table) (partitions : List Partition) (library : BTreeSet Uid)

/-- The share of a partition in a lexical source. -/
def shareOf (idx : Nat) (p : Partition) : Postings :=
  (Fanout.new table partitions (lex.needed (allOf partitions) library) lex.idf).share idx p.uids

/-- The index over the documents that a partition of it is scored by. -/
def indexOf (p : Partition) : Postings :=
  table.subset (lex.universeOf (allOf partitions) library p)

variable {partitions library} (disjoint : Fanout.Disjoint partitions)
  (inside : ∀ p ∈ partitions, ∀ u ∈ p.uids, u ∈ library)
include disjoint inside

theorem share_of_answers {idx : Nat} {p : Partition} (here : partitions[idx]? = some p) :
    (lex.shareOf table partitions library idx p).AnswersAs
      (lex.indexOf table partitions library p) p.uids := by
  have mem := List.mem_of_getElem? here
  apply Fanout.share_answers disjoint _ _ here
  · intro scope
    rw [universeOf, scope]
  · intro scope
    rw [universeOf, needed]
    cases idf : lex.idf with
    | partition => exact absurd idf scope
    | collection => rfl
    | library => rfl
  · intro u held
    rw [universeOf]
    cases lex.idf with
    | partition => exact held
    | collection => exact (mem_all_of u).mpr ⟨p, mem, held⟩
    | library => exact inside p mem u held

theorem search_each_same [Unicode] :
    lex.searchEach (lex.shareOf table partitions library) partitions =
      lex.searchEach (fun _ => lex.indexOf table partitions library) partitions := by
  apply List.filterMap_congr
  intro e mem
  have answers := lex.share_of_answers table disjoint inside (List.mem_zipIdx_iff_getElem?.mp mem)
  split
  · rfl
  · rename_i some_
    have searched := @Bm25View.search_same _ _ _ (lex.analyzer e.1.key) lex.store _ answers
      (fun term => (table.ascending term).filter _) (lex.query e.1)
      (Bool.eq_false_of_not_eq_true some_)
    rw [searched]
    intro u held
    have held : u ∈ lex.within e.1 := held
    rw [within] at held
    cases inLang : lex.inLang with
    | none =>
      rw [inLang] at held
      exact held
    | some allowed =>
      rw [inLang, BTreeSet.mem_ofList, List.mem_filter, BTreeSet.mem_toList] at held
      exact held.1

/-- Dealt out among partitions that share no uid, one table answers each of them as an index
over the documents its scope counts, of which it lists the partition's own; so the fused
ranking is that of these indices. -/
theorem fan_out_is_one_index [Unicode] :
    (∀ idx p, partitions[idx]? = some p →
      (lex.shareOf table partitions library idx p).AnswersAs
        (lex.indexOf table partitions library p) p.uids) ∧
      lex.fanned table partitions (allOf partitions) library =
        lex.indexed table partitions (allOf partitions) library := by
  refine ⟨fun idx p here => lex.share_of_answers table disjoint inside here, ?_⟩
  exact congrArg rrf (lex.search_each_same table disjoint inside)

end Lexical

section
local instance plainFanoutText : Unicode := .plain

/-- Every document is one term long, and none has a term that is asked for. -/
def unlisted : Table where
  df _ := 0
  postings _ := []
  docLen _ := some 1
  docs := 2
  totalLen := 2
  tf _ _ := 0
  analyzer := none
  ascending _ := List.Pairwise.nil
  counted _ _ := rfl

def documentAt (byte : UInt8) : Uid := ⟨⟨List.replicate 32 byte, Bytes32.width_of byte⟩⟩

/-- A partition of one document. -/
def holding (byte : UInt8) : Partition where
  key := .catalog (toString byte) "en"
  uids := BTreeSet.ofList [documentAt byte]
  chain := none

/-- What is searched with a scope, and finds nothing. -/
def asking (idf : IdfScope) : Lexical where
  text := "a"
  limit := 10
  idf := idf
  inLang := none
  analyzer _ := ⟨"plain", fun text => [text]⟩
  store := ⟨[], ∅, {}⟩

theorem holding_disjoint : Fanout.Disjoint [holding 0, holding 1] := by
  rw [Fanout.Disjoint, List.pairwise_pair]
  intro u zero one
  rw [holding, BTreeSet.mem_ofList, List.mem_singleton] at zero one
  exact absurd (zero.symm.trans one) (by decide)

theorem holding_inside :
    ∀ p ∈ [holding 0, holding 1], ∀ u ∈ p.uids, u ∈ allOf [holding 0, holding 1] :=
  fun p mem u held => (mem_all_of u).mpr ⟨p, mem, held⟩

theorem unlisted_fanned :
    (∀ idx p, [holding 0, holding 1][idx]? = some p →
      ((asking .collection).shareOf unlisted [holding 0, holding 1]
          (allOf [holding 0, holding 1]) idx p).AnswersAs
        ((asking .collection).indexOf unlisted [holding 0, holding 1]
          (allOf [holding 0, holding 1]) p) p.uids) ∧
      (asking .collection).fanned unlisted [holding 0, holding 1] (allOf [holding 0, holding 1])
          (allOf [holding 0, holding 1]) =
        (asking .collection).indexed unlisted [holding 0, holding 1]
          (allOf [holding 0, holding 1]) (allOf [holding 0, holding 1]) :=
  Lexical.fan_out_is_one_index (asking .collection) unlisted holding_disjoint holding_inside

/-- By its own statistics, a partition has one document where both together have two. -/
theorem partition_scope_counts_itself :
    ¬ ∀ (lex : Lexical) (table : Table) (partitions : List Partition) (library : BTreeSet Uid),
      Fanout.Disjoint partitions → (∀ p ∈ partitions, ∀ u ∈ p.uids, u ∈ library) →
        ∀ idx p, partitions[idx]? = some p → (lex.shareOf table partitions library idx p).AnswersAs
          (table.subset (allOf partitions)) p.uids := by
  intro all
  have answers := all (asking .partition) unlisted [holding 0, holding 1] _ holding_disjoint
    holding_inside 0 (holding 0) rfl
  exact absurd answers.docs (by decide +kernel)

end
end Smysl
