import Smysl.Cbor.Payload
import Smysl.Graph.Compact
import Smysl.Lib.Merging

/-!
Inverted indices and what is scored over them. A scorer only asks an index questions, so an
index restricted to some documents, or one dealt out among several, is a different set of
answers.
-/
namespace Smysl
open ByteString

/-- What a scorer asks of an index. -/
structure Postings where
  df : String → UInt32
  postings : String → List (Uid × UInt32)
  docLen : Uid → Option UInt32
  docs : UInt32
  totalLen : UInt64
  tf : String → Uid → UInt32
  analyzer : Option String

/-- How often a document is counted in a list, which is searched by its uid. -/
def countOf (list : List (Uid × UInt32)) (uid : Uid) : UInt32 :=
  ((list.find? (fun e => e.1 == uid)).map Prod.snd).getD 0

/-- An index that keeps what every implementation promises: lists in order of the uids, each
uid once, and the count of a document that of its entry. -/
structure Table extends Postings where
  ascending : ∀ term, OrdMap.Ascending (postings term)
  counted : ∀ term uid, tf term uid = countOf (postings term) uid

namespace Postings

/-- How many of the documents are indexed, and their total length. -/
def corpus (p : Postings) (uids : BTreeSet Uid) : UInt32 × UInt64 :=
  uids.toList.foldl (fun sum uid =>
    match p.docLen uid with
    | some len => (sum.1 + 1, sum.2 + len.toUInt64)
    | none => sum) (0, 0)

/-- An index restricted to some of its documents. -/
def subset (inner : Postings) (uids : BTreeSet Uid) : Postings where
  df term := UInt32.ofNat ((inner.postings term).filter (fun e => uids.contains e.1)).length
  postings term := (inner.postings term).filter (fun e => uids.contains e.1)
  docLen uid := if uids.contains uid then inner.docLen uid else none
  docs := (inner.corpus uids).1
  totalLen := (inner.corpus uids).2
  tf term uid := if uids.contains uid then inner.tf term uid else 0
  analyzer := inner.analyzer

/-- The average length, with what an empty corpus is scored against. -/
def avgdl (p : Postings) : Float32 :=
  if p.docs == 0 then 256.0
  else
    let avgdl := (p.totalLen.toFloat / p.docs.toFloat).toFloat32
    if avgdl ≤ 0.0 then 256.0 else avgdl

end Postings

/-- Something that turns a text into terms. -/
structure Analyze where
  id : String
  terms : String → List String

/-- A payload field a query restricts on. -/
structure PayloadFilter where
  key : String
  values : BTreeSet String

def PayloadFilter.admits (f : PayloadFilter) (strings : BTreeMap String (BTreeSet String)) :
    Bool :=
  match strings.get f.key with
  | some have_ => have_.toList.any f.values.contains
  | none => false

mutual

/-- The strings of a value, each under the path to it. -/
def collectValue (key : String) : HValue → List (String × String)
  | .str s => [(key, s)]
  | .object entries => collectStrings key entries
  | .array items => items.filterMap (fun item =>
      match item with
      | .str s => some (key, s)
      | _ => none)
  | _ => []

def collectStrings (before : String) : List (String × HValue) → List (String × String)
  | [] => []
  | e :: entries =>
    collectValue (if before.isEmpty then e.1 else before ++ "." ++ e.1) e.2 ++
      collectStrings before entries

end

section
variable [Unicode]

/-- The strings of a payload; one that does not decode has none. -/
def payloadStrings (bytes : Bytes) : BTreeMap String (BTreeSet String) :=
  match payloadToObject bytes with
  | .ok o => (collectStrings "" o).foldl (fun m e => insertAt m e.1 e.2) ∅
  | .error _ => ∅

end

/-- What to retrieve, and from where. An empty filter restricts nothing. -/
structure Query where
  text : String
  limit : Nat
  kinds : List KernelType := []
  minStatus : Option Status := none
  within : BTreeSet Uid := ∅
  payload : Option PayloadFilter := none
  schemas : BTreeSet SchemaId := ∅

namespace Query

def admitsStatus (q : Query) (status : Status) : Bool :=
  match q.minStatus with
  | some m => decide (WireCode.asU8 m ≤ WireCode.asU8 status)
  | none => true

def admits (q : Query) (kind : KernelType) (status : Status) : Bool :=
  if !q.kinds.isEmpty && !q.kinds.contains kind then false else q.admitsStatus status

/-- Every filter except the one on payloads. -/
def admitsSchema (q : Query) (uid : Uid) (schema : SchemaId) (status : Status) : Bool :=
  if !q.within.isEmpty && !q.within.contains uid then false
  else if !q.schemas.isEmpty && !q.schemas.contains schema then false
  else
    match schema with
    | .kernel k => q.admits k status
    | _ => q.kinds.isEmpty && q.admitsStatus status

/-- Whether the query restricts the candidates at all. -/
def filtersAnything (q : Query) : Bool :=
  !q.kinds.isEmpty || q.minStatus.isSome || !q.within.isEmpty || q.payload.isSome ||
    !q.schemas.isEmpty

end Query

/-- One retrieved unit, and what each term of the query contributed. -/
structure Hit where
  uid : Uid
  score : Float32
  terms : List (String × Float32) := []

/-- Higher scores first. -/
def scoreOrder (a b : Float32) : Ordering :=
  if b < a then .lt else if a < b then .gt else .eq

/-- A scorer over an index: it owns nothing. -/
structure Bm25View where
  postings : Postings
  analyzer : Analyze
  store : StoreRead

namespace Bm25View

def idf (v : Bm25View) (df : UInt32) : Float32 :=
  let df := df.toFloat32
  let numerator := v.postings.docs.toFloat32 - df + 0.5
  let denominator := df + 0.5
  (1 + numerator / denominator).log

def value (tf len : UInt32) (avgdl : Float32) : Float32 :=
  if tf == 0 then 0
  else
    let tf := tf.toFloat32
    let numerator := tf * (1.2 + 1)
    let denominator := tf + 1.2 * (1 - 0.75 + 0.75 * (len.toFloat32 / avgdl))
    numerator / denominator

/-- One term: its list is merged into what was scored before. -/
def scoreTerm (v : Bm25View) (avgdl : Float32) (acc : List (Uid × UInt32 × Float32))
    (term : String) : List (Uid × UInt32 × Float32) :=
  let df := v.postings.df term
  if df == 0 then acc
  else
    let idf := v.idf df
    Merging.merge (fun (scored : UInt32 × Float32) tf =>
        (scored.1, scored.2 + idf * value tf scored.1 avgdl))
      (fun uid tf => (v.postings.docLen uid).map (fun len => (len, idf * value tf len avgdl)))
      acc (v.postings.postings term)

/-- Every candidate with its length and its score, in order of the uids. -/
def candidates (v : Bm25View) (terms : List String) (avgdl : Float32) :
    List (Uid × UInt32 × Float32) :=
  terms.foldl (v.scoreTerm avgdl) []

/-- What each term of the query contributed to a document's score. -/
def contributions (v : Bm25View) (uid : Uid) (len : UInt32) (avgdl : Float32)
    (terms : List String) : List (String × Float32) :=
  let counts : BTreeMap String UInt32 :=
    terms.foldl (fun m t => m.insert t ((m.get t).getD 0 + 1)) ∅
  let out := counts.entries.filterMap (fun e =>
    let one := v.idf (v.postings.df e.1) * value (v.postings.tf e.1 uid) len avgdl
    let c := one * e.2.toFloat32
    if 0 < c then some (e.1, c) else none)
  out.mergeSort (fun a b =>
    (scoreOrder a.2 b.2).then (compare a.1 b.1) != .gt)

section
variable [Unicode]

/-- Whether a unit passes the filters, as the store holds it. -/
def admits (v : Bm25View) (q : Query) (uid : Uid) : Bool :=
  match v.store.units.get uid with
  | none => false
  | some unit =>
    if !q.admitsSchema uid unit.core.schema unit.core.status then false
    else
      match q.payload with
      | none => true
      | some f => f.admits ((unit.core.payload.map payloadStrings).getD ∅)

def search (v : Bm25View) (q : Query) : List Hit :=
  if q.limit == 0 then []
  else
    let terms := v.analyzer.terms q.text
    let avgdl := v.postings.avgdl
    let hits := ((v.candidates terms avgdl).filter (fun c =>
      decide (0 < c.2.2) && (!q.filtersAnything || v.admits q c.1))).map (fun c =>
        ({ uid := c.1, score := c.2.2 } : Hit))
    let kept := (hits.mergeSort (fun a b =>
      (scoreOrder a.score b.score).then (compare a.uid b.uid) != .gt)).take q.limit
    kept.map (fun hit =>
      match v.postings.docLen hit.uid with
      | some len => { hit with terms := v.contributions hit.uid len avgdl terms }
      | none => hit)

end
end Bm25View
end Smysl
