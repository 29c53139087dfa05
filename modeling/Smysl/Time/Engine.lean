import Smysl.Graph.Commitments
import Smysl.Time.Constraints
import Smysl.Time.Network

/-!
Rule E: effective time, stratified by how well each value is evidenced. The
datings that are live are resolved to subjects, the subjects anything bears on are
seeded and offset, and one network is solved per status level.
-/
namespace Smysl
open Stn (Network Solution)

/-- What set a bound. -/
inductive Cause
  | asRecorded
  | dating (did : Did)
  | offset (did : Did)
  | free (kind : FreeKind)
  deriving DecidableEq

structure Why where
  cause : Cause
  through : Option Subject
  at_ : TimeStatus
  deriving DecidableEq

/-- A subject's effective time on one axis. -/
structure Dated where
  interval : TimeInterval
  loStatus : TimeStatus
  hiStatus : TimeStatus
  whyLo : Option Why
  whyHi : Option Why
  contested : Bool
  deriving DecidableEq

/-- A contention rule E derived. -/
structure TimeContention where
  id : ContentionId
  kind : DetectionKind
  over_ : Subject
  datings : List Did
  free : List FreeKind
  deriving DecidableEq

/-- Why a dating's target named no subject. -/
inductive Unresolved
  | targetMissing
  | selectedNothing
  deriving DecidableEq, Repr

namespace Unresolved

def rank : Unresolved → Nat
  | targetMissing => 0
  | selectedNothing => 1

theorem rank_injective : Function.Injective rank := by
  intro a b same
  cases a <;> cases b <;> first | rfl | cases same

instance : LinearOrder Unresolved := LinearOrder.lift' rank rank_injective

end Unresolved

/-- Effective time over a store, for one axis. -/
structure Effective where
  axisSaid : Bool := false
  dated : BTreeMap Subject Dated := ∅
  notApplied : List TimeContention := []
  inconsistent : List TimeContention := []
  held : List Did := []
  notLive : List Did := []
  inexactScopes : Nat := 0
  unresolved : List (Did ×ₗ Unresolved) := []
  deriving DecidableEq

/-- A dating with everything the engine needs to place it. -/
structure Live where
  did : Did
  dating : Dating
  status : TimeStatus
  scope : List Subject
  deriving DecidableEq

/-- The 32 bytes of an identity, where a uid goes. -/
def asUid {kind : DigestKind} (d : Digest kind) : Uid := ⟨d.raw⟩

def Subject.asUid : Subject → Uid
  | unit uid => uid
  | manifest mid => Smysl.asUid mid

/-- `sort_unstable` and `dedup`, of values that are equal when neither is less. -/
def sortedOnce {α : Type} [LinearOrder α] (as : List α) : List α := (BTreeSet.ofList as).toList

section
variable [Blake3]

def deriveId (kind : DetectionKind) (over_ : Subject) (datings : List Did) : ContentionId :=
  ContentionId.derive kind over_.asUid (datings.map asUid)

def oneDatingContention (over_ : Subject) (did : Did) (kind : DetectionKind) : TimeContention :=
  ⟨deriveId kind over_ [did], kind, over_, [did], []⟩

def Free.touches (f : Free) (over_ : Subject) : Bool :=
  match f with
  | .order _ earlier later _ => earlier == over_ || later == over_
  | .noLater _ subject _ _ => subject == over_

/-- The contention for an inconsistency: what of this stratum touches the subject. -/
def timeContention (kind : DetectionKind) (over_ : Subject) (live : List Live) (frees : List Free)
    (stratum : TimeStatus) : TimeContention :=
  let datings := sortedOnce ((live.filter (fun l =>
    decide (stratum ≤ l.status) && l.scope.contains over_)).map Live.did)
  let kinds := sortedOnce ((frees.filter (fun f =>
    decide (stratum ≤ f.status) && f.touches over_)).map Free.kind)
  ⟨deriveId kind over_ datings, kind, over_, datings, kinds⟩

/-! Which datings are live. -/

/-- The contention a hold on a dating derives, over the dating's target. -/
def holdContention (did : Did) (dating : Dating) : ContentionId :=
  let over_ : Uid := match dating.target with
    | .unit u => u
    | .part t => asUid t
    | .manifest m => asUid m
    | .window t _ _ => asUid t
  ContentionId.derive .datingNotApplied over_ [asUid did]

def resolvedHold (c : Corpus) (did : Did) (dating : Dating) : Bool :=
  c.read.interp.resolutions.toList.any (fun r =>
    r.target == .contention (holdContention did dating))

/-- Whether a `canonical` commitment is holding this dating for review: on its own did, or on
that of another dating of its target and axis that says something else. -/
def heldByLock (c : Corpus) (did : Did) (dating : Dating) : Bool :=
  if c.read.interp.commitmentOf (asUid did) = some .canonical then !resolvedHold c did dating
  else
    c.library.datings.entries.any (fun e =>
      !(e.1 == did || e.2.target != dating.target || e.2.axis != dating.axis) &&
        decide (c.read.interp.commitmentOf (asUid e.1) = some .canonical) &&
        !(e.2.value == dating.value) && !resolvedHold c did dating)

end

/-- Whether another manifest lists one of this one's parts. -/
def sharesAPart (c : Corpus) (mid : Mid) (m : Manifest) : Bool :=
  c.library.manifests.entries.any (fun e => e.1 != mid &&
    e.2.parts.any (fun p => m.parts.any (fun q => q.tid == p.tid)))

/-- The units a target names, and how many scopes it resolved inexactly. -/
def selected (c : Corpus) : DatingTarget → List Uid × Nat
  | .unit u => ([u], 0)
  | .part t => (c.library.unitsWithTid t, 0)
  | .manifest m =>
    match c.library.manifests.get m with
    | none => ([], 0)
    | some manifest =>
      (manifest.parts.flatMap (fun p => c.library.unitsWithTid p.tid),
        if sharesAPart c m manifest then 1 else 0)
  | .window t fromMs toMs =>
    -- The as-recorded instant, never the effective one.
    ((c.library.unitsWithTid t).filter (fun u =>
      (((c.coreOf u).bind UnitCore.source).bind SourceRef.observed).any (fun ms =>
        fromMs ≤ ms && ms < toMs)), 0)

/-- The subjects a target names. -/
def resolveTarget (c : Corpus) (target : DatingTarget) : List Subject :=
  sortedOnce ((selected c target).1.map Subject.unit)

def whyUnresolved (c : Corpus) (target : DatingTarget) : Unresolved :=
  let listed := fun t => c.library.manifests.values.any (fun m => m.parts.any (fun p => p.tid == t))
  let present := match target with
    | .unit u => c.read.containsUid u
    | .manifest m => c.library.manifests.contains m
    | .part t => listed t
    | .window t _ _ => listed t
  if present then .selectedNothing else .targetMissing

section
variable [Blake3]

/-- One dating: live, or counted for what it is. -/
def enlist (c : Corpus) (axis : Axis) (st : List Live × Effective) (e : Did × Dating) :
    List Live × Effective :=
  let (live, out) := st
  let (did, dating) := e
  if dating.axis ≠ axis then (live, out)
  else if c.withdrawals.any (fun w => w.relation == asUid did) then
    (live, { out with notLive := out.notLive ++ [did] })
  else if dating.basis.any c.isUnfounded then (live, { out with notLive := out.notLive ++ [did] })
  else if heldByLock c did dating then (live, { out with held := out.held ++ [did] })
  else
    let scope := resolveTarget c dating.target
    let out := { out with inexactScopes := out.inexactScopes + (selected c dating.target).2 }
    if scope.isEmpty then
      (live, { out with
        unresolved := out.unresolved ++ [toLex (did, whyUnresolved c dating.target)] })
    else
      let status := ((dating.basis.bind c.coreOf).map (fun u => ofStatus u.status)).getD
        .speculative
      (live ++ [⟨did, dating, status, scope⟩], out)

/-- Every live dating on this axis, and the ones that are not and why. -/
def liveDatings (c : Corpus) (axis : Axis) (out : Effective) : List Live × Effective :=
  c.library.datings.entries.foldl (enlist c axis) ([], out)

end

/-! Seeds. -/

def Dated.unevidenced (status : TimeStatus) : Dated :=
  ⟨.undated, status, status, none, none, false⟩

/-- An interval as its subject's own record gives it. -/
def Dated.recorded (interval : TimeInterval) (status : TimeStatus) : Dated :=
  ⟨interval, status, status, some ⟨.asRecorded, none, status⟩, some ⟨.asRecorded, none, status⟩,
    false⟩

/-- An instrument put an instant there: `imported` at rung `computed`. -/
def measuredBy (a : Attestation) : Bool := a.op == .imported && a.rung == .computed

/-- One subject's as-recorded interval on an axis, before any dating or constraint. -/
def seed (c : Corpus) (s : Subject) (axis : Axis) : Dated :=
  -- Only the said axis has an as-recorded value.
  if axis ≠ .said then .unevidenced .speculative
  else
    match s with
    | .unit uid =>
      match (c.coreOf uid).bind UnitCore.source with
      | none => .unevidenced .speculative
      | some source =>
        match source.published.bind Edtf.valueOf with
        | some v => .recorded (Edtf.toInterval v) .cited
        | none =>
          match source.observed.filter (fun ms => decide ((ms.toNat : Int) ≤ maxInstant)) with
          | none => .unevidenced .speculative
          | some ms =>
            let measured := (c.attestationsOf uid).any measuredBy
            .recorded (.at_ ms.toNat) (if measured then .measured else .cited)
    | .manifest mid =>
      match c.library.manifests.get mid with
      | none => .unevidenced .speculative
      | some m =>
        match m.published.bind Edtf.valueOf with
        | none => .unevidenced .speculative
        | some v => .recorded (Edtf.toIntervalIn v m.calendar) .cited

/-! Offsets. -/

/-- The offsets over each subject, in the order of the datings. -/
def offsetsOf (live : List Live) (s : Subject) : List (Live × Int) :=
  live.filterMap (fun l =>
    match l.dating.value with
    | .offset ms => if l.scope.contains s then some (l, ms.toInt) else none
    | _ => none)

/-- The subjects some offset is over, in order. -/
def offsetSubjects (live : List Live) : List Subject :=
  sortedOnce (live.flatMap (fun l =>
    match l.dating.value with
    | .offset _ => l.scope
    | _ => []))

/-- What the offsets over one subject make of its seed, and what is reported. -/
structure Shifted where
  dated : Dated
  notApplied : List TimeContention := []
  inconsistent : List TimeContention := []

section
variable [Blake3]

/-- The offsets over one subject, applied to its as-recorded interval. Two that disagree are
an inconsistency before their statuses are looked at, and where they agree the first is the
one that counts. -/
def applyOffset (c : Corpus) (axis : Axis) (s : Subject) (offsets : List (Live × Int))
    (d : Dated) : Shifted :=
  match offsets with
  | [] => { dated := d }
  | (l, ms) :: rest =>
    if rest.any (fun o => o.2 != ms) then
      let datings := sortedOnce (offsets.map (fun o => o.1.did))
      { dated := { d with contested := true }
        inconsistent := [⟨deriveId .temporalInconsistency s datings, .temporalInconsistency, s,
          datings, []⟩] }
    else
      let base := seed c s axis
      if base.interval.isUndated || decide (l.status < base.loStatus) ||
          decide (l.status < base.hiStatus) then
        { dated := d, notApplied := [oneDatingContention s l.did .datingNotApplied] }
      else
        let at_ := min l.status base.loStatus
        { dated := ⟨base.interval.shift ms, at_, at_, some ⟨.offset l.did, none, at_⟩,
            some ⟨.offset l.did, none, at_⟩, false⟩ }

/-- The state and what is reported, with the offsets over `s` applied. -/
def offsetOne (c : Corpus) (axis : Axis) (live : List Live) (subjects : List Subject)
    (st : List Dated × Effective) (s : Subject) : List Dated × Effective :=
  match subjects.findIdx? (fun t => t == s) with
  | none => st
  | some i =>
    match st.1[i]? with
    | none => st
    | some d =>
      let shifted := applyOffset c axis s (offsetsOf live s) d
      (st.1.set i shifted.dated,
        { st.2 with
          notApplied := st.2.notApplied ++ shifted.notApplied
          inconsistent := st.2.inconsistent ++ shifted.inconsistent })

def applyOffsets (c : Corpus) (axis : Axis) (live : List Live) (subjects : List Subject)
    (state : List Dated) (out : Effective) : List Dated × Effective :=
  (offsetSubjects live).foldl (offsetOne c axis live subjects) (state, out)

end

/-! One stratum's network. -/

/-- The last instant a half-open end admits. -/
def lastOf (end_ : Instant) : Int := max minInstant (end_ - 1)

/-- A network in the making, and the cause of each constraint. -/
structure Stratum where
  net : Network
  causes : List (Cause × Option Subject) := []

namespace Stratum

def pushCause (st : Stratum) (cause : Cause) (through : Option Subject) : Stratum × Nat :=
  ({ st with causes := st.causes ++ [(cause, through)] }, st.causes.length)

def lower (st : Stratum) (i : Nat) (b : TimeBound) (by_ : Nat) : Stratum :=
  match b with
  | .at_ a => { st with net := st.net.lower i a by_ }
  | .unbounded => st

/-- An upper bound at an instant itself. -/
def upperAt (st : Stratum) (i : Nat) (b : TimeBound) (by_ : Nat) : Stratum :=
  match b with
  | .at_ a => { st with net := st.net.upper i a by_ }
  | .unbounded => st

/-- An upper bound at the last instant before an end. -/
def upper (st : Stratum) (i : Nat) (b : TimeBound) (by_ : Nat) : Stratum :=
  match b with
  | .at_ a => { st with net := st.net.upper i (lastOf a) by_ }
  | .unbounded => st

/-- A lower bound at the last instant before an end. -/
def lowerLast (st : Stratum) (i : Nat) (b : TimeBound) (by_ : Nat) : Stratum :=
  match b with
  | .at_ a => { st with net := st.net.lower i (lastOf a) by_ }
  | .unbounded => st

def noLater (st : Stratum) (a b : Nat) (by_ : Nat) : Stratum :=
  { st with net := st.net.noLater a b 0 by_ }

def same (st : Stratum) (a b : Nat) (by_ : Nat) : Stratum :=
  { st with net := st.net.same a b by_ }

end Stratum

def indexOf (subjects : List Subject) (s : Subject) : Option Nat :=
  subjects.findIdx? (fun t => t == s)

/-- What a relative dating's second target is: one variable, or a static extent. -/
structure Other where
  variable_ : Option Nat
  subject : Option Subject
  extent : TimeInterval

def relativeTarget (subjects : List Subject) (state : List Dated) : DatingTarget → Other
  | .unit u =>
    let s := Subject.unit u
    let i := indexOf subjects s
    ⟨i, some s, ((i.bind (fun i => state[i]?)).map Dated.interval).getD .undated⟩
  | .window _ fromMs toMs =>
    ⟨none, none, .of (min fromMs.toNat maxInstant) (min toMs.toNat maxInstant)⟩
  | .part _ | .manifest _ => ⟨none, none, .undated⟩

/-- What a relation to the other end asks of one subject. Against another subject it is an
edge; against a scope, a bound. -/
def relate (st : Stratum) (allen : Allen) (other : Other) (i by_ : Nat) : Stratum :=
  match allen, other.variable_ with
  | .before, some j => st.noLater i j by_
  | .after, some j => st.noLater j i by_
  | _, some j => st.same i j by_
  | .before, none => st.upperAt i other.extent.lo by_
  | .after, none => st.lowerLast i other.extent.hi by_
  | .meets, none => (st.lower i other.extent.lo by_).upperAt i other.extent.lo by_
  | _, none => (st.lower i other.extent.lo by_).upper i other.extent.hi by_

/-- Add a dating's constraints to a stratum. An offset is in the seed already. -/
def addDating (subjects : List Subject) (state : List Dated) (st : Stratum) (l : Live) :
    Stratum :=
  match l.dating.value with
  | .offset _ => st
  | .absolute text =>
    match Edtf.valueOf text with
    | none => st
    | some v =>
      let extent := Edtf.toInterval v
      let (st, by_) := st.pushCause (.dating l.did) none
      l.scope.foldl (fun st s =>
        match indexOf subjects s with
        | none => st
        | some i => (st.lower i extent.lo by_).upper i extent.hi by_) st
  | .relative allen target =>
    let other := relativeTarget subjects state target
    l.scope.foldl (fun st s =>
      match indexOf subjects s with
      | none => st
      | some i =>
        let (st, by_) := st.pushCause (.dating l.did) other.subject
        relate st allen other i by_) st

def addFree (subjects : List Subject) (st : Stratum) : Free → Stratum
  | .order kind earlier later _ =>
    match indexOf subjects earlier, indexOf subjects later with
    | some a, some b =>
      let (st, by_) := st.pushCause (.free kind) (some later)
      st.noLater a b by_
    | _, _ => st
  | .noLater kind subject than _ =>
    match indexOf subjects subject with
    | none => st
    | some i =>
      let (st, by_) := st.pushCause (.free kind) none
      st.upper i (.at_ than) by_

/-- The current bounds, then the datings and free constraints of this status or better. -/
def buildStratum (subjects : List Subject) (state : List Dated) (live : List Live)
    (frees : List Free) (s : TimeStatus) : Stratum :=
  let (st, current) := Stratum.pushCause { net := ⟨subjects.length, []⟩ } .asRecorded none
  let st := (state.zipIdx).foldl (fun st (d, i) =>
    (st.lower i d.interval.lo current).upper i d.interval.hi current) st
  let st := (live.filter (fun l => decide (s ≤ l.status))).foldl (addDating subjects state) st
  (frees.filter (fun f => decide (s ≤ f.status))).foldl (addFree subjects) st

/-! What a stratum's solution changes. -/

/-- A subject's state, and what has been reported about it in this stratum. -/
structure Move where
  dated : Dated
  notApplied : List TimeContention := []
  inconsistent : List TimeContention := []

section
variable [Blake3]

/-- What is reported of a bound a stratum would move and may not. -/
def refused (s : Subject) (why : Option (Cause × Option Subject)) : List TimeContention :=
  match why with
  | some (.dating did, _) => [oneDatingContention s did .datingNotApplied]
  | some (.offset did, _) => [oneDatingContention s did .datingNotApplied]
  | _ => []

def whyOf (why : Option (Cause × Option Subject)) (at_ : TimeStatus) : Option Why :=
  why.map (fun w => ⟨w.1, w.2, at_⟩)

def moveLower (subject : Subject) (s : TimeStatus) (lo : Option Int)
    (why : Option (Cause × Option Subject)) (m : Move) : Move :=
  match lo with
  | none => m
  | some lo =>
    let tighter := match m.dated.interval.lo with
      | .unbounded => true
      | .at_ a => decide (a < lo)
    if tighter = false then m
    else if m.dated.loStatus ≤ s then
      { m with dated := { m.dated with
          interval := { m.dated.interval with lo := .at_ lo }
          loStatus := s
          whyLo := whyOf why s } }
    else { m with notApplied := m.notApplied ++ refused subject why }

def moveUpper (subject : Subject) (s : TimeStatus) (hi : Option Int)
    (why : Option (Cause × Option Subject)) (m : Move) : Move :=
  match hi with
  | none => m
  | some last =>
    -- From the last instant, back to the half-open end.
    let hi := saturatingAdd last 1
    let tighter := match m.dated.interval.hi with
      | .unbounded => true
      | .at_ a => decide (hi < a)
    if tighter = false then m
    else if m.dated.hiStatus ≤ s then
      { m with dated := { m.dated with
          interval := { m.dated.interval with hi := .at_ hi }
          hiStatus := s
          whyHi := whyOf why s } }
    else { m with notApplied := m.notApplied ++ refused subject why }

/-- Apply what a stratum justifies to one subject, and report what it does not. -/
def settleSubject (live : List Live) (frees : List Free) (s : TimeStatus)
    (causes : List (Cause × Option Subject)) (sol : Solution) (subject : Subject) (i : Nat)
    (d : Dated) : Move :=
  if d.contested then { dated := d }
  else
    let blame := fun (by_ : List (Option Nat)) => ((by_[i]?).join).bind (fun b => causes[b]?)
    let m := moveLower subject s ((sol.lower[i]?).join) (blame sol.lowerBy) { dated := d }
    let m := moveUpper subject s ((sol.upper[i]?).join) (blame sol.upperBy) m
    if m.dated.interval.isEmpty then
      { m with
        dated := { m.dated with contested := true }
        inconsistent := m.inconsistent ++
          [timeContention .temporalInconsistency subject live frees s] }
    else m

/-- A subject on a negative cycle has nothing chosen for it. -/
def contest (live : List Live) (frees : List Free) (s : TimeStatus) (subjects : List Subject)
    (st : List Dated × Effective) (v : Nat) : List Dated × Effective :=
  match st.1[v]?, subjects[v]? with
  | some d, some subject =>
    if d.contested then st
    else
      (st.1.set v { d with contested := true },
        { st.2 with inconsistent := st.2.inconsistent ++
            [timeContention .temporalInconsistency subject live frees s] })
  | _, _ => st

/-- One stratum: solve, contest, settle. -/
def tighten (live : List Live) (frees : List Free) (subjects : List Subject)
    (st : List Dated × Effective) (s : TimeStatus) : List Dated × Effective :=
  let built := buildStratum subjects st.1 live frees s
  let sol := built.net.solve saturatingAdd
  let (state, out) := sol.inconsistent.foldl (contest live frees s subjects) st
  let moves := ((subjects.zip state).zipIdx).map (fun e =>
    settleSubject live frees s built.causes sol e.1.1 e.2 e.1.2)
  (moves.map Move.dated,
    { out with
      notApplied := out.notApplied ++ moves.flatMap Move.notApplied
      inconsistent := out.inconsistent ++ moves.flatMap Move.inconsistent })

/-! Solving. -/

/-- In order of their ids, each once. -/
def contentionsById (cs : List TimeContention) : List TimeContention :=
  dedupBy (fun a b => a.id == b.id) (cs.mergeSort (fun a b => a.id ≤ b.id))

def Effective.sortCounts (out : Effective) : Effective :=
  { out with
    held := sortedOnce out.held
    notLive := sortedOnce out.notLive
    unresolved := sortedOnce out.unresolved }

/-- The subjects a live dating or a free constraint names. -/
def touched (live : List Live) (frees : List Free) : List Subject :=
  live.flatMap (fun l => l.scope ++
    match l.dating.value with
    | .relative _ (.unit u) => [.unit u]
    | _ => []) ++
  frees.flatMap (fun f =>
    match f with
    | .order _ earlier later _ => [earlier, later]
    | .noLater _ subject _ _ => [subject])

/-- Every unit and every manifest of the store. -/
def Corpus.subjects (c : Corpus) : List Subject :=
  c.read.units.keys.map .unit ++ c.library.manifests.keys.map .manifest

/-- One subject nothing bears on: its seed is its answer, unless the seed is empty. -/
def streamOne (c : Corpus) (axis : Axis) (every : Bool)
    (st : BTreeSet Subject × BTreeMap Subject Dated) (s : Subject) :
    BTreeSet Subject × BTreeMap Subject Dated :=
  if st.1.contains s then st
  else if axis ≠ .said ∧ every = false then st
  else
    let d := seed c s axis
    if d.interval.isEmpty then (st.1.insert s, st.2)
    else if every then (st.1, st.2.insert s d)
    else st

/-- The network over `subjects`, one stratum after another. -/
def solveNetwork (c : Corpus) (axis : Axis) (live : List Live) (frees : List Free)
    (subjects : List Subject) (out : Effective) : Effective :=
  if subjects.isEmpty then out.sortCounts
  else
    let state := subjects.map (fun s => seed c s axis)
    let offset := applyOffsets c axis live subjects state out
    let (state, out) := TimeStatus.strata.foldl (tighten live frees subjects) offset
    { out.sortCounts with
      notApplied := contentionsById out.notApplied
      inconsistent := contentionsById out.inconsistent
      dated := (subjects.zip state).foldl (fun m e => m.insert e.1 e.2) out.dated }

/-- Rule E over the subjects anything bears on; `every` fills in the rest from their seeds, and
`among`, when given, is the only subjects whose seeds can be empty. -/
def solveTime (c : Corpus) (axis : Axis) (among : Option (BTreeSet Subject)) (every : Bool) :
    Effective :=
  let (live, out) := liveDatings c axis { axisSaid := axis = .said }
  let frees := free c
  let involved := BTreeSet.ofList ((touched live frees).filter c.holds)
  let others := match among with
    | some candidates => candidates.toList.filter c.holds
    | none => c.subjects
  let (involved, seeds) := others.foldl (streamOne c axis every) (involved, ∅)
  solveNetwork c axis live frees involved.toList { out with dated := seeds }

/-- Effective time for one axis. -/
def effective (c : Corpus) (axis : Axis) : Effective := solveTime c axis none true

/-- What rule E finds, without the times of the subjects nothing bears on. -/
def findings (c : Corpus) (axis : Axis) : Effective := solveTime c axis none false

/-- The findings, told which subjects' seeds can be empty. -/
def findingsAmong (c : Corpus) (axis : Axis) (maybeEmpty : BTreeSet Subject) : Effective :=
  solveTime c axis (some maybeEmpty) false

end

/-- Whether rule E has nothing to do on this axis. -/
def quiescent (c : Corpus) (axis : Axis) : Bool :=
  if !c.library.datings.isEmpty || !(free c).isEmpty then false
  else if axis ≠ .said then true
  else c.subjects.all (fun s => !(seed c s axis).interval.isEmpty)

end Smysl
