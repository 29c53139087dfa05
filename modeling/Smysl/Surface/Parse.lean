import Smysl.Lib.Attempt
import Smysl.Surface.Fields
import Smysl.Surface.Lex

/-!
The record loop of the surface parser, and the parser of each kind of record. A record
that is refused gives up after it has moved the cursor to the next line that starts one;
a slice that cannot be cut, and a date text that cannot be, leave the parser stuck.
-/
namespace Smysl
open ByteString Utf8 Attempt

/-- The line the parser is at, and what it has counted. -/
structure Scan where
  i : Nat
  recovered : Nat
  comments : Nat

/-- An opening brace, as a text to look for. -/
def brace : List Char := [Char.ofNat 0x7B]

/-- `strip_prefix(word).unwrap_or("").trim_start()`. -/
def afterWord (word : String) (text : List Char) : List Char :=
  if word.toList.isPrefixOf text then Hjson.trimStart (text.drop word.toList.length) else []

/-! The cursor. -/

section
variable (lines : List Line)

/-- Where the next line after `i` that starts a record is. -/
def nextRecord (i : Nat) : Nat :=
  i + 1 + ((lines.drop (i + 1)).takeWhile (fun l => !l.kind.startsRecord)).length

def recover : Attempt Scan Unit :=
  update fun s => { s with i := nextRecord lines s.i, recovered := s.recovered + 1 }

/-- Skip to the next record, and give up. -/
def refuse {α : Type} : Attempt Scan α := do
  recover lines
  failed

/-- A value, or skipping to the next record. -/
def orRefuse {α : Type} (o : Option α) : Attempt Scan α :=
  match o with
  | some a => pure a
  | none => refuse lines

/-- What is read of a line, or skipping to the next record. -/
def readOr {α : Type} (o : Option (Option α)) : Attempt Scan α := do
  let read ← taken o
  orRefuse lines read

/-- The first line from `i` that starts after a byte. -/
def linePast (stop i : Nat) : Nat :=
  i + ((lines.drop i).takeWhile (fun l => decide (l.start < stop))).length

def advancePast (stop : Nat) : Attempt Scan Unit :=
  update fun s => { s with i := linePast lines stop s.i }

def forward (n : Nat) : Attempt Scan Unit := update fun s => { s with i := s.i + n }

end

/-! What follows a header on lines of its own. -/

/-- The lines that go on with a gist. -/
def continuation (rest : List Line) : List Line :=
  rest.takeWhile (fun l => decide (l.kind = .text) && "  ".toList.isPrefixOf l.text)

/-- A gist with the lines that go on with it. -/
def joinedGist (l : Line) (more : List Line) : List Char :=
  Hjson.trim (l.gistText ++ more.flatMap (fun m => ' ' :: Hjson.trim m.text))

/-- `unescape_body_line`. -/
def unescapeBodyLine (line : List Char) : List Char :=
  match line with
  | '\\' :: rest =>
    if rest.head? = some '#' ∨ "//".toList.isPrefixOf rest ∨ rest.head? = some '\\' then rest
    else line
  | _ => line

/-- The lines of a block, and how many lines and comments are passed. -/
def blockLines (through : Bool) : List Line → List (List Char) × Nat × Nat
  | [] => ([], 0, 0)
  | l :: rest =>
    if l.kind.startsRecord || (decide (l.kind = .separator) && !through) ||
        decide (l.kind = .gist) then ([], 0, 0)
    else
      let (kept, passed, comments) := blockLines through rest
      if l.kind = .comment then (kept, passed + 1, comments + 1)
      else (unescapeBodyLine l.text :: kept, passed + 1, comments)

/-- The text of a block, without blank lines at its ends. -/
def blockText (kept : List (List Char)) : Option String :=
  let blank (l : List Char) : Bool := l.all isWhitespace
  let filled := ((kept.dropWhile blank).reverse.dropWhile blank).reverse
  if filled.isEmpty then none else some (String.ofList (List.intercalate ['\n'] filled))

section
variable (lines : List Line)

def block (through : Bool) : Attempt Scan (Option String) := do
  let s ← current
  let (kept, passed, comments) := blockLines through (lines.drop s.i)
  update fun s => { s with i := s.i + passed, comments := s.comments + comments }
  pure (blockText kept)

/-- `gist_body_detail`. -/
def gistBodyDetail (stop : Nat) : Attempt Scan (String × Option String × Option String) := do
  advancePast lines stop
  let s ← current
  let l ← given lines[s.i]?
  if l.kind ≠ .gist then failed
  else do
    let more := continuation (lines.drop (s.i + 1))
    forward (1 + more.length)
    let gist := joinedGist l more
    if gist.isEmpty then failed
    else do
      let body ← block lines false
      let s ← current
      let separated := decide ((lines[s.i]?).map Line.kind = some .separator)
      let detail ← if separated then do
          forward 1
          block lines true
        else pure none
      pure (String.ofList gist, body, detail)

end

section
variable (src : List Char)

/-- The header that follows a record's opening word, and the byte it ends at. An absent one
is an empty object. -/
def headerObject (l : Line) : Option (Option (Header × Nat)) :=
  match find brace l.text with
  | none => some (some ([], l.stop))
  | some rel =>
    (sliceFrom (l.start + rel) src).bind fun rest =>
      match Hjson.parseObjectPrefix rest with
      | .ok (obj, _, stop) =>
        some (some (obj.map (fun e => (⟨e.1.text, e.1.start + (l.start + rel)⟩, e.2)),
          l.start + rel + stop))
      | .error (.refused _) => some none
      | .error .stuck => none

/-- What stands between a record's opening word and its header. -/
def targetText (word : String) (l : Line) : Option (Option (List Char)) :=
  let rest := afterWord word l.text
  match find brace rest with
  | none => some none
  | some p => (sliceTo p rest).map fun text => some (Hjson.trim text)

/-- The text of a record's first line before its header. -/
def headText (l : Line) : Option (List Char) :=
  let stop := match find brace l.text with
    | some p => l.start + p
    | none => l.stop
  slice l.start stop src

end

/-! Edges. -/

def relKindOf (text : List Char) : RelKind :=
  (RelKind.parse (String.ofList text)).getD (.extension (String.ofList text))

/-- `from --kind--> to`, in its parts. -/
def edgeParts (text : List Char) (dashes : Nat) :
    Option (Option (List Char × List Char × List Char)) := do
  let after ← sliceFrom (dashes + 2) text
  match find "-->".toList after with
  | none => some none
  | some close => do
    let kind ← sliceTo close after
    let src ← sliceTo dashes text
    let dst ← sliceFrom (close + 3) after
    some (some (Hjson.trim kind, Hjson.trim src, dst))

/-- What `@withdraw` or `@resolve` names. -/
def lifecycleTarget (withdraw : Bool) (text : List Char) : Option (Option RawTarget) :=
  let whole := String.ofList text
  match find "--".toList text with
  | some dashes =>
    (edgeParts text dashes).map fun parts => do
      let (kind, src, dst) ← parts
      let src ← parseRef (String.ofList src)
      let dst ← parseRef (String.ofList (Hjson.trim dst))
      some (.edge (relKindOf kind) src dst)
  | none =>
    if (stripPrefix "b3:" (utf8 whole)).isSome then some ((Digest.parse whole).map .rid)
    else if withdraw && (stripPrefix "d3:" (utf8 whole)).isSome then
      some ((Digest.parse whole : Option Did).map fun d => .rid d.asUid)
    else if withdraw then some none
    else some ((Name.new whole).map .contention)

/-- A unit's reference, or a dating's. -/
def commitTarget (text : List Char) : Option Ref :=
  let whole := String.ofList text
  if (stripPrefix "d3:" (utf8 whole)).isSome then
    (Digest.parse whole : Option Did).map fun d => .uid d.asUid
  else parseRef whole

/-! The records. -/

section
variable [Unicode] (src : List Char) (lines : List Line)

/-- What a record's first line names, its header, and the byte that ends at. -/
def recordLine {τ : Type} (word : String) (target : List Char → Option (Option τ)) (l : Line) :
    Option (Option (τ × Header × Nat)) := do
  match ← targetText word l with
  | none => some none
  | some text =>
    match ← target text with
    | none => some none
    | some target =>
      (headerObject src l).map fun read => read.map fun (header, stop) => (target, header, stop)

/-- A record up to its header, which is passed. -/
def recordHead {τ : Type} (word : String) (target : List Char → Option (Option τ)) (l : Line) :
    Attempt Scan (τ × Header) := do
  let (target, header, stop) ← readOr lines (recordLine src word target l)
  advancePast lines (max stop l.stop)
  pure (target, header)

def commitRecord (l : Line) : Attempt Scan RawCommit := do
  let (target, header) ← recordHead src lines "@commit" (fun text => some (commitTarget text)) l
  given (commitOf target header)

def lifecycleRecord (withdraw : Bool) (l : Line) : Attempt Scan RawLifecycle := do
  let word := if withdraw then "@withdraw" else "@resolve"
  let (target, header) ← recordHead src lines word (lifecycleTarget withdraw) l
  given (lifecycleOf withdraw target header)

def redactRecord (l : Line) : Attempt Scan RawRedaction := do
  let (tid, header) ← recordHead src lines "@redact"
    (fun text => some (Digest.parse (String.ofList text))) l
  given (redactionOf tid header)

def schemaDecl (l : Line) : Attempt Scan SchemaDecl := do
  let word := (afterWord "@schema" l.text).takeWhile (fun c => !wordEnds c)
  let id ← orRefuse lines (SchemaId.parse (String.ofList word))
  let (header, stop) ← readOr lines (headerObject src l)
  advancePast lines (max stop l.stop)
  given (schemaOf id header)

/-- What a dating's first line names. -/
def dateTarget (text : List Char) : Option (Option DateTarget) :=
  some (targetOf (String.ofList text))

/-- A value that is another thing's time. A target that is refused skips to a record. -/
def allenValue : List Allen → Header → Option RawValue → Attempt Scan (RawValue × Header)
  | [], h, found => do
    let value ← given found
    pure (value, h)
  | allen :: rest, h, found =>
    match h.take allen.asStr with
    | (none, _) => allenValue rest h found
    | (some v, h) => do
      if found.isSome then failed
      else do
        let text ← given v.asStr
        let target ← orRefuse lines (targetOf text)
        allenValue rest h (some (.relative allen target))

/-- `date_value`: the one value key of a dating. -/
def dateValue (h : Header) : Attempt Scan (RawValue × Header) := do
  let (when_, h) := h.take "when"
  let absolute ← match when_ with
    | none => pure none
    | some v => do
      let text ← given (dateText v)
      let accepted ← taken (acceptDate text)
      let text ← given accepted
      pure (some (RawValue.absolute text))
  let (offset, h) := h.take "offset"
  let found ← match offset with
    | none => pure absolute
    | some v =>
      if absolute.isSome then failed
      else do
        let ms ← given v.asInt
        pure (some (RawValue.offset ms))
  allenValue lines Allen.all h found

def dateRecord (l : Line) : Attempt Scan RawDating := do
  let (target, header) ← recordHead src lines "@date" dateTarget l
  let (axis, target, header) ← given (datingHead target header)
  let (value, header) ← dateValue lines header
  given (datingOf target axis value header)

/-- What a manifest's first line names. -/
def manifestAlias (text : List Char) : Option (Option String) :=
  some (if isAlias (String.ofList text) then some (String.ofList text) else none)

def manifestRecord (l : Line) : Attempt Scan Manifest := do
  let (aliasName, header) ← recordHead src lines "@manifest" manifestAlias l
  let manifest ← taken (manifestOf aliasName header)
  given manifest

/-- A unit's type and label, from its first line. -/
def unitName (l : Line) : Option (Option (SchemaId × Option Label)) := do
  let after ← sliceFrom 1 l.text
  match SchemaId.parseForward (String.ofList ((splitWhitespace after).headD [])) with
  | none => some none
  | some schema => do
    let head ← headText src l
    match (splitWhitespace head)[1]? with
    | none => some (some (schema, none))
    | some w => some ((Name.new (String.ofList w)).map fun label => (schema, some label))

/-- What a unit's header says before its source. -/
structure UnitHead where
  schema : SchemaId
  label : Option Label
  status : Status
  deps : List Ref
  grounds : List Ref
  rest : Header
  stop : Nat

/-- A unit as far as it is read before its source. -/
def unitHead (l : Line) : Option (Option UnitHead) := do
  match ← unitName src l with
  | none => some none
  | some (schema, label) =>
    (headerObject src l).map fun read => read.bind fun (header, stop) => do
      let (status, header) := header.take "status"
      let status ← optional status (fun v => v.asStr.bind Status.parse)
      let (deps, header) := header.take "deps"
      let (grounds, header) := header.take "grounds"
      some ⟨schema, label, status.getD .speculative, refList deps, refList grounds, header, stop⟩

/-- `lang` under a bare key. A quoted one is left where it is. -/
def unitLang (h : Header) : Option (Option LangTag × Header) :=
  match h.keyStart "lang" with
  | none => some (none, h)
  | some start =>
    if (bytes src)[start]? = some 0x22 then some (none, h)
    else
      let (v, h) := h.take "lang"
      (v.bind langOf).map (fun tag => (some tag, h))

/-- `unit`, after its source. -/
def unitFrom (u : UnitHead) (source : Option SourceRef) (h : Header) : Attempt Scan RawUnit := do
  let (lang, h) ← orRefuse lines (unitLang src h)
  let (salience, h) := h.take "salience"
  let payload := objectToPayload h.plain
  let (gist, body, detail) ← rescue (gistBodyDetail lines u.stop) (refuse lines)
  pure {
    label := u.label
    schema := u.schema
    gist
    body
    detail
    deps := u.deps
    grounds := u.grounds
    status := u.status
    source
    payload
    salience := (salience.bind HValue.asF64).map F64.toF32
    lang }

/-- `unit`. A source that is not read refuses the unit. -/
def unit (l : Line) : Attempt Scan RawUnit := do
  let u ← readOr lines (unitHead src l)
  match u.rest.take "source" with
  | (none, h) => unitFrom src lines u none h
  | (some v, h) => do
    let read ← readOr lines (source v)
    unitFrom src lines u (some read) h

/-- `relation`. It never moves the cursor. -/
def relation (l : Line) : Option (Option RawRelation) :=
  if !"@rel".toList.isPrefixOf l.text then some none
  else
    let rest := afterWord "@rel" l.text
    let base := l.start + (width l.text - width rest)
    match find "--".toList rest with
    | none => some none
    | some dashes =>
      (edgeParts rest dashes).bind fun parts =>
        match parts with
        | none => some none
        | some (kind, from_, tail) =>
          let tail := Hjson.trimStart tail
          let at_ := (find brace tail).map fun p => base + (width rest - width tail) + p
          (match find brace tail with
            | none => some (Hjson.trim tail)
            | some p => (sliceTo p tail).map Hjson.trim).bind fun to_ =>
          match parseRef (String.ofList from_), parseRef (String.ofList to_) with
          | some source, some target =>
            match at_ with
            | none => some (some ⟨relKindOf kind, source, target, none, none⟩)
            | some at_ =>
              (sliceFrom at_ src).bind fun text =>
                match Hjson.parseObjectPrefix text with
                | .ok (o, _, _) =>
                  let o := Header.plain o
                  some (some ⟨relKindOf kind, source, target,
                    ((HObject.get o "weight").bind HValue.asF64).map F64.toF32,
                    (HObject.get o "note").bind refOf⟩)
                | .error (.refused _) =>
                  some (some ⟨relKindOf kind, source, target, none, none⟩)
                | .error .stuck => none
          | _, _ => some none

/-- `step`. -/
def threadStep (l : Line) : Option (Option (Open Role × Ref × Option String)) := do
  let body ← sliceFrom 2 l.text
  match findArrow body with
  | none => some none
  | some at_ => do
    let role ← sliceTo at_ body
    let arrow ← sliceFrom at_ body
    let rest ← (sliceFrom (at_ + arrowLen arrow) body).map Hjson.trim
    let skip := if "b3:".toList.isPrefixOf rest then 3 else 0
    let after ← sliceFrom skip rest
    let (target, note) ←
      if after.contains ':' then do
        let name ← sliceTo (skip + width (after.takeWhile (· ≠ ':'))) rest
        let note := Hjson.trim ((after.dropWhile (· ≠ ':')).drop 1)
        some (Hjson.trim name, some (String.ofList note))
      else some (rest, none)
    some (do
      let role ← Role.parse (String.ofList (Hjson.trim role))
      let target ← parseRef (String.ofList target)
      some (.of role, target, note))

/-- The steps of a thread, and how many lines they take. -/
def threadSteps : List Line → Option (List (Open Role × Ref × Option String) × Nat)
  | [] => some ([], 0)
  | l :: rest =>
    if l.kind = .step then do
      let step ← threadStep l
      let (steps, passed) ← threadSteps rest
      some (step.toList ++ steps, passed + 1)
    else if l.kind = .blank then (threadSteps rest).map (fun s => (s.1, s.2 + 1))
    else some ([], 0)

def thread (l : Line) : Attempt Scan RawThread := do
  let head ← taken (headText src l)
  let id ← orRefuse lines (Name.new (String.ofList ((splitWhitespace head).getD 1 [])))
  let (header, stop) ← readOr lines (headerObject src l)
  let (schema, header) := header.take "schema"
  let schema ← orRefuse lines (schema.bind fun v => v.asStr.bind ThreadSchema.parse)
  let (owner, header) := header.take "owner"
  let owner ← orRefuse lines (owner.bind agentOf)
  let (ts, _) := header.take "ts"
  let ts := (ts.bind (hlcOf owner)).getD ⟨0, 0, owner⟩
  advancePast lines stop
  let s ← current
  let (gist, passed) : List Char × Nat :=
    match lines[s.i]? with
    | some l =>
      if l.kind = .gist then
        let more := continuation (lines.drop (s.i + 1))
        (joinedGist l more, 1 + more.length)
      else ([], 0)
    | none => ([], 0)
  forward passed
  let s ← current
  let (steps, passed) ← taken (threadSteps (lines.drop s.i))
  forward passed
  pure ⟨id, .of schema, owner, String.ofList gist, steps, ts⟩

/-! The document's own header. -/

/-- Why a document is not read at all. -/
inductive ParseError
  | unsupportedFormatVersion (found : String)
  | unsupportedKernelMajor (found : String)
  | syntax_
  deriving DecidableEq

/-- `n.max(0) as u32`. -/
def bound (v : HValue) (other : UInt32) : UInt32 :=
  match v.asInt with
  | some i => UInt32.ofNat i.toInt.toNat
  | none => other

/-- `granularity`: what is given replaces what the preset says. -/
def granularityOf (v : HValue) : GranularityProfile :=
  match v.asObject with
  | none => .standard
  | some o =>
    let name := (HObject.get o "profile").bind HValue.asStr
    let g := (name.bind GranularityProfile.preset).getD .standard
    let g := match HObject.get o "l0_max" with
      | some v => { g with l0Max := bound v g.l0Max }
      | none => g
    let g := match HObject.get o "l1_range" with
      | some (.array [lo, hi]) => { g with l1Min := bound lo 0, l1Max := bound hi 0 }
      | _ => g
    let admission := ((HObject.get o "admission").bind HValue.asStr).bind Admission.parse
    let g := match admission with
      | some a => { g with admission := .of a }
      | none => g
    match name with
    | some profile => { g with profile }
    | none => g

/-- `LangTag::default`. -/
def defaultLang : LangTag := ⟨"en", en_accepted⟩

/-- The view a document gives when its header names none. -/
def defaultView : ViewId := ⟨"v/doc", by decide⟩

/-- What a document's header says of its view. -/
def viewOf (h : Header) : RawView :=
  let (id, h) := h.take "id"
  let (roots, h) := h.take "roots"
  let (threads, h) := h.take "threads"
  let (requires, h) := h.take "requires"
  let (granularity, h) := h.take "granularity"
  let (intent, h) := h.take "intent"
  let (lang, _) := h.take "lang"
  { id := (id.bind fun v => v.asStr.bind Name.new).getD defaultView
    roots := refList roots
    threads := idList Name.new threads
    requires := idList SchemaId.parse requires
    granularity := (granularity.map granularityOf).getD .standard
    intent := (intent.bind HValue.asStr).getD ""
    lang := (lang.bind langOf).getD defaultLang }

/-- A kernel major this build does not have. -/
def otherMajor (requires : BTreeSet SchemaId) : Option SchemaId :=
  requires.toList.find? fun r => r.kernelMajor.any (fun major => major != 0)

/-- `doc_header`: the version and the view, or why the document is not read. -/
def docHeader (l : Line) : Option (Except ParseError (String × RawView × Nat)) :=
  let word := ((splitWhitespace (afterWord "@doc" l.text)).headD [])
  let version := String.ofList word
  if !formatVersionSupported version then some (.error (.unsupportedFormatVersion version))
  else
    (headerObject src l).map fun header =>
      match header with
      | none => .error .syntax_
      | some (h, stop) =>
        let view := viewOf h
        match otherMajor view.requires with
        | some r => .error (.unsupportedKernelMajor r.asStr)
        | none => .ok (version, view, stop)

/-! The loop. -/

/-- Where the parser is, and what it has collected. -/
structure SurfaceParser where
  scan : Scan
  formatVersion : String
  document : RawDocument

/-- A record's parser runs, and what it gives is collected. -/
def collect {α : Type} (p : Attempt Scan α) (push : α → RawDocument → RawDocument)
    (st : SurfaceParser) : Option SurfaceParser :=
  (p st.scan).map fun result =>
    { st with
      scan := result.2
      document := match result.1 with
        | some a => push a st.document
        | none => st.document }

/-- What the loop does at a line. -/
def atLine (l : Line) (st : SurfaceParser) : Option (Except ParseError SurfaceParser) :=
  match l.kind with
  | .blank => (collect (forward 1) (fun _ d => d) st).map .ok
  | .comment =>
    (collect (update fun s => { s with i := s.i + 1, comments := s.comments + 1 })
      (fun _ d => d) st).map .ok
  | .docHeader =>
    (docHeader src l).map fun header => header.map fun (version, view, stop) =>
      { st with
        scan := { st.scan with i := linePast lines stop st.scan.i }
        formatVersion := version
        document := { st.document with view := some view } }
  | .recordStart =>
    (collect (unit src lines l) (fun u d => { d with units := d.units ++ [u] }) st).map .ok
  | .relLine => do
    let r ← relation src l
    let st := match r with
      | some r =>
        { st with document := { st.document with relations := st.document.relations ++ [r] } }
      | none => st
    (collect (forward 1) (fun _ d => d) st).map .ok
  | .threadStart =>
    (collect (thread src lines l) (fun t d => { d with threads := d.threads ++ [t] }) st).map .ok
  | .schemaStart =>
    (collect (schemaDecl src lines l)
      (fun s d => { d with schemas := d.schemas ++ [s] }) st).map .ok
  | .withdrawStart =>
    (collect (lifecycleRecord src lines true l)
      (fun r d => { d with lifecycle := d.lifecycle ++ [r] }) st).map .ok
  | .resolveStart =>
    (collect (lifecycleRecord src lines false l)
      (fun r d => { d with lifecycle := d.lifecycle ++ [r] }) st).map .ok
  | .commitStart =>
    (collect (commitRecord src lines l)
      (fun c d => { d with commits := d.commits ++ [c] }) st).map .ok
  | .manifestStart =>
    (collect (manifestRecord src lines l)
      (fun m d => { d with manifests := d.manifests ++ [m] }) st).map .ok
  | .redactStart =>
    (collect (redactRecord src lines l)
      (fun r d => { d with redactions := d.redactions ++ [r] }) st).map .ok
  | .dateStart =>
    (collect (dateRecord src lines l)
      (fun t d => { d with datings := d.datings ++ [t] }) st).map .ok
  | .step | .gist | .separator | .text => (collect (recover lines) (fun _ d => d) st).map .ok

/-- The loop over the lines. It is stuck where it takes more steps than it is given. -/
def run : Nat → SurfaceParser → Option (Except ParseError SurfaceParser)
  | 0, _ => none
  | steps + 1, st =>
    match lines[st.scan.i]? with
    | none => some (.ok st)
    | some l =>
      match atLine src lines l st with
      | none => none
      | some (.error e) => some (.error e)
      | some (.ok st') => run steps st'

end

/-- A parser at the start of a document, with what the caller says of its units' source. -/
def SurfaceParser.start (source : Option (SourceRef × SourcePolicy)) : SurfaceParser where
  scan := ⟨0, 0, 0⟩
  formatVersion := "smysl/1.0"
  document := ⟨source, [], [], [], [], [], [], [], [], [], none⟩

/-- What is read of a document. -/
structure Parsed where
  formatVersion : String
  outcome : ParseOutcome
  recovered : Nat
  comments : Nat

/-- `parse_surface_with`. -/
def parseSurface [Unicode] [Blake3] (source : Option (SourceRef × SourcePolicy)) (text : String) :
    Option (Except ParseError Parsed) := do
  let src := text.toList
  let lines ← lex src
  match ← run src lines (lines.length + 1) (SurfaceParser.start source) with
  | .error e => some (.error e)
  | .ok st =>
    st.document.finish.map fun outcome =>
      .ok ⟨st.formatVersion, outcome, st.scan.recovered, st.scan.comments⟩

end Smysl
