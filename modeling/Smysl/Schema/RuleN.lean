import Smysl.Schema.Revisions

/-!
Rule N over every revision of a schema id against every earlier one: a later revision
gives no name a new meaning, and brings back none that was retired.
-/
namespace Smysl

deriving instance DecidableEq for FieldType

/-- Every name a revision holds, by kind, with the retired ones apart. -/
structure NamesHeld where
  types : BTreeSet String := ∅
  relations : BTreeSet String := ∅
  keys : BTreeSet String := ∅
  retiredKeys : BTreeSet String := ∅
  values : BTreeMap String (BTreeSet String) := ∅

def NamesHeld.of (r : Revision) : NamesHeld :=
  let unkeyed : NamesHeld :=
    { types := .ofList (r.types.map SchemaId.asStr)
      relations := .ofList (r.relations.map RelKind.asStr) }
  ((r.fields.table.map BTreeMap.entries).getD []).foldl (fun n e =>
    if e.2.retiredAt r.version then { n with retiredKeys := n.retiredKeys.insert e.1 }
    else
      { n with
        keys := n.keys.insert e.1
        values := n.values.insert e.1 (.ofList e.2.values) }) unkeyed

inductive RuleNError
  | e426 (message : String)
  | illFormed (e : LensError)

/-- A name with a new meaning at `b`, against what it was at `a`. -/
def e426 (id : SchemaId) (a b : UInt32) (what : String) : RuleNError :=
  .e426 (id.asStr ++ "@" ++ toString b ++ " against @" ++ toString a ++ ": " ++ what)

/-- The names held by `a`, not by `mid` any more, and by `b` again. -/
def broughtBack (a mid b : BTreeSet String) : List String :=
  a.toList.filter fun t => !mid.contains t && b.contains t

/-- The names that `mid` dropped and `b` reintroduces. -/
def droppedBetween (id : SchemaId) (a mid b : Revision × NamesHeld) : List RuleNError :=
  let dropped (what : String) :=
    e426 id mid.1.version b.1.version
      (what ++ " was dropped at @" ++ toString mid.1.version ++ " and reintroduced")
  (broughtBack a.2.types mid.2.types b.2.types).map
    (fun t => dropped ("type `" ++ t ++ "`")) ++
  (broughtBack a.2.relations mid.2.relations b.2.relations).map
    (fun r => dropped ("relation kind `" ++ r ++ "`")) ++
  a.2.values.entries.flatMap fun e =>
    match mid.2.values.get e.1, b.2.values.get e.1 with
    | some vm, some vb =>
      (broughtBack e.2 vm vb).map
        (fun v => dropped ("value `" ++ v ++ "` of `" ++ e.1 ++ "`"))
    | _, _ => []

/-- What is wrong with `b` against the earlier `a`, with the revisions between them. -/
def againstEarlier (id : SchemaId) (a : Revision × NamesHeld)
    (between : List (Revision × NamesHeld)) (b : Revision × NamesHeld) : List RuleNError :=
  ((a.2.retiredKeys.toList.filter fun k => b.2.keys.contains k).map fun k =>
    e426 id a.1.version b.1.version
      ("key `" ++ k ++ "` is retired at @" ++ toString a.1.version ++ " and reintroduced")) ++
  between.flatMap (fun mid => droppedBetween id a mid b) ++
  match a.1.fields.table, b.1.fields.table with
  | some ta, some tb =>
    ta.entries.flatMap fun e =>
      match tb.get e.1 with
      | some fb =>
        if e.2.ty = fb.ty then []
        else
          [e426 id a.1.version b.1.version
            ("key `" ++ e.1 ++ "` changes type, `" ++ e.2.ty.asString ++ "` to `" ++
              fb.ty.asString ++ "`")]
      | none => []
  | _, _ => []

/-- A widening is declared when each paired key is required from the widening revision under a
condition covering the widened value, with a `default` under the same condition. -/
def SchemaSet.wideningIsDeclared (set : SchemaSet) (id : SchemaId) (s : HeldStep)
    (key dst : String) (add : BTreeMap String HValue) : Bool :=
  let cond : Cond := ⟨key, .str dst⟩
  let table := (set.revision id s.dst).bind fun r => r.fields.table
  !add.isEmpty && add.keys.all fun k2 =>
    (table.bind fun t => t.get k2).any (fun f =>
      f.requiredFrom = some s.dst && f.requiredWhen.all fun c => c.same cond) &&
    s.ops.any fun
      | .known (.default k _ (some c)) => k = k2 && c.same cond
      | _ => false

def SchemaSet.checkOp (set : SchemaSet) (id : SchemaId) (s : HeldStep) (source : Revision)
    (ns : NamesHeld) (retired : BTreeSet String) (op : LensOp) : List RuleNError :=
  let wrong := e426 id s.src s.dst
  let target (k how : String) : List RuleNError :=
    if retired.contains k then
      [wrong ("`" ++ how ++ "` targets `" ++ k ++ "`, a key retired by @" ++ toString s.src)]
    else []
  match op with
  | .renameType src dst =>
    if ns.types.contains dst.asStr then
      [wrong ("`rename-type " ++ src.asStr ++ " → " ++ dst.asStr ++ "`: `" ++ dst.asStr ++
        "` already names a type at @" ++ toString s.src)]
    else []
  | .renameRelation src dst =>
    if ns.relations.contains dst.asStr then
      [wrong ("`rename-relation " ++ src.asStr ++ " → " ++ dst.asStr ++ "`: `" ++ dst.asStr ++
        "` already names a relation kind at @" ++ toString s.src)]
    else []
  | .renameKey src dst =>
    (if ns.keys.contains dst then
      [wrong ("`rename-key " ++ src ++ " → " ++ dst ++ "`: `" ++ dst ++
        "` is already a key at @" ++ toString s.src)]
    else []) ++ target dst "rename-key"
  | .mapValue key map =>
    map.entries.flatMap fun e =>
      if e.1 ≠ e.2 && (ns.values.get key).any (fun v => v.contains e.2) then
        [wrong ("`map-value " ++ key ++ ": " ++ e.1 ++ " → " ++ e.2 ++ "`: `" ++ e.2 ++
          "` is already a value at @" ++ toString s.src ++ ", which now means `" ++ e.1 ++
          "` too")]
      else []
  | .splitValue key _ dst add =>
    add.keys.flatMap (fun k => target k "split-value") ++
    if isWidening (source.fields.get key) dst && !set.wideningIsDeclared id s key dst add then
      [wrong ("`split-value " ++ key ++ " → " ++ dst ++ "` widens `" ++ dst ++ "`, which @" ++
        toString s.src ++ " already has, without a paired key required from @" ++
        toString s.dst ++ " when " ++ key ++ " = " ++ dst ++
        " and defaulted under the same condition")]
    else []
  | .default key _ _ | .require key _ => target key op.tag
  | .retire _ => []

def SchemaSet.checkStep (set : SchemaSet) (id : SchemaId) (s : HeldStep) (source : Revision)
    (ns : NamesHeld) (retired : BTreeSet String) : List RuleNError :=
  s.ops.flatMap fun
    | .known op => set.checkOp id s source ns retired op
    | .unknown _ _ => []

/-- The first declaration of each version. -/
def firstOfEach (seen : List UInt32) : List Revision → List Revision
  | [] => []
  | r :: rest =>
    if seen.contains r.version then firstOfEach seen rest
    else r :: firstOfEach (r.version :: seen) rest

section
variable {T : Type}

/-- Each element with those before it. -/
def withEarlier (before : List T) : List T → List (List T × T)
  | [] => []
  | x :: rest => (before, x) :: withEarlier (before ++ [x]) rest

/-- Each element with those after it. -/
def withLater : List T → List (T × List T)
  | [] => []
  | x :: rest => (x, rest) :: withLater rest

end

/-- `check_rule_n`: the errors it reports, which it returns the number of. A fork is only
warned of. -/
def SchemaSet.checkRuleN (set : SchemaSet) (id : SchemaId) : List RuleNError :=
  let revs := (firstOfEach [] (set.revisions id)).map fun r => (r, NamesHeld.of r)
  (withEarlier [] revs).flatMap (fun later => (withLater later.1).flatMap fun a =>
    againstEarlier id a.1 a.2 later.2) ++
  (set.steps id).flatMap fun s =>
    ((validate id s (set.fieldsAt id s.src)).map RuleNError.illFormed).toList ++
    match set.revision id s.src with
    | none => []
    | some source =>
      let retired := (revs.filter fun r => r.1.version ≤ s.src).flatMap
        fun r => r.2.retiredKeys.toList
      set.checkStep id s source (.of source) (.ofList retired)

/-- Every step of an id that rule N finds nothing wrong with is well-formed. -/
theorem clean_well_formed {set : SchemaSet} {id : SchemaId} (clean : set.checkRuleN id = []) :
    ∀ s ∈ set.steps id, validate id s (set.fieldsAt id s.src) = none := by
  intro s mem
  have steps := (List.append_eq_nil_iff.mp clean).2
  have here := (List.append_eq_nil_iff.mp (List.flatMap_eq_nil_iff.mp steps s mem)).1
  cases found : validate id s (set.fieldsAt id s.src) with
  | none => rfl
  | some bad =>
    rw [found] at here
    cases here

end Smysl
