import Smysl.Query.Spelling

/-!
A field is followed along the steps of its schema, and every spelling of it compiles to
the same rows.
-/
namespace Smysl.Pointer
open SchemaSet

/-- A field by the name each revision has for it, which every step carries on. -/
structure FieldNames (set : SchemaSet) (id : SchemaId) where
  name : UInt32 → String
  carried : ∀ s ∈ set.steps id, forward (name s.src) s = some (name s.dst)

/-- A revision that is declared, or that a step leaves. -/
def Stands (set : SchemaSet) (id : SchemaId) (v : UInt32) : Prop :=
  v ∈ versions set id ∨ ∃ s ∈ set.steps id, s.src = v

/-- A history of renames that rule N finds nothing wrong with, whose steps join every two
revisions. -/
structure History (set : SchemaSet) (id : SchemaId) : Prop where
  only : ∀ s ∈ set.steps id, Renaming s
  clean : set.checkRuleN id = []
  joined : ∀ u w, Stands set id u → Stands set id w → u ≤ w → ∃ path, set.Walk id u w path

/-- No pointer at or above a name of the field comes back: what a step renames away is of that
revision or a later one, and what it renames something to was not the field's. -/
structure NoneBack {set : SchemaSet} {id : SchemaId} (f : FieldNames set id) : Prop where
  settled : ∀ s ∈ set.steps id, ∀ u, Stands set id u → LeavesAt (f.name u) s →
    u ≤ s.src ∨ f.name s.src = f.name u
  clear : ∀ s ∈ set.steps id, Clear (f.name s.src) s.ops

section Walks
variable {set : SchemaSet} {id : SchemaId} {u w : UInt32} {path : List HeldStep}

theorem name_renamed (history : History set id) (f : FieldNames set id) {s : HeldStep}
    (mem : s ∈ set.steps id) : renamed (f.name s.src) s.ops = f.name s.dst := by
  have carried := f.carried s mem
  rw [forward, forward_renamed (history.only s mem)] at carried
  exact Option.some.inj carried

/-- Steps forward carry the field's name on. -/
theorem walk_forward (f : FieldNames set id) (walk : set.Walk id u w path) :
    path.foldlM forward (f.name u) = some (f.name w) := by
  induction walk with
  | stay n => rfl
  | @step s m rest mem walk ih =>
    rw [List.foldlM_cons, f.carried s mem]
    exact ih

/-- Steps backward give its earlier name back. -/
theorem walk_backward (history : History set id) {f : FieldNames set id} (apart : NoneBack f)
    (walk : set.Walk id u w path) : path.reverse.foldl backward (f.name w) = f.name u := by
  rw [List.foldl_reverse]
  induction walk with
  | stay n => rfl
  | @step s m rest mem walk ih =>
    rw [List.foldr_cons, ih, backward, ← name_renamed history f mem]
    exact backward_renamed (history.only s mem) (apart.clear s mem)

/-- A name that no step on the way leaves is the name at the end. -/
theorem walk_still (history : History set id) (f : FieldNames set id)
    (walk : set.Walk id u w path) (still : ∀ s ∈ path, ¬ LeavesAt (f.name u) s) :
    f.name w = f.name u := by
  induction walk with
  | stay n => rfl
  | @step s m rest mem walk ih =>
    have here : f.name s.dst = f.name s.src := by
      rw [← name_renamed history f mem]
      apply renamed_still (history.only s mem)
      intro op held src dst named
      apply Bool.eq_false_of_not_eq_true
      intro above
      exact still s List.mem_cons_self ⟨op, held, src, dst, named, above⟩
    rw [← here]
    apply ih
    intro t later
    rw [here]
    exact still t (List.mem_cons_of_mem s later)

/-- A name that no step on the way arrives at is the name at the start. -/
theorem walk_unled (history : History set id) (f : FieldNames set id)
    (walk : set.Walk id u w path) (unled : ∀ s ∈ path, ¬ ArrivesAt (f.name w) s) :
    f.name u = f.name w := by
  induction walk with
  | stay n => rfl
  | @step s m rest mem walk ih =>
    have later := ih fun t held => unled t (List.mem_cons_of_mem s held)
    rw [← later]
    rw [← name_renamed history f mem] at later ⊢
    apply (renamed_unled (history.only s mem) _).symm
    intro op held src dst named
    apply Bool.eq_false_of_not_eq_true
    intro above
    rw [later] at above
    exact unled s List.mem_cons_self ⟨op, held, src, dst, named, above⟩

theorem walk_mem (walk : set.Walk id u w path) {s : HeldStep} (mem : s ∈ path) :
    s ∈ set.steps id ∧ s.src < w := by
  obtain ⟨held, _, below⟩ := (Routes.walk_between steps_rise walk).2 s mem
  exact ⟨held, lt_of_lt_of_le s.rises (UInt32.le_iff_toNat_le.mpr below)⟩

/-- Where the name changes on the way, steps touch both names. -/
theorem walk_touches (history : History set id) (f : FieldNames set id)
    (walk : set.Walk id u w path) (changed : f.name u ≠ f.name w) :
    (set.steps id).any (touches (f.name u)) = true ∧
      (set.steps id).any (touches (f.name w)) = true := by
  have leaves : ∃ s ∈ path, LeavesAt (f.name u) s := by
    by_contra none_
    push Not at none_
    exact changed (walk_still history f walk none_).symm
  have arrives : ∃ s ∈ path, ArrivesAt (f.name w) s := by
    by_contra none_
    push Not at none_
    exact changed (walk_unled history f walk none_)
  obtain ⟨s, onPath, left⟩ := leaves
  obtain ⟨t, onPath', arrived⟩ := arrives
  have mem := (walk_mem walk onPath).1
  have mem' := (walk_mem walk onPath').1
  exact ⟨List.any_eq_true.mpr ⟨s, mem, (touches_iff (history.only s mem)).mpr (Or.inl left)⟩,
    List.any_eq_true.mpr ⟨t, mem', (touches_iff (history.only t mem')).mpr (Or.inr arrived)⟩⟩

theorem chain_joined (history : History set id) (hu : Stands set id u) (hw : Stands set id w)
    (up : u ≤ w) : ∃ found, set.chain id u w = .ok found ∧ set.Walk id u w found := by
  obtain ⟨path, walk⟩ := history.joined u w hu hw up
  exact chain_walk (clean_well_formed history.clean) walk

end Walks

section Compiling
variable {set : SchemaSet} {id : SchemaId} {current u : UInt32}

theorem current_last (last : (versions set id).getLast? = some current) :
    current ∈ versions set id ∧ ∀ v ∈ versions set id, v ≤ current := by
  have ascending := BTreeSet.toList_pairwise
    (BTreeSet.ofList ((set.revisions id).map Revision.version))
  change (versions set id).Pairwise (· < ·) at ascending
  obtain ⟨before, whole⟩ := List.getLast?_eq_some_iff.mp last
  rw [whole] at ascending ⊢
  refine ⟨List.mem_append_right _ List.mem_cons_self, fun v mem => ?_⟩
  rcases List.mem_append.mp mem with early | same
  · exact ((List.pairwise_append.mp ascending).2.2 v early current List.mem_cons_self).le
  · exact (List.mem_singleton.mp same).le

/-- Where no step before a revision leaves the name, the field has it there too. -/
theorem still_until (history : History set id) (f : FieldNames set id) {at_ : UInt32}
    (hu : Stands set id u) (hat : Stands set id at_) (up : u ≤ at_)
    (first : ∀ s ∈ set.steps id, LeavesAt (f.name u) s → at_ ≤ s.src) :
    f.name at_ = f.name u := by
  obtain ⟨path, walk⟩ := history.joined u at_ hu hat up
  apply walk_still history f walk
  intro s onPath leaves
  obtain ⟨mem, before⟩ := walk_mem walk onPath
  exact absurd (first s mem leaves) (not_le.mpr before)

/-- The revision a name is taken to be spelled at is one where the field has it. -/
theorem spelt_at_named (history : History set id) {f : FieldNames set id} (apart : NoneBack f)
    (last : (versions set id).getLast? = some current) (here : u ∈ versions set id) :
    Stands set id (speltAt set id current (f.name u)) ∧
      f.name (speltAt set id current (f.name u)) = f.name u := by
  rw [speltAt]
  cases least : (((set.steps id).filter (movesAway (f.name u))).map HeldStep.src).min? with
  | none =>
    rw [Option.getD_none]
    obtain ⟨held, greatest⟩ := current_last last
    refine ⟨Or.inl held, still_until history f (Or.inl here) (Or.inl held) (greatest u here) ?_⟩
    intro s mem leaves
    have away := (moves_away_iff (history.only s mem)).mpr leaves
    have listed := List.mem_map_of_mem (f := HeldStep.src) (List.mem_filter.mpr ⟨mem, away⟩)
    rw [List.min?_eq_none_iff.mp least] at listed
    cases listed
  | some at_ =>
    rw [Option.getD_some]
    obtain ⟨listed, first⟩ := List.min?_eq_some_iff.mp least
    obtain ⟨s, filtered, same⟩ := List.mem_map.mp listed
    obtain ⟨mem, away⟩ := List.mem_filter.mp filtered
    have stands : Stands set id at_ := Or.inr ⟨s, mem, same⟩
    refine ⟨stands, ?_⟩
    rcases apart.settled s mem u (Or.inl here) ((moves_away_iff (history.only s mem)).mp away) with
      up | named
    · rw [same] at up
      apply still_until history f (Or.inl here) stands up
      intro t held leaves
      have away' := (moves_away_iff (history.only t held)).mpr leaves
      exact first t.src (List.mem_map_of_mem (List.mem_filter.mpr ⟨held, away'⟩))
    · rw [← same]
      exact named

/-- From a revision where the field has a name, each revision is given its own. -/
theorem name_at_named (history : History set id) {f : FieldNames set id} (apart : NoneBack f)
    {at_ v : UInt32} (hat : Stands set id at_) (hv : Stands set id v) :
    nameAt set id (f.name at_) at_ v = some (f.name v) := by
  rw [nameAt]
  by_cases same : v = at_
  · rw [if_pos same, same]
  · rw [if_neg same]
    by_cases later : at_ < v
    · rw [if_pos later]
      obtain ⟨found, chained, walk⟩ := chain_joined history hat hv later.le
      rw [chained]
      exact walk_forward f walk
    · rw [if_neg later]
      obtain ⟨found, chained, walk⟩ := chain_joined history hv hat (not_lt.mp later)
      rw [chained]
      exact congrArg some (walk_backward history apart walk)

/-- A spelling that a step touches compiles to the field's names. -/
theorem rows_named (history : History set id) {f : FieldNames set id} (apart : NoneBack f)
    (here : u ∈ versions set id) (touched : (set.steps id).any (touches (f.name u)) = true) :
    rows set id (f.name u) = (versions set id).map fun v => (v, some (f.name v)) := by
  rw [rows]
  cases last : (versions set id).getLast? with
  | none =>
    rw [List.getLast?_eq_none_iff.mp last] at here
    cases here
  | some current =>
    dsimp only
    rw [if_pos touched]
    obtain ⟨stands, named⟩ := spelt_at_named history apart last here
    apply List.map_congr_left
    intro v mem
    have whole := name_at_named history apart stands (Or.inl mem : Stands set id v)
    rw [named] at whole
    rw [whole]

theorem rows_untouched (p : String) (untouched : (set.steps id).any (touches p) = false) :
    rows set id p = [] := by
  rw [rows]
  cases (versions set id).getLast? with
  | none => rfl
  | some current =>
    dsimp only
    rw [untouched]
    rfl

/-- Two spellings of one field give the same rows. -/
theorem rows_unspelt (history : History set id) {f : FieldNames set id} (apart : NoneBack f)
    {w : UInt32} (hu : u ∈ versions set id) (hw : w ∈ versions set id) :
    rows set id (f.name u) = rows set id (f.name w) := by
  by_cases same : f.name u = f.name w
  · rw [same]
  · have touched : (set.steps id).any (touches (f.name u)) = true ∧
        (set.steps id).any (touches (f.name w)) = true := by
      rcases le_total u w with up | down
      · obtain ⟨path, walk⟩ := history.joined u w (Or.inl hu) (Or.inl hw) up
        exact walk_touches history f walk same
      · obtain ⟨path, walk⟩ := history.joined w u (Or.inl hw) (Or.inl hu) down
        exact (walk_touches history f walk (Ne.symm same)).symm
    rw [rows_named history apart hu touched.1, rows_named history apart hw touched.2]

/-- No rows are given only where the field is never renamed. -/
theorem rows_whole (history : History set id) {f : FieldNames set id} (apart : NoneBack f)
    (here : u ∈ versions set id) :
    rows set id (f.name u) = (versions set id).map (fun v => (v, some (f.name v))) ∨
      rows set id (f.name u) = [] ∧ ∀ v ∈ versions set id, f.name v = f.name u := by
  cases touched : (set.steps id).any (touches (f.name u)) with
  | true => exact Or.inl (rows_named history apart here touched)
  | false =>
    refine Or.inr ⟨rows_untouched _ touched, fun v mem => ?_⟩
    by_contra changed
    rcases le_total u v with up | down
    · obtain ⟨path, walk⟩ := history.joined u v (Or.inl here) (Or.inl mem) up
      rw [(walk_touches history f walk (Ne.symm changed)).1] at touched
      cases touched
    · obtain ⟨path, walk⟩ := history.joined v u (Or.inl mem) (Or.inl here) down
      rw [(walk_touches history f walk changed).2] at touched
      cases touched

end Compiling

section Mapping
variable {set : SchemaSet} {id : SchemaId}

theorem parsed_sublist (keys : List String) :
    ((keys.filterMap SchemaId.parse).map SchemaId.asStr).Sublist keys := by
  induction keys with
  | nil => exact .slnil
  | cons k keys ih =>
    cases found : SchemaId.parse k with
    | none =>
      rw [List.filterMap_cons_none found]
      exact ih.cons k
    | some i =>
      rw [List.filterMap_cons_some found, List.map_cons, SchemaId.parse_as_str found]
      exact ih.cons_cons k

theorem lenses_distinct (set : SchemaSet) : ((lenses set).map SchemaId.asStr).Nodup := by
  have part := (List.filter_sublist (p := fun id => (set.steps id).any namesPointers)
    (l := set.ids.filterMap SchemaId.parse)).map SchemaId.asStr
  exact (part.trans (parsed_sublist set.ids)).nodup set.revisionsById.keys_nodup

/-- Of rows that carry their id, those of one id are its own. -/
theorem own_rows {T : Type} (ids : List SchemaId) (distinct : (ids.map SchemaId.asStr).Nodup)
    (own : SchemaId → List T) (mem : id ∈ ids) :
    ((ids.flatMap fun i => (own i).map fun row => (i.asStr, row)).filter
      fun row => row.1 = id.asStr).map Prod.snd = own id := by
  have foreign (i : SchemaId) (other : i.asStr ≠ id.asStr) :
      ((own i).map fun row => (i.asStr, row)).filter (fun row => row.1 = id.asStr) = [] := by
    apply List.filter_eq_nil_iff.mpr
    intro row held
    obtain ⟨r, _, same⟩ := List.mem_map.mp held
    rw [← same]
    exact fun equal => other (of_decide_eq_true equal)
  induction ids with
  | nil => cases mem
  | cons i ids ih =>
    rw [List.map_cons, List.nodup_cons] at distinct
    rw [List.flatMap_cons, List.filter_append, List.map_append]
    by_cases same : i = id
    · have none_ : (ids.flatMap fun i => (own i).map fun row => (i.asStr, row)).filter
          (fun row => row.1 = id.asStr) = [] := by
        rw [List.filter_flatMap]
        apply List.flatMap_eq_nil_iff.mpr
        intro j held
        apply foreign
        intro equal
        exact distinct.1 (same ▸ equal ▸ List.mem_map_of_mem held)
      have all : ((own i).map fun row => (i.asStr, row)).filter (fun row => row.1 = id.asStr) =
          (own i).map fun row => (i.asStr, row) := by
        apply List.filter_eq_self.mpr
        intro row held
        obtain ⟨r, _, same'⟩ := List.mem_map.mp held
        rw [← same', same]
        exact decide_eq_true rfl
      rw [none_, all, List.map_nil, List.append_nil, List.map_map, same]
      exact List.map_id _
    · have held := (List.mem_cons.mp mem).resolve_left (Ne.symm same)
      rw [foreign i, List.map_nil, List.nil_append]
      · exact ih distinct.2 held
      · intro equal
        exact distinct.1 (equal ▸ List.mem_map_of_mem held)

theorem mapping_rows (lens : id ∈ lenses set) (p : String) :
    (compile set p).mapping id = rows set id p :=
  own_rows (lenses set) (lenses_distinct set) (fun i => rows set i p) lens

end Mapping

section Examples

/-- A revision of one id that is nothing but its steps. -/
def stepsOnly (version : UInt32) (lenses : List HeldStep) : Revision where
  id := .extension "x.config/v1"
  version := version
  declHash := [version.toUInt8]
  types := []
  relations := []
  fields := .absent
  lenses := lenses

def renameStep (src dst : UInt32) (rises : src < dst) (ops : List (String × String)) :
    HeldStep where
  src := src
  dst := dst
  ops := ops.map fun op => .known (.renameKey op.1 op.2)
  bytes := [src.toUInt8, dst.toUInt8]
  rises := rises

def historyOf (revisions : List Revision) : SchemaSet := revisions.foldl SchemaSet.insert .empty

def lowered : HeldStep :=
  renameStep 1 2 first_rises [("/db/min", "/db/low"), ("/db/max", "/db/high")]

def pooled : HeldStep := renameStep 2 3 second_rises [("/db", "/pool")]

/-- Two names change, and then their parent does. -/
def settings : SchemaSet := historyOf [stepsOnly 1 [], stepsOnly 2 [lowered], stepsOnly 3 [pooled]]

def configId : SchemaId := .extension "x.config/v1"

theorem settings_steps : settings.steps configId = [lowered, pooled] := rfl

theorem settings_versions : versions settings configId = [1, 2, 3] := by decide +kernel

def lowName (v : UInt32) : String :=
  if v = 1 then "/db/min" else if v = 2 then "/db/low" else "/pool/low"

theorem low_carried :
    ∀ s ∈ settings.steps configId, forward (lowName s.src) s = some (lowName s.dst) := by
  decide +kernel

def low : FieldNames settings configId := ⟨lowName, low_carried⟩

theorem settings_stands {v : UInt32} (stands : Stands settings configId v) :
    v = 1 ∨ v = 2 ∨ v = 3 := by
  rw [Stands, settings_versions, settings_steps] at stands
  rcases stands with declared | ⟨s, mem, same⟩
  · simpa using declared
  · rcases List.mem_pair.mp mem with first | second
    · rw [first] at same
      exact Or.inl same.symm
    · rw [second] at same
      exact Or.inr (Or.inl same.symm)

theorem renaming_step (src dst : UInt32) (rises : src < dst) (ops : List (String × String)) :
    Renaming (renameStep src dst rises ops) := by
  intro op mem
  obtain ⟨o, _, same⟩ := List.mem_map.mp mem
  exact ⟨o.1, o.2, same.symm⟩

theorem settings_history : History settings configId where
  only s mem := by
    rw [settings_steps] at mem
    rcases List.mem_pair.mp mem with first | second
    · rw [first]
      exact renaming_step _ _ _ _
    · rw [second]
      exact renaming_step _ _ _ _
  clean := rfl
  joined u w hu hw up := by
    have first : lowered ∈ settings.steps configId := List.mem_cons_self
    have second : pooled ∈ settings.steps configId := List.mem_pair.mpr (Or.inr rfl)
    have one : settings.Walk configId 1 2 [lowered] := .step (e := lowered) first (.stay 2)
    have two : settings.Walk configId 2 3 [pooled] := .step (e := pooled) second (.stay 3)
    have both : settings.Walk configId 1 3 [lowered, pooled] := .step (e := lowered) first two
    rcases settings_stands hu with rfl | rfl | rfl <;>
      rcases settings_stands hw with rfl | rfl | rfl
    · exact ⟨_, .stay 1⟩
    · exact ⟨_, one⟩
    · exact ⟨_, both⟩
    · exact absurd up (by decide)
    · exact ⟨_, .stay 2⟩
    · exact ⟨_, two⟩
    · exact absurd up (by decide)
    · exact absurd up (by decide)
    · exact ⟨_, .stay 3⟩

theorem leaves_step (src dst : UInt32) (rises : src < dst) (ops : List (String × String))
    {p : String} (leaves : LeavesAt p (renameStep src dst rises ops)) :
    ops.any (fun o => under p o.1) = true := by
  obtain ⟨op, mem, a, b, named, above⟩ := leaves
  obtain ⟨o, held, same⟩ := List.mem_map.mp mem
  rw [Renames] at named
  rw [named] at same
  cases same
  exact List.any_eq_true.mpr ⟨o, held, above⟩

theorem low_back : NoneBack low where
  settled s mem u stands leaves := by
    rw [settings_steps] at mem
    rcases List.mem_pair.mp mem with first | second
    · rw [first] at leaves ⊢
      have away := leaves_step _ _ _ _ leaves
      rcases settings_stands stands with rfl | rfl | rfl
      · exact Or.inl (le_refl _)
      · exact absurd away (by decide +kernel)
      · exact absurd away (by decide +kernel)
    · rw [second] at leaves ⊢
      have away := leaves_step _ _ _ _ leaves
      rcases settings_stands stands with rfl | rfl | rfl
      · exact Or.inl (by decide)
      · exact Or.inl (le_refl _)
      · exact absurd away (by decide +kernel)
  clear s mem := by
    rw [settings_steps] at mem
    rcases List.mem_pair.mp mem with first | second
    · rw [first]
      simp only [Clear, lowered, renameStep, List.map_cons, List.map_nil]
      decide +kernel
    · rw [second]
      simp only [Clear, pooled, renameStep, List.map_cons, List.map_nil]
      decide +kernel

theorem lens_settings : configId ∈ lenses settings := by
  have whole : lenses settings = [configId] := rfl
  rw [whole]
  exact List.mem_cons_self

/-- Revision 3 comes with no step. -/
def unjoined : SchemaSet :=
  historyOf [stepsOnly 1 [], stepsOnly 2 [renameStep 1 2 first_rises [("/a", "/b")]],
    stepsOnly 3 []]

/-- Revision 3 can be reached from revision 1 in one step too. -/
def shortened : SchemaSet :=
  historyOf [stepsOnly 1 [], stepsOnly 2 [renameStep 1 2 first_rises [("/q", "/p")]],
    stepsOnly 3 [renameStep 2 3 second_rises [("/p", "/r")],
      renameStep 1 3 (by decide) [("/q", "/p"), ("/p", "/r")]]]

/-- A parent is renamed to where the field stands. -/
def overlaid : SchemaSet :=
  historyOf [stepsOnly 1 [],
    stepsOnly 2 [renameStep 1 2 first_rises [("/c", "/a"), ("/a/y", "/a/z")]]]

end Examples
end Smysl.Pointer
