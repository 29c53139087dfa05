import Smysl.Graph.Digest

/-!
What the layer holds, told by the records alone: of each thread the newest, of
each view one, the withdrawals and the resolutions all, of the contentions one
of each id. None of it but the choice among views and contentions depends on
the order of the records.
-/
namespace Smysl
open ByteString

/-- What the records have under one constructor. -/
def recorded {α : Type} (mk : α → Record) (records : List Record) : Set α :=
  {x | mk x ∈ records}

theorem mem_recorded {α : Type} {mk : α → Record} {records : List Record} {x : α} :
    x ∈ recorded mk records ↔ mk x ∈ records := Iff.rfl

theorem recorded_other {α : Type} {mk : α → Record} {r : Record} (other : ∀ x, mk x ≠ r)
    (rs : List Record) : recorded mk (rs ++ [r]) = recorded mk rs := by
  ext x
  simp [mem_recorded, other]

theorem recorded_again {α : Type} {mk : α → Record} (injective : Function.Injective mk) (x : α)
    (rs : List Record) : recorded mk (rs ++ [mk x]) = insert x (recorded mk rs) := by
  ext y
  simp only [mem_recorded, List.mem_append, List.mem_singleton, injective.eq_iff,
    Set.mem_insert_iff]
  tauto

section
variable [Unicode]

/-- What decides between two versions of a thread: the later, then the greater. -/
def Thread.age (t : Thread) : Hlc ×ₗ Bytes := toLex (t.ts, toCbor (.thread t))

theorem replaces_some (t held : Thread) :
    Interpretive.replaces t (some held) = decide (held.age < t.age) := by
  have order : held.age < t.age ↔ held.ts < t.ts ∨ held.ts = t.ts ∧
      toCbor (.thread held) < toCbor (.thread t) := Prod.Lex.lt_iff
  rw [Interpretive.replaces]
  rcases lt_trichotomy held.ts t.ts with below | same | above
  · rw [compare_lt_iff_lt.mpr below]
    simp [order, below]
  · rw [compare_eq_iff_eq.mpr same]
    simp [order, same]
  · rw [compare_gt_iff_gt.mpr above]
    simp [order, above.ne', not_lt_of_gt above]

/-- Of each thread the newest is held. -/
structure Newest (told : Set Thread) (m : BTreeMap ThreadKey Thread) : Prop where
  held : ∀ k t, m.get k = some t → t ∈ told ∧ threadKey t = k ∧
    ∀ t' ∈ told, threadKey t' = k → t'.age ≤ t.age
  all : ∀ t ∈ told, m.contains (threadKey t) = true

/-- Of each view some version is held. -/
structure Filed (told : Set View) (m : BTreeMap ViewId View) : Prop where
  held : ∀ k v, m.get k = some v → v ∈ told ∧ v.id = k
  all : ∀ v ∈ told, m.contains v.id = true

/-- Everything told is held under its key. -/
structure Gathered {K V : Type} [LinearOrder K] [LinearOrder V] (told : Set V) (key : V → K)
    (m : BTreeMap K (BTreeSet V)) : Prop where
  mem : ∀ k set, m.get k = some set → ∀ v, v ∈ set ↔ v ∈ told ∧ key v = k
  keys : ∀ k, m.contains k = true ↔ ∃ v ∈ told, key v = k

/-- One contention of each id is listed. -/
structure Listed (told : Set Contention) (cs : List Contention) : Prop where
  held : ∀ c ∈ cs, c ∈ told
  all : ∀ c ∈ told, c.id ∈ cs.map Contention.id
  distinct : (cs.map Contention.id).Nodup

theorem Newest.replace {told : Set Thread} {m : BTreeMap ThreadKey Thread}
    (newest : Newest told m) {t : Thread}
    (most : ∀ t' ∈ told, threadKey t' = threadKey t → t'.age ≤ t.age) :
    Newest (insert t told) (m.insert (threadKey t) t) := by
  refine ⟨fun k x found => ?_, fun t' mem => ?_⟩
  · rw [BTreeMap.get_insert] at found
    split at found
    · rename_i here
      cases found
      refine ⟨Or.inl rfl, here.symm, fun t' mem same => ?_⟩
      rcases mem with rfl | mem
      · exact le_rfl
      · exact most t' mem (same.trans here)
    · rename_i other
      obtain ⟨mem, keyed, greatest⟩ := newest.held k x found
      refine ⟨Or.inr mem, keyed, fun t' mem same => ?_⟩
      rcases mem with rfl | mem
      · exact absurd same.symm other
      · exact greatest t' mem same
  · rw [BTreeMap.contains, BTreeMap.get_insert]
    split
    · rfl
    · rename_i other
      rcases mem with rfl | mem
      · exact absurd rfl other
      · exact newest.all t' mem

theorem Newest.keep {told : Set Thread} {m : BTreeMap ThreadKey Thread} (newest : Newest told m)
    {t held : Thread} (found : m.get (threadKey t) = some held) (older : t.age ≤ held.age) :
    Newest (insert t told) m := by
  refine ⟨fun k x here => ?_, fun t' mem => ?_⟩
  · obtain ⟨mem, keyed, most⟩ := newest.held k x here
    refine ⟨Or.inr mem, keyed, fun t' mem same => ?_⟩
    rcases mem with rfl | mem
    · rw [← same, found] at here
      cases here
      exact older
    · exact most t' mem same
  · rcases mem with rfl | mem
    · exact (BTreeMap.contains_iff _ _).mpr ⟨held, found⟩
    · exact newest.all t' mem

theorem Newest.enter {told : Set Thread} {m : BTreeMap ThreadKey Thread} (newest : Newest told m)
    (t : Thread) : Newest (insert t told) (if Interpretive.replaces t (m.get (threadKey t)) then
      m.insert (threadKey t) t else m) := by
  cases before : m.get (threadKey t) with
  | none =>
    refine newest.replace fun t' mem same => ?_
    have held := newest.all t' mem
    rw [same, BTreeMap.contains, before] at held
    cases held
  | some e =>
    rw [replaces_some]
    by_cases newer : e.age < t.age
    · rw [if_pos (decide_eq_true newer)]
      exact newest.replace fun t' mem same => ((newest.held _ e before).2.2 t' mem same).trans newer.le
    · rw [if_neg (by simpa using newer)]
      exact newest.keep before (not_lt.mp newer)

omit [Unicode] in
theorem Filed.enter {told : Set View} {m : BTreeMap ViewId View} (filed : Filed told m) (v : View) :
    Filed (insert v told) (m.insert v.id v) := by
  refine ⟨fun k x found => ?_, fun v' mem => ?_⟩
  · rw [BTreeMap.get_insert] at found
    split at found
    · rename_i here
      cases found
      exact ⟨Or.inl rfl, here.symm⟩
    · exact (filed.held k x found).imp Or.inr id
  · rw [BTreeMap.contains, BTreeMap.get_insert]
    split
    · rfl
    · rename_i other
      rcases mem with rfl | mem
      · exact absurd rfl other
      · exact filed.all v' mem

omit [Unicode] in
theorem Gathered.enter {K V : Type} [LinearOrder K] [LinearOrder V] {told : Set V} {key : V → K}
    {m : BTreeMap K (BTreeSet V)} (gathered : Gathered told key m) (v : V) :
    Gathered (insert v told) key (insertAt m (key v) v) := by
  refine ⟨fun k set found x => ?_, fun k => ?_⟩
  · rw [insertAt, BTreeMap.get_alter] at found
    split at found
    · rename_i here
      cases found
      rw [BTreeSet.mem_insert, Set.mem_insert_iff]
      cases before : m.get (key v) with
      | none =>
        have absent : ¬ (x ∈ told ∧ key x = k) := by
          rintro ⟨mem, same⟩
          have held := (gathered.keys k).mpr ⟨x, mem, same⟩
          rw [here, BTreeMap.contains, before] at held
          cases held
        have empty : ¬ x ∈ (none : Option (BTreeSet V)).getD ∅ :=
          BTreeSet.not_mem_emptyCollection x
        constructor
        · rintro (rfl | mem)
          · exact ⟨Or.inl rfl, here.symm⟩
          · exact absurd mem empty
        · rintro ⟨rfl | mem, same⟩
          · exact Or.inl rfl
          · exact absurd ⟨mem, same⟩ absent
      | some old =>
        rw [Option.getD_some, gathered.mem _ old before x, ← here]
        constructor
        · rintro (rfl | ⟨mem, same⟩)
          · exact ⟨Or.inl rfl, here.symm⟩
          · exact ⟨Or.inr mem, same⟩
        · rintro ⟨rfl | mem, same⟩
          · exact Or.inl rfl
          · exact Or.inr ⟨mem, same⟩
    · rename_i other
      rw [gathered.mem k set found x, Set.mem_insert_iff]
      constructor
      · rintro ⟨mem, same⟩
        exact ⟨Or.inr mem, same⟩
      · rintro ⟨rfl | mem, same⟩
        · exact absurd same.symm other
        · exact ⟨mem, same⟩
  · rw [BTreeMap.contains, insertAt, BTreeMap.get_alter]
    split
    · rename_i here
      exact ⟨fun _ => ⟨v, Or.inl rfl, here.symm⟩, fun _ => rfl⟩
    · rename_i other
      refine (gathered.keys k).trans ⟨?_, ?_⟩
      · rintro ⟨x, mem, same⟩
        exact ⟨x, Or.inr mem, same⟩
      · rintro ⟨x, rfl | mem, same⟩
        · exact absurd same.symm other
        · exact ⟨x, mem, same⟩

omit [Unicode] in
theorem Listed.enter {told : Set Contention} {cs : List Contention} (listed : Listed told cs)
    (c : Contention) :
    Listed (insert c told) (if cs.any (fun e => e.id == c.id) then cs else cs ++ [c]) := by
  have known : cs.any (fun e => e.id == c.id) = true ↔ c.id ∈ cs.map Contention.id := by
    simp [List.any_eq_true]
  split
  · rename_i held
    refine ⟨fun x mem => Or.inr (listed.held x mem), fun x mem => ?_, listed.distinct⟩
    rcases mem with rfl | mem
    · exact known.mp held
    · exact listed.all x mem
  · rename_i fresh
    rw [known] at fresh
    refine ⟨fun x mem => ?_, fun x mem => ?_, ?_⟩
    · rcases List.mem_append.mp mem with mem | mem
      · exact Or.inr (listed.held x mem)
      · exact Or.inl (List.mem_singleton.mp mem)
    · rw [List.map_append, List.mem_append]
      rcases mem with rfl | mem
      · exact Or.inr (List.mem_singleton.mpr rfl)
      · exact Or.inl (listed.all x mem)
    · rw [List.map_append, List.map_singleton, List.nodup_append]
      refine ⟨listed.distinct, List.nodup_singleton _, fun a mem b last same => ?_⟩
      rw [same, List.mem_singleton.mp last] at mem
      exact fresh mem

/-- The layer is told by these records. -/
structure Interpretive.Holds (records : List Record) (i : Interpretive) : Prop where
  threads : Newest (recorded .thread records) i.threads
  views : Filed (recorded .view records) i.views
  withdrawals : Gathered (recorded .withdrawal records) Withdrawal.relation i.withdrawals
  resolutions : ∀ r, r ∈ i.resolutions ↔ r ∈ recorded .resolution records
  contentions : Listed (recorded .contention records) i.contentions

namespace Interpretive

theorem Holds.none : Holds [] {} where
  threads := ⟨fun k t found => (nomatch found), fun t mem => (nomatch mem)⟩
  views := ⟨fun k v found => (nomatch found), fun v mem => (nomatch mem)⟩
  withdrawals := by
    refine ⟨fun k set found => (nomatch found), fun k => ⟨fun found => (nomatch found), ?_⟩⟩
    rintro ⟨v, mem, _⟩
    cases mem
  resolutions r := ⟨fun mem => absurd mem (BTreeSet.not_mem_emptyCollection r),
    fun mem => nomatch mem⟩
  contentions := ⟨fun c mem => (nomatch mem), fun c mem => (nomatch mem), List.nodup_nil⟩

/-- A record of a kind the layer does not hold tells it nothing. -/
theorem Holds.silent {rs : List Record} {i : Interpretive} (holds : Holds rs i) {r : Record}
    (threads : ∀ x, .thread x ≠ r) (views : ∀ x, .view x ≠ r)
    (withdrawals : ∀ x, .withdrawal x ≠ r) (resolutions : ∀ x, .resolution x ≠ r)
    (contentions : ∀ x, .contention x ≠ r) : Holds (rs ++ [r]) i := by
  refine ⟨?_, ?_, ?_, ?_, ?_⟩
  · rw [recorded_other threads]
    exact holds.threads
  · rw [recorded_other views]
    exact holds.views
  · rw [recorded_other withdrawals]
    exact holds.withdrawals
  · rw [recorded_other resolutions]
    exact holds.resolutions
  · rw [recorded_other contentions]
    exact holds.contentions

theorem Holds.thread [Blake3] {rs : List Record} {i : Interpretive} (holds : Holds rs i)
    (t : Thread) : Holds (rs ++ [.thread t]) (i.absorbHot (.thread t)) := by
  have entered := holds.threads.enter t
  rw [← recorded_again (fun _ _ same => Record.thread.inj same)] at entered
  have kept : i.absorbHot (.thread t) = { i with
      threads := (if replaces t (i.threads.get (threadKey t)) then
        i.threads.insert (threadKey t) t else i.threads) } := by
    dsimp only [absorbHot]
    split <;> rfl
  rw [kept]
  refine ⟨entered, ?_, ?_, ?_, ?_⟩
  · rw [recorded_other (by simp)]
    exact holds.views
  · rw [recorded_other (by simp)]
    exact holds.withdrawals
  · rw [recorded_other (by simp)]
    exact holds.resolutions
  · rw [recorded_other (by simp)]
    exact holds.contentions

theorem Holds.contention [Blake3] {rs : List Record} {i : Interpretive} (holds : Holds rs i)
    (c : Contention) : Holds (rs ++ [.contention c]) (i.absorbHot (.contention c)) := by
  have entered := holds.contentions.enter c
  rw [← recorded_again (fun _ _ same => Record.contention.inj same)] at entered
  have kept : i.absorbHot (.contention c) = { i with
      contentions := (if i.contentions.any (fun e => e.id == c.id) then i.contentions
        else i.contentions ++ [c]) } := by
    dsimp only [absorbHot]
    split <;> rfl
  rw [kept]
  refine ⟨?_, ?_, ?_, ?_, entered⟩
  · rw [recorded_other (by simp)]
    exact holds.threads
  · rw [recorded_other (by simp)]
    exact holds.views
  · rw [recorded_other (by simp)]
    exact holds.withdrawals
  · rw [recorded_other (by simp)]
    exact holds.resolutions

theorem Holds.absorb [Blake3] {rs : List Record} {i : Interpretive} (holds : Holds rs i)
    (r : Record) : Holds (rs ++ [r]) (i.absorbHot r) := by
  cases r with
  | thread t => exact holds.thread t
  | contention c => exact holds.contention c
  | view v =>
    have entered := holds.views.enter v
    rw [← recorded_again (fun _ _ same => Record.view.inj same)] at entered
    refine ⟨?_, entered, ?_, ?_, ?_⟩
    · rw [recorded_other (by simp)]
      exact holds.threads
    · rw [recorded_other (by simp)]
      exact holds.withdrawals
    · rw [recorded_other (by simp)]
      exact holds.resolutions
    · rw [recorded_other (by simp)]
      exact holds.contentions
  | withdrawal w =>
    have entered := holds.withdrawals.enter w
    rw [← recorded_again (fun _ _ same => Record.withdrawal.inj same)] at entered
    refine ⟨?_, ?_, entered, ?_, ?_⟩
    · rw [recorded_other (by simp)]
      exact holds.threads
    · rw [recorded_other (by simp)]
      exact holds.views
    · rw [recorded_other (by simp)]
      exact holds.resolutions
    · rw [recorded_other (by simp)]
      exact holds.contentions
  | resolution x =>
    refine ⟨?_, ?_, ?_, fun y => ?_, ?_⟩
    · rw [recorded_other (by simp)]
      exact holds.threads
    · rw [recorded_other (by simp)]
      exact holds.views
    · rw [recorded_other (by simp)]
      exact holds.withdrawals
    · rw [recorded_again (fun _ _ same => Record.resolution.inj same), Set.mem_insert_iff,
        ← holds.resolutions, ← BTreeSet.mem_insert]
      rfl
    · rw [recorded_other (by simp)]
      exact holds.contentions
  | relation rel =>
    have still := @Holds.silent _ _ _ holds (.relation rel) (by simp) (by simp) (by simp) (by simp)
      (by simp)
    exact ⟨still.threads, still.views, still.withdrawals, still.resolutions, still.contentions⟩
  | commit c =>
    have still := @Holds.silent _ _ _ holds (.commit c) (by simp) (by simp) (by simp) (by simp)
      (by simp)
    exact ⟨still.threads, still.views, still.withdrawals, still.resolutions, still.contentions⟩
  | _ => exact holds.silent (by simp) (by simp) (by simp) (by simp) (by simp)

/-- The fold of the records is told by them. -/
theorem holds_fold [Blake3] (rs : List Record) : Holds rs (rs.foldl absorbHot {}) := by
  induction rs using List.reverseRecOn with
  | nil => exact .none
  | append_singleton rs r ih =>
    rw [List.foldl_append]
    exact ih.absorb r

end Interpretive
end
end Smysl
