import Smysl.Text.Part

/-!
What grouping gives: the parts a text's nodes determine. They hold the text in order and each
node once, save where empty nodes fill a part by themselves; and when the text grows, no part
is cut again but the last.
-/
namespace Smysl
namespace Parts
variable {policy : Policy} {length : UInt64} {nodes : List ByteRange}

theorem max_of_le {a b : UInt64} (le : a ≤ b) : max a b = b := by
  rw [UInt64.max_def, if_pos le]

theorem max_of_ge {a b : UInt64} (le : b ≤ a) : max a b = a := by
  rw [UInt64.max_def]
  split
  · rename_i le'
    exact UInt64.le_antisymm le le'
  · rfl

variable (policy) in
/-- What the inner loop takes, having taken the nodes of `j` up to `m`. -/
theorem fill_closes (ascending : Ascending length nodes) {j m : Nat} (opened : j < m)
    (within : m ≤ nodes.length) (takes : ∀ i, j < i → i < m → ¬ Full policy nodes j i) :
    Closes policy nodes j
      (m + (fill policy (startAt nodes j) (stopAt nodes (m - 1)) (nodes.drop m)).2) ∧
    (fill policy (startAt nodes j) (stopAt nodes (m - 1)) (nodes.drop m)).1 =
      stopAt nodes
        (m + (fill policy (startAt nodes j) (stopAt nodes (m - 1)) (nodes.drop m)).2 - 1) := by
  induction rest : nodes.drop m generalizing m with
  | nil =>
    have none' := List.drop_eq_nil_iff.mp rest
    rw [fill]
    exact ⟨⟨opened, within, takes, fun more => absurd more (by omega)⟩, rfl⟩
  | cons node later ih =>
    have inside : m < nodes.length := by
      rw [← List.drop_eq_nil_iff.not.trans Nat.not_le, rest]
      exact List.cons_ne_nil _ _
    have here : nodes[m]? = some node := by
      rw [← List.head?_drop, rest]
      rfl
    have there : nodes.drop (m + 1) = later := by
      rw [← List.tail_drop, rest]
      rfl
    rw [fill]
    by_cases full : Full policy nodes j m
    · rw [if_pos (by rwa [← stop_at here])]
      exact ⟨⟨opened, within, takes, fun _ => full⟩, rfl⟩
    · rw [if_neg (by rwa [← stop_at here])]
      have grown : max (stopAt nodes (m - 1)) node.stop = stopAt nodes (m + 1 - 1) := by
        rw [Nat.add_sub_cancel, stop_at here, max_of_le]
        rw [← stop_at here]
        have before := ascending.stop_start (show m - 1 < m by omega) inside
        exact UInt64.le_trans before (ascending.start_stop inside)
      have taken : ∀ i, j < i → i < m + 1 → ¬ Full policy nodes j i := by
        intro i after before
        rcases Nat.lt_succ_iff_lt_or_eq.mp before with earlier | rfl
        · exact takes i after earlier
        · exact full
      have next := ih (by omega) inside taken there
      simp only [grown]
      rw [show m + ((fill policy (startAt nodes j) (stopAt nodes (m + 1 - 1)) later).2 + 1) =
        m + 1 + (fill policy (startAt nodes j) (stopAt nodes (m + 1 - 1)) later).2 by omega]
      exact next

/-- The outer loop makes the parts that the nodes determine. -/
theorem group_from_cut (ascending : Ascending length nodes) {budget : Budget} (steps : Nat)
    {j : Nat} {start : UInt64} {parts : List PartPlan} (enough : nodes.length ≤ j + steps)
    (low : ∀ i, j ≤ i → i < nodes.length → start ≤ startAt nodes i)
    (grouped : groupFrom policy length budget steps j start (nodes.drop j) = .ok parts) :
    Cut policy length nodes j start parts := by
  induction steps generalizing j start parts with
  | zero =>
    cases grouped
    exact Cut.done (by omega)
  | succ steps ih =>
    cases rest : nodes.drop j with
    | nil =>
      rw [rest] at grouped
      cases grouped
      exact Cut.done (List.drop_eq_nil_iff.mp rest)
    | cons node later =>
      have inside : j < nodes.length := by
        rw [← List.drop_eq_nil_iff.not.trans Nat.not_le, rest]
        exact List.cons_ne_nil _ _
      have here : nodes[j]? = some node := by
        rw [← List.head?_drop, rest]
        rfl
      have there : nodes.drop (j + 1) = later := by
        rw [← List.tail_drop, rest]
        rfl
      have filled := fill_closes policy ascending (show j < j + 1 by omega) inside
        (fun i after before => absurd after (by omega))
      rw [there, Nat.add_sub_cancel, start_at here, stop_at here] at filled
      obtain ⟨closes, ends⟩ := filled
      rw [rest, groupFrom] at grouped
      generalize fill policy node.start node.stop later = more at closes ends grouped
      have last : j + 1 + more.2 - 1 < nodes.length := by
        have := closes.within
        omega
      have dropped : later.drop more.2 = nodes.drop (j + 1 + more.2) := by
        rw [← there, List.drop_drop]
      have after := ascending.stop_reach (show j + 1 + more.2 - 1 < j + 1 + more.2 by omega) last
      have before : start ≤ reach length nodes (j + 1 + more.2) := by
        have first := low j le_rfl inside
        have second := ascending.start_stop inside
        have third := ascending.stop_reach closes.opened inside
        exact UInt64.le_trans first (UInt64.le_trans second third)
      have stretched : runsTo length more.1 start (later.drop more.2) =
          reach length nodes (j + 1 + more.2) := by
        rw [dropped, ends]
        cases beyond : nodes.drop (j + 1 + more.2) with
        | nil =>
          have whole := List.drop_eq_nil_iff.mp beyond
          have reached : reach length nodes (j + 1 + more.2) = length := by
            rw [reach, if_neg (by omega)]
          rw [reached] at after before
          rw [runsTo, max_of_ge after, max_of_ge before, reached]
        | cons next _ =>
          have more' : j + 1 + more.2 < nodes.length := by
            rw [← List.drop_eq_nil_iff.not.trans Nat.not_le, beyond]
            exact List.cons_ne_nil _ _
          have nextHere : nodes[j + 1 + more.2]? = some next := by
            rw [← List.head?_drop, beyond]
            rfl
          have reached : reach length nodes (j + 1 + more.2) = next.start := by
            rw [reach, if_pos more', start_at nextHere]
          rw [reached] at after before
          rw [runsTo, max_of_ge after, max_of_ge before, reached]
      rw [stretched] at grouped
      split at grouped
      · cases grouped
      · split at grouped
        · cases grouped
        · rename_i rests found
          cases grouped
          rw [dropped] at found
          refine Cut.part closes (ih (by omega) ?_ found)
          intro i after before
          rw [reach, if_pos (by omega)]
          exact ascending.start_start after before

theorem group_cut (ascending : Ascending length nodes) {budget : Budget}
    {parts : List PartPlan} (grouped : group nodes policy length budget = .ok parts) :
    Cut policy length nodes 0 0 parts :=
  group_from_cut ascending nodes.length (by omega) (fun _ _ _ => UInt64.zero_le) grouped

/-! What holds of the parts the nodes determine. -/

namespace Cut
variable {j : Nat} {start : UInt64} {parts : List PartPlan}

/-- A part opens where its first node does, and closes by the size rule. -/
theorem mem (cut : Cut policy length nodes j start parts) (opened : Opens policy nodes j)
    (begins : start = place nodes j) : ∀ p ∈ parts, Opens policy nodes p.first ∧
      Closes policy nodes p.first p.last ∧
      p.range = ⟨place nodes p.first, reach length nodes p.last⟩ := by
  induction cut with
  | done none' => exact fun p mem => nomatch mem
  | @part j k start parts closes later ih =>
    refine List.forall_mem_cons.mpr ⟨⟨opened, closes, by rw [begins]⟩, ?_⟩
    cases later with
    | done none' => exact fun p mem => nomatch mem
    | part closes' later' =>
      have more : k < nodes.length := lt_of_lt_of_le closes'.opened closes'.within
      exact ih (opened.next closes more) (reach_place more (by have := closes.opened; omega))

/-- No part is before node `j`. -/
theorem first_le (cut : Cut policy length nodes j start parts) : ∀ p ∈ parts, j ≤ p.first := by
  induction cut with
  | done none' => exact fun p mem => nomatch mem
  | part closes later ih =>
    have opened := closes.opened
    exact List.forall_mem_cons.mpr ⟨le_rfl, fun p mem => (ih p mem).trans' opened.le⟩

theorem pairwise (cut : Cut policy length nodes j start parts) :
    parts.Pairwise (fun p q => p.last ≤ q.first) := by
  induction cut with
  | done none' => exact List.Pairwise.nil
  | part closes later ih => exact List.pairwise_cons.mpr ⟨fun q mem => later.first_le q mem, ih⟩

theorem head (cut : Cut policy length nodes j start parts) (more : j < nodes.length) :
    parts.head?.map (fun p => p.range.start) = some start := by
  cases cut with
  | done none' => omega
  | part closes later => rfl

theorem isChain (cut : Cut policy length nodes j start parts) :
    parts.IsChain (fun p q => p.range.stop = q.range.start) := by
  induction cut with
  | done none' => exact List.IsChain.nil
  | part closes later ih =>
    cases later with
    | done none' => exact List.IsChain.singleton _
    | part closes' later' => exact List.IsChain.cons_cons rfl ih

theorem last (cut : Cut policy length nodes j start parts) (more : j < nodes.length) :
    parts.getLast?.map (fun p => p.range.stop) = some length := by
  induction cut with
  | done none' => omega
  | @part j k start parts closes later ih =>
    cases later with
    | done none' => simp [reach, show ¬ k < nodes.length by omega]
    | part closes' later' =>
      rw [List.getLast?_cons_cons]
      exact ih (lt_of_lt_of_le closes'.opened closes'.within)

/-- Each node from `j` on is in a part. -/
theorem owned (cut : Cut policy length nodes j start parts) {i : Nat} (after : j ≤ i)
    (inside : i < nodes.length) : ∃ p ∈ parts, p.first ≤ i ∧ i < p.last := by
  induction cut with
  | done none' => omega
  | @part j k start parts closes later ih =>
    by_cases before : i < k
    · exact ⟨_, List.mem_cons_self, after, before⟩
    · obtain ⟨p, mem, held⟩ := ih (by omega)
      exact ⟨p, List.mem_cons_of_mem _ mem, held⟩

/-- A part that is not the last leaves a node. -/
theorem last_lt (cut : Cut policy length nodes j start parts) :
    ∀ p ∈ parts.dropLast, p.last < nodes.length := by
  induction cut with
  | done none' => exact fun p mem => nomatch mem
  | part closes later ih =>
    cases later with
    | done none' => exact fun p mem => nomatch mem
    | part closes' later' =>
      rw [List.dropLast_cons_cons]
      exact List.forall_mem_cons.mpr ⟨lt_of_lt_of_le closes'.opened closes'.within, ih⟩

/-- A part opens at every node that opens one. -/
theorem opens (cut : Cut policy length nodes 0 0 parts) (some' : nodes ≠ []) {i : Nat}
    (opened : Opens policy nodes i) : ∃ p ∈ parts, p.first = i := by
  have following : ∀ {j : Nat} {start : UInt64} {parts : List PartPlan},
      Cut policy length nodes j start parts → ∀ p ∈ parts, p.last < nodes.length →
      ∃ q ∈ parts, q.first = p.last := by
    intro j start parts cut
    induction cut with
    | done none' => exact fun p mem => nomatch mem
    | @part j k start parts closes later ih =>
      refine List.forall_mem_cons.mpr ⟨fun more => ?_, fun p mem more => ?_⟩
      · cases later with
        | done none' => exact absurd more (by simpa using none')
        | part closes' later' => exact ⟨_, List.mem_cons_of_mem _ List.mem_cons_self, rfl⟩
      · obtain ⟨q, held, same⟩ := ih p mem more
        exact ⟨q, List.mem_cons_of_mem _ held, same⟩
  induction opened with
  | first =>
    cases cut with
    | done none' => exact absurd (List.length_eq_zero_iff.mp (Nat.le_zero.mp none')) some'
    | part closes later => exact ⟨_, List.mem_cons_self, rfl⟩
  | next opened' closes more ih =>
    obtain ⟨p, held, rfl⟩ := ih
    have ends := (cut.mem Opens.first rfl p held).2.1
    obtain rfl := closes_unique closes ends
    exact following cut p held more

end Cut

/-- A row is in a range. -/
def Lies (row : Segment) (range : ByteRange) : Prop :=
  range.start ≤ row.start ∧ row.start ≤ row.stop ∧ row.stop ≤ range.stop

/-- The marks of a row are spans of it. -/
def Spoken (row : Segment) : Prop := ∀ mark ∈ row.reported,
  row.start ≤ mark.start ∧ mark.start ≤ mark.stop ∧ mark.stop ≤ row.stop

/-- A part's row and its marks are inside so many bytes. -/
structure Within (row : Segment) (len : UInt64) : Prop where
  forward : row.start ≤ row.stop
  inside : row.stop ≤ len
  marks : ∀ mark ∈ row.reported, mark.start ≤ mark.stop ∧ mark.stop ≤ len

variable {rows : List Segment} {parts : List PartPlan}

/-- Exactly one of the list, by its place, is so. -/
def One {α : Type} (xs : List α) (P : α → Prop) : Prop := ∃! k : Nat, ∃ x, xs[k]? = some x ∧ P x

/-- The parts partition the text, its nodes, and the rows that lie in them. -/
structure Partitioned (policy : Policy) (length : UInt64) (nodes : List ByteRange)
    (rows : List Segment) (parts : List PartPlan) : Prop where
  begins : parts.head?.map (fun p => p.range.start) = some 0
  ends : parts.getLast?.map (fun p => p.range.stop) = some length
  joined : parts.IsChain (fun p q => p.range.stop = q.range.start)
  filled : ∀ p ∈ parts, p.range.start < p.range.stop
  owned : ∀ i < nodes.length, One parts (fun p => p.first ≤ i ∧ i < p.last)
  inside : ∀ p ∈ parts, ∀ i node, p.first ≤ i → i < p.last → nodes[i]? = some node →
    p.range.start ≤ node.start ∧ node.stop ≤ p.range.stop
  small : ∀ p ∈ parts, p.first + 1 < p.last →
    saturatingSub (stopAt nodes (p.last - 1)) (startAt nodes p.first) ≤ policy.targetMax
  large : ∀ p ∈ parts.dropLast,
    policy.targetMin ≤ saturatingSub (stopAt nodes (p.last - 1)) (startAt nodes p.first) ∨
      policy.targetMax < saturatingSub (stopAt nodes p.last) (startAt nodes p.first)
  rows : ∀ row ∈ rows, ∀ p ∈ parts, Lies row p.range →
    Within (localRow p.range row) p.range.len ∧
    One parts (fun q => localRow q.range row ∈ localRows rows q.range)

/-- No part opens where the next one does or at the text's end, as one of empty nodes would,
and no row is empty where a part opens. -/
structure Clean (policy : Policy) (length : UInt64) (nodes : List ByteRange)
    (rows : List Segment) : Prop where
  apart : ∀ j k, Opens policy nodes j → Closes policy nodes j k →
    place nodes j ≠ reach length nodes k
  whole : ∀ row ∈ rows, row.start = row.stop → ∀ j, Opens policy nodes j → 0 < j →
    j < nodes.length → row.start ≠ startAt nodes j

/-- What one of a list holds and no two do is at one place of it. -/
theorem one_of_apart {α : Type} {xs : List α} {P : α → Prop} {x : α} (mem : x ∈ xs) (held : P x)
    (apart : xs.Pairwise (fun a b => P a → ¬ P b)) : One xs P := by
  obtain ⟨k, here⟩ := List.mem_iff_getElem?.mp mem
  refine ⟨k, ⟨x, here, held⟩, ?_⟩
  rintro i ⟨y, there, heldY⟩
  obtain ⟨inside, rfl⟩ := List.getElem?_eq_some_iff.mp here
  obtain ⟨inside', rfl⟩ := List.getElem?_eq_some_iff.mp there
  rcases Nat.lt_trichotomy i k with less | same | less
  · exact absurd held (List.pairwise_iff_getElem.mp apart i k inside' inside less heldY)
  · exact same
  · exact absurd heldY (List.pairwise_iff_getElem.mp apart k i inside inside' less held)

theorem One.same {α : Type} {xs : List α} {P : α → Prop} (one : One xs P) {x y : α}
    (memX : x ∈ xs) (memY : y ∈ xs) (heldX : P x) (heldY : P y) : x = y := by
  obtain ⟨i, hereX⟩ := List.mem_iff_getElem?.mp memX
  obtain ⟨k, hereY⟩ := List.mem_iff_getElem?.mp memY
  obtain rfl := one.unique ⟨x, hereX, heldX⟩ ⟨y, hereY, heldY⟩
  exact Option.some.inj (hereX.symm.trans hereY)

/-- A row is returned for the ranges it is in. -/
theorem local_row_mem (range : ByteRange) {row : Segment} (mem : row ∈ rows) :
    localRow range row ∈ localRows rows range ↔
      range.start ≤ row.start ∧ row.stop ≤ range.stop := by
  simp only [localRows, List.mem_map, List.mem_filter, decide_eq_true_eq]
  constructor
  · rintro ⟨other, ⟨_, held⟩, same⟩
    have starts : other.start - range.start = row.start - range.start :=
      congrArg Segment.start same
    have stops : other.stop - range.start = row.stop - range.start := congrArg Segment.stop same
    rw [UInt64.sub_left_inj] at starts stops
    rwa [← starts, ← stops]
  · exact fun held => ⟨row, ⟨mem, held⟩, rfl⟩

theorem le_iff (a b : UInt64) : a ≤ b ↔ a.toNat ≤ b.toNat := UInt64.le_iff_toNat_le

theorem local_within {row : Segment} {range : ByteRange} (lies : Lies row range)
    (spoken : Spoken row) : Within (localRow range row) range.len := by
  obtain ⟨low, forward, high⟩ := lies
  have shift : ∀ a : UInt64, range.start ≤ a → (a - range.start).toNat =
      a.toNat - range.start.toNat := fun a le => UInt64.toNat_sub_of_le a range.start le
  have stop := UInt64.le_trans low forward
  refine ⟨?_, ?_, ?_⟩
  · simp only [localRow, le_iff, shift _ low, shift _ stop] at forward ⊢
    omega
  · simp only [localRow, ByteRange.len, le_iff, shift _ stop, to_nat_saturating_sub] at high ⊢
    omega
  · intro mark mem
    obtain ⟨said, held, rfl⟩ := List.mem_map.mp mem
    obtain ⟨after, order, before⟩ := spoken said held
    have first := UInt64.le_trans low after
    have second := UInt64.le_trans first order
    simp only [localMark, ByteRange.len, le_iff, shift _ first, shift _ second,
      to_nat_saturating_sub] at order before high ⊢
    omega

/-- Whatever the size targets and the budget, the parts partition the text exactly when no
part opens where the next does and no row is empty at a cut. -/
theorem group_partitions_iff (policy : Policy) (length : UInt64) (budget : Budget)
    {nodes : List ByteRange} {rows : List Segment} {parts : List PartPlan} (some' : nodes ≠ [])
    (ascending : Ascending length nodes) (spoken : ∀ row ∈ rows, Spoken row)
    (grouped : group nodes policy length budget = .ok parts) :
    Partitioned policy length nodes rows parts ↔ Clean policy length nodes rows := by
  have cut := group_cut ascending grouped
  have known := cut.mem Opens.first rfl
  have more : 0 < nodes.length := List.length_pos_iff.mpr some'
  constructor
  · intro partitioned
    refine ⟨fun j k opened closes => ?_, fun row mem empty j opened positive inside same => ?_⟩
    · obtain ⟨p, held, rfl⟩ := cut.opens some' opened
      obtain ⟨_, ends, range⟩ := known p held
      obtain rfl := closes_unique closes ends
      have filled := partitioned.filled p held
      rw [range] at filled
      exact UInt64.ne_of_lt filled
    · obtain ⟨q, heldQ, firstQ⟩ := cut.opens some' opened
      obtain ⟨_, endsQ, rangeQ⟩ := known q heldQ
      cases opened with
      | first => omega
      | @next i _ opened' closes _ =>
        obtain ⟨p, heldP, firstP⟩ := cut.opens some' opened'
        obtain ⟨_, endsP, rangeP⟩ := known p heldP
        rw [firstP] at endsP rangeP
        rw [firstQ] at endsQ rangeQ
        rw [closes_unique endsP closes, reach_place inside positive] at rangeP
        have at_ : row.start = place nodes j := by rw [same, place, if_neg (by omega)]
        have before := ascending.place_reach closes
        rw [reach_place inside positive] at before
        have after := ascending.place_reach endsQ
        have inP : p.range.start ≤ row.start ∧ row.stop ≤ p.range.stop := by
          rw [rangeP, ← empty, at_]
          exact ⟨before, UInt64.le_refl _⟩
        have inQ : q.range.start ≤ row.start ∧ row.stop ≤ q.range.stop := by
          rw [rangeQ, ← empty, at_]
          exact ⟨UInt64.le_refl _, after⟩
        have forward : row.start ≤ row.stop := by
          rw [empty]
          exact UInt64.le_refl _
        have one := (partitioned.rows row mem p heldP ⟨inP.1, forward, inP.2⟩).2
        have both := one.same heldP heldQ ((local_row_mem _ mem).mpr inP)
          ((local_row_mem _ mem).mpr inQ)
        have less := closes.opened
        rw [← firstP, ← firstQ, both] at less
        exact absurd less (lt_irrefl _)
  · intro clean
    have order : parts.Pairwise (fun p q => p.range.stop ≤ q.range.start) := by
      refine cut.pairwise.imp_of_mem fun {p q} heldP heldQ before => ?_
      obtain ⟨_, endsP, rangeP⟩ := known p heldP
      obtain ⟨_, endsQ, rangeQ⟩ := known q heldQ
      have opened := endsP.opened
      have inside := lt_of_lt_of_le endsQ.opened endsQ.within
      rw [rangeP, rangeQ]
      simp only
      rw [reach_place (by omega) (by omega), place, if_neg (by omega), place, if_neg (by omega)]
      exact ascending.start_start before inside
    refine ⟨cut.head more, cut.last more, cut.isChain, ?_, ?_, ?_, ?_, ?_, ?_⟩
    · intro p held
      obtain ⟨opened, ends, range⟩ := known p held
      rw [range]
      exact UInt64.lt_of_le_of_ne (ascending.place_reach ends) (clean.apart _ _ opened ends)
    · intro i inside
      obtain ⟨p, held, owns⟩ := cut.owned (Nat.zero_le i) inside
      exact one_of_apart held owns (cut.pairwise.imp fun before owned other => by omega)
    · intro p held i node after before here
      obtain ⟨_, ends, range⟩ := known p held
      have inside : i < nodes.length := lt_of_lt_of_le before ends.within
      rw [range, ← start_at here, ← stop_at here]
      exact ⟨ascending.place_start after inside, ascending.stop_reach before inside⟩
    · intro p held several
      have ends := (known p held).2.1
      have taken := ends.takes (p.last - 1) (by omega) (by omega)
      rw [Full, not_or] at taken
      exact UInt64.not_lt.mp taken.2
    · intro p held
      have ends := (known p (List.dropLast_subset _ held)).2.1
      exact ends.full (cut.last_lt p held)
    · intro row mem p held lies
      refine ⟨local_within lies (spoken row mem), ?_⟩
      refine one_of_apart held ((local_row_mem _ mem).mpr ⟨lies.1, lies.2.2⟩) ?_
      refine (cut.pairwise.and order).imp_of_mem fun {a b} heldA heldB before inA inB => ?_
      rw [local_row_mem _ mem] at inA inB
      obtain ⟨opened, ends, range⟩ := known b heldB
      have openedA := (known a heldA).2.1.opened
      have inside := lt_of_lt_of_le ends.opened ends.within
      have positive : 0 < b.first := by omega
      have reached := UInt64.le_trans inA.2 (UInt64.le_trans before.2 inB.1)
      have empty := UInt64.le_antisymm lies.2.1 reached
      refine clean.whole row mem empty b.first opened positive inside ?_
      have at_ : b.range.start = startAt nodes b.first := by
        rw [range, place, if_neg (by omega)]
      rw [← at_]
      refine UInt64.le_antisymm ?_ inB.1
      rw [empty]
      exact UInt64.le_trans inA.2 before.2

/-- A text of two nodes of which the second is empty at its end: the second part is empty. -/
theorem empty_last_part : Ascending 10 [⟨0, 10⟩, ⟨10, 10⟩] ∧
    group [⟨0, 10⟩, ⟨10, 10⟩] ⟨5, 100⟩ 10 ⟨⟨100, 1000⟩, 100, 0, 0⟩ =
      .ok [⟨⟨0, 10⟩, 0, 1⟩, ⟨⟨10, 10⟩, 1, 2⟩] ∧
    ¬ Partitioned ⟨5, 100⟩ 10 [⟨0, 10⟩, ⟨10, 10⟩] []
      [⟨⟨0, 10⟩, 0, 1⟩, ⟨⟨10, 10⟩, 1, 2⟩] := by
  refine ⟨⟨by decide, by decide, by decide⟩, by decide, fun partitioned => ?_⟩
  have filled := partitioned.filled ⟨⟨10, 10⟩, 1, 2⟩ (by decide)
  exact absurd filled (by decide)

/-- A verse of four bytes that are all marked. -/
def spokenVerse : Segment where
  start := 12
  stop := 16
  level := ⟨"verse", verse_shaped⟩
  locator := .line 2
  lang := none
  speaker := none
  observed := none
  ids := ∅
  tzOffset := none
  reported := [⟨12, 16, none, ∅⟩]
  extra := ∅

theorem two_parts_partition :
    Partitioned ⟨5, 100⟩ 20 [⟨0, 10⟩, ⟨11, 20⟩] [spokenVerse]
      [⟨⟨0, 11⟩, 0, 1⟩, ⟨⟨11, 20⟩, 1, 2⟩] ↔
    Clean ⟨5, 100⟩ 20 [⟨0, 10⟩, ⟨11, 20⟩] [spokenVerse] :=
  group_partitions_iff ⟨5, 100⟩ 20 ⟨⟨100, 1000⟩, 100, 0, 0⟩ (by decide)
    ⟨by decide, by decide, by decide⟩ (by simp [Spoken, spokenVerse]) (by decide)

/-! A text that grows. -/

variable {more : List ByteRange}

theorem start_at_append {i : Nat} (inside : i < nodes.length) :
    startAt (nodes ++ more) i = startAt nodes i := by
  rw [startAt, startAt, List.getElem?_append_left inside]

theorem stop_at_append {i : Nat} (inside : i < nodes.length) :
    stopAt (nodes ++ more) i = stopAt nodes i := by
  rw [stopAt, stopAt, List.getElem?_append_left inside]

theorem full_append {j m : Nat} (opened : j < m) (inside : m < nodes.length) :
    Full policy (nodes ++ more) j m ↔ Full policy nodes j m := by
  rw [Full, Full, start_at_append (opened.trans inside), stop_at_append inside,
    stop_at_append (show m - 1 < nodes.length by omega)]

/-- A part that leaves a node closes at the same one when there are more. -/
theorem Closes.append {j k : Nat} (closes : Closes policy nodes j k) (inside : k < nodes.length) :
    Closes policy (nodes ++ more) j k := by
  refine ⟨closes.opened, ?_, fun m after before => ?_, fun _ => ?_⟩
  · rw [List.length_append]
    omega
  · rw [full_append after (before.trans inside)]
    exact closes.takes m after before
  · rw [full_append closes.opened inside]
    exact closes.full inside

variable (length) in
theorem reach_append {length' : UInt64} {k : Nat} (inside : k < nodes.length) :
    reach length' (nodes ++ more) k = reach length nodes k := by
  rw [reach, reach, if_pos inside, if_pos (by rw [List.length_append]; omega),
    start_at_append inside]

theorem Cut.grows {length' : UInt64} {j : Nat} {start : UInt64} {parts parts' : List PartPlan}
    (cut : Cut policy length nodes j start parts)
    (grown : Cut policy length' (nodes ++ more) j start parts') : parts.dropLast <+: parts' := by
  induction cut generalizing parts' with
  | done none' => exact List.nil_prefix
  | @part j k start parts closes later ih =>
    cases later with
    | done none' => exact List.nil_prefix
    | part closes' later' =>
      have inside : k < nodes.length := lt_of_lt_of_le closes'.opened closes'.within
      rw [List.dropLast_cons_cons]
      cases grown with
      | done none' =>
        have opened := closes.opened
        rw [List.length_append] at none'
        omega
      | part closesG laterG =>
        obtain rfl := closes_unique closesG (closes.append inside)
        rw [reach_append length inside] at laterG ⊢
        exact List.cons_prefix_cons.mpr ⟨rfl, ih laterG⟩

/-- When nodes are added, every part but the last stays as it was, and where it was. -/
theorem group_grows (policy : Policy) {length length' : UInt64} {budget budget' : Budget}
    {nodes more : List ByteRange} {parts parts' : List PartPlan}
    (ascending : Ascending length nodes) (ascending' : Ascending length' (nodes ++ more))
    (grouped : group nodes policy length budget = .ok parts)
    (grown : group (nodes ++ more) policy length' budget' = .ok parts') :
    parts.dropLast <+: parts' :=
  (group_cut ascending grouped).grows (group_cut ascending' grown)

theorem two_parts_grow : [⟨⟨0, 11⟩, 0, 1⟩] <+:
    ([⟨⟨0, 11⟩, 0, 1⟩, ⟨⟨11, 30⟩, 1, 3⟩] : List PartPlan) := by
  have ascending : Ascending 20 [⟨0, 10⟩, ⟨11, 20⟩] := ⟨by decide, by decide, by decide⟩
  have ascending' : Ascending 30 ([⟨0, 10⟩, ⟨11, 20⟩] ++ [⟨21, 30⟩]) :=
    ⟨by decide, by decide, by decide⟩
  have grouped : group [⟨0, 10⟩, ⟨11, 20⟩] ⟨10, 100⟩ 20 ⟨⟨100, 1000⟩, 100, 0, 0⟩ =
      .ok [⟨⟨0, 11⟩, 0, 1⟩, ⟨⟨11, 20⟩, 1, 2⟩] := by decide
  have grown : group ([⟨0, 10⟩, ⟨11, 20⟩] ++ [⟨21, 30⟩]) ⟨10, 100⟩ 30
      ⟨⟨100, 1000⟩, 100, 0, 0⟩ = .ok [⟨⟨0, 11⟩, 0, 1⟩, ⟨⟨11, 30⟩, 1, 3⟩] := by decide
  exact group_grows ⟨10, 100⟩ ascending ascending' grouped grown

end Parts
end Smysl
