import Smysl.Text.Ranges

/-!
A range table answers what a scan of its rows answers, after any sequence of
updates, and no index in it is out of bounds.
-/
namespace Smysl

/-! The tree. -/

theorem before_later (w a b : Bound) :
    before w (a.later b) = (before w a || before w b) := by
  cases w <;> cases a <;> cases b <;> simp [before, Bound.later]

/-- What the tree holds for the rows from `lo` to `hi` at a node. -/
inductive Filled (rows : List RangeRow) (tree : List Bound) : Nat → Nat → Nat → Bound → Prop
  | leaf {node lo : Nat} {r : RangeRow} (row : rows[lo]? = some r)
    (here : tree[node]? = some r.hi) : Filled rows tree node lo (lo + 1) r.hi
  | branch {node lo hi : Nat} {a b : Bound} (wide : 2 ≤ hi - lo)
    (left : Filled rows tree (node * 2) lo (lo + (hi - lo) / 2) a)
    (right : Filled rows tree (node * 2 + 1) (lo + (hi - lo) / 2) hi b)
    (here : tree[node]? = some (a.later b)) : Filled rows tree node lo hi (a.later b)

/-- The indices of the nodes below a node, itself included. -/
def Under (node i : Nat) : Prop := ∃ k, i / 2 ^ k = node

theorem under_self (node : Nat) : Under node node := ⟨0, by simp⟩

theorem under_left {node i : Nat} (below : Under (node * 2) i) : Under node i := by
  obtain ⟨k, same⟩ := below
  refine ⟨k + 1, ?_⟩
  rw [pow_succ, ← Nat.div_div_eq_div_mul, same]
  omega

theorem under_right {node i : Nat} (below : Under (node * 2 + 1) i) : Under node i := by
  obtain ⟨k, same⟩ := below
  refine ⟨k + 1, ?_⟩
  rw [pow_succ, ← Nat.div_div_eq_div_mul, same]
  omega

/-- An index is not below its own children. -/
theorem under_le {node i : Nat} (below : Under node i) : node ≤ i := by
  obtain ⟨k, same⟩ := below
  rw [← same]
  exact Nat.div_le_self _ _

/-- No index is below both children of a node. -/
theorem under_apart {node i : Nat} (some' : 1 ≤ node) (left : Under (node * 2) i)
    (right : Under (node * 2 + 1) i) : False := by
  obtain ⟨k, here⟩ := left
  obtain ⟨j, there⟩ := right
  rcases Nat.lt_trichotomy k j with less | same | more
  · obtain ⟨d, split⟩ := Nat.exists_eq_add_of_lt less
    rw [split, add_assoc, pow_add, ← Nat.div_div_eq_div_mul, here] at there
    have small : node * 2 / 2 ^ (d + 1) ≤ node * 2 / 2 := by
      apply Nat.div_le_div_left _ (by norm_num)
      exact Nat.le_self_pow (by omega) 2
    omega
  · rw [same] at here
    omega
  · obtain ⟨d, split⟩ := Nat.exists_eq_add_of_lt more
    rw [split, add_assoc, pow_add, ← Nat.div_div_eq_div_mul, there] at here
    have small : (node * 2 + 1) / 2 ^ (d + 1) ≤ (node * 2 + 1) / 2 := by
      apply Nat.div_le_div_left _ (by norm_num)
      exact Nat.le_self_pow (by omega) 2
    omega

theorem filled_frame {rows : List RangeRow} {tree tree' : List Bound} {node lo hi : Nat}
    {b : Bound} (filled : Filled rows tree node lo hi b)
    (same : ∀ i, Under node i → tree'[i]? = tree[i]?) : Filled rows tree' node lo hi b := by
  induction filled with
  | leaf row here => exact .leaf row ((same _ (under_self _)).trans here)
  | branch wide _ _ here left right =>
    refine .branch wide (left fun i below => same i (under_left below))
      (right fun i below => same i (under_right below)) ((same _ (under_self _)).trans here)

/-- What filling a node does: it stays in bounds, writes what the rows say, and leaves
every node that is not below it. -/
structure FillSpec (rows : List RangeRow) (tree : List Bound) (node lo hi : Nat)
    (tree' : List Bound) (b : Bound) : Prop where
  length : tree'.length = tree.length
  filled : Filled rows tree' node lo hi b
  frame : ∀ i, ¬ Under node i → tree'[i]? = tree[i]?

theorem fill_spec {rows : List RangeRow} {depth : Nat} {tree : List Bound} {node lo hi : Nat}
    (some' : 1 ≤ node) (wide : lo < hi) (inside : hi ≤ rows.length) (narrow : hi - lo ≤ 2 ^ depth)
    (fits : (node + 1) * 2 ^ depth ≤ tree.length) :
    ∃ tree' b, fill rows tree node lo hi = some (tree', b) ∧
      FillSpec rows tree node lo hi tree' b := by
  induction depth generalizing tree node lo hi with
  | zero =>
    have one : hi = lo + 1 := by
      rw [pow_zero] at narrow
      omega
    subst one
    have row : rows[lo]? = some rows[lo] := List.getElem?_eq_getElem (by omega)
    have place : node < tree.length := by
      rw [pow_zero] at fits
      omega
    rw [fill, if_pos (by omega), row]
    dsimp only
    rw [if_pos place]
    refine ⟨_, _, rfl, List.length_set, .leaf row ?_, fun i other => ?_⟩
    · rw [List.getElem?_set_self place]
    · rw [List.getElem?_set_ne]
      intro same
      exact other (same ▸ under_self node)
  | succ depth ih =>
    by_cases single : hi - lo ≤ 1
    · have one : hi = lo + 1 := by omega
      subst one
      have row : rows[lo]? = some rows[lo] := List.getElem?_eq_getElem (by omega)
      have place : node < tree.length := by
        have : 1 ≤ 2 ^ (depth + 1) := Nat.one_le_two_pow
        nlinarith
      rw [fill, if_pos single, row]
      dsimp only
      rw [if_pos place]
      refine ⟨_, _, rfl, List.length_set, .leaf row ?_, fun i other => ?_⟩
      · rw [List.getElem?_set_self place]
      · rw [List.getElem?_set_ne]
        intro same
        exact other (same ▸ under_self node)
    · have power : 2 ^ (depth + 1) = 2 * 2 ^ depth := by rw [pow_succ, mul_comm]
      have one : 1 ≤ 2 ^ depth := Nat.one_le_two_pow
      rw [power] at narrow fits
      obtain ⟨first, a, runLeft, left⟩ := @ih tree (node * 2) lo (lo + (hi - lo) / 2)
        (by omega) (by omega) (by omega) (by omega) (by nlinarith)
      obtain ⟨second, b, runRight, right⟩ := @ih first (node * 2 + 1) (lo + (hi - lo) / 2) hi
        (by omega) (by omega) inside (by omega) (by
          rw [left.length]
          nlinarith)
      have place : node < second.length := by
        rw [right.length, left.length]
        nlinarith
      rw [fill, if_neg single]
      dsimp only
      rw [runLeft]
      dsimp only
      rw [runRight]
      dsimp only
      rw [if_pos place]
      refine ⟨_, _, rfl, ?_, .branch (by omega) ?_ ?_ ?_, fun i other => ?_⟩
      · rw [List.length_set, right.length, left.length]
      · apply filled_frame left.filled
        intro i below
        have above : i ≠ node := by
          intro same
          have := under_le below
          omega
        rw [List.getElem?_set_ne above.symm]
        exact right.frame i fun both => under_apart some' below both
      · apply filled_frame right.filled
        intro i below
        have above : i ≠ node := by
          intro same
          have := under_le below
          omega
        rw [List.getElem?_set_ne above.symm]
      · rw [List.getElem?_set_self place]
      · have apart : i ≠ node := by
          intro same
          exact other (same ▸ under_self node)
        rw [List.getElem?_set_ne apart.symm, right.frame i fun below => other (under_right below),
          left.frame i fun below => other (under_left below)]

theorem build_tree_filled (rows : List RangeRow) :
    ∃ tree, buildTree rows = some tree ∧
      (rows ≠ [] → ∃ b, Filled rows tree 1 0 rows.length b) := by
  by_cases none' : rows = []
  · subst none'
    exact ⟨[], rfl, fun some' => absurd rfl some'⟩
  · have some' : 0 < rows.length := List.length_pos_of_ne_nil none'
    have room : (1 + 1) * 2 ^ Nat.clog 2 rows.length ≤
        (List.replicate (4 * rows.length) (Bound.instant (-2 ^ 63))).length := by
      rw [List.length_replicate]
      by_cases one : rows.length = 1
      · rw [one]
        decide
      · have less := Nat.pow_pred_clog_lt_self (show 1 < 2 by norm_num) (show 1 < rows.length by omega)
        have positive : 0 < Nat.clog 2 rows.length :=
          Nat.clog_pos (by norm_num) (by omega)
        obtain ⟨d, same⟩ := Nat.exists_eq_succ_of_ne_zero positive.ne'
        rw [same] at less ⊢
        rw [Nat.pred_succ] at less
        rw [Nat.succ_eq_add_one, pow_succ]
        omega
    obtain ⟨tree, b, run, spec⟩ := @fill_spec rows (Nat.clog 2 rows.length)
      (List.replicate (4 * rows.length) (Bound.instant (-2 ^ 63))) 1 0 rows.length
      (le_refl 1) some' (le_refl _) (by
        rw [Nat.sub_zero]
        exact Nat.le_pow_clog (by norm_num) _) room
    refine ⟨tree, ?_, fun _ => ⟨b, spec.filled⟩⟩
    rw [buildTree, if_neg (by rw [List.isEmpty_iff]; exact none'), run]
    rfl

/-! The descent. -/

/-- The rows from `lo` to `hi`. -/
def between (rows : List RangeRow) (lo hi : Nat) : List RangeRow := (rows.take hi).drop lo

theorem drop_split {α : Type} (l : List α) {lo mid : Nat} (le : lo ≤ mid) :
    l.drop lo = (l.take mid).drop lo ++ l.drop mid := by
  have parts := List.take_append_drop mid l
  conv_lhs => rw [← parts]
  rw [List.drop_append]
  by_cases short : l.length ≤ mid
  · rw [List.drop_eq_nil_of_le short, List.drop_nil]
  · have long : (l.take mid).length = mid := by
      rw [List.length_take]
      omega
    have none' : lo - (l.take mid).length = 0 := by omega
    rw [none', List.drop_zero]

theorem between_split (rows : List RangeRow) {lo mid hi : Nat} (first : lo ≤ mid)
    (second : mid ≤ hi) : between rows lo hi = between rows lo mid ++ between rows mid hi := by
  rw [between, between, between, drop_split (rows.take hi) first, List.take_take,
    min_eq_left second]

theorem between_one {rows : List RangeRow} {lo : Nat} {r : RangeRow}
    (row : rows[lo]? = some r) : between rows lo (lo + 1) = [r] := by
  obtain ⟨inside, here⟩ := List.getElem?_eq_some_iff.mp row
  rw [between, List.take_succ_eq_append_getElem inside, List.drop_append_of_le_length (by
    rw [List.length_take]
    omega), List.drop_eq_nil_of_le (by
    rw [List.length_take]
    omega), here, List.nil_append]

theorem between_take_sublist (rows : List RangeRow) (limit lo hi : Nat) :
    (between (rows.take limit) lo hi).Sublist (between rows lo hi) := by
  rw [between, between, List.take_take, Nat.min_comm, ← List.take_take]
  exact (List.take_sublist limit (rows.take hi)).drop lo

theorem between_past {rows : List RangeRow} {limit lo : Nat} (past : limit ≤ lo) (hi : Nat) :
    between (rows.take limit) lo hi = [] := by
  rw [between, List.drop_eq_nil_iff, List.length_take, List.length_take]
  omega

theorem filled_wide {rows : List RangeRow} {tree : List Bound} {node lo hi : Nat} {b : Bound}
    (filled : Filled rows tree node lo hi b) : lo < hi ∧ tree[node]? = some b := by
  cases filled with
  | leaf row here => exact ⟨Nat.lt_succ_self lo, here⟩
  | branch wide _ _ here => exact ⟨by omega, here⟩

/-- A window that starts after the bound at a node starts after every row under it. -/
theorem filled_prunes {rows : List RangeRow} {tree : List Bound} {node lo hi : Nat} {b w : Bound}
    (filled : Filled rows tree node lo hi b) (after : before w b = false) :
    ∀ r ∈ between rows lo hi, before w r.hi = false := by
  induction filled with
  | leaf row _ =>
    intro r mem
    rw [between_one row, List.mem_singleton] at mem
    rw [mem]
    exact after
  | @branch node lo hi a b wide _ _ _ left right =>
    rw [before_later, Bool.or_eq_false_iff] at after
    intro r mem
    rw [between_split rows (Nat.le_add_right lo ((hi - lo) / 2)) (by omega), List.mem_append] at mem
    rcases mem with mem | mem
    · exact left after.1 r mem
    · exact right after.2 r mem

/-- The subjects of the rows that overlap the window. -/
def answer (rows : List RangeRow) (window : Interval) : List TimeSubject :=
  (rows.filter (fun r => r.overlaps window)).map (fun r => r.subject)

theorem answer_append (rows rows' : List RangeRow) (window : Interval) :
    answer (rows ++ rows') window = answer rows window ++ answer rows' window := by
  rw [answer, List.filter_append, List.map_append, answer, answer]

theorem answer_none {rows : List RangeRow} {window : Interval}
    (none' : ∀ r ∈ rows, r.overlaps window = false) : answer rows window = [] := by
  rw [answer, List.map_eq_nil_iff, List.filter_eq_nil_iff]
  intro r mem
  rw [none' r mem]
  simp

theorem descend_spec {t : Ranges} {node lo hi : Nat} {b : Bound}
    (filled : Filled t.rows t.maxhi node lo hi b) (limit : Nat) (window : Interval) :
    ∃ visited, t.descend node lo hi limit window =
      some (answer (between (t.rows.take limit) lo hi) window, visited) := by
  induction filled with
  | @leaf node lo r row here =>
    rw [Ranges.descend]
    by_cases past : limit ≤ lo
    · rw [if_pos (Or.inl past), between_past past]
      exact ⟨0, rfl⟩
    · have kept : (t.rows.take limit)[lo]? = some r := by
        rw [List.getElem?_take_of_lt (by omega), row]
      rw [if_neg (by omega), here, between_one kept]
      dsimp only
      by_cases starts : before window.lo r.hi = true
      · rw [if_neg (by rw [starts]; simp), if_pos (by omega), row]
        refine ⟨1, ?_⟩
        dsimp only
        by_cases meets : r.overlaps window = true
        · rw [if_pos meets, answer]
          simp [meets]
        · rw [if_neg meets, answer]
          simp [meets]
      · have never : r.overlaps window = false := by
          rw [RangeRow.overlaps, Bool.eq_false_of_not_eq_true starts, Bool.and_false]
        rw [if_pos (by rw [Bool.eq_false_of_not_eq_true starts]; rfl), answer_none (by
          intro s mem
          rw [List.mem_singleton.mp mem]
          exact never)]
        exact ⟨0, rfl⟩
  | @branch node lo hi a b wide left right here goLeft goRight =>
    rw [Ranges.descend]
    by_cases past : limit ≤ lo
    · rw [if_pos (Or.inl past), between_past past]
      exact ⟨0, rfl⟩
    · rw [if_neg (by omega), here]
      dsimp only
      by_cases starts : before window.lo (a.later b) = true
      · obtain ⟨first, runLeft⟩ := goLeft
        obtain ⟨second, runRight⟩ := goRight
        rw [if_neg (by rw [starts]; simp), if_neg (by omega), runLeft]
        dsimp only
        rw [runRight]
        dsimp only
        have whole := between_split (t.rows.take limit) (Nat.le_add_right lo ((hi - lo) / 2))
          (show lo + (hi - lo) / 2 ≤ hi by omega)
        rw [whole, answer_append]
        exact ⟨first + second, rfl⟩
      · have after := filled_prunes (.branch wide left right here)
          (Bool.eq_false_of_not_eq_true starts)
        rw [if_pos (by rw [Bool.eq_false_of_not_eq_true starts]; rfl), answer_none (by
          intro r mem
          rw [RangeRow.overlaps, after r ((between_take_sublist _ _ _ _).subset mem),
            Bool.and_false])]
        exact ⟨0, rfl⟩

/-! The prefix. -/

theorem before_mono {a b w : Bound} (le : a ≤ b) (starts : before b w = true) :
    before a w = true := by
  cases a with
  | unbounded => rfl
  | instant x =>
    cases b with
    | unbounded =>
      have low : ((x : Int) : WithBot Int) ≤ ⊥ := le
      exact absurd (le_bot_iff.mp low) (WithBot.coe_ne_bot)
    | instant y =>
      have low : ((x : Int) : WithBot Int) ≤ ((y : Int) : WithBot Int) := le
      rw [WithBot.coe_le_coe] at low
      cases w with
      | unbounded => rfl
      | instant z =>
        simp only [before, decide_eq_true_eq] at starts ⊢
        omega

theorem row_lo_le {r s : RangeRow} (le : r ≤ s) : r.lo ≤ s.lo := by
  have low : r.rank ≤ s.rank := le
  rcases Prod.Lex.le_iff.mp low with less | ⟨same, _⟩
  · exact le_of_lt less
  · exact le_of_eq same

/-- In sorted rows, those that start before the window ends come first. -/
theorem late_rows {rows : List RangeRow} (asc : rows.Pairwise (· < ·)) (hi : Bound) :
    ∀ r ∈ rows.dropWhile (fun r => before r.lo hi), before r.lo hi = false := by
  induction rows with
  | nil =>
    intro r mem
    cases mem
  | cons s rows ih =>
    rw [List.dropWhile_cons]
    split
    · exact ih asc.of_cons
    · rename_i late
      intro r mem
      rcases List.mem_cons.mp mem with here | later
      · rw [here]
        exact Bool.eq_false_of_not_eq_true late
      · apply Bool.eq_false_of_not_eq_true
        intro starts
        exact late (before_mono (row_lo_le (le_of_lt (List.rel_of_pairwise_cons asc later))) starts)

namespace Ranges

/-- What a table keeps: its rows ascend, and its tree is theirs. -/
structure WellFormed (t : Ranges) : Prop where
  ascending : t.rows.Pairwise (· < ·)
  tree : t.rows ≠ [] → ∃ b, Filled t.rows t.maxhi 1 0 t.rows.length b

theorem prefix_answer {t : Ranges} (ascending : t.rows.Pairwise (· < ·)) (window : Interval) :
    answer (t.rows.take (t.startingBefore window)) window = answer t.rows window := by
  have parts := @List.takeWhile_append_dropWhile _ (fun r : RangeRow => before r.lo window.hi) t.rows
  have taken : t.rows.take (t.startingBefore window) =
      t.rows.takeWhile (fun r => before r.lo window.hi) := by
    rw [startingBefore]
    conv_lhs => rw [← parts]
    exact List.take_left' (by rw [parts])
  have late : answer (t.rows.dropWhile (fun r => before r.lo window.hi)) window = [] := by
    apply answer_none
    intro r mem
    rw [RangeRow.overlaps, late_rows ascending window.hi r mem, Bool.false_and]
  have whole := answer_append (t.rows.takeWhile (fun r => before r.lo window.hi))
    (t.rows.dropWhile (fun r => before r.lo window.hi)) window
  rw [parts, late, List.append_nil] at whole
  rw [taken, whole]

/-- A table answers with the subjects of its overlapping rows, in row order. -/
theorem during_spec {t : Ranges} (wf : t.WellFormed) (window : Interval) :
    t.during window = some (answer t.rows window) := by
  rw [during, instrumented]
  by_cases none' : t.rows = []
  · rw [if_pos (by rw [none']; rfl), none']
    rfl
  · rw [if_neg (by rw [List.isEmpty_iff]; exact none')]
    dsimp only
    have early := prefix_answer wf.ascending window
    by_cases zero : t.startingBefore window = 0
    · rw [zero, List.take_zero] at early
      rw [if_pos zero, ← early]
      rfl
    · obtain ⟨b, filled⟩ := wf.tree none'
      obtain ⟨visited, run⟩ := descend_spec filled (t.startingBefore window) window
      have whole : between (t.rows.take (t.startingBefore window)) 0 t.rows.length =
          t.rows.take (t.startingBefore window) := by
        rw [between, List.drop_zero, List.take_of_length_le]
        rw [List.length_take]
        exact Nat.min_le_right _ _
      rw [if_neg zero, run, whole, early]
      rfl

/-- One update of a table. -/
structure Splice where
  drop : BTreeSet TimeSubject
  add : List RangeRow
  danglers : Bool

/-- What an update makes of the rows a table stands for. -/
def Splice.rows (u : Splice) (rows : List RangeRow) : List RangeRow :=
  rows.filter (fun r => !u.drop.contains r.subject) ++ u.add

theorem of_spec (rows : List RangeRow) (danglers : Bool) :
    ∃ t, of rows danglers = some t ∧ t.WellFormed ∧
      t.rows = Ascending.sortDedup (rows.filter RangeRow.isDated) := by
  obtain ⟨tree, built, filled⟩ :=
    build_tree_filled (Ascending.sortDedup (rows.filter RangeRow.isDated))
  rw [of, built]
  exact ⟨_, rfl, ⟨Ascending.sort_dedup_ascending _, filled⟩, rfl⟩

/-- An update of a table that stands for some rows stands for the updated rows. -/
theorem spliced_spec {t : Ranges} {rows : List RangeRow}
    (stands : t.rows = Ascending.sortDedup (rows.filter RangeRow.isDated)) (u : Splice) :
    ∃ t', t.spliced u.drop u.add u.danglers = some t' ∧ t'.WellFormed ∧
      t'.rows = Ascending.sortDedup ((u.rows rows).filter RangeRow.isDated) := by
  have ascending : t.rows.Pairwise (· < ·) := by
    rw [stands]
    exact Ascending.sort_dedup_ascending _
  have merged : Ascending.mergeInto [] (t.rows.filter (fun r => !u.drop.contains r.subject))
      (Ascending.sortDedup (u.add.filter RangeRow.isDated)) =
      Ascending.sortDedup ((u.rows rows).filter RangeRow.isDated) := by
    rw [Ascending.merge_eq_sort_dedup (ascending.filter _) (Ascending.sort_dedup_ascending _)]
    apply Ascending.ascending_ext (Ascending.sort_dedup_ascending _)
      (Ascending.sort_dedup_ascending _)
    intro r
    rw [Ascending.mem_sort_dedup, Ascending.mem_sort_dedup, stands, Splice.rows]
    simp only [List.mem_append, List.mem_filter, Ascending.mem_sort_dedup]
    tauto
  obtain ⟨tree, built, filled⟩ :=
    build_tree_filled (Ascending.sortDedup ((u.rows rows).filter RangeRow.isDated))
  rw [spliced, merged, built]
  exact ⟨_, rfl, ⟨Ascending.sort_dedup_ascending _, filled⟩, rfl⟩

/-- The updates, one after the other. -/
def splicedAll (t : Ranges) : List Splice → Option Ranges
  | [] => some t
  | u :: us =>
    match t.spliced u.drop u.add u.danglers with
    | none => none
    | some t => t.splicedAll us

theorem spliced_all_spec {t : Ranges} {rows : List RangeRow} (wf : t.WellFormed)
    (stands : t.rows = Ascending.sortDedup (rows.filter RangeRow.isDated)) (us : List Splice) :
    ∃ t', t.splicedAll us = some t' ∧ t'.WellFormed ∧ t'.rows = Ascending.sortDedup
      ((us.foldl (fun rows u => u.rows rows) rows).filter RangeRow.isDated) := by
  induction us generalizing t rows with
  | nil => exact ⟨t, rfl, wf, stands⟩
  | cons u us ih =>
    obtain ⟨t', run, wf', stands'⟩ := spliced_spec stands u
    rw [splicedAll, run]
    exact ih wf' stands'

theorem sort_dedup_answer (rows : List RangeRow) (window : Interval) :
    Ascending.sortDedup (answer (Ascending.sortDedup rows) window) = scan rows window := by
  apply Ascending.ascending_ext (Ascending.sort_dedup_ascending _)
    (Ascending.sort_dedup_ascending _)
  intro subject
  rw [Ascending.mem_sort_dedup, Ascending.mem_sort_dedup, answer]
  simp only [List.mem_map, List.mem_filter, Ascending.mem_sort_dedup]

/-- After any updates, a table built from rows in any order has the rows of the table
built from the updated rows, and answers each window with exactly the subjects of their
scan; nothing is indexed out of bounds on the way. -/
theorem updated_table_answers_scan (rows : List RangeRow) (danglers : Bool) (us : List Splice) :
    ∃ start t fresh, of rows danglers = some start ∧ start.splicedAll us = some t ∧
      of (us.foldl (fun rows u => u.rows rows) rows) t.danglers = some fresh ∧
      t.rows = fresh.rows ∧
      ∀ window, ∃ out, t.during window = some out ∧ Ascending.sortDedup out =
        scan ((us.foldl (fun rows u => u.rows rows) rows).filter RangeRow.isDated) window := by
  obtain ⟨start, made, wf, stands⟩ := of_spec rows danglers
  obtain ⟨t, run, wf', stands'⟩ := spliced_all_spec wf stands us
  obtain ⟨fresh, made', _, same⟩ :=
    of_spec (us.foldl (fun rows u => u.rows rows) rows) t.danglers
  refine ⟨start, t, fresh, made, run, made', stands'.trans same.symm, fun window => ?_⟩
  refine ⟨_, during_spec wf' window, ?_⟩
  rw [stands', sort_dedup_answer]

end Ranges
end Smysl
