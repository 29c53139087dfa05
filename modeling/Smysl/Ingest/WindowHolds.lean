import Smysl.Ingest.Window

/-!
What windows hold. The nodes at a level are owned once and in order, what a window shows of a
part is the part's, and a window is over its budget only where a piece is, or where it takes
one piece beside the one it carries.
-/
namespace Smysl
open ByteString

namespace TextWindow

theorem of_right {α β : Type} {R : α → β → Prop} {as : List α} {bs : List β}
    (all : List.Forall₂ R as bs) : ∀ b ∈ bs, ∃ a ∈ as, R a b := by
  induction all with
  | nil => exact fun b mem => nomatch mem
  | cons first _ ih =>
    refine List.forall_mem_cons.mpr ⟨⟨_, List.mem_cons_self, first⟩, fun b mem => ?_⟩
    obtain ⟨a, held, here⟩ := ih b mem
    exact ⟨a, List.mem_cons_of_mem _ held, here⟩

/-! A text and the pieces laid in it. -/

/-- What a window shows at a node. -/
def shown (w : TextWindow) (n : Placed) : Bytes :=
  (w.text.drop n.at_.start).take (n.at_.stop - n.at_.start)

/-- The pieces are in the text, each at its node's range, and the ranges are apart. -/
structure Laid (pieces : List Piece) (w : Bytes × List Placed) : Prop where
  each : List.Forall₂ (fun p n => n.origin = p.origin ∧ n.at_.stop = n.at_.start + p.text.length ∧
    n.at_.stop ≤ w.1.length ∧ (w.1.drop n.at_.start).take p.text.length = p.text) pieces w.2
  apart : w.2.Pairwise (fun a b => a.at_.stop < b.at_.start)

theorem laid_start : Laid [] ([], []) := ⟨.nil, .nil⟩

theorem laid_push {pieces : List Piece} {w : Bytes × List Placed} (laid : Laid pieces w)
    (p : Piece) : Laid (pieces ++ [p]) (push w p) := by
  obtain ⟨text, nodes⟩ := w
  obtain ⟨each, apart⟩ := laid
  let before := if nodes.isEmpty then text else text ++ join
  have longer : text.length ≤ before.length := by
    dsimp only [before]
    split
    · exact le_rfl
    · rw [List.length_append]
      omega
  have kept : ∃ more, before = text ++ more := by
    dsimp only [before]
    split
    · exact ⟨[], (List.append_nil _).symm⟩
    · exact ⟨join, rfl⟩
  have beyond : nodes ≠ [] → text.length < before.length := by
    intro some_
    dsimp only [before]
    rw [if_neg (by rwa [List.isEmpty_iff]), List.length_append, join, List.length_singleton]
    omega
  obtain ⟨more, same⟩ := kept
  have placed : push (text, nodes) p =
      (before ++ p.text, nodes ++ [⟨p.origin, before.length, before.length + p.text.length⟩]) := rfl
  rw [placed]
  constructor
  · refine List.rel_append ?_ (.cons ⟨rfl, rfl, ?_, ?_⟩ .nil)
    · refine each.imp fun q n held => ?_
      obtain ⟨origin, stop, inside, here⟩ := held
      dsimp only at inside here ⊢
      refine ⟨origin, stop, by rw [List.length_append]; omega, ?_⟩
      rw [same, List.append_assoc, List.drop_append_of_le_length (by omega),
        List.take_append_of_le_length (by rw [List.length_drop]; omega), here]
    · rw [List.length_append]
    · dsimp only
      rw [List.drop_left, List.take_length]
  · refine List.pairwise_append.mpr ⟨apart, List.pairwise_singleton _ _, fun n mem m same => ?_⟩
    rw [List.mem_singleton.mp same]
    obtain ⟨q, _, held⟩ := of_right each n mem
    have room := beyond (List.ne_nil_of_mem mem)
    have inside := held.2.2.1
    dsimp only at inside ⊢
    omega

theorem laid_all (pieces : List Piece) : Laid pieces (pieces.foldl push ([], [])) := by
  induction pieces using List.reverseRecOn with
  | nil => exact laid_start
  | append_singleton pieces p ih =>
    rw [List.foldl_append]
    exact laid_push ih p

/-- What a laid text has at each node, and where a place in it comes from. -/
theorem laid_node {pieces : List Piece} {w : TextWindow} (laid : Laid pieces (w.text, w.nodes))
    {n : Placed} (mem : n ∈ w.nodes) : ∃ p ∈ pieces, n.origin = p.origin ∧
      n.at_.stop = n.at_.start + p.text.length ∧ w.shown n = p.text ∧
        ∀ i, n.at_.contains i = true →
          w.map i = some (n.origin.tid, n.origin.part.start + (i - n.at_.start)) := by
  obtain ⟨p, held, origin, stop, _, here⟩ := of_right laid.each n mem
  refine ⟨p, held, origin, stop, ?_, fun i inside => ?_⟩
  · rw [shown, show n.at_.stop - n.at_.start = p.text.length by omega]
    exact here
  · have first : w.nodeAt i = some n := by
      obtain ⟨pre, post, split⟩ := List.append_of_mem mem
      have apart := laid.apart
      dsimp only at apart
      rw [split] at apart
      have earlier := (List.pairwise_append.mp apart).2.2
      rw [nodeAt, split, List.find?_append, List.find?_eq_none.mpr, Option.none_or,
        List.find?_cons, inside]
      intro m before within
      have step := earlier m before n List.mem_cons_self
      rw [Range.contains, Bool.and_eq_true, decide_eq_true_eq, decide_eq_true_eq] at within inside
      omega
    have whole : n.intoPart i = some (n.origin.part.start + (i - n.at_.start)) := by
      rw [Placed.intoPart, inside]
      rfl
    rw [map, first, Option.bind_eq_bind, Option.bind_some, whole]
    rfl

/-! One node's pieces. -/

/-- Ranges one after another, none empty, from one place to another. -/
def Partition : ℕ → ℕ → List Piece → Prop
  | a, b, [] => a = b
  | a, b, p :: ps =>
    p.origin.part.start = a ∧ a < p.origin.part.stop ∧ Partition p.origin.part.stop b ps

theorem partition_snoc {a b c : ℕ} {ps : List Piece} (parts : Partition a b ps) {p : Piece}
    (start : p.origin.part.start = b) (stop : p.origin.part.stop = c) (some_ : b < c) :
    Partition a c (ps ++ [p]) := by
  induction ps generalizing a with
  | nil =>
    obtain rfl : a = b := parts
    exact ⟨start, stop ▸ some_, stop⟩
  | cons q ps ih => exact ⟨parts.1, parts.2.1, ih parts.2.2⟩

/-- Ranges of sentences in document order, none empty, within the text. -/
structure Segmented (text : Bytes) (found : List Range) : Prop where
  ordered : found.Pairwise (fun r s => r.stop ≤ s.start)
  each : ∀ r ∈ found, r.start < r.stop ∧ r.stop ≤ text.length

variable (count : Bytes → ℕ)

/-- What a sentence of a text counts. -/
def countOf (text : Bytes) (s : Range) : ℕ := count ((text.drop s.start).take (s.stop - s.start))

/-- Sentences that fit, or of which one alone counts anything. -/
def Few (budget : ℕ) (text : Bytes) (group : List Range) : Prop :=
  (group.map (countOf count text)).sum ≤ budget ∨
    (group.filter (fun s => 0 < countOf count text s)).length ≤ 1

/-- A piece of a node: the same place, fewer bytes, and the sentences that begin in it. -/
structure PieceOf (budget : ℕ) (node : Piece) (group : List Range) (p : Piece) : Prop where
  tid : p.origin.tid = node.origin.tid
  row : p.origin.row = node.origin.row
  locator : p.origin.locator = node.origin.locator
  split : p.origin.split = true
  inside : node.origin.part.start ≤ p.origin.part.start ∧
    p.origin.part.stop ≤ node.origin.part.start + node.text.length
  text : p.text = (node.text.drop (p.origin.part.start - node.origin.part.start)).take
    (p.origin.part.stop - p.origin.part.start)
  tokens : p.tokens = count p.text
  within : ∀ s ∈ group, p.origin.part.start ≤ node.origin.part.start + s.start ∧
    node.origin.part.start + s.stop ≤ p.origin.part.stop
  few : Few count budget node.text group

/-- What has been cut off so far, and the sentences of the piece being made. -/
structure Cuts (budget : ℕ) (node : Piece) (done : List Range) (c : Cutting) : Prop where
  groups : ∃ groups last, done = groups.flatten ++ last ∧
    List.Forall₂ (PieceOf count budget node) groups c.out ∧
    (∀ s ∈ last, c.start ≤ s.start) ∧ c.tokens = (last.map (countOf count node.text)).sum ∧
    Few count budget node.text last ∧ (last = [] → done = [] ∧ c.start = 0)
  parts : Partition node.origin.part.start (node.origin.part.start + c.start) c.out

variable {count} {budget : ℕ} {node : Piece}

theorem piece_of_holds {group : List Range} {from_ to_ : ℕ} (inside : to_ ≤ node.text.length) (within : ∀ s ∈ group, from_ ≤ s.start ∧ s.stop ≤ to_)
    (few : Few count budget node.text group) :
    PieceOf count budget node group (pieceOf count node from_ to_) where
  tid := rfl
  row := rfl
  locator := rfl
  split := rfl
  inside := ⟨Nat.le_add_right _ _, Nat.add_le_add_left inside _⟩
  text := by
    rw [pieceOf]
    dsimp only
    rw [Nat.add_sub_cancel_left, Nat.add_sub_add_left]
  tokens := rfl
  within := fun s mem => by
    obtain ⟨first, last⟩ := within s mem
    rw [pieceOf]
    exact ⟨Nat.add_le_add_left first _, Nat.add_le_add_left last _⟩
  few := few

theorem cuts_start : Cuts count budget node [] {} where
  groups := ⟨[], [], rfl, .nil, fun _ mem => (nomatch mem), rfl, Or.inl (Nat.zero_le _),
    fun _ => ⟨rfl, rfl⟩⟩
  parts := rfl

theorem few_single (text : Bytes) (s : Range) : Few count budget text [s] :=
  Or.inr (List.length_filter_le _ _)

/-- One more sentence, which begins after those before it end. -/
theorem cuts_step {done : List Range} {c : Cutting} (cuts : Cuts count budget node done c)
    {s : Range} (after : ∀ r ∈ done, r.stop ≤ s.start) (solid : ∀ r ∈ done, r.start < r.stop)
    (inside : s.start < s.stop ∧ s.stop ≤ node.text.length) :
    Cuts count budget node (done ++ [s]) (cutBefore count node budget c s) := by
  obtain ⟨⟨groups, last, rfl, each, starts, tokens, few, empty⟩, parts⟩ := cuts
  have inLast : ∀ r ∈ last, r ∈ groups.flatten ++ last := fun r mem =>
    List.mem_append_right _ mem
  have next : countOf count node.text s =
      count ((node.text.drop s.start).take (s.stop - s.start)) := rfl
  rw [cutBefore, ← next]
  split
  · rename_i overflow
    obtain ⟨r, mem⟩ : ∃ r, r ∈ last := by
      cases last with
      | nil => exact absurd overflow.1 (by rw [tokens]; exact lt_irrefl 0)
      | cons r last => exact ⟨r, List.mem_cons_self⟩
    have forward : c.start < s.start := by
      have low := starts r mem
      have mid := solid r (inLast r mem)
      have high := after r (inLast r mem)
      omega
    constructor
    · refine ⟨groups ++ [last], [s], by simp, ?_, ?_, ?_, few_single _ s, fun none_ => by simp at none_⟩
      · refine List.rel_append each (.cons (piece_of_holds (by omega) ?_ few) .nil)
        exact fun r mem => ⟨starts r mem, after r (inLast r mem)⟩
      · exact fun r same => (List.mem_singleton.mp same ▸ le_rfl)
      · simp
    · exact partition_snoc parts rfl rfl (Nat.add_lt_add_left forward _)
  · rename_i room
    have forward : c.start ≤ s.start := by
      cases last with
      | nil => exact (empty rfl).2 ▸ Nat.zero_le _
      | cons r last =>
        have low := starts r List.mem_cons_self
        have mid := solid r (inLast r List.mem_cons_self)
        have high := after r (inLast r List.mem_cons_self)
        omega
    have total : ((last ++ [s]).map (countOf count node.text)).sum =
        c.tokens + countOf count node.text s := by
      rw [List.map_append, List.sum_append, ← tokens]
      simp
    refine ⟨⟨groups, last ++ [s], by rw [List.append_assoc], each, ?_, total.symm, ?_,
      fun none_ => by simp at none_⟩, parts⟩
    · intro r mem
      rcases List.mem_append.mp mem with mem | same
      · exact starts r mem
      · exact List.mem_singleton.mp same ▸ forward
    · by_cases held : c.tokens = 0
      · right
        have none_ : last.filter (fun r => 0 < countOf count node.text r) = [] := by
          rw [List.filter_eq_nil_iff]
          intro r mem
          have part : countOf count node.text r ≤ (last.map (countOf count node.text)).sum :=
            List.le_sum_of_mem (List.mem_map_of_mem mem)
          rw [decide_eq_true_eq]
          omega
        rw [List.filter_append, none_, List.nil_append]
        exact List.length_filter_le _ _
      · left
        rw [total]
        omega

variable (budget) in
theorem cuts_all {found : List Range} (segmented : Segmented node.text found) :
    Cuts count budget node found (found.foldl (cutBefore count node budget) {}) := by
  induction found using List.reverseRecOn with
  | nil => exact cuts_start
  | append_singleton found s ih =>
    obtain ⟨before, _, after⟩ := List.pairwise_append.mp segmented.ordered
    have each := segmented.each
    rw [List.foldl_append]
    refine cuts_step (ih ⟨before, fun r mem => each r (List.mem_append_left _ mem)⟩)
      (fun r mem => after r mem s (List.mem_singleton_self s))
      (fun r mem => (each r (List.mem_append_left _ mem)).1)
      (each s (List.mem_append_right _ (List.mem_singleton_self s)))

variable {sentences : Bytes → List Range}

/-- What is true of a node's piece as it is made. -/
structure Whole (node : Piece) : Prop where
  part : node.origin.part.stop = node.origin.part.start + node.text.length
  some_ : 0 < node.text.length

/-- An oversized node's pieces are its bytes, each once, in order, each with sentences. -/
theorem split_spec (budget : ℕ) (whole : Whole node) (tokens : node.tokens = count node.text)
    (segmented : Segmented node.text (sentences node.text)) :
    Partition node.origin.part.start node.origin.part.stop
      (splitAtSentences count sentences node budget) ∧
    ∃ groups, sentences node.text = groups.flatten ∧ List.Forall₂ (PieceOf count budget node)
      groups (splitAtSentences count sentences node budget) := by
  rw [splitAtSentences]
  split
  · rename_i few
    have filled := whole.some_
    have forward : node.origin.part.start < node.origin.part.stop := by
      rw [whole.part]
      omega
    refine ⟨⟨rfl, forward, rfl⟩, [sentences node.text], by simp, .cons ?_ .nil⟩
    exact {
      tid := rfl
      row := rfl
      locator := rfl
      split := rfl
      inside := ⟨le_rfl, whole.part.le⟩
      text := by
        dsimp only
        rw [whole.part, Nat.sub_self, Nat.add_sub_cancel_left, List.drop_zero, List.take_length]
      tokens := tokens
      within := fun s mem => by
        have inside := (segmented.each s mem).2
        exact ⟨Nat.le_add_right _ _, whole.part ▸ Nat.add_le_add_left inside _⟩
      few := Or.inr ((List.length_filter_le _ _).trans (by omega)) }
  · rename_i many
    obtain ⟨⟨groups, last, same, each, starts, _, few, empty⟩, parts⟩ :=
      cuts_all budget segmented
    obtain ⟨r, mem⟩ : ∃ r, r ∈ last := by
      cases last with
      | nil =>
        have none_ := (empty rfl).1
        rw [none_, List.length_nil] at many
        omega
      | cons r last => exact ⟨r, List.mem_cons_self⟩
    have known : ∀ s ∈ last, s.start < s.stop ∧ s.stop ≤ node.text.length := fun s mem =>
      segmented.each s (same ▸ List.mem_append_right _ mem)
    have filled := known r mem
    have low := starts r mem
    refine ⟨partition_snoc parts rfl whole.part.symm (by rw [whole.part]; omega),
      groups ++ [last], by simpa using same, List.rel_append each (.cons ?_ .nil)⟩
    exact piece_of_holds le_rfl (fun s mem => ⟨starts s mem, (known s mem).2⟩) few

/-! The panes. -/

/-- The bytes of a part in a range. -/
def partBytes (pane : Pane) (r : Range) : Bytes :=
  ((utf8 pane.text).drop r.start).take (r.stop - r.start)

/-- A piece as what a pane has at its range. -/
structure From (count : Bytes → ℕ) (panes : List Pane) (p : Piece) : Prop where
  part : ∃ pane ∈ panes, pane.tid = p.origin.tid ∧ p.text = partBytes pane p.origin.part
  length : p.origin.part.stop = p.origin.part.start + p.text.length
  tokens : p.tokens = count p.text

theorem slice_length {text : String} {r : Range} {found : Bytes}
    (some_ : slice text r = some found) : found = ((utf8 text).drop r.start).take
      (r.stop - r.start) ∧ r.stop = r.start + found.length := by
  rw [slice] at some_
  split at some_
  · rename_i sound
    cases some_
    rw [Bool.and_eq_true, Bool.and_eq_true, decide_eq_true_eq] at sound
    have inside : r.stop ≤ (utf8 text).length := by
      have last := sound.2
      rw [Edtf.isCharBoundary, Bool.or_eq_true, Bool.or_eq_true, beq_iff_eq, beq_iff_eq] at last
      rcases last with (zero | whole) | within
      · omega
      · exact whole.le
      · by_contra beyond
        rw [List.getElem?_eq_none (by omega)] at within
        cases within
    refine ⟨rfl, ?_⟩
    rw [List.length_take, List.length_drop]
    omega
  · cases some_

theorem wholes_spec {panes : List Pane} {level : Level} :
    ∀ p ∈ wholes count panes level, Whole p ∧ From count panes p := by
  intro p mem
  obtain ⟨pane, held, mem⟩ := List.mem_flatMap.mp mem
  obtain ⟨node, _, made⟩ := List.mem_filterMap.mp mem
  rw [wholePiece] at made
  split at made
  · cases made
  · rename_i text found
    split at made
    · cases made
    · rename_i filled
      cases made
      obtain ⟨bytes, stop⟩ := slice_length found
      refine ⟨⟨stop, ?_⟩, ⟨⟨pane, held, rfl, bytes⟩, stop, rfl⟩⟩
      rw [List.length_pos_iff]
      rintro rfl
      exact filled (by decide)

theorem piece_from {panes : List Pane} {group : List Range} {p : Piece}
    (whole : From count panes node) (piece : PieceOf count budget node group p)
    (forward : p.origin.part.start ≤ p.origin.part.stop) : From count panes p := by
  obtain ⟨pane, held, tid, text⟩ := whole.part
  have length := whole.length
  obtain ⟨low, high⟩ := piece.inside
  refine ⟨⟨pane, held, tid.trans piece.tid.symm, ?_⟩, ?_, piece.tokens⟩
  · rw [piece.text, text, partBytes, partBytes, List.drop_take, List.drop_drop, List.take_take,
      Nat.add_sub_cancel' low, min_eq_left (by omega)]
  · rw [piece.text, List.length_take, List.length_drop]
    omega

theorem partition_forward {a b : ℕ} {ps : List Piece} (parts : Partition a b ps) :
    ∀ p ∈ ps, p.origin.part.start ≤ p.origin.part.stop := by
  induction ps generalizing a with
  | nil => exact fun p mem => nomatch mem
  | cons p ps ih =>
    exact List.forall_mem_cons.mpr ⟨parts.1 ▸ parts.2.1.le, ih parts.2.2⟩

/-- Every piece shows what a pane has. -/
theorem pieces_from {panes : List Pane} {level : Level}
    (segmented : ∀ text, Segmented text (sentences text)) :
    ∀ p ∈ (wholes count panes level).flatMap (cut count sentences budget),
      From count panes p := by
  intro p mem
  obtain ⟨node, held, mem⟩ := List.mem_flatMap.mp mem
  obtain ⟨whole, from_⟩ := wholes_spec node held
  rw [cut] at mem
  split at mem
  · rw [List.mem_singleton.mp mem]
    exact from_
  · obtain ⟨parts, groups, _, each⟩ := split_spec budget whole from_.tokens
      (segmented node.text)
    obtain ⟨group, _, piece⟩ := of_right each p mem
    exact piece_from from_ piece (partition_forward parts p mem)

/-! The windows. -/

/-- Each window opens with the last node the one before it owned, beginning from `last`. -/
def Carried : Option Origin → List TextWindow → Prop
  | _, [] => True
  | last, w :: ws =>
    (w.nodes.take w.ownedFrom).map Placed.origin = last.toList ∧
      w.overlap = last.map (fun _ => 0) ∧
        Carried (w.ownedNodes.getLast?.map Placed.origin) ws

theorem map_of_each {α β γ : Type} {R : α → β → Prop} {f : α → γ} {g : β → γ} {as : List α}
    {bs : List β} (each : List.Forall₂ R as bs) (same : ∀ a b, R a b → f a = g b) :
    as.map f = bs.map g := by
  induction each with
  | nil => rfl
  | cons first _ ih => rw [List.map_cons, List.map_cons, same _ _ first, ih]

theorem render_origins (f : Option Piece × List Piece) :
    (render f).nodes.map Placed.origin = (f.1.toList ++ f.2).map Piece.origin :=
  (map_of_each (laid_all _).each fun _ _ held => held.1.symm).symm

theorem render_carried (f : Option Piece × List Piece) :
    ((render f).nodes.take (render f).ownedFrom).map Placed.origin =
      (f.1.map Piece.origin).toList := by
  rw [List.map_take, render_origins, List.map_append,
    show (render f).ownedFrom = (f.1.toList.map Piece.origin).length from
      (List.length_map _).symm, List.take_left]
  cases f.1 <;> rfl

theorem render_owned (f : Option Piece × List Piece) :
    (render f).ownedNodes.map Placed.origin = f.2.map Piece.origin := by
  have width : (render f).ownedTo - (render f).ownedFrom = f.2.length := by
    rw [render]
    dsimp only
    rw [List.length_append, Nat.add_sub_cancel_left]
  rw [ownedNodes, width, List.map_take, List.map_drop, render_origins, List.map_append,
    show (render f).ownedFrom = (f.1.toList.map Piece.origin).length from
      (List.length_map _).symm, List.drop_left, List.take_of_length_le]
  rw [List.length_map]

theorem render_linked {carry : Option Piece} {fs : List (Option Piece × List Piece)}
    (linked : Filling.Linked carry fs) :
    Carried (carry.map Piece.origin) (fs.map render) := by
  induction fs generalizing carry with
  | nil => trivial
  | cons f fs ih =>
    obtain ⟨same, later⟩ := linked
    have owned := congrArg List.getLast? (render_owned f)
    rw [List.getLast?_map, List.getLast?_map] at owned
    refine ⟨?_, ?_, ?_⟩
    · rw [render_carried, same]
    · rw [render]
      dsimp only
      rw [same]
      cases carry <;> rfl
    · rw [owned]
      exact ih later

variable (count) in
/-- What a window's nodes count together. -/
def summed (w : TextWindow) : ℕ := (w.nodes.map (fun n => count (w.shown n))).sum

theorem render_summed {f : Option Piece × List Piece}
    (tokens : ∀ p ∈ f.1.toList ++ f.2, p.tokens = count p.text) :
    (render f).nodes.map (fun n => count ((render f).shown n)) =
      (f.1.toList ++ f.2).map Piece.tokens := by
  have laid : Laid (f.1.toList ++ f.2) ((render f).text, (render f).nodes) := laid_all _
  have counted : (f.1.toList ++ f.2).map Piece.tokens =
      (f.1.toList ++ f.2).map (fun p => count p.text) := List.map_congr_left tokens
  rw [counted]
  refine (map_of_each laid.each fun p n held => ?_).symm
  obtain ⟨_, stop, _, here⟩ := held
  rw [shown, show n.at_.stop - n.at_.start = p.text.length by omega]
  exact congrArg count here.symm

/-- A window over its budget has a piece that is, or took one beside the one it carries. -/
theorem render_budget {f : Option Piece × List Piece} (sound : Filling.Sound Piece.tokens budget f)
    (tokens : ∀ p ∈ f.1.toList ++ f.2, p.tokens = count p.text)
    (over_ : budget < summed count (render f)) :
    (∃ n ∈ (render f).nodes, budget < count ((render f).shown n)) ∨
      (render f).overlap = some 0 ∧ (render f).ownedNodes.length = 1 := by
  have same := render_summed tokens
  rw [summed, same] at over_
  rcases sound.2 with fits | ⟨x, one⟩
  · exact absurd over_ (not_lt.mpr fits)
  · cases carried : f.1 with
    | none =>
      left
      rw [carried, one] at over_ same
      have mem : x.tokens ∈ (render f).nodes.map (fun n => count ((render f).shown n)) := by
        rw [same]
        exact List.mem_cons_self
      obtain ⟨n, held, counts⟩ := List.mem_map.mp mem
      refine ⟨n, held, ?_⟩
      rw [counts]
      simpa using over_
    | some c =>
      right
      have owned := congrArg List.length (render_owned f)
      rw [List.length_map, List.length_map, one, List.length_singleton] at owned
      refine ⟨?_, owned⟩
      rw [render]
      dsimp only
      rw [carried]
      rfl

variable (count sentences) in
/-- Windows over panes, for every segmenter whose sentences are apart and in order. -/
theorem windows_hold (panes : List Pane) (level : Level) (budget : ℕ)
    (segmented : ∀ text, Segmented text (sentences text)) :
    let ws := windows count sentences panes level budget
    let nodes := wholes count panes level
    (ws.flatMap ownedNodes).map Placed.origin =
      (nodes.flatMap (cut count sentences budget)).map Piece.origin ∧
    (∀ node ∈ nodes,
      (node.tokens ≤ budget → cut count sentences budget node = [node]) ∧
      (budget < node.tokens →
        Partition node.origin.part.start node.origin.part.stop
          (cut count sentences budget node) ∧
        ∃ groups, sentences node.text = groups.flatten ∧
          List.Forall₂ (PieceOf count budget node) groups (cut count sentences budget node))) ∧
    (∀ w ∈ ws, ∀ n ∈ w.nodes,
      (∃ pane ∈ panes, pane.tid = n.origin.tid ∧ w.shown n = partBytes pane n.origin.part) ∧
      n.origin.part.stop - n.origin.part.start = n.at_.stop - n.at_.start ∧
      ∀ i, n.at_.contains i = true →
        w.map i = some (n.origin.tid, n.origin.part.start + (i - n.at_.start))) ∧
    Carried none ws ∧
    ∀ w ∈ ws, budget < summed count w →
      (∃ n ∈ w.nodes, budget < count (w.shown n)) ∨
        w.overlap = some 0 ∧ w.ownedNodes.length = 1 := by
  intro ws nodes
  let pieces := nodes.flatMap (cut count sentences budget)
  obtain ⟨all, linked, sound⟩ := Filling.fill_spec Piece.tokens budget pieces
  have known : ∀ f ∈ Filling.fill Piece.tokens budget pieces, ∀ p ∈ f.1.toList ++ f.2,
      From count panes p := fun f mem p held =>
    pieces_from segmented p (Filling.fill_mem f mem p held)
  refine ⟨?_, fun node mem => ⟨fun fits => if_pos fits, fun large => ?_⟩, ?_, render_linked linked,
    ?_⟩
  · rw [show ws = (Filling.fill Piece.tokens budget pieces).map render from rfl,
      List.flatMap_map, List.map_flatMap]
    have same : ∀ f ∈ Filling.fill Piece.tokens budget pieces,
        (render f).ownedNodes.map Placed.origin = f.2.map Piece.origin := fun f _ => render_owned f
    rw [List.flatMap_congr same, ← List.map_flatMap, all]
  · obtain ⟨whole, from_⟩ := wholes_spec node mem
    rw [cut, if_neg (not_le.mpr large)]
    exact split_spec budget whole from_.tokens (segmented node.text)
  · intro w mem n held
    obtain ⟨f, filled, rfl⟩ := List.mem_map.mp mem
    have laid : Laid (f.1.toList ++ f.2) ((render f).text, (render f).nodes) := laid_all _
    obtain ⟨p, inside, origin, stop, same, maps⟩ := laid_node laid held
    have from_ := known f filled p inside
    obtain ⟨pane, there, tid, text⟩ := from_.part
    have length := from_.length
    rw [← origin] at tid text length
    exact ⟨⟨pane, there, tid, same.trans text⟩, by omega, maps⟩
  · intro w mem over_
    obtain ⟨f, filled, rfl⟩ := List.mem_map.mp mem
    exact render_budget (sound f filled) (fun p held => (known f filled p held).tokens) over_

/-! Two verses that fill a window each. -/

/-- `utf8-div4`. -/
def div4 (text : Bytes) : ℕ := (text.length + 3) / 4

/-- Text that is one sentence. -/
def oneSentence (text : Bytes) : List Range := if text = [] then [] else [⟨0, text.length⟩]

theorem one_sentence_segmented (text : Bytes) : Segmented text (oneSentence text) := by
  rw [oneSentence]
  split
  · exact ⟨.nil, fun r mem => nomatch mem⟩
  · rename_i some_
    refine ⟨List.pairwise_singleton _ _, fun r mem => ?_⟩
    rw [List.mem_singleton.mp mem]
    exact ⟨List.length_pos_iff.mpr some_, le_rfl⟩

def verse : Level := ⟨"verse", verse_shaped⟩

def twoVerses : Pane where
  tid := ⟨⟨List.replicate 32 1, Bytes32.width_one⟩⟩
  text := "one.two."
  structure_ := [⟨verse, .line 1, ⟨0, 4⟩, 0⟩, ⟨verse, .line 2, ⟨4, 8⟩, 1⟩]
  rows := []
  reported := []

theorem two_verses_owned :
    ((windows div4 oneSentence [twoVerses] verse 1).flatMap ownedNodes).map Placed.origin =
      ((wholes div4 [twoVerses] verse).flatMap (cut div4 oneSentence 1)).map Piece.origin :=
  (windows_hold div4 oneSentence [twoVerses] verse 1 one_sentence_segmented).1

/-- The verse that is carried over and the one that is taken are within the budget alone and
not together. -/
theorem carried_verse_overflows : ∃ w ∈ windows div4 oneSentence [twoVerses] verse 1,
    1 < summed div4 w ∧ ∀ n ∈ w.nodes, ¬ 1 < div4 (w.shown n) := by
  decide +kernel

end TextWindow
end Smysl
