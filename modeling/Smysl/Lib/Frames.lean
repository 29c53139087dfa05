import Smysl.Lib.Bytes

/-!
Frames that say how long they are, one after another, as an append-only file holds them. What
is cut off in the middle of a frame is told from what is whole.
-/
namespace Frames
open ByteString

/-- The most a length of four bytes can say. -/
def most : Nat := 2 ^ 32

/-- The bytes with their length in front, which keeps only its four low bytes. -/
def frame (b : Bytes) : Bytes := bigEndian 4 b.length ++ b

def join (bs : List Bytes) : Bytes := bs.flatMap frame

/-- The frames from the front, and what is left where no whole one follows. -/
def splitWithin : Nat → Bytes → List Bytes × Bytes
  | 0, bytes => ([], bytes)
  | fuel + 1, bytes =>
    if bytes.length < 4 then ([], bytes)
    else
      let len := fromBigEndian (bytes.take 4)
      let rest := bytes.drop 4
      if rest.length < len then ([], bytes)
      else
        let later := splitWithin fuel (rest.drop len)
        (rest.take len :: later.1, later.2)

def split (bytes : Bytes) : List Bytes × Bytes := splitWithin bytes.length bytes

/-- Ending where a frame does. -/
def Whole (bytes : Bytes) : Prop := (split bytes).2 = []

instance (bytes : Bytes) : Decidable (Whole bytes) := inferInstanceAs (Decidable (_ = _))

/-- What a write that is cut short can leave. -/
def Torn (bytes : Bytes) : Prop :=
  ∃ b, b.length < most ∧ bytes <+: frame b ∧ bytes.length < (frame b).length

theorem frame_length (b : Bytes) : (frame b).length = 4 + b.length := by
  rw [frame, List.length_append, big_endian_length]

theorem spelled_length {b : Bytes} (short : b.length < most) :
    fromBigEndian (bigEndian 4 b.length) = b.length := by
  rw [from_big_endian_of_number]
  exact Nat.mod_eq_of_lt short

theorem torn_nil : Torn [] := ⟨[], by decide, List.nil_prefix, by decide⟩

theorem split_torn {bytes : Bytes} (torn : Torn bytes) (fuel : Nat) :
    splitWithin fuel bytes = ([], bytes) := by
  obtain ⟨b, short, part, cut⟩ := torn
  rw [frame_length] at cut
  cases fuel with
  | zero => rfl
  | succ fuel =>
    rw [splitWithin]
    by_cases few : bytes.length < 4
    · rw [if_pos few]
    · have lead : bytes.take 4 = bigEndian 4 b.length := by
        obtain ⟨more, same⟩ := part
        have front := congrArg (List.take 4) same
        rw [List.take_append_of_le_length (by omega), frame,
          List.take_append_of_le_length (by rw [big_endian_length])] at front
        exact front.trans (List.take_of_length_le (by rw [big_endian_length]))
      rw [if_neg few]
      dsimp only
      rw [lead, spelled_length short, if_pos]
      rw [List.length_drop]
      omega

theorem split_frame {b : Bytes} (short : b.length < most) (more : Bytes) (fuel : Nat) :
    splitWithin (fuel + 1) (frame b ++ more) =
      (b :: (splitWithin fuel more).1, (splitWithin fuel more).2) := by
  have four : (bigEndian 4 b.length).length = 4 := big_endian_length 4 _
  have lead : (frame b ++ more).take 4 = bigEndian 4 b.length := by
    rw [frame, List.append_assoc, List.take_append_of_le_length (by omega),
      List.take_of_length_le (by omega)]
  have tail : (frame b ++ more).drop 4 = b ++ more := by
    rw [frame, List.append_assoc]
    exact List.drop_left' four
  have enough : ¬ (frame b ++ more).length < 4 := by
    rw [List.length_append, frame_length]
    omega
  have room : ¬ (b ++ more).length < b.length := by
    rw [List.length_append]
    omega
  rw [splitWithin, if_neg enough]
  dsimp only
  rw [lead, tail, spelled_length short, if_neg room, List.take_left, List.drop_left]

theorem split_join {bs : List Bytes} (short : ∀ b ∈ bs, b.length < most) {torn : Bytes}
    (cut : Torn torn) {fuel : Nat} (enough : (join bs ++ torn).length ≤ fuel) :
    splitWithin fuel (join bs ++ torn) = (bs, torn) := by
  induction bs generalizing fuel with
  | nil => exact split_torn cut fuel
  | cons b bs ih =>
    obtain ⟨shortB, short⟩ := List.forall_mem_cons.mp short
    rw [join, List.flatMap_cons, List.append_assoc, List.length_append, frame_length] at enough
    obtain ⟨fuel, rfl⟩ := Nat.exists_eq_add_of_le' (show 1 ≤ fuel by omega)
    rw [join, List.flatMap_cons, List.append_assoc, split_frame shortB]
    rw [show bs.flatMap frame = join bs from rfl] at enough ⊢
    rw [ih short (by omega)]

/-- Frames and what a cut left behind them are told apart. -/
theorem split_of_join {bs : List Bytes} (short : ∀ b ∈ bs, b.length < most) {torn : Bytes}
    (cut : Torn torn) : split (join bs ++ torn) = (bs, torn) :=
  split_join short cut le_rfl

theorem torn_take {b : Bytes} (short : b.length < most) {n : Nat} (part : n < (frame b).length) :
    Torn ((frame b).take n) :=
  ⟨b, short, List.take_prefix _ _, by rw [List.length_take]; omega⟩

end Frames
