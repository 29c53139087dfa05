import Smysl.Core.Text

/-!
Resource caps, and the fuel that makes a refusal happen at the same place everywhere.
-/
namespace Smysl

/-- `u64::saturating_sub`. -/
def saturatingSub (a b : UInt64) : UInt64 := if b ≤ a then a - b else 0

/-- `u64::saturating_add`. -/
def saturatingSum (a b : UInt64) : UInt64 :=
  if a.toNat + b.toNat < 2 ^ 64 then a + b else 0xFFFFFFFFFFFFFFFF

@[simp] theorem to_nat_saturating_sub (a b : UInt64) :
    (saturatingSub a b).toNat = a.toNat - b.toNat := by
  rw [saturatingSub]
  split
  · rename_i le
    exact UInt64.toNat_sub_of_le a b le
  · rename_i less
    rw [UInt64.le_iff_toNat_le] at less
    simp only [UInt64.toNat_zero]
    omega

@[simp] theorem to_nat_max (a b : UInt64) : (max a b).toNat = max a.toNat b.toNat := by
  rw [UInt64.max_def]
  split
  · rename_i le
    rw [UInt64.le_iff_toNat_le] at le
    omega
  · rename_i less
    rw [UInt64.le_iff_toNat_le] at less
    omega

/-- `Range<u64>`. -/
structure ByteRange where
  start : UInt64
  stop : UInt64
  deriving DecidableEq, Repr

/-- Half-open. -/
def ByteRange.len (r : ByteRange) : UInt64 := saturatingSub r.stop r.start

/-- `LibError::Limit`: the cap, what it allows, what was asked for, the flag that raises it. -/
structure Limit where
  cap : String
  limit : UInt64
  saw : UInt64
  flag : Option String
  deriving DecidableEq, Repr

/-- `FLAGS`. -/
def flags : List (String × Option String) :=
  [("input_bytes", some "--max-input"),
   ("decompressed_bytes", some "--max-decompressed"),
   ("entry_bytes", some "--max-entry"),
   ("entries", some "--max-entries"),
   ("ratio", some "--max-ratio"),
   ("nesting", none),
   ("nodes", some "--max-nodes"),
   ("part_bytes", some "--max-part"),
   ("raw_bytes", some "--max-raw"),
   ("fuel", some "--max-fuel")]

def exceeded (cap : String) (limit saw : UInt64) : Limit :=
  ⟨cap, limit, saw, (flags.find? (fun f => f.1 == cap)).bind Prod.snd⟩

/-- The caps that grouping and the structure ask for. -/
structure Caps where
  nodes : UInt64
  partBytes : UInt64
  deriving DecidableEq, Repr

structure Budget where
  caps : Caps
  fuelLeft : UInt64
  fuelSpent : UInt64
  nodes : UInt64
  deriving DecidableEq, Repr

namespace Budget

/-- What does not fit exhausts the budget, so that it cannot be asked for in smaller pieces. -/
def fuel (b : Budget) (units : UInt64) : Except Limit Unit × Budget :=
  if units ≤ b.fuelLeft then
    (.ok (), { b with
      fuelLeft := b.fuelLeft - units, fuelSpent := saturatingSum b.fuelSpent units })
  else
    let limit := saturatingSum b.fuelSpent b.fuelLeft
    (.error (exceeded "fuel" limit (saturatingSum b.fuelSpent units)),
      { b with fuelLeft := 0, fuelSpent := limit })

/-- One more node: one unit of fuel, and one against the cap. -/
def node (b : Budget) : Except Limit Unit × Budget :=
  if b.caps.nodes ≤ b.nodes then
    (.error (exceeded "nodes" b.caps.nodes (saturatingSum b.nodes 1)), b)
  else
    match b.fuel 1 with
    | (.error e, spent) => (.error e, spent)
    | (.ok (), spent) => (.ok (), { spent with nodes := spent.nodes + 1 })

/-- A part of so many bytes, against the hard ceiling. -/
def part (b : Budget) (n : UInt64) : Except Limit Unit :=
  if b.caps.partBytes < n then .error (exceeded "part_bytes" b.caps.partBytes n) else .ok ()

end Budget
end Smysl
