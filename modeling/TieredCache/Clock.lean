import TieredCache.Duration

/-!
# Clocks

A clock that moves only when it is told to. It counts nanoseconds in a word of 64 bits: an advance
by more than the word can hold counts as the greatest word, and the count wraps around.
-/

namespace TieredCache

/-- The nanoseconds that a clock has been advanced by. -/
structure Clock where
  elapsed : UInt64
  deriving DecidableEq

namespace Clock

/-- The clock that has never been advanced. -/
def start : Clock :=
  ⟨0⟩

instance : Inhabited Clock :=
  ⟨start⟩

/-- The clock moved on by a duration. -/
def advance (c : Clock) (d : Duration) : Clock :=
  ⟨c.elapsed + UInt64.ofNat (min d.nanos (UInt64.size - 1))⟩

/-- The reading in nanoseconds. -/
def now (c : Clock) : Nat :=
  c.elapsed.toNat

/-- The duration shown by the clock. -/
def reading (c : Clock) : Duration :=
  ⟨c.now⟩

/-- The duration since an earlier reading, zero for a later one. -/
def since (c : Clock) (earlier : Nat) : Duration :=
  ⟨c.now - earlier⟩

end Clock

end TieredCache
