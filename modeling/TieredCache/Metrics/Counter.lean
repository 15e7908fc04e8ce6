/-!
# Counters

A counter is a word of 64 bits that wraps around.
-/

namespace TieredCache

/-- A number of events, modulo `2 ^ 64`. -/
structure Counter where
  value : UInt64
  deriving DecidableEq

namespace Counter

/-- No event yet. -/
def zero : Counter :=
  ⟨0⟩

instance : Inhabited Counter :=
  ⟨zero⟩

/-- Counts a number of events. -/
def add (c : Counter) (n : UInt64) : Counter :=
  ⟨c.value + n⟩

/-- Counts one event. -/
def increment (c : Counter) : Counter :=
  c.add 1

/-- Forgets every event. -/
def reset (_c : Counter) : Counter :=
  zero

end Counter

end TieredCache
