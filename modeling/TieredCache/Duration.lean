/-!
# Durations

A duration is a whole number of nanoseconds. It is representable when its seconds fit a word of 64
bits.
-/

namespace TieredCache

/-- A length of time in nanoseconds. -/
@[ext]
structure Duration where
  nanos : Nat
  deriving DecidableEq

namespace Duration

/-- The nanoseconds of one second. -/
def nanosPerSec : Nat :=
  1000000000

/-- The duration of `secs` seconds and `nanos` nanoseconds. -/
def ofParts (secs nanos : Nat) : Duration :=
  ⟨secs * nanosPerSec + nanos⟩

/-- The whole seconds of a duration. -/
def secs (d : Duration) : Nat :=
  d.nanos / nanosPerSec

/-- The nanoseconds beyond the whole seconds. -/
def subsecNanos (d : Duration) : Nat :=
  d.nanos % nanosPerSec

/-- The seconds fit 64 bits. -/
def Representable (d : Duration) : Prop :=
  d.secs < UInt64.size

instance (d : Duration) : Decidable d.Representable :=
  inferInstanceAs (Decidable (_ < _))

@[simp]
theorem ofParts_secs_subsecNanos (d : Duration) : ofParts d.secs d.subsecNanos = d := by
  ext
  simp [ofParts, secs, subsecNanos, Nat.div_add_mod']

end Duration

end TieredCache
