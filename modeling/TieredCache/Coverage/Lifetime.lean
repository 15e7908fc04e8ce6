import TieredCache.Binary64
import TieredCache.Duration

/-!
# The lifetime of a certification

A certified range lapses before the values it vouches for: after four fifths of their time to live.
The product is taken in binary numbers of 53 digits, each step rounded to the nearest, and turned
back into the nearest whole number of nanoseconds.
-/

namespace TieredCache.Coverage

/-- Four fifths, as the nearest number of 53 binary digits. -/
def ratio : Rat :=
  Binary64.round (4 / 5)

/-- A duration in seconds: the whole seconds and the rest rounded apart, then their sum. -/
def seconds (d : Duration) : Rat :=
  Binary64.round
    (Binary64.round d.secs + Binary64.round (d.subsecNanos / Duration.nanosPerSec))

/-- The lifetime of the certifications beside values with a given time to live. -/
def lifetime (ttl : Duration) : Duration :=
  ⟨(Binary64.roundEven
    (Binary64.round (seconds ttl * ratio) * Duration.nanosPerSec)).toNat⟩

end TieredCache.Coverage
