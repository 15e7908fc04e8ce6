import TieredCache.Coverage.Aging
import TieredCache.Coverage.Lifetime
import TieredCache.Coverage.Permanent

/-!
# Certified ranges

A cache that is the only holder of its entities certifies ranges for good. Any other cache lets a
certification lapse before the values under it can.
-/

namespace TieredCache

/-- The certifications of one cache. -/
inductive Coverage (κ : Type) [Key κ] where
  | permanent (c : PermanentCoverage κ)
  | aging (c : AgingCoverage κ)

namespace Coverage

variable {κ : Type} [Key κ]

/-- Nothing is certified, beside values with the given time to live. -/
def empty (canonical : Bool) (ttl : Duration) : Coverage κ :=
  if canonical then permanent .empty else aging (.empty (lifetime ttl))

/-- The number of stored keys. -/
def size : Coverage κ → Nat
  | permanent c => c.size
  | aging c => c.size

/-- Whether a stored key covers `k`; an aging one is refreshed if asked to. -/
def covers (now : Nat) (k : κ) (refresh : Bool) : Coverage κ → Bool × Coverage κ
  | permanent c => (c.covers k, permanent c)
  | aging c =>
    let (found, c) := c.covers now k refresh
    (found, aging c)

/-- Certifies a key; whether it was not covered before. -/
def add (now : Nat) (k : κ) : Coverage κ → Bool × Coverage κ
  | permanent c =>
    let (added, c) := c.add k
    (added, permanent c)
  | aging c =>
    let (added, c) := c.add now k
    (added, aging c)

end Coverage

end TieredCache
