import TieredCache.Duration

/-!
# Durations in text

A duration is written in the largest unit of which it holds at least one (seconds, milliseconds,
microseconds, nanoseconds), as a decimal number without trailing zeros.
-/

namespace TieredCache.Duration

/-- A decimal fraction of `digits` places after the point, without trailing zeros and without the
point when nothing is left. -/
def fraction (n digits : Nat) : String :=
  let padded := (Nat.toDigits 10 (Nat.pow 10 digits + n)).tail
  match (padded.reverse.dropWhile (· = '0')).reverse with
  | [] => ""
  | kept => "." ++ String.ofList kept

/-- A number of nanoseconds in a unit of `10 ^ digits` nanoseconds. -/
def inUnit (n digits : Nat) (unit : String) : String :=
  toString (n / Nat.pow 10 digits) ++ fraction (n % Nat.pow 10 digits) digits ++ unit

/-- The duration in its largest unit. -/
def text (d : Duration) : String :=
  if nanosPerSec ≤ d.nanos then inUnit d.nanos 9 "s"
  else if 1000000 ≤ d.nanos then inUnit d.nanos 6 "ms"
  else if 1000 ≤ d.nanos then inUnit d.nanos 3 "µs"
  else inUnit d.nanos 0 "ns"

end TieredCache.Duration
