/-!
# Binary numbers of 53 digits

Rounding of a non-negative fraction to the nearest number with 53 significant binary digits, a tie
going to the number whose last digit is even, and the word of 64 bits that encodes such a number.
The numbers that occur here are zero or lie between `2 ^ (-1022)` and `2 ^ 1024`, where every number
of 53 digits has an encoding.
-/

namespace TieredCache.Binary64

/-- The nearest whole number. A tie rounds up first, and then back if that is odd. -/
def roundEven (q : Rat) : Int :=
  let up := (q + 1 / 2).floor
  if q + 1 / 2 = up ∧ up % 2 = 1 then up - 1 else up

/-- The exponent of the leading binary digit of a positive fraction. -/
def exponent (q : Rat) : Int :=
  let guess : Int := q.num.toNat.log2 - q.den.log2
  if (2 : Rat) ^ guess ≤ q then guess else guess - 1

/-- The worth of the last of 53 digits in a number with the leading digit of `q`. -/
def unit (q : Rat) : Rat :=
  (2 : Rat) ^ (exponent q - 52)

/-- The nearest number of 53 binary digits, a tie going to an even last digit. -/
def round (q : Rat) : Rat :=
  if q ≤ 0 then 0 else roundEven (q / unit q) * unit q

/-- The encoding of a number of 53 digits: eleven bits of exponent, offset by 1023, then the digits
after the leading one. -/
def bits (q : Rat) : Nat :=
  if q ≤ 0 then 0
  else ((exponent q + 1023).toNat <<< 52) + ((q / unit q).floor.toNat - (1 <<< 52))

/-- Sixteen hexadecimal digits of an encoding. -/
def hex (word : Nat) : String :=
  String.ofList (Nat.toDigits 16 (UInt64.size + word)).tail

end TieredCache.Binary64
