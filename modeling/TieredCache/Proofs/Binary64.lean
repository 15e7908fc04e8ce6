import Mathlib.Algebra.Order.Field.Power
import Mathlib.Data.Rat.Floor
import Mathlib.Tactic.FieldSimp
import Mathlib.Tactic.Linarith
import Mathlib.Tactic.NormNum
import Mathlib.Tactic.Positivity
import Mathlib.Tactic.Ring
import TieredCache.Binary64

/-!
# How far rounding reaches up

A fraction that is rounded to 53 binary digits grows by at most half of its last digit, which is a
fraction of `2 ^ (-53)` of it. Rounding to a whole number does not pass a whole number.
-/

namespace TieredCache.Binary64

variable {q r : Rat} {n : Int}

theorem roundEven_le_floor (q : Rat) : roundEven q ≤ (q + 1 / 2).floor := by
  rw [roundEven]
  split
  next => omega
  next => exact le_refl _

theorem roundEven_le_add_half (q : Rat) : (roundEven q : Rat) ≤ q + 1 / 2 :=
  calc (roundEven q : Rat)
      ≤ (q + 1 / 2).floor := by exact_mod_cast roundEven_le_floor q
    _ ≤ q + 1 / 2 := Rat.floor_le _

/-- A whole number is not passed. -/
theorem roundEven_le_of_le (h : q ≤ n) : roundEven q ≤ n := by
  have hfloor := roundEven_le_floor q
  have hlt : (q + 1 / 2).floor < n + 1 := by
    rw [Rat.floor_lt_iff]
    push_cast
    linarith
  omega

theorem roundEven_nonneg (h : 0 ≤ q) : 0 ≤ roundEven q := by
  have hfloor : (0 : Int) ≤ (q + 1 / 2).floor := by
    rw [Rat.le_floor_iff]
    push_cast
    linarith
  rw [roundEven]
  split
  next htie =>
    obtain ⟨-, hodd⟩ := htie
    omega
  next => exact hfloor

theorem num_toNat_div_den (h : 0 ≤ q) : (q.num.toNat : Rat) / q.den = q := by
  have hcast : ((q.num.toNat : Int) : Rat) = q.num := by
    rw [Int.toNat_of_nonneg (Rat.num_nonneg.mpr h)]
  rw [Int.cast_natCast] at hcast
  rw [hcast]
  exact Rat.num_div_den q

theorem two_zpow_log2_le (h : 0 < q) :
    (2 : Rat) ^ ((q.num.toNat.log2 : Int) - q.den.log2 - 1) ≤ q := by
  have hnum : q.num.toNat ≠ 0 := by
    have := Rat.num_pos.mpr h
    omega
  have hq := num_toNat_div_den h.le
  have hden : (q.den : Rat) < 2 ^ (q.den.log2 + 1) := by
    exact_mod_cast Nat.lt_log2_self
  have hlead : (2 : Rat) ^ q.num.toNat.log2 ≤ q.num.toNat := by
    exact_mod_cast Nat.log2_self_le hnum
  have hpos : (0 : Rat) < q.den := by exact_mod_cast q.den_pos
  calc (2 : Rat) ^ ((q.num.toNat.log2 : Int) - q.den.log2 - 1)
      = 2 ^ q.num.toNat.log2 / 2 ^ (q.den.log2 + 1) := by
        rw [sub_sub, zpow_sub₀ (by norm_num)]
        norm_cast
    _ ≤ q.num.toNat / 2 ^ (q.den.log2 + 1) := by gcongr
    _ ≤ q.num.toNat / q.den := by gcongr
    _ = q := hq

/-- The leading digit of a positive fraction is worth no more than the fraction. -/
theorem two_zpow_exponent_le (h : 0 < q) : (2 : Rat) ^ exponent q ≤ q := by
  rw [exponent]
  split
  next hle => exact hle
  next => exact two_zpow_log2_le h

theorem unit_pos (q : Rat) : 0 < unit q := by
  rw [unit]
  positivity

theorem unit_le (h : 0 < q) : unit q ≤ q / 2 ^ 52 := by
  have hlead := two_zpow_exponent_le h
  calc unit q
      = 2 ^ exponent q / 2 ^ 52 := by
        rw [unit, zpow_sub₀ (by norm_num)]
        norm_cast
    _ ≤ q / 2 ^ 52 := by gcongr

theorem round_nonneg (q : Rat) : 0 ≤ round q := by
  rw [round]
  split
  next => exact le_refl _
  next h =>
    have hunit := unit_pos q
    have hquotient : 0 ≤ q / unit q := by
      rw [not_le] at h
      positivity
    have hwhole : (0 : Rat) ≤ roundEven (q / unit q) := by
      exact_mod_cast roundEven_nonneg hquotient
    positivity

/-- Rounding adds at most a fraction of `2 ^ (-53)`. -/
theorem round_le (h : 0 ≤ q) : round q ≤ q * (1 + 1 / 2 ^ 53) := by
  rw [round]
  split
  next => positivity
  next hpos =>
    rw [not_le] at hpos
    have hunit := unit_pos q
    have hle := unit_le hpos
    calc roundEven (q / unit q) * unit q
        ≤ (q / unit q + 1 / 2) * unit q := by
          gcongr
          exact roundEven_le_add_half _
      _ = q + unit q / 2 := by field_simp
      _ ≤ q + q / 2 ^ 52 / 2 := by gcongr
      _ = q * (1 + 1 / 2 ^ 53) := by ring

theorem round_le_of_le (h : 0 ≤ q) (hr : q ≤ r) : round q ≤ r * (1 + 1 / 2 ^ 53) :=
  calc round q
      ≤ q * (1 + 1 / 2 ^ 53) := round_le h
    _ ≤ r * (1 + 1 / 2 ^ 53) := by gcongr

end TieredCache.Binary64
