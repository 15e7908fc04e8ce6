import TieredCache.Coverage.Lifetime
import TieredCache.Proofs.Binary64.Order

/-!
# A certification does not outlive what it vouches for

Four roundings on the way to four fifths of a duration cannot reach the duration, and the last one goes
to a whole number of nanoseconds that does not pass it. A longer duration never has the shorter lifetime:
each rounding keeps the order, and where whole seconds and the rest are added, either a second more is
exact or the rest is rounded away.
-/

namespace TieredCache.Coverage

open Binary64

/-- The growth of a fraction in one rounding to 53 digits. -/
def growth : Rat :=
  1 + 1 / 2 ^ 53

theorem ratio_le : ratio ≤ 4 / 5 * growth :=
  round_le (by norm_num)

/-- Whole seconds and the rest, each rounded and the sum rounded again. -/
theorem seconds_le (d : Duration) :
    seconds d ≤ (d.nanos : Rat) / Duration.nanosPerSec * growth ^ 2 := by
  have hsecs : round d.secs ≤ d.secs * growth := round_le (by positivity)
  have hrest : round (d.subsecNanos / Duration.nanosPerSec) ≤
      (d.subsecNanos : Rat) / Duration.nanosPerSec * growth := round_le (by positivity)
  have hparts : (d.secs : Rat) + d.subsecNanos / Duration.nanosPerSec =
      d.nanos / Duration.nanosPerSec := by
    have hsplit : (d.secs : Rat) * Duration.nanosPerSec + d.subsecNanos = d.nanos := by
      exact_mod_cast Nat.div_add_mod' d.nanos Duration.nanosPerSec
    rw [← hsplit, Duration.nanosPerSec]
    push_cast
    ring
  have hsum : 0 ≤ round d.secs + round (d.subsecNanos / Duration.nanosPerSec) :=
    add_nonneg (round_nonneg _) (round_nonneg _)
  calc seconds d
      ≤ (d.secs * growth + d.subsecNanos / Duration.nanosPerSec * growth) * growth :=
        round_le_of_le hsum (add_le_add hsecs hrest)
    _ = (d.secs + d.subsecNanos / Duration.nanosPerSec) * growth ^ 2 := by ring
    _ = d.nanos / Duration.nanosPerSec * growth ^ 2 := by rw [hparts]

/-- The product before it is turned back into a whole number of nanoseconds. -/
theorem product_le (ttl : Duration) :
    Binary64.round (seconds ttl * ratio) * Duration.nanosPerSec ≤ ttl.nanos * (4 / 5 * growth ^ 4) := by
  have hseconds : 0 ≤ seconds ttl := round_nonneg _
  have hratio : 0 ≤ ratio := round_nonneg _
  have hgrowth : 0 ≤ growth := by norm_num [growth]
  calc Binary64.round (seconds ttl * ratio) * Duration.nanosPerSec
      ≤ ttl.nanos / Duration.nanosPerSec * growth ^ 2 * (4 / 5 * growth) * growth *
          Duration.nanosPerSec := by
        gcongr
        apply round_le_of_le (by positivity)
        gcongr
        · exact seconds_le ttl
        · exact ratio_le
    _ = ttl.nanos * (4 / 5 * growth ^ 4) := by
        rw [Duration.nanosPerSec]
        push_cast
        ring

/-- A certification lapses no later than the values beside it. -/
theorem lifetime_le (ttl : Duration) : (lifetime ttl).nanos ≤ ttl.nanos := by
  have hgrowth : 4 / 5 * growth ^ 4 ≤ 1 := by norm_num [growth]
  have hnanos : (0 : Rat) ≤ ttl.nanos := by positivity
  have hproduct : Binary64.round (seconds ttl * ratio) * Duration.nanosPerSec ≤ (ttl.nanos : Rat) :=
    calc Binary64.round (seconds ttl * ratio) * Duration.nanosPerSec
        ≤ ttl.nanos * (4 / 5 * growth ^ 4) := product_le ttl
      _ ≤ ttl.nanos * 1 := by gcongr
      _ = ttl.nanos := mul_one _
  have hwhole : roundEven (Binary64.round (seconds ttl * ratio) * Duration.nanosPerSec) ≤ ttl.nanos := by
    apply roundEven_le_of_le
    exact_mod_cast hproduct
  exact Int.toNat_le.mpr hwhole

/-- From three nanoseconds on, a fifth of a duration is more than the half of a nanosecond that the last
rounding adds at most. -/
theorem lifetime_lt {ttl : Duration} (h : 3 ≤ ttl.nanos) : (lifetime ttl).nanos < ttl.nanos := by
  have hgrowth : 4 / 5 * growth ^ 4 < 5 / 6 := by norm_num [growth]
  have hnanos : (3 : Rat) ≤ ttl.nanos := by exact_mod_cast h
  have hproduct : Binary64.round (seconds ttl * ratio) * Duration.nanosPerSec < ttl.nanos * (5 / 6) :=
    calc Binary64.round (seconds ttl * ratio) * Duration.nanosPerSec
        ≤ ttl.nanos * (4 / 5 * growth ^ 4) := product_le ttl
      _ < ttl.nanos * (5 / 6) := by gcongr
  have hhalf := roundEven_le_add_half (Binary64.round (seconds ttl * ratio) * Duration.nanosPerSec)
  have hwhole : (roundEven (Binary64.round (seconds ttl * ratio) * Duration.nanosPerSec) : Rat) <
      (ttl.nanos : Int) := by
    push_cast
    linarith
  rw [Int.cast_lt] at hwhole
  exact (Int.toNat_lt' (by omega)).mpr hwhole

/-- Below that the last rounding makes up for the fifth. -/
theorem lifetime_eq_self {ttl : Duration} (h : ttl.nanos < 3) : lifetime ttl = ttl := by
  have hshort : ∀ n < 3, lifetime ⟨n⟩ = ⟨n⟩ := by decide +kernel
  exact hshort ttl.nanos h

theorem lifetime_lt_iff (ttl : Duration) : (lifetime ttl).nanos < ttl.nanos ↔ 3 ≤ ttl.nanos := by
  refine ⟨fun hlt => ?_, lifetime_lt⟩
  by_contra hshort
  rw [lifetime_eq_self (not_le.mp hshort)] at hlt
  exact lt_irrefl _ hlt

theorem representable_lifetime {ttl : Duration} (h : ttl.Representable) :
    (lifetime ttl).Representable :=
  (Nat.div_le_div_right (lifetime_le ttl)).trans_lt h

/-! ## The order of lifetimes -/

theorem round_rest_lt_one (d : Duration) :
    Binary64.round (d.subsecNanos / Duration.nanosPerSec) < 1 := by
  have hrest : d.subsecNanos ≤ 999999999 := Nat.le_of_lt_succ (Nat.mod_lt _ (by decide))
  have hrest : (d.subsecNanos : Rat) ≤ 999999999 := by exact_mod_cast hrest
  calc Binary64.round (d.subsecNanos / Duration.nanosPerSec)
      ≤ d.subsecNanos / Duration.nanosPerSec * growth := round_le (by positivity)
    _ ≤ 999999999 / Duration.nanosPerSec * growth := by
        have hgrowth : 0 ≤ growth := by norm_num [growth]
        gcongr
    _ < 1 := by norm_num [Duration.nanosPerSec, growth]

/-- When the whole seconds fill 53 digits, what is beyond them is rounded away. -/
theorem seconds_eq {d : Duration} (h : 2 ^ 53 ≤ d.secs) : seconds d = Binary64.round d.secs := by
  have hbig : (2 : Rat) ^ (53 : Int) ≤ Binary64.round d.secs := by
    rw [← (fits_two_zpow 53).round_eq (by positivity)]
    apply round_mono
    exact_mod_cast h
  have hpos : 0 < Binary64.round d.secs := lt_of_lt_of_le (by positivity) hbig
  have hsecs : (0 : Rat) < d.secs := by
    have : 0 < d.secs := lt_of_lt_of_le (by positivity) h
    exact_mod_cast this
  have hunit : 2 ≤ unit (Binary64.round d.secs) := by
    have hexponent : 53 ≤ exponent (Binary64.round d.secs) := by
      have hlt := hbig.trans_lt (lt_two_zpow_exponent hpos)
      rw [zpow_lt_zpow_iff_right₀ (by norm_num)] at hlt
      omega
    calc (2 : Rat) = 2 ^ (1 : Int) := by norm_num
      _ ≤ 2 ^ (exponent (Binary64.round d.secs) - 52) :=
        zpow_le_zpow_right₀ (by norm_num) (by omega)
  have hrest := round_rest_lt_one d
  exact (fits_round hsecs).round_add hpos (round_nonneg _) (by linarith)

theorem seconds_mono {d e : Duration} (h : d.nanos ≤ e.nanos) : seconds d ≤ seconds e := by
  have hsecs : d.secs ≤ e.secs := Nat.div_le_div_right h
  rcases hsecs.lt_or_eq with hlt | heq
  · rcases Nat.lt_or_ge d.secs (2 ^ 53) with hsmall | hlarge
    · -- One second more is room enough for what is beyond the whole seconds.
      apply round_mono
      have hnext : (d.secs : Rat) + 1 ≤ Binary64.round e.secs := by
        have hfits : Fits ((d.secs + 1 : Nat) : Rat) := fits_natCast hsmall
        rw [← Nat.cast_add_one, ← hfits.round_eq (by positivity)]
        exact round_mono (by exact_mod_cast hlt)
      have hself : Binary64.round d.secs = d.secs :=
        (fits_natCast hsmall.le).round_eq (by positivity)
      have hrest := round_rest_lt_one d
      have hnonneg := round_nonneg (e.subsecNanos / Duration.nanosPerSec)
      linarith
    · rw [seconds_eq hlarge, seconds_eq (hlarge.trans hlt.le)]
      exact round_mono (by exact_mod_cast hsecs)
  · have hrest : d.subsecNanos ≤ e.subsecNanos := by
      have hd := Nat.div_add_mod' d.nanos Duration.nanosPerSec
      have he := Nat.div_add_mod' e.nanos Duration.nanosPerSec
      rw [Duration.secs, Duration.secs] at heq
      rw [← heq] at he
      rw [Duration.subsecNanos, Duration.subsecNanos]
      omega
    have hrest : Binary64.round (d.subsecNanos / Duration.nanosPerSec) ≤
        Binary64.round (e.subsecNanos / Duration.nanosPerSec) := by
      apply round_mono
      gcongr
    apply round_mono
    rw [heq]
    gcongr

theorem lifetime_mono {d e : Duration} (h : d.nanos ≤ e.nanos) :
    (lifetime d).nanos ≤ (lifetime e).nanos := by
  have hratio : 0 ≤ ratio := round_nonneg _
  have hproduct : Binary64.round (seconds d * ratio) ≤ Binary64.round (seconds e * ratio) :=
    round_mono (mul_le_mul_of_nonneg_right (seconds_mono h) hratio)
  apply Int.toNat_le_toNat
  apply roundEven_mono
  gcongr

/-- The lifetime of a certification is representable whenever the time to live beside it is, never exceeds
it, is shorter from three nanoseconds on and only from there on, and grows with it. -/
theorem lifetime_bounded_and_monotone (d : Duration) :
    (d.Representable → (lifetime d).Representable) ∧
      (lifetime d).nanos ≤ d.nanos ∧
      ((lifetime d).nanos < d.nanos ↔ 3 ≤ d.nanos) ∧
      ∀ e : Duration, d.nanos ≤ e.nanos → (lifetime d).nanos ≤ (lifetime e).nanos :=
  ⟨representable_lifetime, lifetime_le d, lifetime_lt_iff d, fun _ => lifetime_mono⟩

/-- The two longest durations differ by a nanosecond that is rounded away; three nanoseconds are the shortest
duration with a lifetime below it. -/
theorem lifetime_bounded_and_monotone_extremes :
    let longest := Duration.ofParts 18446744073709551615 999999999
    let shorter := Duration.ofParts 18446744073709551615 999999998
    longest.Representable ∧ (lifetime longest).Representable ∧ shorter.nanos ≤ longest.nanos ∧
      (lifetime shorter).nanos ≤ (lifetime longest).nanos ∧
      lifetime shorter = lifetime longest ∧
      (lifetime ⟨3⟩).nanos < 3 ∧ ¬ (lifetime ⟨2⟩).nanos < 2 := by
  intro longest shorter
  obtain ⟨hrepresentable, -⟩ := lifetime_bounded_and_monotone longest
  obtain ⟨-, -, -, hmono⟩ := lifetime_bounded_and_monotone shorter
  obtain ⟨-, -, hthree, -⟩ := lifetime_bounded_and_monotone ⟨3⟩
  obtain ⟨-, -, htwo, -⟩ := lifetime_bounded_and_monotone ⟨2⟩
  have hlongest : longest.Representable := by decide +kernel
  have hle : shorter.nanos ≤ longest.nanos := by decide +kernel
  exact ⟨hlongest, hrepresentable hlongest, hle, hmono longest hle, by decide +kernel,
    hthree.mpr le_rfl, htwo.not.mpr (by decide)⟩

end TieredCache.Coverage
