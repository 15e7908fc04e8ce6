import TieredCache.Proofs.Binary64

/-!
# Rounding keeps the order

Rounding to a whole number and rounding to 53 binary digits are monotone. A number of 53 digits is its
own rounding, and stays so when less than half of its last digit is added to it. Both roundings answer a
nearest number of their kind, and of two nearest ones the even one: `roundEven_nearest` and
`even_roundEven_of_tie` for whole numbers, `round_nearest` and `even_of_tie` for 53 digits.
-/

namespace TieredCache.Binary64

variable {q r f : Rat} {n : Int}

/-! ## Whole numbers -/

theorem floor_sub_one_le_roundEven (q : Rat) : (q + 1 / 2).floor - 1 ≤ roundEven q := by
  rw [roundEven]
  split
  next => exact le_refl _
  next => omega

theorem sub_half_le_roundEven (q : Rat) : q - 1 / 2 ≤ (roundEven q : Rat) := by
  have hfloor : q + 1 / 2 < ((q + 1 / 2).floor + 1 : Int) := Rat.lt_floor_add_one _
  push_cast at hfloor
  rw [roundEven]
  split
  next htie =>
    push_cast
    linarith [htie.1]
  next => linarith

/-- A whole number is not passed downwards either. -/
theorem le_roundEven_of_le (h : n ≤ q) : n ≤ roundEven q := by
  have hhalf := sub_half_le_roundEven q
  have hlt : (n : Rat) < (roundEven q + 1 : Int) := by
    push_cast
    linarith
  exact Int.lt_add_one_iff.mp (by exact_mod_cast hlt)

theorem roundEven_mono (h : q ≤ r) : roundEven q ≤ roundEven r := by
  have hle : (q + 1 / 2).floor ≤ (r + 1 / 2).floor := Rat.floor_monotone (by linarith)
  rcases hle.lt_or_eq with hlt | heq
  · have hq := roundEven_le_floor q
    have hr := floor_sub_one_le_roundEven r
    omega
  · -- A tie of the greater one at the common floor is a tie of the lesser one.
    have hfloor : ((q + 1 / 2).floor : Rat) ≤ q + 1 / 2 := Rat.floor_le _
    rw [roundEven, roundEven, heq]
    rw [heq] at hfloor
    split
    next => split <;> omega
    next hq =>
      rw [if_neg]
      rintro ⟨htie, hodd⟩
      exact hq ⟨le_antisymm (by linarith) hfloor, hodd⟩

/-- No whole number is nearer. -/
theorem roundEven_nearest (q : Rat) (n : Int) : |(roundEven q : Rat) - q| ≤ |(n : Rat) - q| := by
  have hlow := sub_half_le_roundEven q
  have hhigh := roundEven_le_add_half q
  rcases lt_trichotomy n (roundEven q) with hlt | rfl | hlt
  · have hstep : (n : Rat) + 1 ≤ roundEven q := by exact_mod_cast hlt
    rw [abs_le]
    constructor <;> linarith [neg_abs_le ((n : Rat) - q)]
  · exact le_rfl
  · have hstep : (roundEven q : Rat) + 1 ≤ n := by exact_mod_cast hlt
    rw [abs_le]
    constructor <;> linarith [le_abs_self ((n : Rat) - q)]

theorem even_roundEven_of_half (h : |(roundEven q : Rat) - q| = 1 / 2) : Even (roundEven q) := by
  have hfloor : q + 1 / 2 < ((q + 1 / 2).floor + 1 : Int) := Rat.lt_floor_add_one _
  push_cast at hfloor
  rw [roundEven] at h ⊢
  split at h
  next htie =>
    rw [if_pos htie, Int.even_iff]
    omega
  next hnot =>
    rw [if_neg hnot, Int.even_iff]
    rcases (abs_eq (by norm_num)).mp h with hup | hdown
    · have htie : q + 1 / 2 = (q + 1 / 2).floor := by linarith
      have hodd : ¬ (q + 1 / 2).floor % 2 = 1 := fun hodd => hnot ⟨htie, hodd⟩
      exact (Int.emod_two_eq _).resolve_right hodd
    · linarith

/-- Of two nearest whole numbers it is the even one. -/
theorem even_roundEven_of_tie (hne : n ≠ roundEven q)
    (htie : |(n : Rat) - q| = |(roundEven q : Rat) - q|) : Even (roundEven q) := by
  -- They lie on two sides of the fraction, no more than one apart.
  have hlow := sub_half_le_roundEven q
  have hhigh := roundEven_le_add_half q
  apply even_roundEven_of_half
  rcases abs_eq_abs.mp htie with hsame | hopposite
  · exact absurd (by exact_mod_cast sub_left_inj.mp hsame) hne
  · rcases lt_or_gt_of_ne hne with hlt | hlt
    · have hstep : (n : Rat) + 1 ≤ roundEven q := by exact_mod_cast hlt
      rw [abs_of_nonneg (by linarith)]
      linarith
    · have hstep : (roundEven q : Rat) + 1 ≤ n := by exact_mod_cast hlt
      rw [abs_of_nonpos (by linarith)]
      linarith

/-! ## The leading digit -/

theorem lt_two_zpow_log2 (h : 0 < q) :
    q < (2 : Rat) ^ ((q.num.toNat.log2 : Int) - q.den.log2 + 1) := by
  have hq : (q.num.toNat : Rat) / q.den = q := num_toNat_div_den h.le
  have hden : (2 : Rat) ^ q.den.log2 ≤ q.den := by
    exact_mod_cast Nat.log2_self_le q.den_nz
  have hnum : (q.num.toNat : Rat) < 2 ^ (q.num.toNat.log2 + 1) := by
    exact_mod_cast Nat.lt_log2_self
  calc q = q.num.toNat / q.den := hq.symm
    _ ≤ q.num.toNat / 2 ^ q.den.log2 := by gcongr
    _ < 2 ^ (q.num.toNat.log2 + 1) / 2 ^ q.den.log2 := by gcongr
    _ = 2 ^ ((q.num.toNat.log2 : Int) - q.den.log2 + 1) := by
      rw [sub_add_eq_add_sub, zpow_sub₀ (by norm_num)]
      norm_cast

/-- The leading digit of a positive fraction is worth more than half of it. -/
theorem lt_two_zpow_exponent (h : 0 < q) : q < (2 : Rat) ^ (exponent q + 1) := by
  rw [exponent]
  split
  next => exact lt_two_zpow_log2 h
  next hnot =>
    rw [not_le] at hnot
    simpa using hnot

theorem exponent_eq {e : Int} (hlow : (2 : Rat) ^ e ≤ q) (hhigh : q < (2 : Rat) ^ (e + 1)) :
    exponent q = e := by
  have hpos : 0 < q := lt_of_lt_of_le (by positivity) hlow
  have hbelow : (2 : Rat) ^ exponent q < 2 ^ (e + 1) := (two_zpow_exponent_le hpos).trans_lt hhigh
  have habove : (2 : Rat) ^ e < 2 ^ (exponent q + 1) := hlow.trans_lt (lt_two_zpow_exponent hpos)
  rw [zpow_lt_zpow_iff_right₀ (by norm_num)] at hbelow habove
  omega

theorem exponent_mono (hq : 0 < q) (h : q ≤ r) : exponent q ≤ exponent r := by
  have hlt : (2 : Rat) ^ exponent q < 2 ^ (exponent r + 1) :=
    ((two_zpow_exponent_le hq).trans h).trans_lt (lt_two_zpow_exponent (hq.trans_le h))
  rw [zpow_lt_zpow_iff_right₀ (by norm_num)] at hlt
  omega

/-- The leading of 53 digits is worth `2 ^ 52` times the last one. -/
theorem two_zpow_exponent_eq (q : Rat) :
    (2 : Rat) ^ exponent q = (2 ^ 52 : Int) * unit q := by
  rw [unit, zpow_sub₀ (by norm_num)]
  push_cast
  field_simp

theorem two_zpow_exponent_add_one_eq (q : Rat) :
    (2 : Rat) ^ (exponent q + 1) = (2 ^ 53 : Int) * unit q := by
  rw [zpow_add_one₀ (by norm_num), two_zpow_exponent_eq]
  push_cast
  ring

/-! ## Numbers of 53 digits -/

theorem round_of_pos (h : 0 < q) : round q = roundEven (q / unit q) * unit q :=
  if_neg (not_le.mpr h)

theorem two_zpow_exponent_le_round (h : 0 < q) : (2 : Rat) ^ exponent q ≤ round q := by
  have hunit := unit_pos q
  have hdigits : (2 ^ 52 : Int) ≤ roundEven (q / unit q) := by
    apply le_roundEven_of_le
    rw [le_div_iff₀ hunit, ← two_zpow_exponent_eq]
    exact two_zpow_exponent_le h
  rw [round_of_pos h, two_zpow_exponent_eq]
  gcongr

theorem round_le_two_zpow_exponent (h : 0 < q) : round q ≤ (2 : Rat) ^ (exponent q + 1) := by
  have hunit := unit_pos q
  have hdigits : roundEven (q / unit q) ≤ (2 ^ 53 : Int) := by
    apply roundEven_le_of_le
    rw [div_le_iff₀ hunit, ← two_zpow_exponent_add_one_eq]
    exact (lt_two_zpow_exponent h).le
  rw [round_of_pos h, two_zpow_exponent_add_one_eq]
  gcongr

theorem round_mono (h : q ≤ r) : round q ≤ round r := by
  rcases le_or_gt q 0 with hq | hq
  · rw [round, if_pos hq]
    exact round_nonneg r
  · have hr : 0 < r := hq.trans_le h
    rcases (exponent_mono hq h).lt_or_eq with hlt | heq
    · calc round q ≤ 2 ^ (exponent q + 1) := round_le_two_zpow_exponent hq
        _ ≤ 2 ^ exponent r := zpow_le_zpow_right₀ (by norm_num) hlt
        _ ≤ round r := two_zpow_exponent_le_round hr
    · have hunit : unit q = unit r := by rw [unit, unit, heq]
      have hpos := unit_pos r
      rw [round_of_pos hq, round_of_pos hr, hunit]
      gcongr
      exact_mod_cast roundEven_mono (by gcongr)

/-- The fraction has no binary digit after the 53rd one. -/
def Fits (q : Rat) : Prop :=
  ∃ n : Int, q = n * unit q

theorem fits_of_exponent {n e : Int} (hq : q = n * 2 ^ e) (he : exponent q - 52 ≤ e) : Fits q := by
  refine ⟨n * 2 ^ (e - (exponent q - 52)).toNat, ?_⟩
  have hpow : (2 : Rat) ^ (e - (exponent q - 52)).toNat * unit q = 2 ^ e := by
    rw [unit, ← zpow_natCast, ← zpow_add₀ (by norm_num)]
    congr 1
    omega
  push_cast
  rw [mul_assoc, hpow]
  exact hq

theorem fits_two_zpow (e : Int) : Fits ((2 : Rat) ^ e) := by
  have he : exponent ((2 : Rat) ^ e) = e :=
    exponent_eq le_rfl (zpow_lt_zpow_right₀ (by norm_num) (by omega))
  exact fits_of_exponent (n := 1) (e := e) (by simp) (by omega)

/-- A whole number of at most 53 digits. -/
theorem fits_natCast {n : Nat} (h : n ≤ 2 ^ 53) : Fits (n : Rat) := by
  rcases h.lt_or_eq with hlt | rfl
  · rcases Nat.eq_zero_or_pos n with rfl | hpos
    · exact ⟨0, by simp⟩
    · have hn : (0 : Rat) < n := by exact_mod_cast hpos
      have hlead : (2 : Rat) ^ exponent (n : Rat) < 2 ^ (53 : Int) :=
        (two_zpow_exponent_le hn).trans_lt (by exact_mod_cast hlt)
      rw [zpow_lt_zpow_iff_right₀ (by norm_num)] at hlead
      exact fits_of_exponent (n := n) (e := 0) (by simp) (by omega)
  · exact_mod_cast fits_two_zpow 53

theorem fits_round (h : 0 < q) : Fits (round q) := by
  rcases (round_le_two_zpow_exponent h).lt_or_eq with hlt | heq
  · have he : exponent (round q) = exponent q := exponent_eq (two_zpow_exponent_le_round h) hlt
    have hunit : unit (round q) = unit q := by rw [unit, unit, he]
    exact ⟨roundEven (q / unit q), hunit ▸ round_of_pos h⟩
  · rw [heq]
    exact fits_two_zpow _

/-- Less than half of the last digit is lost in rounding. -/
theorem Fits.round_add (h : Fits q) (hq : 0 < q) (hf : 0 ≤ f) (hlt : f < unit q / 2) :
    round (q + f) = q := by
  obtain ⟨n, hn⟩ := h
  have hunit := unit_pos q
  have hn' : q / unit q = n := by
    rw [div_eq_iff hunit.ne']
    exact hn
  -- The number is short of the next power of two by at least its last digit.
  have hdigits : n + 1 ≤ 2 ^ 53 := by
    have hlead := lt_two_zpow_exponent hq
    rw [two_zpow_exponent_add_one_eq, ← div_lt_iff₀ hunit, hn'] at hlead
    exact Int.cast_lt.mp hlead
  have hnext : q + f < 2 ^ (exponent q + 1) :=
    calc q + f < n * unit q + unit q := by linarith
      _ = (n + 1 : Int) * unit q := by
        push_cast
        ring
      _ ≤ (2 ^ 53 : Int) * unit q := by gcongr
      _ = 2 ^ (exponent q + 1) := (two_zpow_exponent_add_one_eq q).symm
  have he : exponent (q + f) = exponent q :=
    exponent_eq ((two_zpow_exponent_le hq).trans (by linarith)) hnext
  have hsame : unit (q + f) = unit q := by rw [unit, unit, he]
  have hwhole : roundEven ((q + f) / unit q) = n := by
    have hshare : f / unit q < 1 / 2 := by
      rw [div_lt_iff₀ hunit]
      linarith
    have hnonneg : 0 ≤ f / unit q := by positivity
    rw [add_div, hn']
    have hlow := le_roundEven_of_le (q := n + f / unit q) (n := n) (by linarith)
    have hhigh := roundEven_le_add_half (n + f / unit q)
    have hlt : (roundEven (n + f / unit q) : Rat) < (n + 1 : Int) := by
      push_cast
      linarith
    have hlt : roundEven (n + f / unit q) < n + 1 := by exact_mod_cast hlt
    omega
  rw [round_of_pos (by linarith), hsame, hwhole]
  exact hn.symm

theorem Fits.round_eq (h : Fits q) (hq : 0 ≤ q) : round q = q := by
  rcases hq.lt_or_eq with hpos | rfl
  · have hunit := unit_pos q
    simpa using h.round_add hpos le_rfl (by positivity)
  · rfl

/-! ## The nearest number of 53 digits -/

theorem abs_mul_unit_sub (q x : Rat) : |x * unit q - q| = |x - q / unit q| * unit q := by
  have hunit := unit_pos q
  rw [← abs_of_pos hunit, ← abs_mul, abs_of_pos hunit]
  congr 1
  field_simp

theorem abs_round_sub (hq : 0 < q) :
    |round q - q| = |(roundEven (q / unit q) : Rat) - q / unit q| * unit q := by
  rw [round_of_pos hq, abs_mul_unit_sub]

theorem abs_round_sub_le (hq : 0 < q) (n : Int) : |round q - q| ≤ |n * unit q - q| := by
  rw [abs_round_sub hq, abs_mul_unit_sub]
  exact mul_le_mul_of_nonneg_right (roundEven_nearest _ n) (unit_pos q).le

/-- A number of 53 digits either has its last digit where the rounding has it, or is farther away. -/
theorem Fits.grid_or_farther (h : Fits r) (hq : 0 < q) :
    (∃ n : Int, r = n * unit q) ∨ |round q - q| < |r - q| := by
  rcases lt_or_ge r (2 ^ exponent q) with hlow | hlow
  · right
    have hlead := two_zpow_exponent_le hq
    have hbound := abs_round_sub_le hq (2 ^ 52)
    rw [← two_zpow_exponent_eq] at hbound
    apply hbound.trans_lt
    rw [abs_of_nonpos (by linarith), abs_of_nonpos (by linarith)]
    linarith
  · rcases lt_trichotomy r (2 ^ (exponent q + 1)) with hhigh | rfl | hhigh
    · left
      obtain ⟨n, hn⟩ := h
      refine ⟨n, ?_⟩
      rwa [unit, exponent_eq hlow hhigh] at hn
    · exact .inl ⟨2 ^ 53, two_zpow_exponent_add_one_eq q⟩
    · right
      have hlead := lt_two_zpow_exponent hq
      have hbound := abs_round_sub_le hq (2 ^ 53)
      rw [← two_zpow_exponent_add_one_eq] at hbound
      apply hbound.trans_lt
      rw [abs_of_nonneg (by linarith), abs_of_nonneg (by linarith)]
      linarith

/-- No number of 53 digits is nearer. -/
theorem round_nearest (hq : 0 < q) (h : Fits r) : |round q - q| ≤ |r - q| := by
  rcases h.grid_or_farther hq with ⟨n, rfl⟩ | hfar
  · exact abs_round_sub_le hq n
  · exact hfar.le

/-- When another number of 53 digits is as near, the last digit is even. -/
theorem even_of_tie (hq : 0 < q) (h : Fits r) (hne : r ≠ round q)
    (htie : |r - q| = |round q - q|) : Even (roundEven (q / unit q)) := by
  rcases h.grid_or_farther hq with ⟨n, rfl⟩ | hfar
  · have hunit := unit_pos q
    rw [round_of_pos hq, ne_eq, mul_left_inj' hunit.ne', Int.cast_inj] at hne
    rw [abs_round_sub hq, abs_mul_unit_sub, mul_left_inj' hunit.ne'] at htie
    exact even_roundEven_of_tie hne htie
  · exact absurd htie hfar.ne'

end TieredCache.Binary64
