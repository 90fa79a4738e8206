import Treewalk.Decimal.Shortest
import Treewalk.Proofs.Number.Nearest

/-!
# Reading back the fewest digits

Seventeen digits name a number of the binary format: the neighbour on the
grid of the seventeenth digit is nearer to the number than half way to the
next one. So the search for the fewest digits ends with a decimal that
reads back as the number it was made from (`Decimal.toFloat_shortest`).
-/

namespace Treewalk

/-! ## Digits of a natural number -/

theorem length_digitsOfNat_bounds {n : Nat} (h : 0 < n) :
    (10 : ℚ) ^ ((digitsOfNat n).length - 1 : Int) ≤ n ∧
      (n : ℚ) < 10 ^ ((digitsOfNat n).length : Int) := by
  have hPos : 0 < (digitsOfNat n).length := Nat.length_toDigits_pos
  have hUpper : n < 10 ^ (digitsOfNat n).length :=
    (Nat.length_toDigits_le_iff (by decide) hPos).mp le_rfl
  have hLower : 10 ^ ((digitsOfNat n).length - 1) ≤ n := by
    by_contra hLess
    rcases Nat.eq_zero_or_pos ((digitsOfNat n).length - 1) with hZero | hMore
    · rw [hZero] at hLess
      omega
    · have := (Nat.length_toDigits_le_iff (by decide) hMore).mpr (not_le.mp hLess)
      simp only [digitsOfNat] at this hPos
      omega
  constructor
  · rw [show ((digitsOfNat n).length - 1 : Int) = ((digitsOfNat n).length - 1 : Nat) by omega,
      zpow_natCast]
    exact_mod_cast hLower
  · rw [zpow_natCast]
    exact_mod_cast hUpper

/-! ## The normal form of a decimal -/

namespace Decimal

/-- The number a decimal is written for. -/
def value (d : Decimal) : ℚ :=
  d.digits * 10 ^ d.exponent

theorem value_trim (n : Nat) (e : Int) : (trim n e).value = n * 10 ^ e := by
  fun_induction trim n e with
  | case1 n e h ih =>
    have hTen : (n : ℚ) = (n / 10 : Nat) * 10 := by
      have : n = n / 10 * 10 := by omega
      exact_mod_cast this
    rw [ih, hTen, zpow_add_one₀ (by norm_num)]
    ring
  | case2 n e h => rfl

theorem value_normal (d : Decimal) : d.normal.value = d.value :=
  value_trim _ _

theorem trim_trim (n : Nat) (e : Int) : (trim n e).normal = trim n e := by
  fun_induction trim n e with
  | case1 n e h ih => exact ih
  | case2 n e h => rw [normal, trim, if_neg h]

theorem normal_normal (d : Decimal) : d.normal.normal = d.normal :=
  trim_trim _ _

theorem toFloat_normal (d : Decimal) : d.normal.toFloat = d.toFloat := by
  rw [toFloat, normal_normal, toFloat]

theorem value_pos_iff (d : Decimal) : 0 < d.value ↔ 0 < d.digits := by
  rw [value, mul_pos_iff_of_pos_right (by positivity)]
  exact Nat.cast_pos

theorem top_bounds {d : Decimal} (h : 0 < d.digits) :
    (10 : ℚ) ^ (d.top - 1) ≤ d.value ∧ d.value < 10 ^ d.top := by
  obtain ⟨hLower, hUpper⟩ := length_digitsOfNat_bounds h
  have hPow : (0 : ℚ) < 10 ^ d.exponent := by positivity
  constructor
  · calc (10 : ℚ) ^ (d.top - 1)
        = 10 ^ ((digitsOfNat d.digits).length - 1 : Int) * 10 ^ d.exponent := by
          rw [← zpow_add₀ (by norm_num), top]
          ring_nf
      _ ≤ d.value := by
          rw [value]
          gcongr
  · calc d.value < 10 ^ ((digitsOfNat d.digits).length : Int) * 10 ^ d.exponent := by
          rw [value]
          gcongr
      _ = 10 ^ d.top := by
          rw [← zpow_add₀ (by norm_num), top, add_comm]

theorem fraction_eq_value (d : Decimal) :
    ((d.digits * Nat.pow 10 d.exponent.toNat : Nat) / (Nat.pow 10 (-d.exponent).toNat : Nat) : ℚ) =
      d.value := by
  rw [value, zpow_eq_toNat_div]
  push_cast [Nat.pow_eq]
  rw [mul_div_assoc]

/-- A decimal near a number is read as that number. -/
theorem toFloat_eq {d : Decimal} {b : Binary} (hb : b.Canonical) (h : b.Near d.value)
    (hLower : (10 : ℚ) ^ (-400 : Int) ≤ d.value) (hUpper : d.value < 10 ^ (400 : Int)) :
    d.toFloat = Float.ofBits (min b.pattern infinityBits).toUInt64 := by
  have hPos : 0 < d.normal.digits := by
    rw [← value_pos_iff, value_normal]
    exact lt_of_lt_of_le (by positivity) hLower
  obtain ⟨hTop, hTop'⟩ := top_bounds hPos
  rw [value_normal] at hTop hTop'
  have hAbove := zpow_lt_of_sandwich (by norm_num) hLower hTop'
  have hBelow := zpow_lt_of_sandwich (by norm_num) hTop hUpper
  have hBits := @nearestBits_eq (d.normal.digits * Nat.pow 10 d.normal.exponent.toNat)
    (Nat.pow 10 (-d.normal.exponent).toNat) b (Nat.mul_pos hPos (Nat.pow_pos (by decide)))
    (Nat.pow_pos (by decide)) hb (by rwa [fraction_eq_value, value_normal])
  rw [toFloat, if_neg (by omega), if_neg (by omega), nearest, hBits]

/-- A decimal is rounded to a number that is not negative. -/
theorem exists_toFloat (d : Decimal) :
    ∃ bits ≤ infinityBits, d.toFloat = Float.ofBits bits.toUInt64 := by
  unfold Decimal.toFloat
  extract_lets n
  split
  · exact ⟨_, nearestBits_le _ _, rfl⟩
  split
  · exact ⟨_, nearestBits_le _ _, rfl⟩
  · exact ⟨_, nearestBits_le _ _, rfl⟩

end Decimal

/-! ## The grids -/

namespace Binary

theorem fraction_eq_magnitude (b : Binary) : (b.numerator / b.denominator : ℚ) = b.magnitude := by
  rw [numerator, denominator, magnitude, zpow_eq_toNat_div]
  push_cast [Nat.pow_eq]
  rw [mul_div_assoc]

theorem denominator_pos (b : Binary) : 0 < b.denominator :=
  Nat.pow_pos (by decide)

theorem scaled_pos (b : Binary) (places : Int) : 0 < (b.scaled places).2 :=
  Nat.mul_pos b.denominator_pos (Nat.pow_pos (by decide))

theorem scaled_eq (b : Binary) (places : Int) :
    ((b.scaled places).1 / (b.scaled places).2 : ℚ) = b.magnitude * 10 ^ places := by
  rw [← fraction_eq_magnitude, zpow_eq_toNat_div, scaled]
  push_cast [Nat.pow_eq]
  field_simp

/-- The first digit stands no higher than the number. -/
theorem zpow_leading_le {b : Binary} (h : 0 < b.mantissa) :
    (10 : ℚ) ^ b.leading ≤ b.magnitude := by
  have hNumerator : 0 < b.numerator := Nat.mul_pos h (Nat.pow_pos (by decide))
  have hLower := (length_digitsOfNat_bounds hNumerator).1
  have hUpper := (length_digitsOfNat_bounds b.denominator_pos).2
  have hPos : (0 : ℚ) < b.denominator := by exact_mod_cast b.denominator_pos
  simp only [leading]
  split
  next hLe =>
    have hScaled := scaled_eq b
      (-((digitsOfNat b.numerator).length - (digitsOfNat b.denominator).length))
    have hPos' : (0 : ℚ) < (b.scaled
        (-((digitsOfNat b.numerator).length - (digitsOfNat b.denominator).length))).2 := by
      exact_mod_cast b.scaled_pos _
    have hOne : (1 : ℚ) ≤ b.magnitude *
        10 ^ (-((digitsOfNat b.numerator).length - (digitsOfNat b.denominator).length : Int)) := by
      rw [← hScaled, one_le_div hPos']
      exact_mod_cast hLe
    rwa [zpow_neg, ← div_eq_mul_inv, one_le_div (by positivity)] at hOne
  next hLe =>
    calc (10 : ℚ) ^ ((digitsOfNat b.numerator).length - (digitsOfNat b.denominator).length - 1 : Int)
        = 10 ^ ((digitsOfNat b.numerator).length - 1 : Int) /
            10 ^ ((digitsOfNat b.denominator).length : Int) := by
          rw [← zpow_sub₀ (by norm_num)]
          ring_nf
      _ ≤ b.numerator / 10 ^ ((digitsOfNat b.denominator).length : Int) := by gcongr
      _ ≤ b.numerator / b.denominator := by gcongr
      _ = b.magnitude := b.fraction_eq_magnitude

end Binary

namespace Decimal

/-- A whole number of steps that is at most half a step away. -/
theorem value_steps {b : Binary} {places : Int} {k : Nat}
    (h : |(k : ℚ) - b.magnitude * 10 ^ places| ≤ 1 / 2) :
    |(⟨k, -places⟩ : Decimal).value - b.magnitude| ≤ 10 ^ (-places) / 2 := by
  have hStep : (0 : ℚ) < 10 ^ (-places) := by positivity
  have hCancel : (10 : ℚ) ^ places * 10 ^ (-places) = 1 := by
    rw [← zpow_add₀ (by norm_num), add_neg_cancel, zpow_zero]
  have hSplit : (⟨k, -places⟩ : Decimal).value - b.magnitude =
      (k - b.magnitude * 10 ^ places) * 10 ^ (-places) := by
    rw [sub_mul, mul_assoc, hCancel, mul_one, value]
  rw [hSplit, abs_mul, abs_of_pos hStep]
  nlinarith

/-- Of the two neighbours the nearer one is at most half a step away. -/
theorem exists_neighbour (b : Binary) (places : Int) :
    ∃ d ∈ neighbours b places, |d.value - b.magnitude| ≤ 10 ^ (-places) / 2 := by
  have hScaled := b.scaled_eq places
  have hPos : (0 : ℚ) < (b.scaled places).2 := by exact_mod_cast b.scaled_pos places
  unfold neighbours
  generalize b.scaled places = fraction at hScaled hPos ⊢
  obtain ⟨n, d⟩ := fraction
  simp only at hScaled hPos ⊢
  have hDivide : (n / d : ℚ) = (n / d : Nat) + (n % d : Nat) / d := by
    rw [add_div' _ _ _ hPos.ne', div_left_inj' hPos.ne']
    exact_mod_cast (Nat.div_add_mod' n d).symm
  have hMod : ((n % d : Nat) / d : ℚ) < 1 := by
    rw [div_lt_one hPos]
    exact_mod_cast Nat.mod_lt n (by exact_mod_cast hPos)
  rw [hDivide] at hScaled
  split
  next hNear =>
    refine ⟨_, List.mem_cons_self, value_steps ?_⟩
    have hLe : ((n % d : Nat) / d : ℚ) ≤ 1 / 2 := by
      rw [div_le_div_iff₀ hPos two_pos]
      have : n % d * 2 ≤ 1 * d := by omega
      exact_mod_cast this
    have hNonneg : (0 : ℚ) ≤ (n % d : Nat) / d := by positivity
    rw [← hScaled, abs_le]
    constructor <;> linarith
  next hNear =>
    refine ⟨_, List.mem_cons_self, value_steps ?_⟩
    have hLe : (1 / 2 : ℚ) ≤ (n % d : Nat) / d := by
      rw [div_le_div_iff₀ two_pos hPos]
      have : 1 * d ≤ n % d * 2 := by omega
      exact_mod_cast this
    rw [← hScaled, abs_le]
    push_cast
    constructor <;> linarith

end Decimal

/-! ## Seventeen digits -/

/-- What is off by less than the seventeenth digit is near. -/
theorem Binary.Canonical.near {b : Binary} {r : ℚ} (hb : b.Canonical)
    (h : |r - b.magnitude| ≤ b.magnitude / 10 ^ 16 / 2) : b.Near r := by
  have hUnit : (0 : ℚ) < 2 ^ b.exponent := by positivity
  have hLead : (Binary.lead : ℚ) = 4503599627370496 := by norm_num [Binary.lead]
  constructor
  · have hLess : (b.mantissa : ℚ) < 2 * Binary.lead := by exact_mod_cast hb.mantissa_lt
    have hSmall : b.magnitude / 10 ^ 16 < 2 ^ b.exponent := by
      rw [div_lt_iff₀ (by norm_num), magnitude, mul_comm]
      gcongr
      linarith
    linarith
  · intro hm
    have hSmall : b.magnitude / 10 ^ 16 < 2 ^ b.exponent / 2 := by
      rw [div_lt_iff₀ (by norm_num), magnitude, hm, hLead]
      linarith
    linarith

theorem two_pow_le_ten_pow (k : Nat) : (2 : ℚ) ^ (3 * k) ≤ 10 ^ k := by
  rw [pow_mul]
  gcongr
  norm_num

/-- The numbers lie far inside the range in which digits count. -/
theorem magnitude_bounds {b : Binary} (hb : b.Canonical) (hPos : 0 < b.mantissa)
    (hFinite : b.pattern < infinityBits) :
    (10 : ℚ) ^ (-400 : Int) ≤ b.magnitude / 2 ∧ b.magnitude * 2 < 10 ^ (400 : Int) := by
  obtain ⟨hLess, hLeast, hFull⟩ := hb
  have hExponent : b.exponent ≤ 971 := by
    simp only [Binary.pattern, Binary.least, Binary.lead, infinityBits, Nat.pow_eq, Nat.reducePow]
      at hFinite hLeast hFull
    omega
  have hUnit : (0 : ℚ) < 2 ^ b.exponent := by positivity
  have hOne : (1 : ℚ) ≤ b.mantissa := by exact_mod_cast hPos
  have hMantissa : (b.mantissa : ℚ) < 2 ^ (53 : Int) := by
    have : (b.mantissa : ℚ) < 2 * Binary.lead := by exact_mod_cast hLess
    norm_num [Binary.lead] at this ⊢
    exact this
  constructor
  · calc (10 : ℚ) ^ (-(400 : Nat) : Int) ≤ 2 ^ (-(3 * 400 : Nat) : Int) := by
          rw [zpow_neg, zpow_neg, zpow_natCast, zpow_natCast]
          gcongr
          exact two_pow_le_ten_pow 400
      _ ≤ 2 ^ (b.exponent - 1) :=
          zpow_le_zpow_right₀ one_le_two (by simp only [Binary.least] at hLeast; omega)
      _ = 1 * 2 ^ b.exponent / 2 := by rw [zpow_sub_one₀ two_ne_zero, one_mul, div_eq_mul_inv]
      _ ≤ b.magnitude / 2 := by
          rw [Binary.magnitude]
          gcongr
  · calc b.magnitude * 2 < 2 ^ (53 : Int) * 2 ^ b.exponent * 2 := by
          rw [Binary.magnitude]
          gcongr
      _ = 2 ^ (53 + b.exponent + 1) := by
          rw [zpow_add_one₀ two_ne_zero, zpow_add₀ two_ne_zero]
      _ ≤ 2 ^ ((3 * 400 : Nat) : Int) := zpow_le_zpow_right₀ one_le_two (by omega)
      _ ≤ 10 ^ ((400 : Nat) : Int) := by
          rw [zpow_natCast, zpow_natCast]
          exact two_pow_le_ten_pow 400

namespace Decimal

/-- On the grid of the seventeenth digit a neighbour reads back. -/
theorem exists_neighbour_toFloat {bits : Nat} (hPos : 0 < bits) (hFinite : bits < infinityBits) :
    ∃ d ∈ neighbours (.ofPattern bits) (16 - (Binary.ofPattern bits).leading),
      d.toFloat = Float.ofBits bits.toUInt64 := by
  have hCanonical := Binary.canonical_ofPattern bits
  have hPattern := Binary.pattern_ofPattern bits
  have hMantissa := (Binary.pattern_pos_iff bits).mpr hPos
  generalize Binary.ofPattern bits = b at hCanonical hPattern hMantissa ⊢
  obtain ⟨d, hMem, hError⟩ := exists_neighbour b (16 - b.leading)
  obtain ⟨hLower, hUpper⟩ := magnitude_bounds hCanonical hMantissa (hPattern.symm ▸ hFinite)
  have hClose : |d.value - b.magnitude| ≤ b.magnitude / 10 ^ 16 / 2 := by
    have hLeading : (10 : ℚ) ^ (-(16 - b.leading)) ≤ b.magnitude / 10 ^ 16 := by
      rw [neg_sub, zpow_sub₀ (by norm_num)]
      have := Binary.zpow_leading_le hMantissa
      norm_num
      gcongr
    linarith
  have hMagnitude : 0 < b.magnitude := by
    rw [Binary.magnitude]
    positivity
  have hTenth : b.magnitude / 10 ^ 16 ≤ b.magnitude := div_le_self hMagnitude.le (by norm_num)
  obtain ⟨hAbove, hBelow⟩ := abs_le.mp hClose
  have hHalf : b.magnitude / 2 ≤ d.value := by linarith only [hAbove, hTenth]
  have hTwice : d.value ≤ b.magnitude * 2 := by linarith only [hBelow, hTenth, hMagnitude]
  refine ⟨d, hMem, ?_⟩
  rw [toFloat_eq hCanonical (hCanonical.near hClose) (hLower.trans hHalf) (hTwice.trans_lt hUpper),
    hPattern, min_eq_left hFinite.le]

/-- The fewest digits of a positive number read back as the number. -/
theorem toFloat_shortest {bits : Nat} (hPos : 0 < bits) (hFinite : bits < infinityBits) :
    (shortest (Float.ofBits bits.toUInt64)).toFloat = Float.ofBits bits.toUInt64 := by
  obtain ⟨d, hMem, hRead⟩ := exists_neighbour_toFloat hPos hFinite
  unfold shortest
  rw [ofFloat_ofBits hFinite.le hFinite]
  extract_lets b first grid hit
  split
  next found hFound =>
    obtain ⟨k, _, hHit⟩ := List.exists_of_findSome?_eq_some hFound
    simp only [hit] at hHit
    have hFits := List.find?_some hHit
    rw [toFloat_normal]
    exact of_decide_eq_true hFits
  next hNone =>
    have hLast : hit 16 = none := List.findSome?_eq_none_iff.mp hNone 16 (by decide)
    have hMiss := List.find?_eq_none.mp hLast d hMem
    exact absurd (decide_eq_true hRead) hMiss

end Decimal

end Treewalk
