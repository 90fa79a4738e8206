import Treewalk.Proofs.Number.Pattern

/-!
# The nearest number

A fraction that is nearer to a number of the binary format than to any
other is rounded to it (`nearestBits_eq`). Half the distance to the next
number is half a unit in the last place, and a quarter of one below a
power of two, where the numbers become denser.
-/

namespace Treewalk

/-! ## Powers of an integer exponent -/

/-- A power of an integer exponent as the fraction the program computes
with. -/
theorem zpow_eq_toNat_div (a : ℚ) (e : Int) : a ^ e = a ^ e.toNat / a ^ (-e).toNat := by
  rcases e.eq_nat_or_neg with ⟨n, rfl | rfl⟩ <;> simp

theorem zpow_lt_of_sandwich {a r : ℚ} {i j : Int} (ha : 1 < a) (hLower : a ^ i ≤ r)
    (hUpper : r < a ^ j) : i < j :=
  (zpow_lt_zpow_iff_right₀ ha).mp (lt_of_le_of_lt hLower hUpper)

/-! ## Rounding a quotient -/

theorem roundDiv_eq {n d m : Nat} (hd : 0 < d) (h : |(n / d : ℚ) - m| < 1 / 2) :
    roundDiv n d = m := by
  have hd' : (0 : ℚ) < d := by exact_mod_cast hd
  obtain ⟨hLower, hUpper⟩ := abs_lt.mp h
  have hAbove : 2 * n < (2 * m + 1) * d := by
    have hLess : (n / d : ℚ) < (2 * m + 1) / 2 := by linarith
    rw [div_lt_div_iff₀ hd' two_pos] at hLess
    have : (2 * n : ℚ) < (2 * m + 1) * d := by linarith
    exact_mod_cast this
  have hBelow : 2 * m * d < 2 * n + d := by
    have hLess : (2 * m - 1 : ℚ) / 2 < n / d := by linarith
    rw [div_lt_div_iff₀ two_pos hd'] at hLess
    have : (2 * m * d : ℚ) < 2 * n + d := by linarith
    exact_mod_cast this
  have hSplit := Nat.div_add_mod' n d
  have hMod := Nat.mod_lt n hd
  have hGe : n / d ≤ m := by
    have : 2 * (n / d) < 2 * m + 1 := by
      apply Nat.lt_of_mul_lt_mul_right (a := d)
      calc 2 * (n / d) * d = 2 * (n / d * d) := by ring
        _ ≤ 2 * n := by omega
        _ < (2 * m + 1) * d := hAbove
    omega
  have hLe : m ≤ n / d + 1 := by
    have : 2 * m < 2 * (n / d) + 3 := by
      apply Nat.lt_of_mul_lt_mul_right (a := d)
      calc 2 * m * d < 2 * n + d := hBelow
        _ = 2 * (n / d * d) + (2 * (n % d) + d) := by omega
        _ ≤ 2 * (n / d * d) + 3 * d := by omega
        _ = (2 * (n / d) + 3) * d := by ring
    omega
  have hCases : m = n / d ∨ m = n / d + 1 := by omega
  simp only [roundDiv]
  rcases hCases with rfl | rfl
  · rw [if_neg]
    have : (2 * (n / d) + 1) * d = 2 * (n / d * d) + d := by ring
    omega
  · rw [if_pos]
    have : 2 * (n / d + 1) * d = 2 * (n / d * d) + 2 * d := by ring
    omega

/-! ## The exponent of a fraction -/

theorem log2_bounds {n : Nat} (h : 0 < n) :
    (2 : ℚ) ^ (n.log2 : Int) ≤ n ∧ (n : ℚ) < 2 ^ ((n.log2 : Int) + 1) := by
  constructor
  · rw [zpow_natCast]
    exact_mod_cast Nat.log2_self_le h.ne'
  · have hLess := @Nat.lt_log2_self n
    rw [← Nat.cast_succ, zpow_natCast]
    exact_mod_cast hLess

theorem scale_le_iff {n d : Nat} (hd : 0 < d) (e : Int) :
    d * Nat.pow 2 e.toNat ≤ n * Nat.pow 2 (-e).toNat ↔ (2 : ℚ) ^ e ≤ n / d := by
  have hd' : (0 : ℚ) < d := by exact_mod_cast hd
  rw [zpow_eq_toNat_div, div_le_div_iff₀ (by positivity) hd', mul_comm d]
  simp only [Nat.pow_eq]
  exact_mod_cast Iff.rfl

theorem binaryExponent_bounds {n d : Nat} (hn : 0 < n) (hd : 0 < d) :
    (2 : ℚ) ^ binaryExponent n d ≤ n / d ∧ (n / d : ℚ) < 2 ^ (binaryExponent n d + 1) := by
  obtain ⟨hnLower, hnUpper⟩ := log2_bounds hn
  obtain ⟨hdLower, hdUpper⟩ := log2_bounds hd
  have hd' : (0 : ℚ) < d := by exact_mod_cast hd
  simp only [binaryExponent, scale_le_iff hd]
  split
  next h =>
    refine ⟨h, ?_⟩
    calc (n / d : ℚ) < 2 ^ ((n.log2 : Int) + 1) / d := by gcongr
      _ ≤ 2 ^ ((n.log2 : Int) + 1) / 2 ^ (d.log2 : Int) := by gcongr
      _ = 2 ^ ((n.log2 : Int) - d.log2 + 1) := by
        rw [← zpow_sub₀ two_ne_zero]
        ring_nf
  next h =>
    refine ⟨?_, by simpa using h⟩
    calc (2 : ℚ) ^ ((n.log2 : Int) - d.log2 - 1)
        = 2 ^ (n.log2 : Int) / 2 ^ ((d.log2 : Int) + 1) := by
          rw [← zpow_sub₀ two_ne_zero]
          ring_nf
      _ ≤ n / 2 ^ ((d.log2 : Int) + 1) := by gcongr
      _ ≤ n / d := by gcongr

theorem binaryExponent_eq {n d : Nat} (hn : 0 < n) (hd : 0 < d) {e : Int}
    (hLower : (2 : ℚ) ^ e ≤ n / d) (hUpper : (n / d : ℚ) < 2 ^ (e + 1)) :
    binaryExponent n d = e := by
  obtain ⟨hLower', hUpper'⟩ := binaryExponent_bounds hn hd
  have h := zpow_lt_of_sandwich one_lt_two hLower hUpper'
  have h' := zpow_lt_of_sandwich one_lt_two hLower' hUpper
  omega

/-! ## The nearest pattern -/

namespace Binary

/-- The magnitude as a rational number. -/
def magnitude (b : Binary) : ℚ :=
  b.mantissa * 2 ^ b.exponent

/-- A fraction lies nearer to a number than half way to the next one. -/
structure Near (b : Binary) (r : ℚ) : Prop where
  half : |r - b.magnitude| < 2 ^ b.exponent / 2
  quarter : b.mantissa = lead → |r - b.magnitude| < 2 ^ b.exponent / 4

end Binary

theorem scaled_div (n d : Nat) (e : Int) :
    ((n * Nat.pow 2 (-e).toNat : Nat) / (d * Nat.pow 2 e.toNat : Nat) : ℚ) = n / d / 2 ^ e := by
  rw [zpow_eq_toNat_div]
  push_cast [Nat.pow_eq]
  field_simp

theorem roundDiv_scaled {n d m : Nat} {e : Int} (hd : 0 < d)
    (h : |(n / d : ℚ) - m * 2 ^ e| < 2 ^ e / 2) :
    roundDiv (n * Nat.pow 2 (-e).toNat) (d * Nat.pow 2 e.toNat) = m := by
  have he : (0 : ℚ) < 2 ^ e := by positivity
  have hPos : 0 < d * Nat.pow 2 e.toNat := Nat.mul_pos hd (Nat.pow_pos two_pos)
  apply roundDiv_eq hPos
  rw [scaled_div]
  calc |(n / d : ℚ) / 2 ^ e - m| = |(n / d : ℚ) - m * 2 ^ e| / 2 ^ e := by
        rw [← abs_of_pos he, ← abs_div, abs_of_pos he, sub_div, mul_div_cancel_right₀ _ he.ne']
    _ < 1 / 2 := by
        rw [div_lt_iff₀ he]
        linarith

theorem nearestBits_of_place {n d m : Nat} {e : Int} (hn : 0 < n) (hd : 0 < d)
    (hPlace : max (binaryExponent n d - 52) Binary.least = e)
    (h : |(n / d : ℚ) - m * 2 ^ e| < 2 ^ e / 2) :
    nearestBits n d = min ((e - Binary.least).toNat * Binary.lead + m) infinityBits := by
  simp only [nearestBits, if_neg hn.ne', hPlace, roundDiv_scaled hd h]

theorem zpow_add_lead (e : Int) : (2 : ℚ) ^ (e + 52) = Binary.lead * 2 ^ e := by
  rw [zpow_add₀ two_ne_zero, mul_comm]
  norm_num [Binary.lead]

/-- Just below a power of two the unit is half as large and the mantissa
twice as large, and rounding up gives the pattern of the power. -/
theorem nearestBits_below {n d : Nat} {e : Int} (hn : 0 < n) (hd : 0 < d) (he : Binary.least < e)
    (hBelow : (n / d : ℚ) < 2 ^ (e + 52))
    (hNear : |(n / d : ℚ) - Binary.lead * 2 ^ e| < 2 ^ e / 4) :
    nearestBits n d =
      min ((e - Binary.least).toNat * Binary.lead + Binary.lead) infinityBits := by
  have hPos : (0 : ℚ) < 2 ^ e := by positivity
  have hClose : |(n / d : ℚ) - (2 * Binary.lead : Nat) * 2 ^ (e - 1)| < 2 ^ (e - 1) / 2 := by
    have hUnit : (2 : ℚ) ^ e = 2 ^ (e - 1) * 2 := by
      rw [← zpow_add_one₀ two_ne_zero, sub_add_cancel]
    rw [hUnit] at hNear
    push_cast
    ring_nf at hNear ⊢
    exact hNear
  have hExponent : binaryExponent n d = e + 51 := by
    apply binaryExponent_eq hn hd _ (by rw [add_assoc]; exact hBelow)
    have hHalved : (2 : ℚ) ^ (e + 51) = Binary.lead * 2 ^ e / 2 := by
      rw [← zpow_add_lead, show e + 52 = e + 51 + 1 by ring, zpow_add_one₀ two_ne_zero]
      ring
    have hOne : (1 : ℚ) ≤ Binary.lead := by norm_num [Binary.lead]
    rw [hHalved]
    nlinarith [(abs_lt.mp hNear).1]
  have hStep : (e - Binary.least).toNat = (e - 1 - Binary.least).toNat + 1 := by omega
  have hSame : (e - 1 - Binary.least).toNat * Binary.lead + 2 * Binary.lead =
      (e - Binary.least).toNat * Binary.lead + Binary.lead := by
    rw [hStep, Nat.succ_mul (e - 1 - Binary.least).toNat]
    omega
  rw [nearestBits_of_place hn hd (by omega) hClose, hSame]

/-- A fraction near a number is rounded to the pattern of that number. -/
theorem nearestBits_eq {n d : Nat} {b : Binary} (hn : 0 < n) (hd : 0 < d) (hb : b.Canonical)
    (h : b.Near (n / d)) : nearestBits n d = min b.pattern infinityBits := by
  obtain ⟨negative, m, e⟩ := b
  obtain ⟨hLess, hLeast, hFull⟩ := hb
  obtain ⟨hHalf, hQuarter⟩ := h
  simp only [Binary.magnitude] at hLess hLeast hFull hHalf hQuarter
  have he : (0 : ℚ) < 2 ^ e := by positivity
  obtain ⟨hLower, hUpper⟩ := abs_lt.mp hHalf
  have hBelow : (n / d : ℚ) < 2 ^ (e + 52 + 1) := by
    have hm : (m : ℚ) + 1 ≤ 2 * Binary.lead := by exact_mod_cast hLess
    rw [zpow_add_one₀ two_ne_zero, zpow_add_lead]
    nlinarith
  by_cases hWide : (2 : ℚ) ^ (e + 52) ≤ n / d
  · have hExponent := binaryExponent_eq hn hd hWide hBelow
    apply nearestBits_of_place hn hd _ hHalf
    omega
  by_cases hEnd : e = Binary.least
  · have hExponent := zpow_lt_of_sandwich one_lt_two (binaryExponent_bounds hn hd).1 hBelow
    apply nearestBits_of_place hn hd _ hHalf
    omega
  -- Too small for a mantissa of full length, so the mantissa is the least
  -- of those.
  have hm : m = Binary.lead := by
    have hFull : (Binary.lead : ℚ) ≤ m := by exact_mod_cast hFull.resolve_right hEnd
    have hSmall : (m : ℚ) < Binary.lead + 1 := by
      rw [zpow_add_lead] at hWide
      nlinarith
    have : m < Binary.lead + 1 := by exact_mod_cast hSmall
    omega
  subst hm
  exact nearestBits_below hn hd (lt_of_le_of_ne hLeast (Ne.symm hEnd)) (not_le.mp hWide)
    (hQuarter rfl)

/-- What is too large is rounded to infinity, which is the last pattern. -/
theorem nearestBits_le (n d : Nat) : nearestBits n d ≤ infinityBits := by
  unfold nearestBits
  split
  · exact Nat.zero_le _
  · exact Nat.min_le_right _ _

end Treewalk
