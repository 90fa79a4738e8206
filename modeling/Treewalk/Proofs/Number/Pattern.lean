import Mathlib
import Treewalk.Binary

/-!
# Patterns of non-negative numbers

The pattern of a non-negative number is its mantissa added to its
exponent, counted from the least one in steps of the leading digit
(`Binary.pattern`). Taking a pattern apart finds the one mantissa of full
length that it came from (`Binary.ofPattern`), and reading a pattern as a
number keeps it (`toNat_toBits_ofBits`).
-/

namespace Treewalk

open Float.Model Float.Model.UnpackedFloat Float.Model.Format

/-! ## Mantissa and exponent -/

namespace Binary

/-- A mantissa of full length, or one of the least exponent. -/
structure Canonical (b : Binary) : Prop where
  mantissa_lt : b.mantissa < 2 * lead
  least_le : least ≤ b.exponent
  full : lead ≤ b.mantissa ∨ b.exponent = least

/-- The pattern of a mantissa and an exponent. -/
def pattern (b : Binary) : Nat :=
  (b.exponent - least).toNat * lead + b.mantissa

/-- The mantissa and the exponent of a pattern. -/
def ofPattern (bits : Nat) : Binary :=
  if bits < lead then ⟨false, bits, least⟩
  else ⟨false, lead + bits % lead, least + (bits / lead : Nat) - 1⟩

theorem canonical_ofPattern (bits : Nat) : (ofPattern bits).Canonical := by
  have hMod : bits % lead < lead := Nat.mod_lt _ (by decide)
  unfold ofPattern
  split
  next h => exact ⟨by simp only; omega, le_refl _, .inr rfl⟩
  next h =>
    have hDiv : 0 < bits / lead := Nat.div_pos (not_lt.mp h) (by decide)
    exact ⟨by simp only; omega, by simp only; omega, .inl (Nat.le_add_right _ _)⟩

theorem pattern_ofPattern (bits : Nat) : (ofPattern bits).pattern = bits := by
  unfold ofPattern
  split
  next h => simp [pattern]
  next h =>
    have hDiv : 0 < bits / lead := Nat.div_pos (not_lt.mp h) (by decide)
    have hExponent : (least + (bits / lead : Nat) - 1 - least).toNat = bits / lead - 1 := by omega
    have hSplit := Nat.div_add_mod' bits lead
    have hStep : bits / lead * lead = (bits / lead - 1) * lead + lead := by
      rw [← Nat.succ_mul, Nat.succ_eq_add_one, Nat.sub_add_cancel hDiv]
    simp only [pattern, hExponent]
    omega

theorem pattern_pos_iff (bits : Nat) : 0 < (ofPattern bits).mantissa ↔ 0 < bits := by
  unfold ofPattern
  have hLead : 0 < lead := by decide
  split
  next h => exact Iff.rfl
  next h => constructor <;> intro <;> simp only at * <;> omega

end Binary

/-! ## The fields of a pattern -/

theorem toNat_unpackMantissa (v : BitVec 64) :
    (@unpackMantissa binary64 v).toNat = v.toNat % Binary.lead := by
  simp [unpackMantissa, Binary.lead]

/-- The largest patterns are those with the sign set, so below infinity
the exponent is all there is above the mantissa. -/
theorem toNat_unpackExponent {v : BitVec 64} (h : v.toNat ≤ infinityBits) :
    (@unpackExponent binary64 v).toNat = v.toNat / Binary.lead := by
  simp only [infinityBits] at h
  simp [unpackExponent, Nat.shiftRight_eq_div_pow, Binary.lead]
  omega

theorem unpackSign_eq_zero {v : BitVec 64} (h : v.toNat ≤ infinityBits) :
    @unpackSign binary64 v = 0#1 := by
  apply BitVec.eq_of_toNat_eq
  have hShift : v.toNat >>> 63 = 0 := by
    rw [Nat.shiftRight_eq_div_pow]
    simp only [infinityBits] at h
    omega
  simp [unpackSign, hShift]

/-! ## Taking apart and putting together -/

/-- What the pattern of a non-negative number is taken apart into. -/
inductive Unpacks (bits : Nat) : UnpackedFloat → Prop
  | infinity : bits = infinityBits → Unpacks bits (.infinity .positive)
  | zero : bits = 0 → Unpacks bits (.zero .positive)
  | finite (m : Nat) (e : Int) (h : 0 < m) : bits < infinityBits →
      m = (Binary.ofPattern bits).mantissa → e = (Binary.ofPattern bits).exponent →
      Unpacks bits (.finite .positive m e h)

theorem unpacks_unpack {v : BitVec 64} (h : v.toNat ≤ infinityBits) :
    Unpacks v.toNat (UnpackedFloat.unpack binary64 v) := by
  have hm := toNat_unpackMantissa v
  have he := toNat_unpackExponent h
  have hs : Sign.ofBitVec (@unpackSign binary64 v) = .positive := by
    rw [unpackSign_eq_zero h]
    rfl
  have hTop : @unpackExponent binary64 v = -1#11 ↔ v.toNat / Binary.lead = 2047 := by
    rw [← he, ← BitVec.toNat_inj]
    rfl
  have hLow : @unpackExponent binary64 v = 0#11 ↔ v.toNat / Binary.lead = 0 := by
    rw [← he, ← BitVec.toNat_inj]
    rfl
  have hZero : @unpackMantissa binary64 v = 0#52 ↔ v.toNat % Binary.lead = 0 := by
    rw [← hm, ← BitVec.toNat_inj]
    rfl
  have hLead : (1#1 ++ @unpackMantissa binary64 v).toNat = Binary.lead + v.toNat % Binary.lead := by
    rw [BitVec.toNat_append, ← Nat.shiftLeft_add_eq_or_of_lt (BitVec.isLt _), Nat.shiftLeft_eq, hm]
    rfl
  have hBias : exponentBias binary64 = 1023 := rfl
  unfold UnpackedFloat.unpack
  simp only [hs, hTop, hLow, hZero, he, hm, hBias]
  by_cases hMost : v.toNat / Binary.lead = 2047
  · have hEq : v.toNat = infinityBits := by
      simp only [infinityBits, Binary.lead, Nat.pow_eq, Nat.reducePow] at h hMost ⊢
      omega
    rw [if_pos hMost, if_pos (by rw [hEq]; rfl)]
    exact .infinity hEq
  have hFinite : v.toNat < infinityBits := by
    simp only [infinityBits, Binary.lead, Nat.pow_eq, Nat.reducePow] at h hMost ⊢
    omega
  rw [if_neg hMost]
  by_cases hLeast : v.toNat / Binary.lead = 0
  · have hLess : v.toNat < Binary.lead := (Nat.div_eq_zero_iff_lt (by decide)).mp hLeast
    rw [if_pos hLeast]
    by_cases hNone : v.toNat % Binary.lead = 0
    · rw [dif_pos hNone]
      exact .zero (by rwa [Nat.mod_eq_of_lt hLess] at hNone)
    · rw [dif_neg hNone]
      apply Unpacks.finite _ _ _ hFinite
      · rw [Binary.ofPattern, if_pos hLess, Nat.mod_eq_of_lt hLess]
      · rw [Binary.ofPattern, if_pos hLess, hLeast]
        rfl
  · have hLess : ¬ v.toNat < Binary.lead := fun hLess => hLeast (Nat.div_eq_of_lt hLess)
    rw [if_neg hLeast]
    apply Unpacks.finite _ _ _ hFinite
    · rw [Binary.ofPattern, if_neg hLess, hLead]
    · rw [Binary.ofPattern, if_neg hLess]
      simp only [Binary.least]
      omega

/-- No pattern up to infinity is one of those that stand for no number,
so putting the parts together gives the pattern back. -/
theorem pack_unpack_of_le {v : BitVec 64} (h : v.toNat ≤ infinityBits) :
    UnpackedFloat.pack binary64 (UnpackedFloat.unpack binary64 v) = v := by
  have hUnpacks := unpacks_unpack h
  have hNumber : ¬ @isNaNBits binary64 v := by
    intro hNaN
    have hNone : UnpackedFloat.unpack binary64 v = .notANumber := by
      simp only [isNaNBits, decide_eq_true_eq] at hNaN
      simp only [UnpackedFloat.unpack, if_pos hNaN.1, if_neg hNaN.2]
    rw [hNone] at hUnpacks
    cases hUnpacks
  rw [@pack_unpack binary64 v (by decide), if_neg hNumber]

theorem Unpacks.isNaN_eq {bits : Nat} {u : UnpackedFloat} (h : Unpacks bits u) :
    u.isNaN = false := by
  cases h <;> rfl

theorem Unpacks.isInf_eq {bits : Nat} {u : UnpackedFloat} (h : Unpacks bits u) :
    u.isInf = decide (bits = infinityBits) := by
  cases h with
  | infinity hEq => exact (decide_eq_true hEq).symm
  | zero hEq => rw [hEq]; rfl
  | finite m e hm hFinite => exact (decide_eq_false hFinite.ne).symm

theorem Unpacks.abs_eq {bits : Nat} {u : UnpackedFloat} (h : Unpacks bits u) : u.abs = u := by
  cases h <;> rfl

/-! ## Numbers of a pattern -/

section

variable {bits : Nat} (h : bits ≤ infinityBits)
include h

theorem toNat_toUInt64 : bits.toUInt64.toBitVec.toNat = bits := by
  apply Nat.mod_eq_of_lt
  simp only [infinityBits] at h
  omega

theorem pack_unpack_toUInt64 :
    UnpackedFloat.pack binary64 (UnpackedFloat.unpack binary64 bits.toUInt64.toBitVec) =
      bits.toUInt64.toBitVec :=
  pack_unpack_of_le ((toNat_toUInt64 h).symm ▸ h)

theorem unpack_ofBits : (Float.ofBits bits.toUInt64).toModel.unpack =
    UnpackedFloat.unpack binary64 bits.toUInt64.toBitVec :=
  congrArg (UnpackedFloat.unpack binary64) (pack_unpack_toUInt64 h)

theorem unpacks_ofBits : Unpacks bits (Float.ofBits bits.toUInt64).toModel.unpack := by
  have hBits := toNat_toUInt64 h
  have hUnpacks := unpacks_unpack (hBits.symm ▸ h)
  rwa [hBits, ← unpack_ofBits h] at hUnpacks

/-- A number read from a pattern has that pattern. -/
theorem toNat_toBits_ofBits : (Float.ofBits bits.toUInt64).toBits.toNat = bits :=
  (congrArg BitVec.toNat (pack_unpack_toUInt64 h)).trans (toNat_toUInt64 h)

theorem isNaN_ofBits : (Float.ofBits bits.toUInt64).isNaN = false :=
  (unpacks_ofBits h).isNaN_eq

theorem isInf_ofBits : (Float.ofBits bits.toUInt64).isInf = decide (bits = infinityBits) :=
  (unpacks_ofBits h).isInf_eq

theorem abs_ofBits : (Float.ofBits bits.toUInt64).abs = Float.ofBits bits.toUInt64 := by
  have hAbs := (unpacks_ofBits h).abs_eq
  rw [unpack_ofBits h] at hAbs
  show Float.ofModel (Float.Model.pack (Float.ofBits bits.toUInt64).toModel.unpack.abs) = _
  rw [unpack_ofBits h, hAbs]
  rfl

/-- The sign is the leading bit of a pattern. -/
theorem sign_clear : decide (Nat.pow 2 63 ≤ bits) = false := by
  apply decide_eq_false
  simp only [infinityBits, Nat.pow_eq, Nat.reducePow] at h ⊢
  omega

theorem negative_ofBits : (Binary.ofFloat (Float.ofBits bits.toUInt64)).negative = false := by
  simp only [Binary.ofFloat, toNat_toBits_ofBits h, sign_clear h]
  split <;> rfl

/-- The parts of a number below infinity are those of its pattern. -/
theorem ofFloat_ofBits (hFinite : bits < infinityBits) :
    Binary.ofFloat (Float.ofBits bits.toUInt64) = Binary.ofPattern bits := by
  have hPlace : bits / Binary.lead % Nat.pow 2 11 = bits / Binary.lead := by
    apply Nat.mod_eq_of_lt
    simp only [infinityBits, Binary.lead, Nat.pow_eq, Nat.reducePow] at hFinite ⊢
    omega
  have hLeast : bits / Binary.lead = 0 ↔ bits < Binary.lead :=
    Nat.div_eq_zero_iff_lt (by decide)
  simp only [Binary.ofFloat, toNat_toBits_ofBits h, hPlace, sign_clear h, hLeast, Binary.ofPattern]
  split
  next hLess => rw [Nat.mod_eq_of_lt hLess]
  next hLess => rfl

end

end Treewalk
