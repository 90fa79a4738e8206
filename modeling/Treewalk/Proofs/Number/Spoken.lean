import Treewalk.Proofs.Json.Numeral
import Treewalk.Value

/-!
# Numbers as a program prints them

A finite number that is not negative is printed in one of two ways: a
whole number that is not too large by its digits, any other by the layout
of its fewest digits (`spoken_cases`). Either way it is printed in the
characters of numerals, a digit first, and it is read back from what was
printed (`readNumber?_write`). So no two numbers are printed alike.
-/

namespace Treewalk

open Json

/-! ## Characters -/

/-- A character that numerals are made of. -/
def isNumeral (c : Char) : Bool :=
  c.isDigit || ['.', 'e', '+', '-'].contains c

theorem isNumeral_of_isDigit {c : Char} (h : c.isDigit) : isNumeral c := by
  rw [isNumeral, h, Bool.true_or]

theorem isNumeral_of_mem_digitsOfNat {n : Nat} {c : Char} (h : c ∈ digitsOfNat n) : isNumeral c :=
  isNumeral_of_isDigit (isDigit_of_mem_digitsOfNat h)

theorem isNumeral_of_mem_zeros {k : Nat} {c : Char} (h : c ∈ List.replicate k '0') :
    isNumeral c :=
  isNumeral_of_isDigit (isDigit_of_mem_zeros h)

theorem exists_digitsOfNat (n : Nat) : ∃ c cs, digitsOfNat n = c :: cs ∧ c.isDigit := by
  obtain ⟨c, cs, hDigits⟩ := List.exists_cons_of_length_pos (l := digitsOfNat n)
    Nat.length_toDigits_pos
  exact ⟨c, cs, hDigits, isDigit_of_mem_digitsOfNat (hDigits ▸ List.mem_cons_self)⟩

/-- Both layouts are made of the characters of numerals. -/
theorem isNumeral_of_mem_layout {width : Nat} {d : Decimal} :
    ∀ c ∈ d.layout width, isNumeral c := by
  have hDigits : ∀ n, ∀ c ∈ digitsOfNat n, isNumeral c := fun n c => isNumeral_of_mem_digitsOfNat
  have hTake : ∀ k, ∀ c ∈ (digitsOfNat d.digits).take k, isNumeral c :=
    fun k c hc => hDigits _ c (List.mem_of_mem_take hc)
  have hDrop : ∀ k, ∀ c ∈ (digitsOfNat d.digits).drop k, isNumeral c :=
    fun k c hc => hDigits _ c (List.mem_of_mem_drop hc)
  have hZeros : ∀ k, ∀ c ∈ List.replicate k '0', isNumeral c := fun k c => isNumeral_of_mem_zeros
  have hPoint : isNumeral '.' := by decide
  have hZero : isNumeral '0' := by decide
  simp only [Decimal.layout]
  split
  · simp only [Decimal.positional]
    split
    · simp only [List.forall_mem_append, List.forall_mem_cons]
      exact ⟨⟨hDigits _, hZeros _⟩, hPoint, hZero, List.forall_mem_nil _⟩
    split
    · simp only [List.forall_mem_append, List.forall_mem_cons]
      exact ⟨hTake _, hPoint, hDrop _⟩
    · simp only [List.forall_mem_append, List.forall_mem_cons, List.cons_append]
      exact ⟨hZero, hPoint, hZeros _, hDigits _⟩
  · have hFraction : ∀ c ∈ (if (digitsOfNat d.digits).length ≤ 1 then []
        else '.' :: (digitsOfNat d.digits).drop 1), isNumeral c := by
      split
      · exact List.forall_mem_nil _
      · exact List.forall_mem_cons.mpr ⟨hPoint, hDrop 1⟩
    have hSign : isNumeral (if 0 < d.top - 1 then '+' else '-') := by
      split <;> decide
    simp only [Decimal.scientific, List.forall_mem_append, List.forall_mem_cons]
    exact ⟨⟨⟨⟨hTake 1, hFraction⟩, by decide, hSign, List.forall_mem_nil _⟩, hZeros _⟩, hDigits _⟩

/-- Both layouts start with a digit. -/
theorem exists_layout (width : Nat) (d : Decimal) :
    ∃ c cs, d.layout width = c :: cs ∧ c.isDigit := by
  obtain ⟨c, cs, hDigits, hc⟩ := exists_digitsOfNat d.digits
  simp only [Decimal.layout]
  split
  · simp only [Decimal.positional]
    split
    · exact ⟨c, _, by rw [hDigits]; rfl, hc⟩
    split
    next hInside =>
      obtain ⟨k, hk⟩ := Nat.exists_eq_add_of_lt (Nat.sub_pos_of_lt hInside)
      rw [Nat.zero_add] at hk
      exact ⟨c, _, by rw [hk, hDigits]; rfl, hc⟩
    · exact ⟨'0', _, rfl, by decide⟩
  · exact ⟨c, _, by simp only [Decimal.scientific, hDigits]; rfl, hc⟩

/-! ## The two ways to print -/

/-- A finite number that is not negative. -/
def Finite (x : Float) : Prop :=
  ∃ bits < infinityBits, x = Float.ofBits bits.toUInt64

/-- A number is printed as a whole number or by its fewest digits. -/
theorem spoken_cases {bits : Nat} (h : bits < infinityBits) :
    let x := Float.ofBits bits.toUInt64
    (∃ n < 10 ^ 21, (Binary.ofPattern bits).whole? = some n ∧
      NumeralStyle.spoken.write x = digitsOfNat n) ∨
    (0 < bits ∧ NumeralStyle.spoken.write x =
      (Decimal.shortest x).layout NumeralStyle.spoken.exponentWidth) := by
  intro x
  have hNegative := negative_ofBits h.le
  rw [ofFloat_ofBits h.le h] at hNegative
  have hWrite : NumeralStyle.spoken.write x = NumeralStyle.spoken.writeFinite x := by
    rw [NumeralStyle.write, isNaN_ofBits h.le, isInf_ofBits h.le, decide_eq_false h.ne]
    rfl
  have hZero := whole?_eq_zero_iff (Binary.ofPattern bits)
  have hPos := Binary.pattern_pos_iff bits
  simp only [hWrite, NumeralStyle.writeFinite, x, abs_ofBits h.le, ofFloat_ofBits h.le h, hNegative,
    Bool.false_eq_true, if_false, List.nil_append]
  split
  next n hWhole =>
    by_cases hBelow : n < NumeralStyle.spoken.wholeBelow
    · refine .inl ⟨n, hBelow, hWhole, ?_⟩
      rw [if_pos hBelow, ite_self, List.nil_append]
    · have hn : n ≠ 0 := by
        rintro rfl
        exact hBelow (Nat.pow_pos (by decide))
      rw [hWhole, Option.some.injEq] at hZero
      refine .inr ⟨by omega, ?_⟩
      rw [if_neg hBelow, if_neg hn]
  next hNone =>
    refine .inr ⟨?_, rfl⟩
    rw [hNone] at hZero
    have hMantissa : (Binary.ofPattern bits).mantissa ≠ 0 :=
      mt hZero.mpr (Option.some_ne_none 0).symm
    omega

/-- A whole number of the binary format is the number nearest to itself. -/
theorem nearestToInt_whole {bits n : Nat} (h : bits < infinityBits)
    (hWhole : (Binary.ofPattern bits).whole? = some n) :
    Value.nearestToInt n = Float.ofBits bits.toUInt64 := by
  have hPos := Binary.pattern_pos_iff bits
  have hZero := whole?_eq_zero_iff (Binary.ofPattern bits)
  have hBits : nearestBits n 1 = bits := by
    rcases Nat.eq_zero_or_pos n with rfl | hn
    · have hMantissa := hZero.mp hWhole
      have : bits = 0 := by omega
      rw [this]
      rfl
    · have hCanonical := Binary.canonical_ofPattern bits
      have hPattern := Binary.pattern_ofPattern bits
      have hMagnitude := (Binary.ofPattern bits).fraction_eq_magnitude
      have hDenominator := (Binary.ofPattern bits).denominator_pos
      generalize Binary.ofPattern bits = b at hWhole hCanonical hPattern hMagnitude hDenominator
      have hExact : (n / (1 : Nat) : ℚ) = b.magnitude := by
        rw [Binary.whole?] at hWhole
        split at hWhole
        next hMod =>
          rw [← hMagnitude, ← Option.some.inj hWhole, Nat.cast_one, div_one,
            Nat.cast_div (Nat.dvd_of_mod_eq_zero hMod) (by positivity)]
        next => cases hWhole
      have hNear : b.Near (n / (1 : Nat)) := by
        rw [hExact]
        constructor
        · rw [sub_self, abs_zero]
          positivity
        · intro _
          rw [sub_self, abs_zero]
          positivity
      rw [nearestBits_eq hn one_pos hCanonical hNear, hPattern, min_eq_left h.le]
  rw [Value.nearestToInt, if_neg (by omega), nearest, Int.natAbs_natCast, hBits]

/-! ## Reading back -/

/-- The number that a printed number is read as. -/
def readNumber? (cs : List Char) : Option Value :=
  match scalar cs with
  | .ok found => Value.ofJson? found.value
  | .error _ => none

theorem readNumber?_of_gives {cs rest : List Char} {v : Json} (h : Gives scalar (cs ++ []) v rest) :
    readNumber? cs = Value.ofJson? v := by
  rw [List.append_nil] at h
  obtain ⟨found, hFound, hValue, -⟩ := h
  simp only [readNumber?, hFound, hValue]

/-- A number is read back from what a program prints. -/
theorem readNumber?_write {x : Float} (h : Finite x) :
    readNumber? (NumeralStyle.spoken.write x) = some (.number x) := by
  obtain ⟨bits, hBits, rfl⟩ := h
  rcases spoken_cases hBits with ⟨n, hn, hWhole, hWrite⟩ | ⟨hPos, hWrite⟩
  · have hDigits : (toString (n : Int)).toList = digitsOfNat n := Nat.toList_repr
    have hLong : n < 10 ^ integerDigits :=
      hn.trans (Nat.pow_lt_pow_right (by decide) (by decide))
    have hRead := scalar_int hLong closed_nil
    rw [hDigits] at hRead
    have hInf : (Float.ofBits bits.toUInt64).isInf = false := by
      rw [isInf_ofBits hBits.le, decide_eq_false hBits.ne]
    rw [hWrite, readNumber?_of_gives hRead, Value.ofJson?, nearestToInt_whole hBits hWhole, hInf]
    rfl
  · have hRead := scalar_layout (.inl (digits_shortest_pos hPos hBits))
      NumeralStyle.spoken.exponentWidth closed_nil
    rw [Decimal.toFloat_shortest hPos hBits] at hRead
    rw [hWrite, readNumber?_of_gives hRead]
    rfl

/-- A number is printed in the characters of numerals, a digit first. -/
theorem exists_spoken {x : Float} (h : Finite x) :
    (∃ c cs, NumeralStyle.spoken.write x = c :: cs ∧ c.isDigit) ∧
      ∀ c ∈ NumeralStyle.spoken.write x, isNumeral c := by
  obtain ⟨bits, hBits, rfl⟩ := h
  rcases spoken_cases hBits with ⟨n, -, -, hWrite⟩ | ⟨-, hWrite⟩
  · rw [hWrite]
    exact ⟨exists_digitsOfNat n, fun c => isNumeral_of_mem_digitsOfNat⟩
  · rw [hWrite]
    exact ⟨exists_layout _ _, isNumeral_of_mem_layout⟩

end Treewalk
