import Treewalk.Json.Reader
import Treewalk.Json.Writer
import Treewalk.Proofs.Number.ReadBack

/-!
# Reading back numerals

A written number is read back, up to the character behind it: a whole
number as the integer it is, a number of the binary format as the number
it was written for. The two layouts spell one decimal, which trailing and
leading zeros do not change; that this decimal names the number is the
matter of `Decimal.toFloat_shortest`.
-/

namespace Treewalk.Json

/-! ## What a reader answers -/

/-- A reader finds a value at the front of a text and leaves the rest. -/
def Finds {α : Type} (reader : (cs : List Char) → Option (Read cs α)) (cs : List Char) (v : α)
    (rest : List Char) : Prop :=
  ∃ r, reader cs = some r ∧ r.value = v ∧ r.rest = rest

/-- A reader that says why it refuses finds a value and leaves the rest. -/
def Gives {α : Type} (reader : (cs : List Char) → Except ReadError (Read cs α)) (cs : List Char)
    (v : α) (rest : List Char) : Prop :=
  ∃ r, reader cs = .ok r ∧ r.value = v ∧ r.rest = rest

/-- What may stand behind a value: nothing, a comma, or the end of its
line. -/
def Closed (rest : List Char) : Prop :=
  ∀ c ∈ rest.head?, c = ',' ∨ c = '\n'

/-- A text that does not go on with a digit. -/
def NoDigit (rest : List Char) : Prop :=
  ∀ c ∈ rest.head?, c.isDigit = false

theorem closed_nil : Closed [] := nofun

theorem Closed.noDigit {rest : List Char} (h : Closed rest) : NoDigit rest := by
  intro c hc
  rcases h c hc with rfl | rfl <;> rfl

theorem takeWhile_digits {ds rest : List Char} (h : ∀ c ∈ ds, c.isDigit) (hRest : NoDigit rest) :
    (ds ++ rest).takeWhile Char.isDigit = ds := by
  rw [List.takeWhile_append_of_pos h]
  cases rest with
  | nil => simp
  | cons c rest => simp [hRest c rfl]

theorem dropWhile_digits {ds rest : List Char} (h : ∀ c ∈ ds, c.isDigit) (hRest : NoDigit rest) :
    (ds ++ rest).dropWhile Char.isDigit = rest := by
  rw [List.dropWhile_append_of_pos h]
  cases rest with
  | nil => simp
  | cons c rest => simp [hRest c rfl]

/-! ## Digits -/

/-- The digits that may stand before a point. -/
inductive Whole : List Char → Prop
  | zero : Whole ['0']
  | run {d : Char} {ds : List Char} : d ≠ '0' → (∀ c ∈ d :: ds, c.isDigit) → Whole (d :: ds)

theorem isDigit_of_mem_digitsOfNat {n : Nat} {c : Char} (h : c ∈ digitsOfNat n) : c.isDigit :=
  Nat.isDigit_of_mem_toDigits (by decide) (by decide) h

theorem natOfDigits_eq (ds : List Char) : natOfDigits ds = Nat.ofDigitChars 10 ds 0 := by
  simp only [natOfDigits, Nat.ofDigitChars, Nat.mul_comm]

theorem natOfDigits_append (ds es : List Char) :
    natOfDigits (ds ++ es) = 10 ^ es.length * natOfDigits ds + natOfDigits es := by
  rw [natOfDigits_eq, Nat.ofDigitChars_append, Nat.ofDigitChars_eq_ofDigitChars_zero,
    natOfDigits_eq, natOfDigits_eq]

theorem natOfDigits_digitsOfNat (n : Nat) : natOfDigits (digitsOfNat n) = n := by
  rw [natOfDigits_eq, digitsOfNat, Nat.ofDigitChars_ten_toDigits]

theorem natOfDigits_replicate (k : Nat) : natOfDigits (List.replicate k '0') = 0 := by
  rw [natOfDigits_eq, Nat.ofDigitChars_replicate_zero, Nat.mul_zero]

theorem digitsOfNat_cons {n : Nat} (h : 0 < n) :
    ∃ d ds, digitsOfNat n = d :: ds ∧ d ≠ '0' := by
  induction n using Nat.strong_induction_on with
  | _ n ih =>
    by_cases hSmall : n < 10
    · have hChar : ∀ k < 10, 0 < k → k.digitChar ≠ '0' := by decide
      exact ⟨n.digitChar, [], Nat.toDigits_of_lt_base hSmall, hChar n hSmall h⟩
    · obtain ⟨d, ds, hDigits, hd⟩ := ih (n / 10) (by omega) (by omega)
      refine ⟨d, ds ++ [(n % 10).digitChar], ?_, hd⟩
      rw [digitsOfNat, Nat.toDigits_of_base_le (by decide) (by omega)]
      exact congrArg (· ++ [(n % 10).digitChar]) hDigits

theorem whole_digitsOfNat (n : Nat) : Whole (digitsOfNat n) := by
  rcases Nat.eq_zero_or_pos n with rfl | h
  · exact .zero
  · obtain ⟨d, ds, hDigits, hd⟩ := digitsOfNat_cons h
    have hAll : ∀ c ∈ digitsOfNat n, c.isDigit := fun c => isDigit_of_mem_digitsOfNat
    rw [hDigits] at hAll ⊢
    exact .run hd hAll

/-! ## The parts of a numeral -/

theorem wholePart_append {ds rest : List Char} (h : Whole ds) (hRest : NoDigit rest) :
    Finds wholePart (ds ++ rest) ds rest := by
  cases h with
  | zero => exact ⟨_, rfl, rfl, rfl⟩
  | @run d ds hd hAll =>
    have hDigits := (List.forall_mem_cons.mp hAll).2
    rw [List.cons_append, Finds, wholePart, if_neg hd, if_pos (hAll d List.mem_cons_self)]
    exact ⟨_, rfl, by rw [takeWhile_digits hDigits hRest], dropWhile_digits hDigits hRest⟩

theorem fractionPart_append {ds rest : List Char} (hne : ds ≠ []) (h : ∀ c ∈ ds, c.isDigit)
    (hRest : NoDigit rest) : fractionPart ('.' :: ds ++ rest) = (ds, rest) := by
  cases ds with
  | nil => exact absurd rfl hne
  | cons d ds =>
    obtain ⟨hd, hDigits⟩ := List.forall_mem_cons.mp h
    simp only [List.cons_append, fractionPart, if_pos hd, takeWhile_digits hDigits hRest,
      dropWhile_digits hDigits hRest]

theorem fractionPart_of_ne {rest : List Char} (h : ∀ c ∈ rest.head?, c ≠ '.') :
    fractionPart rest = ([], rest) := by
  unfold fractionPart
  split
  · exact absurd rfl (h _ rfl)
  · rfl

theorem exponentPart_of_closed {rest : List Char} (h : Closed rest) :
    exponentPart rest = (none, rest) := by
  cases rest with
  | nil => rfl
  | cons c rest =>
    rw [exponentPart, if_neg]
    rcases h c rfl with rfl | rfl <;> decide

theorem exponentPart_append {c : Char} {ds rest : List Char} (hne : ds ≠ [])
    (h : ∀ c ∈ ds, c.isDigit) (hRest : NoDigit rest) (hSign : c = '+' ∨ c = '-') :
    exponentPart ('e' :: c :: ds ++ rest) =
      (some (if c = '-' then -(natOfDigits ds : Int) else natOfDigits ds), rest) := by
  have hEmpty : ds.isEmpty = false := by simpa using hne
  rcases hSign with rfl | rfl <;>
    simp [exponentPart, exponentSign, takeWhile_digits h hRest, dropWhile_digits h hRest, hEmpty]

theorem unsigned_gives {cs whole middle fraction tail rest : List Char} {exponent : Option Int}
    {v : Json} (hWhole : Finds wholePart cs whole middle)
    (hFraction : fractionPart middle = (fraction, tail))
    (hExponent : exponentPart tail = (exponent, rest))
    (hValue : (if fraction.isEmpty && exponent.isNone then integer false whole
      else .ok (fractional false whole fraction (exponent.getD 0))) = .ok v) :
    Gives (unsigned false) cs v rest := by
  obtain ⟨r, hFound, rfl, rfl⟩ := hWhole
  unfold Gives unsigned
  rw [hFound]
  simp only [hFraction, hExponent, hValue]
  exact ⟨_, rfl, rfl, rfl⟩

/-- The letters that words start with, and the sign. -/
def wordHeads : List Char := ['n', 't', 'f', 'N', 'I', '-']

theorem scalar_eq_unsigned {c : Char} (h : c ∉ wordHeads) (cs : List Char) :
    scalar (c :: cs) = unsigned false (c :: cs) := by
  simp only [wordHeads, List.mem_cons, List.not_mem_nil, or_false, not_or] at h
  obtain ⟨hn, ht, hf, hN, hI, hMinus⟩ := h
  have hWord : word? (c :: cs) = none := by
    simp [word?, words, wordAt?, hn, ht, hf, hN, hI, hMinus]
  rw [scalar, hWord, number]
  exact fun _ heq => hMinus (List.cons.inj heq).1

theorem notMem_wordHeads {c : Char} (h : c.isDigit) : c ∉ wordHeads := by
  have hLetters : ∀ w ∈ wordHeads, w.isDigit = false := by simp [wordHeads]
  intro hMem
  rw [hLetters c hMem] at h
  cases h

/-- A numeral that starts with a digit is no word and has no sign. -/
theorem scalar_of_digit {c : Char} {cs rest : List Char} {v : Json} (hc : c.isDigit)
    (h : Gives (unsigned false) (c :: cs) v rest) : Gives scalar (c :: cs) v rest := by
  rw [Gives, scalar_eq_unsigned (notMem_wordHeads hc)]
  exact h

/-- What is read as a word or a number starts with a letter of a word, a
sign or a digit. -/
theorem scalar_head {cs rest : List Char} {v : Json} (h : Gives scalar cs v rest) :
    ∃ c tail, cs = c :: tail ∧ (c.isDigit ∨ c ∈ wordHeads) := by
  obtain ⟨r, hRead, -⟩ := h
  cases cs with
  | nil => cases hRead
  | cons c tail =>
    refine ⟨c, tail, rfl, ?_⟩
    by_contra hOther
    rw [not_or] at hOther
    have hZero : c ≠ '0' := by
      rintro rfl
      exact hOther.1 rfl
    have hWhole : wholePart (c :: tail) = none := by
      rw [wholePart, if_neg hZero, if_neg hOther.1]
    rw [scalar_eq_unsigned hOther.2, unsigned, hWhole] at hRead
    cases hRead

/-- The digits before the point decide how a numeral is read. -/
theorem scalar_of_whole {ds tail rest : List Char} {v : Json} (h : Whole ds)
    (hRead : Gives (unsigned false) (ds ++ tail) v rest) : Gives scalar (ds ++ tail) v rest := by
  cases h with
  | zero => exact scalar_of_digit (by decide) hRead
  | run hd hAll => exact scalar_of_digit (hAll _ List.mem_cons_self) hRead

/-! ## Integers -/

theorem scalar_int {n : Nat} (h : n < 10 ^ integerDigits) {rest : List Char} (hRest : Closed rest) :
    Gives scalar ((toString (n : Int)).toList ++ rest) (.int n) rest := by
  have hDigits : (toString (n : Int)).toList = digitsOfNat n := Nat.toList_repr
  have hLength : ¬ integerDigits < (digitsOfNat n).length := by
    rw [not_lt]
    exact (Nat.length_toDigits_le_iff (by decide) (by decide)).mpr h
  rw [hDigits]
  apply scalar_of_whole (whole_digitsOfNat n)
  apply unsigned_gives (wholePart_append (whole_digitsOfNat n) hRest.noDigit)
    (fractionPart_of_ne _) (exponentPart_of_closed hRest)
  · simp [integer, hLength, natOfDigits_digitsOfNat]
  · intro c hc
    rcases hRest c hc with rfl | rfl <;> decide

/-! ## Decimals -/

theorem toFloat_zero (e : Int) : Decimal.toFloat ⟨0, e⟩ = nearest 0 1 := by
  have hNormal : (⟨0, e⟩ : Decimal).normal = ⟨0, e⟩ := by
    rw [Decimal.normal, Decimal.trim, if_neg (by simp)]
  rw [Decimal.toFloat, hNormal, if_pos (.inl rfl)]

theorem trim_mul_pow {n : Nat} (h : n ≠ 0) (k : Nat) (e : Int) :
    Decimal.trim (n * 10 ^ k) e = Decimal.trim n (e + k) := by
  induction k generalizing e with
  | zero => simp
  | succ k ih =>
    have hPos : n * 10 ^ k ≠ 0 := Nat.mul_ne_zero h (by positivity)
    rw [Nat.pow_succ, ← Nat.mul_assoc, Decimal.trim, if_pos (by omega),
      Nat.mul_div_cancel _ (by decide), ih]
    congr 1
    push_cast
    ring

/-- Zeros behind the last digit are worth nothing. -/
theorem toFloat_shift (n k : Nat) (e : Int) :
    Decimal.toFloat ⟨n * 10 ^ k, e⟩ = Decimal.toFloat ⟨n, e + k⟩ := by
  rcases Nat.eq_zero_or_pos n with rfl | h
  · rw [Nat.zero_mul, toFloat_zero, toFloat_zero]
  · have hNormal : (⟨n * 10 ^ k, e⟩ : Decimal).normal = (⟨n, e + k⟩ : Decimal).normal :=
      trim_mul_pow h.ne' k e
    rw [Decimal.toFloat, hNormal, Decimal.toFloat]

theorem noDigit_cons {c : Char} (h : c.isDigit = false) (rest : List Char) :
    NoDigit (c :: rest) := by
  rintro _ ⟨⟩
  exact h

theorem scalar_point {whole fraction rest : List Char} (hWhole : Whole whole)
    (hne : fraction ≠ []) (hFraction : ∀ c ∈ fraction, c.isDigit) (hRest : Closed rest) :
    Gives scalar (whole ++ ('.' :: fraction ++ rest))
      (.float (Decimal.toFloat ⟨natOfDigits (whole ++ fraction), -fraction.length⟩)) rest := by
  have hEmpty : fraction.isEmpty = false := by simpa using hne
  apply scalar_of_whole hWhole
  apply unsigned_gives (wholePart_append hWhole (noDigit_cons (by decide) _))
    (fractionPart_append hne hFraction hRest.noDigit) (exponentPart_of_closed hRest)
  simp [hEmpty, fractional, Decimal.ofPoint]

theorem scalar_exponent {whole fraction power rest : List Char} {sign : Char} (hWhole : Whole whole)
    (hFraction : ∀ c ∈ fraction, c.isDigit) (hne : power ≠ []) (hPower : ∀ c ∈ power, c.isDigit)
    (hSign : sign = '+' ∨ sign = '-') (hRest : Closed rest) :
    Gives scalar (whole ++ ((if fraction.isEmpty then [] else '.' :: fraction) ++
        ('e' :: sign :: power ++ rest)))
      (.float (Decimal.toFloat ⟨natOfDigits (whole ++ fraction),
        -fraction.length + if sign = '-' then -(natOfDigits power : Int) else natOfDigits power⟩))
      rest := by
  have hExponent := exponentPart_append hne hPower hRest.noDigit hSign
  apply scalar_of_whole hWhole
  have hMark : NoDigit ('e' :: sign :: power ++ rest) := noDigit_cons (by decide) _
  cases fraction with
  | nil =>
    apply unsigned_gives (wholePart_append hWhole hMark) (fractionPart_of_ne _) hExponent
    · simp [fractional, Decimal.ofPoint]
    · rintro _ ⟨⟩
      decide
  | cons d ds =>
    apply unsigned_gives (wholePart_append hWhole (noDigit_cons (by decide) _))
      (fractionPart_append (List.cons_ne_nil d ds) hFraction hMark) hExponent
    simp [fractional, Decimal.ofPoint]

/-! ## Layouts -/

theorem isDigit_of_mem_zeros {k : Nat} {c : Char} (h : c ∈ List.replicate k '0') : c.isDigit := by
  rw [List.eq_of_mem_replicate h]
  rfl

theorem natOfDigits_zeros_append (k : Nat) (ds : List Char) :
    natOfDigits (List.replicate k '0' ++ ds) = natOfDigits ds := by
  rw [natOfDigits_append, natOfDigits_replicate, Nat.mul_zero, Nat.zero_add]

theorem whole_take {n k : Nat} (hn : 0 < n) (hk : 0 < k) : Whole ((digitsOfNat n).take k) := by
  obtain ⟨d, ds, hDigits, hd⟩ := digitsOfNat_cons hn
  have hAll : ∀ c ∈ (digitsOfNat n).take k, c.isDigit :=
    fun c hc => isDigit_of_mem_digitsOfNat (List.mem_of_mem_take hc)
  obtain ⟨k, rfl⟩ := Nat.exists_eq_add_of_lt hk
  rw [hDigits, Nat.zero_add, List.take_succ_cons] at hAll ⊢
  exact .run hd hAll

theorem scalar_positional_nonneg {n k : Nat} (h : 0 < n ∨ k = 0) {rest : List Char}
    (hRest : Closed rest) :
    Gives scalar (digitsOfNat n ++ List.replicate k '0' ++ ('.' :: '0' :: rest))
      (.float (Decimal.toFloat ⟨n, k⟩)) rest := by
  have hWhole : Whole (digitsOfNat n ++ List.replicate k '0') := by
    rcases Nat.eq_zero_or_pos n with rfl | hn
    · rw [h.resolve_left (lt_irrefl 0)]
      exact .zero
    · obtain ⟨d, ds, hDigits, hd⟩ := digitsOfNat_cons hn
      have hAll : ∀ c ∈ digitsOfNat n ++ List.replicate k '0', c.isDigit :=
        List.forall_mem_append.mpr
          ⟨fun c => isDigit_of_mem_digitsOfNat, fun c => isDigit_of_mem_zeros⟩
      rw [hDigits] at hAll ⊢
      exact .run hd hAll
  have hNat : natOfDigits (digitsOfNat n ++ List.replicate k '0' ++ ['0']) = n * 10 ^ (k + 1) := by
    rw [List.append_assoc, ← List.replicate_succ', natOfDigits_append, natOfDigits_digitsOfNat,
      natOfDigits_replicate, List.length_replicate, Nat.mul_comm, Nat.add_zero]
  have hRead := scalar_point hWhole (by decide) (by simp : ∀ c ∈ ['0'], c.isDigit) hRest
  rw [hNat, toFloat_shift] at hRead
  have hPlace : -((['0'] : List Char).length : Int) + (k + 1 : Nat) = k := by
    simp only [List.length_cons, List.length_nil]
    omega
  rwa [hPlace] at hRead

/-- All digits of a decimal, the point at its place, are read as the
decimal. -/
theorem scalar_positional {d : Decimal} (h : 0 < d.digits ∨ d.exponent = 0) {rest : List Char}
    (hRest : Closed rest) : Gives scalar (d.positional ++ rest) (.float d.toFloat) rest := by
  obtain ⟨n, e⟩ := d
  have hDigits : ∀ c ∈ digitsOfNat n, c.isDigit := fun c => isDigit_of_mem_digitsOfNat
  simp only [Decimal.positional]
  split
  next hNonneg =>
    have hRead := @scalar_positional_nonneg n e.toNat (h.imp_right (by simp only; omega)) rest hRest
    rw [Int.toNat_of_nonneg hNonneg] at hRead
    simpa using hRead
  next hNegative =>
    have hn : 0 < n := h.resolve_right (by simp only; omega)
    have hPlaces : -(e.natAbs : Int) = e := by omega
    split
    next hInside =>
      have hDrop : ∀ c ∈ (digitsOfNat n).drop ((digitsOfNat n).length - e.natAbs), c.isDigit :=
        fun c hc => hDigits c (List.mem_of_mem_drop hc)
      have hLength : ((digitsOfNat n).drop ((digitsOfNat n).length - e.natAbs)).length =
          e.natAbs := by
        rw [List.length_drop]
        omega
      have hne : (digitsOfNat n).drop ((digitsOfNat n).length - e.natAbs) ≠ [] := by
        rw [ne_eq, ← List.length_eq_zero_iff]
        omega
      have hRead := scalar_point (whole_take hn (Nat.sub_pos_of_lt hInside)) hne hDrop hRest
      rw [List.take_append_drop, natOfDigits_digitsOfNat, hLength, hPlaces] at hRead
      simpa using hRead
    next hOutside =>
      have hRead := @scalar_point ['0'] (List.replicate (e.natAbs - (digitsOfNat n).length) '0' ++
        digitsOfNat n) rest .zero (by simp [digitsOfNat]) (List.forall_mem_append.mpr
          ⟨fun c => isDigit_of_mem_zeros, hDigits⟩) hRest
      have hLength : (List.replicate (e.natAbs - (digitsOfNat n).length) '0' ++
          digitsOfNat n).length = e.natAbs := by
        rw [List.length_append, List.length_replicate]
        omega
      have hNat : natOfDigits (['0'] ++ (List.replicate (e.natAbs - (digitsOfNat n).length) '0' ++
          digitsOfNat n)) = n := by
        rw [show ['0'] = List.replicate 1 '0' from rfl, natOfDigits_zeros_append,
          natOfDigits_zeros_append, natOfDigits_digitsOfNat]
      rw [hLength, hNat, hPlaces] at hRead
      simpa using hRead

/-- A sign and digits that spell the magnitude of an exponent. -/
theorem signed_natAbs (first : Int) {power : List Char} (h : natOfDigits power = first.natAbs) :
    (if (if 0 < first then '+' else '-') = '-' then -(natOfDigits power : Int)
      else natOfDigits power) = first := by
  rw [h]
  by_cases hPos : 0 < first
  · rw [if_pos hPos, if_neg (by decide)]
    omega
  · rw [if_neg hPos, if_pos rfl]
    omega

/-- One digit before the point and an exponent are read as the decimal. -/
theorem scalar_scientific {d : Decimal} (h : 0 < d.digits) (width : Nat) {rest : List Char}
    (hRest : Closed rest) : Gives scalar (d.scientific width ++ rest) (.float d.toFloat) rest := by
  obtain ⟨n, e⟩ := d
  have hLength : 0 < (digitsOfNat n).length := Nat.length_toDigits_pos
  have hTop : (⟨n, e⟩ : Decimal).top - 1 = e + (digitsOfNat n).length - 1 := rfl
  have hFraction : ∀ c ∈ (digitsOfNat n).drop 1, c.isDigit :=
    fun c hc => isDigit_of_mem_digitsOfNat (List.mem_of_mem_drop hc)
  have hShort : (digitsOfNat n).length ≤ 1 ↔ ((digitsOfNat n).drop 1).isEmpty := by
    rw [List.isEmpty_iff, List.drop_eq_nil_iff]
  simp only [Decimal.scientific, hShort]
  generalize (⟨n, e⟩ : Decimal).top - 1 = first at hTop ⊢
  generalize hPower : List.replicate (width - (digitsOfNat first.natAbs).length) '0' ++
    digitsOfNat first.natAbs = power
  have hDigits : ∀ c ∈ power, c.isDigit := by
    rw [← hPower]
    exact List.forall_mem_append.mpr
      ⟨fun c => isDigit_of_mem_zeros, fun c => isDigit_of_mem_digitsOfNat⟩
  have hNat : natOfDigits power = first.natAbs := by
    rw [← hPower, natOfDigits_zeros_append, natOfDigits_digitsOfNat]
  have hne : power ≠ [] := by
    rw [← hPower]
    simp [digitsOfNat]
  have hSign : (if 0 < first then '+' else '-') = '+' ∨ (if 0 < first then '+' else '-') = '-' := by
    split
    · exact .inl rfl
    · exact .inr rfl
  have hRead := scalar_exponent (whole_take h one_pos) hFraction hne hDigits hSign hRest
  have hPlace : -(((digitsOfNat n).drop 1).length : Int) + first = e := by
    rw [List.length_drop]
    omega
  rw [List.take_append_drop, natOfDigits_digitsOfNat, signed_natAbs first hNat, hPlace] at hRead
  rw [← hPower] at hRead
  simpa using hRead

/-- Either layout of a decimal is read as the decimal. -/
theorem scalar_layout {d : Decimal} (h : 0 < d.digits ∨ d = ⟨0, 0⟩) (width : Nat)
    {rest : List Char} (hRest : Closed rest) :
    Gives scalar (d.layout width ++ rest) (.float d.toFloat) rest := by
  simp only [Decimal.layout]
  split
  next hRange => exact scalar_positional (h.imp_right fun hd => by rw [hd]) hRest
  next hRange =>
    refine scalar_scientific (h.resolve_right ?_) width hRest
    rintro rfl
    exact hRange (by decide)

/-! ## Numbers -/

theorem scalar_infinity (rest : List Char) :
    Gives scalar ("Infinity".toList ++ rest) (.float (Float.ofBits infinityBits.toUInt64)) rest :=
  ⟨_, rfl, rfl, rfl⟩

theorem whole?_eq_zero_iff (b : Binary) : b.whole? = some 0 ↔ b.mantissa = 0 := by
  have hPow : Nat.pow 2 b.exponent.toNat ≠ 0 := (Nat.pow_pos two_pos).ne'
  have hNumerator : b.numerator = 0 ↔ b.mantissa = 0 := by
    rw [Binary.numerator, Nat.mul_eq_zero, or_iff_left hPow]
  rw [← hNumerator, Binary.whole?]
  constructor
  · intro h
    split at h
    next hMod =>
      have hDiv := Nat.div_add_mod b.numerator b.denominator
      rw [Option.some.inj h, hMod] at hDiv
      omega
    next => cases h
  · intro h
    rw [h, Nat.zero_mod, if_pos rfl, Nat.zero_div]

/-- The digits of a positive number are not zero. -/
theorem digits_shortest_pos {bits : Nat} (hPos : 0 < bits) (h : bits < infinityBits) :
    0 < (Decimal.shortest (Float.ofBits bits.toUInt64)).digits := by
  have hRead := Decimal.toFloat_shortest hPos h
  generalize Decimal.shortest (Float.ofBits bits.toUInt64) = d at hRead ⊢
  obtain ⟨n, e⟩ := d
  rw [Nat.pos_iff_ne_zero]
  rintro rfl
  rw [toFloat_zero] at hRead
  have hBits := congrArg (fun x : Float => x.toBits.toNat) hRead
  simp only [toNat_toBits_ofBits h.le] at hBits
  exact hPos.ne (toNat_toBits_ofBits (Nat.zero_le infinityBits) ▸ hBits)

/-- A finite number is written as the layout of its fewest digits, zero
as one digit. -/
theorem writeFinite_eq {bits : Nat} (h : bits < infinityBits) :
    NumeralStyle.json.writeFinite (Float.ofBits bits.toUInt64) =
      Decimal.layout NumeralStyle.json.exponentWidth
        (if bits = 0 then ⟨0, 0⟩ else Decimal.shortest (Float.ofBits bits.toUInt64)) := by
  have hNegative := negative_ofBits h.le
  have hZero := whole?_eq_zero_iff (Binary.ofPattern bits)
  have hPos := Binary.pattern_pos_iff bits
  rw [ofFloat_ofBits h.le h] at hNegative
  simp only [NumeralStyle.writeFinite, abs_ofBits h.le, ofFloat_ofBits h.le h, hNegative,
    Bool.false_eq_true, if_false, List.nil_append]
  split
  next n hWhole =>
    have hBelow : ¬ n < NumeralStyle.json.wholeBelow := Nat.not_lt_zero n
    rw [hWhole, Option.some.injEq] at hZero
    rw [if_neg hBelow]
    by_cases hBits : bits = 0
    · rw [if_pos (hZero.mpr (by omega)), if_pos hBits]
    · have hn : n ≠ 0 := fun hn => by
        have hMantissa := hZero.mp hn
        omega
      rw [if_neg hn, if_neg hBits]
  next hNone =>
    have hBits : bits ≠ 0 := fun hBits => by
      have hWhole := hZero.mpr (by omega)
      rw [hNone] at hWhole
      cases hWhole
    rw [if_neg hBits]

/-- A finite number is read back from its written form. -/
theorem scalar_writeFinite {bits : Nat} (h : bits < infinityBits) {rest : List Char}
    (hRest : Closed rest) :
    Gives scalar (NumeralStyle.json.writeFinite (Float.ofBits bits.toUInt64) ++ rest)
      (.float (Float.ofBits bits.toUInt64)) rest := by
  rw [writeFinite_eq h]
  rcases Nat.eq_zero_or_pos bits with rfl | hPos
  · have hRead := @scalar_layout ⟨0, 0⟩ (.inr rfl) NumeralStyle.json.exponentWidth rest hRest
    rwa [toFloat_zero] at hRead
  · have hDigits := digits_shortest_pos hPos h
    have hRead := scalar_layout (.inl hDigits) NumeralStyle.json.exponentWidth hRest
    rw [if_neg hPos.ne']
    rwa [Decimal.toFloat_shortest hPos h] at hRead

/-- A number that is not negative is read back from its written form. -/
theorem scalar_write {bits : Nat} (h : bits ≤ infinityBits) {rest : List Char}
    (hRest : Closed rest) :
    Gives scalar (NumeralStyle.json.write (Float.ofBits bits.toUInt64) ++ rest)
      (.float (Float.ofBits bits.toUInt64)) rest := by
  rw [NumeralStyle.write, isNaN_ofBits h, isInf_ofBits h, negative_ofBits h]
  rcases eq_or_lt_of_le h with rfl | hFinite
  · exact scalar_infinity rest
  · rw [decide_eq_false hFinite.ne]
    exact scalar_writeFinite hFinite hRest

end Treewalk.Json
