import Mathlib.Data.List.TakeWhile
import Treewalk.Proofs.Scanner.Tokenization

/-!
# The first segment is the longest

`Segment.first` looks at one character and at what follows it. Here it is
compared with everything that fits at the front of a text: whatever fits
is the first segment itself or shorter (`Proper.eq_or_shorter`), and the
first segment fits (`first_fits`). So the first segment is the longest,
and the only longest one (`longest_iff`), and cutting a text up is the one
way to tokenize it (`tokenization_iff`).
-/

namespace Treewalk.Lexical

open Segment

/-! ## Character classes -/

theorem not_isDigit_of_isAlpha {c : Char} (h : isAlpha c) : isDigit c = false := by
  rw [Bool.eq_false_iff]
  intro hd
  simp only [isAlpha, isDigit, Bool.or_eq_true, Bool.and_eq_true, decide_eq_true_eq, Char.le_def,
    UInt32.le_iff_toNat_le] at h hd
  rcases h with (h | h) | rfl
  · exact absurd (Nat.le_trans h.1 hd.2) (by decide)
  · exact absurd (Nat.le_trans h.1 hd.2) (by decide)
  · exact absurd hd.2 (by decide)

/-- A letter or a digit starts a word or a number. -/
theorem first_of_isAlphanumeric {c : Char} (h : isAlphanumeric c) (cs : List Char) :
    first c cs = if isDigit c then number c cs else word c cs := by
  have hSingle : single? c = none := by
    unfold single?
    split <;> first | rfl | (revert h; decide)
  have hPair : pair? c = none := by
    unfold pair?
    split <;> first | rfl | (revert h; decide)
  have hSlash : c ≠ '/' := by rintro rfl; revert h; decide
  have hQuote : c ≠ '"' := by rintro rfl; revert h; decide
  have hSpace : isSpace c = false := by
    rw [Bool.eq_false_iff]
    intro hs
    simp only [isSpace, Bool.or_eq_true, decide_eq_true_eq] at hs
    rcases hs with ((rfl | rfl) | rfl) | rfl <;> revert h <;> decide
  rw [first, hSingle, hPair]
  simp only [hSlash, hQuote, hSpace, if_false, Bool.false_eq_true]
  cases hd : isDigit c with
  | true => rfl
  | false =>
    have ha : isAlpha c := by simpa [isAlphanumeric, hd] using h
    simp [ha]

theorem first_of_isDigit {c : Char} (h : isDigit c) (cs : List Char) :
    first c cs = number c cs := by
  rw [first_of_isAlphanumeric (by simp [isAlphanumeric, h]), if_pos h]

theorem first_of_isAlpha {c : Char} (h : isAlpha c) (cs : List Char) : first c cs = word c cs := by
  rw [first_of_isAlphanumeric (by simp [isAlphanumeric, h]), not_isDigit_of_isAlpha h]
  rfl

theorem first_quote (cs : List Char) : first '"' cs = quoted cs := rfl

theorem first_slash (cs : List Char) : first '/' cs = slash cs := rfl

theorem first_of_space {c : Char} (h : c ∈ [' ', '\r', '\t', '\n']) (cs : List Char) :
    first c cs = (.trivia [c], cs) := by
  simp only [List.mem_cons, List.not_mem_nil, or_false] at h
  rcases h with rfl | rfl | rfl | rfl <;> rfl

/-! ## Words -/

theorem ofKeyword?_of_mem : ∀ p ∈ Kind.keywords, Kind.ofKeyword? p.1 = some p.2 := by decide

/-- The reserved words are words. -/
theorem keyword_spelling : ∀ p ∈ Kind.keywords,
    p.1.toList ≠ [] ∧ p.1.toList.head?.all isAlpha ∧ p.1.toList.all isAlphanumeric := by decide

theorem wordKind_of_mem {cs : List Char} {kind : Kind}
    (h : (String.ofList cs, kind) ∈ Kind.keywords) : wordKind cs = kind := by
  rw [wordKind, ofKeyword?_of_mem _ h]
  rfl

theorem wordKind_of_not_mem {cs : List Char}
    (h : ∀ kind, (String.ofList cs, kind) ∉ Kind.keywords) : wordKind cs = .identifier := by
  have hNone : Kind.ofKeyword? (String.ofList cs) = none := by
    rw [Kind.ofKeyword?, List.lookup_eq_none_iff]
    rintro ⟨name, kind⟩ hp
    rw [bne_iff_ne]
    rintro rfl
    exact h kind hp
  rw [wordKind, hNone]
  rfl

/-- A word is a lexeme of its kind. -/
theorem lexeme_word {c : Char} {cs : List Char} (hc : isAlpha c) (hcs : ∀ d ∈ cs, isAlphanumeric d) :
    Lexeme (wordKind (c :: cs)) (c :: cs) .nil := by
  by_cases h : ∃ kind, (String.ofList (c :: cs), kind) ∈ Kind.keywords
  · obtain ⟨kind, h⟩ := h
    rw [wordKind_of_mem h]
    exact .keyword h
  · have h : ∀ kind, (String.ofList (c :: cs), kind) ∉ Kind.keywords := fun kind hk => h ⟨kind, hk⟩
    rw [wordKind_of_not_mem h]
    exact .identifier hc hcs h

/-- A reserved word starts with a letter and goes on with letters. -/
theorem exists_word_of_mem {cs : List Char} {kind : Kind}
    (h : (String.ofList cs, kind) ∈ Kind.keywords) :
    ∃ c ds, cs = c :: ds ∧ isAlpha c ∧ ∀ d ∈ ds, isAlphanumeric d := by
  have hSpelling := keyword_spelling _ h
  simp only [String.toList_ofList] at hSpelling
  cases cs with
  | nil => exact absurd rfl hSpelling.1
  | cons c ds =>
    refine ⟨c, ds, rfl, by simpa using hSpelling.2.1, ?_⟩
    intro d hd
    exact List.all_eq_true.mp hSpelling.2.2 d (List.mem_cons_of_mem c hd)

/-! ## What fits is the first segment or shorter -/

/-- A lexeme that starts a longer one of its kind is that one or shorter. -/
theorem eq_or_shorter_of_isPrefix {kind : Kind} {short long : List Char} (h : short <+: long) :
    Segment.lexeme kind short = .lexeme kind long ∨ short.length < long.length := by
  by_cases hl : short.length < long.length
  · exact .inr hl
  · exact .inl (by rw [h.eq_of_length_le (Nat.le_of_not_lt hl)])

theorem inString_of_not_mem {body : List Char} (h : '"' ∉ body) : ∀ c ∈ body, inString c := by
  intro c hc
  rw [inString, bne_iff_ne]
  rintro rfl
  exact h hc

theorem inLine_of_not_mem {body : List Char} (h : '\n' ∉ body) : ∀ c ∈ body, inLine c := by
  intro c hc
  rw [inLine, bne_iff_ne]
  rintro rfl
  exact h hc

/-- A string that is closed is read to its closing quote. -/
theorem quoted_closed {body : List Char} (h : '"' ∉ body) (rest : List Char) :
    quoted (body ++ '"' :: rest) = (.lexeme .string ('"' :: body ++ ['"']), rest) := by
  have hBody := inString_of_not_mem h
  rw [quoted, List.dropWhile_append_of_pos hBody, List.takeWhile_append_of_pos hBody]
  simp [inString]

/-- A string that is not closed is read to the end. -/
theorem quoted_unclosed {body : List Char} (h : '"' ∉ body) :
    quoted body = (.unclosed ('"' :: body), []) := by
  have hDrop : (body ++ []).dropWhile inString = [] :=
    List.dropWhile_append_of_pos (inString_of_not_mem h)
  rw [List.append_nil] at hDrop
  rw [quoted, hDrop]

/-- A comment is read to the line end. -/
theorem slash_comment {body rest : List Char} (h : '\n' ∉ body)
    (hRest : rest = [] ∨ ∃ more, rest = '\n' :: more) :
    slash ('/' :: (body ++ rest)) = (.trivia ('/' :: '/' :: body), rest) := by
  have hBody := inLine_of_not_mem h
  rw [slash, List.dropWhile_append_of_pos hBody, List.takeWhile_append_of_pos hBody]
  rcases hRest with rfl | ⟨more, rfl⟩ <;> simp [inLine]

/-- The whole digits are read, and more only behind a point. -/
theorem isPrefix_number (c : Char) (cs : List Char) :
    ∃ text, (number c cs).1 = .lexeme .number text ∧ c :: cs.takeWhile isDigit <+: text := by
  unfold number
  split
  · next d rest hd =>
    split
    · exact ⟨_, rfl, List.prefix_append _ _⟩
    · exact ⟨_, rfl, List.prefix_rfl⟩
  · exact ⟨_, rfl, List.prefix_rfl⟩

/-- Digits behind a point are read with those before it. -/
theorem number_fraction {c d : Char} {digits places rest : List Char}
    (h : ∀ d ∈ digits, isDigit d) (hd : isDigit d) :
    number c (digits ++ '.' :: d :: (places ++ rest)) =
      (.lexeme .number (c :: digits ++ '.' :: d :: (places ++ rest).takeWhile isDigit),
        (places ++ rest).dropWhile isDigit) := by
  have hPoint : isDigit '.' = false := by decide
  rw [number, List.dropWhile_append_of_pos h, List.takeWhile_append_of_pos h]
  simp [hPoint, hd]

/-- A sign that may go on with `=` and does not, or does. -/
theorem operator_short (c : Char) (long short : Kind) (cs : List Char) :
    .lexeme short [c] = (operator c long short cs).1 ∨
      [c].length < (operator c long short cs).1.text.length := by
  unfold operator
  split
  · exact .inr (by simp [text])
  · exact .inl rfl

theorem slash_short (cs : List Char) :
    .lexeme .slash ['/'] = (slash cs).1 ∨ ['/'].length < (slash cs).1.text.length := by
  unfold slash
  split
  · exact .inr (by simp [text])
  · exact .inl rfl

theorem sign_eq_or_shorter {kind : Kind} {ds : List Char} (h : (ds, kind) ∈ signs) {c : Char}
    {cs more : List Char} (hText : ds ++ more = c :: cs) :
    .lexeme kind ds = (first c cs).1 ∨ ds.length < (first c cs).1.text.length := by
  simp only [signs, List.mem_cons, Prod.mk.injEq, List.not_mem_nil, or_false] at h
  rcases h with ⟨rfl, rfl⟩ | ⟨rfl, rfl⟩ | ⟨rfl, rfl⟩ | ⟨rfl, rfl⟩ | ⟨rfl, rfl⟩ | ⟨rfl, rfl⟩ |
    ⟨rfl, rfl⟩ | ⟨rfl, rfl⟩ | ⟨rfl, rfl⟩ | ⟨rfl, rfl⟩ | ⟨rfl, rfl⟩ | ⟨rfl, rfl⟩ | ⟨rfl, rfl⟩ |
    ⟨rfl, rfl⟩ | ⟨rfl, rfl⟩ | ⟨rfl, rfl⟩ | ⟨rfl, rfl⟩ | ⟨rfl, rfl⟩ | ⟨rfl, rfl⟩ <;>
    cases hText
  all_goals first
    | exact .inl rfl
    | exact slash_short _
    | exact operator_short _ _ _ _

theorem word_eq_or_shorter {c : Char} {ds more : List Char} (hc : isAlpha c)
    (hds : ∀ d ∈ ds, isAlphanumeric d) :
    .lexeme (wordKind (c :: ds)) (c :: ds) = (first c (ds ++ more)).1 ∨
      (c :: ds).length < (first c (ds ++ more)).1.text.length := by
  rw [first_of_isAlpha hc, word, List.takeWhile_append_of_pos hds]
  cases hMore : more.takeWhile isAlphanumeric with
  | nil => exact .inl (by rw [List.append_nil])
  | cons d others => exact .inr (by simp [text])

/-- A lexeme at the front of a text is the first segment or shorter. -/
theorem Lexeme.eq_or_shorter {kind : Kind} {ds : List Char} {value : Value}
    (h : Lexeme kind ds value) {c : Char} {cs more : List Char} (hText : ds ++ more = c :: cs) :
    .lexeme kind ds = (first c cs).1 ∨ ds.length < (first c cs).1.text.length := by
  cases h with
  | sign h => exact sign_eq_or_shorter h hText
  | string h =>
    simp only [List.cons_append, List.append_assoc, List.nil_append, List.cons.injEq] at hText
    obtain ⟨rfl, rfl⟩ := hText
    rw [first_quote, quoted_closed h]
    exact .inl rfl
  | whole hne h =>
    obtain ⟨d, digits, rfl⟩ := List.exists_cons_of_ne_nil hne
    rw [List.cons_append, List.cons.injEq] at hText
    obtain ⟨rfl, rfl⟩ := hText
    obtain ⟨hd, hDigits⟩ := List.forall_mem_cons.mp h
    obtain ⟨long, hLong, hPrefix⟩ := isPrefix_number d (digits ++ more)
    rw [List.takeWhile_append_of_pos hDigits] at hPrefix
    rw [first_of_isDigit hd, hLong]
    exact eq_or_shorter_of_isPrefix ((List.prefix_append (d :: digits) _).trans hPrefix)
  | @fraction digits places hne h hne' h' =>
    obtain ⟨d, digits, rfl⟩ := List.exists_cons_of_ne_nil hne
    obtain ⟨e, places, rfl⟩ := List.exists_cons_of_ne_nil hne'
    obtain ⟨hd, hDigits⟩ := List.forall_mem_cons.mp h
    obtain ⟨he, hPlaces⟩ := List.forall_mem_cons.mp h'
    simp only [List.cons_append, List.append_assoc, List.cons.injEq] at hText
    obtain ⟨rfl, rfl⟩ := hText
    rw [first_of_isDigit hd, number_fraction hDigits he, List.takeWhile_append_of_pos hPlaces]
    apply eq_or_shorter_of_isPrefix
    exact ⟨more.takeWhile isDigit, by simp⟩
  | keyword h =>
    obtain ⟨d, ds, rfl, hd, hds⟩ := exists_word_of_mem h
    obtain ⟨rfl, rfl⟩ := List.cons.inj hText
    rw [← wordKind_of_mem h]
    exact word_eq_or_shorter hd hds
  | identifier hc hcs h =>
    obtain ⟨rfl, rfl⟩ := List.cons.inj hText
    rw [← wordKind_of_not_mem h]
    exact word_eq_or_shorter hc hcs

/-- Whatever fits at the front of a text and is no stray character is the
first segment or shorter. -/
theorem Proper.eq_or_shorter {s : Segment} {more : List Char} (h : Proper s more) {c : Char}
    {cs : List Char} (hText : s.text ++ more = c :: cs) :
    s = (first c cs).1 ∨ s.text.length < (first c cs).1.text.length := by
  cases h with
  | lexeme h => exact h.eq_or_shorter hText
  | trivia h =>
    cases h with
    | space h =>
      obtain ⟨rfl, rfl⟩ := List.cons.inj hText
      rw [first_of_space h]
      exact .inl rfl
    | comment h hRest =>
      obtain ⟨rfl, rfl⟩ := List.cons.inj hText
      exact .inl (by rw [first_slash]; exact congrArg Prod.fst (slash_comment h hRest).symm)
  | unclosed h =>
    simp only [text, List.append_nil, List.cons.injEq] at hText
    obtain ⟨rfl, rfl⟩ := hText
    rw [first_quote, quoted_unclosed h]
    exact .inl rfl

/-! ## The first segment fits -/

theorem quoted_proper (cs : List Char) : Proper (quoted cs).1 (quoted cs).2 := by
  by_cases h : '"' ∈ cs
  · obtain ⟨body, rest, rfl, hBody⟩ := List.eq_append_cons_of_mem h
    rw [quoted_closed hBody]
    exact .lexeme (.string hBody)
  · rw [quoted_unclosed h]
    exact .unclosed h

theorem slash_proper (cs : List Char) : Proper (slash cs).1 (slash cs).2 := by
  unfold slash
  split
  · next cs =>
    refine .trivia (.comment ?_ ?_)
    · intro h
      exact absurd (List.mem_takeWhile_imp h) (by decide)
    · cases hRest : cs.dropWhile inLine with
      | nil => exact .inl rfl
      | cons c rest =>
        have hc := List.head_dropWhile_not inLine (l := cs) (by simp [hRest])
        simp only [hRest, List.head_cons, inLine, bne_eq_false_iff_eq] at hc
        exact .inr ⟨rest, by rw [hc]⟩
  · exact .lexeme (.sign (by decide))

theorem number_proper {c : Char} (h : isDigit c) (cs : List Char) :
    Proper (number c cs).1 (number c cs).2 := by
  have hWhole : ∀ d ∈ c :: cs.takeWhile isDigit, isDigit d := by
    rw [List.forall_mem_cons]
    exact ⟨h, fun d hd => List.mem_takeWhile_imp hd⟩
  unfold number
  split
  · next d rest hRest =>
    split
    · next hd =>
      refine .lexeme (.fraction (List.cons_ne_nil _ _) hWhole (List.cons_ne_nil _ _) ?_)
      rw [List.forall_mem_cons]
      exact ⟨hd, fun e he => List.mem_takeWhile_imp he⟩
    · exact .lexeme (.whole (List.cons_ne_nil _ _) hWhole)
  · exact .lexeme (.whole (List.cons_ne_nil _ _) hWhole)

theorem word_proper {c : Char} (h : isAlpha c) (cs : List Char) :
    Proper (word c cs).1 (word c cs).2 :=
  .lexeme (lexeme_word h fun _ hd => List.mem_takeWhile_imp hd)

theorem single_proper {c : Char} {kind : Kind} (h : single? c = some kind) (cs : List Char) :
    Proper (.lexeme kind [c]) cs := by
  refine .lexeme (.sign ?_)
  unfold single? at h
  split at h <;> cases h <;> decide

theorem operator_proper {c : Char} {long short : Kind} (h : pair? c = some (long, short))
    (cs : List Char) : Proper (operator c long short cs).1 (operator c long short cs).2 := by
  have hSigns : ([c], short) ∈ signs ∧ ([c, '='], long) ∈ signs := by
    unfold pair? at h
    split at h <;> cases h <;> decide
  unfold operator
  split
  · exact .lexeme (.sign hSigns.2)
  · exact .lexeme (.sign hSigns.1)

/-- The first segment is no stray character, or it is the character alone. -/
theorem first_proper_or_stray (c : Char) (cs : List Char) :
    Proper (first c cs).1 (first c cs).2 ∨ first c cs = (.stray c, cs) := by
  unfold first
  split
  · next kind hSingle => exact .inl (single_proper hSingle cs)
  · next long short _ hPair => exact .inl (operator_proper hPair cs)
  · split_ifs with hSlash hSpace hQuote hDigit hAlpha
    · exact .inl (slash_proper cs)
    · refine .inl (.trivia (.space ?_))
      simpa [isSpace, or_assoc] using hSpace
    · exact .inl (quoted_proper cs)
    · exact .inl (number_proper hDigit cs)
    · exact .inl (word_proper hAlpha cs)
    · exact .inr rfl

theorem sign_ne_nil : ∀ p ∈ signs, p.1 ≠ [] := by decide

theorem Proper.text_ne_nil {s : Segment} {rest : List Char} (h : Proper s rest) : s.text ≠ [] := by
  cases h with
  | lexeme h =>
    cases h with
    | sign h => exact sign_ne_nil _ h
    | string h => simp [text]
    | whole hne h => exact hne
    | fraction hne h hne' h' => simp [text]
    | keyword h =>
      obtain ⟨d, ds, rfl, -, -⟩ := exists_word_of_mem h
      simp [text]
    | identifier hc hcs h => simp [text]
  | trivia h => cases h <;> simp [text]
  | unclosed h => simp [text]

theorem Fits.text_ne_nil {s : Segment} {rest : List Char} (h : Fits s rest) : s.text ≠ [] := by
  cases h with
  | proper h => exact h.text_ne_nil
  | stray h => simp [text]

/-- Where the first segment is a stray character, nothing else fits. -/
theorem first_fits (c : Char) (cs : List Char) : Fits (first c cs).1 (first c cs).2 := by
  rcases first_proper_or_stray c cs with h | h
  · exact .proper h
  · rw [h]
    refine .stray ?_
    intro s more hText hProper
    rcases hProper.eq_or_shorter hText with rfl | hShorter
    · rw [h] at hProper
      cases hProper
    · rw [h] at hShorter
      exact hProper.text_ne_nil (List.length_eq_zero_iff.mp (Nat.lt_one_iff.mp hShorter))

/-! ## The longest segment -/

theorem Fits.eq_or_shorter {s : Segment} {more : List Char} (h : Fits s more) {c : Char}
    {cs : List Char} (hText : s.text ++ more = c :: cs) :
    s = (first c cs).1 ∨ s.text.length < (first c cs).1.text.length := by
  cases h with
  | proper h => exact h.eq_or_shorter hText
  | stray h =>
    rw [text, List.singleton_append, List.cons.injEq] at hText
    obtain ⟨rfl, rfl⟩ := hText
    rcases first_proper_or_stray _ _ with hProper | hStray
    · exact absurd hProper (h _ _ (text_first ..))
    · exact .inl (by rw [hStray])

theorem first_longest (c : Char) (cs : List Char) : Longest (first c cs).1 (first c cs).2 := by
  refine ⟨first_fits c cs, ?_⟩
  intro t more hText ht
  rw [text_first] at hText
  rcases ht.eq_or_shorter hText with rfl | hShorter
  · exact Nat.le_refl _
  · exact Nat.le_of_lt hShorter

/-- The longest segment at the front of a text is the first one. -/
theorem Longest.eq_first {s : Segment} {rest : List Char} (h : Longest s rest) {c : Char}
    {cs : List Char} (hText : s.text ++ rest = c :: cs) : (s, rest) = first c cs := by
  have hSame : s = (first c cs).1 := by
    rcases h.fits.eq_or_shorter hText with hs | hShorter
    · exact hs
    · have hLong := h.longest _ _ ((text_first c cs).trans hText.symm) (first_fits c cs)
      exact absurd hShorter (Nat.not_lt.mpr hLong)
  subst hSame
  rw [← text_first c cs, List.append_cancel_left_eq] at hText
  rw [hText]

/-! ## The whole text -/

theorem tokenization_cut (cs : List Char) : Tokenization cs (cut cs) := by
  fun_induction cut cs with
  | case1 => exact .nil
  | case2 c cs ih =>
    have h := Tokenization.cons (first_longest c cs) ih
    rwa [text_first] at h

/-- Cutting a text up is the one way to tokenize it. -/
theorem tokenization_iff {cs : List Char} {segments : List Segment} :
    Tokenization cs segments ↔ segments = cut cs := by
  constructor
  · intro h
    induction h with
    | nil => rw [cut]
    | @cons s rest others h hs ih =>
      cases hText : s.text ++ rest with
      | nil => exact absurd (List.append_eq_nil_iff.mp hText).1 h.fits.text_ne_nil
      | cons c cs =>
        rw [cut, ← h.eq_first hText, ih]
  · rintro rfl
    exact tokenization_cut cs

end Treewalk.Lexical
