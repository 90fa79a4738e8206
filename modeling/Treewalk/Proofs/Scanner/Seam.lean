import Treewalk.Proofs.Scanner.Tokens

/-!
# Scanning across a line end

A segment ends before a space as if nothing followed: a lexeme before any
space, a comment before the line end (`first_seam`). Only a string that is
never closed goes on. So two texts joined by a line end are cut one after
the other (`cut_seam`), and the tokens and the mistakes of the second are
those it has by itself, further down by the lines of the first
(`scan_joined`).
-/

namespace Treewalk

/-! ## Segments -/

namespace Segment

section

variable {p : Char → Bool} {sep : Char} (hp : p sep = false)
include hp

theorem takeWhile_seam (cs rest : List Char) :
    (cs ++ sep :: rest).takeWhile p = cs.takeWhile p := by
  induction cs with
  | nil => simp [hp]
  | cons c cs ih =>
    rw [List.cons_append, List.takeWhile_cons, List.takeWhile_cons, ih]

theorem dropWhile_seam (cs rest : List Char) :
    (cs ++ sep :: rest).dropWhile p = cs.dropWhile p ++ sep :: rest := by
  induction cs with
  | nil => simp [hp]
  | cons c cs ih =>
    rw [List.cons_append, List.dropWhile_cons, List.dropWhile_cons, ih]
    split <;> rfl

end

/-- Whether a segment is a string that is never closed. -/
def isUnclosed : Segment → Bool
  | .unclosed _ => true
  | _ => false

/-- Whether a segment ends where this character stands: a lexeme before any
space, a comment before a line end, and a string that is never closed
before nothing. -/
def endsBefore (sep : Char) : Segment → Bool
  | .lexeme .. | .stray _ => isSpace sep
  | .trivia _ => sep = '\n'
  | .unclosed _ => false

theorem endsBefore_newline (s : Segment) : s.endsBefore '\n' = !s.isUnclosed := by
  cases s <;> rfl

theorem isSpace_of_endsBefore {s : Segment} {sep : Char} (h : s.endsBefore sep) : isSpace sep := by
  cases s with
  | lexeme | stray => exact h
  | trivia =>
    rw [endsBefore, decide_eq_true_eq] at h
    rw [h]
    rfl
  | unclosed => cases h

theorem ne_of_isSpace {sep c : Char} (h : isSpace sep) (hc : isSpace c = false) : sep ≠ c := by
  rintro rfl
  exact Bool.false_ne_true (hc.symm.trans h)

theorem not_isAlphanumeric_of_isSpace {sep : Char} (h : isSpace sep) :
    isAlphanumeric sep = false := by
  simp only [isSpace, Bool.or_eq_true, decide_eq_true_eq] at h
  rcases h with ((rfl | rfl) | rfl) | rfl <;> decide

section

variable {sep : Char} (hSep : isSpace sep)
include hSep

theorem operator_seam (c : Char) (long short : Kind) (cs rest : List Char) :
    operator c long short (cs ++ sep :: rest) =
      ((operator c long short cs).1, (operator c long short cs).2 ++ sep :: rest) := by
  cases cs with
  | nil => simp [operator, ne_of_isSpace hSep (show isSpace '=' = false from rfl)]
  | cons d cs =>
    by_cases h : d = '='
    · subst h
      rfl
    · simp [operator, h]

theorem number_seam (c : Char) (cs rest : List Char) :
    number c (cs ++ sep :: rest) = ((number c cs).1, (number c cs).2 ++ sep :: rest) := by
  have hDigit : isDigit sep = false :=
    (Bool.or_eq_false_iff.mp (not_isAlphanumeric_of_isSpace hSep)).2
  have hPoint : sep ≠ '.' := ne_of_isSpace hSep rfl
  unfold number
  rw [takeWhile_seam hDigit, dropWhile_seam hDigit]
  match cs.dropWhile isDigit with
  | [] => simp [hPoint]
  | ['.'] => simp [hDigit]
  | '.' :: d :: more =>
    by_cases h : isDigit d = true
    · simp [h, takeWhile_seam hDigit, dropWhile_seam hDigit]
    · simp [h]
  | d :: more =>
    by_cases h : d = '.'
    · subst h
      cases more with
      | nil => simp [hDigit]
      | cons e more =>
        by_cases h : isDigit e = true
        · simp [h, takeWhile_seam hDigit, dropWhile_seam hDigit]
        · simp [h]
    · simp [h]

theorem word_seam (c : Char) (cs rest : List Char) :
    word c (cs ++ sep :: rest) = ((word c cs).1, (word c cs).2 ++ sep :: rest) := by
  have hWord := not_isAlphanumeric_of_isSpace hSep
  rw [word, takeWhile_seam hWord, dropWhile_seam hWord]
  rfl

end

theorem slash_seam {cs : List Char} {sep : Char} (h : (slash cs).1.endsBefore sep)
    (rest : List Char) :
    slash (cs ++ sep :: rest) = ((slash cs).1, (slash cs).2 ++ sep :: rest) := by
  cases cs with
  | nil => simp [slash, ne_of_isSpace h (show isSpace '/' = false from rfl)]
  | cons d cs =>
    by_cases hd : d = '/'
    · subst hd
      -- a comment goes on through every space but the line end
      obtain rfl : sep = '\n' := of_decide_eq_true h
      have hLine : inLine '\n' = false := rfl
      simp [slash, takeWhile_seam hLine, dropWhile_seam hLine]
    · simp [slash, hd]

theorem quoted_seam {cs : List Char} {sep : Char} (h : (quoted cs).1.endsBefore sep)
    (rest : List Char) :
    quoted (cs ++ sep :: rest) = ((quoted cs).1, (quoted cs).2 ++ sep :: rest) := by
  by_cases hQuote : '"' ∈ cs
  · obtain ⟨body, more, rfl, hBody⟩ := List.eq_append_cons_of_mem hQuote
    rw [List.append_assoc, List.cons_append, Lexical.quoted_closed hBody,
      Lexical.quoted_closed hBody]
  · rw [Lexical.quoted_unclosed hQuote] at h
    cases h

/-- The first segment does not reach past a character before which it
ends. -/
theorem first_seam {c : Char} {cs : List Char} {sep : Char} (h : (first c cs).1.endsBefore sep)
    (rest : List Char) :
    first c (cs ++ sep :: rest) = ((first c cs).1, (first c cs).2 ++ sep :: rest) := by
  have hSep := isSpace_of_endsBefore h
  unfold first at h ⊢
  split
  · rfl
  · exact operator_seam hSep ..
  · next hSingle hPair =>
    simp only [hSingle, hPair] at h
    repeat' split
    · next hSlash =>
      rw [if_pos hSlash] at h
      exact slash_seam h rest
    · rfl
    · next hSlash hSpace hQuote =>
      rw [if_neg hSlash, if_neg hSpace, if_pos hQuote] at h
      exact quoted_seam h rest
    · exact number_seam hSep ..
    · exact word_seam hSep ..
    · rfl

/-- Two texts joined by a line end are cut one after the other, unless the
first one has a string that is never closed. -/
theorem cut_seam {cs : List Char} (h : ∀ s ∈ cut cs, s.isUnclosed = false) (rest : List Char) :
    cut (cs ++ '\n' :: rest) = cut cs ++ .trivia ['\n'] :: cut rest := by
  fun_induction cut cs with
  | case1 =>
    rw [List.nil_append, cut]
    rfl
  | case2 c cs ih =>
    rw [List.forall_mem_cons] at h
    have hEnds : (first c cs).1.endsBefore '\n' := by rw [endsBefore_newline, h.1]; rfl
    rw [List.cons_append, cut, first_seam hEnds, ih h.2, List.cons_append]

/-! ## Lines -/

theorem map_fst_place (line : Int) (segments : List Segment) :
    (place line segments).map Prod.fst = segments := by
  induction segments generalizing line with
  | nil => rfl
  | cons s rest ih => rw [place, List.map_cons, ih]

theorem mem_iff_mem_place {segments : List Segment} {s : Segment} :
    s ∈ segments ↔ ∃ line, (s, line) ∈ place 1 segments := by
  have hMem := List.mem_map (f := Prod.fst) (b := s) (l := place 1 segments)
  rw [map_fst_place] at hMem
  rw [hMem, Prod.exists]
  simp

theorem place_append (line : Int) (segments more : List Segment) :
    place line (segments ++ more) = place line segments ++
      place (line + (segments.flatMap text).count '\n') more := by
  induction segments generalizing line with
  | nil => simp [place]
  | cons s rest ih =>
    rw [List.cons_append, place, ih, place, List.cons_append, List.flatMap_cons, List.count_append,
      newlines]
    congr 3
    omega

theorem place_add (line n : Int) (segments : List Segment) :
    place (line + n) segments = (place line segments).map fun (s, l) => (s, l + n) := by
  induction segments generalizing line with
  | nil => rfl
  | cons s rest ih =>
    have hLine : line + n + s.newlines = line + s.newlines + n := by omega
    rw [place, place, List.map_cons, hLine, ih]

end Segment

/-! ## Tokens -/

/-- A line so many lines further down. -/
def Json.addLines (n : Int) : Json → Json
  | .int line => .int (line + n)
  | line => line

/-- A token so many lines further down. -/
def Token.lower (n : Int) (t : Token) : Token :=
  { t with line := t.line.addLines n }

/-- A diagnostic so many lines further down. -/
def Diagnostic.lower (n : Int) : Diagnostic → Diagnostic
  | .mistake line place what => .mistake (line.addLines n) place what
  | .failure line what => .failure (line.addLines n) what

namespace Segment

/-- What is made of segments further down is further down. -/
theorem filterMap_add {α : Type} {f : Segment × Int → Option α} {lower : α → α} {n : Int}
    (h : ∀ s l, f (s, l + n) = (f (s, l)).map lower) (placed : List (Segment × Int)) :
    (placed.map fun (s, l) => (s, l + n)).filterMap f = (placed.filterMap f).map lower := by
  rw [List.filterMap_map, List.map_filterMap]
  congr 1
  funext ⟨s, l⟩
  exact h s l

theorem token?_add (n : Int) (s : Segment) (l : Int) :
    token? (s, l + n) = (token? (s, l)).map (Token.lower n) := by
  cases s <;> rfl

theorem diagnostic?_add (n : Int) (s : Segment) (l : Int) :
    diagnostic? (s, l + n) = (diagnostic? (s, l)).map (Diagnostic.lower n) := by
  cases s <;> rfl

end Segment

/-- The tokens of a text before its end mark. -/
def bodyTokens (source : String) : List Token :=
  (Segment.place 1 (Segment.cut source.toList)).filterMap Segment.token?

/-- How many lines a text has: so far down starts a text that is joined to
it by a line end. -/
def linesOf (source : String) : Int :=
  1 + source.toList.count '\n'

theorem tokens_scan (source : String) :
    (scan source).tokens = bodyTokens source ++ [.endMark (linesOf source)] := rfl

theorem Lexical.Lexeme.kind_ne_eof {kind : Kind} {cs : List Char} {value : Value}
    (h : Lexeme kind cs value) : kind ≠ .eof := by
  cases h with
  | sign h => exact (sign_literal _ h).2.2
  | keyword h => exact (keyword_literal _ h).2.2
  | string | whole | fraction | identifier => exact nofun

/-- A token as a text has it: of a lexeme, with the value it denotes. -/
def Token.Scanned (t : Token) : Prop :=
  ∃ kind cs value line, Lexical.Lexeme kind cs value ∧
    t = .ofSource kind (String.ofList cs) value line

theorem scanned_of_mem_bodyTokens {source : String} {t : Token} (ht : t ∈ bodyTokens source) :
    t.Scanned := by
  obtain ⟨⟨segment, line⟩, hPlaced, hToken⟩ := List.mem_filterMap.mp ht
  cases segment with
  | lexeme kind cs =>
    cases hToken
    obtain ⟨value, hLexeme⟩ := (Lexical.tokenization_cut source.toList).exists_value
      (Segment.mem_iff_mem_place.mpr ⟨line, hPlaced⟩)
    exact ⟨kind, cs, value, line, hLexeme, by rw [hLexeme.literal_eq]⟩
  | _ => cases hToken

/-- No token before the end mark of a text is one. -/
theorem bodyTokens_ne_eof (source : String) : ∀ t ∈ bodyTokens source, t.kind ≠ .eof := by
  intro t ht
  obtain ⟨kind, cs, value, line, hLexeme, rfl⟩ := scanned_of_mem_bodyTokens ht
  exact hLexeme.kind_ne_eof

/-- A string that is never closed is reported. -/
theorem isUnclosed_of_unreported {source : String}
    (h : ∀ line, .onLine line "Unterminated string." ∉ (scan source).diagnostics) :
    ∀ s ∈ Segment.cut source.toList, s.isUnclosed = false := by
  intro s hs
  obtain ⟨n, hPlaced⟩ := Segment.mem_iff_mem_place.mp hs
  cases s with
  | unclosed cs => exact (h (.int n) (List.mem_filterMap.mpr ⟨_, hPlaced, rfl⟩)).elim
  | _ => rfl

/-- In a text that is scanned without a mistake every string is closed. -/
theorem isUnclosed_eq_false {source : String} (h : (scan source).diagnostics = []) :
    ∀ s ∈ Segment.cut source.toList, s.isUnclosed = false :=
  isUnclosed_of_unreported (by simp [h])

section

variable {a : String} (h : ∀ s ∈ Segment.cut a.toList, s.isUnclosed = false) (b : String)
include h

theorem place_seam :
    Segment.place 1 (Segment.cut (a ++ "\n" ++ b).toList) =
      Segment.place 1 (Segment.cut a.toList) ++ (.trivia ['\n'], 1 + linesOf a) ::
        (Segment.place 1 (Segment.cut b.toList)).map fun (s, l) => (s, l + linesOf a) := by
  have hText : (a ++ "\n" ++ b).toList = a.toList ++ '\n' :: b.toList := by
    rw [String.toList_append, String.toList_append, List.append_assoc]
    rfl
  have hLine : ∀ k : Int, 1 + k + Segment.newlines (.trivia ['\n']) = 1 + (1 + k) := by
    intro k
    rw [show Segment.newlines (.trivia ['\n']) = 1 from rfl]
    omega
  rw [hText, Segment.cut_seam h, Segment.place_append, Segment.flatMap_text_cut, Segment.place,
    hLine, ← Segment.place_add]
  rfl

theorem bodyTokens_seam :
    bodyTokens (a ++ "\n" ++ b) = bodyTokens a ++ (bodyTokens b).map (Token.lower (linesOf a)) := by
  rw [bodyTokens, place_seam h, List.filterMap_append, List.filterMap_cons,
    Segment.filterMap_add (Segment.token?_add (linesOf a))]
  rfl

theorem diagnostics_seam :
    (scan (a ++ "\n" ++ b)).diagnostics =
      (scan a).diagnostics ++ (scan b).diagnostics.map (Diagnostic.lower (linesOf a)) := by
  show (Segment.place 1 _).filterMap Segment.diagnostic? = _
  rw [place_seam h, List.filterMap_append, List.filterMap_cons,
    Segment.filterMap_add (Segment.diagnostic?_add (linesOf a))]
  rfl

end

theorem linesOf_seam (a b : String) : linesOf (a ++ "\n" ++ b) = linesOf b + linesOf a := by
  simp only [linesOf, String.toList_append, List.count_append]
  rw [show "\n".toList.count '\n' = 1 from rfl]
  omega

/-- Two texts joined by a line end are scanned one after the other, unless
the first one has a string that is never closed: the tokens are those of
the first without its end mark and those of the second so many lines
further down as the first has, and so are the mistakes. -/
theorem scan_joined (a b : String)
    (h : ∀ line, .onLine line "Unterminated string." ∉ (scan a).diagnostics) :
    (scan (a ++ "\n" ++ b)).tokens =
      (scan a).tokens.dropLast ++ (scan b).tokens.map (Token.lower (1 + a.toList.count '\n')) ∧
    (scan (a ++ "\n" ++ b)).diagnostics =
      (scan a).diagnostics ++ (scan b).diagnostics.map
        (Diagnostic.lower (1 + a.toList.count '\n')) := by
  have hClosed := isUnclosed_of_unreported h
  refine ⟨?_, diagnostics_seam hClosed b⟩
  rw [tokens_scan, tokens_scan, tokens_scan, bodyTokens_seam hClosed, linesOf_seam,
    List.dropLast_concat, List.map_append, List.append_assoc]
  rfl

/-- A stray character, a string over two lines and a comment at the end,
before a stray character and a string that is never closed. -/
theorem scan_joined_ill_formed :
    let a := "@ \"x\ny\" // c"
    let b := "# \"u"
    (∀ line, .onLine line "Unterminated string." ∉ (scan a).diagnostics) ∧
      (scan (a ++ "\n" ++ b)).tokens =
        (scan a).tokens.dropLast ++ (scan b).tokens.map (Token.lower 2) ∧
      (scan (a ++ "\n" ++ b)).diagnostics =
        (scan a).diagnostics ++ (scan b).diagnostics.map (Diagnostic.lower 2) := by
  intro a b
  have hReport : ∀ d ∈ (scan a).diagnostics, d matches .mistake _ _ "Unexpected character." := by
    decide +kernel
  have h : ∀ line, .onLine line "Unterminated string." ∉ (scan a).diagnostics := by
    intro line hLine
    simpa [Diagnostic.onLine] using hReport _ hLine
  have hLines : (1 + a.toList.count '\n' : Int) = 2 := by decide
  have hJoined := scan_joined a b h
  rw [hLines] at hJoined
  exact ⟨h, hJoined⟩

end Treewalk
