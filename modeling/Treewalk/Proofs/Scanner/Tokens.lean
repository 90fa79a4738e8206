import Mathlib.Data.List.Forall2
import Treewalk.Proofs.Scanner.LongestMatch

/-!
# The tokens of a text

Scanning a text gives the tokens of its lexemes, in order and with an end
mark behind them, and one mistake for each segment that is one
(`scan_eq_tokenization`). A line is counted in two ways: scanning carries
it from segment to segment, and the declaration counts the line ends up to
a place. `place_eq_reaching` says that they agree.
-/

namespace Treewalk.Lexical

open Segment

/-! ## Lines -/

theorem lineAt_append (before cs : List Char) :
    lineAt (before ++ cs) = lineAt before + (cs.count '\n' : Int) := by
  simp only [lineAt, List.count_append, Int.natCast_add]
  omega

theorem place_eq_reaching (before : List Char) (segments : List Segment) :
    place (lineAt before) segments =
      (reaching before segments).map fun (s, upTo) => (s, lineAt upTo) := by
  induction segments generalizing before with
  | nil => rfl
  | cons s others ih =>
    have hLine : lineAt before + s.newlines = lineAt (before ++ s.text) :=
      (lineAt_append before s.text).symm
    rw [place, hLine, ih, reaching, List.map_cons]

theorem mem_reaching {before : List Char} {segments : List Segment} {s : Segment}
    {upTo : List Char} (h : (s, upTo) ∈ reaching before segments) : s ∈ segments := by
  induction segments generalizing before with
  | nil => simp [reaching] at h
  | cons first others ih =>
    rcases List.mem_cons.mp h with h | h
    · rw [(Prod.mk.inj h).1]
      exact List.mem_cons_self
    · exact List.mem_cons_of_mem _ (ih h)

/-! ## Values -/

theorem keyword_literal : ∀ p ∈ Kind.keywords, p.2 ≠ .number ∧ p.2 ≠ .string ∧ p.2 ≠ .eof := by
  decide

theorem sign_literal : ∀ p ∈ signs, p.2 ≠ .number ∧ p.2 ≠ .string ∧ p.2 ≠ .eof := by
  decide

theorem literal_eq_nil {kind : Kind} (h : kind ≠ .number ∧ kind ≠ .string ∧ kind ≠ .eof)
    (cs : List Char) : literal kind cs = .nil := by
  unfold literal
  split
  · exact absurd rfl h.1
  · exact absurd rfl h.2.1
  · rfl

theorem decimal_append {digits : List Char} (places : List Char) (h : ∀ d ∈ digits, isDigit d)
    (hPlaces : ∀ d, places.head? = some d → isDigit d = false) :
    decimal (digits ++ places) = Decimal.ofPoint digits (places.drop 1) := by
  rw [decimal, List.takeWhile_append_of_pos h, List.dropWhile_append_of_pos h]
  cases places with
  | nil => simp
  | cons d places =>
    have hd := hPlaces d rfl
    simp [hd]

/-- The value a lexeme denotes is the one its token carries. -/
theorem Lexeme.literal_eq {kind : Kind} {cs : List Char} {value : Value}
    (h : Lexeme kind cs value) : literal kind cs = value := by
  cases h with
  | sign h => exact literal_eq_nil (sign_literal _ h) cs
  | string h => simp [literal]
  | whole hne h =>
    have hWhole := decimal_append [] h (by simp)
    rw [List.append_nil] at hWhole
    rw [literal, hWhole]
    rfl
  | fraction hne h hne' h' =>
    have hPoint : isDigit '.' = false := by decide
    rw [literal, decimal_append _ h (by simp [hPoint])]
    rfl
  | keyword h => exact literal_eq_nil (keyword_literal _ h) cs
  | identifier hc hcs h => rfl

/-- Every lexeme of a tokenization denotes a value. -/
theorem Tokenization.exists_value {cs : List Char} {segments : List Segment}
    (h : Tokenization cs segments) {kind : Kind} {ds : List Char}
    (hMem : .lexeme kind ds ∈ segments) : ∃ value, Lexeme kind ds value := by
  induction h with
  | nil => simp at hMem
  | cons hFirst _ ih =>
    rcases List.mem_cons.mp hMem with rfl | hMem
    · obtain hProper | _ := hFirst.fits
      obtain ⟨hLexeme⟩ | _ := hProper
      exact ⟨_, hLexeme⟩
    · exact ih hMem

/-! ## The whole text -/

/-- The tokens before the end mark are those of the lexemes. -/
theorem forall₂_denotes (placed : List (Segment × List Char))
    (h : ∀ kind cs upTo, (.lexeme kind cs, upTo) ∈ placed → ∃ value, Lexeme kind cs value) :
    List.Forall₂ Denotes (lexemes placed)
      ((placed.map fun (s, upTo) => (s, lineAt upTo)).filterMap token?) := by
  induction placed with
  | nil => exact .nil
  | cons p others ih =>
    have hOthers := ih fun kind cs upTo hMem => h kind cs upTo (List.mem_cons_of_mem _ hMem)
    match p with
    | (.lexeme kind cs, upTo) =>
      obtain ⟨value, hValue⟩ := h kind cs upTo List.mem_cons_self
      refine .cons ⟨value, hValue, ?_⟩ hOthers
      rw [hValue.literal_eq]
    | (.trivia _, _) | (.stray _, _) | (.unclosed _, _) => exact hOthers

theorem mistakes_eq (placed : List (Segment × List Char)) :
    (placed.map fun (s, upTo) => (s, lineAt upTo)).filterMap diagnostic? = mistakes placed := by
  rw [List.filterMap_map, mistakes]
  congr 1
  funext ⟨s, upTo⟩
  cases s <;> rfl

/-- Scanning computes the declared tokenization: a text has exactly one, of
which it is the concatenation; the tokens are those of its lexemes and one
end mark; the diagnostics are its mistakes. -/
theorem scan_eq_tokenization (source : String) :
    ∃ segments : List Segment,
      (∀ other, Tokenization source.toList other ↔ other = segments) ∧
      segments.flatMap Segment.text = source.toList ∧
      (∃ tokens, (scan source).tokens =
          tokens ++ [.ofSource .eof "" .nil (lineAt source.toList)] ∧
        List.Forall₂ Denotes (lexemes (reaching [] segments)) tokens) ∧
      (scan source).diagnostics = mistakes (reaching [] segments) := by
  have hPlace := place_eq_reaching [] (cut source.toList)
  refine ⟨cut source.toList, fun other => tokenization_iff, flatMap_text_cut _, ⟨_, rfl, ?_⟩, ?_⟩
  · have hDenotes := forall₂_denotes (reaching [] (cut source.toList)) fun kind cs upTo hMem =>
      (tokenization_cut source.toList).exists_value (mem_reaching hMem)
    rwa [← hPlace] at hDenotes
  · have hMistakes := mistakes_eq (reaching [] (cut source.toList))
    rwa [← hPlace] at hMistakes

end Treewalk.Lexical
