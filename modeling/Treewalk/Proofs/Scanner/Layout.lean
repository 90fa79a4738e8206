import Treewalk.Proofs.Scanner.Seam

/-!
# Layout

Tokens survive being spaced anew. A lexeme by itself is one segment
(`Lexeme.first_eq`), and a space behind it changes nothing, so it is cut
off whole wherever a space or the end follows (`Lexeme.cut_append`).
Layout is cut into trivia, whatever follows (`Layout.cut_append`). So the
lexemes of any text, mistakes left out, put down again with layout before,
between and behind them are scanned as the same tokens, on lines of their
own (`scan_respaced`).
-/

namespace Treewalk.Lexical

open Segment

/-- Blanks, line ends, and comments, each with the line end behind it. -/
inductive Layout : List Char → Prop
  | nil : Layout []
  | space {c : Char} {cs : List Char} (h : c ∈ [' ', '\r', '\t', '\n']) (hs : Layout cs) :
      Layout (c :: cs)
  | comment {body cs : List Char} (h : '\n' ∉ body) (hs : Layout cs) :
      Layout ('/' :: '/' :: body ++ '\n' :: cs)

/-- Layout is cut into trivia, whatever follows. -/
theorem Layout.cut_append {w : List Char} (h : Layout w) (rest : List Char) :
    ∃ blanks : List (List Char), cut (w ++ rest) = blanks.map .trivia ++ cut rest := by
  induction h with
  | nil => exact ⟨[], rfl⟩
  | @space c cs hc _ ih =>
    obtain ⟨blanks, hCut⟩ := ih
    refine ⟨[c] :: blanks, ?_⟩
    rw [List.cons_append, cut, first_of_space hc, hCut]
    rfl
  | @comment body cs hBody _ ih =>
    obtain ⟨blanks, hCut⟩ := ih
    refine ⟨('/' :: '/' :: body) :: ['\n'] :: blanks, ?_⟩
    have hText : ('/' :: '/' :: body ++ '\n' :: cs) ++ rest =
        '/' :: '/' :: (body ++ '\n' :: (cs ++ rest)) := by simp
    rw [hText, cut, first_slash, slash_comment hBody (.inr ⟨_, rfl⟩), cut,
      first_of_space (by decide), hCut]
    rfl

/-- A lexeme by itself is one segment. -/
theorem Lexeme.first_eq {kind : Kind} {cs : List Char} {value : Value} (h : Lexeme kind cs value) :
    ∃ c ds, cs = c :: ds ∧ first c ds = (.lexeme kind cs, []) := by
  cases cs with
  | nil =>
    have hProper : Proper (.lexeme kind []) [] := .lexeme h
    exact absurd rfl hProper.text_ne_nil
  | cons c ds =>
    have hText := text_first c ds
    have hLength := congrArg List.length hText
    rw [List.length_append] at hLength
    refine ⟨c, ds, rfl, ?_⟩
    rcases h.eq_or_shorter (List.append_nil _) with hSame | hShorter
    · rw [← hSame] at hText
      refine Prod.ext hSame.symm ?_
      exact List.append_right_eq_self.mp hText
    · omega

/-- A lexeme is cut off whole before a space or the end. -/
theorem Lexeme.cut_append {kind : Kind} {cs : List Char} {value : Value}
    (h : Lexeme kind cs value) {rest : List Char} (hRest : ∀ c ∈ rest.head?, isSpace c) :
    cut (cs ++ rest) = .lexeme kind cs :: cut rest := by
  obtain ⟨c, ds, rfl, hFirst⟩ := h.first_eq
  cases rest with
  | nil => simp only [List.append_nil, cut, hFirst]
  | cons sep more =>
    have hEnds : (first c ds).1.endsBefore sep := by
      rw [hFirst]
      exact hRest sep rfl
    rw [List.cons_append, cut, first_seam hEnds, hFirst]
    rfl

end Treewalk.Lexical

namespace Treewalk

open Segment Lexical

/-! ## Tokens without their lines -/

/-- What a token is, wherever it stands. -/
def Token.unplaced (t : Token) : Kind × Json × Value :=
  (t.kind, t.lexeme, t.literal)

/-- What the token of a segment is, wherever the segment stands. -/
def Segment.unplaced? : Segment → Option (Kind × Json × Value)
  | .lexeme kind cs => some (kind, .string (String.ofList cs), literal kind cs)
  | _ => none

theorem Segment.map_unplaced_token? (s : Segment) (line : Int) :
    (token? (s, line)).map Token.unplaced = s.unplaced? := by
  cases s <;> rfl

/-- Segments that spell these tokens and hold no mistake. -/
structure Spells (segments : List Segment) (tokens : List Token) : Prop where
  tokens : segments.filterMap unplaced? = tokens.map Token.unplaced
  faultless : ∀ s ∈ segments, ∀ line, diagnostic? (s, line) = none

namespace Spells

theorem nil : Spells [] [] :=
  ⟨rfl, nofun⟩

/-- Trivia in front. -/
theorem trivia {segments : List Segment} {tokens : List Token} (h : Spells segments tokens)
    (blanks : List (List Char)) : Spells (blanks.map .trivia ++ segments) tokens := by
  induction blanks with
  | nil => exact h
  | cons blank blanks ih => exact ⟨ih.tokens, List.forall_mem_cons.mpr ⟨fun _ => rfl, ih.faultless⟩⟩

/-- A lexeme in front. -/
theorem lexeme {segments : List Segment} {tokens : List Token} (h : Spells segments tokens)
    {kind : Kind} {cs : List Char} {value : Value} (hLexeme : Lexeme kind cs value) (line : Int) :
    Spells (.lexeme kind cs :: segments)
      (.ofSource kind (String.ofList cs) value line :: tokens) := by
  refine ⟨?_, List.forall_mem_cons.mpr ⟨fun _ => rfl, h.faultless⟩⟩
  have hFirst : unplaced? (.lexeme kind cs) = some (kind, .string (String.ofList cs), value) := by
    rw [unplaced?, hLexeme.literal_eq]
  rw [List.filterMap_cons_some hFirst, h.tokens]
  rfl

/-- A text is scanned as what its segments spell. -/
theorem scan_eq {source : String} {tokens : List Token} (h : Spells (cut source.toList) tokens) :
    (scan source).diagnostics = [] ∧
      (bodyTokens source).map Token.unplaced = tokens.map Token.unplaced := by
  constructor
  · refine List.filterMap_eq_nil_iff.mpr ?_
    rintro ⟨s, line⟩ hPlaced
    exact h.faultless s (mem_iff_mem_place.mpr ⟨line, hPlaced⟩) line
  · have hUnplaced : (fun p => (token? p).map Token.unplaced) = unplaced? ∘ Prod.fst :=
      funext fun (s, line) => s.map_unplaced_token? line
    rw [bodyTokens, List.map_filterMap, hUnplaced, ← List.filterMap_map, map_fst_place, h.tokens]

end Spells

/-! ## Spacing anew -/

/-- The lexemes of tokens with a gap behind each, and one in front. -/
def respaced (start : String) : List (Token × String) → String
  | [] => start
  | (t, gap) :: others => start ++ t.lexeme.shown ++ respaced gap others

/-- Gaps of layout that keep lexemes apart: one that is not empty starts
with a space, and only the last one may be empty. -/
structure Parting (gaps : List String) : Prop where
  layout : ∀ gap ∈ gaps, Layout gap.toList
  space : ∀ gap ∈ gaps, ∀ c ∈ gap.toList.head?, isSpace c
  inner : ∀ gap ∈ gaps.dropLast, gap ≠ ""

theorem Parting.tail {gap : String} {gaps : List String} (h : Parting (gap :: gaps)) :
    Parting gaps := by
  refine ⟨fun w hw => h.layout w (List.mem_cons_of_mem _ hw),
    fun w hw => h.space w (List.mem_cons_of_mem _ hw), fun w hw => h.inner w ?_⟩
  cases gaps with
  | nil => cases hw
  | cons next others => exact List.mem_cons_of_mem _ hw

/-- Behind a lexeme stands a space or nothing. -/
theorem Parting.head {gap : String} {others : List (Token × String)}
    (h : Parting (gap :: others.map Prod.snd)) :
    ∀ c ∈ (respaced gap others).toList.head?, isSpace c := by
  have hSpace := h.space gap List.mem_cons_self
  cases others with
  | nil => exact hSpace
  | cons p others =>
    have hGap : gap ≠ "" := h.inner gap List.mem_cons_self
    obtain ⟨c, cs, hText⟩ := List.exists_cons_of_ne_nil (mt String.toList_eq_nil_iff.mp hGap)
    simp only [respaced, String.toList_append, hText, List.cons_append, List.head?_cons] at hSpace ⊢
    exact hSpace

theorem spells_respaced {start : String} {spaced : List (Token × String)}
    (hStart : Layout start.toList) (hTokens : ∀ p ∈ spaced, p.1.Scanned)
    (hGaps : Parting (spaced.map Prod.snd)) :
    Spells (cut (respaced start spaced).toList) (spaced.map Prod.fst) := by
  induction spaced generalizing start with
  | nil =>
    obtain ⟨blanks, hCut⟩ := hStart.cut_append []
    rw [List.append_nil, cut] at hCut
    rw [respaced, hCut]
    exact Spells.nil.trivia blanks
  | cons p others ih =>
    obtain ⟨t, gap⟩ := p
    rw [List.forall_mem_cons] at hTokens
    obtain ⟨⟨kind, cs, value, line, hLexeme, rfl⟩, hOthers⟩ := hTokens
    have hRest := ih (hGaps.layout gap List.mem_cons_self) hOthers hGaps.tail
    have hText : (respaced start ((Token.ofSource kind (String.ofList cs) value line, gap) ::
        others)).toList = start.toList ++ (cs ++ (respaced gap others).toList) := by
      simp [respaced, Token.ofSource, Json.shown]
    obtain ⟨blanks, hCut⟩ := hStart.cut_append (cs ++ (respaced gap others).toList)
    rw [hText, hCut, hLexeme.cut_append hGaps.head]
    exact (hRest.lexeme hLexeme line).trivia blanks

/-- The lexemes of a text, mistakes left out, put down again with layout
before, between and behind them, are scanned without a mistake as the same
tokens, whatever lines they stand on. -/
theorem scan_respaced (source start : String) (gaps : List String)
    (hLength : gaps.length = (scan source).tokens.dropLast.length)
    (hStart : Layout start.toList) (hGaps : Parting gaps) :
    let text := respaced start ((scan source).tokens.dropLast.zip gaps)
    (scan text).diagnostics = [] ∧
      ∃ tokens line, (scan text).tokens = tokens ++ [.endMark line] ∧
        tokens.map Token.unplaced = (scan source).tokens.dropLast.map Token.unplaced := by
  have hTokens : (scan source).tokens.dropLast = bodyTokens source := by
    rw [tokens_scan, List.dropLast_concat]
  rw [hTokens] at hLength ⊢
  intro text
  have hSpells : Spells (cut text.toList) (((bodyTokens source).zip gaps).map Prod.fst) := by
    refine spells_respaced hStart ?_ ?_
    · intro p hp
      exact scanned_of_mem_bodyTokens (List.of_mem_zip hp).1
    · rwa [List.map_snd_zip (by omega)]
  rw [List.map_fst_zip (by omega)] at hSpells
  obtain ⟨hFaultless, hSame⟩ := hSpells.scan_eq
  exact ⟨hFaultless, bodyTokens text, linesOf text, rfl, hSame⟩

/-- A number, signs that would run together, a name, a string that holds
the start of a comment, and a stray character that is left out. -/
theorem scan_respaced_neighbours :
    let source := "1.5/x!==\"a//b\"@"
    let gaps := [" ", "\t", "\n//x\n", " ", "\r", ""]
    let text := respaced "// c\n" ((scan source).tokens.dropLast.zip gaps)
    gaps.length = (scan source).tokens.dropLast.length ∧ Layout "// c\n".toList ∧ Parting gaps ∧
      (scan text).diagnostics = [] ∧
      ∃ tokens line, (scan text).tokens = tokens ++ [.endMark line] ∧
        tokens.map Token.unplaced = (scan source).tokens.dropLast.map Token.unplaced := by
  intro source gaps text
  have hLength : gaps.length = (scan source).tokens.dropLast.length := by decide +kernel
  have hStart : Layout "// c\n".toList := @Layout.comment [' ', 'c'] [] (by decide) .nil
  have hLayout : ∀ gap ∈ gaps, Layout gap.toList := by
    simp only [gaps, List.forall_mem_cons]
    exact ⟨.space (by decide) .nil, .space (by decide) .nil,
      .space (by decide) (@Layout.comment ['x'] [] (by decide) .nil), .space (by decide) .nil,
      .space (by decide) .nil, .nil, nofun⟩
  have hGaps : Parting gaps := ⟨hLayout, by simp [gaps, isSpace], by simp [gaps]⟩
  exact ⟨hLength, hStart, hGaps, scan_respaced source "// c\n" gaps hLength hStart hGaps⟩

end Treewalk
