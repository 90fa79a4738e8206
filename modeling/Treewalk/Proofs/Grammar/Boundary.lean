import Treewalk.Proofs.Grammar.FirstEnd

/-!
# Behind a declaration

Reading starts afresh behind a declaration. A list that is read without a
complaint that stops a rule has a derivation, and a derivation is read in
the same way in front of an end mark and in front of any other token but
`else` (`Declarations.parse_append`), which an open `if` at its end would
take. So the list and whatever stands behind it, mistakes included, are
read one after the other (`parse_at_boundary`).
-/

namespace Treewalk

open Treewalk.Derivation

/-- A list that is read without a complaint but the one about assignment
targets, and any other list behind it that does not start with `else`, are
read one after the other: the entries and the complaints of the first, then
those of the second. -/
theorem parse_at_boundary (p q : List Token) (hp : ∀ t ∈ p, t.kind ≠ .eof)
    (hq : ∀ t ∈ q, t.kind ≠ .eof) (first last : Token) (hFirst : first.kind = .eof)
    (hLast : last.kind = .eof)
    (h : ∀ c ∈ (parse (p ++ [first])).notes, c.reason.text = "Invalid assignment target.")
    (hElse : ∀ t ∈ q.head?, t.kind ≠ .elseWord) :
    ∃ entries notes entries' notes',
      parse (p ++ [first]) = .finished entries [first] notes ∧
      parse (q ++ [last]) = .finished entries' [last] notes' ∧
      parse (p ++ q ++ [last]) = .finished (entries ++ entries') [last] (notes ++ notes') := by
  obtain ⟨d, rfl, hNear⟩ := exists_nearest_derivation hp hFirst
    fun c hc => not_not_intro (Reason.text_eq_iff.mp (h c hc))
  obtain ⟨entries', notes', hRead, -⟩ := parse_first_end hq hLast []
  obtain ⟨t, rest, hBehind, ht⟩ : ∃ t rest, q ++ [last] = t :: rest ∧ t.kind ≠ .elseWord := by
    cases q with
    | nil => exact ⟨last, [], rfl, by rw [hLast]; decide⟩
    | cons t more => exact ⟨t, more ++ [last], rfl, hElse t rfl⟩
  refine ⟨_, _, entries', notes', d.parse_eq ⟨first, by simp [hFirst]⟩ [] hNear, hRead, ?_⟩
  rw [List.append_assoc, hBehind, d.parse_append ht rest hNear, ← hBehind, hRead]
  rfl

/-- `if (nil) nil = nil;` leaves an `if` open and has a misplaced sign; two
mistakes stand behind it. -/
theorem parse_at_boundary_open_if :
    let word := Token.ofSource .nilWord "nil" .nil 1
    let sign := Token.ofSource .equal "=" .nil 1
    let semicolon := Token.ofSource .semicolon ";" .nil 1
    let p := [.ofSource .ifWord "if" .nil 1, .ofSource .leftParen "(" .nil 1, word,
      .ofSource .rightParen ")" .nil 1, word, sign, word, semicolon]
    let q := [semicolon, .ofSource .printWord "print" .nil 2]
    let endMark := Token.ofSource .eof "" .nil 2
    (parse (p ++ [endMark])).notes = [⟨sign, .assignmentTarget⟩] ∧
      (∀ t ∈ p ++ q, t.kind ≠ .eof) ∧ (∀ t ∈ q.head?, t.kind ≠ .elseWord) ∧
      ∃ entries notes entries' notes',
        parse (p ++ [endMark]) = .finished entries [endMark] notes ∧
        parse (q ++ [endMark]) = .finished entries' [endMark] notes' ∧
        parse (p ++ q ++ [endMark]) =
          .finished (entries ++ entries') [endMark] (notes ++ notes') := by
  intro word sign semicolon p q endMark
  have hNotes : (parse (p ++ [endMark])).notes = [⟨sign, .assignmentTarget⟩] := by
    cbv
  have hMarks : ∀ t ∈ p ++ q, t.kind ≠ .eof := by decide
  have hElse : ∀ t ∈ q.head?, t.kind ≠ .elseWord := by decide
  rw [List.forall_mem_append] at hMarks
  refine ⟨hNotes, List.forall_mem_append.mpr hMarks, hElse, ?_⟩
  exact parse_at_boundary p q hMarks.1 hMarks.2 endMark endMark rfl rfl
    (by simp [hNotes, Reason.text]) hElse

end Treewalk
