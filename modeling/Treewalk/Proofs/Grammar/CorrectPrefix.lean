import Treewalk.Proofs.Grammar.Verdicts

/-!
# The first complaint comes as early as it can

A complaint holds the token it is about, and equal tokens may stand in
several places. The place of a complaint is the one that holds its token
whatever tokens of the same kinds are read (`ComplainsAt`).

In front of the place of the first complaint that is not about an
assignment target stands the beginning of a sentence, and with the token at
that place it is the beginning of none (`first_complaint_earliest`). The
verdict on the whole list gives the place and the beginning. That no
sentence goes on with the token follows from the other half of the theory:
a sentence is read without such a complaint, but what is read there depends
on nothing behind the token.
-/

namespace Treewalk

open Treewalk.Derivation Ebnf

/-- Whatever tokens of these kinds are read, the first complaint that is
not about an assignment target is about the token at this place. -/
def ComplainsAt (ts : List Token) (k : Nat) : Prop :=
  ∀ us : List Token, kinds us = kinds ts → ∃ before c after,
    (parse us).notes = before ++ c :: after ∧
    (∀ b ∈ before, b.reason.text = "Invalid assignment target.") ∧
    c.reason.text ≠ "Invalid assignment target." ∧ us[k]? = some c.token

theorem Complaint.fatal_iff {c : Complaint} :
    c.Fatal ↔ c.reason.text ≠ "Invalid assignment target." :=
  not_congr Reason.text_eq_iff.symm

theorem firstFatal?_eq_some_iff {notes : List Complaint} {c : Complaint} :
    firstFatal? notes = some c ↔ ∃ before after, notes = before ++ c :: after ∧
      (∀ b ∈ before, b.reason.text = "Invalid assignment target.") ∧
      c.reason.text ≠ "Invalid assignment target." := by
  simp only [firstFatal?, List.find?_eq_some_iff_append, decide_eq_true_eq, Bool.not_eq_true',
    decide_eq_false_iff_not, Complaint.fatal_iff, not_not]
  constructor
  · rintro ⟨hc, before, after, hNotes, hBefore⟩
    exact ⟨before, after, hNotes, hBefore, hc⟩
  · rintro ⟨before, after, hNotes, hBefore, hc⟩
    exact ⟨hc, before, after, hNotes, hBefore⟩

/-! ## The place of a complaint -/

/-- The tokens, told apart by their lines. -/
def numbered (ts : List Token) : List Token :=
  ts.mapIdx fun i t => { t with line := .int i }

theorem kinds_numbered (ts : List Token) : kinds (numbered ts) = kinds ts := by
  apply List.ext_getElem?
  intro i
  simp [kinds, numbered, Function.comp_def]

/-- There is one such place at most. -/
theorem ComplainsAt.unique {ts : List Token} {j k : Nat} (hj : ComplainsAt ts j)
    (hk : ComplainsAt ts k) : j = k := by
  obtain ⟨before, c, after, hNotes, hBefore, hc, hToken⟩ := hj _ (kinds_numbered ts)
  obtain ⟨before', c', after', hNotes', hBefore', hc', hToken'⟩ := hk _ (kinds_numbered ts)
  have hSame : some c = some c' :=
    (firstFatal?_eq_some_iff.mpr ⟨before, after, hNotes, hBefore, hc⟩).symm.trans
      (firstFatal?_eq_some_iff.mpr ⟨before', after', hNotes', hBefore', hc'⟩)
  rw [← Option.some.inj hSame] at hToken'
  simp only [numbered, List.getElem?_mapIdx, Option.map_eq_some_iff] at hToken hToken'
  obtain ⟨t, _, ht⟩ := hToken
  obtain ⟨u, _, hu⟩ := hToken'
  have hLine : Json.int (j : Int) = .int k := congrArg Token.line (ht.trans hu.symm)
  injection hLine with hInt
  exact Int.ofNat.inj hInt

/-- Where reading halts whatever the tokens are, there the complaint is. -/
theorem complainsAt_length {used rest : List Token} {t : Token} {reason : Reason}
    (h : parseReading.Always (kinds used) t.kind fun t _ => .halts ⟨t, reason⟩) :
    ComplainsAt (used ++ t :: rest) used.length := by
  intro us hUs
  rw [kinds_append, kinds_cons] at hUs
  obtain ⟨front, back, rfl, hFront, hBack⟩ := List.map_eq_append_iff.mp hUs
  obtain ⟨u, later, rfl, hu, _⟩ := List.map_eq_cons_iff.mp hBack
  obtain ⟨before, after, hNotes, hBefore, hc⟩ :=
    firstFatal?_eq_some_iff.mp (h front u later hFront hu)
  refine ⟨before, ⟨u, reason⟩, after, hNotes, hBefore, hc, ?_⟩
  have hLength : used.length = front.length := by
    simpa [kinds] using congrArg List.length hFront.symm
  rw [hLength]
  simp

/-! ## Beginnings of sentences -/

/-- A sentence in front of an end mark is read without a complaint of
consequence. -/
theorem firstFatal?_sentence {ts : List Token} (h : Sentence (kinds ts)) {endMark : Token}
    (hEnd : endMark.kind = .eof) : firstFatal? (parse (ts ++ [endMark])).notes = none := by
  obtain ⟨s, rfl⟩ := (sentence_iff ts).mp h
  obtain ⟨d, hNear, hTokens, _⟩ := s.exists_nearest
  rw [← hTokens, d.parse_eq ⟨endMark, List.mem_singleton.mpr hEnd⟩ [] hNear]
  exact firstFatal?_complaints _

/-- What is the beginning of declarations is the beginning of a sentence. -/
theorem exists_sentence {ks : List Kind} (h : Viable (many (category .declaration)) ks) :
    ∃ more, Sentence (ks ++ more) := by
  obtain ⟨more, h⟩ := h
  exact ⟨more, .category (.seq h (.token List.mem_cons_self))⟩

/-- Some tokens have these kinds. -/
theorem exists_tokens (ks : List Kind) : ∃ ts, kinds ts = ks :=
  ⟨ks.map fun kind => .ofSource kind "" .nil 0, by simp [kinds, Token.ofSource, Function.comp_def]⟩

/-- No sentence goes on with a token where reading always halts. -/
theorem not_sentence_of_halts {used : List Token} {t : Token} {reason : Reason}
    (h : parseReading.Always (kinds used) t.kind fun t _ => .halts ⟨t, reason⟩)
    (more : List Kind) : ¬ Sentence (kinds (used ++ [t]) ++ more) := by
  intro hSentence
  obtain ⟨later, rfl⟩ := exists_tokens more
  rw [← kinds_append, List.append_assoc] at hSentence
  let endMark := Token.ofSource .eof "" .nil 0
  -- what is read up to the token does not depend on what a sentence would go on with
  have hHalts := h used t (later ++ [endMark]) rfl rfl
  have hClean : firstFatal? (parse ((used ++ t :: later) ++ [endMark])).notes = none :=
    firstFatal?_sentence hSentence rfl
  rw [List.append_assoc] at hClean
  exact absurd (hClean.symm.trans hHalts) (by simp)

/-- For a token list before its end mark about which a complaint is made
other than the one about assignment targets: the first such complaint has
one place `k`, the tokens in front of it are the beginning of a sentence,
those up to and with it are the beginning of none, and if it is the place
of the end mark, the list is no sentence. -/
theorem first_complaint_earliest (ts : List Token) (endMark : Token)
    (hEnd : endMark.kind = .eof) (before after : List Complaint) (c : Complaint)
    (hNotes : (parse (ts ++ [endMark])).notes = before ++ c :: after)
    (hBefore : ∀ b ∈ before, b.reason.text = "Invalid assignment target.")
    (hc : c.reason.text ≠ "Invalid assignment target.") :
    ∃ k ≤ ts.length, (∀ j, ComplainsAt (ts ++ [endMark]) j ↔ j = k) ∧
      (ts ++ [endMark])[k]? = some c.token ∧
      (∃ more, Sentence (kinds (ts.take k) ++ more)) ∧
      (k < ts.length → ∀ more, ¬ Sentence (kinds (ts.take (k + 1)) ++ more)) ∧
      (k = ts.length → ¬ Sentence (kinds ts)) := by
  have hFirst : firstFatal? (parse (ts ++ [endMark])).notes = some c :=
    firstFatal?_eq_some_iff.mpr ⟨before, after, hNotes, hBefore, hc⟩
  have hNot : ¬ Sentence (kinds ts) := by
    intro h
    rw [firstFatal?_sentence h hEnd] at hFirst
    cases hFirst
  cases parse_verdict (ts ++ [endMark]) ⟨endMark, by simp, hEnd⟩ with
  | passes used next rest split _ always =>
    obtain ⟨_, _, hParse, hClean⟩ := always used next rest rfl rfl
    rw [split, hParse, Parse.notes, hClean] at hFirst
    cases hFirst
  | halts used t rest reason split viable always =>
    have hPlace : ComplainsAt (ts ++ [endMark]) used.length := split ▸ complainsAt_length always
    have hToken : c = ⟨t, reason⟩ := by
      rw [split] at hFirst
      exact Option.some.inj (hFirst.symm.trans (always used t rest rfl rfl))
    have hLength : used.length ≤ ts.length := by
      have := congrArg List.length split
      simp only [List.length_append, List.length_cons, List.length_nil] at this
      omega
    have hFront : ts.take used.length = used := by
      have hTake := @List.take_append_of_le_length _ ts [endMark] _ hLength
      rw [← hTake, split, List.take_left]
    refine ⟨used.length, hLength, ?_, ?_, ?_, ?_, fun _ => hNot⟩
    · intro j
      constructor
      · intro hj
        exact hj.unique hPlace
      · rintro rfl
        exact hPlace
    · simp [split, hToken]
    · rw [hFront]
      exact exists_sentence viable
    · intro hShort more
      have hWith : ts.take (used.length + 1) = used ++ [t] := by
        have hTake := @List.take_append_of_le_length _ ts [endMark] _ hShort
        rw [← hTake, split, List.take_append]
        simp
      rw [hWith]
      exact not_sentence_of_halts always more

/-- `nil = nil nil;` before an end mark: the complaint about the sign does
not count, and the first one that does is about the second of two equal
tokens. -/
theorem first_complaint_earliest_equal_tokens :
    let word := Token.ofSource .nilWord "nil" .nil 1
    let sign := Token.ofSource .equal "=" .nil 1
    let ts := [word, sign, word, word, .ofSource .semicolon ";" .nil 1]
    let endMark := Token.ofSource .eof "" .nil 1
    (parse (ts ++ [endMark])).notes =
        [⟨sign, .assignmentTarget⟩, ⟨word, .semicolonAfterExpression⟩] ∧
      ∃ k ≤ ts.length, (∀ j, ComplainsAt (ts ++ [endMark]) j ↔ j = k) ∧
        (ts ++ [endMark])[k]? = some word ∧
        (∃ more, Sentence (kinds (ts.take k) ++ more)) ∧
        (k < ts.length → ∀ more, ¬ Sentence (kinds (ts.take (k + 1)) ++ more)) ∧
        (k = ts.length → ¬ Sentence (kinds ts)) := by
  intro word sign ts endMark
  have hNotes : (parse (ts ++ [endMark])).notes =
      [⟨sign, .assignmentTarget⟩] ++ ⟨word, .semicolonAfterExpression⟩ :: [] := by
    cbv
  exact ⟨hNotes, first_complaint_earliest ts endMark rfl _ _ _ hNotes (by simp [Reason.text])
    (by decide)⟩

end Treewalk
