import Mathlib.Data.List.TakeWhile
import Treewalk.Tree.Text

/-!
# Phrases

What the text of a tree is made of, before anything is known of trees: a
phrase is a word, a text between quotes, or a form, which is a name and
parts between parentheses. Words hold no blank, parenthesis or quote, and
what is quoted holds no quote; so where a phrase ends can be told from its
text, and no text is that of two phrases (`Phrase.text_injective`).
-/

namespace Treewalk

/-- A word, a quoted text, or a name with parts. -/
inductive Phrase where
  | word (cs : List Char)
  | quoted (body : List Char)
  | form (name : List Char) (parts : List Phrase)

namespace Phrase

mutual

/-- The characters of a phrase. -/
def text : Phrase → List Char
  | .word cs => cs
  | .quoted body => '"' :: body ++ ['"']
  | .form name parts => '(' :: name ++ (texts parts ++ [')'])

/-- The characters of parts, with a blank before each. -/
def texts : List Phrase → List Char
  | [] => []
  | part :: rest => ' ' :: part.text ++ texts rest

end

/-- The characters that end a word. -/
def wordEnds : List Char :=
  [' ', '(', ')', '"']

/-- A character that does not end a word. -/
def inWord (c : Char) : Bool :=
  !(wordEnds.contains c)

/-- Characters that can be told from what stands around them. -/
structure IsWord (cs : List Char) : Prop where
  ne_nil : cs ≠ []
  all : ∀ c ∈ cs, inWord c

mutual

/-- A phrase whose words are words and whose quoted texts hold no quote. -/
def Legible : Phrase → Prop
  | .word cs => IsWord cs
  | .quoted body => '"' ∉ body
  | .form name parts => IsWord name ∧ AllLegible parts

/-- Parts that are legible. -/
def AllLegible : List Phrase → Prop
  | [] => True
  | part :: rest => part.Legible ∧ AllLegible rest

end

/-! ## Words -/

/-- A class that leaves out what ends a word is one of characters in words. -/
theorem inWord_of_class {p : Char → Bool} (hp : wordEnds.any p = false) {c : Char} (h : p c) :
    inWord c := by
  rw [inWord, Bool.not_eq_true', List.contains_eq_mem, decide_eq_false_iff_not]
  intro hEnds
  exact List.any_eq_false.mp hp c hEnds h

/-! ## Where a phrase ends -/

/-- What may stand behind a word: the end, or a character of no word. -/
def Bounded (rest : List Char) : Prop :=
  ∀ c ∈ rest.head?, inWord c = false

theorem bounded_nil : Bounded [] := nofun

theorem bounded_texts (parts : List Phrase) (rest : List Char) :
    Bounded (texts parts ++ ')' :: rest) := by
  cases parts with
  | nil =>
    rintro _ ⟨⟩
    decide
  | cons part parts =>
    rw [texts]
    rintro _ ⟨⟩
    decide

/-- Characters of a class before one that is not of it are told from what
follows. -/
theorem append_inj_of_class {p : Char → Bool} {cs ds rest rest' : List Char} (hcs : ∀ c ∈ cs, p c)
    (hds : ∀ c ∈ ds, p c) (hRest : ∀ c ∈ rest.head?, p c = false)
    (hRest' : ∀ c ∈ rest'.head?, p c = false) (h : cs ++ rest = ds ++ rest') :
    cs = ds ∧ rest = rest' := by
  have hTake : ∀ {es more : List Char}, (∀ c ∈ es, p c) → (∀ c ∈ more.head?, p c = false) →
      (es ++ more).takeWhile p = es := by
    intro es more hes hMore
    rw [List.takeWhile_append_of_pos hes]
    cases more with
    | nil => simp
    | cons c more => simp [hMore c rfl]
  have hSame : cs = ds := by rw [← hTake hcs hRest, h, hTake hds hRest']
  rw [hSame] at h
  exact ⟨hSame, List.append_cancel_left h⟩

theorem IsWord.append_inj {cs ds rest rest' : List Char} (hcs : IsWord cs) (hds : IsWord ds)
    (hRest : Bounded rest) (hRest' : Bounded rest') (h : cs ++ rest = ds ++ rest') :
    cs = ds ∧ rest = rest' :=
  append_inj_of_class hcs.all hds.all hRest hRest' h

theorem quoted_inj {body body' rest rest' : List Char} (hBody : '"' ∉ body) (hBody' : '"' ∉ body')
    (h : body ++ '"' :: rest = body' ++ '"' :: rest') : body = body' ∧ rest = rest' := by
  have hInside : ∀ {cs : List Char}, '"' ∉ cs → ∀ c ∈ cs, (c != '"') = true := by
    intro cs hcs c hc
    rw [bne_iff_ne]
    rintro rfl
    exact hcs hc
  obtain ⟨hSame, hMore⟩ := append_inj_of_class (p := (· != '"')) (hInside hBody) (hInside hBody')
    (by simp) (by simp) h
  exact ⟨hSame, (List.cons.inj hMore).2⟩

/-- A word does not start as a quoted text or a form does. -/
theorem IsWord.cons_ne {cs rest more : List Char} {c : Char} (h : IsWord cs)
    (hc : inWord c = false) : cs ++ rest ≠ c :: more := by
  obtain ⟨d, ds, rfl⟩ := List.exists_cons_of_ne_nil h.ne_nil
  intro hSame
  have hd := h.all d List.mem_cons_self
  rw [(List.cons.inj hSame).1, hc] at hd
  cases hd

/-! ## One reading -/

theorem text_form_append (name : List Char) (parts : List Phrase) (rest : List Char) :
    (form name parts).text ++ rest = '(' :: (name ++ (texts parts ++ ')' :: rest)) := by
  simp [text]

theorem text_quoted_append (body rest : List Char) :
    (quoted body).text ++ rest = '"' :: (body ++ '"' :: rest) := by
  simp [text]

mutual

/-- The text of a phrase tells the phrase and where it ends. -/
theorem text_append_inj : (p q : Phrase) → p.Legible → q.Legible → {rest rest' : List Char} →
    Bounded rest → Bounded rest' → p.text ++ rest = q.text ++ rest' → p = q ∧ rest = rest'
  | .word cs, .word ds, hcs, hds, _, _, hRest, hRest', h => by
    obtain ⟨rfl, rfl⟩ := IsWord.append_inj hcs hds hRest hRest' h
    exact ⟨rfl, rfl⟩
  | .quoted body, .quoted body', hBody, hBody', _, _, _, _, h => by
    rw [text_quoted_append, text_quoted_append] at h
    obtain ⟨rfl, rfl⟩ := quoted_inj hBody hBody' (List.cons.inj h).2
    exact ⟨rfl, rfl⟩
  | .form name parts, .form name' parts', ⟨hName, hParts⟩, ⟨hName', hParts'⟩, _, _, _, _, h => by
    rw [text_form_append, text_form_append] at h
    obtain ⟨rfl, hMore⟩ := hName.append_inj hName' (bounded_texts _ _) (bounded_texts _ _)
      (List.cons.inj h).2
    obtain ⟨rfl, rfl⟩ := texts_append_inj parts parts' hParts hParts' hMore
    exact ⟨rfl, rfl⟩
  -- two phrases of different sorts differ in their first character
  | .word cs, .quoted body, hcs, _, _, _, _, _, h => by
    rw [text_quoted_append] at h
    exact absurd h (IsWord.cons_ne hcs (by decide))
  | .word cs, .form name parts, hcs, _, _, _, _, _, h => by
    rw [text_form_append] at h
    exact absurd h (IsWord.cons_ne hcs (by decide))
  | .quoted body, .word cs, _, hcs, _, _, _, _, h => by
    rw [text_quoted_append] at h
    exact absurd h.symm (IsWord.cons_ne hcs (by decide))
  | .form name parts, .word cs, _, hcs, _, _, _, _, h => by
    rw [text_form_append] at h
    exact absurd h.symm (IsWord.cons_ne hcs (by decide))
  | .quoted body, .form name parts, _, _, _, _, _, _, h => by
    rw [text_quoted_append, text_form_append] at h
    exact absurd (List.cons.inj h).1 (by decide)
  | .form name parts, .quoted body, _, _, _, _, _, _, h => by
    rw [text_quoted_append, text_form_append] at h
    exact absurd (List.cons.inj h).1 (by decide)

/-- The texts of parts up to a closing parenthesis tell the parts. -/
theorem texts_append_inj : (ps qs : List Phrase) → AllLegible ps → AllLegible qs →
    {rest rest' : List Char} → texts ps ++ ')' :: rest = texts qs ++ ')' :: rest' →
    ps = qs ∧ rest = rest'
  | [], [], _, _, _, _, h => ⟨rfl, (List.cons.inj h).2⟩
  | [], q :: qs, _, _, _, _, h => by
    rw [texts, texts] at h
    exact absurd (List.cons.inj h).1 (by decide)
  | p :: ps, [], _, _, _, _, h => by
    rw [texts, texts] at h
    exact absurd (List.cons.inj h).1 (by decide)
  | p :: ps, q :: qs, ⟨hp, hps⟩, ⟨hq, hqs⟩, _, _, h => by
    rw [texts, texts, List.cons_append, List.cons_append, List.cons_append, List.cons_append,
      List.append_assoc, List.append_assoc] at h
    obtain ⟨rfl, hMore⟩ := text_append_inj p q hp hq (bounded_texts _ _) (bounded_texts _ _)
      (List.cons.inj h).2
    obtain ⟨rfl, rfl⟩ := texts_append_inj ps qs hps hqs hMore
    exact ⟨rfl, rfl⟩

end

/-- No text is that of two legible phrases. -/
theorem text_injective {p q : Phrase} (hp : p.Legible) (hq : q.Legible) (h : p.text = q.text) :
    p = q :=
  (text_append_inj p q hp hq bounded_nil bounded_nil
    (by rw [List.append_nil, List.append_nil, h])).1

/-! ## Forms -/

/-- The text of a phrase as a value. -/
def json (p : Phrase) : Json :=
  .string (String.ofList p.text)

theorem allTexts_map_json (parts : List Phrase) :
    Node.allTexts (parts.map json) = some (parts.map fun p => .whole (String.ofList p.text)) := by
  induction parts with
  | nil => rfl
  | cons part rest ih =>
    rw [List.map_cons, json, Node.allTexts, ih]
    rfl

theorem intercalate_parts (first : String) (parts : List Phrase) :
    Text.intercalate " " (first :: parts.map fun p => .whole (String.ofList p.text)) =
      .whole (String.ofList (first.toList ++ texts parts)) := by
  induction parts generalizing first with
  | nil => simp [Text.intercalate, texts]
  | cons part rest ih =>
    rw [List.map_cons, Text.intercalate, ih, Text.whole_append_whole, Text.whole_append_whole,
      String.toList_ofList, texts]
    · refine congrArg Text.whole (String.toList_inj.mp ?_)
      simp
    · exact nofun

/-- A form of the texts of phrases is the text of a phrase. -/
theorem form_json (name : String) (parts : List Phrase) :
    Node.form (.string name) (parts.map json) = .ok (form name.toList parts).json := by
  have hTexts : Node.allTexts (.string name :: parts.map json) =
      some (.whole name :: parts.map fun p => .whole (String.ofList p.text)) := by
    rw [Node.allTexts, allTexts_map_json]
    rfl
  simp only [Node.form, hTexts, intercalate_parts, json, text, Text.whole_append_whole]
  refine congrArg (fun s => Except.ok (Json.string (.whole s))) (String.toList_inj.mp ?_)
  simp

end Phrase

end Treewalk
