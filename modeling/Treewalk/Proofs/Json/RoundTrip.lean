import Treewalk.Proofs.Json.Numeral
import Treewalk.Text.Lines

/-!
# Reading back a JSON text

A value whose integers are short, whose numbers are not negative, whose
texts are whole and whose objects name each field once (`Stable`) is read back from its written form
(`parse_render`). The written form is followed part by part: texts
character by character, then values, items and fields by one induction on
the value. Nothing of it depends on the line ends of the platform, since no
carriage return is ever written.
-/

namespace Treewalk.Json

/-! ## Texts -/

theorem hexDigit?_digitChar : ∀ k < 16, hexDigit? (Nat.digitChar k) = some k := by
  decide

theorem hexQuad_hexDigits {n : Nat} (h : n < 0x10000) (rest : List Char) :
    Finds hexQuad? (hexDigits 4 n ++ rest) n rest := by
  have hDigit : ∀ m, hexDigit? (Nat.digitChar (m % 16)) = some (m % 16) :=
    fun m => hexDigit?_digitChar _ (Nat.mod_lt m (by decide))
  simp only [Finds, hexDigits, List.nil_append, List.cons_append, hexQuad?, hDigit]
  refine ⟨_, rfl, ?_, rfl⟩
  simp only
  omega

/-- A control character is named by its number. -/
theorem named_control {c : Char} (h : c.toNat < 0x20) (rest : List Char) :
    Finds named? (hexDigits 4 c.toNat ++ rest) (.char c) rest := by
  obtain ⟨r, hFound, hValue, hRest⟩ := hexQuad_hexDigits (by omega : c.toNat < 0x10000) rest
  refine ⟨r.map Point.ofCode, ?_, ?_, hRest⟩
  · rw [named?, hFound, Option.map_some, if_neg (by omega)]
  · rw [Read.map, hValue, Point.ofCode, dif_neg (by omega), Char.ofNat_toNat]

theorem textPoint_escape {cs rest : List Char} {p : Point} (h : Finds escape? cs p rest) :
    Finds textPoint? ('\\' :: cs) p rest := by
  obtain ⟨r, hFound, rfl, rfl⟩ := h
  refine ⟨r.within (Nat.le_succ _), ?_, rfl, rfl⟩
  rw [textPoint?, if_pos rfl, hFound, Option.map_some]

theorem textPoint_visible {c : Char} (h : 0x20 ≤ c.toNat) (hBackslash : c ≠ '\\')
    (rest : List Char) : Finds textPoint? (c :: rest) (.char c) rest := by
  refine ⟨⟨.char c, rest, Nat.lt_succ_self _⟩, ?_, rfl, rfl⟩
  rw [textPoint?, if_neg hBackslash, if_neg (not_lt.mpr h)]

theorem escape_letter {e c : Char} (h : escaped? e = some c) (hu : e ≠ 'u') (rest : List Char) :
    Finds escape? (e :: rest) (.char c) rest := by
  refine ⟨⟨.char c, rest, Nat.lt_succ_self _⟩, ?_, rfl, rfl⟩
  rw [escape?, if_neg hu, h, Option.map_some]

theorem escape_named {cs rest : List Char} {p : Point} (h : Finds named? cs p rest) :
    Finds escape? ('u' :: cs) p rest := by
  obtain ⟨r, hFound, rfl, rfl⟩ := h
  refine ⟨r.within (Nat.le_succ _), ?_, rfl, rfl⟩
  rw [escape?, if_pos rfl, hFound, Option.map_some]

/-- The three ways a character is written: with a letter, by its number,
as it is. -/
inductive Spells (c : Char) : List Char → Prop
  | letter {e : Char} : escaped? e = some c → e ≠ 'u' → Spells c ['\\', e]
  | number : c.toNat < 0x20 → Spells c ('\\' :: 'u' :: hexDigits 4 c.toNat)
  | visible : 0x20 ≤ c.toNat → c ≠ '"' → c ≠ '\\' → Spells c [c]

theorem spells_writtenChar (c : Char) : Spells c (writtenChar c) := by
  unfold writtenChar
  split
  next h => exact .letter (by rw [h]; rfl) (by decide)
  next hQuote =>
  split
  next h => exact .letter (by rw [h]; rfl) (by decide)
  next hBackslash =>
  split
  next h => exact .letter (by rw [h]; rfl) (by decide)
  split
  next h => exact .letter (by rw [h]; rfl) (by decide)
  split
  next h => exact .letter (by rw [h]; rfl) (by decide)
  split
  next h => exact .letter (by rw [← Char.ofNat_toNat c, h]; rfl) (by decide)
  split
  next h => exact .letter (by rw [← Char.ofNat_toNat c, h]; rfl) (by decide)
  split
  next h => exact .number h
  next h => exact .visible (not_lt.mp h) hQuote hBackslash

theorem textPoint_append (c : Char) (rest : List Char) :
    Finds textPoint? (writtenChar c ++ rest) (.char c) rest := by
  have hSpells := spells_writtenChar c
  generalize writtenChar c = text at hSpells ⊢
  cases hSpells with
  | letter he hu => exact textPoint_escape (escape_letter he hu rest)
  | number hControl => exact textPoint_escape (escape_named (named_control hControl rest))
  | visible hVisible _ hBackslash => exact textPoint_visible hVisible hBackslash rest

theorem writtenChar_head (c : Char) (rest : List Char) :
    ∃ d ds, writtenChar c ++ rest = d :: ds ∧ d ≠ '"' := by
  have hSpells := spells_writtenChar c
  generalize writtenChar c = text at hSpells ⊢
  cases hSpells with
  | letter => exact ⟨'\\', _, rfl, by decide⟩
  | number => exact ⟨'\\', _, rfl, by decide⟩
  | visible _ hQuote _ => exact ⟨c, _, rfl, hQuote⟩

theorem textBody_quote (rest : List Char) : Finds textBody ('"' :: rest) [] rest := by
  refine ⟨⟨[], rest, Nat.lt_succ_self _⟩, ?_, rfl, rfl⟩
  rw [textBody, if_pos rfl]

theorem textBody_cons {d : Char} {ds tail rest : List Char} {p : Point} {points : List Point}
    (hQuote : d ≠ '"') (h : Finds textPoint? (d :: ds) p tail)
    (hTail : Finds textBody tail points rest) : Finds textBody (d :: ds) (p :: points) rest := by
  obtain ⟨first, hFirst, rfl, rfl⟩ := h
  obtain ⟨found, hFound, rfl, rfl⟩ := hTail
  refine ⟨(found.map (first.value :: ·)).within (Nat.le_of_lt first.shorter), ?_, rfl, rfl⟩
  rw [textBody, if_neg hQuote]
  simp only [hFirst, hFound]

/-- A text is read back up to its closing quote. -/
theorem textBody_append (s rest : List Char) :
    Finds textBody (s.flatMap writtenChar ++ '"' :: rest) (s.map .char) rest := by
  induction s with
  | nil => exact textBody_quote rest
  | cons c s ih =>
    have hChar := textPoint_append c (s.flatMap writtenChar ++ '"' :: rest)
    obtain ⟨d, ds, hHead, hQuote⟩ := writtenChar_head c (s.flatMap writtenChar ++ '"' :: rest)
    rw [List.flatMap_cons, List.append_assoc]
    rw [hHead] at hChar ⊢
    exact textBody_cons hQuote hChar ih

/-! ## The rules of reading -/

theorem next_of_skipBlanks {cs rest : List Char} {c : Char} (h : skipBlanks cs = c :: rest) :
    Finds next? cs c rest := by
  unfold Finds next?
  split
  next heq =>
    rw [h] at heq
    cases heq
  next c' rest' heq =>
    rw [h] at heq
    cases heq
    exact ⟨_, rfl, rfl, rfl⟩

section

variable {cs tail rest : List Char}

theorem value_scalar {c : Char} {v : Json} (h : skipBlanks cs = c :: tail)
    (hOpen : c ≠ '\x7b' ∧ c ≠ '[' ∧ c ≠ '"') (hRead : Gives scalar (c :: tail) v rest) :
    Gives value cs v rest := by
  rw [← h] at hRead
  obtain ⟨first, hFirst, rfl, rfl⟩ := next_of_skipBlanks h
  obtain ⟨found, hFound, rfl, rfl⟩ := hRead
  refine ⟨found.within (skipBlanks_length_le cs), ?_, rfl, rfl⟩
  rw [value, hFirst]
  simp only [if_neg hOpen.1, if_neg hOpen.2.1, if_neg hOpen.2.2, hFound, Except.map]

theorem value_text {points : List Point} (h : skipBlanks cs = '"' :: tail)
    (hRead : Finds textBody tail points rest) :
    Gives value cs (.string (.ofPoints points)) rest := by
  obtain ⟨first, hFirst, hQuote, rfl⟩ := next_of_skipBlanks h
  obtain ⟨found, hFound, rfl, rfl⟩ := hRead
  refine ⟨(found.map fun points => Json.string (.ofPoints points)).within
    (Nat.le_of_lt first.shorter), ?_, rfl, rfl⟩
  rw [value, hFirst]
  simp only [hQuote, hFound]
  rfl

theorem value_list_nil (h : skipBlanks cs = '[' :: ']' :: rest) :
    Gives value cs (.list []) rest := by
  obtain ⟨first, hFirst, hOpen, hTail⟩ := next_of_skipBlanks h
  obtain ⟨second, hSecond, hClose, rfl⟩ :=
    next_of_skipBlanks (by rw [hTail]; rfl : skipBlanks first.rest = ']' :: rest)
  refine ⟨⟨.list [], second.rest, Nat.lt_trans second.shorter first.shorter⟩, ?_, rfl, rfl⟩
  rw [value, hFirst]
  simp only [hOpen, hSecond, hClose]
  rfl

theorem value_list {c : Char} {ds : List Char} {items : List Json}
    (h : skipBlanks cs = '[' :: tail) (hTail : skipBlanks tail = c :: ds) (hClose : c ≠ ']')
    (hRead : Gives itemList tail items rest) : Gives value cs (.list items) rest := by
  obtain ⟨first, hFirst, hOpen, rfl⟩ := next_of_skipBlanks h
  obtain ⟨second, hSecond, rfl, -⟩ := next_of_skipBlanks hTail
  obtain ⟨found, hFound, rfl, rfl⟩ := hRead
  refine ⟨(found.map Json.list).within (Nat.le_of_lt first.shorter), ?_, rfl, rfl⟩
  rw [value, hFirst]
  simp only [hOpen, hSecond, if_neg hClose, hFound, Except.map]
  rfl

theorem value_object_nil (h : skipBlanks cs = '\x7b' :: '\x7d' :: rest) :
    Gives value cs (.object []) rest := by
  obtain ⟨first, hFirst, hOpen, hTail⟩ := next_of_skipBlanks h
  obtain ⟨second, hSecond, hClose, rfl⟩ :=
    next_of_skipBlanks (by rw [hTail]; rfl : skipBlanks first.rest = '\x7d' :: rest)
  refine ⟨⟨.object [], second.rest, Nat.lt_trans second.shorter first.shorter⟩, ?_, rfl, rfl⟩
  rw [value, hFirst]
  simp only [hOpen, hSecond, hClose]
  rfl

theorem value_object {c : Char} {ds : List Char} {fields : List (Text × Json)}
    (h : skipBlanks cs = '\x7b' :: tail) (hTail : skipBlanks tail = c :: ds) (hClose : c ≠ '\x7d')
    (hRead : Gives fieldList tail fields rest) :
    Gives value cs (.object (distinct fields)) rest := by
  obtain ⟨first, hFirst, hOpen, rfl⟩ := next_of_skipBlanks h
  obtain ⟨second, hSecond, rfl, -⟩ := next_of_skipBlanks hTail
  obtain ⟨found, hFound, rfl, rfl⟩ := hRead
  refine ⟨(found.map fun fields => Json.object (distinct fields)).within
    (Nat.le_of_lt first.shorter), ?_, rfl, rfl⟩
  rw [value, hFirst]
  simp only [hOpen, hSecond, if_neg hClose, hFound, Except.map]
  rfl

theorem itemList_last {v : Json} (h : Gives value cs v tail)
    (hClose : skipBlanks tail = ']' :: rest) : Gives itemList cs [v] rest := by
  obtain ⟨item, hItem, rfl, rfl⟩ := h
  obtain ⟨mark, hMark, hBracket, rfl⟩ := next_of_skipBlanks hClose
  refine ⟨⟨[item.value], mark.rest, Nat.lt_trans mark.shorter item.shorter⟩, ?_, rfl, rfl⟩
  rw [itemList, hItem]
  simp only [hMark, hBracket]
  rfl

theorem itemList_more {v : Json} {others : List Char} {items : List Json}
    (h : Gives value cs v tail) (hComma : skipBlanks tail = ',' :: others)
    (hOthers : Gives itemList others items rest) : Gives itemList cs (v :: items) rest := by
  obtain ⟨item, hItem, rfl, rfl⟩ := h
  obtain ⟨mark, hMark, hSign, rfl⟩ := next_of_skipBlanks hComma
  obtain ⟨found, hFound, rfl, rfl⟩ := hOthers
  refine ⟨(found.map (item.value :: ·)).within
    (Nat.le_of_lt (Nat.lt_trans mark.shorter item.shorter)), ?_, rfl, rfl⟩
  rw [itemList, hItem]
  simp only [hMark, hSign, hFound, Except.map]
  rfl

theorem fieldName_gives {middle : List Char} {points : List Point}
    (h : skipBlanks cs = '"' :: middle) (hText : Finds textBody middle points tail)
    (hColon : skipBlanks tail = ':' :: rest) : Finds fieldName cs (.ofPoints points) rest := by
  obtain ⟨quote, hFirst, hQuote, rfl⟩ := next_of_skipBlanks h
  obtain ⟨name, hName, rfl, rfl⟩ := hText
  obtain ⟨colon, hNext, hSign, rfl⟩ := next_of_skipBlanks hColon
  refine ⟨⟨.ofPoints name.value, colon.rest,
    Nat.lt_trans colon.shorter (Nat.lt_trans name.shorter quote.shorter)⟩, ?_, rfl, rfl⟩
  rw [fieldName, hFirst, Option.bind_some, if_pos hQuote, hName, Option.bind_some, hNext,
    Option.bind_some, if_pos hSign]

theorem fieldList_last {key : Text} {v : Json} {middle : List Char}
    (hName : Finds fieldName cs key middle) (h : Gives value middle v tail)
    (hClose : skipBlanks tail = '\x7d' :: rest) : Gives fieldList cs [(key, v)] rest := by
  obtain ⟨name, hFound, rfl, rfl⟩ := hName
  obtain ⟨item, hItem, rfl, rfl⟩ := h
  obtain ⟨mark, hMark, hBrace, rfl⟩ := next_of_skipBlanks hClose
  refine ⟨⟨[(name.value, item.value)], mark.rest,
    Nat.lt_trans mark.shorter (Nat.lt_trans item.shorter name.shorter)⟩, ?_, rfl, rfl⟩
  rw [fieldList, hFound]
  simp only [hItem, hMark, hBrace]
  rfl

theorem fieldList_more {key : Text} {v : Json} {middle others : List Char}
    {fields : List (Text × Json)} (hName : Finds fieldName cs key middle)
    (h : Gives value middle v tail) (hComma : skipBlanks tail = ',' :: others)
    (hOthers : Gives fieldList others fields rest) :
    Gives fieldList cs ((key, v) :: fields) rest := by
  obtain ⟨name, hFound, rfl, rfl⟩ := hName
  obtain ⟨item, hItem, rfl, rfl⟩ := h
  obtain ⟨mark, hMark, hSign, rfl⟩ := next_of_skipBlanks hComma
  obtain ⟨found, hRest, rfl, rfl⟩ := hOthers
  refine ⟨(found.map ((name.value, item.value) :: ·)).within
    (Nat.le_of_lt (Nat.lt_trans mark.shorter (Nat.lt_trans item.shorter name.shorter))), ?_,
    rfl, rfl⟩
  rw [fieldList, hFound]
  simp only [hItem, hMark, hSign, hRest, Except.map]
  rfl

end

/-! ## Fields -/

theorem put_of_notMem {key : Text} {v : Json} {fields : List (Text × Json)}
    (h : key ∉ fields.map Prod.fst) : put key v fields = fields ++ [(key, v)] := by
  induction fields with
  | nil => rfl
  | cons field fields ih =>
    rw [List.map_cons, List.mem_cons, not_or] at h
    rw [put, if_neg (Ne.symm h.1), ih h.2]
    rfl

/-- Fields that are named once stay as they are. -/
theorem distinct_eq {fields : List (Text × Json)} (h : (fields.map Prod.fst).Nodup) :
    distinct fields = fields := by
  have hFold : ∀ kept : List (Text × Json), ((kept ++ fields).map Prod.fst).Nodup →
      fields.foldl (fun kept field => put field.1 field.2 kept) kept = kept ++ fields := by
    clear h
    induction fields with
    | nil => intro kept _; rw [List.append_nil]; rfl
    | cons field fields ih =>
      intro kept h
      obtain ⟨key, v⟩ := field
      have hNew : key ∉ kept.map Prod.fst := by
        rw [List.map_append, List.nodup_append] at h
        exact fun hMem => h.2.2 _ hMem _ List.mem_cons_self rfl
      simp only [List.foldl_cons, put_of_notMem hNew]
      rw [ih _ (by simpa using h), List.append_assoc]
      rfl
  exact hFold [] h

/-! ## Values -/

/-- A value that is read back from its written form. -/
inductive Stable : Json → Prop
  | null : Stable .null
  | bool (b : Bool) : Stable (.bool b)
  | int {n : Nat} : n < 10 ^ integerDigits → Stable (.int n)
  | float {bits : Nat} : bits ≤ infinityBits → Stable (.float (Float.ofBits bits.toUInt64))
  | string (s : String) : Stable (.string s)
  | list {items : List Json} : (∀ v ∈ items, Stable v) → Stable (.list items)
  | object {fields : List (Text × Json)} : (fields.map Prod.fst).Nodup →
      (∀ field ∈ fields, ∃ name : String, field.1 = name) → (∀ field ∈ fields, Stable field.2) →
      Stable (.object fields)

theorem skipBlanks_append {blanks cs : List Char} (h : ∀ c ∈ blanks, isBlank c) :
    skipBlanks (blanks ++ cs) = skipBlanks cs :=
  List.dropWhile_append_of_pos h

theorem skipBlanks_cons {c : Char} (h : isBlank c = false) (cs : List Char) :
    skipBlanks (c :: cs) = c :: cs := by
  rw [skipBlanks, List.dropWhile_cons_of_neg (by rw [h]; decide)]

theorem isBlank_newline (depth : Nat) : ∀ c ∈ newline depth, isBlank c := by
  intro c h
  rcases List.mem_cons.mp h with rfl | h
  · rfl
  · rw [List.eq_of_mem_replicate h]
    rfl

/-- A written text goes on with its characters behind the opening quote. -/
theorem skipBlanks_writtenText {blanks : List Char} (h : ∀ c ∈ blanks, isBlank c) (s : String)
    (rest : List Char) : skipBlanks (blanks ++ (writtenText s ++ rest)) =
      '"' :: (s.toList.flatMap writtenChar ++ '"' :: rest) := by
  rw [skipBlanks_append h, writtenText_whole, List.cons_append, List.cons_append,
    skipBlanks_cons (by decide), List.append_assoc, List.singleton_append]

theorem closed_newline (depth : Nat) (rest : List Char) : Closed (newline depth ++ rest) := by
  rintro _ ⟨⟩
  exact .inr rfl

theorem closed_comma (rest : List Char) : Closed (',' :: rest) := by
  rintro _ ⟨⟩
  exact .inl rfl

/-- A text that goes on with neither a blank nor a closing bracket. -/
def Opens (cs : List Char) : Prop :=
  ∃ c tail, cs = c :: tail ∧ isBlank c = false ∧ c ≠ ']'

/-- The head of a word or a number opens a value, and no text, list or
object. -/
theorem opens_scalar {c : Char} (h : c.isDigit ∨ c ∈ wordHeads) :
    isBlank c = false ∧ c ≠ ']' ∧ c ≠ '\x7b' ∧ c ≠ '[' ∧ c ≠ '"' := by
  have hHeads : ∀ c ∈ wordHeads,
      isBlank c = false ∧ c ≠ ']' ∧ c ≠ '\x7b' ∧ c ≠ '[' ∧ c ≠ '"' := by simp [wordHeads, isBlank]
  have hOthers : ∀ c ∈ [' ', '\t', '\n', '\r', ']', '\x7b', '[', '"'], c.isDigit = false := by
    simp
  rcases h with h | h
  · have hne : ∀ w ∈ [' ', '\t', '\n', '\r', ']', '\x7b', '[', '"'], c ≠ w := by
      rintro w hw rfl
      rw [hOthers c hw] at h
      cases h
    simp only [List.forall_mem_cons] at hne
    obtain ⟨hSpace, hTab, hLine, hReturn, hClose, hBrace, hBracket, hQuote, -⟩ := hne
    exact ⟨by simp [isBlank, hSpace, hTab, hLine, hReturn], hClose, hBrace, hBracket, hQuote⟩
  · exact hHeads c h

theorem value_of_scalar {blanks cs rest : List Char} {v : Json} (hBlanks : ∀ c ∈ blanks, isBlank c)
    (h : Gives scalar cs v rest) : Gives value (blanks ++ cs) v rest := by
  obtain ⟨c, tail, rfl, hc⟩ := scalar_head h
  obtain ⟨hBlank, -, hOpen⟩ := opens_scalar hc
  apply value_scalar _ hOpen h
  rw [skipBlanks_append hBlanks, skipBlanks_cons hBlank]

/-- A value is read back from its written form, at any depth and with
blanks before it. -/
def ReadsBack (v : Json) : Prop :=
  ∀ (depth : Nat) (blanks rest : List Char), (∀ c ∈ blanks, isBlank c) → Closed rest →
    Gives value (blanks ++ (write depth v ++ rest)) v rest

theorem readsBack_of_scalar {v : Json} (text : List Char) (hText : ∀ depth, write depth v = text)
    (h : ∀ rest, Closed rest → Gives scalar (text ++ rest) v rest) : ReadsBack v := by
  intro depth blanks rest hBlanks hRest
  rw [hText]
  exact value_of_scalar hBlanks (h rest hRest)

/-- What is written for a value opens a value. -/
theorem opens_write (depth : Nat) {v : Json} (h : Stable v) : Opens (write depth v) := by
  have hScalar : ∀ {text : List Char} {v : Json}, Gives scalar (text ++ []) v [] → Opens text := by
    intro text v hRead
    obtain ⟨c, tail, hText, hc⟩ := scalar_head hRead
    rw [List.append_nil] at hText
    exact ⟨c, tail, hText, (opens_scalar hc).1, (opens_scalar hc).2.1⟩
  cases h with
  | null => exact ⟨'n', _, rfl, rfl, by decide⟩
  | bool b =>
    cases b with
    | true => exact ⟨'t', _, rfl, rfl, by decide⟩
    | false => exact ⟨'f', _, rfl, rfl, by decide⟩
  | int hn =>
    rw [write]
    exact hScalar (scalar_int hn closed_nil)
  | float hBits =>
    rw [write]
    exact hScalar (scalar_write hBits closed_nil)
  | string s => exact ⟨'"', _, by rw [write, writtenText]; rfl, rfl, by decide⟩
  | @list items _ =>
    cases items with
    | nil => exact ⟨'[', _, by rw [write], rfl, by decide⟩
    | cons item items => exact ⟨'[', _, by rw [write]; rfl, rfl, by decide⟩
  | @object fields _ _ _ =>
    cases fields with
    | nil => exact ⟨'\x7b', _, by rw [write], rfl, by decide⟩
    | cons field fields => exact ⟨'\x7b', _, by rw [write]; rfl, rfl, by decide⟩

theorem skipBlanks_newline (depth : Nat) (cs : List Char) :
    skipBlanks (newline depth ++ cs) = skipBlanks cs :=
  skipBlanks_append (isBlank_newline depth)

/-- Items are read back one after the other, up to the closing bracket. -/
theorem itemList_write (depth outer : Nat) (rest : List Char) (items : List Json) :
    ∀ {item : Json}, ReadsBack item → (∀ v ∈ items, ReadsBack v) →
      Gives itemList (newline depth ++ (write depth item ++ (writeItems depth items ++
        (newline outer ++ ']' :: rest)))) (item :: items) rest := by
  induction items with
  | nil =>
    intro item hItem _
    apply itemList_last (hItem depth _ _ (isBlank_newline depth) (closed_newline outer _))
    rw [skipBlanks_newline, skipBlanks_cons (by decide)]
  | cons next items ih =>
    intro item hItem hItems
    obtain ⟨hNext, hOthers⟩ := List.forall_mem_cons.mp hItems
    have hRead := ih hNext hOthers
    simp only [writeItems, List.append_assoc, List.cons_append]
    apply itemList_more (hItem depth _ _ (isBlank_newline depth) (closed_comma _)) _ hRead
    rw [skipBlanks_cons (by decide)]

/-- A name is read back, with the colon behind it. -/
theorem fieldName_write (depth : Nat) (key : String) (rest : List Char) :
    Finds fieldName (newline depth ++ (writtenText key ++ ':' :: rest)) key rest := by
  have hText := textBody_append key.toList (':' :: rest)
  have hColon : skipBlanks (':' :: rest) = ':' :: rest := skipBlanks_cons (by decide) rest
  have hRead := fieldName_gives
    (skipBlanks_writtenText (isBlank_newline depth) key (':' :: rest)) hText hColon
  rwa [Text.ofPoints_map_char, String.ofList_toList] at hRead

/-- Fields are read back one after the other, up to the closing brace. -/
theorem fieldList_write (depth outer : Nat) (rest : List Char) (fields : List (Text × Json)) :
    ∀ {key : String} {v : Json}, ReadsBack v →
      (∀ field ∈ fields, ∃ name : String, field.1 = name) →
      (∀ field ∈ fields, ReadsBack field.2) → Gives fieldList (newline depth ++ (writtenText key ++ ':' :: ' ' :: (write depth v ++
        (writeFields depth fields ++ (newline outer ++ '\x7d' :: rest)))))
        ((.whole key, v) :: fields) rest := by
  have hBlank : ∀ c ∈ [' '], isBlank c := by simp [isBlank]
  induction fields with
  | nil =>
    intro key v hv _ _
    apply fieldList_last (fieldName_write depth key _)
      (hv depth [' '] _ hBlank (closed_newline outer _))
    rw [skipBlanks_newline, skipBlanks_cons (by decide)]
  | cons next fields ih =>
    intro key v hv hNames hFields
    obtain ⟨_, w⟩ := next
    obtain ⟨⟨next, rfl⟩, hWhole⟩ := List.forall_mem_cons.mp hNames
    obtain ⟨hNext, hOthers⟩ := List.forall_mem_cons.mp hFields
    have hRead := @ih next w hNext hWhole hOthers
    simp only [writeFields, List.append_assoc, List.cons_append]
    apply fieldList_more (fieldName_write depth key _)
      (hv depth [' '] _ hBlank (closed_comma _)) _ hRead
    rw [skipBlanks_cons (by decide)]

/-- A stable value is read back from its written form. -/
theorem Stable.readsBack {v : Json} (h : Stable v) : ReadsBack v := by
  induction h with
  | null => exact readsBack_of_scalar "null".toList (fun _ => rfl) fun _ _ => ⟨_, rfl, rfl, rfl⟩
  | bool b =>
    cases b with
    | true => exact readsBack_of_scalar "true".toList (fun _ => rfl) fun _ _ => ⟨_, rfl, rfl, rfl⟩
    | false =>
      exact readsBack_of_scalar "false".toList (fun _ => rfl) fun _ _ => ⟨_, rfl, rfl, rfl⟩
  | int hn => exact readsBack_of_scalar _ (fun _ => by rw [write]) fun _ => scalar_int hn
  | float hBits => exact readsBack_of_scalar _ (fun _ => by rw [write]) fun _ => scalar_write hBits
  | string s =>
    intro depth blanks rest hBlanks _
    have hRead := value_text (skipBlanks_writtenText hBlanks s rest) (textBody_append s.toList rest)
    rw [Text.ofPoints_map_char, String.ofList_toList] at hRead
    rwa [write]
  | @list items hItems ih =>
    intro depth blanks rest hBlanks _
    cases items with
    | nil =>
      apply value_list_nil
      rw [skipBlanks_append hBlanks, write]
      exact skipBlanks_cons (by decide) _
    | cons item items =>
      obtain ⟨hItem, hOthers⟩ := List.forall_mem_cons.mp ih
      have hRead := itemList_write (depth + 1) depth rest items hItem hOthers
      obtain ⟨c, tail, hHead, hc, hClose⟩ :=
        opens_write (depth + 1) (hItems item List.mem_cons_self)
      simp only [write, List.append_assoc, List.cons_append, List.nil_append]
      have hTail : ∀ more, skipBlanks (newline (depth + 1) ++ (write (depth + 1) item ++ more)) =
          c :: (tail ++ more) := by
        intro more
        rw [skipBlanks_newline, hHead, List.cons_append, skipBlanks_cons hc]
      apply value_list _ (hTail _) hClose hRead
      rw [skipBlanks_append hBlanks, skipBlanks_cons (by decide)]
  | @object fields hNodup hNames _ ih =>
    intro depth blanks rest hBlanks _
    cases fields with
    | nil =>
      apply value_object_nil
      rw [skipBlanks_append hBlanks, write]
      exact skipBlanks_cons (by decide) _
    | cons field fields =>
      obtain ⟨_, v⟩ := field
      obtain ⟨⟨key, rfl⟩, hWhole⟩ := List.forall_mem_cons.mp hNames
      obtain ⟨hv, hOthers⟩ := List.forall_mem_cons.mp ih
      have hRead := @fieldList_write (depth + 1) depth rest fields key v hv hWhole hOthers
      simp only [write, List.append_assoc, List.cons_append, List.nil_append]
      rw [← distinct_eq hNodup]
      have hTail := skipBlanks_writtenText (isBlank_newline (depth + 1)) key
      apply value_object _ (hTail _) (by decide : '"' ≠ '\x7d') hRead
      rw [skipBlanks_append hBlanks, skipBlanks_cons (by decide)]

/-- What is rendered of a stable value is the text of that value. -/
theorem parse_render {v : Json} (h : Stable v) : parse v.render = .ok v := by
  have hRead := h.readsBack 0 [] [] nofun closed_nil
  rw [List.nil_append, List.append_nil, ← @String.toList_ofList (v.write 0)] at hRead
  obtain ⟨found, hFound, hValue, hRest⟩ := hRead
  rw [parse, render, hFound]
  simp only [hRest, hValue]
  rfl

/-! ## Line ends -/

theorem unifyChars_eq {cs : List Char} (h : '\r' ∉ cs) : unifyChars cs = cs := by
  induction cs with
  | nil => rfl
  | cons c cs ih =>
    rw [List.mem_cons, not_or] at h
    rw [unifyChars, ih h.2]
    · exact fun _ hc _ => h.1 hc.symm
    · exact fun hc => h.1 hc.symm

theorem return_notMem_hexDigits (width n : Nat) : '\r' ∉ hexDigits width n := by
  have hDigit : ∀ k < 16, '\r' ≠ Nat.digitChar k := by decide
  induction width generalizing n with
  | zero => exact List.not_mem_nil
  | succ width ih =>
    rw [hexDigits, List.mem_append, not_or, List.mem_singleton]
    exact ⟨ih (n / 16), hDigit _ (Nat.mod_lt n (by decide))⟩

theorem return_notMem_writtenChar (c : Char) : '\r' ∉ writtenChar c := by
  have hSpells := spells_writtenChar c
  generalize writtenChar c = text at hSpells ⊢
  intro hMem
  cases hSpells with
  | @letter e he _ =>
    have hLetter : e ≠ '\r' := by
      intro hReturn
      rw [hReturn] at he
      cases he
    simp [hLetter.symm] at hMem
  | number => simp [return_notMem_hexDigits] at hMem
  | visible hVisible =>
    rw [← List.mem_singleton.mp hMem] at hVisible
    exact absurd hVisible (by decide)

theorem return_notMem_writtenPoint (p : Point) : '\r' ∉ writtenPoint p := by
  cases p with
  | char c => exact return_notMem_writtenChar c
  | half h => simp [writtenPoint, Point.namedHalf, return_notMem_hexDigits]

theorem return_notMem_writtenText (s : Text) : '\r' ∉ writtenText s := by
  simp [writtenText, return_notMem_writtenPoint]

theorem return_notMem_newline (depth : Nat) : '\r' ∉ newline depth := by
  simp [newline]

theorem return_notMem_digitsOfNat (n : Nat) : '\r' ∉ digitsOfNat n := by
  intro hMem
  cases isDigit_of_mem_digitsOfNat hMem

theorem return_notMem_layout (width : Nat) (d : Decimal) : '\r' ∉ d.layout width := by
  have hDigits := return_notMem_digitsOfNat d.digits
  have hTake : ∀ k, '\r' ∉ (digitsOfNat d.digits).take k := fun k hMem =>
    hDigits (List.mem_of_mem_take hMem)
  have hDrop : ∀ k, '\r' ∉ (digitsOfNat d.digits).drop k := fun k hMem =>
    hDigits (List.mem_of_mem_drop hMem)
  simp only [Decimal.layout]
  split
  · simp only [Decimal.positional]
    split
    · simp [hDigits]
    · split
      · simp [hTake, hDrop]
      · simp [hDigits]
  · simp only [Decimal.scientific]
    have hTail : '\r' ∉ (digitsOfNat d.digits).tail :=
      fun hMem => hDigits (List.mem_of_mem_tail hMem)
    split <;> split <;> simp [hTake, hTail, return_notMem_digitsOfNat]

theorem return_notMem_numeral (x : Float) : '\r' ∉ NumeralStyle.json.write x := by
  have hInfinity : '\r' ∉ NumeralStyle.json.infinity := by decide
  have hNotANumber : '\r' ∉ NumeralStyle.json.notANumber := by decide
  have hSign : ∀ negative : Bool, '\r' ∉ if negative then ['-'] else [] := by decide
  have hSigned : ∀ {negative : Bool} {text : List Char}, '\r' ∉ text →
      '\r' ∉ (if negative then ['-'] else []) ++ text :=
    fun hText => List.mem_append.not.mpr (not_or.mpr ⟨hSign _, hText⟩)
  have hLayout : ∀ (negative : Bool) d, '\r' ∉ (if negative then ['-'] else []) ++
      Decimal.layout NumeralStyle.json.exponentWidth d :=
    fun negative d => hSigned (return_notMem_layout _ d)
  simp only [NumeralStyle.write, NumeralStyle.writeFinite]
  split
  · exact hNotANumber
  split
  · exact hSigned hInfinity
  split
  next n _ =>
    split
    next hBelow => exact absurd hBelow (Nat.not_lt_zero n)
    split
    · exact hLayout _ _
    · exact hLayout _ _
  · exact hLayout _ _

theorem return_notMem_integer (n : Int) : '\r' ∉ (toString n).toList := by
  cases n with
  | ofNat n =>
    have hDigits := return_notMem_digitsOfNat n
    rwa [digitsOfNat, ← Nat.toList_repr] at hDigits
  | negSucc n =>
    have hDigits := return_notMem_digitsOfNat (n + 1)
    rw [digitsOfNat, ← Nat.toList_repr] at hDigits
    simpa [Int.repr] using hDigits

mutual

theorem return_notMem_write (depth : Nat) : (v : Json) → '\r' ∉ write depth v
  | .null => by rw [write]; decide
  | .bool true => by rw [write]; decide
  | .bool false => by rw [write]; decide
  | .int n => by rw [write]; exact return_notMem_integer n
  | .long n => by rw [write]; exact return_notMem_integer n.value
  | .float x => by rw [write]; exact return_notMem_numeral x
  | .string s => by rw [write]; exact return_notMem_writtenText s
  | .list [] => by rw [write]; decide
  | .list (item :: items) => by
    simp [write, return_notMem_newline, return_notMem_write (depth + 1) item,
      return_notMem_writeItems (depth + 1) items]
  | .object [] => by rw [write]; decide
  | .object ((key, v) :: fields) => by
    simp [write, return_notMem_newline, return_notMem_writtenText,
      return_notMem_write (depth + 1) v, return_notMem_writeFields (depth + 1) fields]

theorem return_notMem_writeItems (depth : Nat) : (items : List Json) → '\r' ∉ writeItems depth items
  | [] => by rw [writeItems]; exact List.not_mem_nil
  | item :: items => by
    simp [writeItems, return_notMem_newline, return_notMem_write depth item,
      return_notMem_writeItems depth items]

theorem return_notMem_writeFields (depth : Nat) :
    (fields : List (Text × Json)) → '\r' ∉ writeFields depth fields
  | [] => by rw [writeFields]; exact List.not_mem_nil
  | (key, v) :: fields => by
    simp [writeFields, return_notMem_newline, return_notMem_writtenText,
      return_notMem_write depth v, return_notMem_writeFields depth fields]

end

/-- No line end of a rendered value is changed by reading the file. -/
theorem unifyNewlines_render (v : Json) : unifyNewlines v.render = v.render := by
  rw [unifyNewlines, render, String.toList_ofList, unifyChars_eq (return_notMem_write 0 v)]

end Treewalk.Json
