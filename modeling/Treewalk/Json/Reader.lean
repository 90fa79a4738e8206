import Treewalk.Json

/-!
# Reading JSON text

Reading goes value by value; each reader answers what it read and what is
left, and what is left is shorter, which is the whole termination
argument. The grammar is JSON's with three extra words (`NaN`,
`Infinity`, `-Infinity`); a raw control character inside a text, a comma
before a closing bracket, a leading zero, a mark of byte order and
anything behind the value are refused. So is an integer of too many
digits, and that is a refusal of its own. The first refusal from the left
is the one that is reported.
-/

namespace Treewalk.Json

/-- Why a text is not read. -/
inductive ReadError where
  /-- It does not follow the grammar. -/
  | malformed
  /-- An integer has too many digits. -/
  | longInteger
deriving DecidableEq, Repr

/-- Something read off the front of `cs`, and what is left of it. -/
structure Read (cs : List Char) (α : Type) where
  value : α
  rest : List Char
  shorter : rest.length < cs.length

/-- The same reading, seen from a longer text with the same end. -/
def Read.within {cs ds : List Char} {α : Type} (r : Read cs α)
    (h : cs.length ≤ ds.length) : Read ds α :=
  ⟨r.value, r.rest, Nat.lt_of_lt_of_le r.shorter h⟩

/-- The same reading with another value. -/
def Read.map {cs : List Char} {α β : Type} (r : Read cs α) (f : α → β) : Read cs β :=
  ⟨f r.value, r.rest, r.shorter⟩

/-! ## Blanks and words -/

/-- The characters that may stand between the parts of a value. -/
def isBlank (c : Char) : Bool :=
  c = ' ' || c = '\t' || c = '\n' || c = '\r'

/-- The text after its leading blanks. -/
def skipBlanks (cs : List Char) : List Char :=
  cs.dropWhile isBlank

theorem length_dropWhile_le {α : Type} (p : α → Bool) (l : List α) :
    (l.dropWhile p).length ≤ l.length :=
  (List.dropWhile_suffix p).length_le

theorem skipBlanks_length_le (cs : List Char) : (skipBlanks cs).length ≤ cs.length :=
  length_dropWhile_le isBlank cs

/-- What stands behind a word, if the text starts with it. -/
def after? : List Char → List Char → Option (List Char)
  | [], cs => some cs
  | w :: word, c :: cs => if w = c then after? word cs else none
  | _ :: _, [] => none

theorem after?_length_le {word cs rest : List Char} (h : after? word cs = some rest) :
    rest.length ≤ cs.length := by
  induction word generalizing cs with
  | nil => simp only [after?, Option.some.injEq] at h; exact h ▸ Nat.le_refl _
  | cons w word ih =>
    cases cs with
    | nil => simp [after?] at h
    | cons c cs =>
      simp only [after?] at h
      split at h
      · exact Nat.le_succ_of_le (ih h)
      · simp at h

/-- The words that are values, each with its first letter apart. -/
def words : List (Char × List Char × Json) :=
  [('n', "ull".toList, .null), ('t', "rue".toList, .bool true), ('f', "alse".toList, .bool false),
    ('N', "aN".toList, .float (Float.ofBits 0x7ff8000000000000)),
    ('I', "nfinity".toList, .float (Float.ofBits infinityBits.toUInt64)),
    ('-', "Infinity".toList, .float (-Float.ofBits infinityBits.toUInt64))]

/-- A word at the front of a text. -/
def wordAt? (w : Char) (word : List Char) (v : Json) : (cs : List Char) → Option (Read cs Json)
  | [] => none
  | c :: cs =>
    if c = w then
      match h : after? word cs with
      | none => none
      | some rest => some ⟨v, rest, Nat.lt_succ_of_le (after?_length_le h)⟩
    else none

/-- The value of the word a text starts with. -/
def word? (cs : List Char) : Option (Read cs Json) :=
  words.findSome? fun (w, word, v) => wordAt? w word v cs

/-! ## Numbers -/

/-- The digits before the point: one zero, or a run that starts with
another digit. -/
def wholePart : (cs : List Char) → Option (Read cs (List Char))
  | [] => none
  | c :: cs =>
    if c = '0' then some ⟨['0'], cs, Nat.lt_succ_self _⟩
    else if c.isDigit then
      some ⟨c :: cs.takeWhile Char.isDigit, cs.dropWhile Char.isDigit,
        Nat.lt_succ_of_le (length_dropWhile_le _ cs)⟩
    else none

/-- A point and the digits behind it; without a digit there is no
fraction, and the point is left where it stands. -/
def fractionPart : List Char → List Char × List Char
  | '.' :: d :: cs =>
    if d.isDigit then (d :: cs.takeWhile Char.isDigit, cs.dropWhile Char.isDigit)
    else ([], '.' :: d :: cs)
  | cs => ([], cs)

theorem fractionPart_length_le (cs : List Char) : (fractionPart cs).2.length ≤ cs.length := by
  unfold fractionPart
  split
  · next d cs =>
    split
    · exact Nat.le_succ_of_le (Nat.le_succ_of_le (length_dropWhile_le _ cs))
    · exact Nat.le_refl _
  · exact Nat.le_refl _

/-- The sign of a written exponent. -/
def exponentSign : List Char → Bool × List Char
  | '-' :: cs => (true, cs)
  | '+' :: cs => (false, cs)
  | cs => (false, cs)

theorem exponentSign_length_le (cs : List Char) : (exponentSign cs).2.length ≤ cs.length := by
  unfold exponentSign
  split <;> simp

/-- A written exponent, if there is one with digits. -/
def exponentPart : List Char → Option Int × List Char
  | [] => (none, [])
  | c :: cs =>
    if c = 'e' ∨ c = 'E' then
      let sign := exponentSign cs
      let run := sign.2.takeWhile Char.isDigit
      if run.isEmpty then (none, c :: cs)
      else
        let n : Int := natOfDigits run
        (some (if sign.1 then -n else n), sign.2.dropWhile Char.isDigit)
    else (none, c :: cs)

theorem exponentPart_length_le (cs : List Char) : (exponentPart cs).2.length ≤ cs.length := by
  cases cs with
  | nil => exact Nat.le_refl _
  | cons c cs =>
    simp only [exponentPart]
    split
    · split
      · exact Nat.le_refl _
      · exact Nat.le_succ_of_le
          (Nat.le_trans (length_dropWhile_le _ _) (exponentSign_length_le cs))
    · exact Nat.le_refl _

/-- The integer a run of digits spells, if it is not too long. -/
def integer (negative : Bool) (digits : List Char) : Except ReadError Json :=
  if integerDigits < digits.length then .error .longInteger
  else
    let n : Int := natOfDigits digits
    .ok (.int (if negative then -n else n))

/-- The number that digits before and behind a point and an exponent
spell. -/
def fractional (negative : Bool) (whole fraction : List Char) (exponent : Int) : Json :=
  let d := Decimal.ofPoint whole fraction
  let x := Decimal.toFloat ⟨d.digits, d.exponent + exponent⟩
  .float (if negative then -x else x)

/-- A number without its sign: an integer unless a fraction or an exponent
is written. -/
def unsigned (negative : Bool) (cs : List Char) : Except ReadError (Read cs Json) :=
  match wholePart cs with
  | none => .error .malformed
  | some whole =>
    let fraction := fractionPart whole.rest
    let exponent := exponentPart fraction.2
    let v : Except ReadError Json :=
      if fraction.1.isEmpty && exponent.1.isNone then integer negative whole.value
      else .ok (fractional negative whole.value fraction.1 (exponent.1.getD 0))
    v.map fun v => ⟨v, exponent.2, Nat.lt_of_le_of_lt
      (Nat.le_trans (exponentPart_length_le _) (fractionPart_length_le _)) whole.shorter⟩

/-- A number. -/
def number : (cs : List Char) → Except ReadError (Read cs Json)
  | '-' :: cs => (unsigned true cs).map fun found => found.within (Nat.le_succ _)
  | cs => unsigned false cs

/-- A word or a number. -/
def scalar (cs : List Char) : Except ReadError (Read cs Json) :=
  match word? cs with
  | some found => .ok found
  | none => number cs

/-! ## Texts -/

/-- The value of a hexadecimal digit. -/
def hexDigit? (c : Char) : Option Nat :=
  if '0' ≤ c ∧ c ≤ '9' then some (c.toNat - '0'.toNat)
  else if 'a' ≤ c ∧ c ≤ 'f' then some (c.toNat - 'a'.toNat + 10)
  else if 'A' ≤ c ∧ c ≤ 'F' then some (c.toNat - 'A'.toNat + 10)
  else none

/-- Four hexadecimal digits. -/
def hexQuad? : (cs : List Char) → Option (Read cs Nat)
  | a :: b :: c :: d :: rest =>
    match hexDigit? a, hexDigit? b, hexDigit? c, hexDigit? d with
    | some a, some b, some c, some d =>
      some ⟨((a * 16 + b) * 16 + c) * 16 + d, rest, by simp only [List.length_cons]; omega⟩
    | _, _, _, _ => none
  | _ => none

/-- The character two halves of a pair stand for. -/
def paired (high low : Nat) : Char :=
  Char.ofNat (0x10000 + (high - 0xd800) * 0x400 + (low - 0xdc00))

/-- The second half of a pair behind its first. -/
def lowHalf? (high : Nat) : (cs : List Char) → Option (Read cs Char)
  | '\\' :: 'u' :: cs =>
    (hexQuad? cs).bind fun low =>
      if 0xdc00 ≤ low.value ∧ low.value < 0xe000 then
        some ((low.map (paired high)).within (Nat.le_succ_of_le (Nat.le_succ _)))
      else none
  | _ => none

/-- What a number stands for. A first half of a pair takes the second half
with it, if that follows; any other half stands alone. -/
def named? (cs : List Char) : Option (Read cs Point) :=
  (hexQuad? cs).map fun found =>
    if 0xd800 ≤ found.value ∧ found.value < 0xdc00 then
      match lowHalf? found.value found.rest with
      | some c => (c.map Point.char).within (Nat.le_of_lt found.shorter)
      | none => found.map Point.ofCode
    else found.map Point.ofCode

/-- The characters with an escape of one letter. -/
def escaped? (c : Char) : Option Char :=
  if c = '"' ∨ c = '\\' ∨ c = '/' then some c
  else if c = 'b' then some (Char.ofNat 0x08)
  else if c = 'f' then some (Char.ofNat 0x0c)
  else if c = 'n' then some '\n'
  else if c = 'r' then some '\r'
  else if c = 't' then some '\t'
  else none

/-- What a backslash and the characters behind it stand for. -/
def escape? : (cs : List Char) → Option (Read cs Point)
  | [] => none
  | c :: cs =>
    if c = 'u' then (named? cs).map fun found => found.within (Nat.le_succ _)
    else (escaped? c).map fun d => ⟨.char d, cs, Nat.lt_succ_self _⟩

/-- One place of a text. -/
def textPoint? : (cs : List Char) → Option (Read cs Point)
  | [] => none
  | c :: cs =>
    if c = '\\' then (escape? cs).map fun found => found.within (Nat.le_succ _)
    else if c.toNat < 0x20 then none
    else some ⟨.char c, cs, Nat.lt_succ_self _⟩

/-- A text up to its closing quote. -/
def textBody (cs : List Char) : Option (Read cs (List Point)) :=
  match cs with
  | [] => none
  | c :: cs =>
    if c = '"' then some ⟨[], cs, Nat.lt_succ_self _⟩
    else
      match textPoint? (c :: cs) with
      | none => none
      | some d =>
        match textBody d.rest with
        | none => none
        | some found => some ((found.map (d.value :: ·)).within (Nat.le_of_lt d.shorter))
termination_by cs.length
decreasing_by exact d.shorter

/-! ## Values -/

/-- The next character that is not a blank, and what stands behind it. -/
def next? (cs : List Char) : Option (Read cs Char) :=
  match h : skipBlanks cs with
  | [] => none
  | c :: rest =>
    some ⟨c, rest, by
      have hl := skipBlanks_length_le cs
      rw [h] at hl
      exact hl⟩

/-- The name of a field and the colon behind it. -/
def fieldName (cs : List Char) : Option (Read cs Text) :=
  (next? cs).bind fun quote =>
    if quote.value = '"' then
      (textBody quote.rest).bind fun name =>
      (next? name.rest).bind fun colon =>
        if colon.value = ':' then
          some ⟨.ofPoints name.value, colon.rest,
            Nat.lt_trans colon.shorter (Nat.lt_trans name.shorter quote.shorter)⟩
        else none
    else none

mutual

/-- One value, blanks before it allowed. -/
def value (cs : List Char) : Except ReadError (Read cs Json) :=
  match next? cs with
  | none => .error .malformed
  | some first =>
    if first.value = '\x7b' then
      match next? first.rest with
      | none => .error .malformed
      | some second =>
        if second.value = '\x7d' then
          .ok ⟨.object [], second.rest, Nat.lt_trans second.shorter first.shorter⟩
        else
          (fieldList first.rest).map fun found =>
            (found.map fun fields => Json.object (distinct fields)).within
              (Nat.le_of_lt first.shorter)
    else if first.value = '[' then
      match next? first.rest with
      | none => .error .malformed
      | some second =>
        if second.value = ']' then
          .ok ⟨.list [], second.rest, Nat.lt_trans second.shorter first.shorter⟩
        else
          (itemList first.rest).map fun found =>
            (found.map Json.list).within (Nat.le_of_lt first.shorter)
    else if first.value = '"' then
      match textBody first.rest with
      | none => .error .malformed
      | some found =>
        .ok ((found.map fun points => Json.string (.ofPoints points)).within
          (Nat.le_of_lt first.shorter))
    else (scalar (skipBlanks cs)).map fun found => found.within (skipBlanks_length_le cs)
termination_by 2 * cs.length
decreasing_by
  all_goals
    have := first.shorter
    omega

/-- The items of a list and its closing bracket. -/
def itemList (cs : List Char) : Except ReadError (Read cs (List Json)) :=
  match value cs with
  | .error why => .error why
  | .ok item =>
    match next? item.rest with
    | none => .error .malformed
    | some mark =>
      if mark.value = ']' then
        .ok ⟨[item.value], mark.rest, Nat.lt_trans mark.shorter item.shorter⟩
      else if mark.value = ',' then
        (itemList mark.rest).map fun found =>
          (found.map (item.value :: ·)).within
            (Nat.le_of_lt (Nat.lt_trans mark.shorter item.shorter))
      else .error .malformed
termination_by 2 * cs.length + 1
decreasing_by
  · omega
  · have := mark.shorter
    have := item.shorter
    omega

/-- The fields of an object and its closing bracket. -/
def fieldList (cs : List Char) : Except ReadError (Read cs (List (Text × Json))) :=
  match fieldName cs with
  | none => .error .malformed
  | some name =>
    match value name.rest with
    | .error why => .error why
    | .ok item =>
      match next? item.rest with
      | none => .error .malformed
      | some mark =>
        let field := (name.value, item.value)
        if mark.value = '\x7d' then
          .ok ⟨[field], mark.rest,
            Nat.lt_trans mark.shorter (Nat.lt_trans item.shorter name.shorter)⟩
        else if mark.value = ',' then
          (fieldList mark.rest).map fun found =>
            (found.map (field :: ·)).within
              (Nat.le_of_lt (Nat.lt_trans mark.shorter (Nat.lt_trans item.shorter name.shorter)))
        else .error .malformed
termination_by 2 * cs.length + 1
decreasing_by
  · have := name.shorter
    omega
  · have := mark.shorter
    have := item.shorter
    have := name.shorter
    omega

end

/-- The value a text holds, if it holds one and nothing else. -/
def parse (text : String) : Except ReadError Json :=
  match value text.toList with
  | .error why => .error why
  | .ok found => if skipBlanks found.rest = [] then .ok found.value else .error .malformed

end Treewalk.Json
