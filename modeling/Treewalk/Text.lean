/-!
# Texts

A text is a row of characters, and almost every text is just that. What is
read from a file may also hold half of a surrogate pair that stands alone:
a number that is no character, named by an escape. Such a text can be
bound, compared, joined and shown like any other (`Text.escaped`), but
there are no bytes for it, so it cannot be written to a file.
-/

namespace Treewalk

/-- Half of a surrogate pair, counted from the first of them. -/
structure Half where
  offset : Fin 0x800
deriving DecidableEq, Repr

/-- The number of a half. -/
def Half.code (h : Half) : Nat :=
  0xd800 + h.offset

/-- One place of a text. -/
inductive Point where
  | char (c : Char)
  | half (h : Half)
deriving DecidableEq, Repr

/-- The lowercase hexadecimal digits of a number, in a given width. -/
def hexDigits : (width : Nat) → Nat → List Char
  | 0, _ => []
  | width + 1, n => hexDigits width (n / 16) ++ [Nat.digitChar (n % 16)]

namespace Point

/-- The number of a place. -/
def code : Point → Nat
  | .char c => c.toNat
  | .half h => h.code

/-- What a number below the last character stands for. -/
def ofCode (n : Nat) : Point :=
  if h : 0xd800 ≤ n ∧ n < 0xe000 then .half ⟨⟨n - 0xd800, by omega⟩⟩ else .char (Char.ofNat n)

/-- Whether a place is half of a pair. -/
def isHalf : Point → Bool
  | .half _ => true
  | .char _ => false

/-- The characters among places. -/
def chars : List Point → List Char
  | [] => []
  | .char c :: rest => c :: chars rest
  | .half _ :: rest => chars rest

/-- A half by its number. -/
def namedHalf (h : Half) : List Char :=
  '\\' :: 'u' :: hexDigits 4 h.code

/-- A place where halves are shown by their numbers. -/
def escaped : Point → List Char
  | .char c => [c]
  | .half h => namedHalf h

end Point

/-- A text in which some half stands alone. -/
structure Torn where
  points : List Point
  torn : points.any Point.isHalf = true
deriving DecidableEq, Repr

/-- A text. -/
inductive Text where
  | whole (s : String)
  | torn (t : Torn)
deriving DecidableEq, Repr

namespace Text

instance : Coe String Text := ⟨.whole⟩

/-- The places of a text. -/
def points : Text → List Point
  | .whole s => s.toList.map .char
  | .torn t => t.points

/-- The text of some places. -/
def ofPoints (points : List Point) : Text :=
  if h : points.any Point.isHalf then .torn ⟨points, h⟩
  else .whole (String.ofList (Point.chars points))

/-- Whether a text has no places. -/
def isEmpty : Text → Bool
  | .whole s => s.isEmpty
  | .torn _ => false

/-- One text behind another. A half at the end of the one and a half at the
front of the other stay two halves. -/
def append : Text → Text → Text
  | .whole s, .whole t => .whole (s ++ t)
  | .torn s, t => .torn ⟨s.points ++ t.points, by simp [s.torn]⟩
  | .whole s, .torn t => .torn ⟨(Text.whole s).points ++ t.points, by simp [t.torn]⟩

instance : Append Text := ⟨append⟩

@[simp] theorem whole_append_whole (s t : String) : whole s ++ whole t = whole (s ++ t) := rfl

/-- Texts with another text between each and the next. -/
def intercalate (between : Text) : List Text → Text
  | [] => ""
  | [text] => text
  | text :: rest => text ++ between ++ intercalate between rest

/-- A text with its halves shown by their numbers, as diagnostics are
written. -/
def escaped : Text → String
  | .whole s => s
  | .torn t => String.ofList (t.points.flatMap Point.escaped)

@[simp] theorem escaped_whole (s : String) : escaped (.whole s) = s := rfl

/-- Whether a text is not behind another in the order of their numbers. -/
def le : Text → Text → Bool
  | .whole s, .whole t => decide (s ≤ t)
  | s, t => !List.lex (t.points.map Point.code) (s.points.map Point.code) Nat.blt

theorem any_isHalf_map_char (cs : List Char) : (cs.map Point.char).any Point.isHalf = false := by
  induction cs with
  | nil => rfl
  | cons c rest ih => exact ih

theorem chars_map_char (cs : List Char) : Point.chars (cs.map Point.char) = cs := by
  induction cs with
  | nil => rfl
  | cons c rest ih => exact congrArg (c :: ·) ih

theorem flatMap_escaped_map_char (cs : List Char) :
    (cs.map Point.char).flatMap Point.escaped = cs := by
  induction cs with
  | nil => rfl
  | cons c rest ih => exact congrArg (c :: ·) ih

theorem escaped_eq (s : Text) : s.escaped = String.ofList (s.points.flatMap Point.escaped) := by
  cases s with
  | whole s => rw [points, flatMap_escaped_map_char, String.ofList_toList, escaped]
  | torn t => rfl

theorem points_append (s t : Text) : (s ++ t).points = s.points ++ t.points := by
  cases s with
  | torn s => rfl
  | whole s =>
    cases t with
    | torn t => rfl
    | whole t =>
      rw [whole_append_whole, points, points, points, String.toList_append, List.map_append]

/-- A text is its places. -/
theorem ext_points {s t : Text} (h : s.points = t.points) : s = t := by
  have hWhole : ∀ s : String, ((Text.whole s).points).any Point.isHalf = false :=
    fun s => any_isHalf_map_char s.toList
  cases s with
  | whole s =>
    cases t with
    | whole t =>
      have hChars := congrArg Point.chars h
      rw [points, points, chars_map_char, chars_map_char] at hChars
      rw [String.ext hChars]
    | torn t => exact absurd (t.torn.symm.trans (h ▸ hWhole s)) (by decide)
  | torn s =>
    cases t with
    | whole t => exact absurd (s.torn.symm.trans (h ▸ hWhole t)) (by decide)
    | torn t =>
      obtain ⟨points, torn⟩ := s
      cases h
      rfl

theorem append_assoc (r s t : Text) : r ++ s ++ t = r ++ (s ++ t) := by
  apply ext_points
  rw [points_append, points_append, points_append, points_append, List.append_assoc]

@[simp] theorem empty_append (t : Text) : ("" : Text) ++ t = t := by
  apply ext_points
  rw [points_append]
  rfl

@[simp] theorem append_empty (t : Text) : t ++ ("" : Text) = t := by
  apply ext_points
  rw [points_append]
  exact List.append_nil _

/-- Texts one behind the other. -/
def join : List Text → Text
  | [] => ""
  | text :: rest => text ++ join rest

theorem join_append (texts more : List Text) : join (texts ++ more) = join texts ++ join more := by
  induction texts with
  | nil => exact (empty_append _).symm
  | cons text rest ih => rw [List.cons_append, join, join, ih, append_assoc]

/-- What is shown of two texts is shown of them joined. -/
theorem escaped_append (s t : Text) : (s ++ t).escaped = s.escaped ++ t.escaped := by
  rw [escaped_eq, escaped_eq s, escaped_eq t, points_append, List.flatMap_append,
    String.ofList_append]

/-- Characters make a whole text. -/
theorem ofPoints_map_char (cs : List Char) :
    ofPoints (cs.map .char) = .whole (String.ofList cs) := by
  rw [ofPoints, dif_neg (by rw [any_isHalf_map_char]; exact Bool.false_ne_true), chars_map_char]

end Text

end Treewalk
