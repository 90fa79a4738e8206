import Treewalk.Tree.Codec

/-!
# Trees survive their JSON form

A tree is loaded from its own JSON form, whatever its shape: with missing
parts, with lists and tokens in place of forms, with anything among the
statements of a block (`Node.ofJson_toJson`).

Loading accepts more than is written: fields nobody asks for, optional
fields left out, integers for numbers, an empty text for no statements.
Written again, such a value has its normal form (`Node.normalForm`), which
stands for the same tree. The values that are their own normal form are
those that are written (`Node.normalForm_eq_self_iff`).
-/

namespace Treewalk

/-! ## Loading without an error -/

theorem ok_bind {ε α β : Type} (a : α) (next : α → Except ε β) :
    (Except.ok a >>= next) = next a := rfl

theorem ok_pure {ε α : Type} (a : α) : (pure a : Except ε α) = .ok a := rfl

theorem Token.ofJson_toJson (t : Token) : ofJson t.toJson = .ok t := by
  simp [toJson, ofJson, Json.get?, field, literalOfJson, Value.ofJson?_toJson, kindOfJson,
    Kind.ofName?_name, ok_bind, ok_pure]

namespace Node

mutual

/-- A node is loaded from its JSON form. -/
theorem ofJson_toJson : (n : Node) → ofJson n.toJson = .ok n
  | .absent => by rw [toJson, ofJson]
  | .token t => by
    rw [toJson, ofJson]
    simp [Json.get?, Token.field, Token.ofJson_toJson, ok_bind, ok_pure]
  | .list items => by
    rw [toJson, ofJson, ofJsons_toJsons items]
    rfl
  | .binary left operator right => by
    rw [toJson, formJson, ofJson]
    simp [Json.get?, ofJson_toJson left, ofJson_toJson operator, ofJson_toJson right, ok_bind,
      ok_pure]
  | .grouping inner => by
    rw [toJson, formJson, ofJson]
    simp [Json.get?, ofJson_toJson inner, ok_bind, ok_pure]
  | .literal value => by
    rw [toJson, formJson, ofJson]
    simp [Json.get?, Token.literalOfJson, Value.ofJson?_toJson, ok_bind, ok_pure]
  | .unary operator right => by
    rw [toJson, formJson, ofJson]
    simp [Json.get?, ofJson_toJson operator, ofJson_toJson right, ok_bind, ok_pure]
  | .variable name => by
    rw [toJson, formJson, ofJson]
    simp [Json.get?, ofJson_toJson name, ok_bind, ok_pure]
  | .assign name value => by
    rw [toJson, formJson, ofJson]
    simp [Json.get?, ofJson_toJson name, ofJson_toJson value, ok_bind, ok_pure]
  | .logical left operator right => by
    rw [toJson, formJson, ofJson]
    simp [Json.get?, ofJson_toJson left, ofJson_toJson operator, ofJson_toJson right, ok_bind,
      ok_pure]
  | .expression inner => by
    rw [toJson, formJson, ofJson]
    simp [Json.get?, ofJson_toJson inner, ok_bind, ok_pure]
  | .print inner => by
    rw [toJson, formJson, ofJson]
    simp [Json.get?, ofJson_toJson inner, ok_bind, ok_pure]
  | .var name initializer => by
    rw [toJson, formJson, ofJson]
    simp [Json.get?, ofJson_toJson name, ofJson_toJson initializer, ok_bind, ok_pure]
  | .block statements => by
    rw [toJson, formJson, ofJson]
    simp [Json.get?, ofJsons_toJsons statements, ok_bind, ok_pure]
  | .branch condition consequence alternative => by
    rw [toJson, formJson, ofJson]
    simp [Json.get?, ofJson_toJson condition, ofJson_toJson consequence,
      ofJson_toJson alternative, ok_bind, ok_pure]
  | .loop condition body => by
    rw [toJson, formJson, ofJson]
    simp [Json.get?, ofJson_toJson condition, ofJson_toJson body, ok_bind, ok_pure]

theorem ofJsons_toJsons : (nodes : List Node) → ofJsons (toJsons nodes) = .ok nodes
  | [] => by rw [toJsons, ofJsons]
  | node :: rest => by
    rw [toJsons, ofJsons, ofJson_toJson node, ofJsons_toJsons rest]
    rfl

end

/-- A program is loaded from its JSON form. -/
theorem programOfJson_programToJson (program : List Node) :
    programOfJson (programToJson program) = .ok program := by
  rw [programToJson, programOfJson, ofJsons_toJsons]

/-! ## Normal forms -/

/-- A JSON value as it is written once it was loaded. -/
def normalForm (v : Json) : Except LoadError Json :=
  (ofJson v).map toJson

theorem normalForm_eq_ok_iff {v w : Json} :
    normalForm v = .ok w ↔ ∃ n, ofJson v = .ok n ∧ n.toJson = w := by
  rw [normalForm]
  cases ofJson v with
  | error e => simp [Except.map]
  | ok n => simp [Except.map]

/-- The normal form stands for the same tree. -/
theorem ofJson_normalForm {v w : Json} (h : normalForm v = .ok w) : ofJson w = ofJson v := by
  obtain ⟨n, hn, rfl⟩ := normalForm_eq_ok_iff.mp h
  rw [ofJson_toJson, hn]

/-- What is written is what is in normal form. -/
theorem normalForm_eq_self_iff {v : Json} : normalForm v = .ok v ↔ ∃ n : Node, n.toJson = v := by
  constructor
  · intro h
    obtain ⟨n, _, hn⟩ := normalForm_eq_ok_iff.mp h
    exact ⟨n, hn⟩
  · intro ⟨n, hn⟩
    exact normalForm_eq_ok_iff.mpr ⟨n, hn ▸ ofJson_toJson n, hn⟩

/-- Every tree and every program is loaded from its JSON form. So whatever
JSON value is accepted has a normal form, which is accepted, stands for the
same tree and is its own normal form. -/
theorem json_round_trip :
    (∀ n : Node, ofJson n.toJson = .ok n) ∧
    (∀ program : List Node, programOfJson (programToJson program) = .ok program) ∧
    ∀ (v : Json) (n : Node), ofJson v = .ok n →
      ∃ w, normalForm v = .ok w ∧ ofJson w = .ok n ∧ normalForm w = .ok w := by
  refine ⟨ofJson_toJson, programOfJson_programToJson, ?_⟩
  intro v n h
  have hForm : normalForm v = .ok n.toJson := normalForm_eq_ok_iff.mpr ⟨n, h, rfl⟩
  refine ⟨n.toJson, hForm, ?_, normalForm_eq_self_iff.mpr ⟨n, rfl⟩⟩
  rw [ofJson_normalForm hForm, h]

/-- A block with a field nobody asks for, whose one statement has no `else`,
an integer for a condition and an empty text for the statements of its
branch. -/
theorem json_round_trip_lenient :
    let v : Json := .object [("type", .string "Block"), ("extra", .bool true),
      ("statements", .list [.object [("type", .string "If"),
        ("condition", .object [("type", .string "Literal"), ("value", .int 3)]),
        ("then_branch", .object [("type", .string "Block"), ("statements", .string "")])]])]
    let n : Node := .block [.branch (.literal (.number (Value.nearestToInt 3))) (.block []) .absent]
    ofJson v = .ok n ∧ v ≠ n.toJson ∧
      ∃ w, normalForm v = .ok w ∧ ofJson w = .ok n ∧ normalForm w = .ok w := by
  intro v n
  have hNumber : (Value.nearestToInt 3).isInf = false := by decide +kernel
  have hLoaded : ofJson v = .ok n := by
    simp [v, n, ofJson, ofJsons, Json.get?, noStatements, Token.literalOfJson, Value.ofJson?,
      Text.isEmpty, hNumber, ok_bind, ok_pure]
  refine ⟨hLoaded, ?_, json_round_trip.2.2 v n hLoaded⟩
  simp [v, n, toJson, formJson]

end Node

end Treewalk
