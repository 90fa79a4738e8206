import Treewalk.Proofs.Json.RoundTrip
import Treewalk.Proofs.Session.Safety
import Treewalk.Proofs.Tree.Codec

/-!
# Trees survive their file

The trees of a source text are made of texts, short integers and numbers
that are not negative, so their JSON form is stable. What is rendered of
them is therefore read and loaded as the same trees (`load_render`). The
one thing asked of the text is that its lines can be numbered with as many
digits as an integer may have.
-/

namespace Treewalk

open Json

/-! ## Stable trees -/

/-- Tokens and literals whose JSON form is stable. -/
def Contents.stored : Contents where
  token t := t.toJson.Stable
  value v := v.toJson.Stable
  nil := .null
  bool := .bool

theorem Json.Stable.form {name : String} {parts : List (Text × Json)}
    (hNames : (Text.whole "type" :: parts.map Prod.fst).Nodup)
    (hWhole : ∀ part ∈ parts, ∃ key : String, part.1 = key) (h : ∀ part ∈ parts, part.2.Stable) :
    (Node.formJson name parts).Stable :=
  .object hNames (List.forall_mem_cons.mpr ⟨⟨"type", rfl⟩, hWhole⟩)
    (List.forall_mem_cons.mpr ⟨.string name, h⟩)

theorem Contents.Fits.stable {kinds : List Kind} {t : Token}
    (h : Contents.stored.Fits kinds t) : (Node.token t).toJson.Stable := by
  have hToken : t.toJson.Stable := h.2
  rw [Node.toJson]
  exact .object (by simp) (by simp) (by simp [hToken, Stable.string])

theorem Expr.stable : (e : Expr) → e.Sound .stored → e.toNode.toJson.Stable
  | .binary left operator right, ⟨hLeft, hOperator, hRight⟩ => by
    rw [Expr.toNode, Node.toJson]
    exact .form (by simp) (by simp)
      (by simp [left.stable hLeft, hOperator.stable, right.stable hRight])
  | .grouping inner, h => by
    rw [Expr.toNode, Node.toJson]
    exact .form (by simp) (by simp) (by simp [inner.stable h])
  | .literal value, h => by
    have hValue : value.toJson.Stable := h
    rw [Expr.toNode, Node.toJson]
    exact .form (by simp) (by simp) (by simp [hValue])
  | .unary operator right, ⟨hOperator, hRight⟩ => by
    rw [Expr.toNode, Node.toJson]
    exact .form (by simp) (by simp) (by simp [hOperator.stable, right.stable hRight])
  | .variable name, h => by
    rw [Expr.toNode, Node.toJson]
    exact .form (by simp) (by simp) (by simp [h.stable])
  | .assign name value, ⟨hName, hValue⟩ => by
    rw [Expr.toNode, Node.toJson]
    exact .form (by simp) (by simp) (by simp [hName.stable, value.stable hValue])
  | .logical left operator right, ⟨hLeft, hOperator, hRight⟩ => by
    rw [Expr.toNode, Node.toJson]
    exact .form (by simp) (by simp)
      (by simp [left.stable hLeft, hOperator.stable, right.stable hRight])

theorem Expr.stable? : (e? : Option Expr) → Expr.Sound? .stored e? →
    (Expr.toNode? e?).toJson.Stable
  | none, _ => by
    rw [Expr.toNode?, Node.toJson]
    exact .null
  | some e, h => e.stable h

mutual

theorem Stmt.stable : (s : Stmt) → s.Sound .stored → s.toNode.toJson.Stable
  | .expression inner, h => by
    rw [Stmt.toNode, Node.toJson]
    exact .form (by simp) (by simp) (by simp [inner.stable h])
  | .print inner, h => by
    rw [Stmt.toNode, Node.toJson]
    exact .form (by simp) (by simp) (by simp [inner.stable h])
  | .var name initializer, ⟨hName, hInitializer⟩ => by
    rw [Stmt.toNode, Node.toJson]
    exact .form (by simp) (by simp) (by simp [hName.stable, Expr.stable? initializer hInitializer])
  | .block statements, h => by
    have hList : (Json.list (Node.toJsons (Stmt.toNodes statements))).Stable :=
      .list (Stmt.allStable statements h)
    rw [Stmt.toNode, Node.toJson]
    exact .form (by simp) (by simp) (by simp [hList])
  | .branch condition consequence none, ⟨hTest, hThen⟩ => by
    rw [Stmt.toNode, Node.toJson]
    exact .form (by simp) (by simp)
      (by simp [condition.stable hTest, consequence.stable hThen, Node.toJson, Stable.null])
  | .branch condition consequence (some alternative), ⟨hTest, hThen, hElse⟩ => by
    rw [Stmt.toNode, Node.toJson]
    exact .form (by simp) (by simp)
      (by simp [condition.stable hTest, consequence.stable hThen, alternative.stable hElse])
  | .loop condition body, ⟨hTest, hBody⟩ => by
    rw [Stmt.toNode, Node.toJson]
    exact .form (by simp) (by simp) (by simp [condition.stable hTest, body.stable hBody])

theorem Stmt.allStable : (statements : List Stmt) → Stmt.AllSound .stored statements →
    ∀ v ∈ Node.toJsons (Stmt.toNodes statements), v.Stable
  | [], _ => by
    rw [Stmt.toNodes, Node.toJsons]
    exact nofun
  | s :: rest, ⟨hs, hRest⟩ => by
    rw [Stmt.toNodes, Node.toJsons]
    exact List.forall_mem_cons.mpr ⟨s.stable hs, Stmt.allStable rest hRest⟩

end

/-- A program with entries that failed is stable if the others are
sound. -/
theorem stable_program : (entries : List (Option Stmt)) →
    Stmt.AllSound .stored (entries.filterMap id) →
    (Node.programToJson (entries.map Stmt.toNode?)).Stable := by
  intro entries h
  apply Stable.list
  induction entries with
  | nil => exact nofun
  | cons entry rest ih =>
    rw [List.map_cons, Node.toJsons]
    cases entry with
    | none =>
      rw [Stmt.toNode?, Node.toJson]
      exact List.forall_mem_cons.mpr ⟨.null, ih h⟩
    | some s => exact List.forall_mem_cons.mpr ⟨s.stable h.1, ih h.2⟩

/-! ## The tokens of a text -/

theorem stable_toFloat (d : Decimal) : (Json.float d.toFloat).Stable := by
  obtain ⟨bits, hBits, hFloat⟩ := d.exists_toFloat
  rw [hFloat]
  exact .float hBits

theorem stable_literal (kind : Kind) (cs : List Char) :
    (Segment.literal kind cs).toJson.Stable := by
  unfold Segment.literal
  split
  · exact stable_toFloat _
  · exact .string _
  · exact .null

/-- The lines of the segments of a text. -/
theorem place_bounds {line : Int} {segments : List Segment} {p : Segment × Int}
    (h : p ∈ Segment.place line segments) :
    line ≤ p.2 ∧ p.2 ≤ line + ((segments.flatMap Segment.text).count '\n' : Nat) := by
  induction segments generalizing line with
  | nil => cases h
  | cons s rest ih =>
    rw [List.flatMap_cons, List.count_append]
    rcases List.mem_cons.mp h with rfl | hMem
    · simp only [Segment.newlines]
      omega
    · have hRest := ih hMem
      simp only [Segment.newlines] at hRest
      omega

theorem stable_ofSource (kind : Kind) (lexeme : String) {literal : Value} {line : Int}
    (hLiteral : literal.toJson.Stable) (hPos : 0 ≤ line) (hLine : line < 10 ^ integerDigits) :
    (Token.ofSource kind lexeme literal line).toJson.Stable := by
  have hInt : (Json.int line).Stable := by
    obtain ⟨n, rfl⟩ := Int.eq_ofNat_of_zero_le hPos
    exact .int (by exact_mod_cast hLine)
  exact .object (by simp) (by simp) (by simp [Token.ofSource, hLiteral, hInt, Stable.string])

theorem scan_stored {source : String} (h : source.toList.count '\n' + 1 < 10 ^ integerDigits) :
    ∀ t ∈ (scan source).tokens, Contents.stored.Supplies t := by
  intro t ht
  have hLine : ∀ line : Int, line ≤ 1 + (source.toList.count '\n' : Nat) →
      line < 10 ^ integerDigits := by
    intro line hLe
    have : ((source.toList.count '\n' + 1 : Nat) : Int) < ((10 ^ integerDigits : Nat) : Int) := by
      exact_mod_cast h
    push_cast at this
    omega
  rcases List.mem_append.mp ht with hMem | hMem
  · obtain ⟨⟨segment, line⟩, hPlaced, hToken⟩ := List.mem_filterMap.mp hMem
    obtain ⟨hLower, hUpper⟩ := place_bounds hPlaced
    rw [Segment.flatMap_text_cut] at hUpper
    cases segment with
    | lexeme kind cs =>
      cases hToken
      exact ⟨stable_ofSource kind _ (stable_literal kind cs) (by simp only at hLower; omega)
        (hLine line hUpper), stable_literal kind cs⟩
    | _ => cases hToken
  · rw [List.mem_singleton.mp hMem]
    exact ⟨stable_ofSource _ _ .null (by omega) (hLine _ le_rfl), .null⟩

/-- The trees of a text are read and loaded from what is rendered of
them. -/
theorem load_render {source : String} (h : source.toList.count '\n' + 1 < 10 ^ integerDigits) :
    let program := (parse (scan source).tokens).entries.map Stmt.toNode?
    ∃ json, Json.parse (Node.programToJson program).render = .ok json ∧
      Node.programOfJson json = .ok program := by
  intro program
  obtain ⟨entries, rest, notes, hParse, hSound⟩ := parse_scan_sound source (scan_stored h)
  have hEntries : (parse (scan source).tokens).entries = entries := by rw [hParse, Parse.entries]
  refine ⟨_, parse_render ?_, Node.programOfJson_programToJson program⟩
  simp only [program, hEntries]
  exact stable_program entries hSound

end Treewalk
