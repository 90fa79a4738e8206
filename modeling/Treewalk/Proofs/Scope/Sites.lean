import Treewalk.Proofs.Grammar.Soundness
import Treewalk.Proofs.Scope.Names

/-!
# Where expressions stand

The place of an expression in a program, as the text shows it: the
statement lists around it, innermost first, each cut off before the
statement that holds it (`Site`). From a place and the names that were
global before the program one can read off, without running anything, how
many frames outwards a name is found (`Site.resolve?`), and which names
each frame binds (`textNames`). The two agree (`findIdx?_textNames`).

Such reading is right only if declarations stand in lists. A tree could
have one as a branch or as the body of a loop; a program that was read has
none there (`Derivation.Declarations.allTidy`).
-/

namespace Treewalk

/-! ## Sites -/

/-- An expression in its place. -/
structure Site where
  /-- The statement lists around it, innermost first, each up to the
  statement that holds it. -/
  around : List (List Stmt)
  expr : Expr

/-- An expression and all expressions in it. -/
def Expr.parts : Expr → List Expr
  | .binary left operator right => .binary left operator right :: (left.parts ++ right.parts)
  | .grouping inner => .grouping inner :: inner.parts
  | .literal value => [.literal value]
  | .unary operator right => .unary operator right :: right.parts
  | .variable name => [.variable name]
  | .assign name value => .assign name value :: value.parts
  | .logical left operator right => .logical left operator right :: (left.parts ++ right.parts)

/-- The sites of an expression that stands in some lists. -/
def Expr.sites (around : List (List Stmt)) (e : Expr) : List Site :=
  e.parts.map fun part => ⟨around, part⟩

mutual

/-- The sites of a statement that stands in some lists. -/
def Stmt.sites (around : List (List Stmt)) : Stmt → List Site
  | .expression inner => inner.sites around
  | .print inner => inner.sites around
  | .var _ none => []
  | .var _ (some e) => e.sites around
  | .block statements => Stmt.sitesIn around [] statements
  | .branch condition consequence none => condition.sites around ++ consequence.sites around
  | .branch condition consequence (some alternative) =>
    condition.sites around ++ (consequence.sites around ++ alternative.sites around)
  | .loop condition body => condition.sites around ++ body.sites around

/-- The sites of the rest of a list, behind the statements before it. -/
def Stmt.sitesIn (outer : List (List Stmt)) (before : List Stmt) : List Stmt → List Site
  | [] => []
  | s :: rest => s.sites (before :: outer) ++ Stmt.sitesIn outer (before ++ [s]) rest

end

/-! ## Resolution -/

/-- Whether a statement declares a name. -/
def Stmt.declares (x : Name) : Stmt → Bool
  | .var name _ => Name.ofJson? name.lexeme = some x
  | _ => false

/-- How many frames outwards a name is found, given the names that were
global before the program: at the innermost list that declares it before
the site, or else among those globals. -/
def Site.resolve? (globals : List Name) (site : Site) (x : Name) : Option Nat :=
  match site.around.findIdx? fun before => before.any (Stmt.declares x) with
  | some i => some i
  | none => if x ∈ globals then some (site.around.length - 1) else none

/-- The names of a frame behind a statement of its list. -/
def Stmt.bind (names : List Name) : Stmt → List Name
  | .var name _ =>
    match Name.ofJson? name.lexeme with
    | some x => if x ∈ names then names else names ++ [x]
    | none => names
  | _ => names

/-- The names of a frame behind some statements of its list. -/
def bound (names : List Name) (before : List Stmt) : List Name :=
  before.foldl Stmt.bind names

/-- The names of each frame at a site. -/
def textNames (globals : List Name) : List (List Stmt) → List (List Name)
  | [] => []
  | before :: outer =>
    bound (if outer.isEmpty then globals else []) before :: textNames globals outer

theorem Stmt.mem_bind {names : List Name} {s : Stmt} {x : Name} :
    x ∈ s.bind names ↔ x ∈ names ∨ s.declares x := by
  cases s with
  | var name initializer =>
    rw [Stmt.bind, Stmt.declares]
    cases Name.ofJson? name.lexeme with
    | none => simp
    | some y =>
      simp only [Option.some.injEq, decide_eq_true_eq]
      by_cases h : y ∈ names
      · rw [if_pos h]
        exact ⟨.inl, fun hx => hx.elim id (· ▸ h)⟩
      · rw [if_neg h, List.mem_append, List.mem_singleton, eq_comm]
  | _ => simp [Stmt.bind, Stmt.declares]

theorem mem_bound {names : List Name} {before : List Stmt} {x : Name} :
    x ∈ bound names before ↔ x ∈ names ∨ before.any (Stmt.declares x) := by
  unfold bound
  induction before generalizing names with
  | nil => simp
  | cons s rest ih => rw [List.foldl_cons, ih, Stmt.mem_bind, List.any_cons, Bool.or_eq_true, or_assoc]

theorem bound_append (names : List Name) (before : List Stmt) (s : Stmt) :
    bound names (before ++ [s]) = s.bind (bound names before) := by
  rw [bound, List.foldl_append]
  rfl

theorem textNames_push (globals : List Name) {around : List (List Stmt)} (h : around ≠ []) :
    textNames globals ([] :: around) = [] :: textNames globals around := by
  rw [textNames, List.isEmpty_eq_false_iff.mpr h]
  rfl

/-- The innermost frame that binds a name by the text is the one it
resolves to. -/
theorem findIdx?_textNames (globals : List Name) (x : Name) (site : Site)
    (h : site.around ≠ []) :
    (textNames globals site.around).findIdx? (x ∈ ·) = site.resolve? globals x := by
  obtain ⟨around, e⟩ := site
  unfold Site.resolve?
  induction around with
  | nil => exact absurd rfl h
  | cons before outer ih =>
    simp only [textNames, List.findIdx?_cons, mem_bound]
    cases hDeclared : before.any (Stmt.declares x) with
    | true => simp
    | false =>
      cases outer with
      | nil =>
        by_cases hGlobal : x ∈ globals
        · simp [hGlobal]
        · simp [hGlobal, textNames]
      | cons next outer =>
        have hRest := ih (List.cons_ne_nil _ _)
        simp only [List.isEmpty_cons, Bool.false_eq_true, if_false, List.not_mem_nil, or_self,
          decide_false, hRest]
        cases (next :: outer).findIdx? fun before => before.any (Stmt.declares x) with
        | some i => rfl
        | none =>
          by_cases hGlobal : x ∈ globals
          · simp [hGlobal]
          · simp [hGlobal]

/-! ## Frames by their names -/

namespace Frame

theorem get?_isSome {f : Frame} {x : Name} : (f.get? x).isSome ↔ x ∈ f.names :=
  binds_iff_mem_names

/-- Assigning puts the value in the nearest frame that binds the name. -/
theorem assign?_eq (x : Name) (v : Value) (frames : List Frame) :
    match (frames.map names).findIdx? (x ∈ ·) with
    | none => assign? x v frames = none
    | some i => ∃ f, frames[i]? = some f ∧
        assign? x v frames = some (frames.set i (f.define x v)) := by
  induction frames with
  | nil => rfl
  | cons f rest ih =>
    rw [List.map_cons, List.findIdx?_cons, assign?]
    by_cases h : x ∈ f.names
    · rw [if_pos (binds_iff_mem_names.mpr h), decide_eq_true h]
      exact ⟨f, rfl, rfl⟩
    · rw [if_neg (mt binds_iff_mem_names.mp h), decide_eq_false h]
      cases hRest : (rest.map names).findIdx? (x ∈ ·) with
      | none =>
        rw [hRest] at ih
        simp [ih]
      | some i =>
        rw [hRest] at ih
        obtain ⟨g, hg, hAssigned⟩ := ih
        exact ⟨g, hg, by rw [hAssigned]; rfl⟩

theorem findSome?_eq (x : Name) (frames : List Frame) :
    match (frames.map names).findIdx? (x ∈ ·) with
    | none => frames.findSome? (·.get? x) = none
    | some i => ∃ f v, frames[i]? = some f ∧ f.get? x = some v ∧
        frames.findSome? (·.get? x) = some v := by
  induction frames with
  | nil => rfl
  | cons f rest ih =>
    rw [List.map_cons, List.findIdx?_cons, List.findSome?_cons]
    by_cases h : x ∈ f.names
    · obtain ⟨v, hv⟩ := Option.isSome_iff_exists.mp (get?_isSome.mpr h)
      rw [decide_eq_true h, hv]
      exact ⟨f, v, rfl, hv, rfl⟩
    · have hNone : f.get? x = none := by
        rw [← Option.not_isSome_iff_eq_none]
        exact mt get?_isSome.mp h
      rw [decide_eq_false h, hNone]
      cases hRest : (rest.map names).findIdx? (x ∈ ·) with
      | none =>
        rw [hRest] at ih
        exact ih
      | some i =>
        rw [hRest] at ih
        obtain ⟨g, v, hg, hv, hFound⟩ := ih
        exact ⟨g, v, hg, hv, hFound⟩

theorem assign?_append (x : Name) (v : Value) (frames : List Frame) (last : Frame) :
    assign? x v (frames ++ [last]) =
      match assign? x v frames with
      | some later => some (later ++ [last])
      | none => if last.binds x then some (frames ++ [last.define x v]) else none := by
  induction frames with
  | nil => simp [assign?]
  | cons f rest ih =>
    rw [List.cons_append, assign?, assign?]
    split
    · rfl
    · rw [ih]
      cases assign? x v rest with
      | some later => rfl
      | none =>
        by_cases h : last.binds x = true
        · simp [h]
        · simp [h]

end Frame

/-- Assigning in a scope is assigning in its frames. -/
theorem Scope.map_frames_assign? (s : Scope) (x : Name) (v : Value) :
    (s.assign? x v).map frames = Frame.assign? x v s.frames := by
  rw [Scope.frames, Frame.assign?_append, Scope.assign?]
  cases Frame.assign? x v s.inner with
  | some inner => rfl
  | none =>
    by_cases h : s.globals.binds x = true
    · simp [h, Scope.frames]
    · simp [h]

/-! ## Declarations stand in lists -/

/-- Whether a statement is a declaration. -/
def Stmt.isVar : Stmt → Bool
  | .var _ _ => true
  | _ => false

mutual

/-- No branch and no body of a loop is a declaration. -/
def Stmt.Tidy : Stmt → Prop
  | .expression _ | .print _ | .var _ _ => True
  | .block statements => Stmt.AllTidy statements
  | .branch _ consequence none => consequence.isVar = false ∧ consequence.Tidy
  | .branch _ consequence (some alternative) =>
    (consequence.isVar = false ∧ consequence.Tidy) ∧
      (alternative.isVar = false ∧ alternative.Tidy)
  | .loop _ body => body.isVar = false ∧ body.Tidy

/-- Statements in a row that are tidy. -/
def Stmt.AllTidy : List Stmt → Prop
  | [] => True
  | s :: rest => s.Tidy ∧ Stmt.AllTidy rest

end

namespace Derivation

theorem Variable.tidy (v : Variable) : v.tree.Tidy := by
  rw [Variable.tree, Stmt.Tidy]
  trivial

theorem Initializer.tidy (i : Initializer) : ∀ s ∈ i.tree?, s.Tidy := by
  match i with
  | .empty semicolon => nofun
  | .variable v =>
    rintro _ ⟨⟩
    exact v.tidy
  | .expression inner semicolon =>
    rintro _ ⟨⟩
    trivial

/-- A `for` is a loop or a block, and its body stands in a list or is the
statement that was written. -/
theorem Header.tidy (header : Header) {body : Stmt} (h : body.isVar = false ∧ body.Tidy) :
    (header.tree body).isVar = false ∧ (header.tree body).Tidy := by
  have hOnce : (withIncrement header.increment body).isVar = false ∧
      (withIncrement header.increment body).Tidy := by
    cases header.increment with
    | none => exact h
    | some e => exact ⟨rfl, h.2, trivial, trivial⟩
  have hFirst := header.initializer.tidy
  unfold Header.tree
  cases hs : header.initializer.tree? with
  | none => exact ⟨rfl, hOnce⟩
  | some first => exact ⟨rfl, hFirst first hs, hOnce, trivial⟩

mutual

theorem Statement.tidy : (s : Statement) → s.tree.isVar = false ∧ s.tree.Tidy
  | .expression .. | .print .. => ⟨rfl, trivial⟩
  | .block _ body _ => ⟨rfl, body.allTidy⟩
  | .branch _ _ consequence => ⟨rfl, consequence.tidy⟩
  | .branchElse _ _ consequence _ alternative => ⟨rfl, consequence.tidy, alternative.tidy⟩
  | .loop _ _ body => ⟨rfl, body.tidy⟩
  | .count _ header body => header.tidy body.tidy

theorem Declaration.tidy : (d : Declaration) → d.tree.Tidy
  | .variable inner => inner.tidy
  | .statement inner => inner.tidy.2

/-- Declarations stand in lists wherever a program was read. -/
theorem Declarations.allTidy : (d : Declarations) → Stmt.AllTidy d.trees
  | .nil => trivial
  | .cons first rest => ⟨first.tidy, rest.allTidy⟩

end

end Derivation

end Treewalk
