import Treewalk.Proofs.Scope.Sites
import Treewalk.Proofs.Session.Account

/-!
# Names resolve by the text

Names are looked up while a program runs, and yet where each is found can
be read off the text. While a program runs, expressions are evaluated, each
at its site and on some machine (`Stmt.EvaluatesIn`). On every such machine
the frames bind the names that the text shows at the site, frame by frame
(`Stmt.EvaluatesIn.shows`), since declarations stand in lists, lists
open frames, and nothing else binds a name. Hence a variable is read from,
and an assignment writes to, the frame that the text tells, or the name is
undefined because the text says so (`resolution_by_text`).

A run that ends with an undefined name has evaluated a site whose own name
it is (`Stmt.exists_undefinedIn`). So a program whose names all resolve never
ends that way.
-/

namespace Treewalk

/-! ## What is evaluated -/

/-- While an expression is evaluated on a machine, one of its parts is
evaluated on a machine. -/
inductive Expr.Evaluates (σ : Settings) : Expr → Machine → Expr → Machine → Prop
  | self (e : Expr) (m : Machine) : Evaluates σ e m e m
  | grouping {inner e : Expr} {m m' : Machine} (h : Evaluates σ inner m e m') :
      Evaluates σ (.grouping inner) m e m'
  | unary {operator : Token} {right e : Expr} {m m' : Machine} (h : Evaluates σ right m e m') :
      Evaluates σ (.unary operator right) m e m'
  | assign {name : Token} {value e : Expr} {m m' : Machine} (h : Evaluates σ value m e m') :
      Evaluates σ (.assign name value) m e m'
  | binaryLeft {left right e : Expr} {operator : Token} {m m' : Machine}
      (h : Evaluates σ left m e m') : Evaluates σ (.binary left operator right) m e m'
  | binaryRight {left right e : Expr} {operator : Token} {m mid m' : Machine} {a : Value}
      (hLeft : visit σ left.toNode m = (.ok a, mid)) (h : Evaluates σ right mid e m') :
      Evaluates σ (.binary left operator right) m e m'
  | logicalLeft {left right e : Expr} {operator : Token} {m m' : Machine}
      (h : Evaluates σ left m e m') : Evaluates σ (.logical left operator right) m e m'
  | logicalRight {left right e : Expr} {operator : Token} {m mid m' : Machine} {a : Value}
      (hLeft : visit σ left.toNode m = (.ok a, mid))
      (hOpen : a.truthy ≠ decide (operator.kind = .orWord)) (h : Evaluates σ right mid e m') :
      Evaluates σ (.logical left operator right) m e m'

/-- Some rounds of a loop, each with its condition found true. -/
inductive Rounds (σ : Settings) (condition : Expr) (body : Stmt) : Machine → Machine → Prop
  | none (m : Machine) : Rounds σ condition body m m
  | round {m tested once last : Machine} {v w : Value}
      (hTest : visit σ condition.toNode m = (.ok v, tested)) (hv : v.truthy = true)
      (hBody : visit σ body.toNode tested = (.ok w, once))
      (h : Rounds σ condition body once last) : Rounds σ condition body m last

mutual

/-- While a statement that stands in some lists is run on a machine, the
expression of a site is evaluated on a machine. -/
inductive Stmt.Evaluates (σ : Settings) :
    List (List Stmt) → Stmt → Machine → Site → Machine → Prop
  | expression {around : List (List Stmt)} {inner e : Expr} {m m' : Machine}
      (h : inner.Evaluates σ m e m') : Stmt.Evaluates σ around (.expression inner) m ⟨around, e⟩ m'
  | print {around : List (List Stmt)} {inner e : Expr} {m m' : Machine}
      (h : inner.Evaluates σ m e m') : Stmt.Evaluates σ around (.print inner) m ⟨around, e⟩ m'
  | var {around : List (List Stmt)} {name : Token} {value e : Expr} {m m' : Machine}
      (h : value.Evaluates σ m e m') :
      Stmt.Evaluates σ around (.var name (some value)) m ⟨around, e⟩ m'
  | block {around : List (List Stmt)} {statements : List Stmt} {site : Site} {m m' : Machine}
      (h : Stmt.EvaluatesIn σ around [] statements { m with scope := m.scope.push } site m') :
      Stmt.Evaluates σ around (.block statements) m site m'
  | condition {around : List (List Stmt)} {condition e : Expr} {consequence : Stmt}
      {alternative : Option Stmt} {m m' : Machine} (h : condition.Evaluates σ m e m') :
      Stmt.Evaluates σ around (.branch condition consequence alternative) m ⟨around, e⟩ m'
  | consequence {around : List (List Stmt)} {condition : Expr} {consequence : Stmt}
      {alternative : Option Stmt} {site : Site} {m mid m' : Machine} {v : Value}
      (hTest : visit σ condition.toNode m = (.ok v, mid)) (hv : v.truthy = true)
      (h : Stmt.Evaluates σ around consequence
        (Run.trace σ 3 (branchLine condition.toNode v.truthy) mid).2 site m') :
      Stmt.Evaluates σ around (.branch condition consequence alternative) m site m'
  | alternative {around : List (List Stmt)} {condition : Expr} {consequence alternative : Stmt}
      {site : Site} {m mid m' : Machine} {v : Value}
      (hTest : visit σ condition.toNode m = (.ok v, mid)) (hv : v.truthy = false)
      (h : Stmt.Evaluates σ around alternative
        (Run.trace σ 3 (branchLine condition.toNode v.truthy) mid).2 site m') :
      Stmt.Evaluates σ around (.branch condition consequence (some alternative)) m site m'
  | test {around : List (List Stmt)} {condition e : Expr} {body : Stmt} {m mid m' : Machine}
      (hRounds : Rounds σ condition body m mid) (h : condition.Evaluates σ mid e m') :
      Stmt.Evaluates σ around (.loop condition body) m ⟨around, e⟩ m'
  | body {around : List (List Stmt)} {condition : Expr} {body : Stmt} {site : Site}
      {m mid tested m' : Machine} {v : Value} (hRounds : Rounds σ condition body m mid)
      (hTest : visit σ condition.toNode mid = (.ok v, tested)) (hv : v.truthy = true)
      (h : Stmt.Evaluates σ around body tested site m') :
      Stmt.Evaluates σ around (.loop condition body) m site m'

/-- The same of the rest of a list, behind the statements before it. -/
inductive Stmt.EvaluatesIn (σ : Settings) :
    List (List Stmt) → List Stmt → List Stmt → Machine → Site → Machine → Prop
  | here {outer : List (List Stmt)} {before rest : List Stmt} {s : Stmt} {site : Site}
      {m m' : Machine} (h : Stmt.Evaluates σ (before :: outer) s m site m') :
      Stmt.EvaluatesIn σ outer before (s :: rest) m site m'
  | later {outer : List (List Stmt)} {before rest : List Stmt} {s : Stmt} {site : Site}
      {m mid m' : Machine} {v : Value} (hFirst : visit σ s.toNode m = (.ok v, mid))
      (h : Stmt.EvaluatesIn σ outer (before ++ [s]) rest mid site m') :
      Stmt.EvaluatesIn σ outer before (s :: rest) m site m'

end

/-! ## Evaluations are at sites of the text -/

theorem Expr.mem_parts_self (e : Expr) : e ∈ e.parts := by
  cases e <;> exact List.mem_cons_self

theorem Expr.Evaluates.mem_parts {σ : Settings} {e part : Expr} {m m' : Machine}
    (h : e.Evaluates σ m part m') : part ∈ e.parts := by
  induction h with
  | self e m => exact e.mem_parts_self
  | grouping _ ih | unary _ ih | assign _ ih => exact List.mem_cons_of_mem _ ih
  | binaryLeft _ ih | logicalLeft _ ih =>
    exact List.mem_cons_of_mem _ (List.mem_append_left _ ih)
  | binaryRight _ _ ih | logicalRight _ _ _ ih =>
    exact List.mem_cons_of_mem _ (List.mem_append_right _ ih)

theorem Expr.Evaluates.mem_sites {σ : Settings} {e part : Expr} {m m' : Machine}
    (h : e.Evaluates σ m part m') (around : List (List Stmt)) :
    (⟨around, part⟩ : Site) ∈ e.sites around :=
  List.mem_map_of_mem h.mem_parts

mutual

theorem Stmt.Evaluates.mem_sites {σ : Settings} : {around : List (List Stmt)} → {s : Stmt} →
    {m : Machine} → {site : Site} → {m' : Machine} → s.Evaluates σ around m site m' →
    site ∈ s.sites around
  | around, _, _, _, _, .expression h | around, _, _, _, _, .print h
  | around, _, _, _, _, .var h => h.mem_sites around
  | _, _, _, _, _, .block h => h.mem_sitesIn
  | around, .branch _ _ none, _, _, _, .condition h
  | around, .branch _ _ (some _), _, _, _, .condition h =>
    List.mem_append_left _ (h.mem_sites around)
  | _, .branch _ _ none, _, _, _, .consequence _ _ h => List.mem_append_right _ h.mem_sites
  | _, .branch _ _ (some _), _, _, _, .consequence _ _ h =>
    List.mem_append_right _ (List.mem_append_left _ h.mem_sites)
  | _, _, _, _, _, .alternative _ _ h =>
    List.mem_append_right _ (List.mem_append_right _ h.mem_sites)
  | around, _, _, _, _, .test _ h => List.mem_append_left _ (h.mem_sites around)
  | _, _, _, _, _, .body _ _ _ h => List.mem_append_right _ h.mem_sites

/-- What is evaluated stands in the text. -/
theorem Stmt.EvaluatesIn.mem_sitesIn {σ : Settings} : {outer : List (List Stmt)} →
    {before statements : List Stmt} → {m : Machine} → {site : Site} → {m' : Machine} →
    Stmt.EvaluatesIn σ outer before statements m site m' →
    site ∈ Stmt.sitesIn outer before statements
  | _, _, _, _, _, _, .here h => List.mem_append_left _ h.mem_sites
  | _, _, _, _, _, _, .later _ h => List.mem_append_right _ h.mem_sitesIn

end

/-! ## Only declarations bind names -/

/-- A run that binds no name. -/
def Run.KeepsNames {α : Type} (run : Run α) : Prop :=
  ∀ m, (run m).2.scope.names = m.scope.names

namespace Run

variable {α β : Type}

/-- A run that ends with a value ends a first part with a value. -/
theorem exists_of_bind_ok {run : Run α} {next : α → Run β} {m later : Machine} {w : β}
    (h : (run >>= next) m = (.ok w, later)) :
    ∃ v mid, run m = (.ok v, mid) ∧ next v mid = (.ok w, later) := by
  cases hRun : run m with
  | mk ending mid =>
    cases ending with
    | ok v =>
      rw [bind_of_ok hRun] at h
      exact ⟨v, mid, rfl, h⟩
    | error halt =>
      rw [bind_of_error hRun] at h
      cases h

namespace KeepsNames

theorem done (v : α) : KeepsNames (.done v) :=
  fun _ => rfl

theorem bind {run : Run α} {next : α → Run β} (h : KeepsNames run)
    (hNext : ∀ v, KeepsNames (next v)) : KeepsNames (run >>= next) := by
  intro m
  have hRun := h m
  cases hEnd : run m with
  | mk ending mid =>
    rw [hEnd] at hRun
    cases ending with
    | ok v =>
      rw [bind_of_ok hEnd, hNext v mid]
      exact hRun
    | error halt =>
      rw [bind_of_error hEnd]
      exact hRun

theorem writeLine {γ : Type} (event : γ → Event) (line : Except Halt γ) :
    KeepsNames (.writeLine event line) := by
  intro m
  cases line <;> rfl

theorem trace (σ : Settings) (level : Nat) (line : Except Halt Text) :
    KeepsNames (.trace σ level line) := by
  unfold Run.trace
  split
  · exact writeLine _ (writable line)
  · exact done ()

theorem nameOf (t : Token) : KeepsNames (.nameOf t) := by
  intro m
  rw [Run.nameOf]
  cases Name.ofJson? t.lexeme <;> rfl

theorem ofResult (t : Token) (result : Except Misuse Value) : KeepsNames (.ofResult t result) := by
  intro m
  cases result <;> rfl

theorem lookup (t : Token) : KeepsNames (.lookup t) := by
  refine bind (nameOf t) fun name m => ?_
  split <;> rfl

theorem assign (t : Token) (v : Value) : KeepsNames (.assign t v) := by
  refine bind (nameOf t) fun name m => ?_
  split
  · next hFound => exact Scope.names_assign? hFound
  · rfl

theorem repeatWhile {test : Run Bool} {body : Run Unit} (hTest : KeepsNames test)
    (hBody : KeepsNames body) (rounds count : Nat) :
    KeepsNames (.repeatWhile test body rounds count) :=
  @Run.repeatWhile_corresponds (fun run _ => run.KeepsNames) .done .bind (fun _ => rfl)
    test test body body hTest hBody rounds count

end KeepsNames

end Run

/-- An expression binds no name. -/
theorem Expr.keepsNames (σ : Settings) : (e : Expr) → (visit σ e.toNode).KeepsNames
  | .literal value => by
    rw [Expr.toNode, visit]
    exact .done value
  | .grouping inner => by
    rw [Expr.toNode, visit]
    exact inner.keepsNames σ
  | .variable name => by
    rw [Expr.toNode, visit]
    exact .lookup name
  | .assign name value => by
    rw [Expr.toNode, visit]
    refine .bind (value.keepsNames σ) fun v => ?_
    rw [Node.token?, Run.required_some]
    exact .bind (.assign name v) fun _ => .bind (.trace σ 2 _) fun _ => .done v
  | .logical left operator right => by
    rw [Expr.toNode, visit]
    refine .bind (left.keepsNames σ) fun a => ?_
    rw [Node.token?, Run.required_some]
    split
    · exact .done a
    · exact right.keepsNames σ
  | .unary operator right => by
    rw [Expr.toNode, visit]
    exact .bind (right.keepsNames σ) fun b => .ofResult operator _
  | .binary left operator right => by
    rw [Expr.toNode, visit]
    exact .bind (left.keepsNames σ) fun a => .bind (right.keepsNames σ) fun b =>
      .ofResult operator _

/-- A tidy statement that is no declaration binds no name. -/
theorem Stmt.keepsNames (σ : Settings) : (s : Stmt) → s.isVar = false → s.Tidy →
    (visit σ s.toNode).KeepsNames
  | .expression inner, _, _ => by
    rw [Stmt.toNode, visit]
    exact .bind (inner.keepsNames σ) fun _ => .done _
  | .print inner, _, _ => by
    rw [Stmt.toNode, visit]
    exact .bind (inner.keepsNames σ) fun _ => .bind (.writeLine _ _) fun _ => .done _
  | .block statements, _, _ => by
    rw [Stmt.toNode]
    exact names_visit_block σ _
  | .branch condition consequence none, _, ⟨hVar, hTidy⟩ => by
    rw [Stmt.toNode, visit]
    refine .bind (condition.keepsNames σ) fun v => .bind (.trace σ 3 _) fun _ => ?_
    split
    · exact .bind (consequence.keepsNames σ hVar hTidy) fun _ => .done _
    · exact .done _
  | .branch condition consequence (some alternative), _, ⟨⟨hVar, hTidy⟩, hVar', hTidy'⟩ => by
    rw [Stmt.toNode, visit_branch_some]
    refine .bind (condition.keepsNames σ) fun v => .bind (.trace σ 3 _) fun _ => ?_
    split
    · exact .bind (consequence.keepsNames σ hVar hTidy) fun _ => .done _
    · exact .bind (alternative.keepsNames σ hVar' hTidy') fun _ => .done _
  | .loop condition body, _, ⟨hVar, hTidy⟩ => by
    rw [Stmt.toNode, visit]
    refine .bind (.repeatWhile ?_ ?_ σ.rounds 0) fun _ => .bind (.trace σ 3 _) fun _ => .done _
    · exact .bind (condition.keepsNames σ) fun v => .done v.truthy
    · exact .bind (body.keepsNames σ hVar hTidy) fun _ => .done ()

/-- A declaration that came to its end has bound its name. -/
theorem names_defined {σ : Settings} {t : Token} {v w : Value} {m later : Machine}
    {current : List Name} {outer : List (List Name)} (initializer : Option Expr)
    (h : (do
      Run.define t v
      Run.trace σ 2 (defineLine t v (← Run.depth))
      return Value.nil : Run Value) m = (.ok w, later)) (hNames : m.scope.names = current :: outer) :
    later.scope.names = (Stmt.var t initializer).bind current :: outer := by
  obtain ⟨_, bound, hBound, h⟩ := Run.exists_of_bind_ok h
  obtain ⟨x, _, hName, hDefined⟩ := Run.exists_of_bind_ok hBound
  have hLater : later.scope.names = bound.scope.names := by
    have hKeeps : Run.KeepsNames (do
        Run.trace σ 2 (defineLine t v (← Run.depth))
        return Value.nil : Run Value) :=
      .bind (fun _ => rfl) fun _ => .bind (.trace σ 2 _) fun _ => .done _
    rw [← hKeeps bound]
    exact congrArg (·.2.scope.names) h.symm
  rw [Run.nameOf] at hName
  rw [hLater, Stmt.bind]
  cases hLexeme : Name.ofJson? t.lexeme with
  | none =>
    rw [hLexeme] at hName
    cases hName
  | some y =>
    rw [hLexeme] at hName
    cases hName
    cases hDefined
    obtain ⟨first, rest, hBefore, hAfter⟩ := m.scope.names_define x v
    rw [hNames] at hBefore
    cases hBefore
    exact hAfter

/-- A statement that came to its end has bound in its frame what the text
says. -/
theorem Stmt.names_visit {σ : Settings} {s : Stmt} (hTidy : s.Tidy) {m later : Machine} {v : Value}
    (h : visit σ s.toNode m = (.ok v, later)) {current : List Name} {outer : List (List Name)}
    (hNames : m.scope.names = current :: outer) :
    later.scope.names = s.bind current :: outer := by
  have hOther : s.isVar = false → later.scope.names = current :: outer := by
    intro hVar
    have hKeeps := s.keepsNames σ hVar hTidy m
    rw [h] at hKeeps
    exact hKeeps.trans hNames
  match s with
  | .var name none =>
    rw [Stmt.toNode, Expr.toNode?, visit, Node.token?, Run.required_some] at h
    exact names_defined none h hNames
  | .var name (some e) =>
    rw [Stmt.toNode, Expr.toNode?, visit_var_some] at h
    obtain ⟨u, mid, hValue, h⟩ := Run.exists_of_bind_ok h
    have hKeeps := e.keepsNames σ m
    rw [hValue] at hKeeps
    rw [Node.token?, Run.required_some] at h
    exact names_defined (some e) h (hKeeps.trans hNames)
  | .expression _ | .print _ | .block _ | .branch _ _ _ | .loop _ _ => exact hOther rfl

/-! ## The frames at a site -/

/-- At a site the frames bind what the text says. -/
def Site.Shows (globals : List Name) (site : Site) (m : Machine) : Prop :=
  site.around ≠ [] ∧ m.scope.names = textNames globals site.around

theorem Expr.Evaluates.names_eq {σ : Settings} {e part : Expr} {m m' : Machine}
    (h : e.Evaluates σ m part m') : m'.scope.names = m.scope.names := by
  induction h with
  | self => rfl
  | grouping _ ih | unary _ ih | assign _ ih | binaryLeft _ ih | logicalLeft _ ih => exact ih
  | binaryRight hLeft _ ih | logicalRight hLeft _ _ ih =>
    rw [ih, ← congrArg (·.2.scope.names) hLeft]
    exact Expr.keepsNames σ _ _

theorem Expr.names_eq_of_ok {σ : Settings} {e : Expr} {m later : Machine} {v : Value}
    (h : visit σ e.toNode m = (.ok v, later)) : later.scope.names = m.scope.names := by
  have hKeeps := e.keepsNames σ m
  rw [h] at hKeeps
  exact hKeeps

theorem Rounds.names_eq {σ : Settings} {condition : Expr} {body : Stmt} {m later : Machine}
    (h : Rounds σ condition body m later) (hVar : body.isVar = false) (hTidy : body.Tidy) :
    later.scope.names = m.scope.names := by
  induction h with
  | none => rfl
  | @round m tested once last v w hTest hv hBody h ih =>
    have hOnce := body.keepsNames σ hVar hTidy tested
    rw [hBody] at hOnce
    exact ih.trans (hOnce.trans (Expr.names_eq_of_ok hTest))

mutual

theorem Stmt.Evaluates.shows {σ : Settings} {globals : List Name} :
    {around : List (List Stmt)} → {s : Stmt} → {m : Machine} → {site : Site} → {m' : Machine} →
    s.Evaluates σ around m site m' → s.Tidy → around ≠ [] →
    m.scope.names = textNames globals around → site.Shows globals m'
  | _, _, _, _, _, .expression h, _, hAround, hNames
  | _, _, _, _, _, .print h, _, hAround, hNames
  | _, _, _, _, _, .var h, _, hAround, hNames
  | _, _, _, _, _, .condition h, _, hAround, hNames => ⟨hAround, h.names_eq.trans hNames⟩
  | around, _, _, _, _, .block h, hTidy, hAround, hNames => by
    refine h.shows hTidy ?_
    rw [textNames_push globals hAround, ← hNames]
    rfl
  | _, .branch condition _ none, _, _, _, .consequence hTest _ h, ⟨_, hTidy⟩, hAround, hNames =>
    h.shows hTidy hAround
      ((Run.KeepsNames.trace σ 3 _ _).trans ((Expr.names_eq_of_ok hTest).trans hNames))
  | _, .branch condition _ (some _), _, _, _, .consequence hTest _ h, ⟨⟨_, hTidy⟩, _⟩, hAround,
      hNames =>
    h.shows hTidy hAround
      ((Run.KeepsNames.trace σ 3 _ _).trans ((Expr.names_eq_of_ok hTest).trans hNames))
  | _, _, _, _, _, .alternative hTest _ h, ⟨_, _, hTidy⟩, hAround, hNames =>
    h.shows hTidy hAround
      ((Run.KeepsNames.trace σ 3 _ _).trans ((Expr.names_eq_of_ok hTest).trans hNames))
  | _, _, _, _, _, .test hRounds h, ⟨hVar, hTidy⟩, hAround, hNames =>
    ⟨hAround, h.names_eq.trans ((hRounds.names_eq hVar hTidy).trans hNames)⟩
  | _, _, _, _, _, .body hRounds hTest _ h, ⟨hVar, hTidy⟩, hAround, hNames =>
    h.shows hTidy hAround
      ((Expr.names_eq_of_ok hTest).trans ((hRounds.names_eq hVar hTidy).trans hNames))

/-- Wherever an expression of a tidy program is evaluated, the frames bind
what the text says. -/
theorem Stmt.EvaluatesIn.shows {σ : Settings} {globals : List Name} :
    {outer : List (List Stmt)} → {before statements : List Stmt} → {m : Machine} → {site : Site} →
    {m' : Machine} → Stmt.EvaluatesIn σ outer before statements m site m' →
    Stmt.AllTidy statements → m.scope.names = textNames globals (before :: outer) →
    site.Shows globals m'
  | _, _, _, _, _, _, .here h, ⟨hTidy, _⟩, hNames =>
    h.shows hTidy (List.cons_ne_nil _ _) hNames
  | outer, before, _, _, _, _, .later hFirst h, ⟨hTidy, hRest⟩, hNames => by
    refine h.shows hRest ?_
    rw [textNames] at hNames ⊢
    rw [bound_append]
    exact Stmt.names_visit hTidy hFirst hNames

end

/-! ## Reading and writing by the text -/

section

variable {contents : Contents}

theorem Expr.sound_of_mem_parts : (e : Expr) → e.Sound contents → ∀ part ∈ e.parts,
    part.Sound contents
  | .literal _, h | .variable _, h => by
    simp only [Expr.parts, List.forall_mem_singleton]
    exact h
  | .grouping inner, h => List.forall_mem_cons.mpr ⟨h, inner.sound_of_mem_parts h⟩
  | .unary _ right, h => List.forall_mem_cons.mpr ⟨h, right.sound_of_mem_parts h.2⟩
  | .assign _ value, h => List.forall_mem_cons.mpr ⟨h, value.sound_of_mem_parts h.2⟩
  | .binary left _ right, h | .logical left _ right, h =>
    List.forall_mem_cons.mpr ⟨h, List.forall_mem_append.mpr
      ⟨left.sound_of_mem_parts h.1, right.sound_of_mem_parts h.2.2⟩⟩

theorem Expr.sound_of_mem_sites {e : Expr} (h : e.Sound contents) (around : List (List Stmt)) :
    ∀ site ∈ e.sites around, site.expr.Sound contents := by
  intro site hSite
  obtain ⟨part, hPart, rfl⟩ := List.mem_map.mp hSite
  exact e.sound_of_mem_parts h part hPart

mutual

theorem Stmt.sound_of_mem_sites (around : List (List Stmt)) : (s : Stmt) → s.Sound contents →
    ∀ site ∈ s.sites around, site.expr.Sound contents
  | .expression _, h | .print _, h => Expr.sound_of_mem_sites h around
  | .var _ none, _ => nofun
  | .var _ (some _), h => Expr.sound_of_mem_sites h.2 around
  | .block statements, h => Stmt.sound_of_mem_sitesIn around [] statements h
  | .branch _ consequence none, h => List.forall_mem_append.mpr
      ⟨Expr.sound_of_mem_sites h.1 around, consequence.sound_of_mem_sites around h.2⟩
  | .branch _ consequence (some alternative), h => List.forall_mem_append.mpr
      ⟨Expr.sound_of_mem_sites h.1 around, List.forall_mem_append.mpr
        ⟨consequence.sound_of_mem_sites around h.2.1, alternative.sound_of_mem_sites around h.2.2⟩⟩
  | .loop _ body, h => List.forall_mem_append.mpr
      ⟨Expr.sound_of_mem_sites h.1 around, body.sound_of_mem_sites around h.2⟩

theorem Stmt.sound_of_mem_sitesIn (outer : List (List Stmt)) (before : List Stmt) :
    (statements : List Stmt) → Stmt.AllSound contents statements →
    ∀ site ∈ Stmt.sitesIn outer before statements, site.expr.Sound contents
  | [], _ => nofun
  | s :: rest, h => List.forall_mem_append.mpr
      ⟨s.sound_of_mem_sites _ h.1, Stmt.sound_of_mem_sitesIn outer _ rest h.2⟩

end

end

/-- A variable is read from the frame so many frames outwards, or it is
undefined. -/
def ReadsAt (σ : Settings) (t : Token) (x : String) (m : Machine) : Option Nat → Prop
  | none => visit σ (Expr.variable t).toNode m = (.error (.error t (.undefined (.string x))), m)
  | some i => ∃ f v, m.scope.frames[i]? = some f ∧ f.get? (.text x) = some v ∧
      visit σ (Expr.variable t).toNode m = (.ok v, m)

/-- An assignment halts as its right side does. Once that has a value, the
value is written in the frame so many frames outwards and nowhere else, or
the variable is undefined and nothing is written. Behind a value that was
written only its line of the trace can still halt, if the value has no text
that can be written. -/
def WritesAt (σ : Settings) (t : Token) (value : Expr) (x : String) (m : Machine)
    (i? : Option Nat) : Prop :=
  match visit σ value.toNode m, i? with
  | (.error halt, mid), _ => visit σ (Expr.assign t value).toNode m = (.error halt, mid)
  | (.ok _, mid), none =>
    visit σ (Expr.assign t value).toNode m = (.error (.error t (.undefined (.string x))), mid)
  | (.ok v, mid), some i => ∃ f ending later, mid.scope.frames[i]? = some f ∧
      later.scope.frames = mid.scope.frames.set i (f.define (.text x) v) ∧
      visit σ (Expr.assign t value).toNode m = (ending, later) ∧
      (ending = .ok v ∨ 2 ≤ σ.verbosity ∧ ¬ Showable v.text? ∧
        ∃ why, ending = .error (.unwritable why))

theorem Site.Shows.findIdx? {globals : List Name} {site : Site} {m : Machine}
    (h : site.Shows globals m) (x : Name) :
    (m.scope.frames.map Frame.names).findIdx? (x ∈ ·) = site.resolve? globals x := by
  rw [← findIdx?_textNames globals x site h.1, ← h.2]
  rfl

section

variable (kind : Kind) {x : String} (literal : Value) (line : Int) {m : Machine}

theorem Run.nameOf_ofSource :
    Run.nameOf (.ofSource kind x literal line) m = (.ok (.text x), m) := rfl

theorem Run.lookup_of_some {v : Value} (h : m.scope.get? (.text x) = some v) :
    Run.lookup (.ofSource kind x literal line) m = (.ok v, m) := by
  simp only [Run.lookup, bind, Run.andThen, Run.nameOf_ofSource, h]

theorem Run.lookup_of_none (h : m.scope.get? (.text x) = none) :
    Run.lookup (.ofSource kind x literal line) m =
      (.error (.error (.ofSource kind x literal line) (.undefined (.string x))), m) := by
  simp only [Run.lookup, bind, Run.andThen, Run.nameOf_ofSource, h]
  rfl

theorem Run.assign_of_some {v : Value} {scope : Scope}
    (h : m.scope.assign? (.text x) v = some scope) :
    Run.assign (.ofSource kind x literal line) v m = (.ok (), { m with scope := scope }) := by
  simp only [Run.assign, bind, Run.andThen, Run.nameOf_ofSource, h]

theorem Run.assign_of_none {v : Value} (h : m.scope.assign? (.text x) v = none) :
    Run.assign (.ofSource kind x literal line) v m =
      (.error (.error (.ofSource kind x literal line) (.undefined (.string x))), m) := by
  simp only [Run.assign, bind, Run.andThen, Run.nameOf_ofSource, h]
  rfl

end

/-- A line of the trace touches no frame. It is written, or it halts where
the verbosity asks for it. -/
theorem Run.trace_cases (σ : Settings) (level : Nat) (line : Except Halt Text) (m : Machine) :
    ∃ ending later, Run.trace σ level line m = (ending, later) ∧ later.scope = m.scope ∧
      (ending = .ok () ∨ level ≤ σ.verbosity ∧ ∃ stop, writable line = .error stop ∧
        ending = .error stop) := by
  unfold Run.trace
  split
  · next hLoud =>
    cases hLine : writable line with
    | ok text => exact ⟨.ok (), _, rfl, rfl, .inl rfl⟩
    | error stop => exact ⟨.error stop, m, rfl, rfl, .inr ⟨hLoud, stop, rfl, rfl⟩⟩
  · exact ⟨.ok (), m, rfl, rfl, .inl rfl⟩

/-- The line of an assignment is written if the text of the value can be. -/
theorem not_showable_of_assignLine {t : Token} (ht : t.Showable) {v : Value} {stop : Halt}
    (h : writable (assignLine t v) = .error stop) : ¬ Showable v.text? := by
  intro hText
  have hWritten : Accepts (fun _ => False) (assignLine t v) := accepts_assignLine ht hText.accepts
  exact hWritten stop h

theorem Site.Shows.readsAt {globals : List Name} {site : Site} {m : Machine}
    (h : site.Shows globals m) (σ : Settings) (kind : Kind) (x : String) (literal : Value)
    (line : Int) :
    ReadsAt σ (.ofSource kind x literal line) x m (site.resolve? globals (.text x)) := by
  have hFound := Frame.findSome?_eq (.text x) m.scope.frames
  rw [h.findIdx?] at hFound
  have hVisit : visit σ (Expr.variable (.ofSource kind x literal line)).toNode m =
      Run.lookup (.ofSource kind x literal line) m := by
    rw [Expr.toNode, visit]
    rfl
  cases hResolved : site.resolve? globals (.text x) with
  | none =>
    rw [hResolved] at hFound
    exact hVisit.trans (Run.lookup_of_none kind literal line hFound)
  | some i =>
    rw [hResolved] at hFound
    obtain ⟨f, v, hf, hv, hValue⟩ := hFound
    exact ⟨f, v, hf, hv, hVisit.trans (Run.lookup_of_some kind literal line hValue)⟩

theorem Site.Shows.writesAt {globals : List Name} {site : Site} {m : Machine}
    (h : site.Shows globals m) (σ : Settings) (kind : Kind) (x : String) (literal : Value)
    (line : Int) (value : Expr) :
    WritesAt σ (.ofSource kind x literal line) value x m (site.resolve? globals (.text x)) := by
  unfold WritesAt
  generalize hToken : Token.ofSource kind x literal line = t
  cases hRight : visit σ value.toNode m with
  | mk ending mid =>
    cases ending with
    | error halt =>
      rw [Expr.toNode, visit, Run.bind_of_error hRight]
    | ok v =>
      -- the right side binds no name, so the site still shows the frames
      have hShows : site.Shows globals mid := ⟨h.1, (Expr.names_eq_of_ok hRight).trans h.2⟩
      have hFound := Frame.assign?_eq (.text x) v mid.scope.frames
      rw [hShows.findIdx?, ← Scope.map_frames_assign?] at hFound
      have hVisit : visit σ (Expr.assign t value).toNode m =
          (Run.assign t v >>= fun _ =>
            Run.trace σ 2 (assignLine t v) >>= fun _ => .done v) mid := by
        rw [Expr.toNode, visit, Run.bind_of_ok hRight, Node.token?, Run.required_some]
        rfl
      cases hResolved : site.resolve? globals (.text x) with
      | none =>
        rw [hResolved] at hFound
        have hUndefined : Run.assign t v mid =
            (.error (.error t (.undefined (.string x))), mid) := by
          rw [← hToken]
          exact Run.assign_of_none kind literal line (Option.map_eq_none_iff.mp hFound)
        exact hVisit.trans (Run.bind_of_error hUndefined)
      | some i =>
        rw [hResolved] at hFound
        obtain ⟨f, hf, hFrames⟩ := hFound
        obtain ⟨scope, hScope, hSet⟩ := Option.map_eq_some_iff.mp hFrames
        have hAssigned : Run.assign t v mid = (.ok (), { mid with scope := scope }) := by
          rw [← hToken]
          exact Run.assign_of_some kind literal line hScope
        rw [Run.bind_of_ok hAssigned] at hVisit
        obtain ⟨traced, later, hTrace, hScope, hTold⟩ :=
          Run.trace_cases σ 2 (assignLine t v) { mid with scope := scope }
        refine ⟨f, traced.map fun _ => v, later, hf, ?_, ?_, ?_⟩
        · rw [hScope]
          exact hSet
        · rw [hVisit]
          rcases hTold with rfl | ⟨-, stop, -, rfl⟩
          · rw [Run.bind_of_ok hTrace]
            rfl
          · rw [Run.bind_of_error hTrace]
            rfl
        · rcases hTold with rfl | ⟨hLoud, stop, hStop, rfl⟩
          · exact .inl rfl
          · obtain ⟨why, rfl⟩ := (tellable_assignLine t v).stop hStop
            have ht : t.Showable := by
              rw [← hToken]
              exact Token.showable_ofSource kind x literal line
            exact .inr ⟨hLoud, not_showable_of_assignLine ht hStop, why, rfl⟩

/-! ## Where an undefined name comes from -/

/-- A run ended with an undefined name. -/
def Undefined {α : Type} (result : Except Halt α × Machine) : Prop :=
  ∃ t x later, result = (.error (.error t (.undefined x)), later)

namespace Undefined

variable {α β : Type}

theorem bind_cases {run : Run α} {next : α → Run β} {m : Machine}
    (h : Undefined ((run >>= next) m)) :
    Undefined (run m) ∨ ∃ v mid, run m = (.ok v, mid) ∧ Undefined (next v mid) := by
  cases hRun : run m with
  | mk ending mid =>
    cases ending with
    | ok v =>
      rw [Run.bind_of_ok hRun] at h
      exact .inr ⟨v, mid, rfl, h⟩
    | error halt =>
      rw [Run.bind_of_error hRun] at h
      obtain ⟨t, x, later, hEnd⟩ := h
      cases hEnd
      exact .inl ⟨t, x, mid, rfl⟩

theorem not_ok {v : α} {m : Machine} : ¬ Undefined (.ok v, m) := by
  rintro ⟨t, x, later, ⟨⟩⟩

theorem not_writeLine {γ : Type} {event : γ → Event} {line : Except Halt γ}
    (hLine : ∀ stop, line = .error stop → ∃ why, stop = .unwritable why) {m : Machine} :
    ¬ Undefined (Run.writeLine event line m) := by
  rintro ⟨t, x, later, hEnd⟩
  cases line with
  | ok line => cases hEnd
  | error stop =>
    obtain ⟨why, rfl⟩ := hLine stop rfl
    cases hEnd

theorem not_trace {σ : Settings} {level : Nat} {line : Except Halt Text} (hLine : Tellable line)
    {m : Machine} : ¬ Undefined (Run.trace σ level line m) := by
  unfold Run.trace
  split
  · exact not_writeLine fun _ => hLine.stop
  · exact not_ok

/-- Behind a line of the trace the run goes on as before. -/
theorem of_trace {σ : Settings} {level : Nat} {line : Except Halt Text} (hLine : Tellable line)
    {m : Machine} {next : Unit → Run β} (h : Undefined ((Run.trace σ level line >>= next) m)) :
    Undefined (next () (Run.trace σ level line m).2) := by
  rcases bind_cases h with h | ⟨v, mid, hTrace, h⟩
  · exact absurd h (not_trace hLine)
  · rw [hTrace]
    exact h

theorem not_ofResult {t : Token} {result : Except Misuse Value} {m : Machine}
    (h : ∀ x, result ≠ .error (.undefined x)) : ¬ Undefined (Run.ofResult t result m) := by
  cases result with
  | ok v => exact not_ok
  | error what =>
    rintro ⟨t', x, later, hEnd⟩
    have hHalt : Halt.ofMisuse t what = .error t' (.undefined x) := by
      injection congrArg Prod.fst hEnd
    unfold Halt.ofMisuse at hHalt
    split at hHalt <;> cases hHalt
    exact h x rfl

theorem not_defined {σ : Settings} {t : Token} {v : Value} {m : Machine} :
    ¬ Undefined ((do
      Run.define t v
      Run.trace σ 2 (defineLine t v (← Run.depth))
      return Value.nil : Run Value) m) := by
  intro h
  rcases bind_cases h with h | ⟨_, mid, _, h⟩
  · rcases bind_cases h with ⟨t', x, later, h⟩ | ⟨name, mid, -, h⟩
    · rw [Run.nameOf] at h
      cases hName : Name.ofJson? t.lexeme <;> rw [hName] at h <;> cases h
    · exact not_ok h
  · rcases bind_cases h with ⟨t', x, later, h⟩ | ⟨depth, mid, -, h⟩
    · cases h
    · exact not_ok (of_trace (tellable_defineLine t v depth) h)

end Undefined

theorem applyUnary_ne_undefined (t : Token) (b : Value) (x : Json) :
    applyUnary t b ≠ .error (.undefined x) := by
  unfold applyUnary
  split
  · nofun
  · split <;> nofun
  · nofun

theorem applyBinary_ne_undefined (t : Token) (a b : Value) (x : Json) :
    applyBinary t a b ≠ .error (.undefined x) := by
  unfold applyBinary applyNumeric
  split
  · split <;> nofun
  · nofun
  · nofun
  · split
    · split <;> nofun
    · nofun

/-- An expression of the grammar has a line. -/
theorem Expr.exists_line : (e : Expr) → ∃ line, e.toNode.line = .ok line
  | .binary _ _ _ | .logical _ _ _ | .unary _ _ | .variable _ | .assign _ _ | .literal _ => ⟨_, rfl⟩
  | .grouping inner => inner.exists_line

theorem Expr.tellable_branchLine (e : Expr) (taken : Bool) :
    Tellable (branchLine e.toNode taken) := by
  obtain ⟨line, hLine⟩ := e.exists_line
  exact Treewalk.tellable_branchLine hLine taken

theorem Expr.tellable_loopLine (e : Expr) (count : Nat) : Tellable (loopLine e.toNode count) := by
  obtain ⟨line, hLine⟩ := e.exists_line
  exact Treewalk.tellable_loopLine hLine count

/-- An expression whose own name is undefined. -/
def Expr.Misses (σ : Settings) (e : Expr) (m : Machine) : Prop :=
  Undefined (visit σ e.toNode m) ∧
    match e with
    | .variable _ => True
    | .assign _ value => ∃ v mid, visit σ value.toNode m = (.ok v, mid)
    | _ => False

/-- An undefined name is that of a part that was evaluated. -/
theorem Expr.exists_undefined {σ : Settings} : (e : Expr) → {m : Machine} →
    Undefined (visit σ e.toNode m) → ∃ part m', e.Evaluates σ m part m' ∧ part.Misses σ m'
  | .literal value, m, h => by
    rw [Expr.toNode, visit] at h
    exact absurd h Undefined.not_ok
  | .grouping inner, m, h => by
    rw [Expr.toNode, visit] at h
    obtain ⟨part, m', hPart, hMisses⟩ := inner.exists_undefined h
    exact ⟨part, m', .grouping hPart, hMisses⟩
  | .variable name, m, h => ⟨_, m, .self _ m, h, trivial⟩
  | .assign name value, m, h => by
    have hSelf := h
    rw [Expr.toNode, visit] at h
    rcases h.bind_cases with h | ⟨v, mid, hValue, -⟩
    · obtain ⟨part, m', hPart, hMisses⟩ := value.exists_undefined h
      exact ⟨part, m', .assign hPart, hMisses⟩
    · exact ⟨_, m, .self _ m, hSelf, v, mid, hValue⟩
  | .unary operator right, m, h => by
    rw [Expr.toNode, visit] at h
    rcases h.bind_cases with h | ⟨b, mid, -, h⟩
    · obtain ⟨part, m', hPart, hMisses⟩ := right.exists_undefined h
      exact ⟨part, m', .unary hPart, hMisses⟩
    · exact absurd h (Undefined.not_ofResult (applyUnary_ne_undefined operator b))
  | .binary left operator right, m, h => by
    rw [Expr.toNode, visit] at h
    rcases h.bind_cases with h | ⟨a, mid, hLeft, h⟩
    · obtain ⟨part, m', hPart, hMisses⟩ := left.exists_undefined h
      exact ⟨part, m', .binaryLeft hPart, hMisses⟩
    · rcases h.bind_cases with h | ⟨b, last, -, h⟩
      · obtain ⟨part, m', hPart, hMisses⟩ := right.exists_undefined h
        exact ⟨part, m', .binaryRight hLeft hPart, hMisses⟩
      · exact absurd h (Undefined.not_ofResult (applyBinary_ne_undefined operator a b))
  | .logical left operator right, m, h => by
    rw [Expr.toNode, visit] at h
    rcases h.bind_cases with h | ⟨a, mid, hLeft, h⟩
    · obtain ⟨part, m', hPart, hMisses⟩ := left.exists_undefined h
      exact ⟨part, m', .logicalLeft hPart, hMisses⟩
    · rw [Node.token?, Run.required_some] at h
      split at h
      · exact absurd h Undefined.not_ok
      · next hOpen =>
        obtain ⟨part, m', hPart, hMisses⟩ := right.exists_undefined h
        exact ⟨part, m', .logicalRight hLeft hOpen hPart, hMisses⟩

/-- A loop that ends with an undefined name does so in the condition or in
the body of some round. -/
theorem exists_undefined_round {σ : Settings} {condition : Expr} {body : Stmt}
    (rounds count : Nat) {m : Machine}
    (h : Undefined (Run.repeatWhile (do return (← visit σ condition.toNode).truthy)
      (do let _ ← visit σ body.toNode; return ()) rounds count m)) :
    ∃ mid, Rounds σ condition body m mid ∧ (Undefined (visit σ condition.toNode mid) ∨
      ∃ v tested, visit σ condition.toNode mid = (.ok v, tested) ∧ v.truthy = true ∧
        Undefined (visit σ body.toNode tested)) := by
  induction rounds generalizing count m with
  | zero =>
    obtain ⟨t, x, later, hEnd⟩ := h
    cases hEnd
  | succ rounds ih =>
    rw [Run.repeatWhile_succ] at h
    rcases h.bind_cases with h | ⟨b, tested, hTested, h⟩
    · rcases h.bind_cases with h | ⟨v, mid, -, h⟩
      · exact ⟨m, .none m, .inl h⟩
      · exact absurd h Undefined.not_ok
    · obtain ⟨v, _, hTest, hTruthy⟩ := Run.exists_of_bind_ok hTested
      cases hTruthy
      split at h
      · next hv =>
        rcases h.bind_cases with h | ⟨_, once, hOnce, h⟩
        · rcases h.bind_cases with h | ⟨w, mid, -, h⟩
          · exact ⟨m, .none m, .inr ⟨v, tested, hTest, hv, h⟩⟩
          · exact absurd h Undefined.not_ok
        · obtain ⟨w, _, hBody, hDone⟩ := Run.exists_of_bind_ok hOnce
          cases hDone
          obtain ⟨mid, hRounds, hMid⟩ := ih (count + 1) h
          exact ⟨mid, .round hTest hv hBody hRounds, hMid⟩
      · exact absurd h Undefined.not_ok

mutual

theorem Stmt.exists_undefined {σ : Settings} (around : List (List Stmt)) : (s : Stmt) →
    {m : Machine} → Undefined (visit σ s.toNode m) →
    ∃ site m', s.Evaluates σ around m site m' ∧ site.expr.Misses σ m'
  | .expression inner, m, h => by
    rw [Stmt.toNode, visit] at h
    rcases h.bind_cases with h | ⟨v, mid, -, h⟩
    · obtain ⟨part, m', hPart, hMisses⟩ := inner.exists_undefined h
      exact ⟨⟨around, part⟩, m', .expression hPart, hMisses⟩
    · exact absurd h Undefined.not_ok
  | .print inner, m, h => by
    rw [Stmt.toNode, visit] at h
    rcases h.bind_cases with h | ⟨v, mid, -, h⟩
    · obtain ⟨part, m', hPart, hMisses⟩ := inner.exists_undefined h
      exact ⟨⟨around, part⟩, m', .print hPart, hMisses⟩
    · rcases h.bind_cases with h | ⟨_, last, -, h⟩
      · exact absurd h (Undefined.not_writeLine fun _ => stop_of_spelled)
      · exact absurd h Undefined.not_ok
  | .var name none, m, h => by
    rw [Stmt.toNode, Expr.toNode?, visit, Node.token?, Run.required_some] at h
    exact absurd h Undefined.not_defined
  | .var name (some e), m, h => by
    rw [Stmt.toNode, Expr.toNode?, visit_var_some] at h
    rcases h.bind_cases with h | ⟨v, mid, -, h⟩
    · obtain ⟨part, m', hPart, hMisses⟩ := e.exists_undefined h
      exact ⟨⟨around, part⟩, m', .var hPart, hMisses⟩
    · rw [Node.token?, Run.required_some] at h
      exact absurd h Undefined.not_defined
  | .block statements, m, h => by
    rw [Stmt.toNode, visit] at h
    rcases h.bind_cases with ⟨t, x, later, h⟩ | ⟨_, mid, -, h⟩
    · have hInside : Undefined (visitAll σ (Stmt.toNodes statements)
          { m with scope := m.scope.push }) := by
        refine ⟨t, x, (visitAll σ (Stmt.toNodes statements) { m with scope := m.scope.push }).2, ?_⟩
        rw [← show _ = Except.error (Halt.error t (.undefined x)) from congrArg Prod.fst h]
        rfl
      obtain ⟨site, m', hSite, hMisses⟩ :=
        Stmt.exists_undefinedIn around [] statements hInside
      exact ⟨site, m', .block hSite, hMisses⟩
    · exact absurd h Undefined.not_ok
  | .branch condition consequence none, m, h => by
    rw [Stmt.toNode, visit] at h
    rcases h.bind_cases with h | ⟨v, mid, hTest, h⟩
    · obtain ⟨part, m', hPart, hMisses⟩ := condition.exists_undefined h
      exact ⟨⟨around, part⟩, m', .condition hPart, hMisses⟩
    · have hBranch := h.of_trace (condition.tellable_branchLine v.truthy)
      split at hBranch
      · next hv =>
        rcases hBranch.bind_cases with h | ⟨w, last, -, h⟩
        · obtain ⟨site, m', hSite, hMisses⟩ := consequence.exists_undefined around h
          exact ⟨site, m', .consequence hTest hv hSite, hMisses⟩
        · exact absurd h Undefined.not_ok
      · exact absurd hBranch Undefined.not_ok
  | .branch condition consequence (some alternative), m, h => by
    rw [Stmt.toNode, visit_branch_some] at h
    rcases h.bind_cases with h | ⟨v, mid, hTest, h⟩
    · obtain ⟨part, m', hPart, hMisses⟩ := condition.exists_undefined h
      exact ⟨⟨around, part⟩, m', .condition hPart, hMisses⟩
    · have hBranch := h.of_trace (condition.tellable_branchLine v.truthy)
      split at hBranch
      · next hv =>
        rcases hBranch.bind_cases with h | ⟨w, last, -, h⟩
        · obtain ⟨site, m', hSite, hMisses⟩ := consequence.exists_undefined around h
          exact ⟨site, m', .consequence hTest hv hSite, hMisses⟩
        · exact absurd h Undefined.not_ok
      · next hv =>
        rcases hBranch.bind_cases with h | ⟨w, last, -, h⟩
        · obtain ⟨site, m', hSite, hMisses⟩ := alternative.exists_undefined around h
          exact ⟨site, m', .alternative hTest (Bool.eq_false_iff.mpr hv) hSite, hMisses⟩
        · exact absurd h Undefined.not_ok
  | .loop condition body, m, h => by
    rw [Stmt.toNode, visit] at h
    rcases h.bind_cases with h | ⟨count, mid, -, h⟩
    · obtain ⟨mid, hRounds, h | ⟨v, tested, hTest, hv, h⟩⟩ := exists_undefined_round σ.rounds 0 h
      · obtain ⟨part, m', hPart, hMisses⟩ := condition.exists_undefined h
        exact ⟨⟨around, part⟩, m', .test hRounds hPart, hMisses⟩
      · obtain ⟨site, m', hSite, hMisses⟩ := body.exists_undefined around h
        exact ⟨site, m', .body hRounds hTest hv hSite, hMisses⟩
    · exact absurd (h.of_trace (condition.tellable_loopLine count)) Undefined.not_ok

/-- A run that ends with an undefined name has evaluated a site whose own
name it is. -/
theorem Stmt.exists_undefinedIn {σ : Settings} (outer : List (List Stmt)) (before : List Stmt) :
    (statements : List Stmt) → {m : Machine} →
    Undefined (visitAll σ (Stmt.toNodes statements) m) →
    ∃ site m', Stmt.EvaluatesIn σ outer before statements m site m' ∧ site.expr.Misses σ m'
  | [], m, h => by
    rw [Stmt.toNodes, visitAll] at h
    exact absurd h Undefined.not_ok
  | s :: rest, m, h => by
    rw [Stmt.toNodes, visitAll] at h
    rcases h.bind_cases with h | ⟨v, mid, hFirst, h⟩
    · obtain ⟨site, m', hSite, hMisses⟩ := s.exists_undefined (before :: outer) h
      exact ⟨site, m', .here hSite, hMisses⟩
    · obtain ⟨site, m', hSite, hMisses⟩ := Stmt.exists_undefinedIn outer (before ++ [s]) rest h
      exact ⟨site, m', .later hFirst hSite, hMisses⟩

end

/-! ## Programs that were read -/

/-- The token of the name that an expression itself reads or writes. -/
def Expr.reference? : Expr → Option Token
  | .variable t => some t
  | .assign t _ => some t
  | _ => none

/-- The name at a site, if there is one, resolves. -/
def Site.Resolved (globals : List Name) (site : Site) : Prop :=
  ∀ t ∈ site.expr.reference?, ∀ x, t.lexeme = .string x →
    (site.resolve? globals (.text x)).isSome

/-- What is evaluated at a site goes as the text says. -/
structure Site.Followed (σ : Settings) (globals : List Name) (site : Site) (m : Machine) :
    Prop where
  frames : m.scope.frames.length = site.around.length
  reads : ∀ t, site.expr = .variable t → ∃ x : String, t.lexeme = .string x ∧
    ReadsAt σ t x m (site.resolve? globals (.text x))
  writes : ∀ t value, site.expr = .assign t value → ∃ x : String, t.lexeme = .string x ∧
    WritesAt σ t value x m (site.resolve? globals (.text x))

theorem length_textNames (globals : List Name) (around : List (List Stmt)) :
    (textNames globals around).length = around.length := by
  induction around with
  | nil => rfl
  | cons before outer ih => rw [textNames, List.length_cons, ih, List.length_cons]

theorem Site.Shows.followed {globals : List Name} {site : Site} {m : Machine}
    (h : site.Shows globals m) (hSound : site.expr.Sound .ofSource) (σ : Settings) :
    site.Followed σ globals m := by
  refine ⟨?_, fun t ht => ?_, fun t value ht => ?_⟩
  · rw [← length_textNames globals, ← h.2, Scope.names, List.length_map]
  · rw [ht] at hSound
    obtain ⟨-, kind, x, literal, line, rfl⟩ := hSound
    exact ⟨x, rfl, h.readsAt σ kind x literal line⟩
  · rw [ht] at hSound
    obtain ⟨⟨-, kind, x, literal, line, rfl⟩, -⟩ := hSound
    exact ⟨x, rfl, h.writesAt σ kind x literal line value⟩

theorem Site.Followed.not_misses {σ : Settings} {globals : List Name} {site : Site} {m : Machine}
    (h : site.Followed σ globals m) (hResolved : site.Resolved globals) :
    ¬ site.expr.Misses σ m := by
  obtain ⟨around, e⟩ := site
  rintro ⟨hUndefined, hOwn⟩
  cases e with
  | «variable» t =>
    obtain ⟨x, hx, hReads⟩ := h.reads t rfl
    obtain ⟨i, hi⟩ := Option.isSome_iff_exists.mp (hResolved t rfl x hx)
    rw [hi] at hReads
    obtain ⟨f, v, -, -, hVisit⟩ := hReads
    rw [hVisit] at hUndefined
    exact Undefined.not_ok hUndefined
  | assign t value =>
    obtain ⟨x, hx, hWrites⟩ := h.writes t value rfl
    obtain ⟨i, hi⟩ := Option.isSome_iff_exists.mp (hResolved t rfl x hx)
    obtain ⟨v, mid, hValue⟩ := hOwn
    unfold WritesAt at hWrites
    rw [hi, hValue] at hWrites
    obtain ⟨f, ending, later, -, -, hVisit, hEnd⟩ := hWrites
    rw [hVisit] at hUndefined
    rcases hEnd with rfl | ⟨-, -, why, rfl⟩
    · exact Undefined.not_ok hUndefined
    · obtain ⟨t', y, last, hEnd⟩ := hUndefined
      cases hEnd
  | _ => exact hOwn

/-- The message about an undefined name is about nothing else: its third
letter tells it from all others. -/
theorem Misuse.message_eq_undefined {what : Misuse} {x : String}
    (h : what.message = (Misuse.undefined (.string x)).message) : ∃ y, what = .undefined y := by
  have hLetter : what.message.toList[2]? = some 'd' := by
    rw [h, Misuse.message_undefined rfl, String.toList_append, String.toList_append,
      List.append_assoc, List.getElem?_append_left (by decide)]
    rfl
  have hUnknown : ∀ (start : String) (lexeme : Json), (start.toList[2]? = some 'k') →
      ((lexeme.text?.map fun name => (start : Text) ++ name ++ "'.").getD "").escaped.toList[2]? ≠
        some 'd' := by
    intro start lexeme hStart
    cases lexeme.text? with
    | none => nofun
    | some name =>
      obtain ⟨hShort, -⟩ := List.getElem?_eq_some_iff.mp hStart
      rw [Option.map_some, Option.getD_some, Text.escaped_append, Text.escaped_append,
        Text.escaped_whole, String.toList_append, String.toList_append, List.append_assoc,
        List.getElem?_append_left hShort, hStart]
      decide
  cases what with
  | undefined y => exact ⟨y, rfl⟩
  | notNumbersOrStrings | notNumbers | notANumber => exact absurd hLetter (by decide)
  | unknownUnary lexeme => exact absurd hLetter (hUnknown "Unknown unary operator '" lexeme rfl)
  | unknownBinary lexeme => exact absurd hLetter (hUnknown "Unknown binary operator '" lexeme rfl)

namespace Session

theorem statementsOf_tidy (source : String) : Stmt.AllTidy (statementsOf source) := by
  obtain ⟨entries, rest, notes, hParse⟩ := parse_finishes _ (scan_ends source)
  obtain ⟨d, hTrees, -⟩ := exists_program _ (scan_ends source) hParse
  rw [statementsOf, hParse, Parse.entries, ← hTrees]
  exact d.allTidy

theorem names_opened {s : Session} (h : s.machine.scope.inner = []) (program : List Node) :
    (s.opened program).scope.names = textNames s.machine.scope.globals.names [[]] := by
  rw [opened, scope_trace, Scope.names, Scope.frames, h]
  rfl

/-- While a program that was read from a text is run from the global frame,
every expression is evaluated at a site of the text, with one frame for
each list around it. A variable there is read from, and an assignment whose
right side has a value writes to, the frame of the innermost list that
declares the name before the site, or the global frame if the name was
global before; and if neither is so, the name is undefined. Thus a program
whose names all resolve in the text never reports an undefined one. -/
theorem resolution_by_text (s : Session) (hGlobal : s.machine.scope.inner = []) (source : String) :
    let globals := s.machine.scope.globals.names
    let statements := statementsOf source
    (∀ site m, Stmt.EvaluatesIn s.settings [] [] statements (s.opened (programOf source)) site m →
      site ∈ Stmt.sitesIn [] [] statements ∧ site.Followed s.settings globals m) ∧
    ((∀ site ∈ Stmt.sitesIn [] [] statements, site.Resolved globals) →
      ∀ ds, (s.interpret (programOf source)).2.ledger.entries = s.ledger.entries ++ ds →
        ∀ line (x : String),
          Diagnostic.failure line (Misuse.undefined (.string x)).message ∉ ds) := by
  intro globals statements
  have hFollowed : ∀ site m, Stmt.EvaluatesIn s.settings [] [] statements
      (s.opened (programOf source)) site m →
      site ∈ Stmt.sitesIn [] [] statements ∧ site.Followed s.settings globals m := by
    intro site m h
    have hSound := Stmt.sound_of_mem_sitesIn [] [] statements
      (statementsOf_sound source (scan_ofSource source)) site h.mem_sitesIn
    have hShows := h.shows (statementsOf_tidy source) (names_opened hGlobal (programOf source))
    exact ⟨h.mem_sitesIn, hShows.followed hSound s.settings⟩
  refine ⟨hFollowed, fun hResolved ds hEntries line x hMem => ?_⟩
  rw [(Reports.interpret s (programOf source)).entries, List.append_cancel_left_eq] at hEntries
  rw [← hEntries, execution, present_programOf] at hMem
  have hUndefined : Undefined (visitAll s.settings (Stmt.toNodes statements)
      (s.opened (programOf source))) := by
    generalize visitAll s.settings (Stmt.toNodes statements) _ = result at hMem ⊢
    obtain ⟨ending, later⟩ := result
    cases ending using ending_cases with
    | failed t what =>
      rw [failure] at hMem
      split at hMem
      · rw [List.mem_singleton, Diagnostic.failure.injEq] at hMem
        obtain ⟨y, rfl⟩ := Misuse.message_eq_undefined hMem.2.symm
        exact ⟨t, y, later, rfl⟩
      · cases hMem
    | done | fault | misnomer | spent | unwritable => cases hMem
  obtain ⟨site, m, hSite, hMisses⟩ := Stmt.exists_undefinedIn [] [] statements hUndefined
  obtain ⟨hMem, hSite⟩ := hFollowed site m hSite
  exact hSite.not_misses (hResolved site hMem) hMisses

/-- Whether statements declare a name and print it, and do no more. -/
def declaresAndPrints (name : String) : List Stmt → Bool
  | [.var ⟨_, .string x, _, _⟩ none, .print (.variable ⟨_, .string y, _, _⟩)] =>
    x = name ∧ y = name
  | _ => false

theorem statementsOf_declared : ∃ t t', statementsOf "var a; print a;" =
      [.var t none, .print (.variable t')] ∧ t.lexeme = .string "a" ∧ t'.lexeme = .string "a" := by
  have hShape : declaresAndPrints "a" (statementsOf "var a; print a;") := by decide +kernel
  unfold declaresAndPrints at hShape
  split at hShape
  · next hStatements =>
    obtain ⟨rfl, rfl⟩ := of_decide_eq_true hShape
    exact ⟨_, _, hStatements, rfl, rfl⟩
  · cases hShape

/-- A name that is declared and then read. -/
theorem resolution_by_text_declared :
    let s := start ⟨0, 0⟩
    s.machine.scope.inner = [] ∧
    (∃ site m t, Stmt.EvaluatesIn s.settings [] [] (statementsOf "var a; print a;")
        (s.opened (programOf "var a; print a;")) site m ∧ site.expr = .variable t ∧
      t.lexeme = .string "a" ∧ ReadsAt s.settings t "a" m (some 0)) ∧
    (∀ site ∈ Stmt.sitesIn [] [] (statementsOf "var a; print a;"), site.Resolved []) ∧
    ∀ ds, (s.interpret (programOf "var a; print a;")).2.ledger.entries = s.ledger.entries ++ ds →
      ∀ line (x : String), Diagnostic.failure line (Misuse.undefined (.string x)).message ∉ ds := by
  intro s
  obtain ⟨t, t', hStatements, ht, ht'⟩ := statementsOf_declared
  obtain ⟨hFollowed, hNever⟩ := resolution_by_text s rfl "var a; print a;"
  rw [hStatements] at hFollowed hNever ⊢
  have hDeclares : (Stmt.var t none).declares (.text "a") = true := by
    rw [Stmt.declares, ht]
    rfl
  have hResolve : Site.resolve? [] ⟨[[.var t none]], .variable t'⟩ (.text "a") = some 0 := by
    simp [Site.resolve?, List.findIdx?_cons, hDeclares]
  have hResolved : ∀ site ∈ Stmt.sitesIn [] [] [.var t none, .print (.variable t')],
      site.Resolved [] := by
    intro site hSite
    obtain rfl : site = ⟨[[.var t none]], .variable t'⟩ := by
      simpa [Stmt.sitesIn, Stmt.sites, Expr.sites, Expr.parts] using hSite
    rintro _ ⟨⟩ x hx
    rw [ht'] at hx
    cases hx
    rw [hResolve]
    rfl
  refine ⟨rfl, ?_, hResolved, hNever hResolved⟩
  obtain ⟨mid, hFirst⟩ : ∃ mid, visit s.settings (Stmt.var t none).toNode
      (s.opened (programOf "var a; print a;")) = (.ok .nil, mid) := by
    rw [Stmt.toNode, Expr.toNode?, visit, Node.token?, Run.required_some, Run.define, Run.nameOf,
      ht]
    exact ⟨_, rfl⟩
  have hSite : Stmt.EvaluatesIn s.settings [] [] [.var t none, .print (.variable t')]
      (s.opened (programOf "var a; print a;")) ⟨[[.var t none]], .variable t'⟩ mid :=
    .later hFirst (.here (.print (.self _ mid)))
  obtain ⟨x, hx, hReads⟩ := (hFollowed _ mid hSite).2.reads t' rfl
  rw [ht'] at hx
  cases hx
  rw [show s.machine.scope.globals.names = [] from rfl, hResolve] at hReads
  exact ⟨_, mid, t', hSite, rfl, ht', hReads⟩

/-- Whether the one statement assigns to a name what an operator makes of
nil. -/
def assignsOfNil (name : String) (kind : Kind) : List Stmt → Bool
  | [.expression (.assign ⟨_, .string x, _, _⟩ (.unary operator (.literal .nil)))] =>
    x = name ∧ operator.kind = kind
  | _ => false

theorem statementsOf_failing : ∃ t operator, statementsOf "x = -nil;" =
      [.expression (.assign t (.unary operator (.literal .nil)))] ∧
      t.lexeme = .string "x" ∧ operator.kind = .minus := by
  have hShape : assignsOfNil "x" .minus (statementsOf "x = -nil;") := by decide +kernel
  unfold assignsOfNil at hShape
  split at hShape
  · next operator hStatements =>
    obtain ⟨rfl, hOperator⟩ := of_decide_eq_true hShape
    exact ⟨_, operator, hStatements, rfl, hOperator⟩
  · cases hShape

/-- An assignment to a name that does not resolve need not end with an
undefined name: its right side comes first and may end in another error. -/
theorem right_side_fails_first :
    let s := start ⟨0, 0⟩
    (∃ site m t value, Stmt.EvaluatesIn s.settings [] [] (statementsOf "x = -nil;")
        (s.opened (programOf "x = -nil;")) site m ∧ site.expr = .assign t value ∧
      t.lexeme = .string "x" ∧ site.resolve? s.machine.scope.globals.names (.text "x") = none ∧
      ¬ Undefined (visit s.settings site.expr.toNode m)) ∧
    (s.run "x = -nil;").2.ledger.messages = ["Operand must be a number.\n[line 1]"] := by
  intro s
  obtain ⟨t, operator, hStatements, ht, hOperator⟩ := statementsOf_failing
  refine ⟨?_, by decide +kernel⟩
  rw [hStatements]
  have hMinus : applyUnary operator .nil = .error .notANumber := by
    unfold applyUnary
    rw [hOperator]
    rfl
  have hRight : ∀ m, visit s.settings (Expr.unary operator (.literal .nil)).toNode m =
      (.error (.error operator .notANumber), m) := by
    intro m
    rw [Expr.toNode, Expr.toNode, visit, visit, Node.token?]
    show Run.ofResult operator (applyUnary operator .nil) m = _
    rw [hMinus]
    rfl
  refine ⟨⟨[[]], .assign t (.unary operator (.literal .nil))⟩, s.opened (programOf "x = -nil;"), t,
    _, .here (.expression (.self _ _)), rfl, ht, rfl, ?_⟩
  rw [Expr.toNode, visit, Run.bind_of_error (hRight _)]
  rintro ⟨t', x, later, ⟨⟩⟩

end Session

end Treewalk
