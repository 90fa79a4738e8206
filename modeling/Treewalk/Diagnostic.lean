import Treewalk.Token

/-!
# Diagnostics and the ledger

A diagnostic is a mistake found in a source text, or the error that ended
a run. The ledger holds the diagnostics since it was last cleared, oldest
first; whether there was an error of either kind, and what was written
about it, is read off the ledger and kept nowhere else.

A reporter that keeps two flags and the messages apart, and changes each
of them as it reports, has at any time what is read off the ledger
(`Ledger.reporter_add`). That its flags are clear exactly as long as it has
no messages holds from the start and behind each of its reports
(`Ledger.messages_eq_nil_iff`).
-/

namespace Treewalk

/-- A report to the user. -/
inductive Diagnostic where
  /-- A mistake in a text: its line, where on it, and what it is. -/
  | mistake (line : Json) (place : String) (what : String)
  /-- The error that ended a run, and the line it arose on. -/
  | failure (line : Json) (what : String)

namespace Diagnostic

/-- A mistake that no token marks. -/
def onLine (line : Json) (what : String) : Diagnostic :=
  .mistake line "" what

/-- A mistake marked by a token. -/
def atToken (t : Token) (what : String) : Diagnostic :=
  .mistake t.line (if t.kind = .eof then " at end" else " at '" ++ t.lexeme.shown ++ "'") what

/-- Whether a diagnostic is about a text, not about a run. -/
def isMistake : Diagnostic → Bool
  | .mistake .. => true
  | .failure .. => false

/-- The text of a diagnostic. -/
def message : Diagnostic → String
  | .mistake line place what =>
    "[line " ++ line.shown ++ "] Error" ++ place ++ ": " ++ what
  | .failure line what => what ++ "\n[line " ++ line.shown ++ "]"

end Diagnostic

/-- The diagnostics since the ledger was last cleared, oldest first. -/
structure Ledger where
  entries : List Diagnostic := []

namespace Ledger

/-- A ledger without entries. -/
def empty : Ledger := ⟨[]⟩

/-- The ledger with one more entry. -/
def add (ledger : Ledger) (d : Diagnostic) : Ledger :=
  ⟨ledger.entries ++ [d]⟩

/-- Whether some text had a mistake. -/
def hadError (ledger : Ledger) : Bool :=
  ledger.entries.any Diagnostic.isMistake

/-- Whether some run ended in an error. -/
def hadRuntimeError (ledger : Ledger) : Bool :=
  ledger.entries.any fun d => !d.isMistake

/-- What was written, entry by entry. -/
def messages (ledger : Ledger) : List String :=
  ledger.entries.map Diagnostic.message

end Ledger

/-! ## Flags and messages kept apart -/

/-- What a reporter keeps. -/
structure Reporter where
  hadError : Bool := false
  hadRuntimeError : Bool := false
  messages : List String := []

namespace Reporter

/-- Write a message. -/
def write (r : Reporter) (message : String) : Reporter :=
  { r with messages := r.messages ++ [message] }

/-- Report a mistake in a text. -/
def report (r : Reporter) (line : Json) (place what : String) : Reporter :=
  { r.write ("[line " ++ line.shown ++ "] Error" ++ place ++ ": " ++ what) with hadError := true }

/-- Report the error that ended a run. -/
def runtimeError (r : Reporter) (line : Json) (what : String) : Reporter :=
  { r.write (what ++ "\n[line " ++ line.shown ++ "]") with hadRuntimeError := true }

/-- Forget all that was reported. -/
def reset (_ : Reporter) : Reporter :=
  {}

/-- Report a diagnostic. -/
def enter (r : Reporter) : Diagnostic → Reporter
  | .mistake line place what => r.report line place what
  | .failure line what => r.runtimeError line what

/-- There is no message exactly if no flag is set. -/
def Balanced (r : Reporter) : Prop :=
  r.messages = [] ↔ r.hadError = false ∧ r.hadRuntimeError = false

theorem balanced_reset (r : Reporter) : r.reset.Balanced := by
  simp [Balanced, reset]

theorem balanced_enter (r : Reporter) (d : Diagnostic) : (r.enter d).Balanced := by
  cases d <;> simp [Balanced, enter, report, runtimeError, write]

end Reporter

namespace Ledger

/-- The flags and messages read off a ledger. -/
def reporter (ledger : Ledger) : Reporter :=
  ⟨ledger.hadError, ledger.hadRuntimeError, ledger.messages⟩

/-- A clear ledger is that of a reporter that was reset. -/
theorem reporter_empty (r : Reporter) : empty.reporter = r.reset := rfl

/-- An entry changes what is read off a ledger as its report changes a
reporter. -/
theorem reporter_add (ledger : Ledger) (d : Diagnostic) :
    (ledger.add d).reporter = ledger.reporter.enter d := by
  cases d <;> simp [reporter, add, hadError, hadRuntimeError, messages, Reporter.enter,
    Reporter.report, Reporter.runtimeError, Reporter.write, Diagnostic.isMistake,
    Diagnostic.message]

/-- A ledger is that of a reporter that made its reports one by one. -/
theorem reporter_eq_foldl (ledger : Ledger) :
    ledger.reporter = ledger.entries.foldl Reporter.enter empty.reporter := by
  suffices h : ∀ (entries : List Diagnostic) (ledger : Ledger),
      reporter ⟨ledger.entries ++ entries⟩ = entries.foldl Reporter.enter ledger.reporter by
    exact h ledger.entries empty
  intro entries
  induction entries with
  | nil =>
    intro ledger
    rw [List.append_nil]
    rfl
  | cons d rest ih =>
    intro ledger
    rw [List.foldl_cons, ← reporter_add, ← ih, add, List.append_assoc]
    rfl

/-- The flags of a ledger are clear exactly as long as it has no messages. -/
theorem messages_eq_nil_iff (ledger : Ledger) :
    ledger.messages = [] ↔ ledger.hadError = false ∧ ledger.hadRuntimeError = false := by
  have hBalanced : ledger.reporter.Balanced := by
    rw [reporter_eq_foldl, reporter_empty {}]
    exact List.foldlRecOn ledger.entries Reporter.enter (Reporter.balanced_reset {})
      fun r _ d _ => r.balanced_enter d
  exact hBalanced

end Ledger

end Treewalk
