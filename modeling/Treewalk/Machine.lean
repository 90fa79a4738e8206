import Treewalk.Token
import Treewalk.Scope

/-!
# The machine

What a running program changes: the scope, and the log of what it wrote.
A run is a function from machine to machine that also says how it ended:
with a value, or by a halt. A run-time error belongs to the program and
carries the token it is about; a fault and a misnomer belong to a
malformed tree; a text that cannot be made or written belongs to what a
tree was loaded with; the last halt says that a loop was not given rounds
enough, and nothing about the program.

Standard output is handed any text as it is. The file of the trace is a
file of UTF-8 and takes whole texts only. A line of the trace is put
together where the verbosity asks for it and nowhere else, so it is there
alone that one can fail.

Whatever the ending, the machine is the one the run left behind: halting
takes nothing back.
-/

namespace Treewalk

/-- One thing written. -/
inductive Event where
  /-- A line a program printed. -/
  | printed (line : Text)
  /-- A diagnostic. -/
  | reported (text : String)
  /-- A line of the trace. -/
  | traced (line : String)
  /-- The mark before a line is read from the user. -/
  | prompted
deriving DecidableEq, Repr

/-- The mark before a line is read from the user. -/
def promptText : String := "> "

namespace Event

/-- What programs printed. -/
def output (events : List Event) : Text :=
  Text.join (events.map fun
    | .printed line => line ++ "\n"
    | _ => "")

/-- The diagnostics. -/
def errors (events : List Event) : String :=
  String.join (events.map fun
    | .reported text => text ++ "\n"
    | _ => "")

/-- The trace. -/
def trace (events : List Event) : String :=
  String.join (events.map fun
    | .traced line => line ++ "\n"
    | _ => "")

/-- What programs printed, with the trace between it. -/
def outputAndTrace (events : List Event) : Text :=
  Text.join (events.map fun
    | .printed line => line ++ "\n"
    | .traced line => Text.whole line ++ "\n"
    | _ => "")

/-- What programs printed, with the prompt marks between it. -/
def dialogue (events : List Event) : Text :=
  Text.join (events.map fun
    | .printed line => line ++ "\n"
    | .prompted => promptText
    | _ => "")

end Event

/-- What a program did wrong. -/
inductive Misuse where
  | notNumbersOrStrings
  | notNumbers
  | notANumber
  | undefined (lexeme : Json)
  | unknownUnary (lexeme : Json)
  | unknownBinary (lexeme : Json)

/-- The wording of a run-time error, if the lexeme in it has a text. -/
def Misuse.text? : Misuse → Option Text
  | notNumbersOrStrings => some "Operands must be two numbers or two strings."
  | notNumbers => some "Operands must be numbers."
  | notANumber => some "Operand must be a number."
  | undefined lexeme => lexeme.text?.map fun name => "Undefined variable '" ++ name ++ "'."
  | unknownUnary lexeme =>
    lexeme.text?.map fun name => "Unknown unary operator '" ++ name ++ "'."
  | unknownBinary lexeme =>
    lexeme.text?.map fun name => "Unknown binary operator '" ++ name ++ "'."

/-- The wording of a run-time error in a diagnostic. -/
def Misuse.message (what : Misuse) : String :=
  (what.text?.getD "").escaped

/-- Why a text cannot be made or written. -/
inductive Flaw where
  /-- An integer in it has too many digits. -/
  | longInteger
  /-- Half of a surrogate pair stands alone in it. -/
  | half
deriving DecidableEq, Repr

/-- How a run can end without a value. -/
inductive Halt where
  /-- A run-time error and the token it is about. -/
  | error (t : Token) (what : Misuse)
  /-- A tree was malformed where it was visited. -/
  | fault
  /-- What stands for a variable's name is no name. -/
  | misnomer
  /-- A loop was not finished in the rounds it was given. -/
  | spent
  /-- A text could not be made or written. -/
  | unwritable (why : Flaw)

/-- The halt of a run-time error. Its wording is put together first, and
that may fail. -/
def Halt.ofMisuse (t : Token) (what : Misuse) : Halt :=
  match what.text? with
  | some _ => .error t what
  | none => .unwritable .longInteger

/-- The halt about a variable that is not defined, and the token that
names it. -/
def Halt.undefined (t : Token) : Halt :=
  .ofMisuse t (.undefined t.lexeme)

theorem Misuse.message_undefined {lexeme : Json} {name : Text} (h : lexeme.text? = some name) :
    (Misuse.undefined lexeme).message = "Undefined variable '" ++ lexeme.shown ++ "'." := by
  rw [message, text?, h, Json.shown_of_text? h, Option.map_some, Option.getD_some,
    Text.escaped_append, Text.escaped_append]
  rfl

theorem Halt.undefined_of_text {t : Token} {name : Text} (h : t.lexeme.text? = some name) :
    Halt.undefined t = .error t (.undefined t.lexeme) := by
  rw [undefined, ofMisuse, Misuse.text?, h]
  rfl

/-- A text that may not be there, and the halt for it. -/
def spelled : Option Text → Except Halt Text
  | some text => .ok text
  | none => .error (.unwritable .longInteger)

/-- A line of the trace: only a whole text can be written to its file. -/
def writable : Except Halt Text → Except Halt String
  | .ok (.whole line) => .ok line
  | .ok (.torn _) => .error (.unwritable .half)
  | .error h => .error h

/-- What a running program changes. -/
structure Machine where
  scope : Scope := .empty
  /-- What was written, the latest first. -/
  log : List Event := []

/-- What a run needs to know and cannot change. -/
structure Settings where
  /-- How much is traced: nothing at zero, all at four. -/
  verbosity : Nat := 0
  /-- How often a single loop may go round. -/
  rounds : Nat

/-- A run: how it ends, and the machine it leaves behind. -/
def Run (α : Type) : Type :=
  Machine → Except Halt α × Machine

namespace Run

variable {α β : Type}

/-- A run that does nothing and ends with a value. -/
@[inline] def done (value : α) : Run α :=
  fun m => (.ok value, m)

/-- A run that halts. -/
@[inline] def halt (h : Halt) : Run α :=
  fun m => (.error h, m)

/-- A run, and if it ends with a value the run that goes on from it. -/
@[inline] def andThen (run : Run α) (next : α → Run β) : Run β :=
  fun m =>
    match run m with
    | (.ok value, m) => next value m
    | (.error h, m) => (.error h, m)

instance : Monad Run where
  pure := done
  bind := andThen

/-- Write an event. -/
def write (e : Event) : Run Unit :=
  fun m => (.ok (), { m with log := e :: m.log })

/-- Write a line, if there is one to be written. -/
def writeLine {γ : Type} (event : γ → Event) (line : Except Halt γ) : Run Unit :=
  match line with
  | .ok line => write (event line)
  | .error h => halt h

/-- Print a value. -/
def print (v : Value) : Run Unit :=
  writeLine .printed (spelled v.text?)

/-- Write a line of the trace if the verbosity reaches a level. Else it is
not even put together. -/
@[macro_inline] def trace (settings : Settings) (level : Nat) (line : Except Halt Text) :
    Run Unit :=
  if level ≤ settings.verbosity then writeLine .traced (writable line) else done ()

/-- The token a node is, where only a token will do. -/
def required (t? : Option Token) : Run Token :=
  match t? with
  | some t => done t
  | none => halt .fault

/-- The name a token spells, where only a name will do. -/
def nameOf (t : Token) : Run Name :=
  match Name.ofJson? t.lexeme with
  | some name => done name
  | none => halt .misnomer

/-- Halt because the variable a token names is not defined. -/
def undefined (t : Token) : Run α :=
  halt (.undefined t)

/-- The value of the variable a token names. -/
def lookup (t : Token) : Run Value := do
  let name ← nameOf t
  fun m =>
    match m.scope.get? name with
    | some v => (.ok v, m)
    | none => undefined t m

/-- Bind the name a token spells in the innermost frame. -/
def define (t : Token) (v : Value) : Run Unit := do
  let name ← nameOf t
  fun m => (.ok (), { m with scope := m.scope.define name v })

/-- Put a value in place of the binding of the variable a token names. -/
def assign (t : Token) (v : Value) : Run Unit := do
  let name ← nameOf t
  fun m =>
    match m.scope.assign? name v with
    | some scope => (.ok (), { m with scope := scope })
    | none => undefined t m

/-- How many frames stand before the global one. -/
def depth : Run Nat :=
  fun m => (.ok m.scope.depth, m)

/-- A run in a fresh frame, which is dropped however the run ends. -/
def inFrame (run : Run α) : Run α :=
  fun m =>
    let (ending, m) := run { m with scope := m.scope.push }
    (ending, { m with scope := m.scope.pop })

/-- Run `body` as long as `test` holds, at most `rounds` times, and count
the rounds. -/
def repeatWhile (test : Run Bool) (body : Run Unit) : (rounds : Nat) → (count : Nat) → Run Nat
  | 0, _ => halt .spent
  | rounds + 1, count => fun m =>
    match test m with
    | (.ok true, m) =>
      match body m with
      | (.ok _, m) => repeatWhile test body rounds (count + 1) m
      | (.error h, m) => (.error h, m)
    | (.ok false, m) => (.ok count, m)
    | (.error h, m) => (.error h, m)

end Run

end Treewalk
