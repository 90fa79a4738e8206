import Treewalk.Machine.Visit
import Treewalk.Token.Scan
import Treewalk.Tree.Grammar

/-!
# Sessions

A session runs source texts one after the other against one global frame
and one ledger of diagnostics. A text with a mistake is not run, and
neither is any later one until the ledger is cleared; a run-time error
ends only the run it arose in. At a prompt every line starts with a clear
ledger, so lines share the globals and nothing else.
-/

namespace Treewalk

/-- How a session step ends. -/
inductive Ending where
  | finished
  /-- A malformed tree was visited. -/
  | fault
  /-- What stood for a variable's name was no name. -/
  | misnomer
  /-- A loop was not finished in the rounds it was given. -/
  | spent
  /-- A text could not be made or written. -/
  | unwritable (why : Flaw)
deriving DecidableEq, Repr

/-- What lives from one source text to the next. -/
structure Session where
  settings : Settings
  machine : Machine := {}
  ledger : Ledger := .empty

namespace Session

/-- A session in which nothing has happened. -/
def start (settings : Settings) : Session :=
  ⟨settings, {}, .empty⟩

/-- What was written, in order. -/
def events (s : Session) : List Event :=
  s.machine.log.reverse

/-- The session with what was written forgotten. -/
def drained (s : Session) : Session :=
  { s with machine := { s.machine with log := [] } }

/-- The session with a clear ledger. -/
def reset (s : Session) : Session :=
  { s with ledger := .empty }

/-- Write an event. -/
def write (s : Session) (e : Event) : Session :=
  { s with machine := { s.machine with log := e :: s.machine.log } }

/-- Write a line of the trace if the verbosity reaches a level. -/
def trace (s : Session) (level : Nat) (line : String) : Session :=
  if level ≤ s.settings.verbosity then s.write (.traced line) else s

/-- Enter a diagnostic in the ledger and write it. -/
def report (s : Session) (d : Diagnostic) : Session :=
  { s with ledger := s.ledger.add d }.write (.reported d.message)

/-- Enter and write several diagnostics. -/
def reportAll (s : Session) (ds : List Diagnostic) : Session :=
  ds.foldl report s

/-- The status a process ends with: a mistake weighs more than a failed
run. -/
def status (s : Session) : Nat :=
  if s.ledger.hadError then 65 else if s.ledger.hadRuntimeError then 70 else 0

/-- The declarations of a source text, mistakes reported. -/
def parse (s : Session) (source : String) : List (Option Stmt) × Session :=
  let found := scan source
  let s := s.reportAll found.diagnostics
  let s := s.trace 4 ("scanned " ++ toString found.tokens.length ++ " token(s)")
  let result := Treewalk.parse found.tokens
  let s := s.reportAll (result.notes.map Complaint.diagnostic)
  let failed := result.entries.countP Option.isNone
  let s := s.trace 4 ("parsed " ++ toString result.entries.length ++ " declaration(s), "
    ++ toString failed ++ " failed")
  (result.entries, s)

/-- The entries of a program that are there. -/
def present (program : List Node) : List Node :=
  program.filter fun
    | .absent => false
    | _ => true

/-- Trace and report the error that ended a run. Without a text there is
neither a line of the trace nor a report; a text with a half in it can be
reported, but not traced, and the trace comes first. -/
def fail (s : Session) (t : Token) (what : Misuse) : Except Flaw Session :=
  match failureLine t what with
  | none => .error .longInteger
  | some (.whole line) => .ok ((s.trace 1 line).report (.failure t.line what.message))
  | some (.torn _) =>
    if 1 ≤ s.settings.verbosity then .error .half
    else .ok (s.report (.failure t.line what.message))

/-- Run a program. A run-time error ends the run and is reported; missing
entries are passed over. -/
def interpret (s : Session) (program : List Node) : Ending × Session :=
  let s := s.trace 1 ("interpret " ++ toString program.length ++ " statement(s)")
  let (ending, machine) := visitAll s.settings (present program) s.machine
  let s := { s with machine := machine }
  match ending with
  | .ok _ => (.finished, s)
  | .error (.error t what) =>
    match s.fail t what with
    | .ok s => (.finished, s)
    | .error why => (.unwritable why, s)
  | .error .fault => (.fault, s)
  | .error .misnomer => (.misnomer, s)
  | .error .spent => (.spent, s)
  | .error (.unwritable why) => (.unwritable why, s)

/-- Run a source text, unless a mistake is in the ledger. -/
def run (s : Session) (source : String) : Ending × Session :=
  let (entries, s) := s.parse source
  if s.ledger.hadError then (.finished, s)
  else s.interpret (entries.map Stmt.toNode?)

/-- The line that ends a prompt. -/
def exitCommand : String := "exit"

/-- What a prompt leaves: how it ended, the lines it did not read, and the
session. -/
structure Farewell where
  ending : Ending
  unread : List String
  session : Session

/-- Read and run lines until the exit command or the end of input. -/
def converse (s : Session) : List String → Farewell
  | [] => ⟨.finished, [], s.write .prompted⟩
  | line :: rest =>
    let s := s.write .prompted
    if line = exitCommand then ⟨.finished, rest, s⟩
    else
      match s.reset.run line with
      | (.finished, s) => s.converse rest
      | (ending, s) => ⟨ending, rest, s⟩

end Session

end Treewalk
