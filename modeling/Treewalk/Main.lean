import Treewalk.Command

/-!
# The program

The thin layer between `Command` and the world: it looks up the files a
task is about, holds the prompt line by line, and writes what the command
says is to be written.
-/

namespace Treewalk.Main

open Command

/-- How often a single loop may go round. -/
def rounds : Nat := Nat.pow 10 18

/-- The number the system gives to reading a directory. -/
def readsDirectory : UInt32 := 21

/-- What a path leads to on disk. -/
def lookAt (p : Path) : IO Entry := do
  try
    let contents ← IO.FS.readBinFile p.text
    return .file contents
  catch
    | .noFileOrDirectory .. => return .missing
    | .inappropriateType _ code _ =>
      return if code = readsDirectory then .directory else .missing
    | .invalidArgument .. => return .overlong
    | _ => return .directory

/-- The path a task reads. -/
def readPath? : Task → Option Path
  | .emit p | .load p | .display p | .script p => some p
  | .prompt => none

/-- Write what a session wrote to the streams and the trace file, and
forget it. -/
def flush (session : Session) : IO Session := do
  let events := session.events
  let out ← IO.getStdout
  out.putStr (Event.dialogue events).escaped
  out.flush
  (← IO.getStderr).putStr (Event.errors events)
  if 0 < session.settings.verbosity then
    let trace ← IO.FS.Handle.mk tracePath.text .append
    trace.putStr (Event.trace events)
  return session.drained

/-- The line a user typed, without its line end. -/
def readLine : IO (Option String) := do
  let line ← (← IO.getStdin).getLine
  if line.isEmpty then return none
  return (lines (unifyNewlines line)).head?.getD ""

/-- Hold the prompt until the exit command or the end of input. -/
partial def prompt (session : Session) : IO Session := do
  let session ← flush (session.write .prompted)
  match ← readLine with
  | none => return session
  | some line =>
    if line = Session.exitCommand then return session
    let (ending, session) := session.reset.run line
    if ending = .finished then prompt session else flush session

/-- What is shown about an escape. -/
def escapeText : Escape → String
  | .fault => "malformed tree"
  | .misnomer => "malformed name"
  | .spent => "loop not finished"
  | .directory => "is a directory"
  | .overlong => "file name too long"
  | .undecodable => "not a text file"
  | .notJson => "not a JSON file"
  | .longInteger | .unwritable .longInteger => "integer too long"
  | .unwritable .half => "half of a surrogate pair"
  | .load e => e.message?.getD "not a program"

/-- Perform a task on the files on disk. -/
def performOnDisk (session : Session) (task : Task) : IO UInt32 := do
  let found ← match readPath? task with
    | some p => lookAt p
    | none => pure .missing
  let target ← match task with
    | .emit p => lookAt (treePath p)
    | _ => pure .missing
  let look (p : Path) : Entry := if readPath? task = some p then found else target
  let result := perform session look [] task
  if let some (p, text) := result.written then
    IO.FS.writeFile p.text text
  let _ ← flush result.session
  match result.outcome with
  | .exited status => return status.toUInt32
  | .escaped e =>
    IO.eprintln (escapeText e)
    return 1
  | .refused _ => return 2

end Treewalk.Main

open Treewalk Command Main in
/-- Run the command. -/
def main (args : List String) : IO UInt32 := do
  match Plan.ofArguments args with
  | .refuse .help =>
    IO.print usageText
    return 0
  | .refuse .usage =>
    IO.eprint usageText
    return 2
  | .explain =>
    IO.print usageText
    return 64
  | .perform verbosity task =>
    let session := Session.start ⟨verbosity, rounds⟩
    if 0 < verbosity then IO.FS.writeFile tracePath.text ""
    match task with
    | .prompt =>
      let _ ← prompt session
      return 0
    | task => performOnDisk session task
