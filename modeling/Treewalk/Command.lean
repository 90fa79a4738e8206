import Treewalk.Session
import Treewalk.Tree.Codec
import Treewalk.Tree.Text
import Treewalk.Json.Reader
import Treewalk.Json.Writer
import Treewalk.Text.Lines
import Treewalk.Command.Request
import Treewalk.Command.Store

/-!
# The command

From arguments, stored files and the user's input to a status, what was
written, and the files as they are afterwards. The command reads one file
at most: a script to run, to print or to turn into a tree file, or a tree
file to run; without one it holds a prompt. With `-v` the trace goes to a
file of its own, which is emptied before anything else is looked at.
-/

namespace Treewalk.Command

/-- What ends the command without a status. -/
inductive Escape where
  /-- A malformed tree was visited. -/
  | fault
  /-- What stood for a variable's name was no name. -/
  | misnomer
  /-- A loop was not finished in the rounds it was given. -/
  | spent
  /-- The file to read, or to write, is a directory. -/
  | directory
  /-- The name of the file to read, or to write, is too long. -/
  | overlong
  /-- The bytes of a file are no text. -/
  | undecodable
  /-- A tree file holds no JSON value. -/
  | notJson
  /-- A tree file holds an integer of too many digits. -/
  | longInteger
  /-- A text could not be made or written. -/
  | unwritable (why : Flaw)
  /-- A tree file holds a value that is no program. -/
  | load (e : LoadError)
deriving DecidableEq, Repr

/-- How the command ends. -/
inductive Outcome where
  | exited (status : Nat)
  | escaped (e : Escape)
  /-- The arguments were not accepted. -/
  | refused (r : Refusal)
deriving DecidableEq, Repr

/-- What a request comes to: the work, and the file it is about. -/
inductive Task where
  | emit (p : Path)
  | load (p : Path)
  | display (p : Path)
  | script (p : Path)
  | prompt

/-- The work of a request. An option with an empty file name counts as
not given. -/
def Request.task (r : Request) : Task :=
  let otherwise : Task :=
    match r.scripts with
    | [] => .prompt
    | text :: _ => .script (.ofText text)
  match r.chosen with
  | some (m, file) =>
    if file.isEmpty then otherwise
    else
      match m with
      | .emit => .emit (.ofText file)
      | .load => .load (.ofText file)
      | .display => .display (.ofText file)
  | none => otherwise

/-- What the arguments come to. -/
inductive Plan where
  /-- The arguments are not accepted. -/
  | refuse (r : Refusal)
  /-- There are several scripts, and the command says what it takes. -/
  | explain
  | perform (verbosity : Nat) (task : Task)

/-- The plan that arguments make. -/
def Plan.ofArguments (args : List String) : Plan :=
  match Request.ofArguments args with
  | .error r => .refuse r
  | .ok request =>
    if 1 < request.scripts.length then .explain else .perform request.verbosity request.task

/-- What a task leaves: how it ended, the session, and the tree file it
wrote, if it wrote one. -/
structure Performance where
  outcome : Outcome
  session : Session
  written : Option (Path × String) := none

/-- A step of a session that ended, with the status if it finished. -/
def Performance.ofEnding (status : Session → Nat) (result : Ending × Session) : Performance :=
  let (ending, session) := result
  match ending with
  | .finished => { outcome := .exited (status session), session }
  | .fault => { outcome := .escaped .fault, session }
  | .misnomer => { outcome := .escaped .misnomer, session }
  | .spent => { outcome := .escaped .spent, session }
  | .unwritable why => { outcome := .escaped (.unwritable why), session }

/-- Read the text of what was found at a path, line ends unified, and go
on with it. -/
def withText (session : Session) (p : Path) (found : Entry) (next : String → Performance) :
    Performance :=
  match found with
  | .missing =>
    let complaint := "Error: file " ++ p.text ++ " not found"
    { outcome := .exited 66, session := session.write (.reported complaint) }
  | .directory => { outcome := .escaped .directory, session }
  | .overlong => { outcome := .escaped .overlong, session }
  | .file contents =>
    match String.fromUTF8? contents with
    | none => { outcome := .escaped .undecodable, session }
    | some text => next (unifyNewlines text)

/-- The tree file beside a script. -/
def treePath (p : Path) : Path :=
  p.extended ".ast.json"

/-- Write the tree of a script to a file beside it. -/
def emit (session : Session) (look : Path → Entry) (p : Path) (source : String) : Performance :=
  let (entries, session) := session.parse source
  if session.ledger.hadError then { outcome := .exited 65, session }
  else
    let target := treePath p
    let json := Node.programToJson (entries.map Stmt.toNode?)
    match look target with
    | .directory => { outcome := .escaped .directory, session }
    | .overlong => { outcome := .escaped .overlong, session }
    | .missing | .file _ =>
      { outcome := .exited 0, session := session.write (.printed target.text),
        written := some (target, json.render) }

/-- Run a tree file. -/
def load (session : Session) (text : String) : Performance :=
  match Json.parse text with
  | .error .malformed => { outcome := .escaped .notJson, session }
  | .error .longInteger => { outcome := .escaped .longInteger, session }
  | .ok json =>
    match Node.programOfJson json with
    | .error e => { outcome := .escaped (.load e), session }
    | .ok program => .ofEnding Session.status (session.interpret program)

/-- Print the tree of a script, entry by entry. -/
def display (session : Session) (source : String) : Performance :=
  let (entries, session) := session.parse source
  let texts := entries.filterMap fun entry => (Stmt.toNode? entry).entryText?
  let session := texts.foldl (fun s text => s.write (.printed text)) session
  { outcome := .exited session.status, session }

/-- Do the work of a task, given what is found at a path. -/
def perform (session : Session) (look : Path → Entry) (input : List String) : Task → Performance
  | .emit p => withText session p (look p) (emit session look p)
  | .load p => withText session p (look p) (load session)
  | .display p => withText session p (look p) (display session)
  | .script p =>
    withText session p (look p) fun source => .ofEnding Session.status (session.run source)
  | .prompt =>
    let farewell := session.converse input
    .ofEnding (fun _ => 0) (farewell.ending, farewell.session)

/-! ## On a store -/

/-- What the command leaves. -/
structure Report where
  outcome : Outcome
  output : Text
  errors : String
  store : Store

/-- The file the trace goes to. -/
def tracePath : Path := .ofText "debug.txt"

/-- The report of a task that was performed. -/
def Report.ofPerformance (store : Store) (result : Performance) : Report :=
  let store :=
    match result.written with
    | some (p, text) => (store.write? p text).getD store
    | none => store
  let events := result.session.events
  ⟨result.outcome, Event.dialogue events, Event.errors events, store⟩

/-- The report of a task performed with the trace in its file. -/
def Report.traced (session : Session) (store : Store) (input : List String) (task : Task) :
    Report :=
  match store.write? tracePath "" with
  | none => ⟨.escaped .directory, "", "", store⟩
  | some store =>
    let result := perform session store.entry input task
    let report := Report.ofPerformance store result
    let trace := Event.trace result.session.events
    { report with store := (report.store.write? tracePath trace).getD report.store }

/-- What the command prints when it is given several scripts. -/
def usageText : String := "Usage: lox [script]\n"

/-- The command: how often a loop may go round, its arguments, the files
it can reach, and the user's input. -/
def run (rounds : Nat) (args : List String) (store : Store) (input : String) : Report :=
  match Plan.ofArguments args with
  | .refuse r => ⟨.refused r, "", "", store⟩
  | .explain => ⟨.exited 64, usageText, "", store⟩
  | .perform verbosity task =>
    let session := Session.start ⟨verbosity, rounds⟩
    let input := lines (unifyNewlines input)
    if 0 < verbosity then Report.traced session store input task
    else Report.ofPerformance store (perform session store.entry input task)

end Treewalk.Command
