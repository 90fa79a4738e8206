import Treewalk.Text.DecimalDigit

/-!
# Requests: what the arguments ask for

The command takes a count of `-v`, at most one of three options that name
a file, and scripts. A word is classified on its own first (`Word.ofText`)
and read in order then (`Reading.read`): options may stand between
scripts, but the scripts themselves stand together; long options may be
cut short where that leaves one choice; short ones may be written
together; behind `--` every word is a script.

A word that could be several options is refused before anything else.
Otherwise reading stops at the first refusal, and a word that means
nothing is refused only at the end, so that asking for help still works
behind it.
-/

namespace Treewalk.Command

/-- What to do with a file, if not to run it as a script. -/
inductive Mode where
  /-- Write the tree of a script to a file. -/
  | emit
  /-- Run a tree file. -/
  | load
  /-- Print the tree of a script. -/
  | display
deriving DecidableEq, Repr

/-- An option. -/
inductive Flag where
  | help
  | verbose
  | mode (m : Mode)
deriving DecidableEq, Repr

/-- The options by their names. -/
def Flag.names : List (String × Flag) :=
  [("-h", .help), ("--help", .help), ("-v", .verbose), ("--emit-ast", .mode .emit),
    ("--ast", .mode .load), ("--print-ast", .mode .display)]

/-- The option of a name. -/
def Flag.ofName? (cs : List Char) : Option Flag :=
  Flag.names.lookup (String.ofList cs)

/-- The options whose names start with given characters. -/
def Flag.startingWith (cs : List Char) : List Flag :=
  (Flag.names.filter fun (name, _) => cs.isPrefixOf name.toList).map Prod.snd

/-- Why a request was not accepted. -/
inductive Refusal where
  /-- Help was asked for. -/
  | help
  /-- The arguments make no request. -/
  | usage
deriving DecidableEq, Repr

/-! ## Words -/

/-- What a single argument is. -/
inductive Word where
  | operand (text : String)
  /-- The mark behind which every word is an operand. -/
  | dashes
  /-- An option, with a value if one is attached by `=`. -/
  | flag (f : Flag) (attached : Option String)
  /-- A short option with more of them behind it. -/
  | cluster (f : Flag) (more : List Char)
  /-- The start of several options. -/
  | ambiguous
  | unknown
deriving DecidableEq, Repr

/-- The characters before the first `=`, and those behind it. -/
def splitAttached (cs : List Char) : List Char × Option String :=
  match cs.dropWhile (· != '=') with
  | [] => (cs, none)
  | _ :: value => (cs.takeWhile (· != '='), some (String.ofList value))

/-- A sign and digits of any script, perhaps with a point among them and
a line end behind them: an operand, since no option looks like it. -/
def looksNegative (cs : List Char) : Bool :=
  match if cs.getLast? = some '\n' then cs.dropLast else cs with
  | '-' :: cs =>
    match cs.dropWhile isDecimalDigit with
    | [] => !cs.isEmpty
    | '.' :: fraction => !fraction.isEmpty && fraction.all isDecimalDigit
    | _ => false
  | _ => false

/-- An option with a value attached. A short option takes none: it is
followed by more short options, whether or not `=` stands before them. -/
def Word.attach (name : List Char) (f : Flag) (value : String) : Word :=
  if name.length = 2 then .cluster f value.toList else .flag f (some value)

/-- A word that starts with a dash and is no name of an option. -/
def Word.ofDashed (text : String) (cs : List Char) : Word :=
  let other : Word :=
    if looksNegative cs || ' ' ∈ cs then .operand text else .unknown
  match splitAttached cs with
  | (name, attached) =>
    match attached, Flag.ofName? name with
    | some value, some f => Word.attach name f value
    | _, _ =>
      match cs with
      | '-' :: '-' :: _ =>
        match Flag.startingWith name with
        | [] => other
        | [f] => .flag f attached
        | _ => .ambiguous
      | '-' :: c :: more =>
        match Flag.ofName? ['-', c] with
        | some f => .cluster f more
        | none => other
      | _ => other

/-- What an argument is by itself. -/
def Word.ofText (text : String) : Word :=
  match text.toList with
  | '-' :: c :: cs =>
    match Flag.ofName? ('-' :: c :: cs) with
    | some f => .flag f none
    | none => Word.ofDashed text ('-' :: c :: cs)
  | _ => .operand text

/-- The arguments as words. -/
def Word.ofTexts : List String → List Word
  | [] => []
  | text :: rest =>
    if text = "--" then .dashes :: rest.map .operand else Word.ofText text :: Word.ofTexts rest

/-! ## Requests -/

/-- What the arguments ask for. -/
structure Request where
  verbosity : Nat := 0
  /-- The option that names a file, and the file. -/
  chosen : Option (Mode × String) := none
  scripts : List String := []
deriving DecidableEq, Repr

/-- What has been read so far. -/
structure Reading where
  request : Request := {}
  /-- Whether the scripts have been read: they stand together. -/
  closed : Bool := false
  /-- Whether some word meant nothing. -/
  leftover : Bool := false

namespace Reading

/-- A script at the end of those read. -/
def addScript (r : Reading) (text : String) : Reading :=
  { r with request := { r.request with scripts := r.request.scripts ++ [text] } }

/-- A word that stands among the scripts; once they are closed it is left
over. -/
def operand (r : Reading) (text : String) : Reading :=
  if r.closed then { r with leftover := true } else r.addScript text

/-- An option closes the scripts read before it. -/
def close (r : Reading) : Reading :=
  { r with closed := r.closed || !r.request.scripts.isEmpty }

/-- One more `-v`. -/
def louder (r : Reading) : Reading :=
  { r with request := { r.request with verbosity := r.request.verbosity + 1 } }

/-- The file an attached value names: the mark `--` alone names none. -/
def attachedFile (value : String) : String :=
  if value = "--" then "" else value

/-- An option that names a file: the last one counts, but all must be the
same option. -/
def choose (r : Reading) (m : Mode) (file : String) : Except Refusal Reading :=
  match r.request.chosen with
  | some (other, _) =>
    if other = m then .ok { r with request := { r.request with chosen := some (m, file) } }
    else .error .usage
  | none => .ok { r with request := { r.request with chosen := some (m, file) } }

/-- The short options that characters name, if all of them name one. -/
def cluster : List Char → Except Refusal (List Flag)
  | [] => .ok []
  | c :: more =>
    match Flag.ofName? ['-', c] with
    | none => .error .usage
    | some f => (cluster more).map (f :: ·)

/-- Short options take effect from left to right, once all are known. -/
def flags (r : Reading) : List Flag → Except Refusal Reading
  | [] => .ok r
  | .help :: _ => .error .help
  | .verbose :: rest => r.louder.flags rest
  | .mode _ :: _ => .error .usage

/-- Read words from left to right. -/
def read (r : Reading) : List Word → Except Refusal Reading
  | [] => .ok r
  | .operand text :: rest => (r.operand text).read rest
  | .dashes :: rest => (if r.closed then { r with leftover := true } else r).read rest
  | .ambiguous :: _ => .error .usage
  | .unknown :: rest => { r.close with leftover := true }.read rest
  | .flag .help none :: _ => .error .help
  | .flag .verbose none :: rest => r.close.louder.read rest
  | .flag (.mode m) none :: .operand file :: rest => do
    let r ← r.close.choose m file
    r.read rest
  | .flag (.mode m) (some value) :: rest => do
    let r ← r.close.choose m (attachedFile value)
    r.read rest
  | .flag _ _ :: _ => .error .usage
  | .cluster _ [] :: _ => .error .usage
  | .cluster f more :: rest => do
    let others ← cluster more
    let r ← r.close.flags (f :: others)
    r.read rest

end Reading

/-- The request that arguments make. -/
def Request.ofArguments (args : List String) : Except Refusal Request :=
  let words := Word.ofTexts args
  if .ambiguous ∈ words then .error .usage
  else do
    let r ← ({} : Reading).read words
    if r.leftover then .error .usage else .ok r.request

end Treewalk.Command
