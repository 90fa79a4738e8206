/-!
# Paths and stored files

A path is shown without empty parts and without parts that mean the place
itself; parts that lead upwards stay. A store maps places, counted from
the root of the file system, to contents, and knows the directory a
command runs in, from which paths without a root are followed.
-/

namespace Treewalk.Command

/-- A path as it is shown. -/
structure Path where
  /-- What stands before the first part: nothing, or slashes. -/
  root : String
  parts : List String
deriving DecidableEq, Repr

namespace Path

/-- The root of a path: two slashes count as two, any other number as
one. -/
def rootOf : List Char → String
  | ['/', '/'] => "//"
  | '/' :: '/' :: c :: _ => if c = '/' then "/" else "//"
  | '/' :: _ => "/"
  | _ => ""

/-- The pieces between slashes. -/
def pieces : List Char → List (List Char)
  | [] => [[]]
  | c :: cs =>
    if c = '/' then [] :: pieces cs
    else
      match pieces cs with
      | [] => [[c]]
      | piece :: rest => (c :: piece) :: rest

/-- The path a text denotes. -/
def ofText (text : String) : Path :=
  let kept := (pieces text.toList).filter fun piece => piece ≠ [] ∧ piece ≠ ['.']
  ⟨rootOf text.toList, kept.map String.ofList⟩

/-- The text of a path. -/
def text (p : Path) : String :=
  if p.root = "" ∧ p.parts = [] then "."
  else p.root ++ String.intercalate "/" p.parts

/-- The path with characters put behind its last part. -/
def extended (p : Path) (tail : String) : Path :=
  { p with parts := p.parts.dropLast ++ (p.parts.getLast?.map (· ++ tail)).toList }

end Path

/-- Files by their places, counted from the root. -/
structure Store where
  /-- The place of the directory a command runs in. -/
  working : List String := []
  /-- Places of other directories. -/
  directories : List (List String) := []
  files : List (List String × ByteArray) := []

/-- Why a path leads nowhere. -/
inductive Obstacle where
  /-- A part is not there, or is passed through and is no directory. -/
  | missing
  /-- A part, or the path as a whole, is longer than a name can be. -/
  | overlong
deriving DecidableEq, Repr

/-- What is found at the end of a path. -/
inductive Entry where
  | missing
  | overlong
  | directory
  | file (contents : ByteArray)

/-- The most bytes a part of a path may have. -/
def longestPart : Nat := 255

/-- The most bytes a path may have. -/
def longestPath : Nat := 4095

namespace Store

/-- The contents at a place. -/
def contents? (s : Store) (place : List String) : Option ByteArray :=
  s.files.lookup place

/-- Whether a place is a directory: the working one or another one that is
there, or one on the way to a directory or to a file. -/
def isDirectory (s : Store) (place : List String) : Bool :=
  (s.working :: s.directories).any place.isPrefixOf ||
    s.files.any fun (file, _) => place.isPrefixOf file && place != file

/-- What is found at a place. -/
def found (s : Store) (place : List String) : Entry :=
  match s.contents? place with
  | some contents => .file contents
  | none => if s.isDirectory place then .directory else .missing

/-- Follow parts from a place; every part but the last has to be a
directory. The root is the directory above itself. -/
def follow (s : Store) (place : List String) : List String → Except Obstacle (List String)
  | [] => .ok place
  | part :: rest =>
    if part = ".." then s.follow place.dropLast rest
    else if longestPart < part.utf8ByteSize then .error .overlong
    else
      let next := place ++ [part]
      if rest.isEmpty then .ok next
      else
        match s.found next with
        | .directory => s.follow next rest
        | _ => .error .missing

/-- Where a path starts. -/
def start (s : Store) (p : Path) : List String :=
  if p.root = "" then s.working else []

/-- The place a path leads to. A path with a zero character in it leads
nowhere, however long it is. -/
def locate (s : Store) (p : Path) : Except Obstacle (List String) :=
  if Char.ofNat 0 ∈ p.text.toList then .error .missing
  else if longestPath < p.text.utf8ByteSize then .error .overlong
  else s.follow (s.start p) p.parts

/-- What is found at the end of a path. -/
def entry (s : Store) (p : Path) : Entry :=
  match s.locate p with
  | .error .missing => .missing
  | .error .overlong => .overlong
  | .ok place => s.found place

/-- Contents put in place of those of a file, or behind all. -/
def put (place : List String) (contents : ByteArray) :
    List (List String × ByteArray) → List (List String × ByteArray)
  | [] => [(place, contents)]
  | (other, kept) :: rest =>
    if other = place then (other, contents) :: rest else (other, kept) :: put place contents rest

/-- The store with a text written to a file, unless its path leads to a
directory or nowhere. -/
def write? (s : Store) (p : Path) (text : String) : Option Store :=
  match s.locate p with
  | .ok place =>
    if s.isDirectory place then none
    else some { s with files := put place text.toUTF8 s.files }
  | .error _ => none

end Store

end Treewalk.Command
