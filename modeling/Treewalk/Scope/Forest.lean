import Treewalk.Machine

/-!
# A forest of frames

Frames that share parents: a frame is a root or hangs below an earlier
frame, and several may hang below the same one. Frames are known by their
number, counted from zero in the order they were made, so a parent has a
smaller number than its children and every way outward ends at a root.

Reading a name and assigning to it both walk outward from a frame to the
first one that binds the name; each is a walk of its own, and so is the
count of the frames on the way.
-/

namespace Treewalk

/-- A frame of a forest, and the number of the one it hangs below. -/
structure Planted where
  frame : Frame
  parent : Option Nat

/-- The frames made so far, the latest first. -/
structure Forest where
  entries : List Planted := []

namespace Forest

/-- One root that binds nothing. -/
def single : Forest := ⟨[⟨.empty, none⟩]⟩

/-- How many frames there are; also the number of the next one. -/
def size (f : Forest) : Nat :=
  f.entries.length

/-- The entry of a number. -/
def planted? : List Planted → Nat → Option Planted
  | [], _ => none
  | p :: older, i => if i = older.length then some p else planted? older i

/-- The frame of a number. -/
def frame? (f : Forest) (i : Nat) : Option Frame :=
  (planted? f.entries i).map Planted.frame

/-- The number of the frame that a frame hangs below. -/
def parent? (f : Forest) (i : Nat) : Option Nat :=
  (planted? f.entries i).bind Planted.parent

/-! ## New frames -/

/-- A new root. -/
def plant (f : Forest) : Forest :=
  ⟨⟨.empty, none⟩ :: f.entries⟩

/-- A new frame below another. -/
def grow (f : Forest) (parent : Nat) : Forest :=
  ⟨⟨.empty, some parent⟩ :: f.entries⟩

/-! ## Walks outward -/

/-- Count the frames around a frame. -/
def countOutward : List Planted → Nat → Nat
  | [], _ => 0
  | p :: older, i =>
    if i = older.length then
      match p.parent with
      | none => 0
      | some j => countOutward older j + 1
    else countOutward older i

/-- How many frames stand around a frame. -/
def depth (f : Forest) (i : Nat) : Nat :=
  countOutward f.entries i

/-- Read a name in a frame, or else in the frames around it. -/
def readOutward (name : Name) : List Planted → Nat → Option Value
  | [], _ => none
  | p :: older, i =>
    if i = older.length then
      match p.frame.get? name with
      | some v => some v
      | none =>
        match p.parent with
        | none => none
        | some j => readOutward name older j
    else readOutward name older i

/-- Put a value in place of the binding of a name in a frame, or else in
the frames around it. -/
def assignOutward (name : Name) (v : Value) : List Planted → Nat → Option (List Planted)
  | [], _ => none
  | p :: older, i =>
    if i = older.length then
      if p.frame.binds name then some ({ p with frame := p.frame.define name v } :: older)
      else
        match p.parent with
        | none => none
        | some j => (assignOutward name v older j).map (p :: ·)
    else (assignOutward name v older i).map (p :: ·)

/-! ## Names and values -/

/-- The entries with one frame changed. -/
def change (g : Frame → Frame) : List Planted → Nat → List Planted
  | [], _ => []
  | p :: older, i =>
    if i = older.length then { p with frame := g p.frame } :: older
    else p :: change g older i

/-- A name bound in a frame. -/
def define (f : Forest) (i : Nat) (name : Name) (v : Value) : Forest :=
  ⟨change (·.define name v) f.entries i⟩

/-- The value of the variable a token names, seen from a frame. -/
def get (f : Forest) (i : Nat) (t : Token) : Except Halt Value :=
  match Name.ofJson? t.lexeme with
  | none => .error .misnomer
  | some name =>
    match readOutward name f.entries i with
    | some v => .ok v
    | none => .error (.undefined t)

/-- A value assigned to the variable a token names, seen from a frame. -/
def assign (f : Forest) (i : Nat) (t : Token) (v : Value) : Except Halt Forest :=
  match Name.ofJson? t.lexeme with
  | none => .error .misnomer
  | some name =>
    match assignOutward name v f.entries i with
    | some entries => .ok ⟨entries⟩
    | none => .error (.undefined t)

/-- All frames in the order they were made, each with its depth. -/
def overview (f : Forest) : List (Nat × Frame) :=
  (List.range f.size).filterMap fun i => (f.frame? i).map fun frame => (f.depth i, frame)

/-! ## Actions -/

/-- Something done to a forest. Frames are given by their numbers. -/
inductive Action where
  | plant
  | grow (parent : Nat)
  | define (i : Nat) (name : Name) (v : Value)
  | assign (i : Nat) (t : Token) (v : Value)
  | get (i : Nat) (t : Token)

/-- What an action answers: a value if it was asked for one, or a halt. -/
abbrev Answer : Type := Except Halt (Option Value)

/-- An action done: its answer, and the forest it leaves behind. -/
def perform (f : Forest) : Action → Answer × Forest
  | .plant => (.ok none, f.plant)
  | .grow parent => (.ok none, f.grow parent)
  | .define i name v => (.ok none, f.define i name v)
  | .assign i t v =>
    match f.assign i t v with
    | .ok changed => (.ok none, changed)
    | .error h => (.error h, f)
  | .get i t => ((f.get i t).map some, f)

end Forest

end Treewalk
