import Treewalk.Name
import Treewalk.Value

/-!
# Frames and scopes

A frame binds names to values, each name once. A scope is the frames a
statement sees, innermost first, with the global frame at the outer end;
a name means its nearest binding. Blocks open a frame and drop it; the
global frame is never dropped, and the type says so.
-/

namespace Treewalk

/-- Names bound to values, in the order they were first bound. -/
structure Frame where
  bindings : List (Name × Value) := []

namespace Frame

/-- A frame that binds nothing. -/
def empty : Frame := ⟨[]⟩

/-- The value of a name in this frame. -/
def get? (f : Frame) (name : Name) : Option Value :=
  f.bindings.lookup name

/-- Whether this frame binds a name. A name bound to nil is bound. -/
def binds (f : Frame) (name : Name) : Bool :=
  (f.get? name).isSome

/-- A binding put in place of the one of that name, or behind all. -/
def put (name : Name) (v : Value) : List (Name × Value) → List (Name × Value)
  | [] => [(name, v)]
  | (n, w) :: rest => if n = name then (n, v) :: rest else (n, w) :: put name v rest

/-- The frame with a name bound to a value. -/
def define (f : Frame) (name : Name) (v : Value) : Frame :=
  ⟨put name v f.bindings⟩

/-- The bindings in the order of their names. -/
def sorted (f : Frame) : List (Name × Value) :=
  f.bindings.mergeSort fun a b => a.1.le b.1

/-- Defining a name changes what that name means, and nothing else. -/
theorem get?_define (f : Frame) (name : Name) (v : Value) (other : Name) :
    (f.define name v).get? other = if other = name then some v else f.get? other := by
  unfold define get?
  induction f.bindings with
  | nil =>
    by_cases h : other = name
    · simp [put, h]
    · simp [put, List.lookup_cons, beq_false_of_ne h, h]
  | cons binding rest ih =>
    obtain ⟨n, w⟩ := binding
    simp only [put]
    by_cases hn : n = name
    · by_cases h : other = name
      · simp [hn, h]
      · simp [hn, List.lookup_cons, beq_false_of_ne h, h]
    · by_cases h : other = n
      · simp [h, hn]
      · simp [hn, List.lookup_cons, beq_false_of_ne h, ih]

/-- A value put in place of the nearest binding of a name, if some frame
binds it. -/
def assign? (name : Name) (v : Value) : List Frame → Option (List Frame)
  | [] => none
  | f :: rest =>
    if f.binds name then some (f.define name v :: rest)
    else (assign? name v rest).map (f :: ·)

end Frame

/-- The frames in sight, innermost first, and the global one. -/
structure Scope where
  inner : List Frame := []
  globals : Frame := .empty

namespace Scope

/-- The scope of a program that has not begun. -/
def empty : Scope := ⟨[], .empty⟩

/-- All frames, innermost first. -/
def frames (s : Scope) : List Frame :=
  s.inner ++ [s.globals]

/-- How many frames stand before the global one. -/
def depth (s : Scope) : Nat :=
  s.inner.length

/-- The value of a name: that of its nearest binding. -/
def get? (s : Scope) (name : Name) : Option Value :=
  s.frames.findSome? fun f => f.get? name

/-- A name bound in the innermost frame. -/
def define (s : Scope) (name : Name) (v : Value) : Scope :=
  match s.inner with
  | [] => { s with globals := s.globals.define name v }
  | f :: rest => { s with inner := f.define name v :: rest }

/-- A value put in place of the nearest binding of a name. -/
def assign? (s : Scope) (name : Name) (v : Value) : Option Scope :=
  match Frame.assign? name v s.inner with
  | some inner => some { s with inner := inner }
  | none =>
    if s.globals.binds name then some { s with globals := s.globals.define name v } else none

/-- The scope with a fresh innermost frame. -/
def push (s : Scope) : Scope :=
  { s with inner := .empty :: s.inner }

/-- The scope without its innermost frame; the global frame stays. -/
def pop (s : Scope) : Scope :=
  { s with inner := s.inner.drop 1 }

end Scope

end Treewalk
