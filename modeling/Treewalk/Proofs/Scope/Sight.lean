import Mathlib.Data.List.Basic
import Treewalk.Proofs.Scope.NearestBinding
import Treewalk.Proofs.Scope.Sites

/-!
# A scope is what is seen from a frame

A run holds its frames as one scope, a list with the innermost frame first;
a forest holds frames that share their parents. The frames on the line from
a frame to its root are such a list (`sight`), and a scope with these
frames answers as the forest does at that frame: names have the same
values, the same binding is assigned to, and a frame that is opened is a
new one below (`Sees`).
-/

namespace Treewalk.Forest

/-- The frames on the line of an entry, the entry's own first. -/
def sightIn (entries : List Planted) (i : Nat) : List Frame :=
  (lineIn entries i).filterMap fun j => (planted? entries j).map Planted.frame

/-- The frames that are seen from a frame, the frame itself first. -/
def sight (f : Forest) (i : Nat) : List Frame :=
  sightIn f.entries i

/-! ## The walks see the frames in order -/

theorem sightIn_cons (p : Planted) (older : List Planted) (i : Nat) :
    sightIn (p :: older) i =
      if i = older.length then p.frame :: p.parent.elim [] (sightIn older)
      else sightIn older i := by
  -- the latest entry is on no line among the older ones
  have hOlder : ∀ k, ((lineIn older k).filterMap fun j =>
      (planted? (p :: older) j).map Planted.frame) = sightIn older k := by
    intro k
    refine List.filterMap_congr fun j hj => ?_
    rw [planted?_cons_of_lt (lt_of_mem_lineIn hj)]
  rw [sightIn, lineIn]
  split
  next hi =>
    have hHere : (planted? (p :: older) i).map Planted.frame = some p.frame := by
      rw [planted?, if_pos hi, Option.map_some]
    simp only [List.filterMap_cons, hHere]
    cases p.parent with
    | none => rfl
    | some j => rw [hOlder j, Option.elim_some]
  next hi => exact hOlder i

theorem readOutward_eq_findSome? (name : Name) (entries : List Planted) (i : Nat) :
    readOutward name entries i = (sightIn entries i).findSome? fun frame => frame.get? name := by
  induction entries generalizing i with
  | nil => rfl
  | cons p older ih =>
    rw [readOutward, sightIn_cons]
    split
    next hi =>
      rw [List.findSome?_cons]
      cases p.frame.get? name with
      | some v => rfl
      | none =>
        cases p.parent with
        | none => rfl
        | some j => exact ih j
    next hi => exact ih i

theorem length_of_assignOutward {name : Name} {v : Value} {entries changed : List Planted} {i : Nat}
    (h : assignOutward name v entries i = some changed) : changed.length = entries.length := by
  rw [assignOutward_eq] at h
  obtain ⟨j, -, rfl⟩ := Option.map_eq_some_iff.mp h
  exact length_change _ _ j

theorem sightIn_assignOutward (name : Name) (v : Value) (entries : List Planted) (i : Nat) :
    (assignOutward name v entries i).map (sightIn · i) =
      Frame.assign? name v (sightIn entries i) := by
  induction entries generalizing i with
  | nil => rfl
  | cons p older ih =>
    have hOuter : ∀ k,
        (assignOutward name v older k).map (fun changed => sightIn (p :: changed) i) =
          (assignOutward name v older k).map fun changed =>
            if i = older.length then p.frame :: p.parent.elim [] (sightIn changed)
            else sightIn changed i := by
      intro k
      refine Option.map_congr fun changed hChanged => ?_
      rw [sightIn_cons, length_of_assignOutward hChanged]
    rw [assignOutward, sightIn_cons]
    split
    next hi =>
      rw [Frame.assign?]
      split
      next hBinds => rw [Option.map_some, sightIn_cons, if_pos hi]
      next hBinds =>
        cases hParent : p.parent with
        | none => rfl
        | some j =>
          simp only [Option.map_map, Function.comp_def, hOuter, if_pos hi, hParent,
            Option.elim_some, ← ih]
    next hi => simp only [Option.map_map, Function.comp_def, hOuter, if_neg hi, ih]

/-- Changing a frame changes the first one that is seen from it. -/
theorem sightIn_change (g : Frame → Frame) {entries : List Planted} {i : Nat}
    (hi : i < entries.length) :
    ∃ frame outer, sightIn entries i = frame :: outer ∧
      sightIn (change g entries i) i = g frame :: outer := by
  induction entries with
  | nil => cases hi
  | cons p older ih =>
    rw [sightIn_cons, change]
    split
    next hLatest => exact ⟨p.frame, _, rfl, by rw [sightIn_cons, if_pos hLatest]⟩
    next hLatest =>
      rw [List.length_cons] at hi
      rw [sightIn_cons, length_change, if_neg hLatest]
      exact ih (by omega)

/-- From a frame are seen its own and those that are seen from its parent. -/
theorem Grounded.exists_sightIn {entries : List Planted} (h : Grounded entries) {i j : Nat}
    (hi : i < entries.length) (hj : (planted? entries i).bind Planted.parent = some j) :
    ∃ frame, sightIn entries i = frame :: sightIn entries j := by
  obtain ⟨p, hp⟩ := exists_planted hi
  refine ⟨p.frame, ?_⟩
  rw [sightIn, h.lineIn_eq hi, hj, Option.elim_some]
  simp only [List.filterMap_cons, hp, Option.map_some]
  rfl

theorem Grounded.length_sightIn {entries : List Planted} (h : Grounded entries) {i : Nat}
    (hi : i < entries.length) : (sightIn entries i).length = countOutward entries i + 1 := by
  rw [h.countOutward_eq hi, sightIn, List.length_filterMap_eq_countP, List.countP_eq_length]
  intro j hj
  obtain ⟨p, hp⟩ := exists_planted (lt_of_mem_lineIn hj)
  rw [hp]
  rfl

/-! ## What a run does with its scope -/

/-- A scope that holds the frames that are seen from a frame. -/
def Sees (f : Forest) (i : Nat) (s : Scope) : Prop :=
  f.sight i = s.frames

namespace Sees

variable {f : Forest} {i : Nat} {m : Machine}

/-- A program that has not begun sees the one root. -/
theorem single : Forest.single.Sees 0 .empty := rfl

/-- The frames before the global one are those around the frame. -/
theorem depth {s : Scope} (h : f.Sees i s) (hGrounded : Grounded f.entries) (hi : i < f.size) :
    f.depth i = s.depth := by
  have hLength := hGrounded.length_sightIn hi
  have hFrames := congrArg List.length h
  rw [Scope.frames, List.length_append, List.length_singleton] at hFrames
  rw [Forest.depth, Scope.depth]
  rw [sight] at hFrames
  omega

/-- A new frame is seen below the frame. -/
theorem push {s : Scope} (h : f.Sees i s) : (f.grow i).Sees f.size s.push := by
  have hNew : (f.grow i).sight f.size = .empty :: f.sight i := by
    rw [sight, grow, sightIn_cons, size, if_pos rfl]
    rfl
  rw [Sees, hNew, h]
  rfl

/-- Without its innermost frame, a scope is seen from the parent. -/
theorem pop {s : Scope} (h : f.Sees i s) (hGrounded : Grounded f.entries) (hi : i < f.size)
    {j : Nat} (hj : f.parent? i = some j) : f.Sees j s.pop := by
  obtain ⟨frame, hSight⟩ := hGrounded.exists_sightIn hi hj
  have hFrames : frame :: f.sight j = s.frames := hSight.symm.trans h
  obtain ⟨inner, globals⟩ := s
  cases inner with
  | nil =>
    -- the parent sees itself, so the scope has a frame before the global one
    have hNone : f.sight j = [] := (List.cons.inj hFrames).2
    have hParent : j < f.size := (hGrounded.parent_lt hj).trans hi
    have hLength := hGrounded.length_sightIn hParent
    rw [← sight, hNone] at hLength
    cases hLength
  | cons first rest => exact (List.cons.inj hFrames).2

/-- A name is bound as it is in the frame. -/
theorem define {s : Scope} (h : f.Sees i s) (hi : i < f.size) (name : Name) (v : Value) :
    (f.define i name v).Sees i (s.define name v) := by
  obtain ⟨frame, outer, hBefore, hAfter⟩ := sightIn_change (·.define name v) hi
  have hFrames : frame :: outer = s.frames := hBefore.symm.trans h
  have hSight : (f.define i name v).sight i = frame.define name v :: outer := hAfter
  rw [Sees, hSight]
  obtain ⟨inner, globals⟩ := s
  cases inner with
  | nil =>
    obtain ⟨rfl, rfl⟩ := List.cons.inj hFrames
    rfl
  | cons first rest =>
    obtain ⟨rfl, rfl⟩ := List.cons.inj hFrames
    rfl

/-- A variable is looked up as it is read at the frame. -/
theorem lookup (h : f.Sees i m.scope) (t : Token) : Run.lookup t m = (f.get i t, m) := by
  have hValue : ∀ name, m.scope.get? name = readOutward name f.entries i := by
    intro name
    rw [readOutward_eq_findSome?, Scope.get?, ← h]
    rfl
  show Run.andThen (Run.nameOf t) _ m = _
  simp only [Run.andThen, Run.nameOf, get]
  cases Name.ofJson? t.lexeme with
  | none => rfl
  | some name =>
    simp only [Run.done, hValue]
    cases readOutward name f.entries i <;> rfl

theorem map_frames_assign? {s : Scope} (h : f.Sees i s) (name : Name) (v : Value) :
    (s.assign? name v).map Scope.frames = (assignOutward name v f.entries i).map (sightIn · i) := by
  rw [Scope.map_frames_assign?, sightIn_assignOutward, ← h]
  rfl

/-- A value is assigned as it is at the frame, or both halt alike and
nothing is changed. -/
theorem assign (h : f.Sees i m.scope) (t : Token) (v : Value) :
    ((Run.assign t v m).1 = (f.assign i t v).map fun _ => ()) ∧
      (f.perform (.assign i t v)).2.Sees i (Run.assign t v m).2.scope := by
  show ((Run.andThen (Run.nameOf t) _ m).1 = _) ∧
    (f.perform (.assign i t v)).2.Sees i (Run.andThen (Run.nameOf t) _ m).2.scope
  simp only [Run.andThen, Run.nameOf, perform, Forest.assign]
  cases Name.ofJson? t.lexeme with
  | none => exact ⟨rfl, h⟩
  | some name =>
    have hBoth := h.map_frames_assign? name v
    simp only [Run.done]
    cases hEntries : assignOutward name v f.entries i with
    | none =>
      rw [hEntries, Option.map_none, Option.map_eq_none_iff] at hBoth
      rw [hBoth]
      exact ⟨rfl, h⟩
    | some entries =>
      rw [hEntries, Option.map_some, Option.map_eq_some_iff] at hBoth
      obtain ⟨s, hs, hFrames⟩ := hBoth
      rw [hs]
      exact ⟨rfl, hFrames.symm⟩

end Sees

end Treewalk.Forest
