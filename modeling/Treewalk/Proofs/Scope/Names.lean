import Treewalk.Scope

/-!
# The names of a scope

A scope seen only by the names its frames bind, frame by frame and in the
order they were bound. Assigning changes none of them, defining adds at
most one to the innermost frame, and a fresh frame that is dropped again
takes its own names with it. What the steps of a program have in common is
that the scope behind them extends the one before (`Scope.Extends`): the
same frames with the same names, but for new ones in the current frame,
the innermost.
-/

namespace Treewalk

/-! ## Frames -/

namespace Frame

/-- The names a frame binds, in the order they were first bound. -/
def names (f : Frame) : List Name :=
  f.bindings.map Prod.fst

theorem binds_iff_mem_names {f : Frame} {name : Name} : f.binds name ↔ name ∈ f.names := by
  simp [binds, get?, names, List.lookup_isSome_iff]

theorem map_fst_put (name : Name) (v : Value) (bindings : List (Name × Value)) :
    (put name v bindings).map Prod.fst =
      if name ∈ bindings.map Prod.fst then bindings.map Prod.fst
      else bindings.map Prod.fst ++ [name] := by
  induction bindings with
  | nil => simp [put]
  | cons binding rest ih =>
    obtain ⟨n, w⟩ := binding
    by_cases hn : n = name
    · simp [put, hn]
    · simp only [put, if_neg hn, List.map_cons, ih, List.mem_cons, Ne.symm hn, false_or]
      split <;> rfl

/-- Defining a name puts it behind the others, unless it is among them. -/
theorem names_define (f : Frame) (name : Name) (v : Value) :
    (f.define name v).names = if f.binds name then f.names else f.names ++ [name] := by
  rw [names, define, map_fst_put]
  simp only [binds_iff_mem_names]
  rfl

/-- Assigning binds no name. -/
theorem names_assign? {frames later : List Frame} {name : Name} {v : Value}
    (h : assign? name v frames = some later) : later.map names = frames.map names := by
  induction frames generalizing later with
  | nil => cases h
  | cons f rest ih =>
    rw [assign?] at h
    split at h
    · next hBound =>
      cases h
      rw [List.map_cons, names_define, if_pos hBound, List.map_cons]
    · obtain ⟨others, hOthers, rfl⟩ := Option.map_eq_some_iff.mp h
      rw [List.map_cons, ih hOthers, List.map_cons]

end Frame

/-! ## Scopes -/

namespace Scope

/-- The names of each frame, innermost first. -/
def names (s : Scope) : List (List Name) :=
  s.frames.map Frame.names

theorem length_names (s : Scope) : s.names.length = s.depth + 1 := by
  simp [names, frames, depth]

theorem names_pop {s : Scope} (h : 0 < s.depth) : s.pop.names = s.names.tail := by
  obtain ⟨inner, globals⟩ := s
  cases inner with
  | nil => exact absurd h (Nat.lt_irrefl 0)
  | cons f rest => rfl

theorem names_assign? {s later : Scope} {name : Name} {v : Value}
    (h : s.assign? name v = some later) : later.names = s.names := by
  simp only [names, frames, List.map_append]
  rw [assign?] at h
  split at h
  · next inner hInner =>
    cases h
    rw [Frame.names_assign? hInner]
  · split at h
    · next hBound =>
      cases h
      simp [Frame.names_define, hBound]
    · cases h

/-- Defining touches the innermost frame alone. -/
theorem names_define (s : Scope) (name : Name) (v : Value) :
    ∃ current outer, s.names = current :: outer ∧ (s.define name v).names =
      (if name ∈ current then current else current ++ [name]) :: outer := by
  obtain ⟨inner, globals⟩ := s
  cases inner with
  | nil =>
    refine ⟨globals.names, [], rfl, ?_⟩
    simp only [← Frame.binds_iff_mem_names]
    rw [← Frame.names_define globals name v]
    rfl
  | cons f rest =>
    refine ⟨f.names, (rest ++ [globals]).map Frame.names, rfl, ?_⟩
    simp only [← Frame.binds_iff_mem_names]
    rw [← Frame.names_define f name v]
    rfl

/-- Every scope has a current frame. -/
theorem exists_names (s : Scope) : ∃ current outer, s.names = current :: outer := by
  cases h : s.names with
  | nil => exact absurd s.length_names (by simp [h])
  | cons current outer => exact ⟨current, outer, rfl⟩

/-- The frames of a scope with their names, and in the current one perhaps
some more. -/
def Extends (s later : Scope) : Prop :=
  ∃ current fresh outer, s.names = current :: outer ∧ later.names = (current ++ fresh) :: outer

namespace Extends

theorem of_names_eq {s later : Scope} (h : later.names = s.names) : s.Extends later := by
  obtain ⟨current, outer, hNames⟩ := s.exists_names
  exact ⟨current, [], outer, hNames, by rw [h, hNames, List.append_nil]⟩

theorem refl (s : Scope) : s.Extends s :=
  of_names_eq rfl

theorem trans {s later last : Scope} (h : s.Extends later) (k : later.Extends last) :
    s.Extends last := by
  obtain ⟨current, fresh, outer, hs, hLater⟩ := h
  obtain ⟨current', more, outer', hLater', hLast⟩ := k
  obtain ⟨rfl, rfl⟩ := List.cons.inj (hLater.symm.trans hLater')
  exact ⟨current, fresh ++ more, outer, hs, by rw [hLast, List.append_assoc]⟩

theorem depth_eq {s later : Scope} (h : s.Extends later) : later.depth = s.depth := by
  obtain ⟨current, fresh, outer, hs, hLater⟩ := h
  have hLength : later.names.length = s.names.length := by rw [hs, hLater]; rfl
  rw [length_names, length_names] at hLength
  omega

theorem define (s : Scope) (name : Name) (v : Value) : s.Extends (s.define name v) := by
  obtain ⟨current, outer, hBefore, hAfter⟩ := s.names_define name v
  by_cases h : name ∈ current
  · exact ⟨current, [], outer, hBefore, by rw [hAfter, if_pos h, List.append_nil]⟩
  · exact ⟨current, [name], outer, hBefore, by rw [hAfter, if_neg h]⟩

/-- Whatever a fresh frame is extended by, dropping it leaves the names as
they were. -/
theorem names_pop {s later : Scope} (h : s.push.Extends later) : later.pop.names = s.names := by
  have hDepth : later.depth = s.depth + 1 := h.depth_eq
  obtain ⟨current, fresh, outer, hs, hLater⟩ := h
  rw [Scope.names_pop (by omega), hLater, List.tail_cons]
  exact (List.cons.inj hs).2.symm

end Extends

end Scope

end Treewalk
