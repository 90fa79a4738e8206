import Mathlib.Data.List.Find
import Treewalk.Scope.Forest

/-!
# The nearest binding

Frames in a forest behave as a record of writes. The record says which
value was written last to which name of which frame (`lastWritten`), and a
name seen from a frame means its binding in the first frame that has one on
the line from there to the root (`nearest?`). Reading and assigning walk
outward on their own; both stop at that frame (`readOutward_eq`,
`assignOutward_eq`).

One action keeps the agreement between the frames and the record
(`Recorded.perform`), so it holds after every history (`Recorded.after`),
and with it what each action answers and changes (`nearest_binding`).
-/

namespace Treewalk.Forest

/-! ## The reference -/

/-- What the entry of a number binds a name to. -/
def valueIn (entries : List Planted) (i : Nat) (name : Name) : Option Value :=
  (planted? entries i).bind fun p => p.frame.get? name

/-- The numbers from an entry to its root. -/
def lineIn : List Planted → Nat → List Nat
  | [], _ => []
  | p :: older, i =>
    if i = older.length then
      i :: (match p.parent with
        | none => []
        | some j => lineIn older j)
    else lineIn older i

/-- The first entry on a line that binds a name. -/
def nearestIn (name : Name) (entries : List Planted) (i : Nat) : Option Nat :=
  (lineIn entries i).find? fun j => (valueIn entries j name).isSome

/-- What a frame binds a name to. -/
def value? (f : Forest) (i : Nat) (name : Name) : Option Value :=
  valueIn f.entries i name

/-- The numbers from a frame to its root, the frame itself first. -/
def line (f : Forest) (i : Nat) : List Nat :=
  lineIn f.entries i

/-- The nearest frame on a frame's line that binds a name. -/
def nearest? (f : Forest) (i : Nat) (name : Name) : Option Nat :=
  nearestIn name f.entries i

/-- A value written to a name of a frame. -/
structure Write where
  frame : Nat
  name : Name
  value : Value

/-- The value last written to a name of a frame; the latest write comes
first. -/
def lastWritten (writes : List Write) (i : Nat) (name : Name) : Option Value :=
  (writes.find? fun w => w.frame = i ∧ w.name = name).map Write.value

/-- What an action writes, if it does. -/
def written? (f : Forest) : Action → Option Write
  | .define i name v => some ⟨i, name, v⟩
  | .assign i t v =>
    (Name.ofJson? t.lexeme).bind fun name =>
      (f.nearest? i name).map fun j => ⟨j, name, v⟩
  | .plant | .grow _ | .get .. => none

/-! ## Histories -/

/-- An action on frames that are there. -/
def Allows (f : Forest) : Action → Prop
  | .plant => True
  | .grow i | .define i _ _ | .assign i _ _ | .get i _ => i < f.size

instance (f : Forest) : (a : Action) → Decidable (f.Allows a)
  | .plant => .isTrue trivial
  | .grow i | .define i _ _ | .assign i _ _ | .get i _ => Nat.decLt i f.size

/-- A history in which every action is on frames that are there by then. -/
def AllowsAll (f : Forest) : List Action → Prop
  | [] => True
  | a :: rest => f.Allows a ∧ (f.perform a).2.AllowsAll rest

instance decidableAllowsAll : (f : Forest) → (actions : List Action) →
    Decidable (f.AllowsAll actions)
  | _, [] => .isTrue trivial
  | f, a :: rest =>
    have := decidableAllowsAll (f.perform a).2 rest
    inferInstanceAs (Decidable (f.Allows a ∧ (f.perform a).2.AllowsAll rest))

/-- The forest a history leaves behind. -/
def after (f : Forest) : List Action → Forest
  | [] => f
  | a :: rest => (f.perform a).2.after rest

/-- What a history writes, the latest first. -/
def writes (f : Forest) : List Action → List Write
  | [] => []
  | a :: rest => (f.perform a).2.writes rest ++ (f.written? a).toList

/-! ## Entries -/

theorem planted?_cons_of_lt {p : Planted} {older : List Planted} {i : Nat}
    (h : i < older.length) : planted? (p :: older) i = planted? older i := by
  rw [planted?, if_neg h.ne]

theorem valueIn_cons_of_lt {p : Planted} {older : List Planted} {i : Nat} (h : i < older.length)
    (name : Name) : valueIn (p :: older) i name = valueIn older i name := by
  rw [valueIn, planted?_cons_of_lt h, valueIn]

theorem planted?_eq_none {entries : List Planted} {i : Nat} (h : entries.length ≤ i) :
    planted? entries i = none := by
  induction entries with
  | nil => rfl
  | cons p older ih =>
    rw [List.length_cons] at h
    rw [planted?, if_neg (by omega), ih (by omega)]

theorem exists_planted {entries : List Planted} {i : Nat} (h : i < entries.length) :
    ∃ p, planted? entries i = some p := by
  induction entries with
  | nil => cases h
  | cons p older ih =>
    by_cases hi : i = older.length
    · exact ⟨p, by rw [planted?, if_pos hi]⟩
    · rw [List.length_cons] at h
      rw [planted?, if_neg hi]
      exact ih (by omega)

/-- A line leads through frames that are there. -/
theorem lt_of_mem_lineIn {entries : List Planted} {i j : Nat} (h : j ∈ lineIn entries i) :
    j < entries.length := by
  induction entries generalizing i with
  | nil => cases h
  | cons p older ih =>
    rw [List.length_cons]
    rw [lineIn] at h
    split at h
    next hi =>
      rcases List.mem_cons.mp h with rfl | hOuter
      · omega
      · split at hOuter
        · cases hOuter
        · exact Nat.lt_succ_of_lt (ih hOuter)
    next hi => exact Nat.lt_succ_of_lt (ih h)

/-! ## Both walks stop at the nearest binding -/

/-- The nearest binding is the frame's own or the one of its parent. -/
theorem nearestIn_cons (name : Name) (p : Planted) (older : List Planted) (i : Nat) :
    nearestIn name (p :: older) i =
      if i = older.length then
        if p.frame.binds name then some i else p.parent.bind (nearestIn name older)
      else nearestIn name older i := by
  -- on a line among the older entries the new one does not count
  have hOlder : ∀ k, ((lineIn older k).find? fun j => (valueIn (p :: older) j name).isSome) =
      nearestIn name older k := by
    intro k
    refine List.find?_congr fun j hj => ?_
    rw [valueIn_cons_of_lt (lt_of_mem_lineIn hj)]
  rw [nearestIn, lineIn]
  split
  next hi =>
    have hHere : valueIn (p :: older) i name = p.frame.get? name := by
      rw [valueIn, planted?, if_pos hi, Option.bind_some]
    rw [List.find?_cons, hHere, Frame.binds]
    cases (p.frame.get? name).isSome with
    | true => rfl
    | false =>
      cases p.parent with
      | none => rfl
      | some k => exact hOlder k
  next hi => exact hOlder i

theorem nearestIn_lt {name : Name} {entries : List Planted} {i j : Nat}
    (h : nearestIn name entries i = some j) : j < entries.length :=
  lt_of_mem_lineIn (List.mem_of_find?_eq_some h)

/-- Reading outward gives the value of the nearest binding. -/
theorem readOutward_eq (name : Name) (entries : List Planted) (i : Nat) :
    readOutward name entries i =
      (nearestIn name entries i).bind fun j => valueIn entries j name := by
  induction entries generalizing i with
  | nil => rfl
  | cons p older ih =>
    have hOlder : ∀ k, (nearestIn name older k).bind (fun j => valueIn (p :: older) j name) =
        readOutward name older k := by
      intro k
      rw [ih]
      refine Option.bind_congr fun j hj => ?_
      exact valueIn_cons_of_lt (nearestIn_lt hj) name
    rw [readOutward, nearestIn_cons, Frame.binds]
    split
    next hi =>
      cases hGet : p.frame.get? name with
      | some v => simp [valueIn, planted?, hi, hGet]
      | none =>
        cases p.parent with
        | none => rfl
        | some k => exact (hOlder k).symm
    next hi => exact (hOlder i).symm

/-- Assigning outward changes the frame of the nearest binding. -/
theorem assignOutward_eq (name : Name) (v : Value) (entries : List Planted) (i : Nat) :
    assignOutward name v entries i =
      (nearestIn name entries i).map (change (·.define name v) entries) := by
  induction entries generalizing i with
  | nil => rfl
  | cons p older ih =>
    have hOlder : ∀ k, (nearestIn name older k).map (change (·.define name v) (p :: older)) =
        (assignOutward name v older k).map (p :: ·) := by
      intro k
      rw [ih, Option.map_map]
      refine Option.map_congr fun j hj => ?_
      simp only [Function.comp_apply, change, if_neg (nearestIn_lt hj).ne]
    rw [assignOutward, nearestIn_cons]
    split
    next hi =>
      cases p.frame.binds name with
      | true => simp [change, hi]
      | false =>
        cases p.parent with
        | none => rfl
        | some k => exact (hOlder k).symm
    next hi => exact (hOlder i).symm

/-! ## Lines and depths -/

/-- Every frame is younger than the one it hangs below. -/
def Grounded : List Planted → Prop
  | [] => True
  | p :: older => (∀ j ∈ p.parent, j < older.length) ∧ Grounded older

/-- A frame hangs below an older one. -/
theorem Grounded.parent_lt {entries : List Planted} (h : Grounded entries) {i j : Nat}
    (hj : (planted? entries i).bind Planted.parent = some j) : j < i := by
  induction entries with
  | nil => cases hj
  | cons p older ih =>
    rw [planted?] at hj
    split at hj
    next hi =>
      rw [hi]
      exact h.1 j hj
    next hi => exact ih h.2 hj

/-- The line of a frame is the frame and the line of its parent. -/
theorem Grounded.lineIn_eq {entries : List Planted} (h : Grounded entries) {i : Nat}
    (hi : i < entries.length) :
    lineIn entries i =
      i :: ((planted? entries i).bind Planted.parent).elim [] (lineIn entries) := by
  induction entries generalizing i with
  | nil => cases hi
  | cons p older ih =>
    have hOlder : ∀ j < older.length, lineIn (p :: older) j = lineIn older j :=
      fun j hj => by rw [lineIn, if_neg hj.ne]
    by_cases hLatest : i = older.length
    · rw [lineIn, if_pos hLatest, planted?, if_pos hLatest, Option.bind_some]
      cases hParent : p.parent with
      | none => rfl
      | some j => rw [Option.elim_some, hOlder j (h.1 j hParent)]
    · have hLess : i < older.length := by
        rw [List.length_cons] at hi
        omega
      rw [hOlder i hLess, planted?_cons_of_lt hLess, ih h.2 hLess]
      cases hParent : (planted? older i).bind Planted.parent with
      | none => rfl
      | some j =>
        have hj := h.2.parent_lt hParent
        rw [Option.elim_some, Option.elim_some, hOlder j (by omega)]

theorem Grounded.countOutward_eq {entries : List Planted} (h : Grounded entries) {i : Nat}
    (hi : i < entries.length) : countOutward entries i + 1 = (lineIn entries i).length := by
  induction entries generalizing i with
  | nil => cases hi
  | cons p older ih =>
    rw [countOutward, lineIn]
    split
    next hLatest =>
      cases hParent : p.parent with
      | none => rfl
      | some j =>
        rw [List.length_cons]
        exact congrArg (· + 1) (ih h.2 (h.1 j hParent))
    next hLatest =>
      rw [List.length_cons] at hi
      exact ih h.2 (by omega)

/-! ## Changing one frame -/

section Change

variable (g : Frame → Frame) (entries : List Planted) (i : Nat)

@[simp] theorem length_change : (change g entries i).length = entries.length := by
  induction entries with
  | nil => rfl
  | cons p older ih =>
    rw [change]
    split
    · rfl
    · rw [List.length_cons, List.length_cons, ih]

theorem planted?_change (k : Nat) :
    planted? (change g entries i) k =
      if k = i then (planted? entries k).map fun p => { p with frame := g p.frame }
      else planted? entries k := by
  induction entries with
  | nil => simp [change, planted?]
  | cons p older ih =>
    rw [change]
    by_cases hi : i = older.length
    · by_cases hk : k = older.length
      · simp [planted?, hi, hk]
      · simp [planted?, hi, hk]
    · by_cases hk : k = older.length
      · simp [planted?, hk, Ne.symm hi, hi]
      · simp [planted?, hi, hk, ih]

theorem parent_change (k : Nat) :
    (planted? (change g entries i) k).bind Planted.parent =
      (planted? entries k).bind Planted.parent := by
  rw [planted?_change]
  split
  · cases planted? entries k <;> rfl
  · rfl

@[simp] theorem lineIn_change (k : Nat) : lineIn (change g entries i) k = lineIn entries k := by
  induction entries generalizing k with
  | nil => rfl
  | cons p older ih =>
    rw [change]
    split
    · rfl
    · rw [lineIn, lineIn, length_change]
      simp only [ih]

variable {entries} in
theorem Grounded.change (h : Grounded entries) : Grounded (change g entries i) := by
  induction entries with
  | nil => trivial
  | cons p older ih =>
    rw [Forest.change]
    split
    · exact h
    · refine ⟨?_, ih h.2⟩
      rw [length_change]
      exact h.1

end Change

/-- A frame in which a name is bound anew, all else as it was. -/
structure Rebound (f : Forest) (i : Nat) (name : Name) (v : Value) (later : Forest) : Prop where
  size : later.size = f.size
  parent : ∀ k, later.parent? k = f.parent? k
  value : ∀ k other, later.value? k other =
    if k = i ∧ other = name then some v else f.value? k other

theorem rebound_define {f : Forest} {i : Nat} (hi : i < f.size) (name : Name) (v : Value) :
    f.Rebound i name v (f.define i name v) where
  size := length_change _ _ i
  parent k := parent_change _ _ i k
  value k other := by
    simp only [value?, valueIn, define, planted?_change]
    by_cases hk : k = i
    · obtain ⟨p, hp⟩ := exists_planted hi
      simp [hk, hp, Frame.get?_define]
    · simp [hk]

/-- Where a name is bound already, binding it anew moves no nearest
binding. -/
theorem nearest?_define {f : Forest} {j : Nat} {name : Name} (hj : j < f.size)
    (hBound : (f.value? j name).isSome) (v : Value) (k : Nat) (other : Name) :
    (f.define j name v).nearest? k other = f.nearest? k other := by
  have hLine : lineIn (f.define j name v).entries k = lineIn f.entries k := lineIn_change ..
  rw [nearest?, nearestIn, hLine, nearest?, nearestIn]
  refine List.find?_congr fun m _ => ?_
  have hValue := (rebound_define hj name v).value m other
  rw [value?, value?] at hValue
  rw [hValue]
  split
  next hSame => rw [hSame.1, hSame.2, ← value?, hBound, Option.isSome_some]
  next => rfl

/-! ## One action -/

section Perform

variable {f : Forest} {i j : Nat} {t : Token} {name : Name}

theorem isSome_of_nearest? (h : f.nearest? i name = some j) : (f.value? j name).isSome :=
  List.find?_some (p := fun j => (f.value? j name).isSome) h

theorem perform_assign_of_some (hName : Name.ofJson? t.lexeme = some name)
    (h : f.nearest? i name = some j) (v : Value) :
    f.perform (.assign i t v) = (.ok none, f.define j name v) := by
  have hNear : nearestIn name f.entries i = some j := h
  simp only [perform, assign, hName, assignOutward_eq, hNear, Option.map_some]
  rfl

theorem perform_assign_of_none (hName : Name.ofJson? t.lexeme = some name)
    (h : f.nearest? i name = none) (v : Value) :
    f.perform (.assign i t v) = (.error (.undefined t), f) := by
  have hNear : nearestIn name f.entries i = none := h
  simp only [perform, assign, hName, assignOutward_eq, hNear, Option.map_none]

/-- Reading answers with the value of the nearest binding. -/
theorem perform_get (hName : Name.ofJson? t.lexeme = some name) :
    f.perform (.get i t) =
      (match (f.nearest? i name).bind fun j => f.value? j name with
        | some v => .ok (some v)
        | none => .error (.undefined t), f) := by
  simp only [perform, get, hName, readOutward_eq, nearest?, value?]
  cases (nearestIn name f.entries i).bind fun j => valueIn f.entries j name <;> rfl

end Perform

/-- A forest with one more frame, which binds nothing. -/
structure Added (f : Forest) (parent : Option Nat) (later : Forest) : Prop where
  size : later.size = f.size + 1
  parent : ∀ k, later.parent? k = if k = f.size then parent else f.parent? k
  unbound : ∀ name, later.value? f.size name = none
  value : ∀ k < f.size, ∀ name, later.value? k name = f.value? k name

theorem added_cons (f : Forest) (parent : Option Nat) :
    f.Added parent ⟨⟨.empty, parent⟩ :: f.entries⟩ where
  size := List.length_cons
  parent k := by
    rw [parent?, planted?, size]
    split
    · rfl
    · rfl
  unbound name := by
    rw [value?, valueIn, planted?, size, if_pos rfl]
    rfl
  value k hk name := valueIn_cons_of_lt hk name

theorem value?_eq_none {f : Forest} {i : Nat} (h : f.size ≤ i) (name : Name) :
    f.value? i name = none := by
  rw [value?, valueIn, planted?_eq_none h, Option.bind_none]

/-- All that an action can do: leave the forest as it is, add a frame, or
bind a name in a frame. -/
theorem perform_cases {f : Forest} {a : Action} (ha : f.Allows a) :
    ((f.perform a).2 = f ∧ f.written? a = none) ∨
    (∃ parent : Option Nat, (∀ j ∈ parent, j < f.size) ∧
      (f.perform a).2 = ⟨⟨.empty, parent⟩ :: f.entries⟩ ∧ f.written? a = none) ∨
    (∃ i < f.size, ∃ name v,
      (f.perform a).2 = f.define i name v ∧ f.written? a = some ⟨i, name, v⟩) := by
  match a with
  | .plant => exact .inr (.inl ⟨none, fun j hj => absurd hj (Option.not_mem_none j), rfl, rfl⟩)
  | .grow i =>
    refine .inr (.inl ⟨some i, ?_, rfl, rfl⟩)
    rintro _ ⟨⟩
    exact ha
  | .define i name v => exact .inr (.inr ⟨i, ha, name, v, rfl, rfl⟩)
  | .get i t => exact .inl ⟨rfl, rfl⟩
  | .assign i t v =>
    cases hName : Name.ofJson? t.lexeme with
    | none => exact .inl (by simp [perform, assign, written?, hName])
    | some name =>
      cases hNear : f.nearest? i name with
      | none =>
        rw [perform_assign_of_none hName hNear]
        exact .inl (by simp [written?, hName, hNear])
      | some j =>
        rw [perform_assign_of_some hName hNear]
        exact .inr (.inr ⟨j, nearestIn_lt hNear, name, v, by simp [written?, hName, hNear]⟩)

/-! ## Frames and record -/

theorem lastWritten_cons (w : Write) (writes : List Write) (i : Nat) (name : Name) :
    lastWritten (w :: writes) i name =
      if i = w.frame ∧ name = w.name then some w.value else lastWritten writes i name := by
  by_cases h : i = w.frame ∧ name = w.name
  · rw [if_pos h, lastWritten, List.find?_cons_of_pos (by simp [h.1, h.2]), Option.map_some]
  · rw [if_neg h, lastWritten, List.find?_cons_of_neg, lastWritten]
    rw [decide_eq_true_eq]
    exact fun hSame => h ⟨hSame.1.symm, hSame.2.symm⟩

/-- The frames bind what the record says was written last. -/
structure Recorded (writes : List Write) (f : Forest) : Prop where
  grounded : Grounded f.entries
  value : ∀ i name, f.value? i name = lastWritten writes i name

namespace Recorded

variable {writes : List Write} {f : Forest}

theorem empty : Recorded [] ⟨[]⟩ :=
  ⟨trivial, fun _ _ => rfl⟩

theorem added (h : Recorded writes f) {parent : Option Nat} (hParent : ∀ j ∈ parent, j < f.size) :
    Recorded writes ⟨⟨.empty, parent⟩ :: f.entries⟩ := by
  have hAdded := f.added_cons parent
  refine ⟨⟨hParent, h.grounded⟩, fun i name => ?_⟩
  rw [← h.value]
  rcases lt_trichotomy i f.size with hOlder | rfl | hBeyond
  · exact hAdded.value i hOlder name
  · rw [hAdded.unbound, value?_eq_none le_rfl]
  · rw [value?_eq_none hBeyond.le, value?_eq_none]
    rw [hAdded.size]
    omega

theorem define (h : Recorded writes f) {i : Nat} (hi : i < f.size) (name : Name) (v : Value) :
    Recorded (⟨i, name, v⟩ :: writes) (f.define i name v) where
  grounded := h.grounded.change _ i
  value k other := by
    rw [(rebound_define hi name v).value, lastWritten_cons, h.value]

/-- An action writes to the record what it changes in the frames. -/
theorem perform (h : Recorded writes f) {a : Action} (ha : f.Allows a) :
    Recorded ((f.written? a).toList ++ writes) (f.perform a).2 := by
  obtain ⟨hSame, hWritten⟩ | ⟨parent, hParent, hAdded, hWritten⟩ |
    ⟨i, hi, name, v, hDefined, hWritten⟩ := perform_cases ha
  · rw [hSame, hWritten]
    exact h
  · rw [hAdded, hWritten]
    exact h.added hParent
  · rw [hDefined, hWritten]
    exact h.define hi name v

/-- Every history keeps the frames and the record together. -/
theorem after (h : Recorded writes f) (actions : List Action) (hActions : f.AllowsAll actions) :
    Recorded (f.writes actions ++ writes) (f.after actions) := by
  induction actions generalizing f writes with
  | nil => exact h
  | cons a rest ih =>
    have hRest := ih (h.perform hActions.1) hActions.2
    rwa [← List.append_assoc] at hRest

end Recorded

/-! ## What every history leads to -/

/-- A forest in which names mean their nearest bindings, and these hold
what was written to them last. -/
structure Scoping (writes : List Write) (f : Forest) : Prop where
  /-- A frame and the frames around it: its parent and the frames around
  that one. Parents are older, so that every line ends at a root. -/
  line : ∀ i < f.size, f.line i = i :: (f.parent? i).elim [] f.line
  older : ∀ i j, f.parent? i = some j → j < i
  /-- The depth is the number of frames around a frame. -/
  depth : ∀ i < f.size, f.depth i = (f.line i).tail.length
  plant : ∃ later, f.perform .plant = (.ok none, later) ∧ f.Added none later
  grow : ∀ i < f.size, ∃ later, f.perform (.grow i) = (.ok none, later) ∧ f.Added (some i) later
  /-- Defining changes one binding of the frame itself. -/
  define : ∀ i < f.size, ∀ name v, ∃ later,
    f.perform (.define i name v) = (.ok none, later) ∧ f.Rebound i name v later
  /-- Assigning changes the nearest binding. The value is seen from every
  frame with the same nearest binding, and from no other. -/
  assign : ∀ i < f.size, ∀ t name v, Name.ofJson? t.lexeme = some name →
    ∀ j, f.nearest? i name = some j → ∃ later,
      f.perform (.assign i t v) = (.ok none, later) ∧ f.Rebound j name v later ∧
      ∀ k u other, Name.ofJson? u.lexeme = some other → (later.perform (.get k u)).1 =
        if other = name ∧ f.nearest? k name = some j then .ok (some v)
        else (f.perform (.get k u)).1
  /-- Reading gives what was last written to the nearest binding. -/
  get : ∀ i < f.size, ∀ t name, Name.ofJson? t.lexeme = some name →
    ∀ j, f.nearest? i name = some j → ∃ v,
      f.perform (.get i t) = (.ok (some v), f) ∧ lastWritten writes j name = some v
  /-- Where no frame on the line binds a name, both halt and nothing is
  changed. Only an integer with too many digits has no text for the error. -/
  undefined : ∀ i < f.size, ∀ t name v, Name.ofJson? t.lexeme = some name →
    (∀ j ∈ f.line i, f.value? j name = none) → ∃ stop,
      f.perform (.assign i t v) = (.error stop, f) ∧ f.perform (.get i t) = (.error stop, f) ∧
      ((∀ n, t.lexeme ≠ .long n) → ∃ what, stop = .error t what ∧
        what.message = "Undefined variable '" ++ t.lexeme.shown ++ "'.")

theorem Recorded.scoping {writes : List Write} {f : Forest} (h : Recorded writes f) :
    Scoping writes f where
  line i hi := h.grounded.lineIn_eq hi
  older i j hj := h.grounded.parent_lt hj
  depth i hi := by
    rw [List.length_tail, line, ← h.grounded.countOutward_eq hi]
    rfl
  plant := ⟨_, rfl, f.added_cons none⟩
  grow i _ := ⟨_, rfl, f.added_cons (some i)⟩
  define i hi name v := ⟨_, rfl, rebound_define hi name v⟩
  assign i _ t name v hName j hNear := by
    have hj : j < f.size := nearestIn_lt hNear
    have hRebound := rebound_define hj name v
    refine ⟨_, perform_assign_of_some hName hNear v, hRebound, fun k u other hOther => ?_⟩
    rw [perform_get hOther, perform_get hOther,
      nearest?_define hj (isSome_of_nearest? hNear) v k other]
    simp only [hRebound.value]
    by_cases hSame : other = name
    · subst hSame
      cases hk : f.nearest? k other with
      | none => simp
      | some m =>
        by_cases hm : m = j
        · simp [hm]
        · simp [hm]
    · simp [hSame]
  get i _ t name hName j hNear := by
    obtain ⟨v, hv⟩ := Option.isSome_iff_exists.mp (isSome_of_nearest? hNear)
    refine ⟨v, ?_, by rw [← h.value, hv]⟩
    rw [perform_get hName, hNear, Option.bind_some, hv]
  undefined i _ t name v hName hNone := by
    have hNear : f.nearest? i name = none := by
      refine List.find?_eq_none.mpr fun j hj => ?_
      rw [← value?, hNone j hj]
      decide
    refine ⟨.undefined t, perform_assign_of_none hName hNear v, ?_, fun hShort => ?_⟩
    · rw [perform_get hName, hNear]
      rfl
    · obtain ⟨text, hText⟩ := Name.exists_text hName hShort
      exact ⟨.undefined t.lexeme, Halt.undefined_of_text hText, Misuse.message_undefined hText⟩

/-- After every history of actions on frames that are there, names mean
their nearest bindings, and these hold what was written to them last. -/
theorem nearest_binding (actions : List Action) (h : (⟨[]⟩ : Forest).AllowsAll actions) :
    Scoping ((⟨[]⟩ : Forest).writes actions) ((⟨[]⟩ : Forest).after actions) := by
  have hRecorded := Recorded.empty.after actions h
  rw [List.append_nil] at hRecorded
  exact hRecorded.scoping

/-- Two frames below one root, of which the first hides the root's name
behind nil: what is assigned through the second one is written to the root,
and what is assigned through the first one is not. -/
theorem nearest_binding_siblings :
    let a := Token.ofSource .identifier "a" .nil 1
    let actions : List Action := [.plant, .grow 0, .grow 0, .define 0 (.text "a") (.bool true),
      .define 1 (.text "a") .nil, .assign 2 a (.bool false), .assign 1 a (.string "b")]
    let f := (⟨[]⟩ : Forest).after actions
    (⟨[]⟩ : Forest).AllowsAll actions ∧ Scoping ((⟨[]⟩ : Forest).writes actions) f ∧
      (f.perform (.get 0 a)).1 = .ok (some (.bool false)) ∧
      (f.perform (.get 1 a)).1 = .ok (some (.string "b")) := by
  intro a actions f
  have hActions : (⟨[]⟩ : Forest).AllowsAll actions := by decide +kernel
  exact ⟨hActions, nearest_binding actions hActions, rfl, rfl⟩

end Treewalk.Forest
