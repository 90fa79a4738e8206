import Treewalk.Proofs.Machine.Correspondence

/-!
# Rounds enough

A loop may go round as often as the settings say. A run that no loop cut
short is the same with more rounds (`visitAll_stable`), so it makes sense to
say how a program ends without naming a number: with rounds enough
(`Settles`). It ends in one way at most, and a program in two parts ends as
the first part does if that halts (`settles_append_of_error`), and else from
there as the second part does (`settles_append_of_ok`).
-/

namespace Treewalk

/-- The second run is the first one, unless that was cut short. -/
def Run.StableAs {α : Type} (run run' : Run α) : Prop :=
  ∀ m, (run m).1 ≠ .error .spent → run' m = run m

namespace Run.StableAs

variable {α β : Type}

theorem refl (run : Run α) : StableAs run run :=
  fun _ _ => rfl

theorem bind {run run' : Run α} {next next' : α → Run β} (h : StableAs run run')
    (hNext : ∀ v, StableAs (next v) (next' v)) : StableAs (run >>= next) (run' >>= next') := by
  intro m hEnd
  have hSame := h m
  cases hRun : run m with
  | mk ending later =>
    rw [hRun] at hSame
    cases ending with
    | ok v =>
      rw [bind_of_ok hRun] at hEnd ⊢
      rw [bind_of_ok (hSame nofun)]
      exact hNext v later hEnd
    | error halt =>
      rw [bind_of_error hRun] at hEnd ⊢
      have hHalt : (.error halt : Except Halt α) ≠ .error .spent := by
        intro h
        cases h
        exact hEnd rfl
      exact bind_of_error (hSame hHalt)

theorem inFrame {run run' : Run α} (h : StableAs run run') :
    StableAs (.inFrame run) (.inFrame run') := by
  intro m hEnd
  have hSame := h { m with scope := m.scope.push } hEnd
  rw [Run.inFrame, Run.inFrame, hSame]

/-- More rounds change nothing for a loop that had enough. -/
theorem repeatWhile {test test' : Run Bool} {body body' : Run Unit} (hTest : StableAs test test')
    (hBody : StableAs body body') {rounds rounds' : Nat} (h : rounds ≤ rounds') (count : Nat) :
    StableAs (.repeatWhile test body rounds count) (.repeatWhile test' body' rounds' count) := by
  induction rounds generalizing rounds' count with
  | zero =>
    intro m hEnd
    exact absurd rfl hEnd
  | succ rounds ih =>
    obtain ⟨more, rfl⟩ := Nat.exists_eq_add_of_le' (Nat.le_trans (Nat.succ_pos rounds) h)
    rw [repeatWhile_succ, repeatWhile_succ]
    refine bind hTest fun goes => ?_
    cases goes with
    | true => exact bind hBody fun _ => ih (Nat.le_of_succ_le_succ h) (count + 1)
    | false => exact refl _

theorem correspondence {σ τ : Settings} (hVerbosity : σ.verbosity = τ.verbosity)
    (hRounds : σ.rounds ≤ τ.rounds) : Correspondence σ τ .same StableAs where
  done v := refl _
  bind := bind
  fault _ := refl _
  print v := refl _
  trace := by
    intro level line line' hLevel _ _ hLine
    unfold Run.trace
    rw [← hVerbosity]
    split
    · next hLoud =>
      rw [hLine (Nat.lt_of_lt_of_le hLevel hLoud)]
      exact refl _
    · exact refl _
  depth := refl _
  lookup h := by
    cases h
    exact refl _
  define v h := by
    cases h
    exact refl _
  assign v h := by
    cases h
    exact refl _
  unary b h := by
    cases h
    exact refl _
  binary a b h := by
    cases h
    exact refl _
  inFrame := inFrame
  repeatWhile hTest hBody := repeatWhile hTest hBody hRounds 0
  kind h := by
    cases h
    rfl
  same _ _ _ := id

end Run.StableAs

/-- A run that was not cut short is the same with more rounds. -/
theorem visitAll_stable {verbosity rounds rounds' : Nat} (h : rounds ≤ rounds') {ns : List Node}
    {m : Machine} (hEnd : (visitAll ⟨verbosity, rounds⟩ ns m).1 ≠ .error .spent) :
    visitAll ⟨verbosity, rounds'⟩ ns m = visitAll ⟨verbosity, rounds⟩ ns m := by
  have c : Correspondence ⟨verbosity, rounds⟩ ⟨verbosity, rounds'⟩ .same Run.StableAs :=
    Run.StableAs.correspondence rfl h
  exact visitAll_corresponds c ns (Node.allAlike_self ns) m hEnd

/-! ## How a program ends -/

/-- With rounds enough, nodes in a row end this way. -/
def Settles (verbosity : Nat) (ns : List Node) (m : Machine)
    (result : Except Halt Unit × Machine) : Prop :=
  result.1 ≠ .error .spent ∧ ∃ rounds, visitAll ⟨verbosity, rounds⟩ ns m = result

namespace Settles

variable {verbosity : Nat} {ns ms : List Node} {m : Machine}
  {result result' : Except Halt Unit × Machine}

theorem mono (h : result.1 ≠ .error .spent) {rounds rounds' : Nat}
    (hRun : visitAll ⟨verbosity, rounds⟩ ns m = result) (hLe : rounds ≤ rounds') :
    visitAll ⟨verbosity, rounds'⟩ ns m = result := by
  rw [visitAll_stable hLe (by rw [hRun]; exact h), hRun]

/-- Nodes in a row end in one way at most. -/
theorem unique (h : Settles verbosity ns m result) (k : Settles verbosity ns m result') :
    result = result' := by
  obtain ⟨hEnd, rounds, hRun⟩ := h
  obtain ⟨kEnd, rounds', kRun⟩ := k
  rw [← mono hEnd hRun (Nat.le_max_left rounds rounds'),
    mono kEnd kRun (Nat.le_max_right rounds rounds')]

end Settles

theorem visitAll_append (σ : Settings) (ns ms : List Node) :
    visitAll σ (ns ++ ms) = visitAll σ ns >>= fun _ => visitAll σ ms := by
  induction ns with
  | nil => rfl
  | cons n rest ih =>
    funext m
    rw [List.cons_append, visitAll, visitAll, ih]
    cases hFirst : visit σ n m with
    | mk ending later =>
      cases ending with
      | ok v =>
        rw [Run.bind_of_ok hFirst]
        cases hRest : visitAll σ rest later with
        | mk ending' last =>
          cases ending' with
          | ok u =>
            rw [Run.bind_of_ok hRest, Run.bind_of_ok ((Run.bind_of_ok hFirst).trans hRest)]
          | error halt =>
            rw [Run.bind_of_error hRest, Run.bind_of_error ((Run.bind_of_ok hFirst).trans hRest)]
      | error halt =>
        rw [Run.bind_of_error hFirst, Run.bind_of_error (Run.bind_of_error hFirst)]

section

variable {verbosity : Nat} {ns ms : List Node} {m mid : Machine} {halt : Halt}
  {result : Except Halt Unit × Machine}

/-- Behind a first part that is done the second part decides. -/
theorem settles_append_of_ok (h : Settles verbosity ns m (.ok (), mid)) :
    Settles verbosity (ns ++ ms) m result ↔ Settles verbosity ms mid result := by
  obtain ⟨hDone, rounds, hRun⟩ := h
  constructor
  · intro ⟨hEnd, rounds', hBoth⟩
    refine ⟨hEnd, max rounds rounds', ?_⟩
    have hBoth := Settles.mono hEnd hBoth (Nat.le_max_right rounds rounds')
    have hFirst := Settles.mono hDone hRun (Nat.le_max_left rounds rounds')
    rwa [visitAll_append, Run.bind_of_ok hFirst] at hBoth
  · intro ⟨hEnd, rounds', hSecond⟩
    refine ⟨hEnd, max rounds rounds', ?_⟩
    rw [visitAll_append, Run.bind_of_ok (Settles.mono hDone hRun (Nat.le_max_left _ _)),
      Settles.mono hEnd hSecond (Nat.le_max_right _ _)]

/-- Behind a first part that halts the second part is not begun. -/
theorem settles_append_of_error (h : Settles verbosity ns m (.error halt, mid)) :
    Settles verbosity (ns ++ ms) m result ↔ Settles verbosity ns m result := by
  have hBoth : Settles verbosity (ns ++ ms) m (.error halt, mid) := by
    obtain ⟨hEnd, rounds, hRun⟩ := h
    refine ⟨hEnd, rounds, ?_⟩
    rw [visitAll_append, Run.bind_of_error hRun]
  constructor
  · intro hResult
    rwa [hResult.unique hBoth]
  · intro hResult
    rwa [hResult.unique h]

end

end Treewalk
