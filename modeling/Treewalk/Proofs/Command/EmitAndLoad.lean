import Treewalk.Command
import Treewalk.Proofs.Command.Store
import Treewalk.Proofs.Tree.Stored

/-!
# A script and its tree file

Running the tree file of a script is running the script
(`load_emitted_eq_script`): the trees survive the file, and a session in
which no mistake was found is the one that a tree file is run in. A script
with a mistake has no tree file, and writing one reports what running the
script reports.
-/

namespace Treewalk

/-- A source text with a lexical mistake or one of syntax. -/
def Mistaken (source : String) : Prop :=
  (scan source).diagnostics ≠ [] ∨ (parse (scan source).tokens).notes ≠ []

theorem not_mistaken_iff {source : String} : ¬ Mistaken source ↔
    (scan source).diagnostics = [] ∧ (parse (scan source).tokens).notes = [] := by
  rw [Mistaken, not_or, ne_eq, not_not, ne_eq, not_not]

/-! ## Sessions -/

namespace Session

theorem entries_reportAll (s : Session) (ds : List Diagnostic) :
    (s.reportAll ds).ledger.entries = s.ledger.entries ++ ds := by
  unfold reportAll
  induction ds generalizing s with
  | nil => simp
  | cons d rest ih => rw [List.foldl_cons, ih, report, write, Ledger.add, List.append_assoc]; rfl

theorem isMistake_scan (source : String) :
    ∀ d ∈ (scan source).diagnostics, d.isMistake := by
  intro d hd
  obtain ⟨⟨segment, line⟩, -, hFound⟩ := List.mem_filterMap.mp hd
  cases segment with
  | stray | unclosed =>
    cases hFound
    rfl
  | _ => cases hFound

/-- Reading a text into a clear ledger finds an error if the text has a
mistake. -/
theorem hadError_parse {s : Session} (h : s.ledger = .empty) (source : String) :
    (s.parse source).2.ledger.hadError ↔ Mistaken source := by
  have hEntries : (s.parse source).2.ledger.entries = (scan source).diagnostics ++
      (Treewalk.parse (scan source).tokens).notes.map Complaint.diagnostic := by
    simp only [parse, ledger_trace, entries_reportAll, h]
    rfl
  rw [Ledger.hadError, hEntries, List.any_eq_true, Mistaken]
  constructor
  · rintro ⟨d, hd, -⟩
    rcases List.mem_append.mp hd with hd | hd
    · exact .inl (List.ne_nil_of_mem hd)
    · obtain ⟨note, hNote, -⟩ := List.mem_map.mp hd
      exact .inr (List.ne_nil_of_mem hNote)
  · rintro (hScan | hParse)
    · obtain ⟨d, hd⟩ := List.exists_mem_of_ne_nil _ hScan
      exact ⟨d, List.mem_append_left _ hd, isMistake_scan source d hd⟩
    · obtain ⟨note, hNote⟩ := List.exists_mem_of_ne_nil _ hParse
      exact ⟨_, List.mem_append_right _ (List.mem_map_of_mem hNote), rfl⟩

/-- Without mistakes and without a trace reading leaves the session as it
was. -/
theorem parse_eq_of_not_mistaken {s : Session} (h : s.settings.verbosity = 0) {source : String}
    (hSource : ¬ Mistaken source) :
    s.parse source = ((Treewalk.parse (scan source).tokens).entries, s) := by
  obtain ⟨hScan, hNotes⟩ := not_mistaken_iff.mp hSource
  have hTrace : ∀ line, s.trace 4 line = s := fun line => if_neg (by omega)
  simp only [parse, hScan, hNotes, List.map_nil, reportAll, List.foldl_nil, hTrace]

/-- A text with a mistake is not run. -/
theorem run_of_mistaken {s : Session} (h : s.ledger = .empty) {source : String}
    (hSource : Mistaken source) : s.run source = (.finished, (s.parse source).2) := by
  rw [run]
  exact if_pos ((hadError_parse h source).mpr hSource)

/-- A text without a mistake is run as the program it is read as. -/
theorem run_of_not_mistaken {s : Session} (h : s.ledger = .empty)
    (hQuiet : s.settings.verbosity = 0) {source : String} (hSource : ¬ Mistaken source) :
    s.run source =
      s.interpret ((Treewalk.parse (scan source).tokens).entries.map Stmt.toNode?) := by
  have hError := (hadError_parse h source).not.mpr hSource
  rw [parse_eq_of_not_mistaken hQuiet hSource] at hError
  rw [run, parse_eq_of_not_mistaken hQuiet hSource]
  exact if_neg hError

end Session

namespace Command

/-! ## Tasks -/

/-- A path leads to a file, and the text of the file is the given one up to
its line ends. -/
def Store.HasText (s : Store) (p : Path) (source : String) : Prop :=
  ∃ contents text, s.entry p = .file contents ∧ String.fromUTF8? contents = some text ∧
    unifyNewlines text = source

theorem withText_script {s : Store} {p : Path} {source : String} (h : s.HasText p source)
    (session : Session) (next : String → Performance) :
    withText session p (s.entry p) next = next source := by
  obtain ⟨contents, text, hEntry, hText, rfl⟩ := h
  rw [hEntry]
  simp only [withText, hText]

/-- A text is read from its own bytes. -/
theorem fromUTF8_encoded (text : String) : String.fromUTF8? text.toUTF8 = some text := by
  have hValid : text.toUTF8.IsValidUTF8 := text.isValidUTF8
  rw [String.fromUTF8?, dif_pos hValid]
  rfl

/-- A text that was written is read as it is, if it has no carriage
return. -/
theorem withText_written {s later : Store} {p : Path} {text : String}
    (h : s.write? p text = some later) (hText : unifyNewlines text = text) (session : Session)
    (next : String → Performance) : withText session p (later.entry p) next = next text := by
  rw [Store.entry_write h]
  simp only [withText, fromUTF8_encoded, hText]

/-- Without `-v` the command only performs its task. -/
theorem run_eq_perform {args : List String} {task : Task}
    (h : Plan.ofArguments args = .perform 0 task) (rounds : Nat) (store : Store) (input : String) :
    run rounds args store input = Report.ofPerformance store
      (perform (.start ⟨0, rounds⟩) store.entry (lines (unifyNewlines input)) task) := by
  rw [run, h]
  rfl

section

variable {store : Store} {p : Path} {source : String}

/-- The trees of a source text as a tree file holds them. -/
def treeText (source : String) : String :=
  (Node.programToJson ((parse (scan source).tokens).entries.map Stmt.toNode?)).render

/-- What a script is turned into is what is run in its place. -/
theorem load_treeText {s : Session} (h : s.ledger = .empty) (hQuiet : s.settings.verbosity = 0)
    (hLines : source.toList.count '\n' + 1 < 10 ^ integerDigits)
    (hSource : ¬ Mistaken source) :
    load s (treeText source) = .ofEnding Session.status (s.run source) := by
  obtain ⟨json, hJson, hProgram⟩ := load_render hLines
  rw [Session.run_of_not_mistaken h hQuiet hSource, load, treeText, hJson]
  simp only [hProgram]

theorem emit_of_mistaken {s : Session} (h : s.ledger = .empty) (look : Path → Entry)
    (hSource : Mistaken source) :
    emit s look p source = { outcome := .exited 65, session := (s.parse source).2 } := by
  rw [emit]
  exact if_pos ((Session.hadError_parse h source).mpr hSource)

theorem script_of_mistaken {s : Session} (h : s.ledger = .empty) (hSource : Mistaken source) :
    Performance.ofEnding Session.status (s.run source) =
      { outcome := .exited 65, session := (s.parse source).2 } := by
  have hStatus : (s.parse source).2.status = 65 :=
    if_pos ((Session.hadError_parse h source).mpr hSource)
  rw [Session.run_of_mistaken h hSource, Performance.ofEnding, hStatus]

/-- What stands in place of the tree file decides whether it is written. -/
theorem emit_of_not_mistaken {s : Session} (hQuiet : s.settings.verbosity = 0)
    (h : s.ledger = .empty) (look : Path → Entry) (hSource : ¬ Mistaken source) :
    emit s look p source =
      match look (treePath p) with
      | .directory => { outcome := .escaped .directory, session := s }
      | .overlong => { outcome := .escaped .overlong, session := s }
      | .missing | .file _ =>
        { outcome := .exited 0, session := s.write (.printed (treePath p).text),
          written := some (treePath p, treeText source) } := by
  have hError := (Session.hadError_parse h source).not.mpr hSource
  simp only [emit, Session.parse_eq_of_not_mistaken hQuiet hSource] at hError ⊢
  exact if_neg hError

theorem emit_written {s : Session} (hQuiet : s.settings.verbosity = 0) (h : s.ledger = .empty)
    {look : Path → Entry} (hSource : ¬ Mistaken source)
    (hDirectory : look (treePath p) ≠ .directory) (hOverlong : look (treePath p) ≠ .overlong) :
    emit s look p source =
      { outcome := .exited 0, session := s.write (.printed (treePath p).text),
        written := some (treePath p, treeText source) } := by
  rw [emit_of_not_mistaken hQuiet h look hSource]
  cases hLook : look (treePath p) with
  | directory => exact absurd hLook hDirectory
  | overlong => exact absurd hLook hOverlong
  | missing => rfl
  | file contents => rfl

/-- Running a script without mistakes ends with success or with a run-time
error, unless a loop had too few rounds. -/
theorem script_outcome (settings : Settings) (hQuiet : settings.verbosity = 0)
    (hSource : ¬ Mistaken source) :
    (Performance.ofEnding Session.status ((Session.start settings).run source)).outcome ∈
      [Outcome.exited 0, .exited 70, .escaped .spent] := by
  obtain ⟨entries, rest, notes, hParse, hSound⟩ := parse_scan_sound source (scan_supplies source)
  have hStart : (Session.start settings).machine.scope.Holds (Value.PlainUnless False) :=
    Scope.holds_empty
  obtain ⟨hEnding, -, hLedger⟩ := Session.interpret_safe (.start settings) hStart entries hSound
  rw [Session.run_of_not_mistaken rfl hQuiet hSource, hParse, Parse.entries]
  generalize (Session.start settings).interpret (entries.map Stmt.toNode?) = result
    at hEnding hLedger ⊢
  obtain ⟨ending, session⟩ := result
  rcases hEnding with hEnding | hEnding | ⟨-, hTorn, -⟩
  · have hStatus : session.status = 0 ∨ session.status = 70 := by
      rcases hLedger with hLedger | ⟨line, what, hLedger, -⟩
      · exact .inl (by rw [Session.status, hLedger]; rfl)
      · exact .inr (by rw [Session.status, hLedger]; rfl)
    rcases hStatus with hStatus | hStatus <;>
      simp [Performance.ofEnding, show ending = _ from hEnding, hStatus]
  · simp [Performance.ofEnding, show ending = _ from hEnding]
  · exact hTorn.elim

/-- The tree file of a script that can be written is written. -/
theorem exists_write_treePath (hs : store.WellFormed) (hText : store.HasText p source)
    (hDirectory : store.entry (treePath p) ≠ .directory)
    (hOverlong : store.entry (treePath p) ≠ .overlong) (text : String) :
    ∃ later, store.write? (treePath p) text = some later := by
  obtain ⟨contents, -, hEntry, -⟩ := hText
  obtain ⟨place, hLocate, hContents⟩ := Store.file_of_entry hEntry
  have hUp : ∀ part : String, part ++ ".ast.json" ≠ ".." := by
    intro part hEq
    have hLength := congrArg String.length hEq
    rw [String.length_append, show ".ast.json".length = 9 from rfl, show "..".length = 2 from rfl]
      at hLength
    omega
  obtain hLong | ⟨beside, hBeside⟩ := Store.locate_extended hs hLocate hContents
    (by decide : Char.ofNat 0 ∉ ".ast.json".toList) hUp
  · refine absurd ?_ hOverlong
    rw [treePath, Store.entry, hLong]
  · exact Store.exists_write hs hBeside hDirectory text

end

/-! ## The command -/

/-- Writing the tree file of a script and running it is running the
script. With a mistake in the script both end with status 65 and report
the same, and no file is touched. Without one the tree file is written
beside the script, and running it ends as running the script does, with
the same output and the same errors, and that is with status 0 or 70
unless a loop had too few rounds. Only where a directory stands in place
of the tree file, or its name is too long, is nothing written. -/
theorem load_emitted_eq_script {store : Store} (hs : store.WellFormed) {p : Path} {source : String}
    (hText : store.HasText p source)
    (hLines : source.toList.count '\n' + 1 < 10 ^ integerDigits)
    {emitArgs scriptArgs loadArgs : List String}
    (hEmit : Plan.ofArguments emitArgs = .perform 0 (.emit p))
    (hScript : Plan.ofArguments scriptArgs = .perform 0 (.script p))
    (hLoad : Plan.ofArguments loadArgs = .perform 0 (.load (treePath p)))
    (rounds : Nat) (input : String) :
    let emitted := run rounds emitArgs store input
    let script := run rounds scriptArgs store input
    let loaded := run rounds loadArgs emitted.store input
    (Mistaken source → emitted.outcome = .exited 65 ∧ script.outcome = .exited 65 ∧
      emitted.errors = script.errors ∧ emitted.store = store) ∧
    (¬ Mistaken source → store.entry (treePath p) ≠ .directory →
      store.entry (treePath p) ≠ .overlong →
        emitted.outcome = .exited 0 ∧
        store.write? (treePath p) (treeText source) = some emitted.store ∧
        loaded.outcome = script.outcome ∧ loaded.output = script.output ∧
        loaded.errors = script.errors ∧
        script.outcome ∈ [Outcome.exited 0, .exited 70, .escaped .spent]) ∧
    (¬ Mistaken source → store.entry (treePath p) = .directory →
      emitted.outcome = .escaped .directory ∧ emitted.store = store) ∧
    (¬ Mistaken source → store.entry (treePath p) = .overlong →
      emitted.outcome = .escaped .overlong ∧ emitted.store = store) := by
  intro emitted script loaded
  have hEmitted : emitted = Report.ofPerformance store
      (emit (.start ⟨0, rounds⟩) store.entry p source) := by
    simp only [emitted, run_eq_perform hEmit, perform, withText_script hText]
  have hRun : script = Report.ofPerformance store
      (.ofEnding Session.status ((Session.start ⟨0, rounds⟩).run source)) := by
    simp only [script, run_eq_perform hScript, perform, withText_script hText]
  refine ⟨fun hSource => ?_, fun hSource hDirectory hOverlong => ?_, fun hSource hLook => ?_,
    fun hSource hLook => ?_⟩
  · rw [emit_of_mistaken rfl _ hSource] at hEmitted
    rw [script_of_mistaken rfl hSource] at hRun
    rw [hEmitted, hRun]
    exact ⟨rfl, rfl, rfl, rfl⟩
  · rw [emit_written rfl rfl hSource hDirectory hOverlong] at hEmitted
    obtain ⟨later, hWrite⟩ := exists_write_treePath hs hText hDirectory hOverlong (treeText source)
    have hStore : emitted.store = later := by
      rw [hEmitted]
      simp only [Report.ofPerformance, hWrite, Option.getD_some]
    have hLoaded : loaded = Report.ofPerformance emitted.store
        (.ofEnding Session.status ((Session.start ⟨0, rounds⟩).run source)) := by
      simp only [loaded, run_eq_perform hLoad, perform]
      rw [hStore, withText_written hWrite (Json.unifyNewlines_render _),
        load_treeText rfl rfl hLines hSource]
    -- Neither performance writes a file, so the two reports differ in their
    -- stores only.
    rw [hLoaded, hRun]
    exact ⟨by rw [hEmitted]; rfl, hStore ▸ hWrite, rfl, rfl, rfl,
      script_outcome ⟨0, rounds⟩ rfl hSource⟩
  · rw [emit_of_not_mistaken rfl rfl _ hSource, hLook] at hEmitted
    rw [hEmitted]
    exact ⟨rfl, rfl⟩
  · rw [emit_of_not_mistaken rfl rfl _ hSource, hLook] at hEmitted
    rw [hEmitted]
    exact ⟨rfl, rfl⟩

/-- A script that ends in a run-time error, and its tree file, which stand
nowhere near the working directory. -/
theorem load_emitted_eq_script_failing :
    let store : Store :=
      { working := ["home"], files := [(["tmp", "d", "a.lox"], "print \"\t\" + 0.1;".toUTF8)] }
    let emitted := run 1 ["--emit-ast", "/tmp/d/a.lox"] store ""
    let script := run 1 ["/tmp/d/a.lox"] store ""
    let loaded := run 1 ["--ast", "/tmp/d/a.lox.ast.json"] emitted.store ""
    store.WellFormed ∧ store.HasText (.ofText "/tmp/d/a.lox") "print \"\t\" + 0.1;" ∧
      emitted.outcome = .exited 0 ∧ loaded.outcome = script.outcome ∧
      loaded.output = script.output ∧ loaded.errors = script.errors := by
  intro store emitted script loaded
  have hs : store.WellFormed := by
    intro place contents hFound
    by_cases hPlace : place = ["tmp", "d", "a.lox"]
    · rw [hPlace]
      decide +kernel
    · have hne : (place == ["tmp", "d", "a.lox"]) = false := beq_eq_false_iff_ne.mpr hPlace
      rw [Store.contents?, List.lookup_cons, hne] at hFound
      cases hFound
  have hPlace : store.locate (.ofText "/tmp/d/a.lox") = .ok ["tmp", "d", "a.lox"] := by
    decide +kernel
  have hText : store.HasText (.ofText "/tmp/d/a.lox") "print \"\t\" + 0.1;" := by
    refine ⟨_, "print \"\t\" + 0.1;", ?_, fromUTF8_encoded _, by decide +kernel⟩
    rw [Store.entry, hPlace]
    rfl
  have hSource : ¬ Mistaken "print \"\t\" + 0.1;" := not_mistaken_iff.mpr (by decide +kernel)
  have hBeside : store.locate (treePath (.ofText "/tmp/d/a.lox")) =
      .ok ["tmp", "d", "a.lox.ast.json"] := by
    decide +kernel
  have hTarget : store.entry (treePath (.ofText "/tmp/d/a.lox")) = .missing := by
    rw [Store.entry, hBeside]
    rfl
  have hRun := (load_emitted_eq_script hs hText (Nat.one_lt_pow (by decide) (by decide))
    (rfl : Plan.ofArguments ["--emit-ast", "/tmp/d/a.lox"] = _)
    (rfl : Plan.ofArguments ["/tmp/d/a.lox"] = _)
    (rfl : Plan.ofArguments ["--ast", "/tmp/d/a.lox.ast.json"] = _) 1 "").2.1 hSource
    (by rw [hTarget]; intro h; cases h) (by rw [hTarget]; intro h; cases h)
  exact ⟨hs, hText, hRun.1, hRun.2.2.1, hRun.2.2.2.1, hRun.2.2.2.2.1⟩

/-- A script runs and its tree file cannot be written, since a directory
stands in its place. -/
theorem emit_into_directory :
    let store : Store :=
      { files := [(["a.lox"], "print nil;".toUTF8), (["a.lox.ast.json", "x"], .empty)] }
    ¬ Mistaken "print nil;" ∧ (run 1 ["a.lox"] store "").outcome = .exited 0 ∧
      (run 1 ["--emit-ast", "a.lox"] store "").outcome = .escaped .directory := by
  refine ⟨not_mistaken_iff.mpr (by decide +kernel), ?_, ?_⟩
  · decide +kernel
  · decide +kernel

end Command

end Treewalk
