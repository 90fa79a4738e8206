import Treewalk.Command.Store

/-!
# Writing a file beside another

In a store in which no file is also a directory (`Store.WellFormed`), the
path of a file with characters put behind its last part leads beside that
file, unless it becomes too long (`locate_extended`). A text that is
written to a path is what is found there afterwards (`entry_write`): the
directories on the way stay what they were, so the path still leads to the
same place.
-/

namespace Treewalk.Command

/-! ## Paths -/

theorem intercalate_snoc_append (separator last tail : String) (before : List String) :
    String.intercalate separator (before ++ [last ++ tail]) =
      String.intercalate separator (before ++ [last]) ++ tail := by
  cases before with
  | nil => simp
  | cons part before =>
    rw [String.intercalate_append_of_ne_nil (by simp) (by simp),
      String.intercalate_append_of_ne_nil (by simp) (by simp), String.intercalate_singleton,
      String.intercalate_singleton, String.append_assoc, String.append_assoc, String.append_assoc]

namespace Path

theorem parts_extended {p : Path} {before : List String} {last : String}
    (h : p.parts = before ++ [last]) (tail : String) :
    (p.extended tail).parts = before ++ [last ++ tail] := by
  simp [extended, h]

theorem text_extended {p : Path} {before : List String} {last : String}
    (h : p.parts = before ++ [last]) (tail : String) : (p.extended tail).text = p.text ++ tail := by
  have hParts := parts_extended h tail
  rw [text, text, hParts, h, if_neg (by simp), if_neg (by simp), intercalate_snoc_append,
    String.append_assoc]
  rfl

end Path

namespace Store

/-! ## Directories on the way -/

/-- No place is a file and a directory at once. -/
def WellFormed (s : Store) : Prop :=
  ∀ place contents, s.contents? place = some contents → s.isDirectory place = false

/-- Follow parts all of which have to be directories. -/
def arrive (s : Store) (place : List String) : List String → Except Obstacle (List String)
  | [] => .ok place
  | part :: rest =>
    if part = ".." then s.arrive place.dropLast rest
    else if longestPart < part.utf8ByteSize then .error .overlong
    else
      match s.found (place ++ [part]) with
      | .directory => s.arrive (place ++ [part]) rest
      | _ => .error .missing

/-- A path goes through directories up to its last part. -/
theorem follow_snoc (s : Store) (place : List String) (before : List String) (last : String) :
    s.follow place (before ++ [last]) =
      (s.arrive place before).bind fun directory => s.follow directory [last] := by
  induction before generalizing place with
  | nil => rfl
  | cons part rest ih =>
    have hMore : (rest ++ [last]).isEmpty = false := by simp
    rw [List.cons_append, follow, arrive]
    split
    · exact ih _
    split
    · rfl
    simp only [hMore, Bool.false_eq_true, if_false]
    cases s.found (place ++ [part]) with
    | directory => exact ih _
    | _ => rfl

theorem found_directory {s : Store} (hs : s.WellFormed) {place : List String}
    (h : s.isDirectory place) : s.found place = .directory := by
  rw [found]
  cases hContents : s.contents? place with
  | some contents =>
    rw [hs place contents hContents] at h
    cases h
  | none => exact if_pos h

theorem isDirectory_of_found {s : Store} {place : List String}
    (h : s.found place = .directory) : s.isDirectory place := by
  rw [found] at h
  cases hContents : s.contents? place with
  | some contents =>
    rw [hContents] at h
    cases h
  | none =>
    simp only [hContents] at h
    split at h
    · assumption
    · cases h

/-- What is on the way to a directory is one. -/
theorem isDirectory_on_way {s : Store} {place on : List String} (hOn : on <+: place)
    (h : s.isDirectory place) : s.isDirectory on := by
  simp only [isDirectory, Bool.or_eq_true, List.any_eq_true, Bool.and_eq_true,
    List.isPrefixOf_iff_prefix, bne_iff_ne] at h ⊢
  rcases h with ⟨directory, hMem, hPrefix⟩ | ⟨file, hMem, hPrefix, hne⟩
  · exact .inl ⟨directory, hMem, hOn.trans hPrefix⟩
  · refine .inr ⟨file, hMem, hOn.trans hPrefix, ?_⟩
    rintro rfl
    exact hne (hPrefix.eq_of_length_le hOn.length_le)

theorem isDirectory_working (s : Store) : s.isDirectory s.working := by
  simp [isDirectory, List.isPrefixOf_iff_prefix]

/-- A directory stands in a directory. -/
theorem found_dropLast {s : Store} (hs : s.WellFormed) {place : List String}
    (h : s.found place = .directory) : s.found place.dropLast = .directory :=
  found_directory hs (isDirectory_on_way (List.dropLast_prefix place) (isDirectory_of_found h))

theorem found_arrive {s : Store} (hs : s.WellFormed) {place target parts : List String}
    (h : s.found place = .directory) (hArrive : s.arrive place parts = .ok target) :
    s.found target = .directory := by
  induction parts generalizing place with
  | nil =>
    cases hArrive
    exact h
  | cons part rest ih =>
    rw [arrive] at hArrive
    split at hArrive
    · exact ih (found_dropLast hs h) hArrive
    split at hArrive
    · cases hArrive
    split at hArrive
    next hFound => exact ih hFound hArrive
    · cases hArrive

/-! ## The place of a file -/

theorem found_start (s : Store) (hs : s.WellFormed) (p : Path) :
    s.found (s.start p) = .directory := by
  refine found_directory hs ?_
  unfold start
  split
  · exact s.isDirectory_working
  · exact isDirectory_on_way List.nil_prefix s.isDirectory_working

theorem locate_eq {s : Store} {p : Path} {place : List String} (h : s.locate p = .ok place) :
    Char.ofNat 0 ∉ p.text.toList ∧ s.follow (s.start p) p.parts = .ok place := by
  rw [locate] at h
  split at h
  · cases h
  split at h
  · cases h
  next hZero _ => exact ⟨hZero, h⟩

theorem follow_singleton (s : Store) (place : List String) {part : String} (hUp : part ≠ "..") :
    s.follow place [part] =
      if longestPart < part.utf8ByteSize then .error .overlong else .ok (place ++ [part]) := by
  rw [follow, if_neg hUp]
  rfl

/-- Where a path leads to a file, the file has a place. -/
theorem file_of_entry {s : Store} {p : Path} {contents : ByteArray}
    (h : s.entry p = .file contents) :
    ∃ place, s.locate p = .ok place ∧ s.contents? place = some contents := by
  rw [entry] at h
  split at h
  · cases h
  · cases h
  next place hLocate =>
    refine ⟨place, hLocate, ?_⟩
    rw [found] at h
    split at h
    next kept hKept =>
      cases h
      exact hKept
    · split at h <;> cases h

/-- A path to a file ends with the file's name, in the directory that the
parts before lead to. -/
theorem locate_file {s : Store} (hs : s.WellFormed) {p : Path} {place : List String}
    {contents : ByteArray} (h : s.locate p = .ok place)
    (hFile : s.contents? place = some contents) :
    ∃ before last directory, p.parts = before ++ [last] ∧
      s.arrive (s.start p) before = .ok directory ∧ place = directory ++ [last] := by
  have hNot : s.found place ≠ .directory := by
    rw [found, hFile]
    exact nofun
  obtain ⟨-, hFollow⟩ := locate_eq h
  rcases List.eq_nil_or_concat p.parts with hParts | ⟨before, last, hParts⟩
  · rw [hParts, follow] at hFollow
    rw [Except.ok.injEq] at hFollow
    exact absurd (hFollow ▸ found_start s hs p) hNot
  · rw [List.concat_eq_append] at hParts
    rw [hParts, follow_snoc] at hFollow
    cases hArrive : s.arrive (s.start p) before with
    | error why =>
      rw [hArrive] at hFollow
      cases hFollow
    | ok directory =>
      have hDirectory := found_arrive hs (found_start s hs p) hArrive
      rw [hArrive] at hFollow
      by_cases hUp : last = ".."
      · rw [hUp] at hFollow
        have hParent : directory.dropLast = place := Except.ok.inj hFollow
        exact absurd (hParent ▸ found_dropLast hs hDirectory) hNot
      · have hLast : s.follow directory [last] = .ok place := hFollow
        rw [follow_singleton s directory hUp] at hLast
        split at hLast
        · cases hLast
        cases hLast
        exact ⟨before, last, directory, hParts, hArrive, rfl⟩

/-- A file's path with characters put behind it leads beside the file, if
it is not too long. -/
theorem locate_extended {s : Store} (hs : s.WellFormed) {p : Path} {place : List String}
    {contents : ByteArray} (h : s.locate p = .ok place)
    (hFile : s.contents? place = some contents) {tail : String}
    (hTail : Char.ofNat 0 ∉ tail.toList) (hUp : ∀ part, part ++ tail ≠ "..") :
    s.locate (p.extended tail) = .error .overlong ∨
      ∃ beside, s.locate (p.extended tail) = .ok beside := by
  obtain ⟨before, last, directory, hParts, hArrive, -⟩ := locate_file hs h hFile
  obtain ⟨hZero, -⟩ := locate_eq h
  have hZero' : Char.ofNat 0 ∉ (p.extended tail).text.toList := by
    rw [Path.text_extended hParts, String.toList_append, List.mem_append, not_or]
    exact ⟨hZero, hTail⟩
  have hFollow : s.follow (s.start p) (p.extended tail).parts =
      s.follow directory [last ++ tail] := by
    rw [Path.parts_extended hParts, follow_snoc, hArrive]
    rfl
  rw [locate, if_neg hZero']
  split
  · exact .inl rfl
  · change s.follow (s.start p) (p.extended tail).parts = _ ∨ ∃ beside, s.follow (s.start p) _ = _
    rw [hFollow, follow_singleton s _ (hUp last)]
    split
    · exact .inl rfl
    · exact .inr ⟨directory ++ [last ++ tail], rfl⟩

/-! ## Writing -/

theorem lookup_put_self (place : List String) (contents : ByteArray)
    (files : List (List String × ByteArray)) :
    (put place contents files).lookup place = some contents := by
  induction files with
  | nil => simp [put]
  | cons file rest ih =>
    rw [put]
    split
    next hSame => simp [hSame]
    next hOther =>
      have hne : (place == file.1) = false := beq_eq_false_iff_ne.mpr (Ne.symm hOther)
      rw [List.lookup_cons, hne]
      exact ih

theorem lookup_put_of_ne {place other : List String} (h : other ≠ place) (contents : ByteArray)
    (files : List (List String × ByteArray)) :
    (put place contents files).lookup other = files.lookup other := by
  have hne : (other == place) = false := beq_eq_false_iff_ne.mpr h
  induction files with
  | nil => rw [put, List.lookup_cons, hne]
  | cons file rest ih =>
    obtain ⟨first, kept⟩ := file
    rw [put]
    split
    next hSame => rw [List.lookup_cons, List.lookup_cons, hSame, hne]
    next hOther => rw [List.lookup_cons, List.lookup_cons, ih]

/-- Writing a file takes no place away. -/
theorem map_fst_subset_put (place : List String) (contents : ByteArray)
    (files : List (List String × ByteArray)) :
    files.map Prod.fst ⊆ (put place contents files).map Prod.fst := by
  induction files with
  | nil => exact nofun
  | cons file rest ih =>
    rw [put]
    split
    · exact fun _ h => h
    · exact List.cons_subset_cons _ ih

section

variable {s : Store} {place : List String} (contents : ByteArray)

theorem isDirectory_put {other : List String} (h : s.isDirectory other) :
    isDirectory { s with files := put place contents s.files } other := by
  simp only [isDirectory, Bool.or_eq_true, List.any_eq_true, Bool.and_eq_true] at h ⊢
  refine h.imp_right ?_
  rintro ⟨file, hMem, hPart⟩
  obtain ⟨kept, hKept, hSame⟩ := List.mem_map.mp
    (map_fst_subset_put place contents s.files (List.mem_map_of_mem hMem))
  refine ⟨kept, hKept, ?_⟩
  rw [hSame]
  exact hPart

/-- Directories stay directories when a file is written. -/
theorem found_put (hPlace : s.isDirectory place = false) {other : List String}
    (h : s.found other = .directory) :
    found { s with files := put place contents s.files } other = .directory := by
  have hDirectory := isDirectory_of_found h
  have hne : other ≠ place := by
    rintro rfl
    rw [hPlace] at hDirectory
    cases hDirectory
  have hSame : contents? { s with files := put place contents s.files } other =
      s.contents? other := lookup_put_of_ne hne contents s.files
  rw [found] at h ⊢
  rw [hSame]
  cases hContents : s.contents? other with
  | some kept =>
    rw [hContents] at h
    cases h
  | none => exact if_pos (isDirectory_put contents hDirectory)

theorem follow_put (hPlace : s.isDirectory place = false) {origin target parts : List String}
    (h : s.follow origin parts = .ok target) :
    follow { s with files := put place contents s.files } origin parts = .ok target := by
  induction parts generalizing origin with
  | nil => exact h
  | cons part rest ih =>
    rw [follow] at h ⊢
    split at h
    next hUp =>
      rw [if_pos hUp]
      exact ih h
    next hUp =>
    rw [if_neg hUp]
    split at h
    · cases h
    next hShort =>
    rw [if_neg hShort]
    simp only at h ⊢
    split at h
    next hLast =>
      rw [if_pos hLast]
      exact h
    next hLast =>
    rw [if_neg hLast]
    split at h
    next hFound =>
      rw [found_put contents hPlace hFound]
      exact ih h
    · cases h

end

/-- What is written to a path is found there. -/
theorem entry_write {s later : Store} {p : Path} {text : String}
    (h : s.write? p text = some later) : later.entry p = .file text.toUTF8 := by
  rw [write?] at h
  split at h
  next place hLocate =>
    split at h
    · cases h
    next hPlace =>
      cases h
      have hFree : s.isDirectory place = false := Bool.eq_false_iff.mpr hPlace
      have hSame : locate { s with files := put place text.toUTF8 s.files } p = .ok place := by
        rw [locate] at hLocate ⊢
        split at hLocate
        · cases hLocate
        next hZero =>
        rw [if_neg hZero]
        split at hLocate
        · cases hLocate
        next hShort =>
        rw [if_neg hShort]
        exact follow_put _ hFree hLocate
      rw [entry, hSame]
      simp only [found, contents?, lookup_put_self]
  · cases h

/-- A path that leads to a place, and to no directory, can be written. -/
theorem exists_write {s : Store} (hs : s.WellFormed) {p : Path} {place : List String}
    (h : s.locate p = .ok place) (hEntry : s.entry p ≠ .directory) (text : String) :
    ∃ later, s.write? p text = some later := by
  have hFree : ¬ s.isDirectory place := by
    intro hDirectory
    apply hEntry
    rw [entry, h]
    exact found_directory hs hDirectory
  rw [write?, h]
  exact ⟨_, if_neg hFree⟩

end Store

end Treewalk.Command
