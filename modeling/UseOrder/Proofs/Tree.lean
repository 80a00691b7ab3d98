import Mathlib.Data.List.Basic
import UseOrder.Files.Tree

/-!
# What writing keeps of a tree

A path leads through directories, so where it leads depends only on what kind of thing stands at
each place. Writing to a file that is there keeps that (`SameShape.writeAt`), and with it where all
paths lead (`SameShape.locate`). A file that is made with the directories on the way to it is the
only file that changes (`bytesAt?_writeWithParents`).
-/

namespace UseOrder

namespace FileTree

/-! ## Trees of one shape -/

/-- Files and directories stand at the same places; the bytes of files may differ. -/
structure SameShape (t t' : FileTree) : Prop where
  home : t'.home = t.home
  file : ∀ place, (t'.bytesAt? place).isSome = (t.bytesAt? place).isSome
  directory : ∀ place, t'.isDirectoryAt place = t.isDirectoryAt place

theorem SameShape.refl (t : FileTree) : SameShape t t :=
  ⟨rfl, fun _ => rfl, fun _ => rfl⟩

theorem SameShape.trans {a b c : FileTree} (hab : SameShape a b) (hbc : SameShape b c) :
    SameShape a c :=
  ⟨hbc.home.trans hab.home, fun place => (hbc.file place).trans (hab.file place),
    fun place => (hbc.directory place).trans (hab.directory place)⟩

theorem SameShape.follow {t t' : FileTree} (h : SameShape t t') (here : Location)
    (names : List String) : t'.follow here names = t.follow here names := by
  induction names generalizing here with
  | nil => rfl
  | cons name names ih =>
    have hFile := h.file here
    simp only [FileTree.follow, entryAt, h.directory here]
    cases hOld : t.bytesAt? here with
    | some old =>
      obtain ⟨new, hNew⟩ := Option.isSome_iff_exists.mp (hFile.trans (by simp [hOld]))
      simp [hNew]
    | none =>
      have hNew : t'.bytesAt? here = none := by simpa [hOld] using hFile
      simp only [hNew]
      split <;> simp_all

/-- In trees of one shape, every path leads to the same place. -/
theorem SameShape.locate {t t' : FileTree} (h : SameShape t t') (p : Path) :
    t'.locate p = t.locate p := by
  simp only [FileTree.locate, h.home, h.follow]

theorem names_putFile {place : Location} {files : List (Location × Bytes)} (bytes : Bytes)
    (h : (files.lookup place).isSome = true) :
    (putFile place bytes files).map Prod.fst = files.map Prod.fst := by
  induction files with
  | nil => simp at h
  | cons file rest ih =>
    obtain ⟨name, old⟩ := file
    by_cases hName : name = place
    · simp [putFile, hName]
    · have hOther : (place == name) = false := beq_eq_false_iff_ne.mpr (Ne.symm hName)
      rw [List.lookup_cons, hOther] at h
      simp [putFile, hName, ih h]

theorem SameShape.writeAt {t : FileTree} {place : Location} (bytes : Bytes)
    (h : (t.bytesAt? place).isSome = true) : SameShape t (t.writeAt place bytes) := by
  refine ⟨rfl, fun other => ?_, fun other => ?_⟩
  · rw [bytesAt?_writeAt]
    split
    · next hSame => simp [hSame, h]
    · rfl
  · have hBelow : ∀ files : List (Location × Bytes),
        (files.any fun file => isBelow other file.1) =
          (files.map Prod.fst).any (isBelow other) := by
      intro files
      rw [List.any_map]
      rfl
    simp only [isDirectoryAt, FileTree.writeAt, hBelow, names_putFile bytes h]

/-! ## Reading and writing a file that is there -/

/-- A text is read if and only if the path leads to a file with it. -/
theorem readText_eq_ok_iff {t : FileTree} {p : Path} {source : Text} :
    t.readText p = .ok source ↔ ∃ place content, t.locate p = .ok place ∧
      t.bytesAt? place = some content ∧ Utf8.decode content = .ok source := by
  simp only [readText, readBytes, bind, Except.bind]
  cases hLocate : t.locate p with
  | error failure => simp
  | ok place =>
    cases hBytes : t.bytesAt? place with
    | none =>
      cases hDirectory : t.isDirectoryAt place <;>
        simp [entryAt, hBytes, hDirectory, throw, throwThe, MonadExceptOf.throw]
    | some content =>
      simp only [entryAt, hBytes, pure, Except.pure]
      cases hDecode : Utf8.decode content <;> simp [Except.mapError, hBytes, hDecode]

theorem writeText_of_file {t : FileTree} {p : Path} {place : Location} {content : Bytes}
    (hLocate : t.locate p = .ok place) (hContent : t.bytesAt? place = some content) (text : Text) :
    t.writeText p text = .ok (t.writeAt place (Utf8.encode text)) := by
  simp only [writeText, hLocate, entryAt, hContent, bind, Except.bind]
  rfl

/-! ## Making a file -/

/-- A path leads to the same place if all directories are still there. -/
theorem follow_of_directories {t t' : FileTree} {here place : Location} {names : List String}
    (hKept : ∀ other, t.entryAt other = .directory → t'.entryAt other = .directory)
    (h : t.follow here names = .ok place) : t'.follow here names = .ok place := by
  induction names generalizing here with
  | nil => exact h
  | cons name names ih =>
    rw [FileTree.follow] at h ⊢
    cases hEntry : t.entryAt here with
    | file bytes => simp [hEntry] at h
    | missing => simp [hEntry] at h
    | directory =>
      rw [hEntry] at h
      rw [hKept here hEntry]
      exact ih h

theorem makeDirectory_files {t made : FileTree} {p : Path} (h : t.makeDirectory p = .ok made) :
    made.files = t.files := by
  simp only [makeDirectory, bind, Except.bind] at h
  split at h
  · cases h
  · split at h
    · rw [← Except.ok.inj h]
    · cases h

theorem ensureDirectory_files {t made : FileTree} {p : Path} (h : t.ensureDirectory p = .ok made) :
    made.files = t.files := by
  rw [ensureDirectory] at h
  split at h
  · next hMade =>
    obtain rfl := Except.ok.inj h
    exact makeDirectory_files hMade
  · split at h
    · rw [← Except.ok.inj h]
    · cases h

theorem ensureDirectories_files {t made : FileTree} {root : String} {names : List String}
    (h : t.ensureDirectories root names = .ok made) : made.files = t.files := by
  induction names generalizing made with
  | nil => rw [← Except.ok.inj h]
  | cons name above ih =>
    rw [ensureDirectories] at h
    split at h
    · simp only [bind, Except.bind] at h
      split at h
      · cases h
      · next upper hUpper => exact (ensureDirectory_files h).trans (ih hUpper)
    · exact ensureDirectory_files h

theorem mem_putFile {place : Location} {bytes : Bytes} {files : List (Location × Bytes)}
    {f : Location × Bytes} (h : f ∈ files) : ∃ g ∈ putFile place bytes files, g.1 = f.1 := by
  induction files with
  | nil => simp at h
  | cons file rest ih =>
    obtain ⟨name, old⟩ := file
    rw [putFile]
    split
    · rcases List.mem_cons.mp h with rfl | h
      · exact ⟨_, List.mem_cons_self, rfl⟩
      · exact ⟨f, List.mem_cons_of_mem _ h, rfl⟩
    · rcases List.mem_cons.mp h with rfl | h
      · exact ⟨_, List.mem_cons_self, rfl⟩
      · obtain ⟨g, hg, hSame⟩ := ih h
        exact ⟨g, List.mem_cons_of_mem _ hg, hSame⟩

/-- Writing to a place that is no directory keeps all directories. -/
theorem entryAt_writeAt_directory {t : FileTree} {place other : Location} {bytes : Bytes}
    (hPlace : t.entryAt place ≠ .directory) (h : t.entryAt other = .directory) :
    (t.writeAt place bytes).entryAt other = .directory := by
  have hOther : other ≠ place := by
    rintro rfl
    exact hPlace h
  cases hNone : t.bytesAt? other with
  | some old => simp [entryAt, hNone] at h
  | none =>
    have hDirectory : t.isDirectoryAt other = true := by
      by_contra hNot
      simp [entryAt, hNone, hNot] at h
    have hStill : (t.writeAt place bytes).isDirectoryAt other = true := by
      simp only [isDirectoryAt, Bool.or_eq_true, List.any_eq_true] at hDirectory ⊢
      rcases hDirectory with hListed | ⟨f, hf, hBelow⟩
      · exact .inl hListed
      · obtain ⟨g, hg, hSame⟩ := @mem_putFile place bytes _ _ hf
        exact .inr ⟨g, hg, by rw [hSame]; exact hBelow⟩
    simp [entryAt, bytesAt?_writeAt, hOther, hNone, hStill]

/-- A file that is written with the directories on the way to it is the only file that changes. -/
theorem bytesAt?_writeWithParents {t t' : FileTree} {p : Path} {text : Text}
    (h : t.writeWithParents p text = .ok t') :
    ∃ place, t'.locate p = .ok place ∧
      ∀ other, other ≠ place → t'.bytesAt? other = t.bytesAt? other := by
  simp only [writeWithParents, bind, Except.bind] at h
  split at h
  · cases h
  · next made hMade =>
    cases hWrite : made.writeText p text with
    | error failure => simp [hWrite, Except.mapError] at h
    | ok result =>
      obtain rfl : result = t' := by simpa [hWrite, Except.mapError] using h
      simp only [writeText, bind, Except.bind] at hWrite
      split at hWrite
      · cases hWrite
      · next place hPlace =>
        split at hWrite
        · cases hWrite
        · next hEntry =>
          obtain rfl := Except.ok.inj hWrite
          refine ⟨place, ?_, fun other hOther => ?_⟩
          · -- the file stands where no directory was, so the way to it is still there
            rw [locate] at hPlace ⊢
            split at hPlace
            · cases hPlace
            · next hNul =>
              rw [if_neg hNul]
              exact follow_of_directories (fun _ => entryAt_writeAt_directory hEntry) hPlace
          · rw [bytesAt?_writeAt, if_neg hOther, bytesAt?, bytesAt?, ensureDirectories_files hMade]

/-! ## Source files -/

/-- The walk over paths fails exactly if one of them leads to nothing. -/
theorem allSources_eq_error_iff {t : FileTree} {paths : List Path} :
    (∃ p, t.allSources paths = .error p) ↔ ∃ p ∈ paths, t.entry p = .missing := by
  have hSources : ∀ p, t.sources? p = none ↔ t.entry p = .missing := by
    intro p
    simp only [sources?, entry]
    cases t.locate p with
    | error failure => simp
    | ok place => cases hEntry : t.entryAt place <;> simp [hEntry]
  induction paths with
  | nil => simp [allSources]
  | cons p paths ih =>
    rw [allSources]
    cases hp : t.sources? p with
    | none => simp [(hSources p).mp hp]
    | some found =>
      have hThere : t.entry p ≠ .missing := fun hMissing => by simp [(hSources p).mpr hMissing] at hp
      simp only [List.mem_cons, exists_eq_or_imp, hThere, false_or, ← ih, bind, Except.bind]
      cases t.allSources paths <;> simp [pure, Except.pure]

/-- Files stand for themselves. -/
theorem allSources_of_files {t : FileTree} {paths : List Path}
    (h : ∀ p ∈ paths, ∃ place content, t.locate p = .ok place ∧ t.bytesAt? place = some content) :
    t.allSources paths = .ok paths := by
  induction paths with
  | nil => rfl
  | cons p paths ih =>
    obtain ⟨place, content, hPlace, hContent⟩ := h p List.mem_cons_self
    have hHere : t.sources? p = some [p] := by simp [sources?, hPlace, entryAt, hContent]
    rw [allSources, hHere, ih fun q hq => h q (List.mem_cons_of_mem _ hq)]
    rfl

end FileTree

end UseOrder
