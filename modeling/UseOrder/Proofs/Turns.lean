import Mathlib.Data.List.Induction
import UseOrder.CommandLine.OrderImports
import UseOrder.Proofs.Tree

/-!
# Turns of files

Each file that a run takes up has its turn (`Job.turn`), and what a turn leaves in the file follows
from what is in it then. `Job.contentAfter` says for one place, without the others, what is there
after some paths have had their turns. A step of a run keeps this account (`Reached.step`), and so
does the whole run, whether it comes to its end or is broken off (`Reached.orderFiles`).
-/

namespace UseOrder

namespace OrderImports

open FileTree (SameShape)

/-! ## Turns -/

/-- What comes of a file when its turn is there. -/
inductive Turn
  | unreadable
  | broken (fault : FixFault)
  | done (result : FixResult)

/-- The turn of a file with a content. -/
def Job.turnOn (job : Job) (path : Path) (content : Bytes) : Turn :=
  match Utf8.decode content with
  | .error _ => .unreadable
  | .ok source =>
    match fixSource job.settings job.tokenizer (job.process source) (some path.toString) source with
    | .error fault => .broken fault
    | .ok result => .done result

/-- The content of a file after its turn. -/
def Turn.leaves (dryRun : Bool) (content : Bytes) : Turn → Bytes
  | .done result =>
    if result.ok && result.changed && !dryRun then Utf8.encode result.code else content
  | _ => content

/-- The content of the file at a place after paths have had their turns. -/
def Job.contentAfter (job : Job) (tree : FileTree) (place : Location) (paths : List Path) :
    Option Bytes :=
  paths.foldl (fun content path =>
    if tree.locate path = .ok place then
      content.map fun bytes => (job.turnOn path bytes).leaves job.dryRun bytes
    else content) (tree.bytesAt? place)

/-- The turn of a path after those of others. -/
def Job.turn (job : Job) (tree : FileTree) (before : List Path) (path : Path) : Turn :=
  match tree.locate path with
  | .error _ => .unreadable
  | .ok place =>
    match job.contentAfter tree place before with
    | none => .unreadable
    | some content => job.turnOn path content

/-- The turns of paths, after those of others. -/
def Job.turns (job : Job) (tree : FileTree) (before : List Path) : List Path → List Turn
  | [] => []
  | path :: rest => job.turn tree before path :: job.turns tree (before ++ [path]) rest

/-- The result of a turn. -/
def Turn.result? : Turn → Option FixResult
  | .done result => some result
  | _ => none

/-- The file could not be read. -/
def Turn.isUnreadable : Turn → Bool
  | .unreadable => true
  | _ => false

theorem Job.contentAfter_concat (job : Job) (tree : FileTree) (place : Location)
    (before : List Path) (path : Path) :
    job.contentAfter tree place (before ++ [path]) =
      if tree.locate path = .ok place then
        (job.contentAfter tree place before).map fun bytes =>
          (job.turnOn path bytes).leaves job.dryRun bytes
      else job.contentAfter tree place before := by
  simp only [Job.contentAfter, List.foldl_append, List.foldl_cons, List.foldl_nil]

/-! ## One step -/

/-- How far a run has come when paths have had their turns. -/
structure Reached (job : Job) (tree : FileTree) (before : List Path) (p : Progress) : Prop where
  shape : SameShape tree p.tree
  content : ∀ place, p.tree.bytesAt? place = job.contentAfter tree place before

/-- A turn is taken down: its result among the entries, or the error. -/
def Turn.Noted (turn : Turn) (p next : Progress) : Prop :=
  next.entries.map ReportEntry.result = p.entries.map ReportEntry.result ++ turn.result?.toList ∧
    next.errors.length = p.errors.length + if turn.isUnreadable then 1 else 0

/-- The turn of a file that can be read is that of its bytes. -/
theorem Reached.turn_of_readable {job : Job} {tree : FileTree} {before : List Path} {p : Progress}
    (h : Reached job tree before p) {path : Path} {source : Text}
    (hRead : p.tree.readText path = .ok source) :
    ∃ place bytes, tree.locate path = .ok place ∧ p.tree.bytesAt? place = some bytes ∧
      Utf8.decode bytes = .ok source ∧ job.turn tree before path = job.turnOn path bytes := by
  obtain ⟨place, bytes, hPlace, hBytes, hDecode⟩ := FileTree.readText_eq_ok_iff.mp hRead
  rw [h.shape.locate path] at hPlace
  refine ⟨place, bytes, hPlace, hBytes, hDecode, ?_⟩
  rw [Job.turn, hPlace]
  simp only [← h.content place, hBytes]

theorem Reached.turnOn_of_unreadable {job : Job} {tree : FileTree} {before : List Path}
    {p : Progress} (h : Reached job tree before p) {path : Path} {failure : FileFailure}
    (hRead : p.tree.readText path = .error failure) {place : Location} {bytes : Bytes}
    (hPlace : tree.locate path = .ok place)
    (hBytes : job.contentAfter tree place before = some bytes) :
    job.turnOn path bytes = .unreadable := by
  rw [Job.turnOn]
  cases hDecode : Utf8.decode bytes with
  | error cause => rfl
  | ok source =>
    have hText := FileTree.readText_eq_ok_iff.mpr
      ⟨place, bytes, (h.shape.locate path).trans hPlace, (h.content place).trans hBytes, hDecode⟩
    rw [hText] at hRead
    cases hRead

theorem Reached.turn_of_unreadable {job : Job} {tree : FileTree} {before : List Path}
    {p : Progress} (h : Reached job tree before p) {path : Path} {failure : FileFailure}
    (hRead : p.tree.readText path = .error failure) :
    job.turn tree before path = .unreadable := by
  rw [Job.turn]
  split
  · rfl
  · next place hPlace =>
    split
    · rfl
    · next bytes hBytes => exact h.turnOn_of_unreadable hRead hPlace hBytes

/-- A file that cannot be read is left as it is. -/
theorem Reached.skip {job : Job} {tree : FileTree} {before : List Path} {p : Progress}
    (h : Reached job tree before p) {path : Path} {failure : FileFailure}
    (hRead : p.tree.readText path = .error failure) (errors : List AccessError) :
    Reached job tree (before ++ [path]) { p with errors } := by
  refine ⟨h.shape, fun place => ?_⟩
  rw [Job.contentAfter_concat]
  split
  · next hPlace =>
    simp only [h.content place]
    cases hBytes : job.contentAfter tree place before with
    | none => rfl
    | some bytes =>
      rw [Option.map_some, h.turnOn_of_unreadable hRead hPlace hBytes]
      rfl
  · exact h.content place

/-- A file is left as its result says, and all others as they are. -/
theorem Reached.addResult {job : Job} {tree : FileTree} {before : List Path} {p : Progress}
    (h : Reached job tree before p) {path : Path} {place : Location} {bytes : Bytes}
    {result : FixResult} (hPlace : tree.locate path = .ok place)
    (hBytes : p.tree.bytesAt? place = some bytes) (hTurn : job.turnOn path bytes = .done result)
    (source : Text) : Reached job tree (before ++ [path]) (job.addResult p path source result) := by
  have hWritten : job.written p.tree path result =
      if result.ok && result.changed && !job.dryRun then
        p.tree.writeAt place (Utf8.encode result.code) else p.tree := by
    rw [Job.written, FileTree.writeText_of_file ((h.shape.locate path).trans hPlace) hBytes]
    rfl
  refine ⟨?_, fun other => ?_⟩
  · simp only [Job.addResult, hWritten]
    split
    · exact h.shape.trans (.writeAt _ (by simp [hBytes]))
    · exact h.shape
  · -- the account for `other` changes only if the path leads there, and so does the tree
    rw [Job.contentAfter_concat, ← h.content other, hPlace]
    simp only [Job.addResult, hWritten]
    by_cases hOther : other = place
    · subst hOther
      simp only [if_true, hBytes, Option.map_some, hTurn, Turn.leaves]
      split
      · rw [FileTree.bytesAt?_writeAt, if_pos rfl]
      · exact hBytes
    · have hElse : ¬ (Except.ok place : Except FileFailure Location) = .ok other :=
        fun hSame => hOther (Except.ok.inj hSame).symm
      rw [if_neg hElse]
      split
      · rw [FileTree.bytesAt?_writeAt, if_neg hOther]
      · rfl

/-- A run goes on from a file exactly if its turn does not break the run off; the file is then left
as the turn says, and the turn is taken down. -/
theorem Reached.step {job : Job} {tree : FileTree} {before : List Path} {p : Progress}
    (h : Reached job tree before p) (path : Path) :
    (∃ fault, job.turn tree before path = .broken fault ∧ job.orderFile p path = .error fault) ∨
      ∃ next, job.orderFile p path = .ok next ∧ Reached job tree (before ++ [path]) next ∧
        (job.turn tree before path).Noted p next ∧
        ∀ fault, job.turn tree before path ≠ .broken fault := by
  cases hRead : p.tree.readText path with
  | error failure =>
    rw [h.turn_of_unreadable hRead]
    exact .inr ⟨_, by rw [Job.orderFile, hRead], h.skip hRead _,
      ⟨by simp [Turn.result?], by simp [Turn.isUnreadable]⟩, fun _ hBroken => by cases hBroken⟩
  | ok source =>
    obtain ⟨place, bytes, hPlace, hBytes, hDecode, hTurn⟩ := h.turn_of_readable hRead
    cases hFix : fixSource job.settings job.tokenizer (job.process source) (some path.toString)
        source with
    | error fault =>
      refine .inl ⟨fault, ?_, by simp only [Job.orderFile, hRead, hFix, Except.map]⟩
      simp only [hTurn, Job.turnOn, hDecode, hFix]
    | ok result =>
      have hOn : job.turnOn path bytes = .done result := by simp only [Job.turnOn, hDecode, hFix]
      rw [hTurn, hOn]
      exact .inr ⟨job.addResult p path source result,
        by simp only [Job.orderFile, hRead, hFix, Except.map], h.addResult hPlace hBytes hOn source,
        ⟨by simp [Job.addResult, reportEntry, Turn.result?],
          by simp [Job.addResult, Turn.isUnreadable]⟩, fun _ hBroken => by cases hBroken⟩

/-! ## Whole runs -/

/-- What a run over files comes to: those before the end, or before the one that breaks the run
off, have had their turns, which are taken down. -/
theorem Reached.orderFiles {job : Job} {tree : FileTree} {before : List Path} {p : Progress}
    (h : Reached job tree before p) (files : List Path) :
    ∃ handled rest, files = handled ++ rest ∧
      Reached job tree (before ++ handled) (job.orderFiles p files).1 ∧
      (job.orderFiles p files).1.entries.map ReportEntry.result =
        p.entries.map ReportEntry.result ++ (job.turns tree before handled).filterMap Turn.result? ∧
      (job.orderFiles p files).1.errors.length =
        p.errors.length + (job.turns tree before handled).countP Turn.isUnreadable ∧
      (∀ fault, .broken fault ∉ job.turns tree before handled) ∧
      (rest = [] ∧ (job.orderFiles p files).2 = none ∨
        ∃ path later fault, rest = path :: later ∧ (job.orderFiles p files).2 = some fault ∧
          job.turn tree (before ++ handled) path = .broken fault) := by
  induction files generalizing before p with
  | nil =>
    exact ⟨[], [], rfl, by simpa [Job.orderFiles] using h, by simp [Job.orderFiles, Job.turns],
      by simp [Job.orderFiles, Job.turns], by simp [Job.turns], .inl ⟨rfl, rfl⟩⟩
  | cons path files ih =>
    -- the first file breaks the run off, or has its turn and the run goes on from there
    rcases h.step path with ⟨fault, hTurn, hStops⟩ | ⟨next, hNext, hReached, hNoted, hGoes⟩
    · refine ⟨[], path :: files, rfl, ?_, ?_, ?_, by simp [Job.turns],
        .inr ⟨path, files, fault, rfl, ?_, by simpa using hTurn⟩⟩ <;>
        simp [Job.orderFiles, hStops, Job.turns, h]
    · obtain ⟨handled, rest, rfl, hReached', hEntries, hErrors, hUnbroken, hEnd⟩ := ih hReached
      rw [Job.orderFiles, hNext]
      simp only [List.append_assoc, List.singleton_append] at hReached' hEnd
      refine ⟨path :: handled, rest, rfl, hReached', ?_, ?_, ?_, hEnd⟩
      · rw [hEntries, hNoted.1, Job.turns, List.append_assoc]
        cases hResult : (job.turn tree before path).result? <;> simp [hResult]
      · rw [hErrors, hNoted.2, Job.turns, List.countP_cons]
        omega
      · intro fault hMem
        rcases List.mem_cons.mp hMem with hHere | hLater
        · exact hGoes fault hHere.symm
        · exact hUnbroken fault hLater

theorem reached_start (job : Job) (tree : FileTree) : Reached job tree [] { tree } :=
  ⟨.refl tree, fun _ => rfl⟩

theorem Job.turnOn_eq_done_iff {job : Job} {path : Path} {content : Bytes} {result : FixResult} :
    job.turnOn path content = .done result ↔ ∃ source, Utf8.decode content = .ok source ∧
      fixSource job.settings job.tokenizer (job.process source) (some path.toString) source =
        .ok result := by
  rw [Job.turnOn]
  cases Utf8.decode content with
  | error cause => simp
  | ok source =>
    cases hFix : fixSource job.settings job.tokenizer (job.process source) (some path.toString)
      source <;> simp [hFix]

/-- If a file is not as it was, one of the turns wrote what is there now. -/
theorem Job.contentAfter_changed {job : Job} {tree : FileTree} {place : Location}
    {paths : List Path} (h : job.contentAfter tree place paths ≠ tree.bytesAt? place) :
    ∃ before path after content result, paths = before ++ path :: after ∧
      tree.locate path = .ok place ∧ job.contentAfter tree place before = some content ∧
      job.turnOn path content = .done result ∧ result.ok = true ∧ result.changed = true ∧
      job.dryRun = false ∧
      job.contentAfter tree place paths = some (Utf8.encode result.code) := by
  -- from the last turn backwards, up to the one that wrote
  induction paths using List.reverseRecOn with
  | nil => exact absurd rfl h
  | append_singleton paths path ih =>
    by_cases hSame : job.contentAfter tree place (paths ++ [path]) =
        job.contentAfter tree place paths
    · rw [hSame] at h
      obtain ⟨before, q, after, content, result, rfl, hRest⟩ := ih h
      exact ⟨before, q, after ++ [path], content, result, by simp, by rwa [hSame]⟩
    · -- the last turn wrote the file
      rw [Job.contentAfter_concat] at hSame ⊢
      split at hSame
      · next hPlace =>
        cases hContent : job.contentAfter tree place paths with
        | none => simp [hContent] at hSame
        | some content =>
          rw [hContent, Option.map_some] at hSame
          cases hTurn : job.turnOn path content with
          | unreadable => simp [hTurn, Turn.leaves] at hSame
          | broken fault => simp [hTurn, Turn.leaves] at hSame
          | done result =>
            by_cases hWrites : (result.ok && result.changed && !job.dryRun) = true
            · refine ⟨paths, path, [], content, result, rfl, hPlace, hContent, hTurn, ?_⟩
              have hLeaves : (Turn.done result).leaves job.dryRun content =
                  Utf8.encode result.code := if_pos hWrites
              simp only [Bool.and_eq_true, Bool.not_eq_true'] at hWrites
              exact ⟨hWrites.1.1, hWrites.1.2, hWrites.2, by
                rw [if_pos hPlace, Option.map_some, hTurn, hLeaves]⟩
            · have hLeaves : (Turn.done result).leaves job.dryRun content = content :=
                if_neg hWrites
              rw [hTurn, hLeaves] at hSame
              exact absurd rfl hSame
      · exact absurd rfl hSame

end OrderImports

end UseOrder
