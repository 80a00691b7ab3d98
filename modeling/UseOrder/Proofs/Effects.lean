import UseOrder.Proofs.Turns

/-!
# What a run does to files

A run that comes to its end leaves every file as the turns of the paths that lead to it say, the
file of its report apart, and its exit code is told by the turns (`run_effects`).
-/

namespace UseOrder

namespace OrderImports

/-! ## The exit code -/

/-- The exit code by the numbers of a run. -/
theorem exitCode_cases (dryRun : Bool) (s : Summary) :
    (exitCode dryRun s = 2 ∧ ¬ (s.errors = 0 ∧ s.failed = 0)) ∨
      (s.errors = 0 ∧ s.failed = 0) ∧
        ((exitCode dryRun s = 1 ∧ (dryRun = true ∧ s.changed ≠ 0)) ∨
          (exitCode dryRun s = 0 ∧ ¬ (dryRun = true ∧ s.changed ≠ 0))) := by
  by_cases hErrors : s.errors = 0 <;> by_cases hFailed : s.failed = 0 <;>
    by_cases hChanged : s.changed = 0 <;> cases dryRun <;>
    simp [exitCode, hErrors, hFailed, hChanged]

/-- There are neither errors nor failures exactly if every text was handled and nothing else went
wrong. -/
theorem summary_clean_iff {results : List FixResult} {n : Nat} :
    ((Summary.of results n).errors = 0 ∧ (Summary.of results n).failed = 0) ↔
      n = 0 ∧ ∀ r ∈ results, r.ok = true := by
  have hIssues : (results.flatMap FixResult.issues).length = 0 ↔ ∀ r ∈ results, r.ok = true := by
    rw [List.length_eq_zero_iff, List.flatMap_eq_nil_iff]
    simp [FixResult.ok]
  have hFailed : (results.countP fun r => !r.ok) = 0 ↔ ∀ r ∈ results, r.ok = true := by
    simp [List.countP_eq_zero]
  simp only [Summary.of, Nat.add_eq_zero_iff, hIssues, hFailed, and_assoc, and_self]

theorem summary_changed_iff {results : List FixResult} {n : Nat} :
    (Summary.of results n).changed ≠ 0 ↔ ∃ r ∈ results, r.changed = true := by
  simp [Summary.of, List.countP_eq_zero]

/-! ## Runs of the command -/

/-- The arguments ask for a job on paths, and its settings are accepted. -/
structure Accepted (arguments : List String) (tree : FileTree) (i : Invocation)
    (settings : Settings) : Prop where
  read : readInvocation arguments = .ok i
  orders : i.describe = false
  paths : i.paths ≠ []
  settings : ∃ fromFile, i.configOptions tree = .ok fromFile ∧
    Settings.load (i.options fromFile) = .ok settings
  timeout : i.tokenizer.timeout.isPositive = true

theorem Accepted.run_eq {arguments : List String} {tree : FileTree} {i : Invocation}
    {settings : Settings} (h : Accepted arguments tree i settings)
    (process : Text → ProcessOutcome) :
    run arguments process tree = (i.job process settings).run tree i.paths i.report := by
  obtain ⟨fromFile, hOptions, hLoad⟩ := h.settings
  have hPaths : i.paths.isEmpty = false := by simpa using h.paths
  simp only [run, h.read, Invocation.run, h.orders, Bool.false_eq_true, if_false, hPaths, hOptions,
    hLoad, h.timeout, Bool.not_true]

/-- The files that paths stand for; none if one of them leads to nothing. -/
def sourcesOf (tree : FileTree) (paths : List Path) : List Path :=
  (tree.allSources paths).toOption.getD []

theorem allSources_of_sourcesOf {tree : FileTree} {paths before after : List Path} {path : Path}
    (h : sourcesOf tree paths = before ++ path :: after) :
    tree.allSources paths = .ok (before ++ path :: after) := by
  rw [sourcesOf] at h
  cases hSources : tree.allSources paths with
  | error missing => simp [hSources, Except.toOption] at h
  | ok files =>
    rw [← h, hSources]
    rfl

/-- Some path leads to nothing. -/
def Missing (tree : FileTree) (paths : List Path) : Prop :=
  ∃ p ∈ paths, tree.entry p = .missing

/-- What a run that is not broken off has come to: all files have had their turns, and a path that
leads to nothing counts as one more error. -/
theorem Job.orderPaths_reached {job : Job} {tree : FileTree} {paths : List Path} {p : Progress}
    (h : job.orderPaths tree paths = (p, none)) :
    Reached job tree (sourcesOf tree paths) p ∧
      p.entries.map ReportEntry.result =
        (job.turns tree [] (sourcesOf tree paths)).filterMap Turn.result? ∧
      (p.errors.length ≠ 0 ↔
        Missing tree paths ∨ .unreadable ∈ job.turns tree [] (sourcesOf tree paths)) := by
  rw [Missing, ← FileTree.allSources_eq_error_iff]
  rw [Job.orderPaths] at h
  cases hSources : tree.allSources paths with
  | error missing =>
    -- no file has a turn, and the missing path is the one error
    have hFiles : sourcesOf tree paths = [] := by simp [sourcesOf, hSources, Except.toOption]
    rw [hSources] at h
    obtain ⟨rfl, -⟩ := Prod.mk.inj h
    rw [hFiles]
    exact ⟨⟨.refl tree, fun _ => rfl⟩, rfl, by simp⟩
  | ok files =>
    have hFiles : sourcesOf tree paths = files := by simp [sourcesOf, hSources, Except.toOption]
    rw [hSources] at h
    simp only at h
    obtain ⟨handled, rest, rfl, hReached, hEntries, hErrors, -, hEnd⟩ :=
      (reached_start job tree).orderFiles files
    rw [h] at hReached hEntries hErrors hEnd
    rcases hEnd with ⟨rfl, -⟩ | ⟨_, _, _, -, hStop, -⟩
    · rw [hFiles, List.append_nil]
      refine ⟨by simpa using hReached, by simpa using hEntries, ?_⟩
      rw [hErrors]
      simp only [reduceCtorEq, exists_false, false_or, List.length_nil, Nat.zero_add, ne_eq,
        List.countP_eq_zero, not_forall, Bool.not_eq_true, Bool.not_eq_false]
      constructor
      · rintro ⟨turn, hMem, hTurn⟩
        cases turn <;> simp_all [Turn.isUnreadable]
      · intro hMem
        exact ⟨_, hMem, rfl⟩
    · cases hStop

/-- A run that ends with an exit code was not broken off: the files have had their turns, and only
the report is written besides. -/
theorem Job.run_exit {job : Job} {tree : FileTree} {paths : List Path} {report : Option Path}
    {code : Nat} (h : (job.run tree paths report).ending = .exit code) :
    ∃ p, job.orderPaths tree paths = (p, none) ∧ code = exitCode job.dryRun p.summary ∧
      ∀ place, (∀ r ∈ report, (job.run tree paths report).tree.locate r ≠ .ok place) →
        (job.run tree paths report).tree.bytesAt? place = p.tree.bytesAt? place := by
  cases hPaths : job.orderPaths tree paths with
  | mk p stop =>
    cases stop with
    | some fault =>
      simp only [Job.run, hPaths] at h
      cases h
    | none =>
      refine ⟨p, rfl, ?_⟩
      simp only [Job.run, hPaths] at h ⊢
      cases hReport : p.withReport report job.dryRun with
      | error fault =>
        simp only [Progress.finish, hReport] at h
        cases h
      | ok out =>
        simp only [Progress.finish, hReport, Ending.exit.injEq] at h ⊢
        refine ⟨h.symm, fun place hPlace => ?_⟩
        cases report with
        | none =>
          obtain rfl := Except.ok.inj hReport
          rfl
        | some path =>
          -- the report goes to the place that its path leads to, and to no other
          simp only [Progress.withReport] at hReport
          cases hWrite : p.tree.writeWithParents path (p.report job.dryRun).toList with
          | error failure => simp [hWrite, Except.mapError] at hReport
          | ok written =>
            obtain rfl : written = out := by simpa [hWrite, Except.mapError] using hReport
            obtain ⟨target, hTarget, hElse⟩ := FileTree.bytesAt?_writeWithParents hWrite
            refine hElse place ?_
            rintro rfl
            exact hPlace path rfl hTarget

theorem Turn.mem_filterMap_result {turns : List Turn} {r : FixResult} :
    r ∈ turns.filterMap Turn.result? ↔ .done r ∈ turns := by
  rw [List.mem_filterMap]
  constructor
  · rintro ⟨turn, hMem, hResult⟩
    cases turn <;> simp_all [Turn.result?]
  · intro hMem
    exact ⟨_, hMem, rfl⟩

/-- The exit code by the turns of a run. -/
theorem exitCode_of_turns {turns : List Turn} {p : Progress} {missing : Prop} (dryRun : Bool)
    (hResults : p.entries.map ReportEntry.result = turns.filterMap Turn.result?)
    (hErrors : p.errors.length ≠ 0 ↔ missing ∨ .unreadable ∈ turns) :
    let failed := missing ∨ .unreadable ∈ turns ∨ ∃ r, .done r ∈ turns ∧ r.ok = false
    (exitCode dryRun p.summary = 2 ↔ failed) ∧
      (exitCode dryRun p.summary = 1 ↔
        ¬ failed ∧ dryRun = true ∧ ∃ r, .done r ∈ turns ∧ r.changed = true) ∧
      (exitCode dryRun p.summary = 0 ∨ exitCode dryRun p.summary = 1 ∨
        exitCode dryRun p.summary = 2) := by
  intro failed
  have hClean : (p.summary.errors = 0 ∧ p.summary.failed = 0) ↔ ¬ failed := by
    have hNone : p.errors.length = 0 ↔ ¬ (missing ∨ .unreadable ∈ turns) := by
      rw [← hErrors, not_not]
    have hOk : (∀ r, .done r ∈ turns → r.ok = true) ↔ ¬ ∃ r, .done r ∈ turns ∧ r.ok = false := by
      simp
    rw [Progress.summary, summary_clean_iff, hResults, hNone]
    simp only [Turn.mem_filterMap_result, hOk, failed, not_or, and_assoc]
  have hChanged : p.summary.changed ≠ 0 ↔ ∃ r, .done r ∈ turns ∧ r.changed = true := by
    rw [Progress.summary, summary_changed_iff, hResults]
    simp only [Turn.mem_filterMap_result]
  have hCases := exitCode_cases dryRun p.summary
  rw [hClean, hChanged] at hCases
  rcases hCases with ⟨hCode, hFailed⟩ | ⟨hFine, ⟨hCode, hFound⟩ | ⟨hCode, hNone⟩⟩
  · rw [hCode]
    exact ⟨by simp [not_not.mp hFailed], by simp [not_not.mp hFailed], by simp⟩
  · rw [hCode]
    exact ⟨by simp [hFine], by simp [hFine, hFound], by simp⟩
  · rw [hCode]
    exact ⟨by simp [hFine], by simpa [hFine] using hNone, by simp⟩

/-- The effects of a run that comes to its end, file by file. A path that leads to nothing, or a
run that only says what would be done, leaves all files as they are. Otherwise a file is what its
turns make of it, and it changes only if it is among the files that the paths stand for, is text
when its turn is there, and is handled with another text as the result, which it then holds. The
file of the report is exempt. The exit code is two if something could not be read or handled, else
one if a run that only says what would be done found something to do, else zero. -/
theorem run_effects (arguments : List String) (process : Text → ProcessOutcome) (tree : FileTree)
    (i : Invocation) (settings : Settings) (code : Nat) (h : Accepted arguments tree i settings)
    (hExit : (run arguments process tree).ending = .exit code) :
    let job := i.job process settings
    let out := (run arguments process tree).tree
    let turns := job.turns tree [] (sourcesOf tree i.paths)
    let failed := Missing tree i.paths ∨ .unreadable ∈ turns ∨ ∃ r, .done r ∈ turns ∧ r.ok = false
    (∀ place, (∀ report ∈ i.report, out.locate report ≠ .ok place) →
      (Missing tree i.paths → out.bytesAt? place = tree.bytesAt? place) ∧
      (i.dryRun = true → out.bytesAt? place = tree.bytesAt? place) ∧
      out.bytesAt? place = job.contentAfter tree place (sourcesOf tree i.paths) ∧
      (out.bytesAt? place ≠ tree.bytesAt? place →
        ∃ before path after content source result,
          tree.allSources i.paths = .ok (before ++ path :: after) ∧
          tree.locate path = .ok place ∧ job.contentAfter tree place before = some content ∧
          Utf8.decode content = .ok source ∧
          fixSource settings i.tokenizer (process source) (some path.toString) source = .ok result ∧
          result.ok = true ∧ result.changed = true ∧
          out.bytesAt? place = some (Utf8.encode result.code))) ∧
    (code = 2 ↔ failed) ∧
    (code = 1 ↔ ¬ failed ∧ i.dryRun = true ∧ ∃ r, .done r ∈ turns ∧ r.changed = true) ∧
    (code = 0 ∨ code = 1 ∨ code = 2) := by
  intro job out turns failed
  have hRun : out = (job.run tree i.paths i.report).tree := by
    simp only [out, h.run_eq process, job]
  rw [h.run_eq process] at hExit
  obtain ⟨p, hPaths, rfl, hElse⟩ := Job.run_exit hExit
  obtain ⟨hReached, hResults, hErrors⟩ := Job.orderPaths_reached hPaths
  rw [← hRun] at hElse
  refine ⟨fun place hPlace => ?_, ?_⟩
  · have hContent := (hElse place hPlace).trans (hReached.content place)
    refine ⟨fun hMissing => ?_, fun hDry => ?_, hContent, fun hOther => ?_⟩
    · obtain ⟨missing, hSources⟩ := FileTree.allSources_eq_error_iff.mpr hMissing
      rw [hContent, sourcesOf, hSources]
      rfl
    · -- a turn that writes shows that the run does more than say what would be done
      by_contra hOther
      obtain ⟨_, _, _, _, _, -, -, -, -, -, -, hWet, -⟩ :=
        Job.contentAfter_changed (hContent ▸ hOther)
      exact absurd (hDry.symm.trans hWet) (by simp)
    · obtain ⟨before, path, after, content, result, hSplit, hLocate, hBefore, hTurn, hOk, hChanged,
        -, hAfter⟩ := Job.contentAfter_changed (hContent ▸ hOther)
      obtain ⟨source, hDecode, hFix⟩ := Job.turnOn_eq_done_iff.mp hTurn
      refine ⟨before, path, after, content, source, result, ?_, hLocate, hBefore, hDecode, hFix, hOk,
        hChanged, hContent.trans hAfter⟩
      exact allSources_of_sourcesOf hSplit
  · exact exitCode_of_turns job.dryRun hResults hErrors

/-- A `php` process that lists the tokens of two texts, each its own, a path that leads to one of
them twice, and a file that is no text. -/
theorem run_effects_of_process :
    let tree : FileTree :=
      { files := [(["a.php"], Utf8.encode "<?php use B;;use\\A\\Y;".toList),
          (["d", "b.php"], Utf8.encode "<?php".toList), (["u.php"], [0xff])] }
    let process : Text → ProcessOutcome := fun source => .finished 0 "" <|
      if source = "<?php".toList then "[[\"T_OPEN_TAG\",\"<?php\"]]"
      else "[[\"T_OPEN_TAG\",\"<?php \"],[\"T_USE\",\"use\"],[\"T_WHITESPACE\",\" \"]," ++
        "[\"T_STRING\",\"B\"],[null,\";\"],[null,\";\"],[\"T_USE\",\"use\"]," ++
        "[\"T_NAME_FULLY_QUALIFIED\",\"\\\\A\\\\Y\"],[null,\";\"]]"
    let arguments := ["--engine", "php_cli", "a.php", "d", "d/b.php", "u.php"]
    let i : Invocation :=
      { paths := [⟨"", ["a.php"]⟩, ⟨"", ["d"]⟩, ⟨"", ["d", "b.php"]⟩, ⟨"", ["u.php"]⟩]
        tokenizer := { engine := .phpProcess } }
    let out := (run arguments process tree).tree
    Accepted arguments tree i {} ∧ (run arguments process tree).ending = .exit 2 ∧
      out.bytesAt? ["a.php"] ≠ tree.bytesAt? ["a.php"] ∧
      ∃ path content source result, tree.locate path = .ok ["a.php"] ∧
        Utf8.decode content = .ok source ∧
        fixSource {} i.tokenizer (process source) (some path.toString) source = .ok result ∧
        result.ok = true ∧ result.changed = true ∧
        out.bytesAt? ["a.php"] = some (Utf8.encode result.code) := by
  intro tree process arguments i out
  have hAccepted : Accepted arguments tree i {} :=
    ⟨by with_unfolding_all rfl, rfl, by simp [i], ⟨[], rfl, by with_unfolding_all rfl⟩,
      by decide +kernel⟩
  -- one evaluation of the run for both facts, as it reads what the process lists
  obtain ⟨hCode, hChanged⟩ : (match (run arguments process tree).ending with
        | .exit code => code == 2
        | _ => false) = true ∧
      out.bytesAt? ["a.php"] ≠ tree.bytesAt? ["a.php"] := by
    decide +kernel
  have hExit : (run arguments process tree).ending = .exit 2 := by
    split at hCode
    · next code hEnding => rw [hEnding, beq_iff_eq.mp hCode]
    · cases hCode
  have hEffects := (run_effects _ process tree i {} 2 hAccepted hExit).1 ["a.php"] nofun
  obtain ⟨_, path, _, content, source, result, -, hPath, -, hRest⟩ := hEffects.2.2.2 hChanged
  exact ⟨hAccepted, hExit, hChanged, path, content, source, result, hPath, hRest⟩

end OrderImports

end UseOrder
