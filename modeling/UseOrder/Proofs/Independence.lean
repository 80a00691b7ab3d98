import UseOrder.Proofs.Effects
import UseOrder.Proofs.Failure

/-!
# Whether files of one run depend on each other

If the paths lead to distinct files, each file has one turn, and what it leaves does not depend on
the other files (`Job.contentAfter_once`). They matter in one way only: a file can break the run
off, and then those behind it have no turn (`run_files_independent`).
-/

namespace UseOrder

namespace OrderImports

/-- The content of a file breaks a run off. -/
def Job.Breaks (job : Job) (tree : FileTree) (path : Path) : Prop :=
  ∃ place content fault, tree.locate path = .ok place ∧ tree.bytesAt? place = some content ∧
    job.turnOn path content = .broken fault

/-- Paths that lead elsewhere do not touch a file. -/
theorem Job.contentAfter_elsewhere {job : Job} {tree : FileTree} {place : Location}
    {paths : List Path} (h : ∀ path ∈ paths, tree.locate path ≠ .ok place) :
    job.contentAfter tree place paths = tree.bytesAt? place := by
  by_contra hOther
  obtain ⟨before, path, after, -, -, rfl, hPath, -⟩ := Job.contentAfter_changed hOther
  exact h path (by simp) hPath

/-- A file that one path leads to is as the turn of that path leaves it. -/
theorem Job.contentAfter_once {job : Job} {tree : FileTree} {place : Location} {path : Path}
    {before after : List Path} (hPath : tree.locate path = .ok place)
    (hBefore : ∀ q ∈ before, tree.locate q ≠ .ok place)
    (hAfter : ∀ q ∈ after, tree.locate q ≠ .ok place) :
    job.contentAfter tree place (before ++ path :: after) =
      (tree.bytesAt? place).map fun bytes => (job.turnOn path bytes).leaves job.dryRun bytes := by
  induction after using List.reverseRecOn with
  | nil => rw [Job.contentAfter_concat, if_pos hPath, Job.contentAfter_elsewhere hBefore]
  | append_singleton after q ih =>
    have hShape : before ++ path :: (after ++ [q]) = (before ++ path :: after) ++ [q] := by simp
    rw [hShape, Job.contentAfter_concat, if_neg (hAfter q (by simp)),
      ih fun r hr => hAfter r (by simp [hr])]

/-- The turn of a path is that of the file as it was, if no path before leads to it. -/
theorem Job.turn_eq_broken_iff {job : Job} {tree : FileTree} {before : List Path} {path : Path}
    (h : ∀ q ∈ before, tree.locate q ≠ tree.locate path) :
    (∃ fault, job.turn tree before path = .broken fault) ↔ job.Breaks tree path := by
  rw [Job.turn, Job.Breaks]
  cases hPath : tree.locate path with
  | error failure => simp
  | ok place =>
    rw [hPath] at h
    simp only [Job.contentAfter_elsewhere h]
    cases hContent : tree.bytesAt? place with
    | none => simp [hContent]
    | some content => simp [hContent]

/-- The tree that a run without a report leaves. -/
theorem Job.run_tree {job : Job} {tree : FileTree} {paths : List Path}
    (h : ∀ p ∈ paths, ∃ place content, tree.locate p = .ok place ∧
      tree.bytesAt? place = some content) :
    (job.run tree paths none).tree = (job.orderFiles { tree } paths).1.tree := by
  rw [Job.run, Job.orderPaths, FileTree.allSources_of_files h]
  simp only
  cases job.orderFiles { tree } paths with
  | mk p stop => cases stop <;> rfl

/-- The turns of paths include that of each of them, after those in front of it. -/
theorem Job.turn_mem_turns {job : Job} {tree : FileTree} (start before : List Path) (path : Path)
    (after : List Path) :
    job.turn tree (start ++ before) path ∈ job.turns tree start (before ++ path :: after) := by
  induction before generalizing start with
  | nil => simp [Job.turns]
  | cons q before ih =>
    have hLater := ih (start ++ [q])
    rw [List.append_assoc, List.singleton_append] at hLater
    exact List.mem_cons_of_mem _ hLater

/-- A file that breaks the run off is left as it is, as its turn says. -/
theorem Job.contentAfter_broken {job : Job} {tree : FileTree} {place : Location} {path : Path}
    {before : List Path} {fault : FixFault} (hPath : tree.locate path = .ok place)
    (hBefore : ∀ q ∈ before, tree.locate q ≠ .ok place)
    (hTurn : job.turn tree before path = .broken fault) :
    job.contentAfter tree place before =
      (tree.bytesAt? place).map fun bytes => (job.turnOn path bytes).leaves job.dryRun bytes := by
  rw [Job.turn, hPath] at hTurn
  simp only [Job.contentAfter_elsewhere hBefore] at hTurn ⊢
  cases hContent : tree.bytesAt? place with
  | none => rfl
  | some content =>
    rw [hContent] at hTurn
    simp only at hTurn
    rw [Option.map_some, hTurn]
    rfl

/-- What a run over distinct files leaves in one of them: what the turn of that file alone leaves,
unless a file in front of it breaks the run off. -/
theorem Job.run_at {job : Job} {tree : FileTree} {before after : List Path} {path : Path}
    {place : Location}
    (hFiles : ∀ p ∈ before ++ path :: after, ∃ place content, tree.locate p = .ok place ∧
      tree.bytesAt? place = some content)
    (hDistinct : (before ++ path :: after).Pairwise fun a b => tree.locate a ≠ tree.locate b)
    (hPath : tree.locate path = .ok place) :
    ((∀ q ∈ before, ¬ job.Breaks tree q) →
      (job.run tree (before ++ path :: after) none).tree.bytesAt? place =
        (tree.bytesAt? place).map fun bytes => (job.turnOn path bytes).leaves job.dryRun bytes) ∧
    ((∃ q ∈ before, job.Breaks tree q) →
      (job.run tree (before ++ path :: after) none).tree.bytesAt? place = tree.bytesAt? place) := by
  obtain ⟨handled, rest, hSplit, hReached, -, -, hUnbroken, hEnd⟩ :=
    (reached_start job tree).orderFiles (before ++ path :: after)
  rw [Job.run_tree hFiles, hReached.content place, List.nil_append]
  rw [List.nil_append] at hEnd
  obtain ⟨hBeforeDistinct, hPathDistinct, hCross⟩ := List.pairwise_append.mp hDistinct
  have hBefore : ∀ q ∈ before, tree.locate q ≠ .ok place :=
    fun q hq => hPath ▸ hCross q hq path (by simp)
  have hAfter : ∀ q ∈ after, tree.locate q ≠ .ok place :=
    fun q hq => hPath ▸ ((List.pairwise_cons.mp hPathDistinct).1 q hq).symm
  -- whether a file in front breaks the run off is told by its content at the start
  have hTurn : ∀ front q back, before = front ++ q :: back →
      ((∃ fault, job.turn tree front q = .broken fault) ↔ job.Breaks tree q) := by
    rintro front q back rfl
    exact Job.turn_eq_broken_iff fun r hr =>
      (List.pairwise_append.mp hBeforeDistinct).2.2 r hr q (by simp)
  refine ⟨fun hNone => ?_, fun ⟨q, hq, hBreaks⟩ => ?_⟩
  · -- all files in front have had their turns, since none of them stops the run
    have hAll : ∃ more, handled = before ++ more ∧ path :: after = more ++ rest := by
      rcases List.append_eq_append_iff.mp hSplit with hMore | ⟨more, hMore, hRest⟩
      · exact hMore
      · cases more with
        | nil => exact ⟨[], by simpa using hMore.symm, by simpa using hRest.symm⟩
        | cons q more =>
          rcases hEnd with ⟨rfl, -⟩ | ⟨p, later, fault, rfl, -, hFault⟩
          · exact absurd hRest (by simp)
          · obtain ⟨rfl, -⟩ := List.cons.inj hRest
            exact absurd ((hTurn handled p more hMore).mp ⟨fault, hFault⟩)
              (hNone p (by simp [hMore]))
    obtain ⟨more, rfl, hMore⟩ := hAll
    cases more with
    | nil =>
      -- the file itself stops the run
      rw [List.append_nil] at hEnd ⊢
      rcases hEnd with ⟨rfl, -⟩ | ⟨p, later, fault, rfl, -, hFault⟩
      · exact absurd hMore (by simp)
      · obtain ⟨rfl, -⟩ := List.cons.inj hMore
        exact Job.contentAfter_broken hPath hBefore hFault
    | cons p more =>
      obtain ⟨rfl, rfl⟩ := List.cons.inj hMore
      exact Job.contentAfter_once hPath hBefore fun q hq => hAfter q (by simp [hq])
  · -- the run does not come to `path`: `q` would have had a turn that stops it
    rcases List.append_eq_append_iff.mp hSplit with ⟨more, rfl, -⟩ | ⟨more, rfl, -⟩
    · obtain ⟨front, back, rfl⟩ := List.append_of_mem hq
      obtain ⟨fault, hFault⟩ := (hTurn front q back rfl).mpr hBreaks
      have hMem := @Job.turn_mem_turns job tree [] front q (back ++ more)
      rw [List.nil_append, hFault] at hMem
      exact absurd (by simpa using hMem) (hUnbroken fault)
    · exact Job.contentAfter_elsewhere fun r hr => hBefore r (by simp [hr])

/-- With the built-in engine, a file breaks a run off only if its imports cannot be read. -/
theorem Job.not_readable_of_breaks {job : Job} {tree : FileTree} {path : Path}
    (hEngine : job.tokenizer.engine = .builtIn) (h : job.Breaks tree path) :
    ∃ source, tree.readText path = .ok source ∧ readable (classify (lex source)) = false := by
  obtain ⟨place, content, fault, hPath, hContent, hTurn⟩ := h
  rw [Job.turnOn] at hTurn
  cases hDecode : Utf8.decode content with
  | error cause => simp [hDecode] at hTurn
  | ok source =>
    refine ⟨source, FileTree.readText_eq_ok_iff.mpr ⟨place, content, hPath, hContent, hDecode⟩, ?_⟩
    by_contra hReadable
    obtain ⟨result, hResult⟩ := exists_fixSource job.settings hEngine (job.process source)
      (some path.toString) (by simpa using hReadable)
    simp [hDecode, hResult] at hTurn

/-- Files of one run are independent up to the first one that breaks it off. Where the arguments
name distinct files and ask for no report, each file whose forerunners do not break the run off is
left with the bytes that a run on it alone leaves, and each file behind one that does is left as it
was. With the built-in engine, only a text whose imports cannot be read breaks a run off. -/
theorem run_files_independent (arguments alone : List String) (process : Text → ProcessOutcome)
    (tree : FileTree) (i : Invocation) (settings : Settings) (before after : List Path)
    (path : Path) (place : Location) (h : Accepted arguments tree i settings)
    (hAlone : Accepted alone tree { i with paths := [path] } settings) (hReport : i.report = none)
    (hPaths : i.paths = before ++ path :: after)
    (hFiles : ∀ p ∈ i.paths, ∃ place content, tree.locate p = .ok place ∧
      tree.bytesAt? place = some content)
    (hDistinct : i.paths.Pairwise fun a b => tree.locate a ≠ tree.locate b)
    (hPlace : tree.locate path = .ok place) :
    let job := i.job process settings
    ((∀ q ∈ before, ¬ job.Breaks tree q) →
      (run arguments process tree).tree.bytesAt? place =
        (run alone process tree).tree.bytesAt? place) ∧
    ((∃ q ∈ before, job.Breaks tree q) →
      (run arguments process tree).tree.bytesAt? place = tree.bytesAt? place) ∧
    (i.tokenizer.engine = .builtIn → ∀ q, job.Breaks tree q →
      ∃ source, tree.readText q = .ok source ∧ readable (classify (lex source)) = false) := by
  intro job
  rw [hPaths] at hFiles hDistinct
  have hWhole := @Job.run_at job tree before after path place hFiles hDistinct hPlace
  have hSingle := @Job.run_at job tree [] [] path place
    (fun p hp => hFiles p (by simp at hp; simp [hp])) (by simp) hPlace
  rw [h.run_eq process, hAlone.run_eq process, hPaths, hReport]
  refine ⟨fun hNone => ?_, hWhole.2, fun hEngine q hBreaks => Job.not_readable_of_breaks hEngine hBreaks⟩
  exact (hWhole.1 hNone).trans (hSingle.1 (by simp)).symm

/-- A file that cannot be handled stands in front of another one, and one that breaks the run off
behind it. -/
theorem run_files_independent_of_three :
    let tree : FileTree :=
      { files := [(["a.php"], Utf8.encode "<?php\nuse A".toList),
          (["b.php"], Utf8.encode "<?php\nuse B\\X;\nf();\nuse A\\Y;\n".toList),
          (["c.php"], Utf8.encode "<?php\nuse Foo\\B\x7d;\n".toList)] }
    (run ["a.php", "b.php", "c.php"] (fun _ => .notFound) tree).tree.bytesAt? ["b.php"] =
      (run ["b.php"] (fun _ => .notFound) tree).tree.bytesAt? ["b.php"] := by
  intro tree
  let i : Invocation :=
    { paths := [⟨"", ["a.php"]⟩, ⟨"", ["b.php"]⟩, ⟨"", ["c.php"]⟩] }
  have hAccepted : Accepted ["a.php", "b.php", "c.php"] tree i {} :=
    ⟨by with_unfolding_all rfl, rfl, by simp [i], ⟨[], rfl, by with_unfolding_all rfl⟩,
      by decide +kernel⟩
  have hAlone : Accepted ["b.php"] tree { i with paths := [⟨"", ["b.php"]⟩] } {} :=
    ⟨by with_unfolding_all rfl, rfl, by simp, ⟨[], rfl, by with_unfolding_all rfl⟩,
      by decide +kernel⟩
  have hFiles : ∀ p ∈ i.paths, ∃ place content, tree.locate p = .ok place ∧
      tree.bytesAt? place = some content := by
    simp only [i, List.forall_mem_cons]
    exact ⟨⟨["a.php"], _, by decide +kernel, rfl⟩, ⟨["b.php"], _, by decide +kernel, rfl⟩,
      ⟨["c.php"], _, by decide +kernel, rfl⟩, by simp⟩
  have hIndependent := run_files_independent ["a.php", "b.php", "c.php"] ["b.php"]
    (fun _ => .notFound) tree i {} [⟨"", ["a.php"]⟩] [⟨"", ["c.php"]⟩] ⟨"", ["b.php"]⟩ ["b.php"]
    hAccepted hAlone rfl rfl hFiles (by decide +kernel) (by decide +kernel)
  refine hIndependent.1 fun q hq hBreaks => ?_
  obtain rfl : q = ⟨"", ["a.php"]⟩ := by simpa using hq
  obtain ⟨source, hSource, hReadable⟩ := hIndependent.2.2 rfl _ hBreaks
  have hText : tree.readText ⟨"", ["a.php"]⟩ = .ok "<?php\nuse A".toList := by decide +kernel
  obtain rfl := Except.ok.inj (hText.symm.trans hSource)
  exact absurd hReadable (by decide +kernel)

/-- Files of one run are not independent: one that closes a group that it has not opened keeps
those behind it from being handled. -/
theorem unopened_group_keeps_others :
    let tree : FileTree :=
      { files := [(["a.php"], Utf8.encode "<?php\nuse Foo\\B\x7d;\n".toList),
          (["b.php"], Utf8.encode "<?php\nuse B\\X;\nf();\nuse A\\Y;\n".toList)] }
    (run ["a.php", "b.php"] (fun _ => .notFound) tree).tree.bytesAt? ["b.php"] =
        tree.bytesAt? ["b.php"] ∧
      (run ["b.php"] (fun _ => .notFound) tree).tree.bytesAt? ["b.php"] =
        some (Utf8.encode "<?php\nuse B\\X;\nf();\n\nuse A\\Y;\n".toList) := by
  decide +kernel

end OrderImports

end UseOrder
