import UseOrder.Import.Run
import UseOrder.Proofs.Statement

/-!
# Runs and sub-groups

Whether a statement follows another is told by the gap between them (`follows_gap`). An import then
either joins the sub-group of the next one or is a sub-group of its own, and a namespace
declaration opens a new run.
-/

namespace UseOrder

/-! ## Statements that follow each other -/

/-- Nothing stands in the way between two statements with the gap between them: white space and
comments only, or a close tag, markup and an open tag with nothing else behind it. -/
def reaches (gap : List Token) : Bool :=
  match gap with
  | [] => false
  | stop :: rest =>
    (if stop.kind == .closeTag then (rest.dropWhile (·.kind != .openTag)).drop 1
      else rest).all fun t => !t.isMeaningful

/-- The gap joins the statements on both sides to one sub-group. -/
def joins (gap : List Token) : Bool :=
  reaches gap && gap.all (·.kind != .namespaceWord)

theorem exists_first {p : Token → Bool} {ts : List Token} (h : ∃ t ∈ ts, p t = true) :
    ∃ front t back, ts = front ++ t :: back ∧ p t = true ∧ ∀ u ∈ front, p u = false := by
  obtain ⟨t, ht⟩ := Option.isSome_iff_exists.mp (List.find?_isSome.mpr h)
  obtain ⟨hp, front, back, hSplit, hFront⟩ := List.find?_eq_some_iff_append.mp ht
  exact ⟨front, t, back, hSplit, hp, fun u hu => by simpa using hFront u hu⟩

theorem isMeaningful_of_use {word : Token} (hWord : word.kind = .useWord) :
    word.isMeaningful = true := by
  simp [Token.isMeaningful, Token.isWhitespace, Token.isComment, hWord]

/-- The search for the next meaningful token finds `next` if nothing meaningful stands before it. -/
theorem nextMeaningful_append {before between rest : List Token} {t next : Token}
    (hNext : next.isMeaningful = true) :
    ∃ found, nextMeaningful (before ++ t :: (between ++ next :: rest)) (before.length : Nat) =
        .ok found ∧
      (found == some ((before ++ t :: between).length : Int)) =
        between.all fun u => !u.isMeaningful := by
  rw [nextMeaningful, nextWhere_append, List.findIdx?_append]
  refine ⟨_, rfl, ?_⟩
  cases hFind : between.findIdx? Token.isMeaningful with
  | none =>
    rw [List.findIdx?_eq_none_iff] at hFind
    have hAll : between.all (fun u => !u.isMeaningful) = true := by simpa using hFind
    rw [hAll, beq_iff_eq]
    simp only [List.findIdx?_cons, hNext, if_true, Option.none_or, Option.map_some,
      Nat.zero_add, List.length_append, List.length_cons, Option.some.injEq]
    omega
  | some k =>
    obtain ⟨hk, hMeaning, -⟩ := List.findIdx?_eq_some_iff_getElem.mp hFind
    have hAll : between.all (fun u => !u.isMeaningful) = false := by
      rw [List.all_eq_false]
      exact ⟨_, List.getElem_mem hk, by simp [hMeaning]⟩
    rw [hAll, beq_eq_false_iff_ne]
    simp only [Option.some_or, Option.map_some, List.length_append, List.length_cons, ne_eq,
      Option.some.injEq]
    omega

theorem statementEnd_append {before body after : List Token} {word : Token}
    (hBody : ∀ t ∈ body, t.isTerminator = false)
    (hAfter : after.head?.any Token.isTerminator = true) :
    statementEnd (before ++ word :: (body ++ after)) (before.length : Nat) =
      .ok ((before ++ word :: body).length : Nat) := by
  cases after with
  | nil => simp at hAfter
  | cons stop after =>
    rw [statementEnd, nextWhere_first hBody (by simpa using hAfter)]
    rfl

/-- The statement that follows a statement is looked for from its terminator on, or from the open tag
behind it if that is a close tag. -/
theorem exists_resumed {before body after : List Token} {word stop : Token}
    (hBody : ∀ t ∈ body, t.isTerminator = false) (hStop : stop.isTerminator = true) :
    let ts := before ++ word :: (body ++ stop :: after)
    ∃ start : Int, (before.length : Int) < start ∧
      ((∀ t ∈ body, t.kind ≠ .openTag) → ((before ++ word :: body).length : Int) ≤ start) ∧
      ∀ v, follows ts (before.length : Nat) v = (nextMeaningful ts start).map (· == some v) := by
  intro ts
  have hEnd : statementEnd ts (before.length : Nat) = .ok ((before ++ word :: body).length : Nat) :=
    statementEnd_append hBody (by simpa using hStop)
  have hToken : tokenAt ts ((before ++ word :: body).length : Nat) = .ok stop := by
    have hAt := tokenAt_append (before ++ word :: body) stop after
    rwa [List.append_assoc, List.cons_append] at hAt
  have hBehind : (before.length : Int) < ((before ++ word :: body).length : Nat) := by
    simp only [List.length_append, List.length_cons]
    omega
  -- every answer of the search for an open tag leaves one place to go on from
  have hFollows {resumed : Option Int}
      (hResumed : (if stop.kind == .closeTag then nextWhere (·.kind == .openTag) ts before.length
        else .ok none) = .ok resumed) (v : Int) :
      follows ts (before.length : Nat) v =
        (nextMeaningful ts (resumed.getD ((before ++ word :: body).length : Nat))).map
          (· == some v) := by
    simp only [follows, hEnd, hToken, bind, Except.bind, pure, Except.pure]
    split at hResumed
    · next hClose =>
      rw [if_pos hClose, hResumed]
      rfl
    · next hClose =>
      obtain rfl := Except.ok.inj hResumed
      rw [if_neg hClose]
      rfl
  by_cases hClose : stop.kind == .closeTag
  · obtain ⟨resumed, hResumed⟩ :=
      nextWhere_ok (·.kind == .openTag) ts (Int.natCast_nonneg before.length)
    refine ⟨_, ?_, ?_, hFollows (by rw [if_pos hClose, hResumed])⟩
    · cases resumed with
      | none => exact hBehind
      | some j => exact lt_of_nextWhere hResumed
    · intro hOpen
      cases resumed with
      | none => exact le_refl _
      | some j =>
        -- the open tag stands behind the close tag, since there is none in the statement
        have hNone : body.findIdx? (·.kind == .openTag) = none := by
          rw [List.findIdx?_eq_none_iff]
          exact fun t ht => by simpa using hOpen t ht
        rw [nextWhere_append, List.findIdx?_append, hNone, Option.none_or, Option.map_map] at hResumed
        obtain ⟨k, -, hk⟩ := Option.map_eq_some_iff.mp (Except.ok.inj hResumed)
        simp only [Function.comp_apply] at hk
        simp only [Option.getD_some, List.length_append, List.length_cons]
        omega
  · exact ⟨((before ++ word :: body).length : Nat), hBehind, fun _ => le_refl _,
      @hFollows none (by rw [if_neg hClose])⟩

/-- Whether a statement follows another is told by the gap between them. -/
theorem follows_gap {before body gap rest : List Token} {word next : Token}
    (hBody : ∀ t ∈ body, t.isTerminator = false ∧ t.kind ≠ .openTag) (hGap : EndsStatement gap)
    (hNext : next.isMeaningful = true) :
    follows (before ++ word :: (body ++ (gap ++ next :: rest))) (before.length : Nat)
        ((before ++ word :: (body ++ gap)).length : Nat) = .ok (reaches gap) := by
  obtain ⟨stop, between, rfl, hStop, hOpen⟩ := hGap
  have hEnd : statementEnd (before ++ word :: (body ++ (stop :: between ++ next :: rest)))
      (before.length : Nat) = .ok ((before ++ word :: body).length : Nat) :=
    statementEnd_append (fun t ht => (hBody t ht).1) (by simpa using hStop)
  have hShape : before ++ word :: (body ++ (stop :: between ++ next :: rest)) =
      (before ++ word :: body) ++ stop :: (between ++ next :: rest) := by simp
  have hToken : tokenAt (before ++ word :: (body ++ (stop :: between ++ next :: rest)))
      ((before ++ word :: body).length : Nat) = .ok stop := by
    rw [hShape]
    exact tokenAt_append _ _ _
  simp only [follows, hEnd, hToken, bind, Except.bind, reaches]
  cases hClose : stop.kind == .closeTag with
  | false =>
    -- the next statement is looked for right behind the semicolon
    have hLength : (before ++ word :: (body ++ stop :: between)).length =
        ((before ++ word :: body) ++ stop :: between).length := by simp
    obtain ⟨found, hFound, hReach⟩ :=
      @nextMeaningful_append (before ++ word :: body) between rest stop next hNext
    simp only [Bool.false_eq_true, if_false, pure, Except.pure, Option.getD_none]
    rw [hShape, hFound, hLength]
    simp only [hReach]
  | true =>
    -- and behind a close tag, from the first open tag on
    obtain ⟨front, tag, behind, rfl, hTag, hFront⟩ :=
      exists_first (p := fun t => t.kind == .openTag) (by simpa using hOpen (by simpa using hClose))
    have hNone : ∀ t ∈ body ++ stop :: front, (t.kind == .openTag) = false := by
      intro t ht
      rcases List.mem_append.mp ht with ht | ht
      · simpa using (hBody t ht).2
      · rcases List.mem_cons.mp ht with rfl | ht
        · simp_all
        · exact hFront t ht
    have hTagged : before ++ word :: (body ++ (stop :: (front ++ tag :: behind) ++ next :: rest)) =
        before ++ word :: ((body ++ stop :: front) ++ tag :: (behind ++ next :: rest)) := by simp
    have hRest : ((front ++ tag :: behind).dropWhile (·.kind != .openTag)).drop 1 = behind := by
      rw [List.dropWhile_append_of_pos fun t ht => by simpa using hFront t ht,
        List.dropWhile_cons_of_neg (by simpa using hTag)]
      rfl
    have hLength : (before ++ word :: (body ++ stop :: (front ++ tag :: behind))).length =
        ((before ++ word :: (body ++ stop :: front)) ++ tag :: behind).length := by simp
    obtain ⟨found, hFound, hReach⟩ :=
      @nextMeaningful_append (before ++ word :: (body ++ stop :: front)) behind rest tag next hNext
    rw [List.append_assoc, List.cons_append] at hFound
    simp only [if_true, hTagged, nextWhere_first hNone hTag, Option.getD_some, hRest, pure,
      Except.pure]
    rw [hFound, hLength]
    simp only [hReach]

/-! ## Runs -/

theorem importRunsFrom_ne_nil (i : Nat) (ts : List Token) : importRunsFrom i ts ≠ [] := by
  induction ts generalizing i with
  | nil => simp [importRunsFrom]
  | cons t ts ih =>
    simp only [importRunsFrom]
    split
    · simp
    · split
      · split <;> simp
      · exact ih (i + 1)

/-- Tokens without imports only open runs. -/
theorem importRunsFrom_gap {gap : List Token} (hGap : ∀ t ∈ gap, t.kind ≠ .useWord) (i : Nat)
    (rest : List Token) :
    importRunsFrom i (gap ++ rest) =
      List.replicate (gap.countP (·.kind == .namespaceWord)) [] ++
        importRunsFrom (i + gap.length) rest := by
  induction gap generalizing i with
  | nil => simp
  | cons t gap ih =>
    have ht := hGap t List.mem_cons_self
    have hLater := ih (fun u hu => hGap u (List.mem_cons_of_mem _ hu)) (i + 1)
    have hNext : i + 1 + gap.length = i + (t :: gap).length := by
      rw [List.length_cons]
      omega
    rw [List.cons_append, importRunsFrom, hLater, hNext, List.countP_cons]
    cases hName : t.kind == .namespaceWord with
    | true => simp [List.replicate_succ]
    | false => simp [ht]

/-- An import joins the run that goes on behind it. -/
theorem importRunsFrom_use {word : Token} (hWord : word.kind = .useWord) (i : Nat)
    (rest : List Token) :
    ∃ run runs, importRunsFrom (i + 1) rest = run :: runs ∧
      importRunsFrom i (word :: rest) = ((i : Int) :: run) :: runs := by
  cases hRuns : importRunsFrom (i + 1) rest with
  | nil => exact absurd hRuns (importRunsFrom_ne_nil _ _)
  | cons run runs => exact ⟨run, runs, rfl, by simp [importRunsFrom, hWord, hRuns]⟩

theorem subGroupsFrom_replicate (ts : List Token) (n k : Nat) (runs : List (List Int)) :
    subGroupsFrom ts n (List.replicate k [] ++ runs) = subGroupsFrom ts (n + k) runs := by
  induction k generalizing n with
  | zero => rfl
  | succ k ih =>
    rw [List.replicate_succ, List.cons_append, subGroupsFrom, ih, show n + 1 + k = n + (k + 1) by omega]
    simp only [splitRun, pure, Except.pure, bind, Except.bind, List.map_nil, List.nil_append]
    split <;> simp_all

theorem subGroupsFrom_cons_iff {ts : List Token} {n : Nat} {run : List Int}
    {runs : List (List Int)} {groups : List SubGroup} :
    subGroupsFrom ts n (run :: runs) = .ok groups ↔
      ∃ parts later, splitRun ts run = .ok parts ∧ subGroupsFrom ts (n + 1) runs = .ok later ∧
        groups = parts.map (SubGroup.mk n) ++ later := by
  simp only [subGroupsFrom, bind, Except.bind, pure, Except.pure]
  cases splitRun ts run with
  | error fault => simp
  | ok parts =>
    cases subGroupsFrom ts (n + 1) runs with
    | error fault => simp
    | ok later => simp [eq_comm]

/-- An import that nothing follows is a sub-group of its own. -/
theorem subGroupsFrom_alone {ts : List Token} {n : Nat} {u : Int} {run : List Int}
    {runs : List (List Int)} {groups : List SubGroup}
    (h : subGroupsFrom ts n (run :: runs) = .ok groups)
    (hAlone : ∀ v ∈ run.head?, follows ts u v = .ok false) :
    subGroupsFrom ts n ((u :: run) :: runs) = .ok (⟨n, [u]⟩ :: groups) := by
  obtain ⟨parts, later, hSplit, hLater, rfl⟩ := subGroupsFrom_cons_iff.mp h
  refine subGroupsFrom_cons_iff.mpr ⟨[u] :: parts, later, ?_, hLater, rfl⟩
  cases run with
  | nil =>
    obtain rfl : [] = parts := Except.ok.inj hSplit
    rfl
  | cons v rest =>
    simp only [splitRun, hAlone v (by simp), hSplit, bind, Except.bind, pure, Except.pure]

theorem splitRun_cons_ne_nil {ts : List Token} {v : Int} {rest : List Int}
    {parts : List (List Int)} (h : splitRun ts (v :: rest) = .ok parts) : parts ≠ [] := by
  cases rest with
  | nil =>
    obtain rfl : [[v]] = parts := Except.ok.inj h
    simp
  | cons w rest =>
    simp only [splitRun, bind, Except.bind, pure, Except.pure] at h
    split at h
    · exact absurd h (by simp)
    · split at h
      · exact absurd h (by simp)
      · split at h <;> (obtain rfl := Except.ok.inj h; simp)

/-- How a run is split at its first import: the import joins the first part of what is behind it, or
stands for itself. -/
theorem splitRun_cons_cons {ts : List Token} {u v : Int} {rest : List Int} {parts : List (List Int)}
    (h : splitRun ts (u :: v :: rest) = .ok parts) :
    ∃ joined group others, follows ts u v = .ok joined ∧
      splitRun ts (v :: rest) = .ok (group :: others) ∧
      parts = if joined then (u :: group) :: others else [u] :: group :: others := by
  simp only [splitRun, bind, Except.bind, pure, Except.pure] at h
  split at h
  · cases h
  · next joined hJoined =>
    split at h
    · cases h
    · next groups hGroups =>
      obtain ⟨group, others, rfl⟩ := List.exists_cons_of_ne_nil (splitRun_cons_ne_nil hGroups)
      refine ⟨joined, group, others, hJoined, hGroups, ?_⟩
      cases joined <;> exact (Except.ok.inj h).symm

/-- An import that another follows joins its sub-group. -/
theorem subGroupsFrom_join {ts : List Token} {n : Nat} {u v : Int} {rest us : List Int}
    {runs : List (List Int)} {groups : List SubGroup} {k : Nat}
    (h : subGroupsFrom ts n ((v :: rest) :: runs) = .ok (⟨k, us⟩ :: groups))
    (hFollows : follows ts u v = .ok true) :
    subGroupsFrom ts n ((u :: v :: rest) :: runs) = .ok (⟨k, u :: us⟩ :: groups) := by
  obtain ⟨parts, later, hSplit, hLater, hGroups⟩ := subGroupsFrom_cons_iff.mp h
  obtain ⟨part, others, rfl⟩ := List.exists_cons_of_ne_nil (splitRun_cons_ne_nil hSplit)
  simp only [List.map_cons, List.cons_append, List.cons.injEq, SubGroup.mk.injEq] at hGroups
  obtain ⟨⟨rfl, rfl⟩, rfl⟩ := hGroups
  refine subGroupsFrom_cons_iff.mpr ⟨(u :: us) :: others, later, ?_, hLater, rfl⟩
  simp only [splitRun, hFollows, hSplit, bind, Except.bind, pure, Except.pure]

end UseOrder
