import UseOrder.Proofs.Failure
import UseOrder.Proofs.Neighbours

/-!
# Sub-groups are the adjoining statements

Sub-groups are found by searches through the tokens: for the terminator of a statement, for the open
tag behind a close tag, for the next meaningful token. Here they are told by what stands between two
statements instead (`Adjoins`): white space and comments behind the terminator, or behind a close
tag the markup and the open tag that lead back to code. That the two agree rests on how a text is
split into tokens. The search for an open tag starts at the `use`, and finds none inside the
statement; and behind a close tag there is at most one piece of markup in front of the open tag.
-/

namespace UseOrder

/-! ## What may stand between two statements -/

/-- What may follow the terminator of a statement up to one that adjoins it. -/
inductive Bridges (stop : Token) : List Token → Prop
  /-- White space and comments. -/
  | quiet {between : List Token} (h : ∀ t ∈ between, t.isMeaningful = false) : Bridges stop between
  /-- Behind a close tag, the open tag with markup in front of it or none, and then white space and
  comments. -/
  | reopened {markup quiet : List Token} {tag : Token} (hStop : stop.kind = .closeTag)
      (hMarkup : markup = [] ∨ ∃ t, markup = [t] ∧ t.kind = .inlineHtml)
      (hTag : tag.kind = .openTag) (hQuiet : ∀ t ∈ quiet, t.isMeaningful = false) :
    Bridges stop (markup ++ tag :: quiet)

theorem Bridges.quiet_of_ne {stop : Token} {between : List Token} (h : Bridges stop between)
    (hStop : stop.kind ≠ .closeTag) : ∀ t ∈ between, t.isMeaningful = false := by
  cases h with
  | quiet hBetween => exact hBetween
  | reopened hClose => exact absurd hClose hStop

/-- Of what stands between the `use` words of two statements, the first terminator ends the first
statement, and the rest bridges the way to the second. -/
def Adjoins (middle : List Token) : Prop :=
  match middle.dropWhile (!·.isTerminator) with
  | [] => False
  | stop :: between => Bridges stop between

theorem adjoins_append {body between : List Token} {stop : Token}
    (hBody : ∀ t ∈ body, t.isTerminator = false) (hStop : stop.isTerminator = true) :
    Adjoins (body ++ stop :: between) ↔ Bridges stop between := by
  have hDrop : (body ++ stop :: between).dropWhile (!·.isTerminator) = stop :: between := by
    rw [List.dropWhile_append_of_pos fun t ht => by simp [hBody t ht],
      List.dropWhile_cons_of_neg (by simp [hStop])]
  rw [Adjoins, hDrop]

theorem not_adjoins {middle : List Token} (h : ∀ t ∈ middle, t.isTerminator = false) :
    ¬ Adjoins middle := by
  have hDrop : middle.dropWhile (!·.isTerminator) = [] :=
    List.dropWhile_eq_nil_iff.mpr fun t ht => by simp [h t ht]
  rw [Adjoins, hDrop]
  exact id

/-! ## Code that starts again -/

theorem neighbours_source (source : Text) :
    (classify (lex source)).IsChain fun t next => Neighbours t.raw next.raw := by
  have hChain := neighbours_lexFrom false source
  rw [← lex, ← map_raw_classify] at hChain
  exact (List.isChain_map _).mp hChain

/-- Behind a close tag comes the next open tag, with one piece of markup in front of it or none. -/
theorem exists_reopened {stop : Token} {between rest : List Token} (hStop : stop.kind = .closeTag)
    (hOpen : ∃ t ∈ between, t.kind = .openTag)
    (h : (stop :: (between ++ rest)).IsChain fun t next => Neighbours t.raw next.raw) :
    ∃ markup tag behind, between = markup ++ tag :: behind ∧ tag.kind = .openTag ∧
      (markup = [] ∨ ∃ t, markup = [t] ∧ t.kind = .inlineHtml) := by
  have hKind (t : Token) {kind : TokenKind} (hFixed : kind.isFixed = true) :
      t.raw.kind = kind ↔ t.kind = kind := TokenKind.raw_eq_iff hFixed t.content
  match between, hOpen with
  | first :: behind, hOpen =>
    rw [List.cons_append, List.isChain_cons_cons] at h
    rcases h.1.closing ((hKind stop rfl).mpr hStop) with hHtml | hTag
    · rw [hKind first rfl] at hHtml
      match behind, hOpen with
      | [], ⟨t, ht, hTag⟩ =>
        obtain rfl : t = first := by simpa using ht
        exact absurd (hHtml.symm.trans hTag) (by simp)
      | tag :: behind, _ =>
        rw [List.cons_append, List.isChain_cons_cons] at h
        have hTag := h.2.1.code ((hKind first rfl).mpr hHtml)
        exact ⟨[first], tag, behind, rfl, (hKind tag rfl).mp hTag, .inr ⟨first, rfl, hHtml⟩⟩
    · exact ⟨[], first, behind, rfl, (hKind first rfl).mp hTag, .inl rfl⟩
  | [], hOpen => simp at hOpen

theorem reopened_drop {markup behind : List Token} {tag : Token} (hTag : tag.kind = .openTag)
    (hMarkup : markup = [] ∨ ∃ t, markup = [t] ∧ t.kind = .inlineHtml) :
    ((markup ++ tag :: behind).dropWhile (·.kind != .openTag)).drop 1 = behind := by
  rcases hMarkup with rfl | ⟨t, rfl, hHtml⟩
  · simp [hTag]
  · simp [hTag, hHtml]

/-- The searches reach the next statement exactly if what stands between bridges the way. -/
theorem reaches_iff_bridges {stop : Token} {between rest : List Token}
    (hOpen : stop.kind = .closeTag → ∃ t ∈ between, t.kind = .openTag)
    (h : (stop :: (between ++ rest)).IsChain fun t next => Neighbours t.raw next.raw) :
    reaches (stop :: between) = true ↔ Bridges stop between := by
  have hQuiet (ts : List Token) : (ts.all fun t => !t.isMeaningful) = true ↔
      ∀ t ∈ ts, t.isMeaningful = false := by simp
  rw [reaches]
  cases hClose : stop.kind == .closeTag with
  | false =>
    rw [if_neg (by simp), hQuiet]
    exact ⟨.quiet, fun hBridges => hBridges.quiet_of_ne (beq_eq_false_iff_ne.mp hClose)⟩
  | true =>
    have hStop : stop.kind = .closeTag := by simpa using hClose
    rw [if_pos rfl, hQuiet]
    constructor
    · intro hBehind
      obtain ⟨markup, tag, behind, rfl, hTag, hMarkup⟩ := exists_reopened hStop (hOpen hStop) h
      rw [reopened_drop hTag hMarkup] at hBehind
      exact .reopened hStop hMarkup hTag hBehind
    · intro hBridges
      cases hBridges with
      | quiet hBetween =>
        -- this does not happen, but what is dropped leaves white space and comments in any case
        exact fun t ht =>
          hBetween t ((List.dropWhile_sublist _).subset ((List.drop_sublist _ _).subset ht))
      | reopened _ hMarkup hTag hBehind =>
        rw [reopened_drop hTag hMarkup]
        exact hBehind

/-- A statement follows another exactly if it adjoins it. -/
theorem follows_iff_adjoins {source : Text} {before middle rest : List Token} {word next : Token}
    (h : classify (lex source) = before ++ word :: (middle ++ next :: rest))
    (hWord : word.kind = .useWord) (hNext : next.kind = .useWord) :
    follows (classify (lex source)) before.length ((before ++ word :: middle).length : Nat) =
      .ok true ↔ Adjoins middle := by
  by_cases hEnds : ∃ t ∈ middle, t.isTerminator = true
  · obtain ⟨body, stop, between, rfl, hStop, hBody⟩ := exists_first hEnds
    rw [List.append_assoc] at h
    have hBehind : classify (lex source) =
        (before ++ word :: body) ++ stop :: (between ++ next :: rest) := by simp [h]
    have hReopens : stop.kind = .closeTag → ∃ t ∈ between, t.kind = .openTag := fun hClose =>
      exists_openTag_of_closeTag hBehind hClose hNext
    have hOpen := not_openTag_of_statement h hWord hBody
    have hFollows := @follows_gap before body (stop :: between) rest word next
      (fun t ht => ⟨hBody t ht, hOpen t ht⟩) ⟨stop, between, rfl, hStop, hReopens⟩
      (isMeaningful_of_use hNext)
    have hChain := neighbours_source source
    rw [hBehind, List.isChain_append] at hChain
    rw [adjoins_append hBody hStop, ← reaches_iff_bridges hReopens hChain.2.1, h, hFollows,
      Except.ok.injEq]
  · have hNone : ∀ t ∈ middle, t.isTerminator = false := fun t ht => by
      simpa using fun hTerm => hEnds ⟨t, ht, hTerm⟩
    refine ⟨fun hFollows => ?_, fun hAdjoins => absurd hAdjoins (not_adjoins hNone)⟩
    have hUse : UseAt (classify (lex source)) before.length :=
      ⟨before.length, rfl, word, by rw [h]; simp, hWord⟩
    -- the second statement would stand behind the terminator of the first
    obtain ⟨k, t, hk, hTerm, hLow, hHigh⟩ := divided_of_follows hUse hFollows
    rw [h] at hk
    simp only [List.length_append, List.length_cons] at hHigh
    have hMem := (standsAt_body before middle (next :: rest) word).mem hk (by omega) (by omega)
    exact absurd (hNone t hMem) (by simp [hTerm])

/-! ## Statements in one sub-group -/

/-- Two statements of a run, one behind the other, go to the same part exactly if the second follows
the first. -/
theorem splitRun_together {source : Text} {front back : List Int} {u v : Int}
    {parts : List (List Int)}
    (hUses : ∀ w ∈ front ++ u :: v :: back, UseAt (classify (lex source)) w)
    (hLess : (front ++ u :: v :: back).Pairwise (· < ·))
    (h : splitRun (classify (lex source)) (front ++ u :: v :: back) = .ok parts) :
    (∃ part ∈ parts, u ∈ part ∧ v ∈ part) ↔ follows (classify (lex source)) u v = .ok true := by
  induction front generalizing parts with
  | nil =>
    obtain ⟨joined, group, others, hJoined, hLater, rfl⟩ := splitRun_cons_cons h
    obtain ⟨hFlatten, hParts⟩ :=
      splitRun_parts (fun w hw => hUses w (List.mem_cons_of_mem _ hw)) hLater
    obtain ⟨hAhead, -⟩ := List.pairwise_cons.mp hLess
    rw [hJoined, Except.ok.injEq]
    cases joined with
    | true =>
      -- the part that is joined begins with the second statement
      obtain ⟨w, more, rfl⟩ := List.exists_cons_of_ne_nil (hParts group List.mem_cons_self).1
      obtain ⟨rfl, -⟩ := List.cons.inj hFlatten
      simp
    | false =>
      have hNew : ∀ part ∈ group :: others, u ∉ part := by
        intro part hPart hu
        have hMem : u ∈ v :: back := hFlatten ▸ List.mem_flatten.mpr ⟨part, hPart, hu⟩
        exact lt_irrefl u (hAhead u hMem)
      have huv : v ≠ u := (hAhead v List.mem_cons_self).ne'
      simp only [Bool.false_eq_true, if_false, iff_false, not_exists, not_and]
      intro part hPart hu hv
      rcases List.mem_cons.mp hPart with rfl | hPart
      · exact huv (List.mem_singleton.mp hv)
      · exact hNew part hPart hu
  | cons w front ih =>
    obtain ⟨hAhead, hRest⟩ := List.pairwise_cons.mp hLess
    have hu : u ≠ w := (hAhead u (by simp)).ne'
    have hv : v ≠ w := (hAhead v (by simp)).ne'
    obtain ⟨x, rest, hCons⟩ :=
      List.exists_cons_of_ne_nil (show front ++ u :: v :: back ≠ [] by simp)
    rw [List.cons_append, hCons] at h
    obtain ⟨joined, group, others, -, hLater, rfl⟩ := splitRun_cons_cons h
    rw [← hCons] at hLater
    rw [← ih (fun y hy => hUses y (List.mem_cons_of_mem _ hy)) hRest hLater]
    cases joined <;> simp [hu, hv]

/-- Two statements of a run, one behind the other, are in the same sub-group exactly if the second
follows the first. -/
theorem subGroupsFrom_together {source : Text} {n : Nat} {earlier later : List (List Int)}
    {front back : List Int} {u v : Int} {groups : List SubGroup}
    (hUses : ∀ w ∈ (earlier ++ (front ++ u :: v :: back) :: later).flatten,
      UseAt (classify (lex source)) w)
    (hLess : (earlier ++ (front ++ u :: v :: back) :: later).flatten.Pairwise (· < ·))
    (h : subGroupsFrom (classify (lex source)) n (earlier ++ (front ++ u :: v :: back) :: later) =
      .ok groups) :
    (∃ g ∈ groups, u ∈ g.uses ∧ v ∈ g.uses) ↔ follows (classify (lex source)) u v = .ok true := by
  induction earlier generalizing n groups with
  | nil =>
    rw [List.nil_append] at h hUses hLess
    obtain ⟨parts, others, hParts, hOthers, rfl⟩ := subGroupsFrom_cons_iff.mp h
    rw [List.flatten_cons] at hUses hLess
    obtain ⟨hRun, -, hBehind⟩ := List.pairwise_append.mp hLess
    obtain ⟨hFlat, -⟩ := subGroupsFrom_uses
      (fun w hw => hUses w (List.mem_append_right _ hw)) hOthers
    -- the first of the two stands in front of all later runs, so their sub-groups do not hold it
    have hElsewhere : ∀ g ∈ others, u ∉ g.uses := by
      intro g hg hu
      have hMem : u ∈ later.flatten := hFlat ▸ List.mem_flatMap.mpr ⟨g, hg, hu⟩
      exact lt_irrefl u (hBehind u (by simp) u hMem)
    rw [← splitRun_together (fun w hw => hUses w (List.mem_append_left _ hw)) hRun hParts]
    constructor
    · rintro ⟨g, hg, hu, hv⟩
      rcases List.mem_append.mp hg with hg | hg
      · obtain ⟨part, hPart, rfl⟩ := List.mem_map.mp hg
        exact ⟨part, hPart, hu, hv⟩
      · exact absurd hu (hElsewhere g hg)
    · rintro ⟨part, hPart, hBoth⟩
      exact ⟨⟨n, part⟩, List.mem_append_left _ (List.mem_map_of_mem hPart), hBoth⟩
  | cons run earlier ih =>
    rw [List.cons_append] at h hUses hLess
    obtain ⟨parts, others, hParts, hOthers, rfl⟩ := subGroupsFrom_cons_iff.mp h
    rw [List.flatten_cons] at hUses hLess
    obtain ⟨-, hRest, hBehind⟩ := List.pairwise_append.mp hLess
    obtain ⟨hFlat, -⟩ := splitRun_parts (fun w hw => hUses w (List.mem_append_left _ hw)) hParts
    have hElsewhere : ∀ part ∈ parts, u ∉ part := by
      intro part hPart hu
      have hMem : u ∈ run := hFlat ▸ List.mem_flatten.mpr ⟨part, hPart, hu⟩
      exact lt_irrefl u (hBehind u hMem u (by simp))
    rw [← ih (fun w hw => hUses w (List.mem_append_right _ hw)) hRest hOthers]
    constructor
    · rintro ⟨g, hg, hu, hv⟩
      rcases List.mem_append.mp hg with hg | hg
      · obtain ⟨part, hPart, rfl⟩ := List.mem_map.mp hg
        exact absurd hu (hElsewhere part hPart)
      · exact ⟨g, hg, hu, hv⟩
    · rintro ⟨g, hg, hBoth⟩
      exact ⟨g, List.mem_append_right _ hg, hBoth⟩

/-! ## Runs -/

/-- The tokens in front of a list only add runs in front and imports to the first run. -/
theorem importRunsFrom_append (before rest : List Token) (i : Nat) {run : List Int}
    {runs : List (List Int)} (h : importRunsFrom (i + before.length) rest = run :: runs) :
    ∃ earlier front, importRunsFrom i (before ++ rest) = earlier ++ (front ++ run) :: runs := by
  induction before generalizing i with
  | nil => exact ⟨[], [], h⟩
  | cons t before ih =>
    obtain ⟨earlier, front, hLater⟩ := ih (i + 1) (by rw [← h, List.length_cons]; congr 1; omega)
    rw [List.cons_append, importRunsFrom, hLater]
    cases hName : t.kind == .namespaceWord with
    | true => exact ⟨[] :: earlier, front, rfl⟩
    | false =>
      cases hUse : t.kind == .useWord with
      | false => exact ⟨earlier, front, rfl⟩
      | true =>
        cases earlier with
        | nil => exact ⟨[], i :: front, rfl⟩
        | cons first earlier => exact ⟨(i :: first) :: earlier, front, rfl⟩

/-- Two imports with neither an import nor a namespace declaration between them stand in a run one
behind the other. -/
theorem importRuns_consecutive {before middle rest : List Token} {word next : Token}
    (hWord : word.kind = .useWord) (hNext : next.kind = .useWord)
    (hMiddle : ∀ t ∈ middle, t.kind ≠ .useWord ∧ t.kind ≠ .namespaceWord) :
    ∃ earlier front back later, importRuns (before ++ word :: (middle ++ next :: rest)) =
      earlier ++ (front ++ (before.length : Int) ::
        ((before ++ word :: middle).length : Int) :: back) :: later := by
  have hNone : middle.countP (·.kind == .namespaceWord) = 0 := by
    rw [List.countP_eq_zero]
    exact fun t ht => by simpa using (hMiddle t ht).2
  obtain ⟨run, runs, hRuns, hUse⟩ :=
    importRunsFrom_use hWord (0 + before.length) (middle ++ next :: rest)
  obtain ⟨back, later, -, hSecond⟩ :=
    importRunsFrom_use hNext (0 + before.length + 1 + middle.length) rest
  rw [importRunsFrom_gap (fun t ht => (hMiddle t ht).1), hNone, List.replicate_zero,
    List.nil_append, hSecond] at hRuns
  obtain ⟨rfl, rfl⟩ := List.cons.inj hRuns
  obtain ⟨earlier, front, hBefore⟩ := importRunsFrom_append before _ 0 hUse
  refine ⟨earlier, front, back, later, ?_⟩
  have hPos : 0 + before.length + 1 + middle.length = (before ++ word :: middle).length := by
    simp only [List.length_append, List.length_cons]
    omega
  rw [importRuns, hBefore, hPos, Nat.zero_add]

/-- The imports of a run have as many namespace declarations in front of them as their run has runs
in front of it. -/
theorem namespaces_of_mem_run {ts : List Token} {i k : Nat} {run : List Int} {u : Int}
    (h : (importRunsFrom i ts)[k]? = some run) (hu : u ∈ run) :
    ∃ n : Nat, u = (i + n : Nat) ∧ namespaces (ts.take n) = k := by
  induction ts generalizing i k run with
  | nil =>
    cases k with
    | zero =>
      obtain rfl : [] = run := by simpa [importRunsFrom] using h
      simp at hu
    | succ k => simp [importRunsFrom] at h
  | cons t ts ih =>
    -- what holds behind the first token, with the token itself counted
    have hShift {m : Nat} {run : List Int} (hLater : (importRunsFrom (i + 1) ts)[m]? = some run)
        (hMem : u ∈ run) : ∃ n : Nat, u = (i + n : Nat) ∧
          namespaces ((t :: ts).take n) = m + namespaces [t] := by
      obtain ⟨n, hn, hCount⟩ := ih hLater hMem
      refine ⟨n + 1, by omega, ?_⟩
      rw [List.take_succ_cons, ← hCount, namespaces, namespaces, namespaces, List.countP_cons,
        List.countP_singleton]
    cases hName : t.kind == .namespaceWord with
    | true =>
      have hOne : namespaces [t] = 1 := by simp [namespaces, hName]
      simp only [importRunsFrom, hName, if_true] at h
      -- the declaration puts a run without imports in front of those that follow
      cases k with
      | zero =>
        obtain rfl : [] = run := by simpa using h
        simp at hu
      | succ k => exact hOne ▸ hShift h hu
    | false =>
      have hZero : namespaces [t] = 0 := by simp [namespaces, hName]
      rw [hZero] at hShift
      by_cases hUse : t.kind = .useWord
      · obtain ⟨first, runs, hRuns, hCons⟩ := importRunsFrom_use hUse i ts
        rw [hCons] at h
        cases k with
        | zero =>
          obtain rfl : (i : Int) :: first = run := by simpa using h
          rcases List.mem_cons.mp hu with rfl | hu
          · exact ⟨0, rfl, rfl⟩
          · exact hShift (by rw [hRuns]; rfl) hu
        | succ k => exact hShift (by rw [hRuns]; exact h) hu
      · simp only [importRunsFrom, hName, Bool.false_eq_true, if_false, beq_eq_false_iff_ne.mpr hUse]
          at h
        exact hShift h hu

/-- A sub-group holds imports of the run that it names. -/
theorem run_of_mem_subGroupsFrom {source : Text} {n : Nat} {runs : List (List Int)}
    {groups : List SubGroup} (hUses : ∀ u ∈ runs.flatten, UseAt (classify (lex source)) u)
    (h : subGroupsFrom (classify (lex source)) n runs = .ok groups) {g : SubGroup} (hg : g ∈ groups) :
    ∃ k run, runs[k]? = some run ∧ g.run = n + k ∧ ∀ u ∈ g.uses, u ∈ run := by
  induction runs generalizing n groups with
  | nil =>
    obtain rfl : [] = groups := Except.ok.inj h
    simp at hg
  | cons run runs ih =>
    obtain ⟨parts, later, hSplit, hLater, rfl⟩ := subGroupsFrom_cons_iff.mp h
    rcases List.mem_append.mp hg with hg | hg
    · obtain ⟨part, hPart, rfl⟩ := List.mem_map.mp hg
      obtain ⟨hFlat, -⟩ := splitRun_parts (fun u hu => hUses u (by simp [hu])) hSplit
      exact ⟨0, run, rfl, rfl, fun u hu => hFlat ▸ List.mem_flatten.mpr ⟨part, hPart, hu⟩⟩
    · obtain ⟨k, found, hFound, hRun, hMem⟩ :=
        ih (fun u hu => hUses u (List.mem_append.mpr (.inr hu))) hLater hg
      exact ⟨k + 1, found, hFound, by omega, hMem⟩

/-! ## Source texts -/

/-- Behind every import of a text that ends with a terminator there is one. -/
theorem ended_of_getLast? {ts : List Token} (h : ts.getLast?.any Token.isTerminator = true)
    (u : Int) : ¬ UnendedAt ts u := by
  rintro ⟨before, word, after, rfl, -, hWord, hAfter⟩
  rw [List.getLast?_append_cons, List.getLast?_cons] at h
  cases hLast : after.getLast? with
  | none => simp [hLast, Token.isTerminator, Token.isPunct, hWord] at h
  | some t => simp [hLast, hAfter t (List.mem_of_getLast? hLast)] at h

/-- In a text whose imports all have terminators the sub-groups can be told. Together they hold
every import once and in order; none is empty, and each belongs to the run that its imports stand
in. Of one run, two imports with no other between them are in the same sub-group exactly if the
second adjoins the first. -/
theorem subGroups_adjoining (source : Text)
    (hEnded : ∀ u, ¬ UnendedAt (classify (lex source)) u) :
    ∃ groups, subGroups (classify (lex source)) = .ok groups ∧
      (groups.flatMap SubGroup.uses).Pairwise (· < ·) ∧
      (∀ u, u ∈ groups.flatMap SubGroup.uses ↔ UseAt (classify (lex source)) u) ∧
      (∀ g ∈ groups, g.uses ≠ [] ∧
        ∀ u ∈ g.uses, g.run = namespaces ((classify (lex source)).take u.toNat)) ∧
      ∀ before word middle next rest,
        classify (lex source) = before ++ word :: (middle ++ next :: rest) →
        word.kind = .useWord → next.kind = .useWord →
        (∀ t ∈ middle, t.kind ≠ .useWord ∧ t.kind ≠ .namespaceWord) →
        ((∃ g ∈ groups, (before.length : Int) ∈ g.uses ∧
            ((before ++ word :: middle).length : Int) ∈ g.uses) ↔ Adjoins middle) := by
  obtain ⟨hLess, hUses⟩ := importRuns_uses (classify (lex source))
  rcases subGroupsFrom_halts 0 hUses with ⟨groups, hGroups⟩ | ⟨u, hu, -⟩
  · obtain ⟨hFlat, hParts⟩ := subGroupsFrom_uses hUses hGroups
    refine ⟨groups, hGroups, hFlat ▸ hLess, fun u => ?_, fun g hg => ⟨(hParts g hg).1, ?_⟩, ?_⟩
    · rw [hFlat]
      refine ⟨hUses u, ?_⟩
      rintro ⟨n, rfl, word, hToken, hWord⟩
      simpa [importRuns] using mem_importRunsFrom 0 hToken hWord
    · intro u hu
      obtain ⟨k, run, hRun, hNumber, hMem⟩ := run_of_mem_subGroupsFrom hUses hGroups hg
      obtain ⟨n, rfl, hCount⟩ := namespaces_of_mem_run hRun (hMem u hu)
      rw [hNumber, ← hCount]
      simp
    · intro before word middle next rest hSplit hWord hNext hMiddle
      obtain ⟨earlier, front, back, later, hRuns⟩ :=
        @importRuns_consecutive before middle rest word next hWord hNext hMiddle
      rw [← hSplit] at hRuns
      change subGroupsFrom _ 0 (importRuns _) = .ok groups at hGroups
      rw [hRuns] at hGroups
      rw [hRuns] at hUses hLess
      rw [subGroupsFrom_together hUses hLess hGroups]
      exact follows_iff_adjoins hSplit hWord hNext
  · exact absurd hu (hEnded u)

/-- An import that a close tag ends, with the next one behind markup, and one behind other code. -/
theorem subGroups_adjoining_of_markup :
    let ts := classify (lex "<?php use A ?>b<?php\n/* c */ use B; f(); use C;".toList)
    (∀ u, ¬ UnendedAt ts u) ∧ ∃ groups, subGroups ts = .ok groups ∧
      (∃ g ∈ groups, 1 ∈ g.uses ∧ 10 ∈ g.uses) ∧ ¬ ∃ g ∈ groups, 10 ∈ g.uses ∧ 20 ∈ g.uses := by
  intro ts
  have hEnded := ended_of_getLast? (show ts.getLast?.any Token.isTerminator = true by decide +kernel)
  obtain ⟨groups, hGroups, -, -, -, hTogether⟩ := subGroups_adjoining _ hEnded
  have hFirst := hTogether (ts.take 1) ⟨.useWord, "use".toList⟩ _ ⟨.useWord, "use".toList⟩
    (ts.drop 11) (show ts = ts.take 1 ++ _ :: (((ts.drop 2).take 3 ++ ⟨.closeTag, "?>".toList⟩ ::
      ([⟨.inlineHtml, "b".toList⟩] ++ ⟨.openTag, "<?php\n".toList⟩ :: (ts.drop 8).take 2)) ++
        _ :: ts.drop 11) by decide +kernel) rfl rfl (by decide +kernel)
  have hSecond := hTogether (ts.take 10) ⟨.useWord, "use".toList⟩ _ ⟨.useWord, "use".toList⟩
    (ts.drop 21) (show ts = ts.take 10 ++ _ :: (((ts.drop 11).take 2 ++ ⟨.punct, ";".toList⟩ ::
      (ts.drop 14).take 6) ++ _ :: ts.drop 21) by decide +kernel) rfl rfl (by decide +kernel)
  have hLength : ts.length = 24 := by decide +kernel
  rw [adjoins_append (by decide +kernel) rfl] at hFirst hSecond
  simp only [List.length_append, List.length_cons, List.length_take, List.length_drop, hLength,
    List.length_nil] at hFirst hSecond
  refine ⟨hEnded, groups, hGroups,
    hFirst.mpr (.reopened rfl (.inr ⟨_, rfl, rfl⟩) rfl (by decide +kernel)), fun hBoth => ?_⟩
  have hQuiet := (hSecond.mp hBoth).quiet_of_ne (by decide)
  exact absurd hQuiet (by decide +kernel)

end UseOrder
