import UseOrder.Proofs.Rewrite
import UseOrder.Proofs.Runs

/-!
# Blocks

A block is the list of cells of one sub-group. Inside a block the statements follow each other
directly; between two blocks something stands in the way, or a namespace declaration. So the
sub-groups of the tokens of blocks are the blocks (`subGroups_blocks`), and ordering all sub-groups
reorders every block for itself (`orderSubGroups_blocks`).
-/

namespace UseOrder

/-! ## Blocks -/

/-- A token that neither ends a statement nor begins something new. -/
def Token.isBody (t : Token) : Bool :=
  !t.isTerminator && t.kind != .useWord && t.kind != .namespaceWord && t.kind != .openTag

theorem Token.isBody_of_isInner {t : Token} (h : t.isInner = true) : t.isBody = true := by
  simp only [Token.isInner, Bool.and_eq_true] at h
  simp [Token.isBody, h]

theorem AllSpace.isBody {ts : List Token} (h : AllSpace ts) : ∀ t ∈ ts, t.isBody = true := by
  intro t ht
  have hSpace := h t ht
  simp only [Token.isWhitespace, beq_iff_eq] at hSpace
  simp [Token.isBody, Token.isTerminator, Token.isPunct, hSpace]

theorem IsQualifierOf.isBody {kind : ImportKind} {ts : List Token} (h : IsQualifierOf kind ts) :
    ∀ t ∈ ts, t.isBody = true := by
  unfold IsQualifierOf at h
  cases kind with
  | classKind =>
    simp only [ImportKind.qualifierKind?] at h
    simp [h]
  | constKind | functionKind =>
    obtain ⟨q, space, rfl, hq, hSpace⟩ := h
    intro t ht
    rcases List.mem_cons.mp ht with rfl | ht
    · simp [Token.isBody, Token.isTerminator, Token.isPunct, hq]
    · exact hSpace.isBody t ht

/-- The tokens of a statement between its `use` and its terminator. -/
def Cell.statementBody (c : Cell) (commas : List Cell) : List Token :=
  match c.lead with
  | .start _ _ space =>
    space ++ (c.qualifier ++ c.core ++ (c.after ++ commas.flatMap Cell.tokens))
  | .comma _ => []

theorem Cell.tokens_statement {c : Cell} {gap space : List Token} {word : Token}
    (hLead : c.lead = .start gap word space) (commas : List Cell) :
    (c :: commas).flatMap Cell.tokens = gap ++ word :: c.statementBody commas := by
  simp [Cell.tokens, Cell.statementBody, hLead, Lead.tokens]

theorem CommaCell.isBody {c : Cell} (h : CommaCell c) : ∀ t ∈ c.tokens, t.isBody = true := by
  obtain ⟨space, hSpace, -, hTokens⟩ := h.tokens_eq
  intro t ht
  rw [hTokens] at ht
  simp only [List.mem_cons, List.mem_append] at ht
  rcases ht with rfl | (ht | ht) | ht
  · decide
  · exact hSpace.isBody t ht
  · exact Token.isBody_of_isInner (h.ok.core.inner t ht)
  · exact h.ok.after.isBody t ht

theorem CellsOk.isBody {c : Cell} {commas : List Cell} (h : CellsOk (c :: commas))
    (hCommas : ∀ d ∈ commas, d.isStart = false) :
    ∀ t ∈ c.statementBody commas, t.isBody = true := by
  have hc := h.each c List.mem_cons_self
  have hOk := hc.lead
  intro t ht
  unfold Cell.statementBody at ht
  cases hLead : c.lead with
  | comma space => simp [hLead] at ht
  | start gap word space =>
    rw [hLead] at ht hOk
    simp only [List.mem_append, List.mem_flatMap, or_assoc] at ht
    rcases ht with ht | ht | ht | ht | ⟨d, hd, ht⟩
    · exact hOk.2.2.1.isBody t ht
    · exact hOk.2.2.2.isBody t ht
    · exact Token.isBody_of_isInner (hc.core.inner t ht)
    · exact hc.after.isBody t ht
    · exact ((h.commas hCommas).1 d hd).1.isBody t ht

/-- What stands in front of the statement that a cell starts. -/
def Cell.gap? (c : Cell) : Option (List Token) :=
  match c.lead with
  | .start gap _ _ => some gap
  | .comma _ => none

/-- The cells of one sub-group: they begin with a statement, and the others follow it directly. -/
def BlockOk (block : List Cell) : Prop :=
  ∃ c cs, block = c :: cs ∧ c.isStart = true ∧ ∀ d ∈ cs, ∀ gap ∈ d.gap?, joins gap = true

/-- The cells of all sub-groups. -/
structure BlocksOk (blocks : List (List Cell)) : Prop where
  cells : CellsOk blocks.flatten
  each : ∀ b ∈ blocks, BlockOk b
  /-- No block goes on in the next one. -/
  parted : ∀ b ∈ blocks.tail, ∀ c ∈ b.head?, ∀ gap ∈ c.gap?, joins gap = false

/-- The number of namespace declarations. -/
def namespaces (ts : List Token) : Nat :=
  ts.countP (·.kind == .namespaceWord)

/-- The sub-groups that blocks make, from `offset` on and after `run` namespace declarations. -/
def blockGroups (offset run : Nat) : List (List Cell) → List SubGroup
  | [] => []
  | b :: bs =>
    let run := run + namespaces (b.flatMap Cell.tokens)
    ⟨run, Cell.uses offset b⟩ :: blockGroups (offset + (b.flatMap Cell.tokens).length) run bs

/-- What comes behind a block: no import, or one that does not follow it directly. -/
def Apart (later : List Token) : Prop :=
  (∀ t ∈ later, t.kind ≠ .useWord) ∨
    ∃ gap word rest, later = gap ++ word :: rest ∧ (∀ t ∈ gap, t.kind ≠ .useWord) ∧
      word.kind = .useWord ∧ EndsStatement gap ∧ joins gap = false

theorem Token.isBody_iff {t : Token} : t.isBody = true ↔
    t.isTerminator = false ∧ t.kind ≠ .useWord ∧ t.kind ≠ .namespaceWord ∧ t.kind ≠ .openTag := by
  simp [Token.isBody, and_assoc]

theorem namespaces_body {body : List Token} (h : ∀ t ∈ body, t.isBody = true) :
    namespaces body = 0 := by
  rw [namespaces, List.countP_eq_zero]
  intro t ht
  simpa using (Token.isBody_iff.mp (h t ht)).2.2.1

theorem namespaces_of_joins {gap : List Token} (h : joins gap = true) : namespaces gap = 0 := by
  simp only [joins, Bool.and_eq_true, List.all_eq_true] at h
  rw [namespaces, List.countP_eq_zero]
  intro t ht
  simpa using h.2 t ht

/-- Without imports every run is empty. -/
theorem run_eq_nil_of_no_use {ts : List Token} (hNone : ∀ t ∈ ts, t.kind ≠ .useWord) {i : Nat}
    {run : List Int} (h : run ∈ importRunsFrom i ts) : run = [] := by
  have hEmpty := importRunsFrom_gap hNone i []
  rw [List.append_nil, importRunsFrom] at hEmpty
  rw [hEmpty] at h
  rcases List.mem_append.mp h with hRun | hRun
  · exact (List.mem_replicate.mp hRun).2
  · exact List.mem_singleton.mp hRun

/-- No statement of the same run follows directly what is set apart. -/
theorem Apart.not_follows {before body later : List Token} {word : Token} {run : List Int}
    {runs : List (List Int)} (h : Apart later) (hBody : ∀ t ∈ body, t.isBody = true)
    (hRuns : importRunsFrom (before ++ word :: body).length later = run :: runs) :
    ∀ v ∈ run.head?, follows (before ++ word :: (body ++ later)) (before.length : Nat) v =
      .ok false := by
  intro v hv
  rcases h with hNone | ⟨gap, next, rest, rfl, hGap, hNext, hEnd, hJoins⟩
  · have hMem : run ∈ importRunsFrom (before ++ word :: body).length later := by
      rw [hRuns]
      exact List.mem_cons_self
    simp [run_eq_nil_of_no_use hNone hMem] at hv
  · rw [importRunsFrom_gap hGap] at hRuns
    by_cases hCount : gap.countP (·.kind == .namespaceWord) = 0
    · obtain ⟨later, laters, -, hUse⟩ :=
        importRunsFrom_use hNext ((before ++ word :: body).length + gap.length) rest
      rw [hCount, List.replicate_zero, List.nil_append, hUse] at hRuns
      obtain ⟨rfl, -⟩ := List.cons.inj hRuns
      have hReach : reaches gap = false := by
        have hAll : gap.all (·.kind != .namespaceWord) = true := by
          rw [List.countP_eq_zero] at hCount
          simpa using hCount
        rwa [joins, hAll, Bool.and_true] at hJoins
      have hPos : v = ((before ++ word :: (body ++ gap)).length : Nat) := by
        simp only [List.head?_cons, Option.mem_some_iff] at hv
        rw [← hv]
        simp only [List.length_append, List.length_cons]
        congr 1
        omega
      rw [hPos, ← hReach]
      exact follows_gap (fun t ht => ⟨(Token.isBody_iff.mp (hBody t ht)).1,
        (Token.isBody_iff.mp (hBody t ht)).2.2.2⟩) hEnd (isMeaningful_of_use hNext)
    · -- a namespace declaration opens an empty run first
      obtain ⟨k, hk⟩ := Nat.exists_eq_succ_of_ne_zero hCount
      rw [hk, List.replicate_succ, List.cons_append] at hRuns
      obtain ⟨rfl, -⟩ := List.cons.inj hRuns
      simp at hv

/-- A statement opens the runs that are declared in front of it, and joins the one that goes on behind
it. -/
theorem importRunsFrom_statement {before gap body later : List Token} {word : Token}
    (hGap : ∀ t ∈ gap, t.kind ≠ .useWord) (hWord : word.kind = .useWord)
    (hBody : ∀ t ∈ body, t.isBody = true) :
    ∃ run runs, importRunsFrom (before ++ gap ++ word :: body).length later = run :: runs ∧
      importRunsFrom before.length (gap ++ word :: (body ++ later)) =
        List.replicate (namespaces gap) [] ++ (((before ++ gap).length : Int) :: run) :: runs := by
  obtain ⟨run, runs, hInner, hUse⟩ := importRunsFrom_use hWord (before ++ gap).length (body ++ later)
  have hHere : (before ++ gap).length + 1 + body.length =
      (before ++ gap ++ word :: body).length := by
    simp only [List.length_append, List.length_cons]
    omega
  rw [importRunsFrom_gap fun t ht => (Token.isBody_iff.mp (hBody t ht)).2.1, ← namespaces,
    namespaces_body hBody, List.replicate_zero, List.nil_append, hHere] at hInner
  refine ⟨run, runs, hInner, ?_⟩
  rw [importRunsFrom_gap hGap, ← List.length_append, hUse, namespaces]

/-- A statement that what comes behind it is set apart from is a sub-group of its own. -/
theorem subGroupsFrom_apart {before gap body later : List Token} {word : Token} {run : Nat}
    {groups : List SubGroup} (hGap : ∀ t ∈ gap, t.kind ≠ .useWord) (hWord : word.kind = .useWord)
    (hBody : ∀ t ∈ body, t.isBody = true) (hApart : Apart later)
    (hLater : subGroupsFrom (before ++ gap ++ word :: (body ++ later)) (run + namespaces gap)
      (importRunsFrom (before ++ gap ++ word :: body).length later) = .ok groups) :
    subGroupsFrom (before ++ gap ++ word :: (body ++ later)) run
        (importRunsFrom before.length (gap ++ word :: (body ++ later))) =
      .ok (⟨run + namespaces gap, [((before ++ gap).length : Int)]⟩ :: groups) := by
  obtain ⟨inner, runs, hInner, hRuns⟩ := @importRunsFrom_statement before _ _ later _ hGap hWord hBody
  rw [hInner] at hLater
  rw [hRuns, subGroupsFrom_replicate]
  exact subGroupsFrom_alone hLater (hApart.not_follows hBody hInner)

/-- A statement that the next one follows directly joins its sub-group. -/
theorem subGroupsFrom_joined {before gap body next rest : List Token} {word nextWord : Token}
    {run k : Nat} {us : List Int} {groups : List SubGroup} (hGap : ∀ t ∈ gap, t.kind ≠ .useWord)
    (hWord : word.kind = .useWord) (hBody : ∀ t ∈ body, t.isBody = true)
    (hNext : ∀ t ∈ next, t.kind ≠ .useWord) (hNextWord : nextWord.kind = .useWord)
    (hEnds : EndsStatement next) (hJoins : joins next = true)
    (hLater : subGroupsFrom (before ++ gap ++ word :: (body ++ (next ++ nextWord :: rest)))
      (run + namespaces gap)
      (importRunsFrom (before ++ gap ++ word :: body).length (next ++ nextWord :: rest)) =
        .ok (⟨k, us⟩ :: groups)) :
    subGroupsFrom (before ++ gap ++ word :: (body ++ (next ++ nextWord :: rest))) run
        (importRunsFrom before.length (gap ++ word :: (body ++ (next ++ nextWord :: rest)))) =
      .ok (⟨k, ((before ++ gap).length : Int) :: us⟩ :: groups) := by
  obtain ⟨inner, runs, hInner, hRuns⟩ :=
    @importRunsFrom_statement before gap body (next ++ nextWord :: rest) word hGap hWord hBody
  rw [hInner] at hLater
  -- the next statement heads the run that this one joins
  obtain ⟨more, others, -, hMore⟩ := importRunsFrom_use hNextWord
    ((before ++ gap ++ word :: body).length + next.length) rest
  rw [importRunsFrom_gap hNext, ← namespaces, namespaces_of_joins hJoins, List.replicate_zero,
    List.nil_append, hMore] at hInner
  obtain ⟨rfl, rfl⟩ := List.cons.inj hInner
  have hFar : (before ++ gap ++ word :: body).length + next.length =
      (before ++ gap ++ word :: (body ++ next)).length := by
    simp only [List.length_append, List.length_cons]
    omega
  rw [hFar] at hLater hRuns
  rw [hRuns, subGroupsFrom_replicate]
  refine subGroupsFrom_join hLater ?_
  rw [follows_gap (fun t ht => ⟨(Token.isBody_iff.mp (hBody t ht)).1,
    (Token.isBody_iff.mp (hBody t ht)).2.2.2⟩) hEnds (isMeaningful_of_use hNextWord)]
  rw [joins, Bool.and_eq_true] at hJoins
  rw [hJoins.1]

/-- The cells of a block make one sub-group. -/
theorem subGroupsFrom_block {cells : List Cell} (hStart : cells.head?.all Cell.isStart = true)
    (hNe : cells ≠ []) (hCells : CellsOk cells)
    (hJoined : ∀ d ∈ cells.tail, ∀ gap ∈ d.gap?, joins gap = true) {later : List Token}
    (hApart : Apart later) {before : List Token} {run : Nat} {groups : List SubGroup}
    (hLater : subGroupsFrom (before ++ cells.flatMap Cell.tokens ++ later)
      (run + namespaces (cells.flatMap Cell.tokens))
      (importRunsFrom (before ++ cells.flatMap Cell.tokens).length later) = .ok groups) :
    subGroupsFrom (before ++ cells.flatMap Cell.tokens ++ later) run
        (importRunsFrom before.length (cells.flatMap Cell.tokens ++ later)) =
      .ok (⟨run + namespaces (cells.flatMap Cell.tokens), Cell.uses before.length cells⟩ ::
        groups) := by
  -- statement by statement: each one joins the sub-group of the next, and the last one is apart
  induction cells, hStart using Cell.statement_induction generalizing before run with
  | nil => exact absurd rfl hNe
  | statement c commas rest hc hCommas hRest ih =>
    obtain ⟨gap, word, space, hLead⟩ := Cell.lead_of_isStart hc
    have hFirst : CellsOk (c :: commas) := hCells.append_left
    have hOk := (hFirst.each c List.mem_cons_self).lead
    rw [hLead] at hOk
    obtain ⟨hGap, hWord, -, -⟩ := hOk
    have hBody := hFirst.isBody hCommas
    have hTokens : (c :: (commas ++ rest)).flatMap Cell.tokens =
        gap ++ word :: (c.statementBody commas ++ rest.flatMap Cell.tokens) := by
      rw [← List.cons_append, List.flatMap_append, Cell.tokens_statement hLead commas]
      simp
    have hSpaces : namespaces ((c :: (commas ++ rest)).flatMap Cell.tokens) =
        namespaces gap + namespaces (rest.flatMap Cell.tokens) := by
      have hPlain : (word.kind == .namespaceWord) = false := by simp [hWord]
      have hNone := namespaces_body hBody
      simp only [namespaces] at hNone ⊢
      simp [hTokens, List.countP_append, hPlain, hNone]
    rw [hSpaces, Cell.uses_statement hLead hCommas before.length rest]
    rw [hSpaces] at hLater
    simp only [hTokens] at hLater ⊢
    cases rest with
    | nil =>
      have hAlone := @subGroupsFrom_apart before gap (c.statementBody commas) later word run groups
        hGap hWord hBody hApart (by simpa [namespaces] using hLater)
      simpa [Cell.uses, namespaces] using hAlone
    | cons d ds =>
      obtain ⟨next, nextWord, nextSpace, hNext⟩ :=
        Cell.lead_of_isStart (show d.isStart = true by simpa using hRest)
      have hdOk := (hCells.each d (by simp)).lead
      rw [hNext] at hdOk
      have hEnds : EndsStatement next :=
        @CellsOk.endsStatement (c :: commas) ds d hCells (by simp) _ _ _ hNext
      have hGroup := @ih (by simp) (@CellsOk.append_right (c :: commas) _ hCells)
        (fun e he => hJoined e (by simp [List.mem_of_mem_tail he]))
        (before ++ gap ++ word :: c.statementBody commas) (run + namespaces gap)
        (by simpa [Nat.add_assoc] using hLater)
      rw [Cell.tokens_statement hNext] at hGroup ⊢
      have hOffset : before.length + ((c :: commas).flatMap Cell.tokens).length =
          (before ++ gap ++ word :: c.statementBody commas).length := by
        rw [Cell.tokens_statement hLead]
        simp
      rw [hOffset]
      have hJoin := @subGroupsFrom_joined before gap (c.statementBody commas) next
        (d.statementBody ds ++ later) word nextWord run _ _ groups hGap hWord hBody hdOk.1 hdOk.2.1
        hEnds (hJoined d (by simp) next (by simp [Cell.gap?, hNext])) (by simpa using hGroup)
      simpa [Nat.add_assoc] using hJoin

/-- The rest of the blocks is set apart. -/
theorem BlocksOk.apart {block : List Cell} {blocks : List (List Cell)} {tail : List Token}
    (h : BlocksOk (block :: blocks)) (hTail : ∀ t ∈ tail, t.kind ≠ .useWord) :
    Apart (blocks.flatten.flatMap Cell.tokens ++ tail) := by
  cases blocks with
  | nil => exact .inl (by simpa using hTail)
  | cons next blocks =>
    obtain ⟨d, ds, rfl, hd, -⟩ := h.each next (by simp)
    obtain ⟨c, cs, rfl, -, -⟩ := h.each block (by simp)
    obtain ⟨gap, word, space, hLead⟩ := Cell.lead_of_isStart hd
    have hdOk := (h.cells.each d (by simp)).lead
    rw [hLead] at hdOk
    have hCells := h.cells
    have hFlat : ((c :: cs) :: (d :: ds) :: blocks).flatten = (c :: cs) ++ d :: (ds ++ blocks.flatten) := by
      simp
    rw [hFlat] at hCells
    refine .inr ⟨gap, word, d.statementBody (ds ++ blocks.flatten) ++ tail, ?_, hdOk.1, hdOk.2.1,
      hCells.endsStatement (by simp) hLead, ?_⟩
    · have hTokens := Cell.tokens_statement hLead (ds ++ blocks.flatten)
      simp only [List.flatten_cons, List.cons_append, hTokens]
      simp
    · exact h.parted (d :: ds) (by simp) d (by simp) gap (by simp [Cell.gap?, hLead])

theorem BlocksOk.nil : BlocksOk [] :=
  ⟨⟨by simp, by simp⟩, by simp, by simp⟩

theorem BlocksOk.of_cons {block : List Cell} {blocks : List (List Cell)}
    (h : BlocksOk (block :: blocks)) : BlocksOk blocks :=
  ⟨h.cells.append_right, fun b hb => h.each b (List.mem_cons_of_mem _ hb),
    fun b hb => h.parted b (List.mem_of_mem_tail hb)⟩

theorem subGroupsFrom_blocks {blocks : List (List Cell)} (h : BlocksOk blocks) {tail : List Token}
    (hTail : ∀ t ∈ tail, t.kind ≠ .useWord) (before : List Token) (run : Nat) :
    subGroupsFrom (before ++ blocks.flatten.flatMap Cell.tokens ++ tail) run
        (importRunsFrom before.length (blocks.flatten.flatMap Cell.tokens ++ tail)) =
      .ok (blockGroups before.length run blocks) := by
  induction blocks generalizing before run with
  | nil =>
    -- only empty runs are left
    have hRuns := importRunsFrom_gap hTail before.length []
    rw [List.append_nil] at hRuns
    rw [List.flatten_nil, List.flatMap_nil, List.nil_append, hRuns, subGroupsFrom_replicate]
    rfl
  | cons block blocks ih =>
    obtain ⟨c, cs, rfl, hc, hJoined⟩ := h.each block List.mem_cons_self
    have hLater := ih h.of_cons (before ++ (c :: cs).flatMap Cell.tokens)
      (run + namespaces ((c :: cs).flatMap Cell.tokens))
    have hTokens : ((c :: cs) :: blocks).flatten.flatMap Cell.tokens =
        (c :: cs).flatMap Cell.tokens ++ blocks.flatten.flatMap Cell.tokens := by simp
    rw [List.append_assoc] at hLater
    have hBlock := subGroupsFrom_block (by simpa using hc) (by simp) h.cells.append_left hJoined
      (h.apart hTail) hLater
    rw [hTokens, blockGroups]
    simp only [List.append_assoc, List.length_append] at hBlock ⊢
    exact hBlock

/-- The sub-groups of the tokens of blocks are the blocks. -/
theorem subGroups_blocks {blocks : List (List Cell)} (h : BlocksOk blocks) {tail : List Token}
    (hTail : ∀ t ∈ tail, t.kind ≠ .useWord) :
    subGroups (blocks.flatten.flatMap Cell.tokens ++ tail) = .ok (blockGroups 0 0 blocks) :=
  subGroupsFrom_blocks h hTail [] 0

/-! ## Ordering all blocks -/

/-- A gap of a rewritten cell was there before, or joins the statements on both sides. -/
theorem Cell.gap?_place {layout : Layout} {current : Option OpenStatement} {c : Cell} {r : Record}
    {gap : List Token} (h : gap ∈ (c.place layout current r).gap?) :
    gap ∈ c.gap? ∨ joins gap = true := by
  unfold Cell.gap? at h ⊢
  cases hLead : c.lead with
  | start old word space =>
    rw [Cell.place_lead_of_start hLead] at h
    exact .inl h
  | comma space =>
    rw [Cell.place_lead_of_comma hLead] at h
    cases hAccepts : current.any (·.accepts r) with
    | true => simp [hAccepts] at h
    | false =>
      rw [hAccepts] at h
      simp only [Bool.false_eq_true, if_false, Option.mem_some_iff] at h
      exact .inr (by rw [← h]; rfl)

theorem Cell.gap?_placeAll {layout : Layout} {pairs : List (Cell × Record)}
    {current : Option OpenStatement}
    (hPairs : ∀ d ∈ pairs.map Prod.fst, ∀ gap ∈ d.gap?, joins gap = true) :
    ∀ d ∈ Cell.placeAll layout current pairs, ∀ gap ∈ d.gap?, joins gap = true := by
  induction pairs generalizing current with
  | nil => simp [Cell.placeAll]
  | cons pair rest ih =>
    intro d hd gap hGap
    rcases List.mem_cons.mp hd with rfl | hd
    · rcases Cell.gap?_place hGap with hOld | hNew
      · exact hPairs pair.1 (by simp) gap hOld
      · exact hNew
    · exact ih (fun e he => hPairs e (by simp_all)) d hd gap hGap

/-- Reordered cells begin with the same lead, and their other gaps join. -/
theorem Cell.reorder_cons (settings : Settings) (offset : Nat) {c : Cell} {cs : List Cell}
    (hc : c.isStart = true) (hJoined : ∀ d ∈ cs, ∀ gap ∈ d.gap?, joins gap = true) :
    ∃ c' cs', Cell.reorder settings offset (c :: cs) = c' :: cs' ∧ c'.lead = c.lead ∧
      ∀ d ∈ cs', ∀ gap ∈ d.gap?, joins gap = true := by
  obtain ⟨gap, word, space, hLead⟩ := Cell.lead_of_isStart hc
  have hFst := Cell.map_fst_zip_order settings offset (c :: cs)
  unfold Cell.reorder
  cases hPairs : (c :: cs).zip (orderRecords settings (Cell.records settings offset (c :: cs))) with
  | nil => simp [hPairs] at hFst
  | cons pair rest =>
    rw [hPairs, List.map_cons, List.cons.injEq] at hFst
    obtain ⟨hPair, hRest⟩ := hFst
    refine ⟨_, _, rfl, ?_, ?_⟩
    · rw [hPair, Cell.place_lead_of_start hLead, hLead]
    · apply Cell.gap?_placeAll
      rwa [hRest]

/-- The blocks with their records in order. -/
def reorderBlocks (settings : Settings) (offset : Nat) : List (List Cell) → List (List Cell)
  | [] => []
  | b :: bs =>
    Cell.reorder settings offset b ::
      reorderBlocks settings (offset + (b.flatMap Cell.tokens).length) bs

theorem BlockOk.reorder {block : List Cell} (h : BlockOk block) (settings : Settings)
    (offset : Nat) : BlockOk (Cell.reorder settings offset block) := by
  obtain ⟨c, cs, rfl, hc, hJoined⟩ := h
  obtain ⟨c', cs', hReorder, hLead, hJoined'⟩ :=
    Cell.reorder_cons settings offset hc hJoined
  exact ⟨c', cs', hReorder, by simpa [Cell.isStart, hLead] using hc, hJoined'⟩

/-- The first of the blocks does not go on from what stands before it. -/
def SetApart (blocks : List (List Cell)) : Prop :=
  ∀ b ∈ blocks.head?, ∀ c ∈ b.head?, ∀ gap ∈ c.gap?, EndsStatement gap ∧ joins gap = false

theorem BlocksOk.setApart {block : List Cell} {blocks : List (List Cell)}
    (h : BlocksOk (block :: blocks)) : SetApart blocks := by
  intro b hb c hc gap hGap
  obtain ⟨first, firsts, rfl, -, -⟩ := h.each block List.mem_cons_self
  obtain ⟨rest, rfl⟩ : ∃ rest, blocks = b :: rest := List.head?_eq_some_iff.mp hb
  obtain ⟨cs, rfl⟩ : ∃ cs, b = c :: cs := List.head?_eq_some_iff.mp hc
  refine ⟨?_, h.parted (c :: cs) (by simp) c (by simp) gap hGap⟩
  have hCells := h.cells
  have hFlat : ((first :: firsts) :: (c :: cs) :: rest).flatten =
      (first :: firsts) ++ c :: (cs ++ rest.flatten) := by simp
  rw [hFlat] at hCells
  unfold Cell.gap? at hGap
  split at hGap
  · next old word space hLead =>
    obtain rfl : old = gap := by simpa using hGap
    exact hCells.endsStatement (by simp) hLead
  · simp at hGap

theorem BlocksOk.cons {block : List Cell} {blocks : List (List Cell)} (hCells : CellsOk block)
    (hBlock : BlockOk block) (hBlocks : BlocksOk blocks) (hApart : SetApart blocks) :
    BlocksOk (block :: blocks) := by
  refine ⟨⟨?_, ?_⟩, ?_, ?_⟩
  · intro c hc
    rcases List.mem_append.mp hc with hc | hc
    · exact hCells.each c hc
    · exact hBlocks.cells.each c hc
  · -- the first cell of the next block begins a statement, so its gap ends this block
    rw [List.flatten_cons, List.isChain_append]
    refine ⟨hCells.chain, hBlocks.cells.chain, ?_⟩
    intro c _ d hd
    cases blocks with
    | nil => simp at hd
    | cons b bs =>
      obtain ⟨e, es, rfl, he, -⟩ := hBlocks.each b List.mem_cons_self
      obtain ⟨gap, word, space, hLead⟩ := Cell.lead_of_isStart he
      obtain rfl : e = d := by simpa using hd
      have hGap := hApart (e :: es) (by simp) e (by simp) gap (by simp [Cell.gap?, hLead])
      unfold MayFollow
      rw [hLead]
      exact hGap.1
  · intro b hb
    rcases List.mem_cons.mp hb with rfl | hb
    · exact hBlock
    · exact hBlocks.each b hb
  · intro b hb c hc gap hGap
    cases blocks with
    | nil => simp at hb
    | cons first rest =>
      rcases List.mem_cons.mp hb with rfl | hb
      · exact (hApart b (by simp) c hc gap hGap).2
      · exact hBlocks.parted b hb c hc gap hGap

/-- The first block begins with the same gap after ordering. -/
theorem SetApart.reorder {blocks : List (List Cell)} (h : SetApart blocks)
    (hEach : ∀ b ∈ blocks, BlockOk b) (settings : Settings) (offset : Nat) :
    SetApart (reorderBlocks settings offset blocks) := by
  cases blocks with
  | nil => simp [SetApart, reorderBlocks]
  | cons block blocks =>
    obtain ⟨c, cs, rfl, hc, hJoined⟩ := hEach block List.mem_cons_self
    obtain ⟨c', cs', hReorder, hLead, -⟩ := Cell.reorder_cons settings offset hc hJoined
    intro b hb d hd gap hGap
    obtain rfl : c' :: cs' = b := by simpa [reorderBlocks, hReorder] using hb
    obtain rfl : c' = d := by simpa using hd
    refine h (c :: cs) (by simp) c (by simp) gap ?_
    simpa [Cell.gap?, hLead] using hGap

/-- Blocks in order are blocks again. -/
theorem BlocksOk.reorder {blocks : List (List Cell)} (h : BlocksOk blocks) (settings : Settings)
    (offset : Nat) : BlocksOk (reorderBlocks settings offset blocks) := by
  induction blocks generalizing offset with
  | nil => exact h
  | cons block blocks ih =>
    exact .cons (h.cells.append_left.reorder settings offset)
      ((h.each block List.mem_cons_self).reorder settings offset) (ih h.of_cons _)
      (h.setApart.reorder h.of_cons.each settings _)

theorem SetApart.terminated {blocks : List (List Cell)} (h : SetApart blocks)
    (hEach : ∀ b ∈ blocks, BlockOk b) {tail : List Token}
    (hTail : tail.head?.any Token.isTerminator = true) :
    (blocks.flatten.flatMap Cell.tokens ++ tail).head?.any Token.isTerminator = true := by
  cases blocks with
  | nil => exact hTail
  | cons block blocks =>
    obtain ⟨c, cs, rfl, hc, -⟩ := hEach block List.mem_cons_self
    obtain ⟨gap, word, space, hLead⟩ := Cell.lead_of_isStart hc
    obtain ⟨⟨stop, rest, rfl, hStop, -⟩, -⟩ :=
      h (c :: cs) (by simp) c (by simp) gap (by simp [Cell.gap?, hLead])
    simpa [Cell.tokens, hLead, Lead.tokens] using hStop

theorem orderSubGroups_append (settings : Settings) (p : Progress) (gs hs : List SubGroup) :
    orderSubGroups settings p (gs ++ hs) =
      (orderSubGroups settings p gs).bind fun q => orderSubGroups settings q hs := by
  induction gs generalizing p with
  | nil => rfl
  | cons g gs ih =>
    simp only [List.cons_append, orderSubGroups, bind, Except.bind]
    cases orderSubGroup settings p g with
    | error fault => rfl
    | ok q => exact ih q

/-- The number of slots of blocks that are written anew. -/
def rewrittenSlots (settings : Settings) (offset : Nat) : List (List Cell) → Nat
  | [] => 0
  | b :: bs =>
    Cell.rewritten settings offset b +
      rewrittenSlots settings (offset + (b.flatMap Cell.tokens).length) bs

/-- Blocks that ordering leaves alone have no slot that is written anew. -/
theorem rewrittenSlots_of_reorder {settings : Settings} {offset : Nat} {blocks : List (List Cell)}
    (h : reorderBlocks settings offset blocks = blocks) :
    rewrittenSlots settings offset blocks = 0 := by
  induction blocks generalizing offset with
  | nil => rfl
  | cons block blocks ih =>
    obtain ⟨hHere, hLater⟩ := List.cons.inj h
    rw [rewrittenSlots, Cell.rewritten_of_reorder hHere, ih hLater]

/-- Ordering all sub-groups, from the last to the first, reorders every block for itself. -/
theorem orderSubGroups_blocks (settings : Settings) {blocks : List (List Cell)} {tail : List Token}
    (h : BlocksOk blocks) (hTail : tail.head?.any Token.isTerminator = true) (before : List Token)
    (hFirst : SetApart blocks ∨ before = []) (run count changed : Nat) :
    ∃ count', orderSubGroups settings
        ⟨before ++ blocks.flatten.flatMap Cell.tokens ++ tail, count, changed⟩
        (blockGroups before.length run blocks).reverse =
      .ok ⟨before ++ (reorderBlocks settings before.length blocks).flatten.flatMap Cell.tokens ++
        tail, count', changed + rewrittenSlots settings before.length blocks⟩ := by
  induction blocks generalizing before run count changed with
  | nil => exact ⟨_, rfl⟩
  | cons block blocks ih =>
    -- the later blocks are done first; what they leave still ends the statements of this one
    obtain ⟨count', hLater⟩ := ih h.of_cons (before ++ block.flatMap Cell.tokens)
      (.inl h.setApart) (run + namespaces (block.flatMap Cell.tokens)) count changed
    have hAfter := (h.setApart.reorder h.of_cons.each settings
      (before ++ block.flatMap Cell.tokens).length).terminated (h.of_cons.reorder settings _).each hTail
    obtain ⟨c, cs, rfl, hc, -⟩ := h.each block List.mem_cons_self
    have hHead : ∀ d ∈ (c :: cs).head?, ∀ word space,
        d.lead = .start [] word space → before = [] := by
      intro d hd word space hLead
      obtain rfl : c = d := by simpa using hd
      refine hFirst.resolve_left fun hApart => ?_
      obtain ⟨⟨stop, rest, hGap, -⟩, -⟩ :=
        hApart (c :: cs) (by simp) c (by simp) [] (by simp [Cell.gap?, hLead])
      simp at hGap
    have hBlock := orderSubGroup_cells settings h.cells.append_left (by simpa using hc) hHead hAfter
      (run + namespaces ((c :: cs).flatMap Cell.tokens)) count'
      (changed + rewrittenSlots settings (before ++ (c :: cs).flatMap Cell.tokens).length blocks)
    refine ⟨count' + (c :: cs).length, ?_⟩
    rw [blockGroups, List.reverse_cons, orderSubGroups_append]
    simp only [List.flatten_cons, List.flatMap_append, List.append_assoc, List.length_append] at *
    rw [hLater]
    simp only [Except.bind, orderSubGroups, bind, hBlock, reorderBlocks, rewrittenSlots,
      List.flatten_cons, List.flatMap_append, List.append_assoc, pure, Except.pure, Nat.add_assoc,
      Nat.add_comm (Cell.rewritten settings before.length (c :: cs))]

end UseOrder
