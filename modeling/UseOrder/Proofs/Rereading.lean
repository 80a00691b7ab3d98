import UseOrder.Proofs.CellReading
import UseOrder.Proofs.Fixpoint

/-!
# Reading the fixed text again

`Rereads front tail` says that the text of the tokens is split and relabelled to just these tokens.
The tokens of a source text are such. Both things that fixing does give tokens that are read as
such: writing records into the slots (`Rereads.refilled`) and opening gaps up (`Rereads.respaced`).
So the fixed text of a steady source is read as cells that hold what was written
(`exists_reread_blocks`), its imports are the ones it had, and fixing it again changes nothing.
-/

namespace UseOrder

/-! ## Tokens that are read back -/

/-- The text of the tokens is read back; `tail` is what follows the last import. -/
structure Rereads (front tail : List Token) : Prop where
  scans : Scans false front (textOf tail)
  lexed : lexFrom (modeAfter false front) (textOf tail) = tail.map Token.raw
  labelled : ∃ c, Labels {} front (tail.map Token.raw) c ∧
    classifyFrom c (tail.map Token.raw) = tail

theorem Rereads.classify {front tail : List Token} (h : Rereads front tail) :
    classify (lex (textOf (front ++ tail))) = front ++ tail := by
  obtain ⟨c, hLabels, hTail⟩ := h.labelled
  rw [textOf_append, lex, lexFrom_of_scans h.scans, h.lexed, UseOrder.classify,
    hLabels.classifyFrom, hTail]

/-- The tokens of a source text without unfinished strings. -/
theorem rereads_source {source : Text} {front tail : List Token}
    (h : classify (lex source) = front ++ tail) (hTail : tail ≠ [])
    (hClosed : stringsClosed (lex source) = true) : Rereads front tail := by
  have hRaw : lex source = front.map Token.raw ++ tail.map Token.raw := by
    rw [← map_raw_classify source, h, List.map_append]
  obtain ⟨hScans, hLexed⟩ := scans_of_lexFrom hRaw (by simpa using hTail) hClosed
  rw [textOf_map_raw] at hScans hLexed
  rw [hRaw] at h
  exact ⟨hScans, hLexed, exists_labels h⟩

/-! ## Refilled cells -/

theorem Token.raw_of_isTerminator {t : Token} (h : t.isTerminator = true) : t.raw = t := by
  rcases t.kind_of_isTerminator h with hClose | rfl
  · exact Token.raw_eq_self (by rw [hClose]; rfl)
  · rfl

/-- Behind a terminator the pass goes on alike from contexts that agree. -/
theorem classifyFrom_of_agrees {c c' : Context} (h : c'.Agrees c) {tail : List Token}
    (hStop : tail.head?.any Token.isTerminator = true) :
    classifyFrom c' (tail.map Token.raw) = classifyFrom c (tail.map Token.raw) := by
  cases tail with
  | nil => simp at hStop
  | cons stop tail =>
    have hRaw : stop.raw.isTerminator = true := by
      rw [Token.raw_of_isTerminator (by simpa using hStop)]
      simpa using hStop
    rw [List.map_cons, classifyFrom_cons, classifyFrom_cons, step_terminator h hRaw]

/-- The first cell of a text is met in code. -/
theorem meets_first {c : Cell} (hc : c.isStart = true) : Meets c.lead {} {} := by
  obtain ⟨gap, word, space, hLead⟩ := Cell.lead_of_isStart hc
  exact .code rfl rfl rfl ⟨gap, word, space, hLead⟩

section Refilling

variable {settings : Settings} {cells cells' : List Cell} {tail : List Token}

/-- What is known about the cells of a steady source. -/
structure CellsSteady (settings : Settings) (cells : List Cell) (tail : List Token) : Prop where
  ok : CellsOk cells
  start : cells.head?.all Cell.isStart = true
  writable : ∀ c ∈ cells, c.Writable settings
  declared : ∀ c ∈ cells, ∀ gap ∈ c.gap?, leavesDeclaration gap = false
  tags : TagsWritten (cells.flatMap Cell.tokens ++ tail)
  stop : tail.head?.any Token.isTerminator = true

theorem CellsSteady.first (h : CellsSteady settings cells tail) :
    ∀ c ∈ cells.head?, c.isStart = true := by
  intro c hc
  have hStart := h.start
  rw [Option.all_eq_true] at hStart
  exact hStart c hc

/-- Movable records may be written into the slots. -/
theorem Rereads.refilled (h : Rereads (cells.flatMap Cell.tokens) tail)
    (hCells : CellsSteady settings cells tail) (hNe : cells ≠ [])
    (hRefilled : List.Forall₂ Refilled cells cells') :
    Rereads (cells'.flatMap Cell.tokens) tail := by
  obtain ⟨c, hLabels, hTail⟩ := h.labelled
  obtain ⟨hScans, hMode⟩ := scans_refilled hRefilled hCells.ok
    (fun c hc => (hCells.writable c hc).spaced) hCells.tags (fun _ => hCells.stop)
    (fun c hc hComma => by simp [hCells.first c hc] at hComma) h.scans
  obtain ⟨c', hLabels', -, -, hAgrees⟩ := labels_refilled hRefilled hCells.ok hCells.declared
    hCells.tags hCells.stop hNe (fun c hc => meets_first (hCells.first c hc)) hLabels
  refine ⟨hScans, ?_, c', hLabels', ?_⟩
  · rw [hMode, h.lexed]
  · rw [classifyFrom_of_agrees hAgrees hCells.stop, hTail]

/-- The cells of a steady source were read. -/
theorem Rereads.isRead (h : Rereads (cells.flatMap Cell.tokens) tail)
    (hCells : CellsSteady settings cells tail) : ∀ c ∈ cells, c.IsRead := by
  obtain ⟨c, hLabels, -⟩ := h.labelled
  exact isRead_cells hCells.ok hCells.declared hCells.tags hCells.stop
    (fun c hc => meets_first (hCells.first c hc)) hLabels
    (fun c hc hComma => by simp [hCells.first c hc] at hComma) h.scans

end Refilling

/-- Reordering a block writes movable records into its slots, as they are read. -/
theorem refilled_reorder {settings : Settings} {cells : List Cell} {offset : Nat}
    (hOk : ∀ c ∈ cells, CellOk c) (hRead : ∀ c ∈ cells, c.IsRead)
    (hWritable : ∀ c ∈ cells, c.Writable settings) :
    ∃ ds, List.Forall₂ Refilled cells ds ∧
      List.Forall₂ Cell.Relabelled (Cell.reorder settings offset cells) ds := by
  have hFst := Cell.map_fst_zip_order settings offset cells
  have hSnd := Cell.map_snd_zip_order settings offset cells
  have hPlaced := @refilled_placeAll settings.layout none
    (cells.zip (orderRecords settings (Cell.records settings offset cells)))
    (by
      rw [hSnd]
      intro r hr
      obtain ⟨c, hc, at', rfl⟩ := Cell.exists_cell_of_mem_records
        ((orderRecords_perm settings _).mem_iff.mp hr)
      exact (hOk c hc).exists_movable (hRead c hc) (hWritable c hc) at')
    (by
      rw [hFst]
      exact fun c hc => (hRead c hc).indent)
    (by simp)
  rwa [hFst] at hPlaced

theorem refilled_reorderBlocks {settings : Settings} {blocks : List (List Cell)} {offset : Nat}
    (hOk : ∀ c ∈ blocks.flatten, CellOk c) (hRead : ∀ c ∈ blocks.flatten, c.IsRead)
    (hWritable : ∀ c ∈ blocks.flatten, c.Writable settings) :
    ∃ ds, List.Forall₂ Refilled blocks.flatten ds ∧
      List.Forall₂ Cell.Relabelled (reorderBlocks settings offset blocks).flatten ds := by
  induction blocks generalizing offset with
  | nil => exact ⟨[], .nil, .nil⟩
  | cons block blocks ih =>
    obtain ⟨ds, hds, hFirst⟩ := @refilled_reorder settings block offset
      (fun c hc => hOk c (by simp [hc])) (fun c hc => hRead c (by simp [hc]))
      fun c hc => hWritable c (by simp [hc])
    obtain ⟨es, hes, hLater⟩ := @ih (offset + (block.flatMap Cell.tokens).length)
      (fun c hc => hOk c (by simp_all)) (fun c hc => hRead c (by simp_all))
      fun c hc => hWritable c (by simp_all)
    rw [reorderBlocks, List.flatten_cons, List.flatten_cons]
    exact ⟨ds ++ es, List.rel_append hds hes, List.rel_append hFirst hLater⟩

/-! ## Opened gaps -/

theorem AllSpace.nextKind_raw {ts : List Token} (h : AllSpace ts) (rest : List Token) :
    nextKind (ts.map Token.raw ++ rest) = nextKind rest := by
  have hNone : nextKind (ts.map Token.raw) = none := by
    rw [nextKind, Option.map_eq_none_iff, List.find?_eq_none]
    intro u hu
    obtain ⟨t, ht, rfl⟩ := List.mem_map.mp hu
    rw [t.raw_isMeaningful, h.not_meaningful t ht]
    simp
  rw [nextKind_append, hNone, Option.none_or]

/-- The labels up to a `use` do not hang on the white space in front of it. -/
theorem Labels.openUp {c c' : Context} {pre gap rest : List Token} {e : Text}
    (h : Labels c (pre ++ gap) rest c') (hEnds : EndsStatement gap)
    (hUse : ∀ t ∈ gap, t.kind ≠ .useWord) : Labels c (pre ++ openUp e gap) rest c' := by
  obtain ⟨space, hSpace, hOpened⟩ := exists_openUp_eq e gap
  obtain ⟨stop, later, rfl, hStop, -⟩ := hEnds
  have hRaw := Token.raw_of_isTerminator hStop
  have hMeaning := Token.isMeaningful_of_isTerminator hStop
  have hTrim := trimEnd_cons (Token.not_space_of_meaningful hMeaning) later
  rw [labels_append] at h ⊢
  obtain ⟨between, hPre, hGap⟩ := h
  refine ⟨between, hPre.ahead ?_ ?_, ?_⟩
  · rw [hOpened, hTrim]
    simp
  · rw [hOpened, hTrim]
    simp [nextKind, hRaw, hMeaning]
  · -- only white space behind the last other token differs
    rw [← trimEnd_append_trailingSpace (stop :: later), labels_append] at hGap
    obtain ⟨atUse, hFront, hTrailing⟩ := hGap
    have hSpaces := allSpace_trailing (stop :: later)
    obtain rfl := hTrailing.space_eq hSpaces
    rw [hOpened, labels_append]
    refine ⟨c', hFront.gap_ends (.refl _) ⟨stop, trimEnd later, hTrim, hStop⟩ ?_ ?_,
      labels_space c' hSpace rest⟩
    · intro t ht
      refine hUse t ?_
      rw [← trimEnd_append_trailingSpace (stop :: later)]
      exact List.mem_append_left _ ht
    · rw [hSpaces.nextKind_raw, hSpace.nextKind_raw]

theorem step_openTag {c : Context} (hc : c.place = .code) {t : Token} (ht : t.kind = .openTag)
    (rest : List Token) : c.step t rest = (.openTag, { c with previous := some t }) := by
  have hTrack : c.track t .openTag = c := by
    simp [Context.track, Context.isOpeningBrace, Token.isPunct, ht]
  have hMeaning : Token.isMeaningful ⟨.openTag, t.content⟩ = true := rfl
  rw [step_code (.inl hc), codeKind_plain c (by simp [ht]) (by simp [ht]), ht, hTrack,
    Context.remember, if_pos hMeaning, ← ht]
  obtain ⟨previous, depth, importDepth, pending, place⟩ := c
  obtain rfl : place = .code := hc
  rfl

/-- A `use` behind an open tag begins an import whatever the tag looks like. -/
theorem Labels.tag {c c' : Context} {tag tag' word : Token} {space space' rest : List Token}
    (h : Labels c (tag :: (space ++ [word])) rest c') (hc : c.place = .code)
    (hTag : tag.kind = .openTag) (hTag' : tag'.kind = .openTag) (hSpace : AllSpace space)
    (hSpace' : AllSpace space') (hWord : word.kind = .useWord) :
    Labels c (tag' :: (space' ++ [word])) rest c' := by
  have hRaw : tag.raw = tag := Token.raw_eq_self (by rw [hTag]; rfl)
  have hRaw' : tag'.raw = tag' := Token.raw_eq_self (by rw [hTag']; rfl)
  rw [labels_cons, hRaw, step_openTag hc hTag, labels_append] at h
  obtain ⟨-, atUse, hSpaces, hUse⟩ := h
  obtain rfl : atUse = { c with previous := some tag } := hSpaces.space_eq hSpace
  obtain ⟨hKind, hNext⟩ := labels_cons.mp hUse
  obtain ⟨hImports, hUseRaw⟩ :=
    @imports_of_step { c with previous := some tag } hc _ _ (hKind.trans hWord)
  -- the tag is only remembered as the previous token, and no tag forbids an import
  have hImports' : Context.Imports { c with previous := some tag' } := by
    refine ⟨hc, ?_, ?_, hImports.depth⟩
    · simp [Context.afterNaming, Context.isMemberAccess, Context.isFunctionName, Token.isPunct,
        hTag']
    · simp [Token.isPunct, hTag']
  rw [step_use hImports hUseRaw, labels_nil] at hNext
  rw [labels_cons, hRaw', step_openTag hc hTag', labels_append]
  refine ⟨hTag'.symm, _, labels_space _ hSpace' _, labels_cons.mpr ?_⟩
  rw [step_use hImports' hUseRaw, hWord]
  exact ⟨rfl, hNext⟩

/-- A line feed that an open tag takes along changes no label up to the `use`. -/
theorem Labels.joined {c c' : Context} {pre gap gap' rest : List Token} {word : Token}
    (h : Labels c (pre ++ gap ++ [word]) rest c') (hJoined : Joined gap gap')
    (hEnds : EndsStatement gap) (hUse : ∀ t ∈ gap, t.kind ≠ .useWord)
    (hWord : word.kind = .useWord) : Labels c (pre ++ gap' ++ [word]) rest c' := by
  cases hJoined with
  | same => exact h
  | @tag front content more hReturn hMore =>
    obtain ⟨stop, later, rfl, hStop⟩ := hEnds.before_openTag
    have hShape (a b : Token) : pre ++ (stop :: later ++ [a, b]) ++ [word] =
        pre ++ (stop :: later ++ a :: ([b] ++ [word])) := by simp
    have hFrontUse : ∀ t ∈ stop :: later, t.kind ≠ .useWord :=
      fun t ht => hUse t (List.mem_append_left _ ht)
    rw [hShape, labels_append] at h ⊢
    obtain ⟨between, hPre, h⟩ := h
    obtain ⟨atTag, hFront, hTag⟩ := labels_append.mp h
    have hCode := hFront.place_gap (.inr ⟨stop, later, rfl, hStop⟩) hFrontUse
    refine ⟨between, hPre.ahead (by simp) ?_, labels_append.mpr ⟨atTag, ?_, ?_⟩⟩
    · simp [nextKind, stop.raw_isMeaningful, Token.isMeaningful_of_isTerminator hStop]
    · -- the next meaningful token is an open tag in both texts
      refine hFront.gap_ends (.refl _) ⟨stop, later, rfl, hStop⟩ hFrontUse ?_
      simp [nextKind, Token.raw, TokenKind.raw, Token.isMeaningful, Token.isWhitespace,
        Token.isComment]
    · exact hTag.tag hCode rfl rfl (AllSpace.singleton _) (AllSpace.singleton _) hWord

/-- The gap in front of a `use` may be opened up. -/
theorem Rereads.openUp {pre gap post tail : List Token} {word t : Token}
    (h : Rereads (pre ++ gap ++ (word :: t :: post)) tail) (hEnds : EndsStatement gap)
    (hUse : ∀ u ∈ gap, u.kind ≠ .useWord) (hWord : word.kind = .useWord)
    (ht : t.isWhitespace = true) (e : LineEnding) :
    ∃ gap', Joined (UseOrder.openUp e.text gap) gap' ∧
      Rereads (pre ++ gap' ++ (word :: t :: post)) tail := by
  have hShape (front : List Token) :
      front ++ (word :: t :: post) = front ++ [word] ++ (t :: post) := by simp
  obtain ⟨hScans, hLexed, c, hLabels, hTail⟩ := h
  rw [hShape, scans_append] at hScans
  obtain ⟨hBefore, hAfter⟩ := hScans
  have hMode := modeAfter_use hBefore hWord
  -- white space behind the `use` parts the gap from what follows
  have hBlank : (textOf (t :: post) ++ textOf tail).head?.any isBlank = true := by
    rw [hMode] at hAfter
    obtain ⟨d, ds, rfl, hBlanks⟩ := exists_blanks hAfter.1.1 ht
    simpa using hBlanks d (by simp)
  obtain ⟨gap', hJoined, hNew⟩ := scans_openUp hBefore hWord hEnds.trimEnd_ne_nil e hBlank
  have hMode' := modeAfter_use hNew hWord
  refine ⟨gap', hJoined, ?_, ?_, c, ?_, hTail⟩
  · rw [hShape, scans_append, hMode']
    rw [hMode] at hAfter
    exact ⟨hNew, hAfter⟩
  · rw [hShape, modeAfter_append, hMode']
    rw [hShape, modeAfter_append, hMode] at hLexed
    exact hLexed
  · rw [hShape, labels_append] at hLabels ⊢
    obtain ⟨inside, hFront, hRest⟩ := hLabels
    obtain ⟨atUse, hGap, hUseWord⟩ := labels_append.mp hFront
    have hOpened := labels_append.mpr ⟨atUse, hGap.openUp (e := e.text) hEnds hUse, hUseWord⟩
    refine ⟨inside, hOpened.joined hJoined (hEnds.openUp e.text).1 ?_ hWord, hRest⟩
    exact not_use_openUp hUse e.text

/-- The gaps of cells may be opened up, one after the other. -/
theorem Rereads.respaced {e : LineEnding} {cs ds rs : List Cell}
    (hSpaced : List.Forall₂ (Respaced e.text) cs ds) (hRead : List.Forall₂ Cell.Relabelled cs rs)
    {pre tail : List Token} (h : Rereads (pre ++ rs.flatMap Cell.tokens) tail)
    (hOk : ∀ r ∈ rs, CellOk r) (hUse : ∀ r ∈ rs, r.UseSpaced) :
    ∃ es, List.Forall₂ Cell.ReadAs ds es ∧ Rereads (pre ++ es.flatMap Cell.tokens) tail := by
  induction hSpaced generalizing pre rs with
  | nil =>
    obtain rfl := List.forall₂_nil_left_iff.mp hRead
    exact ⟨[], .nil, h⟩
  | @cons c d cs ds hd hRest ih =>
    obtain ⟨r, rs, ⟨hr, hSame⟩, hLater, rfl⟩ := List.forall₂_cons_left_iff.mp hRead
    have hLead := (hOk r List.mem_cons_self).lead
    rw [List.flatMap_cons, ← List.append_assoc] at h
    -- once its own gap is done, the cell joins what stands before
    suffices hFirst : ∃ f, d.ReadAs f ∧
        Rereads (pre ++ f.tokens ++ rs.flatMap Cell.tokens) tail by
      obtain ⟨f, hf, hNew⟩ := hFirst
      obtain ⟨es, hes, hAll⟩ := ih hLater hNew (fun e he => hOk e (List.mem_cons_of_mem _ he))
        fun e he => hUse e (List.mem_cons_of_mem _ he)
      rw [List.append_assoc, ← List.flatMap_cons] at hAll
      exact ⟨f :: es, .cons hf hes, hAll⟩
    obtain ⟨lead, hOpened, rfl⟩ := hd
    generalize hOld : c.lead = old at hOpened
    cases hOpened with
    | same =>
      subst hOld
      exact ⟨r, hr, h⟩
    | opened gap word space ends =>
      have hStart : r.lead = .start gap word space := hSame.trans hOld
      rw [hStart] at hLead
      obtain ⟨t, more, rfl⟩ :=
        List.exists_cons_of_ne_nil (hUse r List.mem_cons_self gap word space hStart)
      have hShape : pre ++ r.tokens ++ rs.flatMap Cell.tokens = pre ++ gap ++
          (word :: t :: (more ++ r.qualifier ++ r.core ++ r.after ++ rs.flatMap Cell.tokens)) := by
        simp [Cell.tokens, hStart, Lead.tokens]
      rw [hShape] at h
      obtain ⟨gap', hJoined, hNew⟩ :=
        h.openUp ends hLead.1 hLead.2.1 (hLead.2.2.1 t (by simp)) e
      refine ⟨{ r with lead := .start gap' word (t :: more) }, ⟨.start word (t :: more) hJoined,
        hr.kind, hr.grouped, hr.qualifier, hr.core, hr.first, hr.after⟩, ?_⟩
      simpa [Cell.tokens, Lead.tokens] using hNew

theorem Refilled.useSpaced {c d : Cell} (h : Refilled c d) (hc : c.UseSpaced) : d.UseSpaced := by
  intro gap word space hLead
  cases h with
  | start r hr hOld =>
    cases hLead
    exact hc gap word space hOld
  | comma r hr hOld => cases hLead
  | split content r hr hOld =>
    cases hLead
    simp

/-! ## Steady sources -/

theorem Steady.cells {settings : Settings} {source : Text} (h : Steady settings source)
    {blocks : List (List Cell)} {tail : List Token}
    (hSource : classify (lex source) = blocks.flatten.flatMap Cell.tokens ++ tail)
    (hBlocks : BlocksOk blocks) (hStop : tail.head?.any Token.isTerminator = true) :
    CellsSteady settings blocks.flatten tail := by
  have hWritable := h.writable
  have hDeclared := h.declared
  rw [hSource] at hWritable hDeclared
  have hTags := tagsWritten_source source
  rw [hSource] at hTags
  exact ⟨hBlocks.cells, hBlocks.head_isStart,
    @writable_cells _ _ hBlocks.cells hBlocks.head_isStart [] tail hStop hWritable,
    declared_cells hBlocks.cells hBlocks.head_isStart hDeclared, hTags, hStop⟩

/-- The fixed text of a steady source is split and relabelled to cells that hold what was
written. -/
theorem exists_read_fixed {settings : Settings} {source : Text} (h : Steady settings source)
    {blocks blocks' : List (List Cell)} {tail : List Token}
    (hSource : classify (lex source) = blocks.flatten.flatMap Cell.tokens ++ tail)
    (hBlocks : BlocksOk blocks) (hStop : blocks ≠ [] → tail.head?.any Token.isTerminator = true)
    (hSpaced : List.Forall₂ (List.Forall₂ (Respaced settings.layout.lineEnding.text))
      (reorderBlocks settings 0 blocks) blocks') :
    ∃ read, List.Forall₂ (List.Forall₂ Cell.ReadAs) blocks' read ∧
      classify (lex (textOf (blocks'.flatten.flatMap Cell.tokens ++ tail))) =
        read.flatten.flatMap Cell.tokens ++ tail := by
  by_cases hNe : blocks = []
  · -- without imports nothing was changed
    subst hNe
    obtain rfl := List.forall₂_nil_left_iff.mp hSpaced
    exact ⟨[], .nil, by rw [← hSource, textOf_tokens]⟩
  · have hTail := hStop hNe
    have hCells := h.cells hSource hBlocks hTail
    have hSome : blocks.flatten ≠ [] := by
      obtain ⟨b, bs, rfl⟩ := List.exists_cons_of_ne_nil hNe
      obtain ⟨c, cs, rfl, -⟩ := hBlocks.each b List.mem_cons_self
      simp
    have hOld : Rereads (blocks.flatten.flatMap Cell.tokens) tail :=
      rereads_source hSource (by rintro rfl; simp at hTail) h.closed
    -- the records go into other slots, and then the gaps are opened
    obtain ⟨placed, hRefilled, hPlaced⟩ := @refilled_reorderBlocks settings blocks 0 hCells.ok.each
      (hOld.isRead hCells) hCells.writable
    have hOk : ∀ d ∈ placed, CellOk d := by
      intro d hd
      obtain ⟨c, hc, hcd, -⟩ := exists_of_forall₂_mem hPlaced hd
      exact hcd.resembles.ok ((hBlocks.reorder settings 0).cells.each c hc)
    have hUse : ∀ d ∈ placed, d.UseSpaced := by
      intro d hd
      obtain ⟨c, hc, hcd⟩ := exists_of_forall₂_mem hRefilled hd
      exact hcd.useSpaced (hCells.writable c hc).spaced
    obtain ⟨cells, hRead, hNew⟩ := @Rereads.respaced _ _ _ placed (List.rel_flatten hSpaced) hPlaced
      [] tail (hOld.refilled hCells hSome hRefilled) hOk hUse
    obtain ⟨read, hBlocksRead, rfl⟩ := forall₂_flatten hRead
    refine ⟨read, hBlocksRead, ?_⟩
    have hText : textOf (blocks'.flatten.flatMap Cell.tokens ++ tail) =
        textOf (read.flatten.flatMap Cell.tokens ++ tail) := by
      rw [textOf_append, textOf_append, textOf_readAs hRead]
    rw [hText]
    exact hNew.classify

/-- Fixing a steady source gives a text that is read as the reordered and respaced blocks. -/
theorem exists_reread_blocks (settings : Settings) {tokenizer : TokenizerSettings}
    (hEngine : tokenizer.engine = .builtIn) (outcome : ProcessOutcome) (path : Option String)
    {source : Text} (h : Steady settings source) :
    ∃ blocks tail counts blocks' read r,
      classify (lex source) = blocks.flatten.flatMap Cell.tokens ++ tail ∧
      BlocksOk blocks ∧ (∀ t ∈ tail, t.kind ≠ .useWord) ∧
      (blocks ≠ [] → tail.head?.any Token.isTerminator = true) ∧
      fixTokens settings (classify (lex source)) =
        .ok (counts, blocks'.flatten.flatMap Cell.tokens ++ tail) ∧
      List.Forall₂ (List.Forall₂ (Respaced settings.layout.lineEnding.text))
        (reorderBlocks settings 0 blocks) blocks' ∧
      List.Forall₂ (List.Forall₂ Cell.ReadAs) blocks' read ∧
      fixSource settings tokenizer outcome path source = .ok r ∧ r.ok = true ∧
      classify (lex r.code) = read.flatten.flatMap Cell.tokens ++ tail := by
  obtain ⟨blocks, tail, counts, blocks', hSource, hBlocks, hTail, hStop, hFixed, hSpaced⟩ :=
    exists_fixed_blocks settings h.wellFormed
  obtain ⟨r, hResult, hOk⟩ := fixSource_wellFormed settings hEngine outcome path h.wellFormed
  obtain ⟨read, hRead, hReread⟩ := exists_read_fixed h hSource hBlocks hStop hSpaced
  refine ⟨blocks, tail, counts, blocks', read, r, hSource, hBlocks, hTail, hStop, hFixed, hSpaced,
    hRead, hResult, hOk, ?_⟩
  rw [← hReread]
  obtain ⟨counts', fixed, hDone, hCode, -⟩ := fixSource_outcome hEngine hResult hOk
  rw [hFixed, Except.ok.injEq, Prod.mk.injEq] at hDone
  rw [hCode, ← hDone.2]

/-! ## The imports of a text -/

/-- The imports of all sub-groups. -/
def importEntries (settings : Settings) (ts : List Token) :
    Except Fault (List (ImportKind × Bool × Text)) := do
  let groups ← subGroups ts
  let records ← groups.mapM fun group => parseStatements settings ts group.uses
  pure (records.flatten.map Record.entry)

theorem mapM_of_forall₂ {α β ε : Type} {f : α → Except ε β} {xs : List α} {ys : List β}
    (h : List.Forall₂ (fun x y => f x = .ok y) xs ys) : xs.mapM f = .ok ys := by
  induction h with
  | nil => rfl
  | cons hx _ ih => simp [List.mapM_cons, hx, ih, bind, Except.bind, pure, Except.pure]

/-- The imports of blocks. -/
theorem importEntries_blocks (settings : Settings) {blocks : List (List Cell)} {tail : List Token}
    (h : BlocksOk blocks) (hTail : ∀ t ∈ tail, t.kind ≠ .useWord)
    (hStop : blocks ≠ [] → tail.head?.any Token.isTerminator = true) :
    importEntries settings (blocks.flatten.flatMap Cell.tokens ++ tail) =
      .ok ((blockRecords settings 0 blocks).flatten.map Record.entry) := by
  have hParse : (blockGroups 0 0 blocks).mapM (fun group => parseStatements settings
      (blocks.flatten.flatMap Cell.tokens ++ tail) group.uses) =
        .ok (blockRecords settings 0 blocks) := by
    by_cases hNe : blocks = []
    · subst hNe
      rfl
    · exact mapM_of_forall₂ (parse_blockGroups settings h (hStop hNe) [] 0)
  simp only [importEntries, subGroups_blocks h hTail, hParse, bind, Except.bind, pure, Except.pure]

/-- Reordered and respaced blocks import what the blocks import, also when they are read again. -/
theorem perm_blockRecords {settings : Settings} {lineEnding : Text}
    {blocks blocks' read : List (List Cell)} (h : BlocksOk blocks) {offset : Nat}
    (hSpaced : List.Forall₂ (List.Forall₂ (Respaced lineEnding))
      (reorderBlocks settings offset blocks) blocks')
    (hRead : List.Forall₂ (List.Forall₂ Cell.ReadAs) blocks' read) (offset' : Nat) :
    ((blockRecords settings offset' read).flatten.map Record.entry).Perm
      ((blockRecords settings offset blocks).flatten.map Record.entry) := by
  induction blocks generalizing offset offset' blocks' read with
  | nil =>
    obtain rfl := List.forall₂_nil_left_iff.mp hSpaced
    obtain rfl := List.forall₂_nil_left_iff.mp hRead
    exact .refl _
  | cons block blocks ih =>
    rw [reorderBlocks] at hSpaced
    obtain ⟨block', rest, hBlock, hRest, rfl⟩ := List.forall₂_cons_left_iff.mp hSpaced
    obtain ⟨again, later, hAgain, hLater, rfl⟩ := List.forall₂_cons_left_iff.mp hRead
    simp only [blockRecords, List.flatten_cons, List.map_append]
    refine List.Perm.append ?_ (ih h.of_cons hRest hLater _)
    rw [entries_reordered h.cells.append_left hBlock hAgain]
    exact (orderRecords_perm settings _).map _

/-! ## Two imports that change places -/

/-- Two imports in the wrong order change places. -/
theorem fixSource_swap {settings : Settings} {tokenizer : TokenizerSettings}
    (hEngine : tokenizer.engine = .builtIn) (outcome : ProcessOutcome) (path : Option String)
    {source : Text} {fixed : List Token} {group : SubGroup} {a b : Record} {e f : Edit}
    {changed : Nat}
    (hUse : hasKind .useWord (classify (lex source)) = true)
    (hGroups : subGroups (classify (lex source)) = .ok [group])
    (hParse : parseStatements settings (classify (lex source)) group.uses = .ok [a, b])
    (hOrder : orderRecords settings [a, b] = [b, a])
    (hPlan : planEdits settings.layout (classify (lex source)) [a, b] [b, a] = .ok [e, f])
    (hStart : e.start < f.start)
    (hApply : (applyInOrder (classify (lex source)) 0 [f, e]).tokens = fixed)
    (hChanged : (applyInOrder (classify (lex source)) 0 [f, e]).changed = .ok changed)
    (hBlank : insertBlankLines settings.layout fixed = .ok (0, fixed)) :
    ∃ r, fixSource settings tokenizer outcome path source = .ok r ∧ r.ok = true ∧
      r.code = textOf fixed := by
  have hSort : [e, f].mergeSort (fun a b => decide (b.start ≤ a.start)) = [f, e] :=
    mergeSort_pair (by simpa using hStart)
  have hGroup : orderSubGroup settings ⟨classify (lex source), 0, 0⟩ group =
      .ok ⟨fixed, 2, changed⟩ := by
    simp [orderSubGroup, hParse, planRecords, hOrder, hPlan, applyEdits, hSort, hApply, hChanged,
      bind, Except.bind, pure, Except.pure]
  obtain ⟨counts, hFixed⟩ : ∃ counts, fixTokens settings (classify (lex source)) =
      .ok (counts, fixed) := by
    simp only [fixTokens, hGroups, List.reverse_singleton, orderSubGroups, hGroup, hBlank, bind,
      Except.bind, pure, Except.pure]
    exact ⟨_, rfl⟩
  rw [fixSource_builtIn hEngine, if_pos hUse, hFixed]
  exact ⟨_, rfl, rfl, rfl⟩

/-! ## Imports are kept -/

/-- Fixing keeps the imports of a steady source text: the result is read and parsed again, and holds
the same imports. -/
theorem fixSource_keeps_imports (settings : Settings) (tokenizer : TokenizerSettings)
    (hEngine : tokenizer.engine = .builtIn) (outcome : ProcessOutcome) (path : Option String)
    (source : Text) (h : Steady settings source) :
    ∃ r before after, fixSource settings tokenizer outcome path source = .ok r ∧ r.ok = true ∧
      importEntries settings (classify (lex source)) = .ok before ∧
      importEntries settings (classify (lex r.code)) = .ok after ∧ after.Perm before := by
  obtain ⟨blocks, tail, counts, blocks', read, r, hSource, hBlocks, hTail, hStop, -, hSpaced, hRead,
    hResult, hOk, hReread⟩ := exists_reread_blocks settings hEngine outcome path h
  have hReadOk := ((hBlocks.reorder settings 0).respaced hSpaced).resembles
    (hRead.imp fun _ _ hBlock => hBlock.imp fun _ _ hc => hc.resembles)
  have hReadStop : read ≠ [] → tail.head?.any Token.isTerminator = true := fun hNe => hStop (by
    rintro rfl
    obtain rfl := List.forall₂_nil_left_iff.mp hSpaced
    exact hNe (List.forall₂_nil_left_iff.mp hRead))
  refine ⟨r, _, _, hResult, hOk, ?_, ?_, perm_blockRecords hBlocks hSpaced hRead 0⟩
  · rw [hSource, importEntries_blocks settings hBlocks hTail hStop]
  · rw [hReread, importEntries_blocks settings hReadOk hTail hReadStop]

/-- Comments beside names, in front of a qualifier and inside a name of a group that is in order, a
group that is not, a comma that has to be split, and a close tag. -/
theorem fixSource_keeps_imports_of_comments :
    let source :=
      "<?php use const Z, // z\n Y; use A\\\x7bC /**/, B\x7d; use L\\\x7bM/**/\\N, O\x7d; use /**/const K ?>".toList
    Steady {} source ∧
      ∃ r before after, fixSource {} ⟨.builtIn, "php", .whole 30⟩ .notFound none source = .ok r ∧
        r.ok = true ∧ importEntries {} (classify (lex source)) = .ok before ∧
        importEntries {} (classify (lex r.code)) = .ok after ∧ after.Perm before := by
  have hSteady : Steady {}
      "<?php use const Z, // z\n Y; use A\\\x7bC /**/, B\x7d; use L\\\x7bM/**/\\N, O\x7d; use /**/const K ?>".toList :=
    ⟨by decide +kernel, by decide +kernel, by decide +kernel, by decide +kernel⟩
  exact ⟨hSteady, fixSource_keeps_imports {} _ rfl _ _ _ hSteady⟩

/-- A line comment at the end of a name takes along what is written behind it. -/
theorem line_comment_takes_import :
    let source := "<?php\nuse Foo\\B, Foo\\A // last\n;\n".toList
    wellFormed (classify (lex source)) = true ∧
      ∃ r, fixSource {} ⟨.builtIn, "php", .whole 30⟩ .notFound none source = .ok r ∧ r.ok = true ∧
        importEntries {} (classify (lex source)) =
          .ok [(.classKind, false, "Foo\\B".toList), (.classKind, false, "Foo\\A".toList)] ∧
        importEntries {} (classify (lex r.code)) = .ok [(.classKind, false, "Foo\\A".toList)] := by
  let b : List Token := [⟨.name, "Foo".toList⟩, ⟨.separator, ['\\']⟩, ⟨.name, ['B']⟩]
  let a : List Token :=
    [⟨.name, "Foo".toList⟩, ⟨.separator, ['\\']⟩, ⟨.name, ['A']⟩, oneSpace,
      ⟨.comment, "// last".toList⟩]
  obtain ⟨r, hResult, hOk, hCode⟩ := @fixSource_swap {} ⟨.builtIn, "php", .whole 30⟩ rfl
    .notFound none "<?php\nuse Foo\\B, Foo\\A // last\n;\n".toList
    ([⟨.openTag, "<?php\n".toList⟩, ⟨.useWord, "use".toList⟩, oneSpace] ++ a ++
      [commaToken, oneSpace] ++ b ++ [⟨.whitespace, ['\n']⟩, ⟨.punct, [';']⟩, ⟨.whitespace, ['\n']⟩])
    ⟨0, [1]⟩ { name := textOf b, start := 3, last := 5, tokens := b }
    { name := textOf a, start := 8, last := 12, tokens := a } ⟨3, 6, a⟩ ⟨8, 13, b⟩ 2
    (by decide +kernel) (by decide +kernel) (by decide +kernel)
    (mergeSort_pair (by decide +kernel)) (by decide +kernel) (by decide +kernel)
    (by decide +kernel) (by decide +kernel) (by decide +kernel)
  refine ⟨by decide +kernel, r, hResult, hOk, by decide +kernel, ?_⟩
  rw [hCode]
  decide +kernel

/-! ## Fixing twice -/

/-- A text whose tokens stay as they are is left alone. -/
theorem fixSource_of_fixed {settings : Settings} {tokenizer : TokenizerSettings}
    (hEngine : tokenizer.engine = .builtIn) (outcome : ProcessOutcome) (path : Option String)
    {source : Text} {counts : Counts}
    (h : fixTokens settings (classify (lex source)) = .ok (counts, classify (lex source))) :
    ∃ r, fixSource settings tokenizer outcome path source = .ok r ∧ r.ok = true ∧
      r.changed = false ∧ r.code = source := by
  rw [fixSource_builtIn hEngine, h]
  split
  · exact ⟨_, rfl, rfl, by simp [textOf_tokens], textOf_tokens source⟩
  · exact ⟨_, rfl, rfl, rfl, rfl⟩

/-- What fixing gave for a steady source text is left alone by fixing. -/
theorem fixSource_idempotent (settings : Settings) (tokenizer : TokenizerSettings)
    (hEngine : tokenizer.engine = .builtIn) (outcome : ProcessOutcome) (path : Option String)
    (source : Text) (h : Steady settings source) :
    ∃ r again, fixSource settings tokenizer outcome path source = .ok r ∧ r.ok = true ∧
      fixSource settings tokenizer outcome path r.code = .ok again ∧ again.ok = true ∧
      again.changed = false ∧ again.code = r.code := by
  obtain ⟨blocks, tail, counts, blocks', read, r, hSource, hBlocks, hTail, hStop, hFixed, hSpaced,
    hRead, hResult, hOk, hReread⟩ := exists_reread_blocks settings hEngine outcome path h
  obtain ⟨counts', hAgain⟩ : ∃ counts', fixTokens settings (classify (lex r.code)) =
      .ok (counts', classify (lex r.code)) := by
    rw [hReread]
    by_cases hNe : blocks = []
    · subst hNe
      obtain rfl := List.forall₂_nil_left_iff.mp hSpaced
      obtain rfl := List.forall₂_nil_left_iff.mp hRead
      exact ⟨_, fixTokens_plain settings hTail⟩
    · rw [hSource] at hFixed
      obtain ⟨counts', hSettled, -⟩ :=
        fixTokens_settled hBlocks hTail (hStop hNe) hFixed hSpaced hRead
      exact ⟨counts', hSettled⟩
  obtain ⟨again, hSecond⟩ := fixSource_of_fixed hEngine outcome path hAgain
  exact ⟨r, again, hResult, hOk, hSecond⟩

/-- Imports by length with the kinds apart: a comma is split, a group is written anew, and blank
lines are added where the first segment changes, once behind an open tag that ends in a carriage
return. -/
theorem fixSource_idempotent_of_kinds :
    let source :=
      "<?php use Z\\Long, A; use const B\\\x7bC /* c */, B\x7d;\nuse function Z\\f ?><?php\ruse M;".toList
    let settings : Settings :=
      { algorithm := .length
        kindOrder := some ⟨[.constKind, .functionKind, .classKind], by decide⟩ }
    Steady settings source ∧
      ∃ r again, fixSource settings ⟨.builtIn, "php", .whole 30⟩ .notFound none source = .ok r ∧
        r.ok = true ∧
        fixSource settings ⟨.builtIn, "php", .whole 30⟩ .notFound none r.code = .ok again ∧
        again.ok = true ∧ again.changed = false ∧ again.code = r.code := by
  have hSteady : Steady
      { algorithm := .length
        kindOrder := some ⟨[.constKind, .functionKind, .classKind], by decide⟩ }
      "<?php use Z\\Long, A; use const B\\\x7bC /* c */, B\x7d;\nuse function Z\\f ?><?php\ruse M;".toList :=
    ⟨by decide +kernel, by decide +kernel, by decide +kernel, by decide +kernel⟩
  exact ⟨hSteady, fixSource_idempotent _ _ rfl _ _ _ hSteady⟩

/-- A line comment at the end of a name takes along the terminator, and fixing the result fails. -/
theorem line_comment_takes_terminator :
    let source := "<?php\nuse B // c\n, A;\n".toList
    wellFormed (classify (lex source)) = true ∧
      ∃ r again, fixSource {} ⟨.builtIn, "php", .whole 30⟩ .notFound none source = .ok r ∧
        r.ok = true ∧
        fixSource {} ⟨.builtIn, "php", .whole 30⟩ .notFound none r.code = .ok again ∧
        again.ok = false := by
  let b : List Token := [⟨.name, ['B']⟩, oneSpace, ⟨.comment, "// c".toList⟩]
  let a : List Token := [⟨.name, ['A']⟩]
  obtain ⟨r, hResult, hOk, hCode⟩ := @fixSource_swap {} ⟨.builtIn, "php", .whole 30⟩ rfl
    .notFound none "<?php\nuse B // c\n, A;\n".toList
    ([⟨.openTag, "<?php\n".toList⟩, ⟨.useWord, "use".toList⟩, oneSpace] ++ a ++
      [⟨.whitespace, ['\n']⟩, commaToken, oneSpace] ++ b ++
      [⟨.punct, [';']⟩, ⟨.whitespace, ['\n']⟩])
    ⟨0, [1]⟩ { name := textOf b, start := 3, last := 5, tokens := b }
    { name := textOf a, start := 9, last := 9, tokens := a } ⟨3, 6, a⟩ ⟨9, 10, b⟩ 2
    (by decide +kernel) (by decide +kernel) (by decide +kernel)
    (mergeSort_pair (by decide +kernel)) (by decide +kernel) (by decide +kernel)
    (by decide +kernel) (by decide +kernel) (by decide +kernel)
  -- the second run finds the statement and no end of it
  have hUse : hasKind .useWord (classify (lex r.code)) = true := by
    rw [hCode]
    decide +kernel
  have hGroups : subGroups (classify (lex r.code)) = .ok [⟨0, [1]⟩] := by
    rw [hCode]
    decide +kernel
  have hOpen : parseStatements {} (classify (lex r.code)) [1] = .error (.unterminated 1) := by
    rw [hCode]
    decide +kernel
  have hFault : fixTokens {} (classify (lex r.code)) = .error (.unterminated 1) := by
    simp only [fixTokens, hGroups, List.reverse_singleton, orderSubGroups, orderSubGroup, hOpen,
      bind, Except.bind]
  have hSecond := @fixSource_builtIn ⟨.builtIn, "php", .whole 30⟩ rfl {} .notFound none r.code
  rw [if_pos hUse, hFault] at hSecond
  exact ⟨by decide +kernel, r, _, hResult, hOk, hSecond, rfl⟩

end UseOrder
