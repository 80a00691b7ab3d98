import UseOrder.Fix
import UseOrder.Proofs.Edits
import UseOrder.Proofs.Statement

/-!
# Rewriting cells

What ordering does to the cells of a sub-group. Each cell takes a record (`Cell.place`): a cell that
starts a statement keeps its lead and takes the qualifier of the record, a cell behind a comma
either keeps its comma or becomes the start of a statement of its own. The edits that are planned
for the records do exactly this to the tokens (`orderSubGroup_cells`), and what comes out is cells
that are parsed back (`CellsOk.place`), to the records that were written into them.
-/

namespace UseOrder

/-! ## Several statements -/

/-- Cells that begin with a statement are taken apart statement by statement. -/
theorem Cell.statement_induction
    {P : (cells : List Cell) → cells.head?.all Cell.isStart = true → Prop} (nil : P [] rfl)
    (statement : ∀ c commas rest (hc : c.isStart = true), (∀ d ∈ commas, d.isStart = false) →
      ∀ hRest : rest.head?.all Cell.isStart = true, P rest hRest →
        P (c :: (commas ++ rest)) (by simpa using hc))
    (cells : List Cell) (hStart : cells.head?.all Cell.isStart = true) : P cells hStart := by
  -- the first statement goes up to the next cell with a `use`, and what is left is shorter
  induction hLength : cells.length using Nat.strong_induction_on generalizing cells with
  | _ n ih =>
    cases cells with
    | nil => exact nil
    | cons c cs =>
      have hRest : (cs.dropWhile fun d => !d.isStart).head?.all Cell.isStart = true := by
        cases hDrop : cs.dropWhile fun d => !d.isStart with
        | nil => rfl
        | cons d ds =>
          have hd := List.head?_dropWhile_not (fun d => !d.isStart) cs
          rw [hDrop] at hd
          simpa using hd
      have hCommas : ∀ d ∈ cs.takeWhile (fun d => !d.isStart), d.isStart = false := by
        intro d hd
        simpa using List.mem_takeWhile_imp hd
      have hShorter : (cs.dropWhile fun d => !d.isStart).length < n := by
        have hLe := (List.dropWhile_sublist (fun d => !d.isStart) (l := cs)).length_le
        rw [List.length_cons] at hLength
        omega
      have hCell := statement c _ _ (by simpa using hStart) hCommas hRest
        (ih _ hShorter _ hRest rfl)
      simpa only [List.takeWhile_append_dropWhile] using hCell

/-- The positions of the `use` words of cells that follow each other from `offset` on. -/
def Cell.uses (offset : Nat) : List Cell → List Int
  | [] => []
  | c :: cs =>
    match c.lead with
    | .start gap _ _ => ((offset + gap.length : Nat) : Int) :: uses (offset + c.tokens.length) cs
    | .comma _ => uses (offset + c.tokens.length) cs

theorem Cell.uses_commas {commas : List Cell} (hCommas : ∀ d ∈ commas, d.isStart = false)
    (offset : Nat) (rest : List Cell) :
    Cell.uses offset (commas ++ rest) =
      Cell.uses (offset + (commas.flatMap Cell.tokens).length) rest := by
  induction commas generalizing offset with
  | nil => simp
  | cons d commas ih =>
    have hd := hCommas d List.mem_cons_self
    unfold Cell.isStart at hd
    split at hd
    · exact absurd hd (by simp)
    · next space hLead =>
      rw [List.cons_append, Cell.uses]
      simp only [hLead, ih fun e he => hCommas e (List.mem_cons_of_mem _ he), List.flatMap_cons,
        List.length_append, Nat.add_assoc]

theorem Cell.uses_statement {c : Cell} {gap space : List Token} {word : Token}
    (hLead : c.lead = .start gap word space) {commas : List Cell}
    (hCommas : ∀ d ∈ commas, d.isStart = false) (offset : Nat) (rest : List Cell) :
    Cell.uses offset (c :: (commas ++ rest)) = ((offset + gap.length : Nat) : Int) ::
      Cell.uses (offset + ((c :: commas).flatMap Cell.tokens).length) rest := by
  rw [Cell.uses, hLead]
  simp only [Cell.uses_commas hCommas, List.flatMap_cons, List.length_append, Nat.add_assoc]

theorem Cell.records_append (settings : Settings) (offset : Nat) (cs ds : List Cell) :
    Cell.records settings offset (cs ++ ds) = Cell.records settings offset cs ++
      Cell.records settings (offset + (cs.flatMap Cell.tokens).length) ds := by
  induction cs generalizing offset with
  | nil => simp [Cell.records]
  | cons c cs ih => simp [Cell.records, ih, Nat.add_assoc]

theorem Cell.lead_of_isStart {c : Cell} (h : c.isStart = true) :
    ∃ gap word space, c.lead = .start gap word space := by
  unfold Cell.isStart at h
  split at h
  · exact ⟨_, _, _, ‹_›⟩
  · exact absurd h (by simp)

theorem MayFollow.of_comma {c d : Cell} (h : MayFollow c d) (hd : d.isStart = false) :
    d.kind = c.kind ∧ c.grouped = false ∧ d.grouped = false := by
  unfold Cell.isStart at hd
  unfold MayFollow at h
  split at hd
  · exact absurd hd (by simp)
  · next hLead => rwa [hLead] at h

/-- The cells behind the commas of a statement. -/
theorem CellsOk.commas {c : Cell} {commas : List Cell} (h : CellsOk (c :: commas))
    (hCommas : ∀ d ∈ commas, d.isStart = false) :
    (∀ d ∈ commas, CommaCell d ∧ d.kind = c.kind) ∧ (c.grouped = true → commas = []) := by
  induction commas generalizing c with
  | nil => simp
  | cons d commas ih =>
    have hd := hCommas d List.mem_cons_self
    have hOk : CellsOk (d :: commas) :=
      ⟨fun e he => h.each e (List.mem_cons_of_mem _ he), h.chain.of_cons⟩
    have hFollow : MayFollow c d := (List.isChain_cons_cons.mp h.chain).1
    obtain ⟨hKind, hc, hGrouped⟩ := hFollow.of_comma hd
    obtain ⟨hLater, -⟩ := ih hOk fun e he => hCommas e (List.mem_cons_of_mem _ he)
    refine ⟨?_, by simp [hc]⟩
    intro e he
    rcases List.mem_cons.mp he with rfl | he
    · exact ⟨⟨h.each e (by simp), hd, hGrouped⟩, hKind⟩
    · exact ⟨(hLater e he).1, (hLater e he).2.trans hKind⟩

theorem CellsOk.append_left {cs ds : List Cell} (h : CellsOk (cs ++ ds)) : CellsOk cs :=
  ⟨fun c hc => h.each c (List.mem_append_left _ hc), h.chain.left_of_append⟩

theorem CellsOk.append_right {cs ds : List Cell} (h : CellsOk (cs ++ ds)) : CellsOk ds :=
  ⟨fun c hc => h.each c (List.mem_append_right _ hc), h.chain.right_of_append⟩

/-- A statement behind other cells begins with the terminator of the one before. -/
theorem CellsOk.endsStatement {cs ds : List Cell} {d : Cell} (h : CellsOk (cs ++ d :: ds))
    (hcs : cs ≠ []) {gap space : List Token} {word : Token} (hLead : d.lead = .start gap word space) :
    EndsStatement gap := by
  obtain ⟨front, c, rfl⟩ := List.eq_nil_or_concat cs |>.resolve_left hcs
  have hChain := h.chain
  rw [List.concat_eq_append, List.append_assoc] at hChain
  have hFollow : MayFollow c d := (List.isChain_cons_cons.mp hChain.right_of_append).1
  unfold MayFollow at hFollow
  rwa [hLead] at hFollow

/-- What follows a statement begins with its terminator. -/
theorem CellsOk.terminated {cs ds : List Cell} (h : CellsOk (cs ++ ds)) (hcs : cs ≠ [])
    (hds : ds.head?.all Cell.isStart = true) {after : List Token}
    (hAfter : after.head?.any Token.isTerminator = true) :
    (ds.flatMap Cell.tokens ++ after).head?.any Token.isTerminator = true := by
  cases ds with
  | nil => exact hAfter
  | cons d ds =>
    obtain ⟨gap, word, space, hLead⟩ := Cell.lead_of_isStart (show d.isStart = true by simpa using hds)
    obtain ⟨stop, gap, rfl, hStop, -⟩ := h.endsStatement hcs hLead
    simpa [Cell.tokens, hLead, Lead.tokens] using hStop

/-- The tokens of several statements are parsed as their cells. -/
theorem parseStatements_cells (settings : Settings) {cells : List Cell} {after : List Token}
    (hCells : CellsOk cells) (hStart : cells.head?.all Cell.isStart = true)
    (hAfter : after.head?.any Token.isTerminator = true) (before : List Token) :
    parseStatements settings (before ++ cells.flatMap Cell.tokens ++ after)
        (Cell.uses before.length cells) =
      .ok (Cell.records settings before.length cells) := by
  induction cells, hStart using Cell.statement_induction generalizing before with
  | nil => rfl
  | statement c commas rest hc hCommas hRest ih =>
    obtain ⟨gap, word, space, hLead⟩ := Cell.lead_of_isStart hc
    have hFirst : CellsOk (c :: commas) := hCells.append_left
    obtain ⟨hcs, hSingle⟩ := hFirst.commas hCommas
    have hEnd := @CellsOk.terminated (c :: commas) _ hCells (by simp) hRest _ hAfter
    have hStatement := @parseStatement_cells settings before _ _ _ _ _ _ hLead
      (hFirst.each c List.mem_cons_self) hcs hSingle hEnd
    have hLater := ih (@CellsOk.append_right (c :: commas) _ hCells)
      (before ++ (c :: commas).flatMap Cell.tokens)
    have hTokens : before ++ (c :: (commas ++ rest)).flatMap Cell.tokens ++ after =
        before ++ (c :: commas).flatMap Cell.tokens ++ (rest.flatMap Cell.tokens ++ after) := by
      simp
    have hRecords : Cell.records settings before.length (c :: (commas ++ rest)) =
        Cell.records settings before.length (c :: commas) ++
          Cell.records settings (before.length + ((c :: commas).flatMap Cell.tokens).length) rest := by
      rw [← List.cons_append, Cell.records_append]
    rw [hTokens, Cell.uses_statement hLead hCommas, hRecords]
    rw [List.append_assoc, List.length_append] at hLater
    exact parseStatements_cons_iff.mpr ⟨_, _, hStatement, hLater, rfl⟩

/-! ## Records in slots -/

/-- The indentation of a line that begins behind the tokens; none if no line begins there. -/
def gapIndent (gap : List Token) : Text :=
  match gap.getLast? with
  | some t =>
    if t.isWhitespace && t.content.contains '\n' then Text.afterLast '\n' t.content else []
  | none => []

namespace Cell

/-- The indentation of the statement that a cell belongs to; `current` is the statement of the cell
before. -/
def indent (current : Option OpenStatement) (c : Cell) : Text :=
  match c.lead with
  | .start gap _ _ => gapIndent gap
  | .comma _ => (current.map OpenStatement.indent).getD []

/-- The cell with a record in its slot. -/
def place (layout : Layout) (current : Option OpenStatement) (c : Cell) (r : Record) : Cell :=
  let slot : Cell := ⟨c.lead, r.kind, r.grouped, qualifierTokens r, r.tokens, c.after⟩
  match c.lead with
  | .start _ _ _ => slot
  | .comma _ =>
    if current.any (·.accepts r) then { slot with qualifier := [] }
    else
      let gap : List Token :=
        [⟨.punct, [';']⟩, ⟨.whitespace, layout.lineEnding.text ++ c.indent current⟩]
      { slot with lead := .start gap ⟨.useWord, "use".toList⟩ [oneSpace] }

/-- The statement that the record in the slot belongs to. -/
def statement (current : Option OpenStatement) (c : Cell) (r : Record) : OpenStatement :=
  ⟨r.kind, r.grouped, c.indent current⟩

/-- The cells with records in their slots. -/
def placeAll (layout : Layout) (current : Option OpenStatement) : List (Cell × Record) → List Cell
  | [] => []
  | (c, r) :: rest =>
    c.place layout current r :: placeAll layout (some (c.statement current r)) rest

/-- The patch that puts a record into the slot. -/
def patch (layout : Layout) (current : Option OpenStatement) (c : Cell) (r : Record) : Patch :=
  match c.lead with
  | .start _ _ _ => ⟨c.lead.tokens, c.qualifier ++ c.core, qualifierTokens r ++ r.tokens, c.after⟩
  | .comma _ =>
    if current.any (·.accepts r) then ⟨c.lead.tokens, c.qualifier ++ c.core, r.tokens, c.after⟩
    else ⟨[], c.lead.tokens ++ c.qualifier ++ c.core,
      newStatement layout (c.indent current) ++ qualifierTokens r ++ r.tokens, c.after⟩

/-- The patches that put records into slots. -/
def patches (layout : Layout) (current : Option OpenStatement) : List (Cell × Record) → List Patch
  | [] => []
  | (c, r) :: rest =>
    c.patch layout current r :: patches layout (some (c.statement current r)) rest

@[simp] theorem patch_source (layout : Layout) (current : Option OpenStatement) (c : Cell)
    (r : Record) : (c.patch layout current r).source = c.tokens := by
  unfold patch
  split
  · simp [Patch.source, tokens]
  · split <;> simp [Patch.source, tokens]

@[simp] theorem patch_result (layout : Layout) (current : Option OpenStatement) (c : Cell)
    (r : Record) : (c.patch layout current r).result = (c.place layout current r).tokens := by
  unfold patch place
  split
  · next hLead => simp [Patch.result, tokens, hLead]
  · next hLead =>
    split
    · simp [Patch.result, tokens]
    · simp [Patch.result, tokens, newStatement, Lead.tokens]

theorem patches_source (layout : Layout) (current : Option OpenStatement)
    (pairs : List (Cell × Record)) :
    (patches layout current pairs).flatMap Patch.source =
      (pairs.map Prod.fst).flatMap tokens := by
  induction pairs generalizing current with
  | nil => rfl
  | cons pair rest ih => simp [patches, ih]

theorem patches_result (layout : Layout) (current : Option OpenStatement)
    (pairs : List (Cell × Record)) :
    (patches layout current pairs).flatMap Patch.result =
      (placeAll layout current pairs).flatMap tokens := by
  induction pairs generalizing current with
  | nil => rfl
  | cons pair rest ih => simp [patches, placeAll, ih]

theorem patch_old_ne_nil {c : Cell} (hc : CellOk c) (layout : Layout)
    (current : Option OpenStatement) (r : Record) : (c.patch layout current r).old ≠ [] := by
  have hCore : c.core ≠ [] := hc.core.trimmed.ne_nil
  unfold patch
  split
  · simp [hCore]
  · split <;> simp [hCore]

theorem patches_old_ne_nil {pairs : List (Cell × Record)}
    (hCells : ∀ c ∈ pairs.map Prod.fst, CellOk c) (layout : Layout)
    (current : Option OpenStatement) : ∀ p ∈ patches layout current pairs, p.old ≠ [] := by
  induction pairs generalizing current with
  | nil => simp [patches]
  | cons pair rest ih =>
    intro p hp
    rcases List.mem_cons.mp hp with rfl | hp
    · exact patch_old_ne_nil (hCells _ (by simp)) _ _ _
    · exact ih (fun c hc => hCells c (by simp_all)) _ p hp

end Cell

/-! ## The planned edits -/

/-- The token in front of a slot: the `use` or the comma. -/
theorem tokenBefore_append {before space rest : List Token} {t : Token} {slot : Record}
    (hStart : slot.start = ((before ++ t :: space).length : Nat)) (ht : t.isMeaningful = true)
    (hSpace : AllSpace space) :
    tokenBefore (before ++ t :: space ++ rest) slot = .ok (some ((before.length : Nat), t)) := by
  have hPrevious := previousMeaningful_append (before ++ t :: space) rest
  rw [lastIndex?_append ht hSpace.not_meaningful] at hPrevious
  have hToken : tokenAt (before ++ t :: space ++ rest) (before.length : Nat) = .ok t := by
    rw [List.append_assoc, List.cons_append]
    exact tokenAt_append _ _ _
  rw [tokenBefore, hStart, hPrevious]
  show ((tokenAt _ _).bind _) = _
  rw [show (Int.ofNat before.length) = (before.length : Int) from rfl, hToken]
  rfl

theorem lineIndent_append {before gap : List Token} (hFirst : gap = [] → before = [])
    (rest : List Token) :
    lineIndent (before ++ gap ++ rest) (before.length + gap.length : Nat) = .ok (gapIndent gap) := by
  rcases List.eq_nil_or_concat gap with rfl | ⟨front, t, rfl⟩
  · obtain rfl := hFirst rfl
    rfl
  · rw [List.concat_eq_append]
    have hToken : tokenAt (before ++ (front ++ [t]) ++ rest) ((before ++ front).length : Nat) =
        .ok t := by
      have := tokenAt_append (before ++ front) t rest
      simpa using this
    have hPos : ((before.length + (front ++ [t]).length : Nat) : Int) =
        ((before ++ front).length : Nat) + 1 := by
      simp only [List.length_append, List.length_cons, List.length_nil]
      omega
    have hZero : (((before ++ front).length : Nat) + 1 == (0 : Int)) = false := by
      rw [beq_eq_false_iff_ne]
      omega
    rw [lineIndent, hPos, hZero, Int.add_sub_cancel]
    simp only [Bool.false_eq_true, if_false, hToken, bind, Except.bind, gapIndent,
      List.getLast?_concat]
    split <;> rfl

/-- In front of the slot of a cell stands the last token of its lead that is not white space. -/
theorem tokenBefore_cell (settings : Settings) {before gap space : List Token} {t : Token} {c : Cell}
    (hLead : c.lead.tokens = gap ++ t :: space) (ht : t.isMeaningful = true)
    (hSpace : AllSpace space) (after : List Token) :
    tokenBefore (before ++ c.tokens ++ after) (c.record settings before.length) =
      .ok (some (((before ++ gap).length : Nat), t)) := by
  have hTokens : before ++ c.tokens ++ after =
      (before ++ gap) ++ t :: space ++ (c.qualifier ++ c.core ++ c.after ++ after) := by
    simp [Cell.tokens, hLead]
  have hStart : (c.record settings before.length).start =
      ((before ++ gap ++ t :: space).length : Nat) := by
    simp [Cell.record, hLead]
  rw [hTokens]
  exact tokenBefore_append hStart ht hSpace

/-- The edit that is planned for a slot is the patch of its cell. -/
theorem planSlot_cell (settings : Settings) {before : List Token} {c : Cell} (hc : CellOk c)
    (hFirst : ∀ word space, c.lead = .start [] word space → before = [])
    (current : Option OpenStatement) (r : Record) (after : List Token) :
    planSlot settings.layout (before ++ c.tokens ++ after) current
        (c.record settings before.length) r =
      .ok ((c.patch settings.layout current r).edit before.length, c.statement current r) := by
  have hOk := hc.lead
  have hStop : (c.record settings before.length).last + 1 = (before.length +
      c.lead.tokens.length + (c.qualifier ++ c.core).length : Nat) := by
    simp only [Cell.record, List.length_append]
    omega
  have hStart : (c.record settings before.length).start =
      (before.length + c.lead.tokens.length : Nat) := rfl
  -- the token in front of the slot tells whether a statement starts or goes on
  cases hLead : c.lead with
  | start gap word space =>
    rw [hLead] at hOk
    obtain ⟨-, hWord, hSpace, -⟩ := hOk
    have hMeaning : word.isMeaningful = true := by
      simp [Token.isMeaningful, Token.isWhitespace, Token.isComment, hWord]
    have hComma : word.isComma = false := by
      simp [Token.isComma, Token.isPunct, hWord]
    have hBefore := @tokenBefore_cell settings before gap space word c (by rw [hLead]; rfl) hMeaning
      hSpace after
    have hIndent : lineIndent (before ++ c.tokens ++ after) ((before ++ gap).length : Nat) =
        .ok (gapIndent gap) := by
      have hTokens : before ++ c.tokens ++ after =
          before ++ gap ++ (word :: space ++ c.qualifier ++ c.core ++ c.after ++ after) := by
        simp [Cell.tokens, hLead, Lead.tokens]
      rw [hTokens, List.length_append]
      exact lineIndent_append (fun hGap => hFirst word space (by rw [hLead, hGap])) _
    simp only [planSlot, hBefore, bind, Except.bind, hComma, Bool.false_eq_true, if_false,
      startStatement, hIndent, pure, Except.pure, hStart, hStop, Cell.patch, hLead, Patch.edit,
      Cell.statement, Cell.indent]
  | comma space =>
    rw [hLead] at hOk
    have hBefore := @tokenBefore_cell settings before [] space commaToken c (by rw [hLead]; rfl)
      (by decide) hOk.1 after
    have hComma : commaToken.isComma = true := by decide
    simp only [List.append_nil] at hBefore
    simp only [planSlot, hBefore, bind, Except.bind, hComma, if_true, continueStatement, pure,
      Except.pure, hStart, hStop, Cell.patch, hLead, Cell.statement, Cell.indent]
    split
    · simp [Patch.edit]
    · simp [Patch.edit, Nat.add_assoc]

/-- The edits that are planned for slots are the patches of their cells. -/
theorem planFrom_cells (settings : Settings) {pairs : List (Cell × Record)}
    (hCells : CellsOk (pairs.map Prod.fst)) {before : List Token}
    (hFirst : ∀ c ∈ (pairs.map Prod.fst).head?, ∀ word space,
      c.lead = .start [] word space → before = [])
    (current : Option OpenStatement) (after : List Token) :
    planFrom settings.layout (before ++ (pairs.map Prod.fst).flatMap Cell.tokens ++ after) current
        ((Cell.records settings before.length (pairs.map Prod.fst)).zip (pairs.map Prod.snd)) =
      .ok (Patch.edits before.length (Cell.patches settings.layout current pairs)) := by
  induction pairs generalizing before current with
  | nil => rfl
  | cons pair rest ih =>
    obtain ⟨c, r⟩ := pair
    have hc : CellOk c := hCells.each c (by simp)
    have hSlot := planSlot_cell settings hc (hFirst c (by simp)) current r
      ((rest.map Prod.fst).flatMap Cell.tokens ++ after)
    -- only the first statement of all may have nothing in front of it
    have hNext : ∀ d ∈ (rest.map Prod.fst).head?, ∀ word space,
        d.lead = .start [] word space → before ++ c.tokens = [] := by
      intro d hd word space hLead
      exfalso
      have hFollow : MayFollow c d := by
        obtain ⟨ds, hds⟩ : ∃ ds, rest.map Prod.fst = d :: ds := by
          cases hList : rest.map Prod.fst with
          | nil => simp [hList] at hd
          | cons e ds =>
            rw [hList] at hd
            exact ⟨ds, by simpa using hd⟩
        have hChain := hCells.chain
        rw [List.map_cons, hds] at hChain
        exact (List.isChain_cons_cons.mp hChain).1
      simp [MayFollow, hLead, EndsStatement] at hFollow
    have hRest : CellsOk (rest.map Prod.fst) :=
      ⟨fun d hd => hCells.each d (List.mem_cons_of_mem _ hd), hCells.chain.of_cons⟩
    have hLater := ih hRest hNext (some (c.statement current r))
    simp only [List.map_cons, List.flatMap_cons, Cell.records, List.zip_cons_cons, planFrom,
      Cell.patches, Patch.edits, Cell.patch_source, List.append_assoc, List.length_append] at *
    rw [hSlot]
    simp only [bind, Except.bind, hLater]
    rfl

/-! ## The rewritten cells -/

/-- A record that can be written into a slot and parsed back from it. -/
structure RecordOk (settings : Settings) (r : Record) : Prop where
  core : IsCore r.tokens
  shape : if r.grouped then IsGroup r.tokens else IsName r.tokens
  arranged : r.grouped = true → arrangeGroup settings r.tokens = r.tokens

theorem CellOk.recordOk {c : Cell} (hc : CellOk c) (settings : Settings) (offset : Nat) :
    RecordOk settings (c.record settings offset) := by
  have hShape := hc.shape
  have hCore := hc.core
  cases hGroup : c.grouped with
  | true =>
    rw [if_pos hGroup] at hShape
    refine ⟨?_, ?_, fun _ => ?_⟩
    · simpa [Cell.record, Cell.arranged, hGroup] using hShape.isCore_arranged hCore settings
    · simpa [Cell.record, Cell.arranged, hGroup] using hShape.arranged settings
    · simpa [Cell.record, Cell.arranged, hGroup] using hShape.arrangeGroup_idem settings
  | false =>
    rw [if_neg (by simp [hGroup])] at hShape
    refine ⟨?_, ?_, fun h => ?_⟩
    · simpa [Cell.record, Cell.arranged, hGroup] using hCore
    · simpa [Cell.record, Cell.arranged, hGroup] using hShape
    · simp [Cell.record, hGroup] at h

theorem Cell.exists_cell_of_mem_records {settings : Settings} {cells : List Cell} {offset : Nat}
    {r : Record} (h : r ∈ Cell.records settings offset cells) :
    ∃ c ∈ cells, ∃ at', r = c.record settings at' := by
  induction cells generalizing offset with
  | nil => simp [Cell.records] at h
  | cons c cs ih =>
    rcases List.mem_cons.mp h with rfl | h
    · exact ⟨c, List.mem_cons_self, offset, rfl⟩
    · obtain ⟨d, hd, at', hr⟩ := ih h
      exact ⟨d, List.mem_cons_of_mem _ hd, at', hr⟩

theorem Cell.recordOk_of_mem {settings : Settings} {cells : List Cell}
    (hCells : ∀ c ∈ cells, CellOk c) {offset : Nat} {r : Record}
    (hr : r ∈ Cell.records settings offset cells) : RecordOk settings r := by
  obtain ⟨c, hc, at', rfl⟩ := Cell.exists_cell_of_mem_records hr
  exact (hCells c hc).recordOk settings at'

/-- The qualifier that is written for a record announces its kind. -/
theorem isQualifierOf_qualifierTokens (r : Record) : IsQualifierOf r.kind (qualifierTokens r) := by
  unfold IsQualifierOf qualifierTokens
  cases r.kind.qualifierKind? with
  | none => rfl
  | some word =>
    refine ⟨_, _, rfl, rfl, ?_⟩
    split
    · exact AllSpace.nil
    · exact AllSpace.singleton _

theorem CellOk.place {settings : Settings} {c : Cell} {r : Record} (hc : CellOk c)
    (hr : RecordOk settings r) (current : Option OpenStatement) :
    CellOk (c.place settings.layout current r) := by
  have hOk := hc.lead
  have hQualifier := isQualifierOf_qualifierTokens r
  unfold Cell.place
  cases hLead : c.lead with
  | start gap word space =>
    rw [hLead] at hOk
    exact ⟨⟨hOk.1, hOk.2.1, hOk.2.2.1, hQualifier⟩, hr.core, hr.shape, hc.after⟩
  | comma space =>
    rw [hLead] at hOk
    simp only
    split
    · exact ⟨⟨hOk.1, rfl⟩, hr.core, hr.shape, hc.after⟩
    · refine ⟨⟨?_, rfl, AllSpace.singleton _, hQualifier⟩, hr.core, hr.shape, hc.after⟩
      simp

@[simp] theorem Cell.place_kind (layout : Layout) (current : Option OpenStatement) (c : Cell)
    (r : Record) : (c.place layout current r).kind = r.kind := by
  unfold Cell.place
  split
  · rfl
  · simp only
    split <;> rfl

@[simp] theorem Cell.place_grouped (layout : Layout) (current : Option OpenStatement) (c : Cell)
    (r : Record) : (c.place layout current r).grouped = r.grouped := by
  unfold Cell.place
  split
  · rfl
  · simp only
    split <;> rfl

@[simp] theorem Cell.place_core (layout : Layout) (current : Option OpenStatement) (c : Cell)
    (r : Record) : (c.place layout current r).core = r.tokens := by
  unfold Cell.place
  split
  · rfl
  · simp only
    split <;> rfl

theorem Cell.place_lead_of_start {c : Cell} {gap space : List Token} {word : Token}
    (h : c.lead = .start gap word space) (layout : Layout) (current : Option OpenStatement)
    (r : Record) : (c.place layout current r).lead = .start gap word space := by
  unfold Cell.place
  simp [h]

theorem Cell.place_lead_of_comma {c : Cell} {space : List Token} (h : c.lead = .comma space)
    (layout : Layout) (current : Option OpenStatement) (r : Record) :
    (c.place layout current r).lead =
      if current.any (·.accepts r) then .comma space
      else .start [⟨.punct, [';']⟩, ⟨.whitespace, layout.lineEnding.text ++ c.indent current⟩]
        ⟨.useWord, "use".toList⟩ [oneSpace] := by
  unfold Cell.place
  simp only [h]
  split <;> rfl

/-- A rewritten cell may follow the rewritten cell before it. -/
theorem MayFollow.place {layout : Layout} {c d c' : Cell} {r : Record} {s : OpenStatement}
    (h : MayFollow c d) (hKind : c'.kind = s.kind) (hGrouped : c'.grouped = s.grouped) :
    MayFollow c' (d.place layout (some s) r) := by
  unfold MayFollow at *
  rw [Cell.place_kind, Cell.place_grouped]
  cases hLead : d.lead with
  | start gap word space =>
    rw [hLead] at h
    rw [Cell.place_lead_of_start hLead]
    exact h
  | comma space =>
    rw [Cell.place_lead_of_comma hLead, Option.any_some]
    cases hAccepts : s.accepts r with
    | true =>
      simp only [OpenStatement.accepts, Bool.and_eq_true, beq_iff_eq, Bool.not_eq_true',
        Bool.or_eq_false_iff] at hAccepts
      exact ⟨hAccepts.1.trans hKind.symm, hGrouped.trans hAccepts.2.2, hAccepts.2.1⟩
    | false => exact ⟨_, _, rfl, by decide, fun h => by simp at h⟩

theorem Cell.placeAll_chain {layout : Layout} {pairs : List (Cell × Record)} {c c' : Cell}
    {s : OpenStatement} (hChain : (c :: pairs.map Prod.fst).IsChain MayFollow)
    (hKind : c'.kind = s.kind) (hGrouped : c'.grouped = s.grouped) :
    (c' :: Cell.placeAll layout (some s) pairs).IsChain MayFollow := by
  induction pairs generalizing c c' s with
  | nil => simp [Cell.placeAll]
  | cons pair rest ih =>
    obtain ⟨d, r⟩ := pair
    rw [List.map_cons, List.isChain_cons_cons] at hChain
    rw [Cell.placeAll, List.isChain_cons_cons]
    exact ⟨hChain.1.place hKind hGrouped, ih hChain.2 (by simp [Cell.statement])
      (by simp [Cell.statement])⟩

/-- Cells with records in their slots are parsed back. -/
theorem CellsOk.placeAll {settings : Settings} {pairs : List (Cell × Record)}
    (hCells : CellsOk (pairs.map Prod.fst)) (hRecords : ∀ r ∈ pairs.map Prod.snd, RecordOk settings r)
    (current : Option OpenStatement) : CellsOk (Cell.placeAll settings.layout current pairs) := by
  refine ⟨?_, ?_⟩
  · have hEach := hCells.each
    clear hCells
    induction pairs generalizing current with
    | nil => simp [Cell.placeAll]
    | cons pair rest ih =>
      intro d hd
      rcases List.mem_cons.mp hd with rfl | hd
      · exact (hEach pair.1 (by simp)).place (hRecords pair.2 (by simp)) current
      · exact ih (fun r hr => hRecords r (by simp_all)) _ (fun c hc => hEach c (by simp_all)) d hd
  · cases pairs with
    | nil => simp [Cell.placeAll]
    | cons pair rest =>
      exact Cell.placeAll_chain hCells.chain (by simp [Cell.statement]) (by simp [Cell.statement])

/-! ## Ordering a sub-group -/

/-- What a record imports, apart from where it stands. -/
def Record.item (r : Record) : ImportKind × Bool × List Token :=
  (r.kind, r.grouped, r.tokens)

namespace Cell

/-- The cells of a sub-group with their records in order. -/
def reorder (settings : Settings) (offset : Nat) (cells : List Cell) : List Cell :=
  placeAll settings.layout none
    (cells.zip (orderRecords settings (records settings offset cells)))

theorem length_records (settings : Settings) (offset : Nat) (cells : List Cell) :
    (records settings offset cells).length = cells.length := by
  induction cells generalizing offset with
  | nil => rfl
  | cons c cs ih => simp [records, ih]

theorem length_orderRecords (settings : Settings) (offset : Nat) (cells : List Cell) :
    (orderRecords settings (records settings offset cells)).length = cells.length := by
  rw [(orderRecords_perm settings _).length_eq, length_records]

theorem map_fst_zip_order (settings : Settings) (offset : Nat) (cells : List Cell) :
    (cells.zip (orderRecords settings (records settings offset cells))).map Prod.fst = cells :=
  List.map_fst_zip (length_orderRecords settings offset cells).ge

theorem map_snd_zip_order (settings : Settings) (offset : Nat) (cells : List Cell) :
    (cells.zip (orderRecords settings (records settings offset cells))).map Prod.snd =
      orderRecords settings (records settings offset cells) :=
  List.map_snd_zip (length_orderRecords settings offset cells).le

theorem recordOk_order {settings : Settings} {cells : List Cell} (hCells : CellsOk cells)
    (offset : Nat) :
    ∀ r ∈ orderRecords settings (records settings offset cells), RecordOk settings r :=
  fun _ hr => recordOk_of_mem hCells.each ((orderRecords_perm settings _).mem_iff.mp hr)

theorem records_placeAll {settings : Settings} {pairs : List (Cell × Record)}
    (hRecords : ∀ r ∈ pairs.map Prod.snd, RecordOk settings r) (current : Option OpenStatement)
    (offset : Nat) :
    (records settings offset (placeAll settings.layout current pairs)).map Record.item =
      (pairs.map Prod.snd).map Record.item := by
  induction pairs generalizing current offset with
  | nil => rfl
  | cons pair rest ih =>
    obtain ⟨c, r⟩ := pair
    have hArranged : (c.place settings.layout current r).arranged settings = r.tokens := by
      rw [arranged, place_grouped, place_core]
      split
      · next hGroup => exact (hRecords r (by simp)).arranged hGroup
      · rfl
    simp only [placeAll, records, List.map_cons, ih fun r hr => hRecords r (by simp_all)]
    simp [Record.item, record, hArranged]

/-- The records of reordered cells are the records of the cells, in order. -/
theorem records_reorder {settings : Settings} {cells : List Cell} (hCells : CellsOk cells)
    (offset newOffset : Nat) :
    (records settings newOffset (reorder settings offset cells)).map Record.item =
      (orderRecords settings (records settings offset cells)).map Record.item := by
  rw [reorder, records_placeAll, map_snd_zip_order]
  rw [map_snd_zip_order]
  exact recordOk_order hCells offset

end Cell

/-- Reordered cells are parsed back. -/
theorem CellsOk.reorder {cells : List Cell} (h : CellsOk cells) (settings : Settings)
    (offset : Nat) : CellsOk (Cell.reorder settings offset cells) := by
  apply CellsOk.placeAll
  · rwa [Cell.map_fst_zip_order]
  · rw [Cell.map_snd_zip_order]
    exact Cell.recordOk_order h offset

/-- The number of slots that are written anew when records are put into their order. -/
def Cell.rewritten (settings : Settings) (offset : Nat) (cells : List Cell) : Nat :=
  (Cell.patches settings.layout none
    (cells.zip (orderRecords settings (Cell.records settings offset cells)))).countP
      fun p => p.old ≠ p.new

/-- A patch that leaves the tokens of its cell as they are writes what is there already. -/
theorem Cell.patch_same {layout : Layout} {current : Option OpenStatement} {c : Cell} {r : Record}
    (h : c.place layout current r = c) :
    (c.patch layout current r).new = (c.patch layout current r).old := by
  have hTokens : (c.patch layout current r).result = (c.patch layout current r).source := by
    rw [Cell.patch_result, Cell.patch_source, h]
  rw [Patch.result, Patch.source] at hTokens
  exact List.append_cancel_left (List.append_cancel_right hTokens)

theorem Cell.patches_same {layout : Layout} {current : Option OpenStatement}
    {pairs : List (Cell × Record)}
    (h : Cell.placeAll layout current pairs = pairs.map Prod.fst) :
    ∀ p ∈ Cell.patches layout current pairs, p.new = p.old := by
  induction pairs generalizing current with
  | nil => simp [Cell.patches]
  | cons pair rest ih =>
    rw [Cell.placeAll, List.map_cons] at h
    obtain ⟨hHere, hLater⟩ := List.cons.inj h
    intro p hp
    rcases List.mem_cons.mp hp with rfl | hp
    · exact Cell.patch_same hHere
    · exact ih hLater p hp

/-- Cells that ordering leaves alone have no slot that is written anew. -/
theorem Cell.rewritten_of_reorder {settings : Settings} {offset : Nat} {cells : List Cell}
    (h : Cell.reorder settings offset cells = cells) : Cell.rewritten settings offset cells = 0 := by
  have hPlaced : Cell.placeAll settings.layout none
      (cells.zip (orderRecords settings (Cell.records settings offset cells))) =
        (cells.zip (orderRecords settings (Cell.records settings offset cells))).map Prod.fst := by
    rw [Cell.map_fst_zip_order]
    exact h
  rw [Cell.rewritten, List.countP_eq_zero]
  intro p hp
  simp [Cell.patches_same hPlaced p hp]

/-- Ordering a sub-group reorders its cells and leaves all other tokens alone. -/
theorem orderSubGroup_cells (settings : Settings) {before after : List Token} {cells : List Cell}
    (hCells : CellsOk cells) (hStart : cells.head?.all Cell.isStart = true)
    (hFirst : ∀ c ∈ cells.head?, ∀ word space, c.lead = .start [] word space → before = [])
    (hAfter : after.head?.any Token.isTerminator = true) (run count changed : Nat) :
    orderSubGroup settings ⟨before ++ cells.flatMap Cell.tokens ++ after, count, changed⟩
        ⟨run, Cell.uses before.length cells⟩ =
      .ok ⟨before ++ (Cell.reorder settings before.length cells).flatMap Cell.tokens ++ after,
        count + cells.length, changed + Cell.rewritten settings before.length cells⟩ := by
  have hParse := parseStatements_cells settings hCells hStart hAfter before
  have hFst := Cell.map_fst_zip_order settings before.length cells
  have hSnd := Cell.map_snd_zip_order settings before.length cells
  rw [Cell.rewritten]
  generalize hPairs : cells.zip (orderRecords settings (Cell.records settings before.length cells)) =
    pairs at hFst hSnd
  have hPlan := planFrom_cells settings (hFst.symm ▸ hCells) (hFst.symm ▸ hFirst) none after
  have hApply := applyEdits_patches
    (Cell.patches_old_ne_nil (hFst.symm ▸ hCells.each) settings.layout none) before after (.refl _)
  rw [Cell.patches_source, Cell.patches_result, hFst] at hApply
  rw [hFst, hSnd] at hPlan
  simp only [orderSubGroup, hParse, planRecords, planEdits, hPlan, hApply, bind, Except.bind, pure,
    Except.pure, Cell.length_records, Cell.reorder, hPairs]

end UseOrder
