import UseOrder.Proofs.Movable

/-!
# Names that can be written elsewhere

Not every name can be moved: one that ends in a line comment takes what follows into the comment,
and one that begins with a qualifier's word announces a kind behind a `use`. `isWritable` says of the
tokens of an import that its names can be moved, and `Steady` of a whole source text that its
imports can. Only for a group that the settings lay out anew it matters where its comments stand.
`writable_cells` and `declared_cells` tell what all this means for the cells.
-/

namespace UseOrder

/-! ## The conditions -/

/-- The names of an import between its commas. A brace group is one name. -/
def namesOf (body : List Token) : List (List Token) :=
  if body.any Token.isGroupBrace then [body] else splitAtCommas body

/-- The tokens between the braces of a group. -/
def insideBraces (ts : List Token) : List Token :=
  ((ts.dropWhile (·.kind != .groupOpen)).drop 1).takeWhile (·.kind != .groupClose)

/-- White space follows the `use`. -/
def isSpaced (body : List Token) : Bool :=
  body.head?.any Token.isWhitespace

/-- No name ends in a line comment. -/
def isClosed (body : List Token) : Bool :=
  (namesOf body).all fun name => !(trimEnd name).getLast?.any Token.isLineComment

/-- No name of a class begins with a word that is taken for a qualifier behind a `use`. -/
def isNamed (body : List Token) : Bool :=
  (body.dropWhile Token.isWhitespace).head?.any Token.isQualifier ||
    (namesOf body).all fun name => !firstQualifies (name.dropWhile Token.isWhitespace)

/-- Between braces comments stand beside the names, unless the group is kept as it is. -/
def isRemarked (settings : Settings) (body : List Token) : Bool :=
  keepsInside settings (insideBraces body) ||
    (splitAtCommas (insideBraces body)).all commentsOutside

/-- The names of an import can be moved. -/
def isWritable (settings : Settings) (body : List Token) : Bool :=
  isSpaced body && isClosed body && isNamed body && isRemarked settings body

/-- The names of all imports can be moved. -/
def writable (settings : Settings) : List Token → Bool
  | [] => true
  | t :: rest =>
    (t.kind != .useWord || isWritable settings (rest.takeWhile fun u => !u.isTerminator)) &&
      writable settings rest

/-- No import stands in a namespace declaration that has not ended; `pending` tells whether one is
going on. -/
def importsDeclared (pending : Bool) : List Token → Bool
  | [] => true
  | t :: rest =>
    (t.kind != .useWord || !pending) && importsDeclared (declaringAfter pending t) rest

/-- A source text whose imports can be moved and read again. -/
structure Steady (settings : Settings) (source : Text) : Prop where
  wellFormed : wellFormed (classify (lex source)) = true
  closed : stringsClosed (lex source) = true
  writable : writable settings (classify (lex source)) = true
  declared : importsDeclared false (classify (lex source)) = true

/-! ## Cells that can be written elsewhere -/

/-- What `isWritable` says about one cell. -/
structure Cell.Writable (settings : Settings) (c : Cell) : Prop where
  spaced : c.UseSpaced
  closed : c.core.getLast?.any Token.isLineComment = false
  named : c.kind = .classKind → firstQualifies c.core = false
  remarked : keepsInside settings (insideBraces c.core) = true ∨
    ∀ piece ∈ splitAtCommas (insideBraces c.core), commentsOutside piece = true

theorem AllSpace.not_groupBrace {ts : List Token} (h : AllSpace ts) :
    ∀ t ∈ ts, t.isGroupBrace = false := by
  intro t ht
  have hKind : t.kind = .whitespace := by simpa [Token.isWhitespace] using h t ht
  simp [Token.isGroupBrace, hKind]

/-- White space around a name does not change whether it begins with a qualifier's word. -/
theorem firstQualifies_spaced {space core after : List Token} (hSpace : AllSpace space)
    (hCore : IsCore core) (hAfter : AllSpace after) :
    firstQualifies ((space ++ (core ++ after)).dropWhile Token.isWhitespace) =
      firstQualifies core := by
  obtain ⟨t, rest, rfl, ht, -⟩ := hCore.first
  have hHead : (rest ++ after).head?.any (·.kind == .separator) =
      rest.head?.any (·.kind == .separator) := by
    cases rest with
    | nil =>
      cases after with
      | nil => rfl
      | cons u more =>
        have hu := hAfter u List.mem_cons_self
        rw [Token.isWhitespace, beq_iff_eq] at hu
        simp [hu]
    | cons u rest => rfl
  rw [List.dropWhile_append_of_pos hSpace, List.cons_append,
    List.dropWhile_cons_of_neg (by simp [ht]), firstQualifies, firstQualifies,
    Context.qualifierKind?, Context.qualifierKind?, hHead]

/-- The names of a statement without braces. -/
theorem splitAtCommas_cells {first : List Token} (hFirst : ∀ t ∈ first, t.isComma = false)
    {commas : List Cell} (h : ∀ d ∈ commas, CommaCell d) :
    splitAtCommas (first ++ commas.flatMap Cell.tokens) =
      first :: commas.map fun d => d.tokens.tail := by
  induction commas generalizing first with
  | nil => simpa using splitAtCommas_of_no_comma hFirst
  | cons d commas ih =>
    have hd := h d List.mem_cons_self
    obtain ⟨space, hSpace, -, hTokens⟩ := hd.tokens_eq
    have hName : ∀ t ∈ space ++ d.core ++ d.after, t.isComma = false := by
      intro t ht
      simp only [List.mem_append, or_assoc] at ht
      rcases ht with ht | ht | ht
      · exact hSpace.not_comma t ht
      · exact (hd.isName t ht).1
      · exact hd.ok.after.not_comma t ht
    rw [List.flatMap_cons, hTokens, List.cons_append, splitAtCommas_append_comma hFirst,
      ih hName fun e he => h e (List.mem_cons_of_mem _ he), List.map_cons, hTokens]
    rfl

theorem IsQualifierOf.not_comma {kind : ImportKind} {ts : List Token} (h : IsQualifierOf kind ts) :
    ∀ t ∈ ts, t.isComma = false ∧ t.isGroupBrace = false := by
  unfold IsQualifierOf at h
  cases kind with
  | classKind =>
    simp only [ImportKind.qualifierKind?] at h
    simp [h]
  | constKind | functionKind =>
    obtain ⟨q, space, rfl, hq, hSpace⟩ := h
    intro t ht
    rcases List.mem_cons.mp ht with rfl | ht
    · simp [Token.isComma, Token.isPunct, Token.isGroupBrace, hq]
    · exact ⟨hSpace.not_comma t ht, hSpace.not_groupBrace t ht⟩

/-- What stands between the braces of a group. -/
theorem insideBraces_eq {before front inside back : List Token} {opening closing : Token}
    (hBefore : ∀ t ∈ before ++ front, t.isGroupBrace = false)
    (hOpening : opening.kind = .groupOpen) (hInside : ∀ t ∈ inside, t.isGroupBrace = false)
    (hClosing : closing.kind = .groupClose) :
    insideBraces (before ++ (front ++ opening :: (inside ++ closing :: back))) = inside := by
  have hOpen : ∀ t ∈ before ++ front, (t.kind != .groupOpen) = true := by
    intro t ht
    have hBrace := hBefore t ht
    simp only [Token.isGroupBrace, Bool.or_eq_false_iff] at hBrace
    simp [bne, hBrace.1]
  have hClose : ∀ t ∈ inside, (t.kind != .groupClose) = true := by
    intro t ht
    have hBrace := hInside t ht
    simp only [Token.isGroupBrace, Bool.or_eq_false_iff] at hBrace
    simp [bne, hBrace.2]
  rw [insideBraces, ← List.append_assoc, List.dropWhile_append_of_pos hOpen,
    List.dropWhile_cons_of_neg (by simp [hOpening]), List.drop_succ_cons, List.drop_zero,
    List.takeWhile_append_of_pos hClose, List.takeWhile_cons_of_neg (by simp [hClosing]),
    List.append_nil]

theorem insideBraces_of_name {ts : List Token} (h : ∀ t ∈ ts, t.isGroupBrace = false) :
    insideBraces ts = [] := by
  have hNone : ts.dropWhile (·.kind != .groupOpen) = [] := by
    rw [List.dropWhile_eq_nil_iff]
    intro t ht
    have hBrace := h t ht
    simp only [Token.isGroupBrace, Bool.or_eq_false_iff] at hBrace
    simp [bne, hBrace.1]
  rw [insideBraces, hNone]
  rfl

section Statement

variable {settings : Settings} {c : Cell} {commas : List Cell}

/-- The import of a class has no qualifier. -/
theorem CellOk.qualifier_of_classKind (hc : CellOk c) {gap space : List Token} {word : Token}
    (hLead : c.lead = .start gap word space) (hKind : c.kind = .classKind) : c.qualifier = [] := by
  have hQualifier := hc.lead
  rw [hLead, hKind] at hQualifier
  exact hQualifier.2.2.2

theorem Cell.statementBody_start {gap space : List Token} {word : Token}
    (hLead : c.lead = .start gap word space) :
    c.statementBody commas =
      (space ++ c.qualifier) ++ (c.core ++ c.after) ++ commas.flatMap Cell.tokens := by
  simp [Cell.statementBody, hLead]

/-- A brace group is the only name of its statement. -/
theorem CellOk.namesOf_group (hc : CellOk c) {gap space : List Token} {word : Token}
    (hLead : c.lead = .start gap word space) (hGrouped : c.grouped = true) :
    namesOf (c.statementBody []) = [(space ++ c.qualifier) ++ (c.core ++ c.after)] := by
  have hShape := hc.shape
  rw [if_pos hGrouped] at hShape
  obtain ⟨front, opening, inside, closing, back, hCore, hOpening, -⟩ := hShape
  have hBrace : (c.statementBody []).any Token.isGroupBrace = true := by
    rw [Cell.statementBody_start hLead, List.any_eq_true]
    exact ⟨opening, by simp [hCore], by simp [Token.isGroupBrace, hOpening]⟩
  rw [namesOf, if_pos hBrace, Cell.statementBody_start hLead]
  simp

/-- The names of a statement without braces stand between its commas. -/
theorem CellOk.namesOf_list (hc : CellOk c) {gap space : List Token} {word : Token}
    (hLead : c.lead = .start gap word space) (hGrouped : c.grouped = false)
    (hCommas : ∀ d ∈ commas, CommaCell d) :
    namesOf (c.statementBody commas) =
      ((space ++ c.qualifier) ++ (c.core ++ c.after)) :: commas.map fun d => d.tokens.tail := by
  have hStart := hc.lead
  rw [hLead] at hStart
  have hName : IsName c.core := by
    have hShape := hc.shape
    rwa [if_neg (by simp [hGrouped])] at hShape
  have hFirst : ∀ t ∈ (space ++ c.qualifier) ++ (c.core ++ c.after),
      t.isComma = false ∧ t.isGroupBrace = false := by
    intro t ht
    simp only [List.mem_append, or_assoc] at ht
    rcases ht with ht | ht | ht | ht
    · exact ⟨hStart.2.2.1.not_comma t ht, hStart.2.2.1.not_groupBrace t ht⟩
    · exact hStart.2.2.2.not_comma t ht
    · exact hName t ht
    · exact ⟨hc.after.not_comma t ht, hc.after.not_groupBrace t ht⟩
  have hNone : (c.statementBody commas).any Token.isGroupBrace = false := by
    rw [Cell.statementBody_start hLead, List.any_eq_false]
    intro t ht
    rw [List.mem_append, List.mem_flatMap] at ht
    rcases ht with ht | ⟨d, hd, ht⟩
    · simp [(hFirst t ht).2]
    · simp [Token.not_brace_of_isPlain ((hCommas d hd).isPlain t ht)]
  rw [namesOf, hNone, Cell.statementBody_start hLead]
  exact splitAtCommas_cells (fun t ht => (hFirst t ht).1) hCommas

/-- Every name of a statement, behind its qualifier and white space. -/
theorem exists_name (hOk : CellsOk (c :: commas)) (hc : c.isStart = true)
    (hCommas : ∀ d ∈ commas, d.isStart = false) :
    ∀ d ∈ c :: commas, ∃ lead, lead ++ (d.core ++ d.after) ∈ namesOf (c.statementBody commas) ∧
      (d.kind = .classKind → AllSpace lead) := by
  obtain ⟨gap, word, space, hLead⟩ := Cell.lead_of_isStart hc
  obtain ⟨hEach, hSingle⟩ := hOk.commas hCommas
  have hcOk := hOk.each c List.mem_cons_self
  have hClass : c.kind = .classKind → AllSpace (space ++ c.qualifier) := by
    intro hKind
    have hStart := hcOk.lead
    rw [hLead] at hStart
    rw [hcOk.qualifier_of_classKind hLead hKind, List.append_nil]
    exact hStart.2.2.1
  intro d hd
  cases hGrouped : c.grouped with
  | true =>
    obtain rfl := hSingle hGrouped
    obtain rfl : d = c := by simpa using hd
    rw [hcOk.namesOf_group hLead hGrouped]
    exact ⟨space ++ d.qualifier, List.mem_cons_self, hClass⟩
  | false =>
    rw [hcOk.namesOf_list hLead hGrouped fun e he => (hEach e he).1]
    rcases List.mem_cons.mp hd with rfl | hd
    · exact ⟨space ++ d.qualifier, List.mem_cons_self, hClass⟩
    · obtain ⟨more, hMore, -, hTokens⟩ := (hEach d hd).1.tokens_eq
      refine ⟨more, List.mem_cons_of_mem _ (List.mem_map.mpr ⟨d, hd, ?_⟩), fun _ => hMore⟩
      rw [hTokens]
      simp

/-- What follows the white space behind a `use` begins with another token. -/
theorem exists_first_of_body (hOk : CellsOk (c :: commas)) {gap space : List Token} {word : Token}
    (hLead : c.lead = .start gap word space) :
    ∃ t more, c.statementBody commas = space ++ t :: more ∧ t.isWhitespace = false ∧
      c.qualifier ++ c.core ++ (c.after ++ commas.flatMap Cell.tokens) = t :: more := by
  have hcOk := hOk.each c List.mem_cons_self
  have hStart := hcOk.lead
  rw [hLead] at hStart
  obtain ⟨t, more, hFirst, ht, -⟩ :=
    hStart.2.2.2.head hcOk.core (c.after ++ commas.flatMap Cell.tokens)
  refine ⟨t, more, ?_, ht, hFirst⟩
  rw [← hFirst]
  simp [Cell.statementBody, hLead]

theorem useSpaced_of_isSpaced (hOk : CellsOk (c :: commas))
    (h : isSpaced (c.statementBody commas) = true) : c.UseSpaced := by
  rintro gap word space hLead rfl
  obtain ⟨t, more, hBody, ht, -⟩ := exists_first_of_body hOk hLead
  rw [isSpaced, hBody] at h
  simp [ht] at h

/-- Without a qualifier of its own a statement does not begin with one. -/
theorem not_qualifier_of_classKind (hOk : CellsOk (c :: commas)) (hc : c.isStart = true)
    (hKind : c.kind = .classKind) :
    ((c.statementBody commas).dropWhile Token.isWhitespace).head?.any Token.isQualifier =
      false := by
  obtain ⟨gap, word, space, hLead⟩ := Cell.lead_of_isStart hc
  have hcOk := hOk.each c List.mem_cons_self
  have hStart := hcOk.lead
  rw [hLead] at hStart
  have hNone := hcOk.qualifier_of_classKind hLead hKind
  obtain ⟨t, more, hBody, ht, hFirst⟩ := exists_first_of_body hOk hLead
  obtain ⟨first, rest, hCore, -, hPlain⟩ := hcOk.core.first
  obtain rfl : first = t := by
    rw [hNone, hCore] at hFirst
    exact (List.cons.inj hFirst).1
  rw [hBody, List.dropWhile_append_of_pos hStart.2.2.1, List.dropWhile_cons_of_neg (by simp [ht])]
  simpa using hPlain

/-- A statement's braces are those of its name. -/
theorem CellOk.insideBraces_group (hc : CellOk c) {gap space : List Token} {word : Token}
    (hLead : c.lead = .start gap word space) (hGrouped : c.grouped = true) :
    insideBraces (c.statementBody []) = insideBraces c.core := by
  have hStart := hc.lead
  rw [hLead] at hStart
  have hShape := hc.shape
  rw [if_pos hGrouped] at hShape
  obtain ⟨front, opening, inside, closing, back, hCore, hOpening, hClosing, hBraces, -⟩ := hShape
  have hInside : ∀ t ∈ inside, t.isGroupBrace = false := fun t ht => hBraces t (by simp [ht])
  have hFront : ∀ t ∈ front, t.isGroupBrace = false := fun t ht => hBraces t (by simp [ht])
  have hBody : c.statementBody [] = (space ++ c.qualifier) ++
      (front ++ opening :: (inside ++ closing :: (back ++ c.after))) := by
    simp [Cell.statementBody, hLead, hCore]
  have hName : insideBraces c.core = inside := by
    rw [hCore]
    exact @insideBraces_eq [] front inside back opening closing hFront hOpening hInside hClosing
  rw [hBody, hName]
  refine insideBraces_eq ?_ hOpening hInside hClosing
  intro t ht
  simp only [List.mem_append, or_assoc] at ht
  rcases ht with ht | ht | ht
  · exact hStart.2.2.1.not_groupBrace t ht
  · exact (hStart.2.2.2.not_comma t ht).2
  · exact hFront t ht

theorem remarked_of_isRemarked (hOk : CellsOk (c :: commas)) (hc : c.isStart = true)
    (hCommas : ∀ d ∈ commas, d.isStart = false)
    (h : isRemarked settings (c.statementBody commas) = true) :
    ∀ d ∈ c :: commas, keepsInside settings (insideBraces d.core) = true ∨
      ∀ piece ∈ splitAtCommas (insideBraces d.core), commentsOutside piece = true := by
  have hPlain (d : Cell) (hName : IsName d.core) :
      ∀ piece ∈ splitAtCommas (insideBraces d.core), commentsOutside piece = true := by
    rw [insideBraces_of_name fun t ht => (hName t ht).2]
    intro piece hPiece
    obtain rfl : piece = [] := by simpa [splitAtCommas] using hPiece
    rfl
  obtain ⟨hEach, hSingle⟩ := hOk.commas hCommas
  have hcOk := hOk.each c List.mem_cons_self
  intro d hd
  cases hGrouped : c.grouped with
  | false =>
    rcases List.mem_cons.mp hd with rfl | hd
    · have hShapeOf := hcOk.shape
      rw [if_neg (by simp [hGrouped])] at hShapeOf
      exact .inr (hPlain d hShapeOf)
    · exact .inr (hPlain d (hEach d hd).1.isName)
  | true =>
    obtain rfl := hSingle hGrouped
    obtain rfl : d = c := by simpa using hd
    obtain ⟨gap, word, space, hLead⟩ := Cell.lead_of_isStart hc
    rw [isRemarked, hcOk.insideBraces_group hLead hGrouped, Bool.or_eq_true,
      List.all_eq_true] at h
    exact h

/-- The cells of an import whose names can be moved. -/
theorem writable_of_isWritable (hOk : CellsOk (c :: commas)) (hc : c.isStart = true)
    (hCommas : ∀ d ∈ commas, d.isStart = false)
    (h : isWritable settings (c.statementBody commas) = true) :
    ∀ d ∈ c :: commas, d.Writable settings := by
  simp only [isWritable, Bool.and_eq_true] at h
  obtain ⟨⟨⟨hSpaced, hClosed⟩, hNamed⟩, hRemarked⟩ := h
  obtain ⟨hEach, -⟩ := hOk.commas hCommas
  have hNames := exists_name hOk hc hCommas
  intro d hd
  have hdOk := hOk.each d hd
  obtain ⟨lead, hMem, hClass⟩ := hNames d hd
  refine ⟨?_, ?_, ?_, remarked_of_isRemarked hOk hc hCommas hRemarked d hd⟩
  · -- only the first cell has a `use` of its own
    rcases List.mem_cons.mp hd with rfl | hd
    · exact useSpaced_of_isSpaced hOk hSpaced
    · obtain ⟨space, -, hLead, -⟩ := (hEach d hd).1.tokens_eq
      intro gap word other hStart
      rw [hLead] at hStart
      cases hStart
  · -- the name ends where the record does
    have hTrim : trimEnd (lead ++ (d.core ++ d.after)) = lead ++ d.core := by
      have hCore := hdOk.core.trimmed.trimEnd_append hdOk.after
      rw [trimEnd_append_of_ne_nil lead (by rw [hCore]; exact hdOk.core.trimmed.ne_nil), hCore]
    have hLast := List.all_eq_true.mp hClosed _ hMem
    rw [hTrim, List.getLast?_append_of_ne_nil _ hdOk.core.trimmed.ne_nil] at hLast
    simpa using hLast
  · -- all names of a statement are of one kind, so the statement has no qualifier either
    intro hKind
    have hStatement : c.kind = .classKind := by
      rcases List.mem_cons.mp hd with rfl | hd
      · exact hKind
      · rw [← (hEach d hd).2, hKind]
    rw [isNamed, not_qualifier_of_classKind hOk hc hStatement, Bool.false_or] at hNamed
    have hName := List.all_eq_true.mp hNamed _ hMem
    rw [firstQualifies_spaced (hClass hKind) hdOk.core hdOk.after] at hName
    simpa using hName

end Statement

/-! ## Cells of a source text -/

theorem isWritable_of_writable {settings : Settings} {before after : List Token} {word : Token}
    (h : writable settings (before ++ word :: after) = true) (hWord : word.kind = .useWord) :
    isWritable settings (after.takeWhile fun t => !t.isTerminator) = true := by
  induction before with
  | nil =>
    simp only [List.nil_append, writable, hWord, Bool.and_eq_true] at h
    simpa using h.1
  | cons t before ih =>
    simp only [List.cons_append, writable, Bool.and_eq_true] at h
    exact ih h.2

/-- The cells of a text whose names can be moved. -/
theorem writable_cells {settings : Settings} {cells : List Cell} (hOk : CellsOk cells)
    (hStart : cells.head?.all Cell.isStart = true) {before tail : List Token}
    (hStop : tail.head?.any Token.isTerminator = true)
    (h : writable settings (before ++ cells.flatMap Cell.tokens ++ tail) = true) :
    ∀ c ∈ cells, c.Writable settings := by
  induction cells, hStart using Cell.statement_induction generalizing before with
  | nil => simp
  | statement c commas rest hc hCommas hRest ih =>
    obtain ⟨gap, word, space, hLead⟩ := Cell.lead_of_isStart hc
    have hFirst : CellsOk (c :: commas) := hOk.append_left
    have hWord := (hFirst.each c List.mem_cons_self).lead
    rw [hLead] at hWord
    have hBody := hFirst.isBody hCommas
    have hLater := @CellsOk.terminated (c :: commas) rest hOk (by simp) hRest tail hStop
    have hTokens := Cell.tokens_statement hLead commas
    have hShape : before ++ (c :: (commas ++ rest)).flatMap Cell.tokens ++ tail = (before ++ gap) ++
        word :: (c.statementBody commas ++ (rest.flatMap Cell.tokens ++ tail)) := by
      rw [← List.cons_append, List.flatMap_append, hTokens]
      simp
    have hNext : before ++ (c :: (commas ++ rest)).flatMap Cell.tokens ++ tail =
        (before ++ (c :: commas).flatMap Cell.tokens) ++ rest.flatMap Cell.tokens ++ tail := by
      rw [← List.cons_append, List.flatMap_append]
      simp
    -- the import ends where the next cell or the tail begins
    have hTake : (c.statementBody commas ++ (rest.flatMap Cell.tokens ++ tail)).takeWhile
        (fun t => !t.isTerminator) = c.statementBody commas := by
      rw [List.takeWhile_append_of_pos fun t ht => by
        simpa using (Token.isBody_iff.mp (hBody t ht)).1]
      cases hAfter : rest.flatMap Cell.tokens ++ tail with
      | nil => simp
      | cons stop more =>
        rw [hAfter] at hLater
        rw [List.takeWhile_cons_of_neg (by simpa using hLater), List.append_nil]
    -- the condition is met at this `use`, and goes on behind the statement
    have hHere := h
    rw [hShape] at hHere
    have hWritable := isWritable_of_writable hHere hWord.2.1
    rw [hTake] at hWritable
    rw [hNext] at h
    intro d hd
    rw [← List.cons_append] at hd
    rcases List.mem_append.mp hd with hd | hd
    · exact writable_of_isWritable hFirst hc hCommas hWritable d hd
    · exact ih (@CellsOk.append_right (c :: commas) _ hOk) h d hd

theorem importsDeclared_append (pending : Bool) (as bs : List Token) :
    importsDeclared pending (as ++ bs) =
      (importsDeclared pending as && importsDeclared (as.foldl declaringAfter pending) bs) := by
  induction as generalizing pending with
  | nil => simp [importsDeclared]
  | cons t as ih => simp [importsDeclared, ih, Bool.and_assoc]

theorem declaring_body {body : List Token} (h : ∀ t ∈ body, t.isBody = true) :
    body.foldl declaringAfter false = false := by
  induction body with
  | nil => rfl
  | cons t body ih =>
    have ht := (Token.isBody_iff.mp (h t List.mem_cons_self)).2.2.1
    have hStill : declaringAfter false t = false := by
      simp [declaringAfter, ht]
    rw [List.foldl_cons, hStill]
    exact ih fun u hu => h u (List.mem_cons_of_mem _ hu)

/-- The gaps of a text leave no namespace declaration open. -/
theorem declared_cells {cells : List Cell} (hOk : CellsOk cells)
    (hStart : cells.head?.all Cell.isStart = true) {tail : List Token}
    (h : importsDeclared false (cells.flatMap Cell.tokens ++ tail) = true) :
    ∀ c ∈ cells, ∀ gap ∈ c.gap?, leavesDeclaration gap = false := by
  induction cells, hStart using Cell.statement_induction with
  | nil => simp
  | statement c commas rest hc hCommas hRest ih =>
    obtain ⟨gap, word, space, hLead⟩ := Cell.lead_of_isStart hc
    have hFirst : CellsOk (c :: commas) := hOk.append_left
    have hWord := (hFirst.each c List.mem_cons_self).lead
    rw [hLead] at hWord
    have hShape : (c :: (commas ++ rest)).flatMap Cell.tokens ++ tail =
        gap ++ word :: (c.statementBody commas ++ (rest.flatMap Cell.tokens ++ tail)) := by
      rw [← List.cons_append, List.flatMap_append, Cell.tokens_statement hLead]
      simp
    rw [hShape, importsDeclared_append, Bool.and_eq_true, importsDeclared] at h
    -- `false` is what the scan knows in front of every statement
    have hGap : leavesDeclaration gap = false := by
      simpa [hWord.2.1, leavesDeclaration] using (Bool.and_eq_true_iff.mp h.2).1
    have hAfter : declaringAfter false word = false := by
      simp [declaringAfter, hWord.2.1]
    have hLater := (Bool.and_eq_true_iff.mp h.2).2
    rw [← leavesDeclaration, hGap, hAfter, importsDeclared_append, Bool.and_eq_true,
      declaring_body (hFirst.isBody hCommas)] at hLater
    intro d hd old hOld
    rw [← List.cons_append] at hd
    rcases List.mem_append.mp hd with hd | hd
    · rcases List.mem_cons.mp hd with rfl | hd
      · obtain rfl : gap = old := by simpa [Cell.gap?, hLead] using hOld
        exact hGap
      · obtain ⟨more, -, hComma, -⟩ := ((hFirst.commas hCommas).1 d hd).1.tokens_eq
        simp [Cell.gap?, hComma] at hOld
    · exact ih (@CellsOk.append_right (c :: commas) _ hOk) hLater.2 d hd old hOld

end UseOrder
