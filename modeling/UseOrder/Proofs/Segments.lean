import UseOrder.Proofs.Covering
import UseOrder.Proofs.Paths
import UseOrder.Proofs.Stripping

/-!
# The first segment of an import

Blank lines go by the first segment of each import, and sorting by the paths of its records. The
segment is read off the text of the whole statement, comments and the qualifier dropped; the path of
the first record is read off the tokens of the first name. Both give the same segment just if that
name has a separator, or else nothing behind it has one: the text is cut at the first separator
wherever it stands, so `use A, B\C;` has the segment `A, B`.

Two things have to be given. The tokens of the first name are legible, so that their comments are
told apart by characters as well. And where the path has a separator, the text of the first name
begins with a qualifier just if the record has one: a comment can hide the qualifier from the parser,
or join it to the name.
-/

namespace UseOrder

/-! ## Tokens of a source text -/

section Source

variable {source : Text} {t : Token}

theorem lower_of_qualifier (h : t ∈ classify (lex source)) (hq : t.isQualifier = true) :
    lower t.content = "const".toList ∨ lower t.content = "function".toList := by
  obtain ⟨raw, hRaw, hKind, hContent⟩ := mem_classifyFrom h
  have hNot := (rawToken_lexFrom false source raw hRaw).not_qualifier
  rw [hContent]
  generalize hLabel : t.kind = kind at hKind
  cases hKind with
  | constWord name word => exact .inl word
  | functionWord name word => exact .inr word
  | same =>
    rw [Token.isQualifier, hLabel, ← Token.isQualifier, hNot] at hq
    exact absurd hq (by simp)
  | _ => simp [Token.isQualifier, hLabel] at hq

theorem groupOpen_source (h : t ∈ classify (lex source)) (ht : t.kind = .groupOpen) :
    t.content = ['{'] := by
  obtain ⟨raw, hRaw, hKind, hContent⟩ := mem_classifyFrom h
  have hCode := (rawToken_lexFrom false source raw hRaw).kind
  rw [hContent]
  rw [ht] at hKind
  generalize hLabel : TokenKind.groupOpen = kind at hKind
  cases hKind with
  | groupOpen brace => simpa [Token.isPunct] using (Bool.and_eq_true_iff.mp brace).2
  | same => simp [← hLabel, TokenKind.isCode] at hCode
  | _ => cases hLabel

theorem white_source {ts : List Token} (h : ∀ t ∈ ts, t ∈ classify (lex source))
    (hSpace : AllSpace ts) : AllWhite (textOf ts) := by
  intro c hc
  obtain ⟨t, ht, hc⟩ := List.mem_flatMap.mp hc
  have hKind : t.kind = .whitespace := by simpa [Token.isWhitespace] using hSpace t ht
  exact isWhite_of_isBlank (isBlank_of_mem_source (h t ht) hKind c hc)

end Source

/-! ## The first name of a statement -/

/-- The tokens between the `use` at `u` and its terminator. -/
def statementBody (ts : List Token) (u : Nat) : List Token :=
  (ts.drop (u + 1)).takeWhile fun t => !t.isTerminator

/-- A mark that the first name of a statement ends at. -/
def Token.endsName (t : Token) : Bool :=
  t.isComma || t.kind == .groupOpen

/-- The first name of a statement, or the path of a group. -/
def firstName (body : List Token) : List Token :=
  body.takeWhile fun t => !t.endsName

/-- The names behind the first one, or the braces of a group. -/
def laterNames (body : List Token) : List Token :=
  body.dropWhile fun t => !t.endsName

/-- The text of the tokens, comments apart. -/
def spelling (ts : List Token) : Text :=
  Text.strip (textOf (ts.filter fun t => !t.isComment))

theorem firstName_append_laterNames (body : List Token) : firstName body ++ laterNames body = body :=
  List.takeWhile_append_dropWhile

theorem firstName_append {name later : List Token} (hName : ∀ t ∈ name, t.endsName = false)
    (hLater : ∀ t ∈ later.head?, t.endsName = true) : firstName (name ++ later) = name := by
  rw [firstName, List.takeWhile_append_of_pos fun t ht => by simp [hName t ht]]
  cases later with
  | nil => simp
  | cons t later => simp [hLater t rfl]

theorem endsName_laterNames {body : List Token} : ∀ t ∈ (laterNames body).head?, t.endsName = true := by
  intro t ht
  have hNot := List.head?_dropWhile_not (fun t : Token => !t.endsName) body
  rw [← laterNames, Option.mem_def.mp ht] at hNot
  simpa using hNot

theorem AllSpace.not_endsName {ts : List Token} (h : AllSpace ts) : ∀ t ∈ ts, t.endsName = false := by
  intro t ht
  have hSpace : t.kind = .whitespace := by simpa [Token.isWhitespace] using h t ht
  simp [Token.endsName, Token.isComma, Token.isPunct, hSpace]

theorem Token.kind_of_endsName {t : Token} (h : t.endsName = true) :
    t = commaToken ∨ t.kind = .groupOpen := by
  rw [Token.endsName, Bool.or_eq_true, beq_iff_eq] at h
  exact h.imp_left eq_commaToken

/-- The first name of a statement is spelled if its tokens are legible. -/
theorem spelled_firstName {source : Text} {before body rest : List Token} {word stop : Token}
    (hSource : classify (lex source) = before ++ word :: (body ++ stop :: rest))
    (hBody : ∀ t ∈ body, t.isTerminator = false)
    (hLegible : ∀ t ∈ firstName body, t.isLegible = true) :
    Spelled (textOf (laterNames body)) (firstName body) := by
  have hInner : ∀ t ∈ body, t.kind ≠ .closeTag := by
    intro t ht hClose
    have hOpen := hBody t ht
    simp [Token.isTerminator, hClose] at hOpen
  have hSplit := firstName_append_laterNames body
  have hPlace : classify (lex source) =
      (before ++ [word]) ++ (firstName body ++ (laterNames body ++ stop :: rest)) := by
    rw [hSource, ← List.append_assoc (firstName body), hSplit]
    simp
  refine spelled_source hPlace (by simp) (fun t ht => hInner t ?_) (fun t ht => ⟨hInner t ?_, ?_⟩)
    hLegible
  · exact (List.takeWhile_prefix _).subset ht
  · exact (List.dropWhile_suffix _).subset (List.mem_of_mem_head? ht)
  · rcases Token.kind_of_endsName (endsName_laterNames t ht) with rfl | hOpen
    · decide
    · simp [hOpen]

/-- What is left of the text behind the first name begins with the mark that ends the name. -/
theorem stripComments_laterNames {source : Text} {body : List Token}
    (hBody : ∀ t ∈ body, t ∈ classify (lex source)) :
    stripComments (textOf (laterNames body)) = [] ∨
      ∃ c rest, stripComments (textOf (laterNames body)) = c :: rest ∧ (c = ',' ∨ c = '{') := by
  cases hLater : laterNames body with
  | nil => exact .inl stripComments_nil
  | cons t later =>
    have hMem : t ∈ classify (lex source) :=
      hBody t ((List.dropWhile_suffix _).subset (by rw [← laterNames, hLater]; simp))
    obtain ⟨c, hContent, hc⟩ : ∃ c, t.content = [c] ∧ (c = ',' ∨ c = '{') := by
      rcases Token.kind_of_endsName (@endsName_laterNames body t (by rw [hLater]; rfl)) with rfl | hOpen
      · exact ⟨',', rfl, .inl rfl⟩
      · exact ⟨'{', groupOpen_source hMem hOpen, .inr rfl⟩
    refine .inr ⟨c, stripComments (textOf later), ?_, hc⟩
    rw [textOf_cons, hContent, stripComments_plain]
    · rfl
    · rcases hc with rfl | rfl <;> simp

/-! ## The first record of a statement -/

/-- The first name of a statement, cut around the path of its record. -/
structure Heading (r : Record) (name space qualifier path gap : List Token) : Prop where
  tokens : name = space ++ (qualifier ++ (path ++ gap))
  space : AllSpace space
  qualifier : IsQualifierOf r.kind qualifier
  gap : AllSpace gap
  path : r.path = Text.strip (stripComments (textOf path))

theorem IsQualifierOf.cases {kind : ImportKind} {ts : List Token} (h : IsQualifierOf kind ts) :
    (kind = .classKind ∧ ts = []) ∨
      kind ≠ .classKind ∧ ∃ q space, ts = q :: space ∧ q.isQualifier = true ∧ AllSpace space := by
  cases kind with
  | classKind => exact .inl ⟨rfl, h⟩
  | constKind | functionKind =>
    obtain ⟨q, space, hTokens, hKind, hSpace⟩ := h
    exact .inr ⟨by simp, q, space, hTokens, by simp [Token.isQualifier, hKind], hSpace⟩

theorem IsQualifierOf.not_endsName {kind : ImportKind} {ts : List Token} (h : IsQualifierOf kind ts) :
    ∀ t ∈ ts, t.endsName = false := by
  intro t ht
  rcases h.cases with ⟨-, rfl⟩ | ⟨-, q, more, rfl, hq, hMore⟩
  · simp at ht
  · rcases List.mem_cons.mp ht with rfl | ht
    · rw [Token.isQualifier, Bool.or_eq_true, beq_iff_eq, beq_iff_eq] at hq
      rcases hq with hq | hq <;> simp [Token.endsName, Token.isComma, Token.isPunct, hq]
    · exact hMore.not_endsName t ht

/-- The first name ends behind the path, at the first mark there is. -/
theorem firstName_heading {kind : ImportKind} {space qualifier path gap later : List Token}
    (hSpace : AllSpace space) (hQualifier : IsQualifierOf kind qualifier)
    (hPath : ∀ t ∈ path, t.endsName = false) (hGap : AllSpace gap)
    (hLater : ∀ t ∈ later.head?, t.endsName = true) :
    firstName (space ++ (qualifier ++ (path ++ gap)) ++ later) =
      space ++ (qualifier ++ (path ++ gap)) := by
  refine firstName_append (fun t ht => ?_) hLater
  simp only [List.mem_append] at ht
  rcases ht with ht | ht | ht | ht
  · exact hSpace.not_endsName t ht
  · exact hQualifier.not_endsName t ht
  · exact hPath t ht
  · exact hGap.not_endsName t ht

/-- What stands in front of the brace of a group stays as it is when its names are put in order. -/
theorem CellOk.takeWhile_arranged {c : Cell} (hc : CellOk c) (settings : Settings) :
    (c.arranged settings).takeWhile (·.kind != .groupOpen) =
      c.core.takeWhile (·.kind != .groupOpen) := by
  rcases hc.arranged_cases settings with
    hSame | ⟨front, opening, inside, closing, back, hCore, hOpening, -, hBraces, hNew⟩
  · rw [hSame]
  · have hFront : ∀ t ∈ front, t.isGroupBrace = false := fun t ht => hBraces t (by simp [ht])
    rw [hNew, hCore, takeWhile_groupOpen hOpening hFront, takeWhile_groupOpen hOpening hFront]

/-- A cell of a group keeps its path when its names are put in order. -/
theorem path_record {settings : Settings} {c : Cell} (hc : CellOk c) (hGroup : c.grouped = true)
    (offset : Nat) : (c.record settings offset).path =
      Text.strip (stripComments (textOf (c.core.takeWhile (·.kind != .groupOpen)))) := by
  simp only [Record.path, Cell.record, hGroup, if_true, Option.getD_some,
    hc.takeWhile_arranged settings]

/-- A group has no comma in front of its braces. -/
theorem not_comma_of_group {front rest : List Token} {opening : Token}
    (hForm : (isNameList (front ++ opening :: rest) || isBraceGroup (front ++ opening :: rest)) = true)
    (hOpening : opening.kind = .groupOpen) (hFront : ∀ t ∈ front, t.isGroupBrace = false) :
    ∀ t ∈ front, t.isComma = false := by
  intro t ht
  rcases Bool.or_eq_true_iff.mp hForm with hList | hGroup
  · simp only [isNameList, Bool.and_eq_true, List.all_eq_true] at hList
    have hBrace := hList.1 opening (by simp)
    simp [Token.isGroupBrace, hOpening] at hBrace
  · simp only [isBraceGroup, Bool.and_eq_true, List.all_eq_true,
      takeWhile_groupOpen hOpening hFront] at hGroup
    simpa using hGroup.1.2 t ht

/-- A statement made up of cells is parsed to their records. -/
theorem StatementCells.parse {before body rest : List Token} {word stop : Token} {c : Cell}
    {cs : List Cell} (h : StatementCells [] word body c cs) (hStop : stop.isTerminator = true)
    (settings : Settings) :
    parseStatement settings (before ++ word :: (body ++ stop :: rest)) before.length =
      .ok (Cell.records settings before.length (c :: cs)) := by
  obtain ⟨space, hLead⟩ := h.lead
  obtain ⟨hcs, hSingle⟩ := h.ok.commas h.commas
  have hParse := @parseStatement_cells settings before (stop :: rest) [] space word c cs hLead
    (h.ok.each c List.mem_cons_self) hcs hSingle (by simpa using hStop)
  have hShape : before ++ (c :: cs).flatMap Cell.tokens ++ stop :: rest =
      before ++ word :: (body ++ stop :: rest) := by
    rw [h.tokens]
    simp
  rwa [hShape, List.length_nil, Nat.add_zero] at hParse

/-- The tokens of a statement, cut around those of its first cell. -/
theorem StatementCells.body_eq {body : List Token} {word : Token} {c : Cell} {cs : List Cell}
    (h : StatementCells [] word body c cs) :
    ∃ space, AllSpace space ∧ IsQualifierOf c.kind c.qualifier ∧
      body = space ++ (c.qualifier ++ (c.core ++ c.after)) ++ cs.flatMap Cell.tokens := by
  obtain ⟨space, hLead⟩ := h.lead
  have hLeadOk := (h.ok.each c List.mem_cons_self).lead
  rw [hLead] at hLeadOk
  refine ⟨space, hLeadOk.2.2.1, hLeadOk.2.2.2, ?_⟩
  have hAll := h.tokens
  simp only [List.flatMap_cons, Cell.tokens, hLead, Lead.tokens, List.nil_append, List.cons_append,
    List.cons.injEq, true_and] at hAll
  rw [← hAll]
  simp

/-- The first of a list of names is the name of the first cell: the next cell begins with the comma
that ends it. -/
theorem StatementCells.heading_of_name {body : List Token} {word : Token} {c : Cell} {cs : List Cell}
    (h : StatementCells [] word body c cs) (hSingle : c.grouped = false) (settings : Settings)
    (offset : Nat) :
    ∃ space, Heading (c.record settings offset) (firstName body) space c.qualifier c.core c.after := by
  have hc := h.ok.each c List.mem_cons_self
  have hName := hc.shape
  rw [hSingle, if_neg (by simp)] at hName
  obtain ⟨hcs, -⟩ := h.ok.commas h.commas
  obtain ⟨space, hSpace, hQualifier, hBody⟩ := h.body_eq
  refine ⟨space, ?_, hSpace, hQualifier, hc.after, ?_⟩
  · rw [hBody]
    refine firstName_heading hSpace hQualifier (fun t ht => ?_) hc.after fun t ht => ?_
    · have hPlain := hName t ht
      simp only [Token.isGroupBrace, Bool.or_eq_false_iff] at hPlain
      simp [Token.endsName, hPlain]
    · cases cs with
      | nil => simp at ht
      | cons d cs =>
        obtain ⟨_, -, -, hComma⟩ := (hcs d List.mem_cons_self).1.tokens_eq
        rw [List.flatMap_cons, hComma] at ht
        obtain rfl := Option.some.inj ht
        rfl
  · simp [Record.path, Cell.record, Cell.arranged, hSingle]

/-- The first name of a group is its path: the cell is the whole statement, and the path ends at the
opening brace. -/
theorem StatementCells.heading_of_group {body : List Token} {word : Token} {c : Cell} {cs : List Cell}
    (h : StatementCells [] word body c cs) (hGroup : c.grouped = true)
    (hForm : (isNameList body || isBraceGroup body) = true) (settings : Settings) (offset : Nat) :
    ∃ space path, Heading (c.record settings offset) (firstName body) space c.qualifier path [] := by
  have hc := h.ok.each c List.mem_cons_self
  have hBraced := hc.shape
  rw [if_pos hGroup] at hBraced
  obtain ⟨front, opening, inside, closing, back, hCore, hOpening, -, hBraces, -⟩ := hBraced
  have hFront : ∀ t ∈ front, t.isGroupBrace = false := fun t ht => hBraces t (by simp [ht])
  obtain ⟨space, hSpace, hQualifier, hBody⟩ := h.body_eq
  obtain rfl := (h.ok.commas h.commas).2 hGroup
  have hPath := @path_record settings c hc hGroup offset
  rw [hCore, takeWhile_groupOpen hOpening hFront] at hPath
  refine ⟨space, front, ?_, hSpace, hQualifier, .nil, hPath⟩
  have hPlain : ∀ t ∈ space ++ (c.qualifier ++ front), t.isGroupBrace = false := by
    intro t ht
    simp only [List.mem_append] at ht
    rcases ht with ht | ht | ht
    · exact Token.not_brace_of_isPlain (hSpace.isPlain t ht)
    · exact Token.not_brace_of_isPlain (hQualifier.isPlain t ht)
    · exact hFront t ht
  have hTokens : body = (space ++ (c.qualifier ++ front)) ++ opening :: (inside ++
      closing :: back ++ c.after) := by
    rw [hBody, hCore]
    simp
  conv_lhs => rw [hTokens, ← List.append_nil front]
  refine firstName_heading hSpace hQualifier (fun t ht => ?_) .nil fun t ht => ?_
  · have hComma := not_comma_of_group (hTokens ▸ hForm) hOpening hPlain t (by simp [ht])
    have hBrace := hFront t ht
    simp only [Token.isGroupBrace, Bool.or_eq_false_iff] at hBrace
    simp [Token.endsName, hComma, hBrace]
  · obtain rfl := Option.some.inj ht
    simp [Token.endsName, hOpening]

/-- A well-formed statement is parsed, and its first name has a heading for the first record. -/
theorem exists_heading (settings : Settings) {source : Text} {before body rest : List Token}
    {word stop : Token} (hSource : classify (lex source) = before ++ word :: (body ++ stop :: rest))
    (hWord : word.kind = .useWord)
    (hBody : ∀ t ∈ body, t.isTerminator = false ∧ t.kind ≠ .useWord ∧ t.kind ≠ .namespaceWord)
    (hStop : stop.isTerminator = true) (hForm : (isNameList body || isBraceGroup body) = true) :
    ∃ r records space qualifier path gap,
      parseStatement settings (classify (lex source)) before.length = .ok (r :: records) ∧
      Heading r (firstName body) space qualifier path gap := by
  obtain ⟨c, cs, hCells⟩ := @exists_cells_source source before [] body rest word stop
    (by simpa using hSource) (by simp) hWord hBody hForm
  have hParse := @StatementCells.parse before body rest word stop c cs hCells hStop settings
  rw [← hSource, Cell.records] at hParse
  cases hGroup : c.grouped with
  | false =>
    obtain ⟨space, hHeading⟩ := hCells.heading_of_name hGroup settings before.length
    exact ⟨_, _, space, _, _, _, hParse, hHeading⟩
  | true =>
    obtain ⟨space, path, hHeading⟩ := hCells.heading_of_group hGroup hForm settings before.length
    exact ⟨_, _, space, _, path, _, hParse, hHeading⟩

/-! ## The segment of a statement -/

theorem filter_not_comment_of_space {ts : List Token} (h : AllSpace ts) :
    (ts.filter fun t => !t.isComment) = ts :=
  List.filter_eq_self.mpr fun t ht => by simp [h.not_comment t ht]

section Heading

variable {source : Text} {r : Record} {name space qualifier path gap : List Token} {after : Text}

/-- Only the path of a heading may hold comments. -/
theorem Heading.filter_comments (h : Heading r name space qualifier path gap) :
    textOf (name.filter fun t => !t.isComment) =
      textOf space ++ (textOf qualifier ++ (textOf (path.filter fun t => !t.isComment) ++
        textOf gap)) := by
  have hQualifier : (qualifier.filter fun t => !t.isComment) = qualifier := by
    rcases h.qualifier.cases with ⟨-, rfl⟩ | ⟨-, q, more, rfl, hq, hMore⟩
    · rfl
    · have hPlain : q.isComment = false := by
        rw [Token.isQualifier, Bool.or_eq_true, beq_iff_eq, beq_iff_eq] at hq
        rcases hq with hq | hq <;> simp [Token.isComment, hq]
      rw [List.filter_cons, if_pos (by simp [hPlain]), filter_not_comment_of_space hMore]
  simp only [h.tokens, List.filter_append, textOf_append, hQualifier,
    filter_not_comment_of_space h.space, filter_not_comment_of_space h.gap]

/-- The spelling of the first name is the path of the record, behind the qualifier if there is one. -/
theorem Heading.spelling_cases (h : Heading r name space qualifier path gap)
    (hMem : ∀ t ∈ name, t ∈ classify (lex source)) (hSpelled : Spelled after name) :
    (r.kind = .classKind ∧ spelling name = r.path) ∨
      r.kind ≠ .classKind ∧ ∃ word text, '\\' ∉ word ∧
        (∀ rest, afterQualifier? (word ++ rest) = some rest) ∧ Text.strip text = r.path ∧
        spelling name = word ++ Text.stripEnd text := by
  rw [spelling, h.filter_comments]
  rw [h.tokens] at hMem hSpelled
  have hSpace := @white_source source space (fun t ht => hMem t (by simp [ht])) h.space
  have hGap := @white_source source gap (fun t ht => hMem t (by simp [ht])) h.gap
  -- the path without its comments, as the parser has it
  have hPath : r.path = Text.strip (textOf (path.filter fun t => !t.isComment)) := by
    have hStripped := stripComments_spelled (hSpelled.of_append.of_append.initial)
    rw [List.append_nil] at hStripped
    rw [h.path, hStripped, stripComments_nil, List.append_nil]
  rw [strip_white_append hSpace]
  rcases h.qualifier.cases with ⟨hClass, rfl⟩ | ⟨hOther, q, more, rfl, hq, hMore⟩
  · refine .inl ⟨hClass, ?_⟩
    rw [textOf_nil, List.nil_append, strip_append_white hGap, hPath]
  · have hSource : q ∈ classify (lex source) := hMem q (by simp)
    have hWord := isWord_of_qualifier hSource (by simpa [Token.isQualifier] using hq)
    have hMoreWhite := @white_source source more (fun t ht => hMem t (by simp [ht])) hMore
    refine .inr ⟨hOther, q.content, textOf more ++ (textOf (path.filter fun t => !t.isComment) ++
      textOf gap), fun hc => absurd (hWord _ hc) (by decide +kernel),
      afterQualifier?_of_lower (lower_of_qualifier hSource hq), ?_, ?_⟩
    · rw [strip_white_append hMoreWhite, strip_append_white hGap, hPath]
    · rw [textOf_cons, List.append_assoc, strip_word (content_ne_nil_of_mem_source hSource) fun c hc =>
        not_white_of_isWord (hWord c hc)]

/-- Dropping the qualifier from the spelling leaves the segment of the path, if the spelling names a
qualifier just if there is one, and also if there is no separator. -/
theorem Heading.dropQualifier_spelling (h : Heading r name space qualifier path gap)
    (hMem : ∀ t ∈ name, t ∈ classify (lex source)) (hSpelled : Spelled after name)
    (hNames : namesQualifier (spelling name) = (r.kind != .classKind) ∨ '\\' ∉ r.path) :
    firstSegment (dropQualifier (spelling name)) = firstSegment r.path ∧
      hasSeparator (dropQualifier (spelling name)) = hasSeparator r.path := by
  have hCases := h.spelling_cases hMem hSpelled
  rcases hNames with hNames | hPlain
  · suffices hName : dropQualifier (spelling name) = r.path by rw [hName]; exact ⟨rfl, rfl⟩
    rcases hCases with ⟨hClass, hSpelling⟩ | ⟨hOther, word, text, -, hWord, hText, hSpelling⟩
    · rw [hClass] at hNames
      exact (dropQualifier_of_not_names hNames).trans hSpelling
    · rw [hSpelling, bne_iff_ne.mpr hOther, namesQualifier, hWord, Option.any_some] at hNames
      simp only [hSpelling, dropQualifier_eq, hWord]
      rw [if_pos hNames, dropWhile_stripEnd, hText]
  · have hSpelling : '\\' ∉ spelling name := by
      rcases hCases with ⟨-, hSpelling⟩ | ⟨-, word, text, hWord, -, hText, hSpelling⟩
      · rwa [hSpelling]
      · rw [← hText, separator_mem_strip] at hPlain
        rw [hSpelling, List.mem_append, not_or]
        exact ⟨hWord, fun hMem => hPlain ((List.rdropWhile_prefix isWhite text).subset hMem)⟩
    have hName : hasSeparator (dropQualifier (spelling name)) = false :=
      hasSeparator_of_not_mem fun hMem => hSpelling (mem_of_mem_dropQualifier hMem)
    have hPath := hasSeparator_of_not_mem hPlain
    rw [firstSegment_of_not_hasSeparator hName, firstSegment_of_not_hasSeparator hPath, hName, hPath]
    exact ⟨rfl, rfl⟩

end Heading

/-- The segment of the text of a statement is that of its first name just if this has a separator
behind the qualifier, or no separator follows it. -/
theorem segment_body_eq_iff {source : Text} {body : List Token}
    (hBody : ∀ t ∈ body, t ∈ classify (lex source))
    (hSpelled : Spelled (textOf (laterNames body)) (firstName body)) :
    firstSegment (dropQualifier (Text.strip (stripComments (textOf body)))) =
        firstSegment (dropQualifier (spelling (firstName body))) ↔
      hasSeparator (dropQualifier (spelling (firstName body))) = true ∨
        '\\' ∉ stripComments (textOf (laterNames body)) := by
  obtain ⟨tail, hTail, hBehind, hSeparator⟩ := @exists_behind
    (textOf ((firstName body).filter fun t => !t.isComment)) _ (stripComments_laterNames hBody)
  have hText : Text.strip (stripComments (textOf body)) = spelling (firstName body) ++ tail := by
    conv_lhs => rw [← firstName_append_laterNames body, textOf_append]
    rw [stripComments_spelled hSpelled, hTail, spelling]
  have hEnd : Text.stripEnd (spelling (firstName body)) = spelling (firstName body) :=
    List.rdropWhile_idempotent isWhite _
  rw [hText, ← hSeparator]
  exact segment_append_eq_iff hEnd hBehind

/-- A well-formed import of a source text is parsed, and its segment is that of the first record just
if the path of this record has a separator, or no separator follows the first name. The tokens of the
first name are to be legible, and unless the path is without separators, their text is to name a
qualifier just if the record has one. -/
theorem leadingSegment_eq_firstSegment_iff (settings : Settings) {source : Text} {ts : List Token}
    {u : Nat} (hSource : ts = classify (lex source)) (hUse : ts[u]?.any (·.kind == .useWord) = true)
    (hStatement : isStatement (ts.drop (u + 1)) = true)
    (hLegible : (firstName (statementBody ts u)).all Token.isLegible = true) :
    ∃ r records, parseStatement settings ts u = .ok (r :: records) ∧
      (namesQualifier (spelling (firstName (statementBody ts u))) = (r.kind != .classKind) ∨
          '\\' ∉ r.path →
        (leadingSegment ts u = .ok (firstSegment r.path) ↔
          hasSeparator r.path = true ∨
            '\\' ∉ stripComments (textOf (laterNames (statementBody ts u))))) := by
  obtain ⟨word, hAt, hWord⟩ := (Option.any_eq_true _ _).mp hUse
  rw [beq_iff_eq] at hWord
  obtain ⟨before, after, hSplit, rfl⟩ := exists_split hAt
  have hDrop : ts.drop (before.length + 1) = after := by simp [hSplit]
  rw [hDrop] at hStatement
  obtain ⟨body, stop, rest, rfl, hStop, hBody, hForm⟩ := exists_body_of_isStatement hStatement
  have hInner : ∀ t ∈ body, t.isTerminator = false := fun t ht => (hBody t ht).1
  have hInside : statementBody ts before.length = body := by
    rw [statementBody, hDrop, takeWhile_terminator hInner hStop]
  rw [hInside] at hLegible ⊢
  have hPlace := hSource.symm.trans hSplit
  have hMem : ∀ t ∈ body, t ∈ classify (lex source) := fun t ht => by simp [hPlace, ht]
  have hSpelled := spelled_firstName hPlace hInner (List.all_eq_true.mp hLegible)
  obtain ⟨r, records, space, qualifier, path, gap, hParse, hHeading⟩ :=
    exists_heading settings hPlace hWord hBody hStop hForm
  refine ⟨r, records, hSource ▸ hParse, fun hNames => ?_⟩
  -- the path has the segment of the first name, which is compared with that of the whole text
  obtain ⟨hSegment, hSame⟩ := hHeading.dropQualifier_spelling
    (fun t ht => hMem t ((List.takeWhile_prefix _).subset ht)) hSpelled hNames
  rw [hSplit, leadingSegment_append before word rest hInner hStop, Except.ok.injEq, ← hSegment, ← hSame]
  exact segment_body_eq_iff hMem hSpelled

/-- Functions with comments around every part of the first name, and a separator in the second. -/
theorem leadingSegment_eq_firstSegment_iff_of_remarks :
    let source := "<?php\nuse function /* f */ Foo // #1\n \\ /* x\\y */ bar, baz\\qux;\n".toList
    let ts := classify (lex source)
    ts[1]?.any (·.kind == .useWord) = true ∧ isStatement (ts.drop 2) = true ∧
      (firstName (statementBody ts 1)).all Token.isLegible = true ∧
      ∃ r records, parseStatement {} ts (1 : Nat) = .ok (r :: records) ∧ r.kind = .functionKind ∧
        firstSegment r.path = "Foo".toList ∧
        namesQualifier (spelling (firstName (statementBody ts 1))) = (r.kind != .classKind) ∧
        leadingSegment ts (1 : Nat) = .ok (firstSegment r.path) := by
  intro source ts
  have hUse : ts[1]?.any (·.kind == .useWord) = true := by decide +kernel
  have hStatement : isStatement (ts.drop 2) = true := by decide +kernel
  have hLegible : (firstName (statementBody ts 1)).all Token.isLegible = true := by decide +kernel
  have hNames : namesQualifier (spelling (firstName (statementBody ts 1))) = true := by decide +kernel
  have hFirst : ((parseStatement {} ts (1 : Nat)).toOption.bind List.head?).map (fun r => (r.kind,
      hasSeparator r.path, firstSegment r.path)) = some (.functionKind, true, "Foo".toList) := by
    decide +kernel
  obtain ⟨r, records, hParse, hAgree⟩ :=
    leadingSegment_eq_firstSegment_iff {} (Eq.refl ts) hUse hStatement hLegible
  rw [hParse] at hFirst
  obtain ⟨hKind, hSeparator, hSegment⟩ : r.kind = .functionKind ∧ hasSeparator r.path = true ∧
      firstSegment r.path = "Foo".toList := by
    simpa [Except.toOption] using hFirst
  have hQualifier : namesQualifier (spelling (firstName (statementBody ts 1))) =
      (r.kind != .classKind) := by
    rw [hNames, hKind]
    rfl
  exact ⟨hUse, hStatement, hLegible, r, records, hParse, hKind, hSegment, hQualifier,
    (hAgree (.inl hQualifier)).mpr (.inl hSeparator)⟩

/-- The first segment of the first record and that of the statement, where they differ: a separator
in the second name, a qualifier behind a comment, a comment that joins the qualifier to the name, and
a line comment that opens a block comment. -/
theorem segments_differ :
    let later := classify (lex "<?php\nuse A, B\\C;\n".toList)
    let hidden := classify (lex "<?php\nuse /* c */ const A\\B;\n".toList)
    let joined := classify (lex "<?php\nuse const/**/A\\B;\n".toList)
    let opened := classify (lex "<?php\nuse A // /* c\n\\B, C /* d */;\n".toList)
    let record? := fun ts : List Token => (parseStatement {} ts 1).toOption.bind List.head?
    (isStatement (later.drop 2) = true ∧ (record? later).map Record.path = some "A".toList ∧
      firstSegment "A".toList = [] ∧ leadingSegment later 1 = .ok "A, B".toList) ∧
    (isStatement (hidden.drop 2) = true ∧
      (record? hidden).map Record.path = some "const A\\B".toList ∧
      firstSegment "const A\\B".toList = "const A".toList ∧
      leadingSegment hidden 1 = .ok "A".toList) ∧
    (isStatement (joined.drop 2) = true ∧ (record? joined).map Record.path = some "A\\B".toList ∧
      firstSegment "A\\B".toList = "A".toList ∧ leadingSegment joined 1 = .ok "constA".toList) ∧
    isStatement (opened.drop 2) = true ∧ (record? opened).map Record.path = some "A \n\\B".toList ∧
      firstSegment "A \n\\B".toList = "A".toList ∧ leadingSegment opened 1 = .ok [] := by
  decide +kernel

end UseOrder
