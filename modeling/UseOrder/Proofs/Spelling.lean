import UseOrder.Proofs.Records
import UseOrder.Proofs.Segments

/-!
# The path of a record, spelled by its tokens

The path of a record is read off a text: the contents of its tokens are put together, and comments
are found again in them by their characters. In a source text this gives back the tokens that are no
comments (`path_eq_spelling`), for any comments next to each other, as long as the statement is made
of what names are written with and no line comment holds the opening of a block comment.

What has to be known is that words, separators, braces and commas of a source text hold no character
that begins a comment (`isLegible_of_isNaming`); then the whole statement is spelled, and so is the
part of it that a record takes.
-/

namespace UseOrder

/-- What names are written with: words, separators, white space, commas, the braces of a group, and
comments. -/
def Token.isNaming (t : Token) : Bool :=
  match t.kind with
  | .name | .constWord | .functionWord | .separator | .whitespace | .groupOpen | .groupClose
  | .comment | .docComment => true
  | _ => t.isComma

/-- The tokens that say what a record imports: for a group those in front of its brace. -/
def Record.pathTokens (r : Record) : List Token :=
  if r.grouped then r.tokens.takeWhile (·.kind != .groupOpen) else r.tokens

/-! ## Characters of the tokens of a source text -/

theorem eq_backslash_of_lexeme {c : Char} {rest : Text} (h : (lexeme c rest).1 = .separator) :
    c = '\\' := by
  by_contra hOther
  have hWord (word : Text) : TokenKind.ofWord word ≠ .separator := by
    rcases ofWord_cases word with hWord | hWord | hWord <;> simp [hWord]
  simp only [lexeme, beq_false_of_ne hOther, Bool.false_eq_true, if_false] at h
  -- none of the other rules gives a separator
  repeat' split at h
  all_goals first | exact hWord _ h | cases h

/-- A separator is one character. -/
theorem separator_of_mem_lexFrom (inCode : Bool) (text : Text) : ∀ t ∈ lexFrom inCode text,
    t.kind = .separator → t.content = ['\\'] := by
  refine forall_mem_lexFrom (fun {c rest kind n} h hKind => ?_) (by simp) (by simp) inCode text
  obtain rfl : kind = .separator := hKind
  obtain rfl := eq_backslash_of_lexeme (congrArg Prod.fst h)
  obtain ⟨-, rfl⟩ := Prod.mk.inj h
  rfl

section Source

variable {source : Text} {t : Token}

theorem brace_source (h : t ∈ classify (lex source)) (ht : t.isGroupBrace = true) :
    t.content = ['{'] ∨ t.content = ['}'] := by
  obtain ⟨raw, hRaw, hKind, hContent⟩ := mem_classifyFrom h
  have hCode := (rawToken_lexFrom false source raw hRaw).kind
  rw [Token.isGroupBrace, Bool.or_eq_true, beq_iff_eq, beq_iff_eq] at ht
  rw [hContent]
  generalize hLabel : t.kind = kind at hKind ht
  cases hKind with
  | groupOpen brace => exact .inl (by simpa [Token.isPunct] using (Bool.and_eq_true_iff.mp brace).2)
  | groupClose brace => exact .inr (by simpa [Token.isPunct] using (Bool.and_eq_true_iff.mp brace).2)
  | same => rcases ht with ht | ht <;> simp [ht, TokenKind.isCode] at hCode
  | _ => simp at ht

/-- A word of a source text begins no comment, whatever it is taken for. -/
theorem not_mark_of_word (h : t ∈ classify (lex source))
    (hWord : t.kind.raw t.content = .ofWord t.content) : ∀ c ∈ t.content, c ≠ '/' ∧ c ≠ '#' := by
  intro c hc
  have hIs := isWord_of_mem_lexFrom false source t.raw (raw_mem_lex h) hWord c hc
  constructor <;> rintro rfl <;> exact absurd hIs (by decide +kernel)

/-- A token that names are written with begins no comment, unless it is one. -/
theorem not_mark_of_isNaming (h : t ∈ classify (lex source)) (ht : t.isNaming = true)
    (hComment : t.isComment = false) : ∀ c ∈ t.content, c ≠ '/' ∧ c ≠ '#' := by
  have hOfBrace (hBrace : t.isGroupBrace = true) : ∀ c ∈ t.content, c ≠ '/' ∧ c ≠ '#' := by
    rcases brace_source h hBrace with hContent | hContent <;> simp [hContent]
  cases hKind : t.kind with
  | name | constWord | functionWord => exact not_mark_of_word h (by rw [hKind]; rfl)
  | groupOpen | groupClose => exact hOfBrace (by simp [Token.isGroupBrace, hKind])
  | whitespace =>
    intro c hc
    have hBlank := isBlank_of_mem_source h hKind c hc
    constructor <;> rintro rfl <;> exact absurd hBlank (by decide)
  | separator =>
    have hRaw : t.raw.kind = .separator := by rw [Token.raw, hKind]; rfl
    have hContent : t.content = ['\\'] :=
      separator_of_mem_lexFrom false source t.raw (raw_mem_lex h) hRaw
    simp [hContent]
  | comment | docComment => simp [Token.isComment, hKind] at hComment
  | _ =>
    have hComma : t.isComma = true := by simpa [Token.isNaming, hKind] using ht
    simp [eq_commaToken hComma, commaToken]

theorem isLegible_of_isNaming (h : t ∈ classify (lex source)) (ht : t.isNaming = true)
    (hOpening : t.isLineComment = true → Text.hasPart ['/', '*'] t.content = false) :
    t.isLegible = true := by
  rw [Token.isLegible]
  split
  · cases hLine : t.isLineComment with
    | false => rfl
    | true => rw [hOpening hLine]; rfl
  · next hComment =>
    have hMarks := not_mark_of_isNaming h ht (by simpa using hComment)
    simpa using hMarks

end Source

/-! ## Records -/

/-- The path of a cell is read from tokens that stand next to each other in the cell. -/
theorem CellOk.pathTokens_record {c : Cell} (hc : CellOk c) (settings : Settings) (offset : Nat) :
    (c.record settings offset).pathTokens <:+: c.tokens := by
  have hCore : c.core <:+: c.tokens := ⟨c.lead.tokens ++ c.qualifier, c.after, by simp [Cell.tokens]⟩
  refine List.IsInfix.trans ?_ hCore
  cases hGroup : c.grouped with
  | false => simp [Record.pathTokens, Cell.record, Cell.arranged, hGroup]
  | true =>
    simp only [Record.pathTokens, Cell.record, hGroup, if_true, hc.takeWhile_arranged settings]
    exact (List.takeWhile_prefix _).isInfix

theorem Spelled.part {after : Text} {part ts : List Token} (h : Spelled after ts)
    (hPart : part <:+: ts) : Spelled [] part := by
  obtain ⟨front, back, rfl⟩ := hPart
  rw [List.append_assoc] at h
  exact h.of_append.initial

/-- A path is what its tokens spell. -/
theorem Cell.path_of_spelled (c : Cell) (settings : Settings) (offset : Nat)
    (h : Spelled [] (c.record settings offset).pathTokens) :
    (c.record settings offset).path = spelling (c.record settings offset).pathTokens := by
  have hPath : (c.record settings offset).path =
      Text.strip (stripComments (textOf (c.record settings offset).pathTokens)) :=
    congrArg (fun entry => entry.2.2) (c.entry_record settings offset)
  have hStripped := stripComments_spelled h
  rw [List.append_nil, stripComments_nil, List.append_nil] at hStripped
  rw [hPath, hStripped, spelling]

/-- A well-formed import of a source text that is made of what names are written with is parsed, and
the path of each record is the text of the tokens it is read from, comments apart and without white
space at its ends. No line comment may hold the opening of a block comment. -/
theorem path_eq_spelling (settings : Settings) {source : Text} {ts : List Token} {u : Nat}
    (hSource : ts = classify (lex source)) (hUse : ts[u]?.any (·.kind == .useWord) = true)
    (hStatement : isStatement (ts.drop (u + 1)) = true)
    (hNaming : ∀ t ∈ statementBody ts u, t.isNaming = true)
    (hOpening : ∀ t ∈ statementBody ts u, t.isLineComment = true →
      Text.hasPart ['/', '*'] t.content = false) :
    ∃ records, parseStatement settings ts u = .ok records ∧ records ≠ [] ∧
      ∀ r ∈ records, r.path = spelling r.pathTokens := by
  obtain ⟨word, hAt, hWord⟩ := (Option.any_eq_true _ _).mp hUse
  rw [beq_iff_eq] at hWord
  obtain ⟨before, after, hSplit, rfl⟩ := exists_split hAt
  have hDrop : ts.drop (before.length + 1) = after := by simp [hSplit]
  rw [hDrop] at hStatement
  obtain ⟨body, stop, rest, rfl, hStop, hBody, hForm⟩ := exists_body_of_isStatement hStatement
  have hInside : statementBody ts before.length = body := by
    rw [statementBody, hDrop, takeWhile_terminator (fun t ht => (hBody t ht).1) hStop]
  rw [hInside] at hNaming hOpening
  have hPlace := hSource.symm.trans hSplit
  have hMem : ∀ t ∈ word :: body, t ∈ classify (lex source) := by
    intro t ht
    rw [hPlace, ← List.cons_append]
    exact List.mem_append_right _ (List.mem_append_left _ ht)
  -- the statement is spelled as a whole, from the `use` up to the terminator
  have hSpelled : Spelled [] (word :: body) := by
    refine .plain (by simp [Token.isComment, hWord])
      (not_mark_of_word (hMem word (by simp)) (by rw [hWord]; rfl)) ?_
    refine @spelled_source source (before ++ [word]) body [] (stop :: rest) (by simp [hPlace])
      (by simp) (fun t ht hClose => ?_) (by simp) fun t ht => ?_
    · have hOpen := (hBody t ht).1
      simp [Token.isTerminator, hClose] at hOpen
    · exact isLegible_of_isNaming (hMem t (by simp [ht])) (hNaming t ht) (hOpening t ht)
  obtain ⟨c, cs, hCells⟩ := @exists_cells_source source before [] body rest word stop
    (by simpa using hPlace) (by simp) hWord hBody hForm
  refine ⟨_, hSplit ▸ hCells.parse hStop settings, by simp [Cell.records], fun r hr => ?_⟩
  obtain ⟨d, hd, offset, rfl⟩ := Cell.exists_cell_of_mem_records hr
  -- each record is read from a part of the statement
  have hPart : d.tokens <:+: word :: body := by
    rw [← List.nil_append (word :: body), ← hCells.tokens, List.flatMap_def]
    exact List.infix_of_mem_flatten (List.mem_map_of_mem hd)
  exact d.path_of_spelled settings offset
    (hSpelled.part (((hCells.ok.each d hd).pathTokens_record settings offset).trans hPart))

/-- Comments of all sorts side by side, in a group of functions. -/
theorem path_eq_spelling_of_remarks :
    let settings : Settings := { algorithm := .unsorted }
    let source :=
      "<?php use function /**//*/ */ Foo # /x\n\\/** d */Bar// *//z\n\\\x7b f, g \x7d;".toList
    let ts := classify (lex source)
    ts[1]?.any (·.kind == .useWord) = true ∧ isStatement (ts.drop 2) = true ∧
      (∀ t ∈ statementBody ts 1, t.isNaming = true) ∧
      (∀ t ∈ statementBody ts 1, t.isLineComment = true →
        Text.hasPart ['/', '*'] t.content = false) ∧
      ∃ r, parseStatement settings ts (1 : Nat) = .ok [r] ∧ r.grouped = true ∧
        r.path = "Foo \n\\Bar\n\\".toList ∧ r.path = spelling r.pathTokens := by
  intro settings source ts
  -- the tokens are worked out once, for all that is to be known about them
  obtain ⟨hUse, hStatement, hNaming, hOpening, hFound⟩ :
      ts[1]?.any (·.kind == .useWord) = true ∧ isStatement (ts.drop 2) = true ∧
        (∀ t ∈ statementBody ts 1, t.isNaming = true) ∧
        (∀ t ∈ statementBody ts 1, t.isLineComment = true →
          Text.hasPart ['/', '*'] t.content = false) ∧
        (parseStatement settings ts (1 : Nat)).toOption.map
          (List.map fun r => (r.grouped, r.path)) = some [(true, "Foo \n\\Bar\n\\".toList)] := by
    decide +kernel
  obtain ⟨records, hParse, -, hPaths⟩ :=
    path_eq_spelling settings (Eq.refl ts) hUse hStatement hNaming hOpening
  rw [hParse] at hFound
  obtain ⟨r, rfl, hRecord⟩ : ∃ r, records = [r] ∧
      (r.grouped, r.path) = (true, "Foo \n\\Bar\n\\".toList) := by
    simpa [Except.toOption, List.map_eq_singleton_iff] using hFound
  obtain ⟨hGrouped, hPath⟩ := Prod.mk.inj hRecord
  exact ⟨hUse, hStatement, hNaming, hOpening, r, hParse, hGrouped, hPath, hPaths r (by simp)⟩

/-- A line comment that opens a block comment hides what the path goes on with. -/
example :
    let ts := classify (lex "<?php use A// /* c\n\\B/* d */;".toList)
    (parseStatement {} ts 1).toOption.map (List.map fun r => (r.path, spelling r.pathTokens)) =
      some [("A".toList, "A\n\\B".toList)] := by
  decide +kernel

end UseOrder
