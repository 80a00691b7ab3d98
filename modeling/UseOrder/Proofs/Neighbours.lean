import UseOrder.Proofs.Scanning

/-!
# Tokens next to each other

What may stand side by side in the tokens of a source text. Markup lies between a close tag and an
open tag, white space comes in one piece, and a line comment is followed by a line break or a close
tag (`Neighbours`). None of this is asked for anywhere: it follows from where each rule of the
splitting stops (`neighbours_lexeme`, `openTag_behind_markup`), since the next token begins with the
character at which the last one ended.
-/

namespace UseOrder

/-- What the token `t` and the one right behind it have to do with each other. -/
structure Neighbours (t next : Token) : Prop where
  /-- Markup starts behind a close tag only. -/
  markup : next.kind = .inlineHtml → t.kind = .closeTag
  /-- Code starts behind markup or a close tag only. -/
  opening : next.kind = .openTag → t.kind = .inlineHtml ∨ t.kind = .closeTag
  /-- Markup goes on up to an open tag. -/
  code : t.kind = .inlineHtml → next.kind = .openTag
  /-- Behind a close tag there is no code. -/
  closing : t.kind = .closeTag → next.kind = .inlineHtml ∨ next.kind = .openTag
  /-- White space is not divided. -/
  space : t.kind = .whitespace → next.kind ≠ .whitespace
  /-- A line comment goes on up to the end of its line or a close tag. -/
  line : t.isLineComment = true → next.kind = .closeTag ∨ next.kind = .whitespace ∧
    (next.content.head? = some '\r' ∨ next.content.head? = some '\n')

/-- What white space and line comments are made of. -/
structure Worded (t : Token) : Prop where
  space : t.kind = .whitespace → ∀ c ∈ t.content, isBlank c = true
  line : t.isLineComment = true →
    '\r' ∉ t.content ∧ '\n' ∉ t.content ∧ ¬ "?>".toList <:+: t.content

/-! ## Where white space and line comments end -/

theorem isBlank_of_lexeme {c : Char} {rest : Text} (h : (lexeme c rest).1 = .whitespace) :
    isBlank c = true := by
  by_contra hBlank
  have hWord (word : Text) : TokenKind.ofWord word ≠ .whitespace := by
    rcases ofWord_cases word with hWord | hWord | hWord <;> simp [hWord]
  simp only [lexeme, hBlank, if_false] at h
  -- of all rules only that for blanks gives white space
  repeat' split at h
  all_goals first | exact hWord _ h | simp at h

/-- Up to where it ends, a line comment holds neither the end of a line nor a close tag, and it ends
in front of one of them or with the text. -/
theorem lineCommentLength_spec (text : Text) :
    (∀ c ∈ text.take (lineCommentLength text), c ≠ '\r' ∧ c ≠ '\n') ∧
      ¬ ['?', '>'] <:+: text.take (lineCommentLength text) ∧
      lineCommentLength (text.drop (lineCommentLength text)) = 0 := by
  induction text with
  | nil => simp [lineCommentLength]
  | cons c rest ih =>
    obtain ⟨hLine, hTag, hStop⟩ := ih
    rw [lineCommentLength_cons]
    split
    · next hEnd => exact ⟨by simp, by simp, by rw [List.drop_zero, lineCommentLength_cons, if_pos hEnd]⟩
    · next hGo =>
      simp only [Bool.or_eq_true, Bool.and_eq_true, beq_iff_eq, not_or] at hGo
      rw [List.take_succ_cons, List.drop_succ_cons]
      refine ⟨List.forall_mem_cons.mpr ⟨⟨hGo.1.2, hGo.2⟩, hLine⟩, ?_, hStop⟩
      rw [List.infix_cons_iff, not_or]
      refine ⟨fun hPrefix => hGo.1.1 ?_, hTag⟩
      -- the two characters of the tag would stand side by side in the text as well
      obtain ⟨rfl, hNext⟩ := List.cons_prefix_cons.mp hPrefix
      obtain ⟨later, hLater⟩ := hNext.trans (List.take_prefix _ _)
      exact ⟨rfl, by rw [← hLater]; rfl⟩

theorem cases_of_lineCommentLength {c : Char} {rest : Text} (h : lineCommentLength (c :: rest) = 0) :
    (c = '?' ∧ rest.head? = some '>') ∨ c = '\r' ∨ c = '\n' := by
  rw [lineCommentLength_cons] at h
  split at h
  · next hEnd => simpa [or_assoc] using hEnd
  · simp at h

/-- The rule that gives a line comment. -/
theorem lexeme_lineComment {c : Char} {rest : Text} {kind : TokenKind} {n : Nat}
    (h : lexeme c rest = (kind, n)) (hLine : Token.isLineComment ⟨kind, c :: rest.take n⟩ = true) :
    (c = '/' ∨ c = '#') ∧ n = lineCommentLength rest := by
  simp only [Token.isLineComment, Bool.and_eq_true, Bool.or_eq_true, beq_iff_eq,
    List.isPrefixOf_iff_prefix] at hLine
  obtain ⟨rfl, hSlashes | hHash⟩ := hLine
  · have hSlashes : ['/', '/'] <+: c :: rest.take n := hSlashes
    obtain ⟨rfl, hNext⟩ := List.cons_prefix_cons.mp hSlashes
    obtain ⟨later, hLater⟩ := hNext.trans (List.take_prefix n rest)
    have hHead : rest.head? = some '/' := by rw [← hLater]; rfl
    rw [lexeme_slash, if_neg (by simp [hHead]), if_pos hHead] at h
    exact ⟨.inl rfl, (Prod.mk.inj h).2.symm⟩
  · have hHash : ['#'] <+: c :: rest.take n := hHash
    obtain ⟨rfl, -⟩ := List.cons_prefix_cons.mp hHash
    rw [lexeme_hash] at h
    split at h
    · simp at h
    · exact ⟨.inr rfl, (Prod.mk.inj h).2.symm⟩

theorem worded_lexeme {c : Char} {rest : Text} {kind : TokenKind} {n : Nat}
    (h : lexeme c rest = (kind, n)) : Worded ⟨kind, c :: rest.take n⟩ := by
  refine ⟨fun hSpace => ?_, fun hLine => ?_⟩
  · obtain rfl : kind = .whitespace := hSpace
    have hBlank : isBlank c = true := isBlank_of_lexeme (congrArg Prod.fst h)
    rw [lexeme_blank hBlank] at h
    obtain rfl := (Prod.mk.inj h).2
    have hTake : rest.take (rest.takeWhile isBlank).length = rest.takeWhile isBlank :=
      (List.prefix_iff_eq_take.mp (List.takeWhile_prefix isBlank)).symm
    refine List.forall_mem_cons.mpr ⟨hBlank, ?_⟩
    rw [hTake]
    exact fun d hd => List.mem_takeWhile_imp hd
  · obtain ⟨hFirst, rfl⟩ := lexeme_lineComment h hLine
    obtain ⟨hBreaks, hTag, -⟩ := lineCommentLength_spec rest
    have hPlain : c ≠ '\r' ∧ c ≠ '\n' ∧ c ≠ '?' := by rcases hFirst with rfl | rfl <;> decide
    refine ⟨?_, ?_, ?_⟩
    · rw [List.mem_cons, not_or]
      exact ⟨hPlain.1.symm, fun hMem => (hBreaks _ hMem).1 rfl⟩
    · rw [List.mem_cons, not_or]
      exact ⟨hPlain.2.1.symm, fun hMem => (hBreaks _ hMem).2 rfl⟩
    · intro hInfix
      rcases List.infix_cons_iff.mp hInfix with hPrefix | hInfix
      · exact hPlain.2.2 (List.cons_prefix_cons.mp hPrefix).1.symm
      · exact hTag hInfix

/-! ## The next token -/

theorem kind_head_code {text : Text} {next : Token} (h : next ∈ (lexFrom true text).head?) :
    next.kind ≠ .openTag ∧ next.kind ≠ .inlineHtml := by
  obtain ⟨more, hMore⟩ := List.head?_eq_some_iff.mp h
  have hAlternates := alternates_lexFrom true text
  rw [hMore] at hAlternates
  exact ⟨hAlternates.1, hAlternates.2.1⟩

theorem kind_head_markup {text : Text} {next : Token} (h : next ∈ (lexFrom false text).head?) :
    next.kind = .openTag ∨ next.kind = .inlineHtml := by
  obtain ⟨more, hMore⟩ := List.head?_eq_some_iff.mp h
  have hAlternates := alternates_lexFrom false text
  rw [hMore] at hAlternates
  exact hAlternates.imp And.left And.left

theorem head_lexFrom_code {c : Char} {rest : Text} {next : Token}
    (h : next ∈ (lexFrom true (c :: rest)).head?) :
    next = ⟨(lexeme c rest).1, c :: rest.take (lexeme c rest).2⟩ := by
  rw [lexFrom_code rfl] at h
  exact (Option.some.inj h).symm

/-- A run of characters goes on as far as it can. -/
theorem not_class_behind {p : Char → Bool} {rest more : Text} {d : Char}
    (h : rest.drop (rest.takeWhile p).length = d :: more) : p d = false := by
  have hSplit := @List.drop_left _ (rest.takeWhile p) (rest.dropWhile p)
  rw [List.takeWhile_append_dropWhile, h] at hSplit
  have hFirst := List.head?_dropWhile_not p rest
  rw [← hSplit] at hFirst
  exact hFirst

/-- White space is taken along as far as it goes. -/
theorem not_space_behind {rest : Text} {next : Token}
    (h : next ∈ (lexFrom true (rest.drop (rest.takeWhile isBlank).length)).head?) :
    next.kind ≠ .whitespace := by
  cases hRest : rest.drop (rest.takeWhile isBlank).length with
  | nil => simp [hRest] at h
  | cons d more =>
    rw [hRest] at h
    rw [head_lexFrom_code h]
    intro hSpace
    exact absurd (isBlank_of_lexeme hSpace) (by simp [not_class_behind hRest])

theorem behind_lineComment {after : Text} {next : Token} (hStop : lineCommentLength after = 0)
    (h : next ∈ (lexFrom true after).head?) :
    next.kind = .closeTag ∨ next.kind = .whitespace ∧
      (next.content.head? = some '\r' ∨ next.content.head? = some '\n') := by
  cases after with
  | nil => simp at h
  | cons d more =>
    rw [head_lexFrom_code h]
    rcases cases_of_lineCommentLength hStop with ⟨rfl, hTag⟩ | rfl | rfl
    · left
      rw [lexeme_question, if_pos hTag]
    · right
      rw [lexeme_blank (by decide)]
      exact ⟨rfl, .inl rfl⟩
    · right
      rw [lexeme_blank (by decide)]
      exact ⟨rfl, .inr rfl⟩

/-- A token of code and the one behind it. -/
theorem neighbours_lexeme {c : Char} {rest : Text} {kind : TokenKind} {n : Nat}
    (h : lexeme c rest = (kind, n)) {next : Token}
    (hNext : next ∈ (lexFrom (kind != .closeTag) (rest.drop n)).head?) :
    Neighbours ⟨kind, c :: rest.take n⟩ next := by
  have hCode : kind ≠ .inlineHtml := by
    rintro rfl
    have hKind := isCode_lexeme c rest
    rw [h] at hKind
    simp [TokenKind.isCode] at hKind
  by_cases hClose : kind = .closeTag
  · subst hClose
    have hMarkup := kind_head_markup hNext
    exact ⟨fun _ => rfl, fun _ => .inr rfl, by simp, fun _ => hMarkup.symm, by simp,
      by simp [Token.isLineComment]⟩
  · rw [bne_iff_ne.mpr hClose] at hNext
    obtain ⟨hOpen, hHtml⟩ := kind_head_code hNext
    refine ⟨fun hKind => absurd hKind hHtml, fun hKind => absurd hKind hOpen,
      fun hKind => absurd hKind hCode, fun hKind => absurd hKind hClose, fun hSpace => ?_,
      fun hLine => ?_⟩
    · obtain rfl : kind = .whitespace := hSpace
      rw [lexeme_blank (isBlank_of_lexeme (congrArg Prod.fst h))] at h
      obtain rfl := (Prod.mk.inj h).2
      exact not_space_behind hNext
    · obtain ⟨-, rfl⟩ := lexeme_lineComment h hLine
      exact behind_lineComment (lineCommentLength_spec rest).2.2 hNext

/-- Markup is read up to an open tag. -/
theorem openTag_behind_markup {rest : Text} {next : Token}
    (h : next ∈ (lexFrom false (rest.drop (htmlLength rest))).head?) : next.kind = .openTag := by
  cases hRest : rest.drop (htmlLength rest) with
  | nil => simp [hRest] at h
  | cons d more =>
    have hLength : (rest.take (htmlLength rest)).length = htmlLength rest := by
      refine List.length_take_of_le (le_of_not_ge fun hShort => ?_)
      simp [List.drop_eq_nil_iff.mpr hShort] at hRest
    have hOpens : opensCode (d :: more) = true := by
      refine @opensCode_of_htmlLength (rest.take (htmlLength rest)) _ ?_ (by simp)
      rw [← hRest, List.take_append_drop, hLength]
    obtain ⟨m, hTag⟩ := Option.isSome_iff_exists.mp hOpens
    rw [hRest, lexFrom_openTag hTag] at h
    rw [← Option.some.inj h]

/-! ## The tokens of a text -/

theorem neighbours_lexFrom (inCode : Bool) (text : Text) :
    (lexFrom inCode text).IsChain Neighbours := by
  refine isChain_lexFrom (fun h next hNext => neighbours_lexeme h hNext)
    (fun content rest next hNext => ?_) (fun content rest next hNext => ?_) inCode text
  · obtain ⟨hOpen, hHtml⟩ := kind_head_code hNext
    exact ⟨fun hKind => absurd hKind hHtml, fun hKind => absurd hKind hOpen, by simp, by simp,
      by simp, by simp [Token.isLineComment]⟩
  · have hOpen := openTag_behind_markup hNext
    exact ⟨by simp [hOpen], fun _ => .inl rfl, fun _ => hOpen, by simp, by simp,
      by simp [Token.isLineComment]⟩

theorem worded_lexFrom (inCode : Bool) (text : Text) : ∀ t ∈ lexFrom inCode text, Worded t :=
  forall_mem_lexFrom worded_lexeme (fun _ _ => ⟨by simp, by simp [Token.isLineComment]⟩)
    (fun _ _ => ⟨by simp, by simp [Token.isLineComment]⟩) inCode text

/-! ## Words -/

theorem isNameStart_of_lexeme {c : Char} {rest word : Text}
    (h : (lexeme c rest).1 = .ofWord word) : isNameStart c = true := by
  by_contra hStart
  have hOther : ∀ kind : TokenKind, kind ≠ .name → kind ≠ .useWord → kind ≠ .namespaceWord →
      kind ≠ .ofWord word := by
    intro kind hName hUse hNamespace
    rcases ofWord_cases word with hWord | hWord | hWord <;> rwa [hWord]
  simp only [lexeme, hStart, if_false] at h
  -- no rule but that for names gives a word
  repeat' split at h
  all_goals exact hOther _ (by simp) (by simp) (by simp) h

/-- A word is taken along as far as it goes. -/
theorem not_word_behind {rest : Text} {next : Token}
    (h : next ∈ (lexFrom true (rest.drop (rest.takeWhile isWord).length)).head?) :
    next.kind ≠ .ofWord next.content := by
  cases hRest : rest.drop (rest.takeWhile isWord).length with
  | nil => simp [hRest] at h
  | cons d more =>
    rw [hRest] at h
    rw [head_lexFrom_code h]
    intro hWord
    have hStart := isNameStart_of_lexeme hWord
    rw [isNameStart, not_class_behind hRest, Bool.false_and] at hStart
    exact absurd hStart (by simp)

theorem ofWord_ne_markup {kind : TokenKind} (h : kind = .openTag ∨ kind = .inlineHtml)
    (word : Text) : kind ≠ .ofWord word := by
  rcases ofWord_cases word with hWord | hWord | hWord <;> rcases h with rfl | rfl <;> simp [hWord]

/-- A word of a text goes as far as the characters of words do. -/
theorem length_of_word {c : Char} {rest : Text} {n : Nat}
    (h : lexeme c rest = (.ofWord (c :: rest.take n), n)) :
    isNameStart c = true ∧ n = (rest.takeWhile isWord).length := by
  have hStart : isNameStart c = true := isNameStart_of_lexeme (congrArg Prod.fst h)
  rw [lexeme_word hStart] at h
  exact ⟨hStart, (Prod.mk.inj h).2.symm⟩

/-- No word stands right behind another one. -/
theorem words_lexFrom (inCode : Bool) (text : Text) : (lexFrom inCode text).IsChain fun t next =>
    t.kind = .ofWord t.content → next.kind ≠ .ofWord next.content := by
  refine isChain_lexFrom (fun {c rest kind n} h next hNext hWord => ?_)
    (fun _ _ _ _ hWord => absurd hWord (ofWord_ne_markup (.inl rfl) _))
    (fun _ _ _ _ hWord => absurd hWord (ofWord_ne_markup (.inr rfl) _)) inCode text
  obtain rfl : kind = .ofWord (c :: rest.take n) := hWord
  obtain ⟨-, rfl⟩ := length_of_word h
  have hCode : (TokenKind.ofWord (c :: rest.take (rest.takeWhile isWord).length) != .closeTag) =
      true := by
    rcases ofWord_cases (c :: rest.take (rest.takeWhile isWord).length) with hWord | hWord | hWord <;>
      simp [hWord]
  rw [hCode] at hNext
  exact not_word_behind hNext

/-- A word is made of the characters of words. -/
theorem isWord_of_mem_lexFrom (inCode : Bool) (text : Text) : ∀ t ∈ lexFrom inCode text,
    t.kind = .ofWord t.content → ∀ d ∈ t.content, isWord d = true := by
  refine forall_mem_lexFrom (fun {c rest kind n} h hWord => ?_)
    (fun _ _ hWord => absurd hWord (ofWord_ne_markup (.inl rfl) _))
    (fun _ _ hWord => absurd hWord (ofWord_ne_markup (.inr rfl) _)) inCode text
  obtain rfl : kind = .ofWord (c :: rest.take n) := hWord
  obtain ⟨hStart, rfl⟩ := length_of_word h
  rw [isNameStart, Bool.and_eq_true] at hStart
  refine List.forall_mem_cons.mpr ⟨hStart.1, fun d hd => ?_⟩
  rw [← List.prefix_iff_eq_take.mp (List.takeWhile_prefix isWord)] at hd
  exact List.mem_takeWhile_imp hd

/-! ## Relabelled tokens -/

section Source

variable {source : Text} {t : Token}

theorem raw_mem_lex (h : t ∈ classify (lex source)) : t.raw ∈ lex source := by
  rw [← map_raw_classify]
  exact List.mem_map_of_mem h

theorem isBlank_of_mem_source (h : t ∈ classify (lex source)) (hSpace : t.kind = .whitespace) :
    ∀ c ∈ t.content, isBlank c = true :=
  (worded_lexFrom false source t.raw (raw_mem_lex h)).space (by rw [Token.raw, hSpace]; rfl)

theorem isWord_of_qualifier (h : t ∈ classify (lex source))
    (hWord : t.kind = .constWord ∨ t.kind = .functionWord) : ∀ d ∈ t.content, isWord d = true := by
  have hRaw : t.raw.kind = .ofWord t.raw.content := by
    rcases hWord with hWord | hWord <;> simp [Token.raw, hWord, TokenKind.raw]
  exact isWord_of_mem_lexFrom false source t.raw (raw_mem_lex h) hRaw

end Source

/-! ## What splitting promises -/

/-- In the tokens of any text, those next to each other are `Neighbours`, white space and line
comments are worded as such, and no open tag stands between a `use` and its terminator. -/
theorem lex_neighbours (source : Text) :
    (lex source).IsChain Neighbours ∧ (∀ t ∈ lex source, Worded t) ∧
      ∀ before word body rest, lex source = before ++ word :: (body ++ rest) →
        word.kind = .useWord → (∀ t ∈ body, t.isTerminator = false) →
        ∀ t ∈ body, t.kind ≠ .openTag := by
  refine ⟨neighbours_lexFrom false source, worded_lexFrom false source, ?_⟩
  intro before word body rest hSplit hWord hBody
  have hAlternates := alternates_lexFrom false source
  rw [← lex, hSplit] at hAlternates
  obtain ⟨mode, hMode⟩ := hAlternates.after
  exact (hMode.of_use hWord).not_openTag hBody

/-- Markup on both sides of code, with a line comment in front of a line break and another one in
front of a close tag, and an import that a close tag ends. -/
theorem lex_neighbours_of_markup :
    let ts := lex "a<?php // b\n use A ?><?= # c?>d".toList
    ts.IsChain Neighbours ∧ ts.countP Token.isLineComment = 2 ∧
      ∀ t ∈ (ts.drop 5).take 3, t.kind ≠ .openTag := by
  have hLine : (lex "a<?php // b\n use A ?><?= # c?>d".toList).countP Token.isLineComment = 2 := by
    decide +kernel
  obtain ⟨hChain, -, hStatement⟩ := lex_neighbours "a<?php // b\n use A ?><?= # c?>d".toList
  refine ⟨hChain, hLine, hStatement _ ⟨.useWord, "use".toList⟩ _ _
    (show lex "a<?php // b\n use A ?><?= # c?>d".toList =
      (lex "a<?php // b\n use A ?><?= # c?>d".toList).take 4 ++ _ :: (_ ++
        (lex "a<?php // b\n use A ?><?= # c?>d".toList).drop 8) by decide +kernel) rfl
    (by decide +kernel)⟩

end UseOrder
