import UseOrder.Import.Comments
import UseOrder.Proofs.Adjoining

/-!
# Comments in a text and comments among tokens

The path of a record and the first segment of an import are read off a text, from which comments are
dropped by their characters: first everything from `/*` to the next `*/`, then everything from `//`
or `#` to the end of the line. The tokens tell comments apart as well, and need not agree with that:
a line comment may hold the opening of a block comment, and a string both.

Tokens are `Spelled` where no such thing happens. What is left of their text is then the text of the
tokens that are no comments, and what stands behind them is stripped on its own
(`stripComments_spelled`). In a source text this is asked of each token alone (`Token.isLegible`),
since splitting already ends line comments at the end of a line and block comments where they are
closed (`spelled_source`).
-/

namespace UseOrder

/-! ## Block comments -/

theorem closedCommentLength?_cons (c : Char) (rest : Text) :
    closedCommentLength? (c :: rest) =
      if c == '*' && rest.head? == some '/' then some 2
      else (closedCommentLength? rest).map (· + 1) := by
  by_cases hEnd : c = '*' ∧ rest.head? = some '/'
  · obtain ⟨rfl, hHead⟩ := hEnd
    obtain ⟨tail, rfl⟩ := List.head?_eq_some_iff.mp hHead
    simp [closedCommentLength?]
  · rw [closedCommentLength?.eq_3 c rest fun tail hc hRest => hEnd ⟨hc, by simp [hRest]⟩, if_neg]
    simpa using hEnd

/-- A block comment that has something behind it is closed, whatever that is. -/
theorem closedCommentLength?_append {cs after : Text} (hAfter : after ≠ [])
    (h : blockCommentLength (cs ++ after) = cs.length) (later : Text) :
    closedCommentLength? (cs ++ later) = some cs.length := by
  induction cs with
  | nil =>
    obtain ⟨c, rest, rfl⟩ := List.exists_cons_of_ne_nil hAfter
    rw [List.nil_append, blockCommentLength_cons, List.length_nil] at h
    split at h <;> omega
  | cons c cs ih =>
    rw [List.cons_append, blockCommentLength_cons, List.length_cons] at h
    rw [List.cons_append, closedCommentLength?_cons]
    split at h
    · next hEnd =>
      obtain ⟨d, rfl⟩ := List.length_eq_one_iff.mp (show cs.length = 1 by omega)
      rw [if_pos (by simpa using hEnd)]
      rfl
    · next hGo =>
      have hRest : blockCommentLength (cs ++ after) = cs.length := by omega
      have hTwo := (blockCommentLength_append hAfter hRest).1
      -- the end mark lies in what is left, so nothing behind it is looked at
      obtain ⟨d, cs, rfl⟩ := List.exists_cons_of_length_pos (show 0 < cs.length by omega)
      rw [if_neg (by simpa using hGo), ih hRest]
      rfl

/-- A block comment that ends where it is closed. -/
def IsBlockComment (content : Text) : Prop :=
  ∃ cs, content = '/' :: '*' :: cs ∧ ∀ later, closedCommentLength? (cs ++ later) = some cs.length

theorem dropBlockComments_block {content : Text} (h : IsBlockComment content) (later : Text) :
    dropBlockComments (content ++ later) = dropBlockComments later := by
  obtain ⟨cs, rfl, hClosed⟩ := h
  rw [List.cons_append, dropBlockComments, if_pos (by simp)]
  have hLength : closedCommentLength? (('*' :: cs ++ later).drop 1) = some cs.length := hClosed later
  rw [hLength]
  simp only [Nat.add_comm 1, List.cons_append, List.drop_succ_cons, List.drop_left]

/-- Where no block comment begins, nothing is dropped. -/
theorem dropBlockComments_append {text later : Text} (hNone : Text.hasPart ['/', '*'] text = false)
    (hEdge : text.getLast? = some '/' → later.head? ≠ some '*') :
    dropBlockComments (text ++ later) = text ++ dropBlockComments later := by
  induction text with
  | nil => rfl
  | cons c text ih =>
    rw [Text.hasPart, Bool.or_eq_false_iff] at hNone
    -- the two characters are in the text, or on both sides of the edge
    have hOpen : (c == '/' && (text ++ later).head? == some '*') = false := by
      rw [Bool.and_eq_false_imp]
      intro hSlash
      rw [beq_iff_eq] at hSlash
      subst hSlash
      cases text with
      | nil => simpa using hEdge rfl
      | cons d text =>
        have hStar : '*' ≠ d := by simpa [List.isPrefixOf] using hNone.1
        simpa using hStar.symm
    rw [List.cons_append, dropBlockComments, hOpen, if_neg (by simp), ih hNone.2, List.cons_append]
    intro hLast
    cases text with
    | nil => simp at hLast
    | cons d text => exact hEdge (by rwa [List.getLast?_cons_cons])

theorem hasPart_of_not_mem {c d : Char} {text : Text} (h : c ∉ text) :
    Text.hasPart [c, d] text = false := by
  induction text with
  | nil => rfl
  | cons e text ih =>
    rw [List.mem_cons, not_or] at h
    rw [Text.hasPart, ih h.2, List.isPrefixOf, beq_false_of_ne h.1]
    rfl

/-! ## Line comments -/

/-- The text ends, or its line does. -/
def atLineEnd (text : Text) : Bool :=
  text.head?.all fun c => c == '\r' || c == '\n'

theorem dropLineCommentsFrom_plain {text : Text} (h : ∀ c ∈ text, c ≠ '/' ∧ c ≠ '#') (later : Text) :
    dropLineCommentsFrom false (text ++ later) = text ++ dropLineCommentsFrom false later := by
  induction text with
  | nil => rfl
  | cons c text ih =>
    obtain ⟨hc, hText⟩ := List.forall_mem_cons.mp h
    rw [List.cons_append, dropLineCommentsFrom, ih hText]
    simp [hc.1, hc.2]

/-- A comment runs on up to the end of its line. -/
theorem dropLineCommentsFrom_comment {text : Text} (hBreaks : '\r' ∉ text ∧ '\n' ∉ text)
    (later : Text) : dropLineCommentsFrom true (text ++ later) = dropLineCommentsFrom true later := by
  induction text with
  | nil => rfl
  | cons c text ih =>
    simp only [List.mem_cons, not_or] at hBreaks
    obtain ⟨⟨hReturn, hTexts⟩, hFeed, hText⟩ := hBreaks
    rw [List.cons_append, dropLineCommentsFrom, ih ⟨hTexts, hText⟩, if_neg, if_pos (by simp)]
    simp [Ne.symm hReturn, Ne.symm hFeed]

theorem dropLineCommentsFrom_lineEnd {text : Text} (h : atLineEnd text = true) :
    dropLineCommentsFrom true text = dropLineCommentsFrom false text := by
  cases text with
  | nil => rfl
  | cons c text =>
    have hBreak : (c == '\r' || c == '\n') = true := by simpa [atLineEnd] using h
    rw [dropLineCommentsFrom, dropLineCommentsFrom, if_pos hBreak, if_pos hBreak]

/-- A line comment that ends with its line is dropped. -/
theorem dropLineComments_line {t : Token} {later : Text} (hLine : t.isLineComment = true)
    (hBreaks : '\r' ∉ t.content ∧ '\n' ∉ t.content) (hEnd : atLineEnd later = true) :
    dropLineComments (t.content ++ later) = dropLineComments later := by
  obtain ⟨-, hMark⟩ : t.kind = .comment ∧ (['/', '/'] <+: t.content ∨ ['#'] <+: t.content) := by
    simpa [Token.isLineComment] using hLine
  obtain ⟨c, cs, hContent, hOpens⟩ : ∃ c cs, t.content = c :: cs ∧
      (c == '#' || (c == '/' && (cs ++ later).head? == some '/')) = true := by
    rcases hMark with ⟨cs, hContent⟩ | ⟨cs, hContent⟩
    · exact ⟨'/', '/' :: cs, hContent.symm, by simp⟩
    · exact ⟨'#', cs, hContent.symm, by simp⟩
  rw [hContent] at hBreaks ⊢
  simp only [List.mem_cons, not_or] at hBreaks
  rw [dropLineComments, dropLineComments, List.cons_append, dropLineCommentsFrom, if_neg, if_pos,
    dropLineCommentsFrom_comment ⟨hBreaks.1.2, hBreaks.2.2⟩, dropLineCommentsFrom_lineEnd hEnd]
  · simpa using hOpens
  · simp [Ne.symm hBreaks.1.1, Ne.symm hBreaks.2.1]

/-! ## Both passes -/

@[simp] theorem stripComments_nil : stripComments [] = [] := by
  rw [stripComments, dropBlockComments]
  rfl

theorem stripComments_plain {text : Text} (h : ∀ c ∈ text, c ≠ '/' ∧ c ≠ '#') (later : Text) :
    stripComments (text ++ later) = text ++ stripComments later := by
  have hSlash : '/' ∉ text := fun hMem => (h _ hMem).1 rfl
  rw [stripComments, dropBlockComments_append (hasPart_of_not_mem hSlash)
    fun hLast => absurd (List.mem_of_getLast? hLast) hSlash]
  exact dropLineCommentsFrom_plain h _

theorem stripComments_block {content : Text} (h : IsBlockComment content) (later : Text) :
    stripComments (content ++ later) = stripComments later := by
  rw [stripComments, dropBlockComments_block h, stripComments]

theorem stripComments_line {t : Token} {later : Text} (hLine : t.isLineComment = true)
    (hBreaks : '\r' ∉ t.content ∧ '\n' ∉ t.content)
    (hOpening : Text.hasPart ['/', '*'] t.content = false) (hEnd : atLineEnd later = true) :
    stripComments (t.content ++ later) = stripComments later := by
  have hNext : later.head? ≠ some '*' := by
    intro hHead
    simp [atLineEnd, hHead] at hEnd
  have hStill : atLineEnd (dropBlockComments later) = true := by
    cases later with
    | nil => simp [dropBlockComments, atLineEnd]
    | cons c later =>
      -- a line break begins no comment, so it is still there
      have hBreak : c = '\r' ∨ c = '\n' := by simpa [atLineEnd] using hEnd
      have hOpen : (c == '/' && later.head? == some '*') = false := by
        rcases hBreak with rfl | rfl <;> rfl
      rw [dropBlockComments, hOpen, if_neg (by simp)]
      simpa [atLineEnd] using hBreak
  rw [stripComments, dropBlockComments_append hOpening fun _ => hNext,
    dropLineComments_line hLine hBreaks hStill, stripComments]

/-! ## Tokens -/

/-- In front of `after`, the characters of the tokens tell their comments apart as the tokens do. -/
inductive Spelled (after : Text) : List Token → Prop
  | nil : Spelled after []
  | plain {t : Token} {ts : List Token} (kind : t.isComment = false)
      (chars : ∀ c ∈ t.content, c ≠ '/' ∧ c ≠ '#') (rest : Spelled after ts) :
    Spelled after (t :: ts)
  | block {t : Token} {ts : List Token} (kind : t.isComment = true)
      (closed : IsBlockComment t.content) (rest : Spelled after ts) : Spelled after (t :: ts)
  | line {t : Token} {ts : List Token} (kind : t.isLineComment = true)
      (breaks : '\r' ∉ t.content ∧ '\n' ∉ t.content)
      (opening : Text.hasPart ['/', '*'] t.content = false)
      (lineEnd : atLineEnd (textOf ts ++ after) = true) (rest : Spelled after ts) :
    Spelled after (t :: ts)

theorem Token.isComment_of_isLineComment {t : Token} (h : t.isLineComment = true) :
    t.isComment = true := by
  rw [Token.isLineComment, Bool.and_eq_true] at h
  rw [Token.isComment, h.1, Bool.true_or]

/-- What is left of the text of spelled tokens is the text of those that are no comments. -/
theorem stripComments_spelled {ts : List Token} {after : Text} (h : Spelled after ts) :
    stripComments (textOf ts ++ after) =
      textOf (ts.filter fun t => !t.isComment) ++ stripComments after := by
  induction h with
  | nil => rfl
  | plain kind chars _ ih =>
    rw [textOf_cons, List.append_assoc, stripComments_plain chars, ih, List.filter_cons_of_pos
      (by simp [kind]), textOf_cons, List.append_assoc]
  | block kind closed _ ih =>
    rw [textOf_cons, List.append_assoc, stripComments_block closed, ih, List.filter_cons_of_neg
      (by simp [kind])]
  | line kind breaks opening lineEnd _ ih =>
    rw [textOf_cons, List.append_assoc, stripComments_line kind breaks opening lineEnd, ih,
      List.filter_cons_of_neg (by simp [Token.isComment_of_isLineComment kind])]

theorem Spelled.of_append {after : Text} {a b : List Token} (h : Spelled after (a ++ b)) :
    Spelled after b := by
  induction a with
  | nil => exact h
  | cons t a ih => cases h <;> exact ih ‹_›

/-- The beginning of spelled tokens is spelled with nothing behind it. -/
theorem Spelled.initial {after : Text} {a b : List Token} (h : Spelled after (a ++ b)) :
    Spelled [] a := by
  induction a with
  | nil => exact .nil
  | cons t a ih =>
    cases h with
    | plain kind chars rest => exact .plain kind chars (ih rest)
    | block kind closed rest => exact .block kind closed (ih rest)
    | line kind breaks opening lineEnd rest =>
      refine .line kind breaks opening ?_ (ih rest)
      rw [List.append_nil]
      rw [List.append_eq, textOf_append, List.append_assoc] at lineEnd
      cases hText : textOf a with
      | nil => rfl
      | cons c more => simpa [hText, atLineEnd] using lineEnd

/-! ## The tokens of a source text -/

/-- No comment begins in the token but the one that it is. -/
def Token.isLegible (t : Token) : Bool :=
  if t.isComment then !(t.isLineComment && Text.hasPart ['/', '*'] t.content)
  else t.content.all fun c => c != '/' && c != '#'

theorem Lexical.isBlockComment {t : Token} (h : Lexical t) (hComment : t.isComment = true)
    (hLine : t.isLineComment = false) : IsBlockComment t.content := by
  cases h with
  | blockComment cs two closed =>
    exact ⟨cs, rfl, closedCommentLength?_append (List.cons_ne_nil ' ' []) (closed [' '])⟩
  | lineComment cs line => simp [Token.isLineComment] at hLine
  | hashComment cs first line => simp [Token.isLineComment] at hLine
  | word c cs start words =>
    rcases ofWord_cases (c :: cs) with hWord | hWord | hWord <;>
      simp [Token.isComment, hWord] at hComment
  | _ => simp [Token.isComment] at hComment

/-- A comment with a token behind it is a line comment or closed. -/
theorem blockComments_lexFrom (inCode : Bool) (text : Text) : (lexFrom inCode text).IsChain fun t _ =>
    t.isComment = true → t.isLineComment = false → IsBlockComment t.content := by
  refine isChain_lexFrom (fun {c rest kind n} h next hNext hComment hLine => ?_)
    (by simp [Token.isComment]) (by simp [Token.isComment]) inCode text
  -- only at the end of the text may a block comment be open, and here a token follows
  have hAfter : rest.drop n ≠ [] := by
    intro hNil
    simp [hNil] at hNext
  have hLength : (rest.take n).length = n := by
    rw [ne_eq, List.drop_eq_nil_iff] at hAfter
    exact List.length_take_of_le (by omega)
  have hReads : Reads ⟨kind, c :: rest.take n⟩ (rest.drop n) :=
    ⟨c, rest.take n, rfl, by rw [List.take_append_drop, h, hLength]⟩
  have hOpens : opensText ⟨kind, c :: rest.take n⟩ (rest.drop n) = false := by
    rw [Token.isComment] at hComment
    cases kind <;> simp_all [opensText]
  exact (lexical_of_reads hReads hAfter hOpens).1.isBlockComment hComment hLine

theorem Token.raw_of_isComment {t : Token} (h : t.isComment = true) : t.raw = t := by
  rw [Token.isComment, Bool.or_eq_true, beq_iff_eq, beq_iff_eq] at h
  exact Token.raw_eq_self (by rcases h with h | h <;> rw [h] <;> rfl)

/-- What a comment in a source text has to do with the token behind it. -/
theorem comment_source {source : Text} {before more : List Token} {t next : Token}
    (hSource : classify (lex source) = before ++ t :: next :: more) (hComment : t.isComment = true) :
    Worded t ∧ Neighbours t next.raw ∧ (t.isLineComment = false → IsBlockComment t.content) := by
  have hRaw := Token.raw_of_isComment hComment
  have hMap : lex source = before.map Token.raw ++ t :: next.raw :: more.map Token.raw := by
    rw [← map_raw_classify, hSource, List.map_append, List.map_cons, List.map_cons, hRaw]
  have hChain := neighbours_lexFrom false source
  have hBlocks := blockComments_lexFrom false source
  rw [← lex, hMap, List.isChain_append, List.isChain_cons_cons] at hChain hBlocks
  refine ⟨worded_lexFrom false source t ?_, hChain.2.1.1, hBlocks.2.1.1 hComment⟩
  rw [← lex, hMap]
  simp

/-- Legible tokens of an import are spelled in front of a mark, or in front of the terminator. -/
theorem spelled_source {source : Text} {before ts later rest : List Token}
    (hSource : classify (lex source) = before ++ (ts ++ (later ++ rest))) (hRest : rest ≠ [])
    (hStop : ∀ t ∈ ts, t.kind ≠ .closeTag)
    (hLater : ∀ t ∈ later.head?, t.kind ≠ .closeTag ∧ t.kind ≠ .whitespace)
    (hLegible : ∀ t ∈ ts, t.isLegible = true) : Spelled (textOf later) ts := by
  -- each step moves a token to those before, so that it is seen with the one behind it
  induction ts generalizing before with
  | nil => exact .nil
  | cons t ts ih =>
    obtain ⟨hHere, hMore⟩ := List.forall_mem_cons.mp hLegible
    have hSpelled : Spelled (textOf later) ts :=
      @ih (before ++ [t]) (by simp [hSource]) (fun u hu => hStop u (List.mem_cons_of_mem _ hu)) hMore
    cases hComment : t.isComment with
    | false =>
      refine .plain hComment ?_ hSpelled
      simpa [Token.isLegible, hComment] using hHere
    | true =>
      obtain ⟨next, more, hNext⟩ : ∃ next more, ts ++ (later ++ rest) = next :: more :=
        List.exists_cons_of_ne_nil (by simp [hRest])
      obtain ⟨hWorded, hNeighbours, hBlock⟩ := @comment_source source before more t next
        (by rw [hSource, List.cons_append, hNext]) hComment
      cases hLine : t.isLineComment with
      | false => exact .block hComment (hBlock hLine) hSpelled
      | true =>
        have hBreaks := hWorded.line hLine
        refine .line hLine ⟨hBreaks.1, hBreaks.2.1⟩ ?_ ?_ hSpelled
        · simpa [Token.isLegible, hComment, hLine] using hHere
        · have hKind {kind : TokenKind} (hFixed : kind.isFixed = true) :
              next.raw.kind = kind ↔ next.kind = kind := TokenKind.raw_eq_iff hFixed next.content
          have hBehind := hNeighbours.line hLine
          rw [hKind rfl, hKind rfl, Token.raw_content] at hBehind
          -- of what may follow a line comment, only the line break can be meant here
          match ts, later, hNext with
          | u :: ts, later, hNext =>
            obtain rfl := (List.cons.inj hNext).1
            rcases hBehind with hClose | ⟨-, hBreak⟩
            · exact absurd hClose (hStop u (by simp))
            · obtain ⟨cs, hContent⟩ | ⟨cs, hContent⟩ := hBreak.imp List.head?_eq_some_iff.mp
                List.head?_eq_some_iff.mp <;> simp [hContent, atLineEnd]
          | [], mark :: later, hNext =>
            obtain rfl := (List.cons.inj hNext).1
            obtain ⟨hClose, hSpace⟩ := hLater mark rfl
            rcases hBehind with hBehind | hBehind
            · exact absurd hBehind hClose
            · exact absurd hBehind.1 hSpace
          | [], [], _ => rfl

end UseOrder
