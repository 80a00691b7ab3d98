import UseOrder.Text.Letter
import UseOrder.Token.Basic

/-!
# Splitting source text into tokens

A source file alternates between inline HTML and code. Code starts with an open tag and ends with
a close tag. Both halves are read by one loop, `lexFrom`, which looks at the first character and
decides how many more belong to the same token. Cutting the text by such counts loses nothing, so
the contents of the tokens concatenate to the source text whatever the counts are.

Inside code the first rule that applies decides: close tag, blanks, comment, heredoc, string,
variable, name, number, namespace separator; any other character is punctuation. A comment that
is not closed runs to the end of the text, whereas a string or a heredoc that is not closed is no
string, and its first character is punctuation.
-/

namespace UseOrder

/-! ## Counting the characters of a token -/

/-- The length of the line break that a close tag takes with it. -/
def lineBreakLength : Text → Nat
  | '\r' :: '\n' :: _ => 2
  | '\n' :: _ => 1
  | _ => 0

/-- The length of the rest of a block comment, its end mark included. -/
def blockCommentLength : Text → Nat
  | [] => 0
  | '*' :: '/' :: _ => 2
  | _ :: rest => blockCommentLength rest + 1

/-- The length of the rest of a line comment: up to the end of the line or a close tag. -/
def lineCommentLength : Text → Nat
  | [] => 0
  | '?' :: '>' :: _ => 0
  | c :: rest => if c == '\r' || c == '\n' then 0 else lineCommentLength rest + 1

/-- The length of the rest of a string, its closing quote included. A backslash takes the next
character with it. -/
def quotedLength? (quote : Char) : Text → Option Nat
  | [] => none
  | '\\' :: _ :: rest => (quotedLength? quote rest).map (· + 2)
  | c :: rest => if c == quote then some 1 else (quotedLength? quote rest).map (· + 1)

/-- Spaces and tabs, which may indent the end of a heredoc. -/
def isIndent (c : Char) : Bool :=
  c == ' ' || c == '\t'

/-- The line ends a heredoc: it is the label, indented or not, and no longer name. Gives the
length of indentation and label. -/
def heredocEnd? (label line : Text) : Option Nat :=
  let indent := line.takeWhile isIndent
  let rest := line.dropWhile isIndent
  if label.isPrefixOf rest && !((rest.drop label.length).head?.any isWord) then
    some (indent.length + label.length)
  else none

/-- The length of the rest of a heredoc, up to the end of its closing label. `atStart` tells that
the text begins a line. -/
def heredocBodyLength? (label : Text) (atStart : Bool) (text : Text) : Option Nat :=
  match if atStart then heredocEnd? label text else none with
  | some n => some n
  | none =>
    match text with
    | [] => none
    | c :: rest => (heredocBodyLength? label (c == '\n') rest).map (· + 1)

/-- The line break after the opening label of a heredoc. -/
def heredocBreak? : Text → Option Nat
  | '\n' :: _ => some 1
  | '\r' :: '\n' :: _ => some 2
  | _ => none

/-- The length of a heredoc after its opening `<<<`: indentation, a label that may be quoted, a
line break, and the lines up to the closing label. -/
def heredocLength? (text : Text) : Option Nat :=
  let indent := text.takeWhile isIndent
  let opening := text.dropWhile isIndent
  let quote := opening.takeWhile (fun c => c == '"' || c == '\'') |>.take 1
  let labelled := opening.drop quote.length
  let label := labelled.takeWhile isWord
  let closing := labelled.dropWhile isWord
  let afterLabel := closing.drop quote.length
  -- a quoted label is closed by the mark that opened it
  if (label.head?.any isNameStart) && quote.isPrefixOf closing then
    (heredocBreak? afterLabel).bind fun lineBreak =>
      (heredocBodyLength? label true (afterLabel.drop lineBreak)).map fun body =>
        indent.length + 2 * quote.length + label.length + lineBreak + body
  else none

/-- The characters that open and close a string. -/
def isQuote (c : Char) : Bool :=
  c == '\'' || c == '"' || c.toNat == 0x60

/-- The number of characters that a punctuation mark has after its first: three operators are
longer than one character. -/
def punctLength (c : Char) (rest : Text) : Nat :=
  if c == '?' && "->".toList.isPrefixOf rest then 2
  else if c == '-' && rest.head? == some '>' then 1
  else if c == ':' && rest.head? == some ':' then 1
  else 0

/-! ## The next token of code -/

/-- The kind of the token of code that starts with `c`, and how many characters of `rest` belong
to it. -/
def lexeme (c : Char) (rest : Text) : TokenKind × Nat :=
  if c == '?' && rest.head? == some '>' then (.closeTag, 1 + lineBreakLength (rest.drop 1))
  else if isBlank c then (.whitespace, (rest.takeWhile isBlank).length)
  else if c == '/' && rest.head? == some '*' then
    -- a comment documents something if a second star and a blank open it
    let documents := (rest.drop 1).head? == some '*' && (rest.drop 2).head?.any isBlank
    (if documents then .docComment else .comment, 1 + blockCommentLength (rest.drop 1))
  else if (c == '/' && rest.head? == some '/') || (c == '#' && rest.head? != some '[') then
    -- `#[` opens an attribute, which is code
    (.comment, lineCommentLength rest)
  else if c == '<' && "<<".toList.isPrefixOf rest then
    match heredocLength? (rest.drop 2) with
    | some n => (.stringLiteral, 2 + n)
    | none => (.punct, 0)
  else if isQuote c then
    match quotedLength? c rest with
    | some n => (.stringLiteral, n)
    | none => (.punct, 0)
  else if c == '$' && rest.head?.any isNameStart then
    (.variableName, (rest.takeWhile isWord).length)
  else if isNameStart c then
    let n := (rest.takeWhile isWord).length
    (TokenKind.ofWord (c :: rest.take n), n)
  else if isDigit c then
    -- any word character goes along, as in `0xFF` and `1e5`
    (.number, (rest.takeWhile fun d => isWord d || d == '.').length)
  else if c == '\\' then (.separator, 0)
  else (.punct, punctLength c rest)

/-! ## Open tags -/

/-- An open tag starts with `c`: the number of characters of `rest` that belong to it. The long
tag, in any letter case, takes one blank or a line break with it, and has to be followed by one
unless it ends the text. -/
def openTagLength? (c : Char) (rest : Text) : Option Nat :=
  if c == '<' && "?=".toList.isPrefixOf rest then some 2
  else if c == '<' && rest.head? == some '?' && lower ((rest.drop 1).take 3) == "php".toList then
    match rest.drop 4 with
    | [] => some 4
    | '\r' :: '\n' :: _ => some 6
    | d :: _ => if isBlank d then some 5 else none
  else none

/-- The number of characters before the next open tag. -/
def htmlLength : Text → Nat
  | [] => 0
  | c :: rest => if (openTagLength? c rest).isSome then 0 else htmlLength rest + 1

/-! ## The whole text -/

/-- The tokens of a text that starts inside code or inside HTML. -/
def lexFrom (inCode : Bool) (text : Text) : List Token :=
  match text with
  | [] => []
  | c :: rest =>
    if inCode then
      let (kind, n) := lexeme c rest
      ⟨kind, c :: rest.take n⟩ :: lexFrom (kind != .closeTag) (rest.drop n)
    else
      match openTagLength? c rest with
      | some n => ⟨.openTag, c :: rest.take n⟩ :: lexFrom true (rest.drop n)
      | none =>
        let n := htmlLength rest
        ⟨.inlineHtml, c :: rest.take n⟩ :: lexFrom false (rest.drop n)
termination_by text.length
decreasing_by all_goals simp only [List.length_drop, List.length_cons]; omega

/-- The tokens of a source text, none of contextual kind. -/
def lex (source : Text) : List Token :=
  lexFrom false source

end UseOrder
