import UseOrder.Text.LowerCase

/-!
# Tokens

A token is a piece of source text with a kind. Splitting source text only ever gives the plain
kinds; the contextual kinds (trait and closure `use`, import qualifiers, braces of a grouped
import) are assigned afterwards, from the surroundings of a token.
-/

namespace UseOrder

/-- What a token is. -/
inductive TokenKind
  | openTag
  | closeTag
  | inlineHtml
  | whitespace
  | comment
  | docComment
  | variableName
  | stringLiteral
  | number
  | name
  | separator
  | useWord
  | namespaceWord
  | traitUse
  | closureUse
  | constWord
  | functionWord
  | groupOpen
  | groupClose
  | punct
deriving DecidableEq, Repr

namespace TokenKind

/-- Every kind. -/
def all : List TokenKind :=
  [openTag, closeTag, inlineHtml, whitespace, comment, docComment, variableName, stringLiteral,
    number, name, separator, useWord, namespaceWord, traitUse, closureUse, constWord,
    functionWord, groupOpen, groupClose, punct]

/-- The written name of a kind. -/
def label : TokenKind → String
  | openTag => "open_tag"
  | closeTag => "close_tag"
  | inlineHtml => "inline_html"
  | whitespace => "whitespace"
  | comment => "comment"
  | docComment => "doc_comment"
  | variableName => "variable"
  | stringLiteral => "string"
  | number => "number"
  | name => "name"
  | separator => "ns_separator"
  | useWord => "use"
  | namespaceWord => "namespace"
  | traitUse => "use_trait"
  | closureUse => "use_lambda"
  | constWord => "const_import"
  | functionWord => "function_import"
  | groupOpen => "group_import_brace_open"
  | groupClose => "group_import_brace_close"
  | punct => "punct"

/-- The kind with a written name. -/
def ofLabel? (text : String) : Option TokenKind :=
  all.find? (·.label == text)

/-- The kind of a name: the two keywords that matter here are told apart, in any letter case. -/
def ofWord (word : Text) : TokenKind :=
  let small := lower word
  if small = "use".toList then useWord
  else if small = "namespace".toList then namespaceWord
  else name

end TokenKind

/-- A piece of source text and what it is. -/
structure Token where
  kind : TokenKind
  content : Text
deriving DecidableEq, Repr

namespace Token

/-- White space between tokens. -/
def isWhitespace (t : Token) : Bool :=
  t.kind == .whitespace

/-- A comment of either sort. -/
def isComment (t : Token) : Bool :=
  t.kind == .comment || t.kind == .docComment

/-- Neither white space nor a comment. -/
def isMeaningful (t : Token) : Bool :=
  !(t.isWhitespace || t.isComment)

/-- Punctuation with the given text. Only punctuation is told by its text. -/
def isPunct (t : Token) (text : Text) : Bool :=
  t.kind == .punct && t.content == text

/-- The comma that separates imported names. -/
def isComma (t : Token) : Bool :=
  t.isPunct [',']

/-- What ends an import statement: a semicolon or a close tag. -/
def isTerminator (t : Token) : Bool :=
  t.kind == .closeTag || t.isPunct [';']

end Token

/-- The source text that a list of tokens stands for. -/
def textOf (tokens : List Token) : Text :=
  tokens.flatMap Token.content

end UseOrder
