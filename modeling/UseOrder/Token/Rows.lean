import UseOrder.Text.Letter
import UseOrder.Token.Basic
import UseOrder.Value.Shown

/-!
# Tokens from rows

A tokenizer outside the program lists its tokens as rows: the name of the token's type, or null for
a single character, and its text. The type names map to token kinds; a qualified name comes as one
row and is cut at its separators. A row is only ever looked into as far as needed, so that a text
of two characters does as a row, too.
-/

namespace UseOrder

/-- Why rows cannot be mapped. -/
inductive RowFault
  /-- A row with fewer than two items. -/
  | tooShort
  /-- A mapping in place of a row. -/
  | noItem
  /-- A value that has no items, or that can be no name. -/
  | wrongType
deriving DecidableEq, Repr

/-- The type names with a kind of their own. -/
def rowKinds : List (String × TokenKind) :=
  [("T_OPEN_TAG", .openTag), ("T_OPEN_TAG_WITH_ECHO", .openTag), ("T_CLOSE_TAG", .closeTag),
    ("T_INLINE_HTML", .inlineHtml), ("T_WHITESPACE", .whitespace), ("T_COMMENT", .comment),
    ("T_DOC_COMMENT", .docComment), ("T_VARIABLE", .variableName),
    ("T_CONSTANT_ENCAPSED_STRING", .stringLiteral), ("T_ENCAPSED_AND_WHITESPACE", .stringLiteral),
    ("T_START_HEREDOC", .stringLiteral), ("T_END_HEREDOC", .stringLiteral),
    ("T_LNUMBER", .number), ("T_DNUMBER", .number), ("T_NS_SEPARATOR", .separator)]

/-- The type names of names with separators. -/
def qualifiedNames : List String :=
  ["T_NAME_QUALIFIED", "T_NAME_FULLY_QUALIFIED", "T_NAME_RELATIVE"]

/-- The separator of namespaces. -/
def separatorToken : Token :=
  ⟨.separator, ['\\']⟩

/-- The token of a segment, if the segment is not empty. -/
def segmentTokens (segment : Text) : List Token :=
  if segment.isEmpty then [] else [⟨TokenKind.ofWord segment, segment⟩]

/-- A qualified name cut at its separators. -/
def qualifiedTokens (name : Text) : List Token :=
  match Text.splitAt '\\' name with
  | [] => []
  | first :: others =>
    segmentTokens first ++ others.flatMap fun s => separatorToken :: segmentTokens s

/-- A word is told from an operator by its first character. -/
def startsWord (text : Text) : Bool :=
  text.head?.any fun c => isLetter c || c == '_'

/-- The tokens of a row with a type that has no kind of its own. -/
def otherTokens (text : Text) : List Token :=
  [⟨if startsWord text then TokenKind.ofWord text else .punct, text⟩]

/-- The tokens of a row, from its name and its text. -/
def rowTokens (name : Value) (text : Text) : Except RowFault (List Token) :=
  match name with
  | .null => .ok [⟨.punct, text⟩]
  | .str s =>
    if qualifiedNames.contains s then .ok (qualifiedTokens text)
    else match rowKinds.lookup s with
      | some kind => .ok [⟨kind, text⟩]
      | none => .ok (otherTokens text)
  | .list _ => .error .wrongType
  | .map _ => .error .wrongType
  | _ => .ok (otherTokens text)

/-- The first two items of a row. -/
def rowItems : Value → Except RowFault (Value × Value)
  | .list (name :: text :: _) => .ok (name, text)
  | .list _ => .error .tooShort
  | .str s =>
    match s.toList with
    | c :: d :: _ => .ok (.text [c], .text [d])
    | _ => .error .tooShort
  | .map _ => .error .noItem
  | _ => .error .wrongType

/-- The text of a row. -/
def rowText (item : Value) : Text :=
  item.plain.toList

/-- The tokens of one row. -/
def tokensOfRow (row : Value) : Except RowFault (List Token) := do
  let (name, text) ← rowItems row
  rowTokens name (rowText text)

/-- The rows of a value: the items of a list, the characters of a text, the keys of a mapping. -/
def rowsOf : Value → Except RowFault (List Value)
  | .list items => .ok items
  | .str s => .ok (s.toList.map fun c => .text [c])
  | .map entries => .ok (entries.map (·.1))
  | _ => .error .wrongType

/-- The tokens of all rows. -/
def tokensOfRows (rows : Value) : Except RowFault (List Token) := do
  return (← (← rowsOf rows).mapM tokensOfRow).flatten

end UseOrder
