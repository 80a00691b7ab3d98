import UseOrder.Settings.Basic
import UseOrder.Token.Position

/-!
# Sorting the names of a brace group

The names between the braces of a grouped import are brought into code point order. A group whose
names are in order already is left as it is, and so is one with a line comment between the braces,
since what follows the comment could not be moved in front of it. Otherwise the list is laid out
anew: on one line, or with a line for each name if the list had a line break.
-/

namespace UseOrder

/-- A comment that runs to the end of its line. -/
def Token.isLineComment (t : Token) : Bool :=
  t.kind == .comment && ("//".toList.isPrefixOf t.content || "#".toList.isPrefixOf t.content)

/-- The tokens cut at every comma: one piece more than there are commas. -/
def splitAtCommas : List Token → List (List Token)
  | [] => [[]]
  | t :: rest =>
    if t.isComma then [] :: splitAtCommas rest
    else match splitAtCommas rest with
      | [] => [[t]]
      | piece :: pieces => (t :: piece) :: pieces

/-- Drop white space from the end. -/
def trimEnd (ts : List Token) : List Token :=
  (ts.reverse.dropWhile Token.isWhitespace).reverse

/-- Drop white space from both ends. -/
def trim (ts : List Token) : List Token :=
  trimEnd (ts.dropWhile Token.isWhitespace)

/-- One blank. -/
def oneSpace : Token :=
  ⟨.whitespace, [' ']⟩

/-- A comma. -/
def commaToken : Token :=
  ⟨.punct, [',']⟩

/-- One name of a group: the tokens without comments, then a blank and the comments if there are
any. -/
structure GroupPart where
  text : Text
  tokens : List Token
deriving DecidableEq, Repr

/-- The name between two commas, if there is one. -/
def GroupPart.ofPiece? (piece : List Token) : Option GroupPart :=
  let comments := piece.filter Token.isComment
  let content := trim (piece.filter fun t => !t.isComment)
  if (textOf content).isEmpty then none
  else if comments.isEmpty then some ⟨textOf content, content⟩
  -- wherever the comments stood, they go behind the name
  else some ⟨textOf content ++ [' '] ++ textOf comments, content ++ [oneSpace] ++ comments⟩

/-- Parts by their texts. -/
def GroupPart.le (a b : GroupPart) : Bool :=
  Text.le a.text b.text

/-- Each part is in order with the next. -/
def partsInOrder : List GroupPart → Bool
  | a :: b :: rest => a.le b && partsInOrder (b :: rest)
  | _ => true

/-- Lists of tokens with a separator between them. -/
def joinTokens (separator : List Token) : List (List Token) → List Token
  | [] => []
  | [ts] => ts
  | ts :: rest => ts ++ separator ++ joinTokens separator rest

/-- The tokens between the braces: the parts in order, on one line or on lines of their own. -/
def groupBody (layout : Layout) (multiline trailingComma : Bool) (parts : List GroupPart) :
    List Token :=
  let lineEnding := layout.lineEnding.text
  let newLine := lineEnding ++ layout.indent.text
  let separator : Token := ⟨.whitespace, if multiline then newLine else [' ']⟩
  let sorted := parts.mergeSort GroupPart.le
  (if multiline then [⟨.whitespace, newLine⟩] else []) ++
    joinTokens [commaToken, separator] (sorted.map GroupPart.tokens) ++
    (if trailingComma then [commaToken] else []) ++
    (if multiline then [⟨.whitespace, lineEnding⟩] else [])

/-- White space with a line ending. -/
def breaksLine (layout : Layout) (t : Token) : Bool :=
  t.isWhitespace && Text.hasPart layout.lineEnding.text t.content

/-- A grouped import with its names in order, given the positions of its braces; `none` if it is
to be left as it is. -/
def sortGroup? (layout : Layout) (ts : List Token) (openAt closeAt : Int) : Option (List Token) :=
  let body := slice ts (openAt + 1) closeAt
  let pieces := splitAtCommas body
  let parts := pieces.filterMap GroupPart.ofPiece?
  if body.any Token.isLineComment || partsInOrder parts then none
  else
    -- a piece without a name, wherever it stood, asks for a comma at the end
    let trailingComma := pieces.any fun piece => (GroupPart.ofPiece? piece).isNone
    some (ts.take (bound ts.length (openAt + 1)) ++
      groupBody layout (body.any (breaksLine layout)) trailingComma parts ++
      ts.drop (bound ts.length closeAt))

end UseOrder
