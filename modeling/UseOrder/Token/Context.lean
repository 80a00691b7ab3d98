import UseOrder.Token.Basic

/-!
# Kinds from context

The word `use` starts an import only where imports may stand: outside every brace, or directly
inside the braces of a namespace. Elsewhere it brings a trait into a class body, lists the
variables of a closure, or is a plain name. One pass over the tokens decides this, with a small
state: the last meaningful token, the depth of braces, and the depth at which imports may stand.

Inside an import statement, from the `use` up to its terminator, the first word may be a qualifier
(`const` or `function`) and the braces are those of a grouped import; they do not count for the
depth. The pass only ever relabels a token, it never touches its content.
-/

namespace UseOrder

/-- Where the pass stands. -/
inductive Place
  /-- Outside import statements. -/
  | code
  /-- After the `use` of an import, before its first meaningful token. -/
  | importStart
  /-- Further inside an import. -/
  | importBody
deriving DecidableEq, Repr

/-- What the tokens read so far say about the next one. -/
structure Context where
  /-- The last meaningful token, with the kind it was given. -/
  previous : Option Token := none
  /-- The number of open braces. -/
  depth : Nat := 0
  /-- The number of open braces at which imports may stand. -/
  importDepth : Nat := 0
  /-- A namespace declaration has started and neither its brace nor its semicolon has come. -/
  pendingNamespace : Bool := false
  place : Place := .code
deriving Repr

namespace Context

/-- The operators after which a keyword is the name of a member. -/
def isMemberAccess (t : Token) : Bool :=
  t.isPunct "->".toList || t.isPunct "?->".toList || t.isPunct "::".toList

/-- The word `function`, which makes the next word a name. -/
def isFunctionName (t : Token) : Bool :=
  t.kind == .name && lower t.content == "function".toList

/-- A keyword here is a plain name: that of a member or of a function. -/
def afterNaming (c : Context) : Bool :=
  c.previous.any fun t => isMemberAccess t || isFunctionName t

/-- The kind of a word that is the qualifier of an import, unless a separator follows it directly:
then it is the first segment of a name. -/
def qualifierKind? (t : Token) (rest : List Token) : Option TokenKind :=
  if t.kind == .name && !(rest.head?.any (·.kind == .separator)) then
    let word := lower t.content
    if word == "const".toList then some .constWord
    else if word == "function".toList then some .functionWord
    else none
  else none

/-- The kind of a token inside an import statement. -/
def importKind (first : Bool) (t : Token) (rest : List Token) : TokenKind :=
  if t.isPunct "\x7b".toList then .groupOpen
  else if t.isPunct "\x7d".toList then .groupClose
  else if first && t.isMeaningful then (qualifierKind? t rest).getD t.kind
  else t.kind

/-- The word `namespace` is part of a relative name. -/
def isRelativeName (rest : List Token) : Bool :=
  (rest.find? Token.isMeaningful).any (·.kind == .separator)

/-- The kind of a token outside imports, and the place after it. -/
def codeKind (c : Context) (t : Token) (rest : List Token) : TokenKind × Place :=
  if t.kind == .useWord then
    if c.afterNaming then (.name, .code)
    -- behind the parameters of a closure stand the variables that it takes along
    else if c.previous.any (·.isPunct [')']) then (.closureUse, .code)
    else if c.depth != c.importDepth then (.traitUse, .code)
    else (.useWord, .importStart)
  else if t.kind == .namespaceWord then
    if c.afterNaming || isRelativeName rest then (.name, .code) else (.namespaceWord, .code)
  else (t.kind, .code)

/-- An opening brace, also the one that opens an expression inside a string. -/
def isOpeningBrace (t : Token) : Bool :=
  t.isPunct "\x7b".toList || t.isPunct "$\x7b".toList

/-- What a token outside imports does to the depths; `kind` is the kind it was given. -/
def track (c : Context) (t : Token) (kind : TokenKind) : Context :=
  if kind == .namespaceWord then { c with pendingNamespace := true }
  else if isOpeningBrace t then
    -- the first brace behind a namespace declaration encloses its imports
    { c with
      depth := c.depth + 1
      importDepth := if c.pendingNamespace then c.depth + 1 else c.importDepth
      pendingNamespace := false }
  else if t.isPunct "\x7d".toList then
    -- where that brace is closed again, imports stand outside all braces as before
    { c with
      depth := c.depth - 1
      importDepth := if c.depth == c.importDepth then 0 else c.importDepth }
  else if t.isPunct [';'] && c.pendingNamespace then
    { c with importDepth := c.depth, pendingNamespace := false }
  else c

/-- The context after a token that was given its kind. -/
def remember (c : Context) (t : Token) : Context :=
  if t.isMeaningful then { c with previous := some t } else c

/-- Decide on one token: the kind it is given, and the context for the next. -/
def step (c : Context) (t : Token) (rest : List Token) : TokenKind × Context :=
  if c.place != .code && !t.isTerminator then
    -- the braces of an import do not count, so the depths stay
    let kind := importKind (c.place == .importStart) t rest
    let place := if t.isMeaningful then .importBody else c.place
    (kind, { c with place := place }.remember ⟨kind, t.content⟩)
  else
    let (kind, place) := c.codeKind t rest
    (kind, { c.track t kind with place := place }.remember ⟨kind, t.content⟩)

end Context

/-- Relabel the tokens that follow a context. -/
def classifyFrom (c : Context) : List Token → List Token
  | [] => []
  | t :: rest =>
    let (kind, next) := c.step t rest
    ⟨kind, t.content⟩ :: classifyFrom next rest

/-- Give every token the kind that its surroundings ask for. -/
def classify (tokens : List Token) : List Token :=
  classifyFrom {} tokens

end UseOrder
