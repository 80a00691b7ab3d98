import UseOrder.Fix

/-!
# Listing the imports of a source text

A plain list of what the program sees: each sub-group, and each record with its slot, kind and
path.
-/

namespace UseOrder

/-- A text with blanks in front, up to a width. -/
def padLeft (width : Nat) (s : String) : String :=
  String.ofList (List.replicate (width - s.length) ' ') ++ s

/-- A text with blanks behind, up to a width. -/
def padRight (width : Nat) (s : String) : String :=
  s ++ String.ofList (List.replicate (width - s.length) ' ')

/-- A record on one line. -/
def Record.listing (r : Record) : String :=
  let qualifier :=
    match r.qualifier with
    | none => ""
    | some text => " qualifier=" ++ String.ofList (Text.quoted (Text.strip text))
  "  [" ++ padLeft 5 r.start.repr ++ ".." ++ padLeft 5 r.last.repr ++ "] " ++
    padRight 8 r.kind.label ++ " " ++ String.ofList (Text.quoted r.path) ++ qualifier ++
    (if r.grouped then " grouped" else "")

/-- The sub-groups numbered from `number`, as lines. -/
def listGroups (settings : Settings) (ts : List Token) (number : Nat) :
    List SubGroup → Except Fault (List String)
  | [] => return []
  | group :: rest => do
    let records ← parseStatements settings ts group.uses
    let heading := "\n=== RUN " ++ Nat.repr group.run ++ " / SUBGROUP " ++ Nat.repr number ++
      " (" ++ Nat.repr group.uses.length ++ " statements) ==="
    let later ← listGroups settings ts (number + 1) rest
    return heading :: records.map Record.listing ++ later

/-- The listing of a list of tokens. -/
def listTokens (settings : Settings) (ts : List Token) : Except Fault String := do
  let groups ← subGroups ts
  let heading := "tokens=" ++ Nat.repr ts.length ++ " subgroups=" ++ Nat.repr groups.length
  let lines ← listGroups settings ts 0 groups
  return String.intercalate "\n" (heading :: lines) ++ "\n"

/-- Why there is no listing. -/
inductive ListingError
  | issue (issue : TokenizeIssue)
  | fault (fault : FixFault)

/-- The wording of an issue that left no tokens. -/
def TokenizeIssue.summary (i : TokenizeIssue) : String :=
  i.code ++ ": " ++ i.message

/-- The listing of a source text. -/
def listSource (settings : Settings) (tokenizer : TokenizerSettings) (outcome : ProcessOutcome)
    (source : Text) : Except ListingError String :=
  match tokenize tokenizer outcome source with
  | .error fault => .error (.fault (.tokenize fault))
  | .ok tokenized =>
    match tokenized.tokens with
    | .error issue => .error (.issue issue)
    | .ok tokens => (listTokens settings tokens).mapError fun fault => .fault (.tokens fault)

end UseOrder
