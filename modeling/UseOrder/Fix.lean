import UseOrder.Import.Plan
import UseOrder.Import.Spacing
import UseOrder.Settings.Load
import UseOrder.Token.Source

/-!
# Ordering the imports of a source text

The sub-groups of a source text are ordered from the last to the first, so that the positions of
those still to come stay valid, and then blank lines are added. On failure the text stays as it is.
-/

namespace UseOrder

/-- The name of the rule, as reports give it. -/
def ruleName : String :=
  "CustomFixer/ordered_imports_group"

/-- What was counted on the way. -/
structure Counts where
  /-- Namespace runs with imports. -/
  runs : Nat
  subGroups : Nat
  records : Nat
  /-- Slots whose tokens changed. -/
  slotsChanged : Nat
  blankLines : Nat
deriving DecidableEq, Repr

/-- The counts as a value. -/
def Counts.toValue (c : Counts) : Value :=
  .object [("namespace_runs", .nat c.runs), ("subgroups", .nat c.subGroups),
    ("records", .nat c.records), ("slots_changed", .nat c.slotsChanged),
    ("blank_lines_inserted", .nat c.blankLines)]

/-- What ordering sub-groups has come to: the tokens, the number of records and of changed slots. -/
structure Progress where
  tokens : List Token
  records : Nat := 0
  slotsChanged : Nat := 0
deriving DecidableEq, Repr

/-- Order the imports of one sub-group. -/
def orderSubGroup (settings : Settings) (p : Progress) (group : SubGroup) :
    Except Fault Progress := do
  let records ← parseStatements settings p.tokens group.uses
  let edits ← planRecords settings p.tokens records
  let applied := applyEdits p.tokens edits
  let changed ← applied.changed
  return ⟨applied.tokens, p.records + records.length, p.slotsChanged + changed⟩

/-- Order the imports of sub-groups, in the given order. -/
def orderSubGroups (settings : Settings) (p : Progress) : List SubGroup → Except Fault Progress
  | [] => return p
  | group :: rest => do
    let next ← orderSubGroup settings p group
    orderSubGroups settings next rest

/-- Order all imports of a list of tokens and add blank lines. -/
def fixTokens (settings : Settings) (ts : List Token) : Except Fault (Counts × List Token) := do
  let groups ← subGroups ts
  let ordered ← orderSubGroups settings ⟨ts, 0, 0⟩ groups.reverse
  let (blankLines, spaced) ← insertBlankLines settings.layout ordered.tokens
  -- runs are counted as the source has them
  let runs := (importRuns ts).countP fun run => !run.isEmpty
  return (⟨runs, groups.length, ordered.records, ordered.slotsChanged, blankLines⟩, spaced)

/-- Why a source text could not be handled. -/
inductive FixIssue
  | tokenize (issue : TokenizeIssue)
  | unterminated (position : Int)

namespace FixIssue

/-- The code of an issue. -/
def code : FixIssue → String
  | tokenize issue => issue.code
  | unterminated _ => "FIX_UNTERMINATED_IMPORT"

/-- The wording of an issue. -/
def message : FixIssue → String
  | tokenize issue => issue.message
  | unterminated position => ((Fault.unterminated position).message?).getD ""

/-- The particulars of an issue in a source at a path. -/
def detail (path : Option String) : FixIssue → Value
  | tokenize issue => issue.detail
  | unterminated _ => .object [("source_relpath", .ofOption .str path)]

/-- An issue as a value. -/
def toValue (path : Option String) (i : FixIssue) : Value :=
  .object [("code", .str i.code), ("message", .str i.message), ("detail", i.detail path)]

end FixIssue

/-- What became of a source text. -/
inductive FixStatus
  /-- The text could not be split into tokens. -/
  | notTokenized (issue : TokenizeIssue)
  /-- The text has no imports. -/
  | noImports
  /-- An import statement has no terminator. -/
  | unterminated (position : Int)
  /-- The imports are in order now. -/
  | done (counts : Counts)

/-- The outcome for one source text. -/
structure FixResult where
  settings : Settings
  tokenized : Tokenized
  status : FixStatus
  /-- The text after the work; the source itself if it could not be handled. -/
  code : Text
  changed : Bool
  path : Option String

/-- What can go wrong besides the issues that a result reports. -/
inductive FixFault
  | tokenize (fault : TokenizeFault)
  | tokens (fault : Fault)
deriving DecidableEq, Repr

/-- The wording of a fault. -/
def FixFault.message : FixFault → String
  | tokenize (.number text) => text
  | tokenize (.rows _) => "the rows of the tokenizer cannot be mapped"
  | tokens fault => fault.message?.getD "the import statements cannot be read"

/-- Order the imports of a source text. -/
def fixSource (settings : Settings) (tokenizer : TokenizerSettings) (outcome : ProcessOutcome)
    (path : Option String) (source : Text) : Except FixFault FixResult :=
  match tokenize tokenizer outcome source with
  | .error fault => .error (.tokenize fault)
  | .ok tokenized =>
    let unchanged (status : FixStatus) : FixResult :=
      ⟨settings, tokenized, status, source, false, path⟩
    match tokenized.tokens with
    | .error issue => .ok (unchanged (.notTokenized issue))
    | .ok tokens =>
      if !hasKind .useWord tokens then .ok (unchanged .noImports)
      else
        match fixTokens settings tokens with
        -- an import without an end is reported, any other fault breaks off
        | .error (.unterminated position) => .ok (unchanged (.unterminated position))
        | .error fault => .error (.tokens fault)
        | .ok (counts, fixed) =>
          let code := textOf fixed
          .ok ⟨settings, tokenized, .done counts, code, decide (code ≠ source), path⟩

namespace FixResult

/-- The issues of a result: none, or the one that kept the text as it is. -/
def issues (r : FixResult) : List FixIssue :=
  match r.status with
  | .notTokenized issue => [.tokenize issue]
  | .unterminated position => [.unterminated position]
  | _ => []

/-- The text was handled. -/
def ok (r : FixResult) : Bool :=
  r.issues.isEmpty

/-- What was counted, if the work was done. -/
def counts? (r : FixResult) : Option Counts :=
  match r.status with
  | .done counts => some counts
  | _ => none

/-- What is reported about the status. -/
def statusFacts (r : FixResult) : List (String × Value) :=
  match r.status with
  | .notTokenized _ => []
  | .noImports => [("candidate", .bool false)]
  | .unterminated _ => [("candidate", .bool true)]
  | .done counts => [("candidate", .bool true), ("counts", counts.toValue)]

/-- The result as a value, with further facts about the source. The text itself is no part of it. -/
def toValue (r : FixResult) (further : List (String × Value)) : Value :=
  let tokenizer :=
    Value.object (("engine", .str r.tokenized.settings.engine.label) :: r.tokenized.facts)
  let facts : List (String × Value) :=
    [("rule", .str ruleName), ("config", r.settings.toValue), ("tokenizer", tokenizer)] ++
      r.statusFacts ++ further
  .object [("ok", .bool r.ok), ("changed", .bool r.changed),
    ("errors", .list (r.issues.map (FixIssue.toValue r.path))), ("meta", .object facts),
    ("source_relpath", .ofOption .str r.path)]

end FixResult

end UseOrder
