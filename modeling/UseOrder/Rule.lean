import UseOrder.Fix
import UseOrder.Json.Writer
import UseOrder.Text.Diff

/-!
# The rule and its description

What the rule is called, what its options mean, and samples of code with the settings that they are
meant for. The description shows for each sample what ordering its imports changes.
-/

namespace UseOrder

/-- A piece of code and the options to handle it with. -/
structure Sample where
  code : Text
  options : Value

/-- What is said about a rule. -/
structure Rule where
  name : String
  priority : Int
  summary : String
  options : List (String × String)
  samples : List Sample

/-- An order of kinds for the samples. -/
def sampleOrder : Value :=
  .list [.str "const", .str "class", .str "function"]

/-- The samples of the rule. -/
def ruleSamples : List Sample :=
  [⟨"<?php\nuse function AAC;\nuse const AAB;\nuse AAA;\n".toList, .object []⟩,
    ⟨"<?php\nuse function Aaa;\nuse const AA;\n".toList,
      .object [("case_sensitive", .bool true)]⟩,
    ⟨"<?php\nuse Acme\\Bar;\nuse Bar1;\nuse Acme;\nuse Bar;\n".toList,
      .object [("sort_algorithm", .str "length")]⟩,
    ⟨("<?php\nuse const AAAA;\nuse const BBB;\n\nuse Bar;\nuse AAC;\nuse Acme;\n\n" ++
        "use function CCC\\AA;\nuse function DDD;\n").toList,
      .object [("sort_algorithm", .str "length"), ("imports_order", sampleOrder)]⟩,
    ⟨("<?php\nuse const BBB;\nuse const AAAA;\n\nuse Acme;\nuse AAC;\nuse Bar;\n\n" ++
        "use function DDD;\nuse function CCC\\AA;\n").toList,
      .object [("sort_algorithm", .str "alpha"), ("imports_order", sampleOrder)]⟩,
    ⟨("<?php\nuse const BBB;\nuse const AAAA;\n\nuse function DDD;\nuse function CCC\\AA;\n\n" ++
        "use Acme;\nuse AAC;\nuse Bar;\n").toList,
      .object [("sort_algorithm", .str "none"), ("imports_order", sampleOrder)]⟩]

/-- The rule that orders imports. It runs after the rules that add or drop imports. -/
def importRule : Rule where
  name := ruleName
  priority := -31
  summary := "Ordering \x60use\x60 statements."
  options :=
    [("sort_algorithm",
        "Whether the statements should be sorted alphabetically or by length, or not sorted."),
      ("imports_order", "Defines the order of import types."),
      ("case_sensitive", "Whether the sorting should be case sensitive."),
      ("namespace_priority", "Set namespace priority mapping for sorting imports."),
      ("no_namespace_priority",
        "Config priority mapping for sorting imports without full namespace."),
      ("indent", "Indentation used when splitting or re-flowing declarations."),
      ("line_ending", "Line ending used when splitting declarations or inserting blank lines.")]
  samples := ruleSamples

/-- Why a rule cannot be described. -/
inductive DescribeError
  /-- The options of a sample are no mapping. -/
  | notAMapping (cause : Settings.NotAMapping)
  /-- The options of a sample, counted from one, are refused. -/
  | refused (number : Nat) (problems : List OptionProblem)
  /-- The code of a sample cannot be handled. -/
  | fault (cause : FixFault)

/-- The wording of a refusal of options. -/
def refusedMessage (number : Nat) (problems : List OptionProblem) : String :=
  "Invalid configuration for example #" ++ Nat.repr number ++ ": " ++
    String.intercalate " " (problems.map OptionProblem.message)

/-- What ordering changes in a piece of code. -/
def changesShown (before after : Text) : String :=
  let diff := Diff.unified "original" "new" (Text.lines before) (Text.lines after)
  match Text.trimEndBy (· == '\n') diff with
  | [] => "(unchanged)"
  | shown => String.ofList shown

/-- The description of a sample, as lines. -/
def Sample.describe (number : Nat) (s : Sample) : Except DescribeError (List String) :=
  match Settings.ofValue s.options with
  | .error cause => .error (.notAMapping cause)
  | .ok (.error problems) => .error (.refused number problems)
  | .ok (.ok settings) =>
    match fixSource settings {} .notFound none s.code with
    | .error cause => .error (.fault cause)
    | .ok result =>
      .ok ["", "Example #" ++ Nat.repr number ++ ". Configuration: " ++ Json.sortedLine s.options,
        changesShown s.code result.code]

/-- The description of samples that are numbered from `number`. -/
def describeSamples (number : Nat) : List Sample → Except DescribeError (List String)
  | [] => .ok []
  | s :: rest => do
    let lines ← s.describe number
    let others ← describeSamples (number + 1) rest
    return lines ++ others

/-- The description of a rule. -/
def Rule.describe (r : Rule) : Except DescribeError String := do
  let heading := [r.name ++ " (priority " ++ r.priority.repr ++ ")", r.summary, "", "Options:"]
  let options := r.options.map fun (name, text) => "  " ++ name ++ ": " ++ text
  let samples ← describeSamples 1 r.samples
  return String.intercalate "\n" (heading ++ options ++ samples) ++ "\n"

end UseOrder
