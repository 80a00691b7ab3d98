import UseOrder.CommandLine.Run
import UseOrder.Decimal.Read
import UseOrder.Digest
import UseOrder.Report
import UseOrder.Rule

/-!
# The command that orders imports

The arguments name files and directories and say how to order the imports in them. Files are handled
one after the other: a file that cannot be read, or has an import without a terminator, is reported
and left as it is, and the others are handled all the same. Any other fault breaks the run off, and
the files behind are not handled. If a path names nothing, no file is handled at all.
-/

namespace UseOrder

namespace OrderImports

/-- The name of the command. -/
def command : String :=
  "sq-ordered-imports"

/-! ## Arguments -/

/-- The options of the command. -/
inductive Key
  | help
  | config
  | algorithm
  | kindOrder
  | caseSensitive
  | priority
  | barePriority
  | indent
  | lineEnding
  | engine
  | phpBinary
  | timeout
  | dryRun
  | diff
  | report
  | describe
deriving DecidableEq, Repr

/-- The arguments of the command. -/
def grammar : Grammar Key where
  options :=
    [⟨.help, ["-h", "--help"], .flag⟩, ⟨.config, ["--config"], .value⟩,
      ⟨.algorithm, ["--sort-algorithm"], .value⟩, ⟨.kindOrder, ["--imports-order"], .value⟩,
      ⟨.caseSensitive, ["--case-sensitive"], .flag⟩,
      ⟨.priority, ["--namespace-priority"], .value⟩,
      ⟨.barePriority, ["--no-namespace-priority"], .value⟩, ⟨.indent, ["--indent"], .value⟩,
      ⟨.lineEnding, ["--line-ending"], .value⟩, ⟨.engine, ["--engine"], .value⟩,
      ⟨.phpBinary, ["--php-binary"], .value⟩, ⟨.timeout, ["--timeout-s"], .value⟩,
      ⟨.dryRun, ["--dry-run"], .flag⟩, ⟨.diff, ["--diff"], .flag⟩,
      ⟨.report, ["--report"], .value⟩, ⟨.describe, ["--describe"], .flag⟩]
  positional := .many

/-- What the arguments ask for. What is not given is left to the settings file and the defaults. -/
structure Invocation where
  paths : List Path := []
  config : Option Path := none
  algorithm : Option SortAlgorithm := none
  kindOrder : Option (List Text) := none
  caseSensitive : Bool := false
  priorities : Option (List (Text × Int)) := none
  barePriority : Option Int := none
  indent : Option Indent := none
  lineEnding : Option LineEnding := none
  tokenizer : TokenizerSettings := {}
  dryRun : Bool := false
  diff : Bool := false
  report : Option Path := none
  describe : Bool := false

/-- The words for indentations. -/
def indents : List (String × Indent) :=
  [("2", .twoSpaces), ("4", .fourSpaces), ("tab", .tab)]

/-- The words for line endings. -/
def lineEndings : List (String × LineEnding) :=
  [("crlf", .crlf), ("lf", .lf)]

/-- The words of a list that is divided by commas, blanks around them left out. -/
def commaList (text : Text) : List Text :=
  ((Text.splitAt ',' text).map Text.strip).filter fun word => !word.isEmpty

/-- A prefix and its priority, divided by the last equals sign. -/
def readPriorityPair (value : Text) : Except String (Text × Int) :=
  let backwards := value.reverse
  let digits := (backwards.takeWhile (· != '=')).reverse
  match backwards.dropWhile (· != '=') with
  -- the prefix in front of the sign is not empty
  | _ :: c :: rest =>
    match Decimal.readInteger? digits with
    | some n => .ok ((c :: rest).reverse, n)
    | none => .error ("priority must be an integer, got " ++ String.ofList (Text.quoted digits))
  | _ => .error ("expected PREFIX=INT, got " ++ String.ofList (Text.quoted value))

/-- A number that could not be read is refused. -/
def numberOr {α : Type} (o : OptionSpec Key) (numbers value : String) (n : Option α) :
    Except Halt α :=
  match n with
  | some n => .ok n
  | none => .error (.error (.notANumber o.label numbers value))

/-- Take up an option with its value. -/
def Invocation.takeOption (i : Invocation) (o : OptionSpec Key) (value : String) :
    Except Halt Invocation :=
  match o.key with
  | .help => .error .help
  | .config => .ok { i with config := some (.ofString value) }
  | .algorithm => do
    let a ← o.choose (SortAlgorithm.all.map fun a => (a.label, a)) value
    return { i with algorithm := some a }
  | .kindOrder => .ok { i with kindOrder := some (commaList value.toList) }
  | .caseSensitive => .ok { i with caseSensitive := true }
  | .priority =>
    match readPriorityPair value.toList with
    | .ok pair => .ok { i with priorities := some (i.priorities.getD [] ++ [pair]) }
    | .error text => .error (.error (.refused o.label text))
  | .barePriority => do
    let n ← numberOr o "int" value (Decimal.readInteger? value.toList)
    return { i with barePriority := some n }
  | .indent => do
    let indent ← o.choose indents value
    return { i with indent := some indent }
  | .lineEnding => do
    let lineEnding ← o.choose lineEndings value
    return { i with lineEnding := some lineEnding }
  | .engine => do
    let engine ← o.choose (Engine.all.map fun e => (e.label, e)) value
    return { i with tokenizer := { i.tokenizer with engine } }
  | .phpBinary => .ok { i with tokenizer := { i.tokenizer with phpBinary := value } }
  | .timeout => do
    let x ← numberOr o "float" value (Decimal.readFloat? value.toList)
    return { i with tokenizer := { i.tokenizer with timeout := .fractional x } }
  | .dryRun => .ok { i with dryRun := true }
  | .diff => .ok { i with diff := true }
  | .report => .ok { i with report := some (.ofString value) }
  | .describe => .ok { i with describe := true }

/-- Take up something that the arguments give. -/
def Invocation.take (i : Invocation) : Given Key → Except Halt Invocation
  | .option o value => i.takeOption o value
  | .positional words => .ok { i with paths := words.map Path.ofString }

/-- The paths that an invocation names. -/
def Invocation.named (i : Invocation) : List Path :=
  i.paths ++ i.config.toList ++ i.report.toList

/-- What the arguments ask for. -/
def readInvocation (arguments : List String) : Except Halt Invocation :=
  grammar.read Invocation.take {} arguments

/-! ## Settings -/

/-- Why the settings file gives no options. -/
inductive ConfigFailure
  | file (failure : FileFailure)
  | json (error : Json.ReadError)
  | notAnObject

/-- The wording of a failure of the settings file at a path. -/
def ConfigFailure.message (p : Path) : ConfigFailure → String
  | file failure => failure.message p
  | json error => error.message
  | notAnObject => p.shown ++ " must contain a JSON object"

/-- A text with every line break as a single line feed. -/
def plainBreaks : Text → Text
  | [] => []
  | '\r' :: '\n' :: rest => '\n' :: plainBreaks rest
  | '\r' :: rest => '\n' :: plainBreaks rest
  | c :: rest => c :: plainBreaks rest

/-- The options in a settings file. -/
def readConfig (tree : FileTree) (p : Path) : Except ConfigFailure (List (Value × Value)) :=
  match tree.readText p with
  | .error failure => .error (.file failure)
  | .ok text =>
    match Json.parse (plainBreaks text) with
    | .error error => .error (.json error)
    | .ok (.map entries) => .ok entries
    | .ok _ => .error .notAnObject

/-- The options of the settings file, if there is one. -/
def Invocation.configOptions (i : Invocation) (tree : FileTree) :
    Except (Path × ConfigFailure) (List (Value × Value)) :=
  match i.config with
  | none => .ok []
  | some p => (readConfig tree p).mapError fun failure => (p, failure)

/-- The priorities that are given, as a mapping: of two for one prefix the last counts. -/
def priorityEntries (pairs : List (Text × Int)) : List (Value × Value) :=
  Value.ofEntries (pairs.map fun (name, n) => (.text name, .int n))

/-- The options that the arguments give. -/
def Invocation.givenOptions (i : Invocation) : List (String × Value) :=
  let given (name : String) (v : Option Value) : Option (String × Value) := v.map fun v => (name, v)
  [given "sort_algorithm" (i.algorithm.map fun a => .str a.label),
    given "imports_order" (i.kindOrder.map fun words => .list (words.map .text)),
    given "case_sensitive" (if i.caseSensitive then some (.bool true) else none),
    given "namespace_priority" (i.priorities.map fun pairs => .map (priorityEntries pairs)),
    given "no_namespace_priority" (i.barePriority.map .int),
    given "indent" (i.indent.map fun indent => .str indent.chars),
    given "line_ending" (i.lineEnding.map fun e => .str e.chars)].filterMap id

/-- Options of a settings file with those that the arguments give in their place. -/
def Invocation.options (i : Invocation) (fromFile : List (Value × Value)) : List (Value × Value) :=
  i.givenOptions.foldl (fun entries (name, v) => Value.setEntry (.str name) v entries) fromFile

/-! ## Files -/

/-- What is to be done with each file. -/
structure Job where
  settings : Settings
  tokenizer : TokenizerSettings
  /-- What a `php` process does with a source text. One is started for every file, if it is asked
  for. -/
  process : Text → ProcessOutcome
  /-- Only say what would be done. -/
  dryRun : Bool
  /-- Print the changes. -/
  diff : Bool

/-- A file that could not be taken up. -/
inductive AccessError
  | noSuchPath (path : Path)
  | unreadable (path : Path) (failure : FileFailure)
deriving DecidableEq, Repr

namespace AccessError

/-- The wording of an error. -/
def message : AccessError → String
  | noSuchPath path => "No such file or directory: " ++ path.shown
  | unreadable path failure => "Cannot read " ++ path.shown ++ ": " ++ failure.message path

/-- An error as a value. -/
def toValue (e : AccessError) : Value :=
  let path : List (String × Value) :=
    match e with
    | noSuchPath _ => []
    | unreadable path _ => [("path", .str path.toString)]
  .object ([("code", .str "DATA_ACCESS_ERROR"), ("message", .str e.message)] ++ path)

end AccessError

/-- How far a run has come. -/
structure Progress where
  tree : FileTree
  stdout : String := ""
  stderr : String := ""
  entries : List ReportEntry := []
  errors : List AccessError := []

/-- What is printed about a file that could not be handled. -/
def issueLines (path : Path) (result : FixResult) : String :=
  String.join (result.issues.map fun issue =>
    "error: " ++ path.toString ++ ": " ++ issue.code ++ ": " ++ issue.message ++ "\n")

/-- What is printed about a file that changes. -/
def Job.changeLines (job : Job) (path : Path) (source : Text) (result : FixResult) : String :=
  let name := path.toString
  (if job.dryRun then "would fix: " else "fixed: ") ++ name ++ "\n" ++
    if job.diff then
      String.ofList (Diff.unified name name (Text.lines source) (Text.lines result.code))
    else ""

/-- A result with the digests of the text before and after. -/
def reportEntry (source : Text) (result : FixResult) : ReportEntry :=
  ⟨result, [("source_sha256", .str (Digest.ofText source)),
    ("fixed_sha256", .str (Digest.ofText result.code))]⟩

/-- The tree after a file was handled: the file is written if its text changed. -/
def Job.written (job : Job) (tree : FileTree) (path : Path) (result : FixResult) : FileTree :=
  if result.ok && result.changed && !job.dryRun then
    -- the file was there to be read, so writing it does not fail
    (tree.writeText path result.code).toOption.getD tree
  else tree

/-- Take up the result for a file. -/
def Job.addResult (job : Job) (p : Progress) (path : Path) (source : Text) (result : FixResult) :
    Progress :=
  { p with
    tree := job.written p.tree path result
    stdout := p.stdout ++
      if result.ok && result.changed then job.changeLines path source result else ""
    stderr := p.stderr ++ issueLines path result
    entries := p.entries ++ [reportEntry source result] }

/-- Handle one file. -/
def Job.orderFile (job : Job) (p : Progress) (path : Path) : Except FixFault Progress :=
  match p.tree.readText path with
  | .error failure => .ok { p with errors := p.errors ++ [.unreadable path failure] }
  | .ok source =>
    (fixSource job.settings job.tokenizer (job.process source) (some path.toString) source).map
      (job.addResult p path source)

/-- Handle files one after the other, until one breaks the run off. -/
def Job.orderFiles (job : Job) (p : Progress) : List Path → Progress × Option FixFault
  | [] => (p, none)
  | path :: rest =>
    match job.orderFile p path with
    | .error fault => (p, some fault)
    | .ok next => job.orderFiles next rest

/-- Handle all files that paths stand for. -/
def Job.orderPaths (job : Job) (tree : FileTree) (paths : List Path) : Progress × Option FixFault :=
  match tree.allSources paths with
  | .error missing => ({ tree, errors := [.noSuchPath missing] }, none)
  | .ok files => job.orderFiles { tree } files

/-! ## Runs -/

/-- What can break a run off. -/
inductive RunFault
  | fix (fault : FixFault)
  | timeout
  | report (path : Path) (failure : FileFailure)
  | describe (error : DescribeError)

/-- The wording of a fault. -/
def RunFault.message : RunFault → String
  | fix fault => fault.message
  | timeout => Seconds.refusal
  | report path failure => failure.message path
  | describe _ => "the rule cannot be described"

/-- The numbers of a run. -/
def Progress.summary (p : Progress) : Summary :=
  .of (p.entries.map ReportEntry.result) p.errors.length

/-- The exit code of a run: two after any error, one if a run that only says what would be done
found something to do. -/
def exitCode (dryRun : Bool) (s : Summary) : Nat :=
  if s.errors != 0 || s.failed != 0 then 2
  else if dryRun && s.changed != 0 then 1
  else 0

/-- The report of a run. -/
def Progress.report (p : Progress) (dryRun : Bool) : String :=
  reportText p.entries (p.errors.map AccessError.toValue) dryRun

/-- The tree with the report, if one is asked for. -/
def Progress.withReport (p : Progress) (report : Option Path) (dryRun : Bool) :
    Except RunFault FileTree :=
  match report with
  | none => .ok p.tree
  | some path =>
    (p.tree.writeWithParents path (p.report dryRun).toList).mapError
      fun (path, failure) => .report path failure

/-- The end of a run that was not broken off on the way: errors are printed, the report is written,
and the numbers are printed. -/
def Progress.finish (p : Progress) (report : Option Path) (dryRun : Bool) : Outcome RunFault :=
  -- errors are printed also if the report cannot be written
  let stderr := p.stderr ++ String.join (p.errors.map fun e => "error: " ++ e.message ++ "\n")
  match p.withReport report dryRun with
  | .error fault => { ending := .broken fault, stdout := p.stdout, stderr, tree := p.tree }
  | .ok tree =>
    { ending := .exit (exitCode dryRun p.summary)
      stdout := p.stdout ++ Json.sortedLine p.summary.toValue ++ "\n"
      stderr
      tree }

/-- Do a job on paths. -/
def Job.run (job : Job) (tree : FileTree) (paths : List Path) (report : Option Path) :
    Outcome RunFault :=
  match job.orderPaths tree paths with
  | (p, some fault) =>
    { ending := .broken (.fix fault), stdout := p.stdout, stderr := p.stderr, tree := p.tree }
  | (p, none) => p.finish report job.dryRun

/-- Print the description of the rule. -/
def describeRun (tree : FileTree) : Outcome RunFault :=
  match importRule.describe with
  | .ok text => { ending := .exit 0, stdout := text, tree }
  | .error error => { ending := .broken (.describe error), tree }

/-- A run that is refused, with lines that say why. -/
def refusedRun (tree : FileTree) (lines : List String) : Outcome RunFault :=
  { ending := .exit 2, stderr := String.join (lines.map fun line => line ++ "\n"), tree }

/-- The job that is asked for, if its settings are accepted. -/
def Invocation.job (i : Invocation) (process : Text → ProcessOutcome) (settings : Settings) : Job :=
  ⟨settings, i.tokenizer, process, i.dryRun, i.diff⟩

/-- Do what the arguments ask for. -/
def Invocation.run (i : Invocation) (process : Text → ProcessOutcome) (tree : FileTree) :
    Outcome RunFault :=
  if i.describe then describeRun tree
  else if i.paths.isEmpty then
    refusedRun tree [command ++ ": error: at least one PATH is required"]
  else match i.configOptions tree with
    | .error (path, failure) =>
      refusedRun tree ["error: cannot load --config: " ++ failure.message path]
    | .ok fromFile =>
      match Settings.load (i.options fromFile) with
      | .error problems =>
        refusedRun tree (problems.map fun problem => "error: " ++ problem.message)
      | .ok settings =>
        -- a bad timeout is found only when the tokenizer is made, behind all other checks
        if !i.tokenizer.timeout.isPositive then { ending := .broken .timeout, tree }
        else (i.job process settings).run tree i.paths i.report

/-- Run the command. -/
def run (arguments : List String) (process : Text → ProcessOutcome) (tree : FileTree) :
    Outcome RunFault :=
  match readInvocation arguments with
  | .error halt => halt.outcome command tree
  | .ok i => i.run process tree

end OrderImports

end UseOrder
