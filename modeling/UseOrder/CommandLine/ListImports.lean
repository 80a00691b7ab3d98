import UseOrder.CommandLine.Run
import UseOrder.Listing

/-!
# The command that lists imports

The arguments name one file, and the command prints what the program sees in it.
-/

namespace UseOrder

namespace ListImports

/-- The name of the command. -/
def command : String :=
  "sq-ordered-imports-debug-print"

/-- The options of the command. -/
inductive Key
  | help
  | engine
deriving DecidableEq, Repr

/-- The arguments of the command. -/
def grammar : Grammar Key where
  options := [⟨.help, ["-h", "--help"], .flag⟩, ⟨.engine, ["--engine"], .value⟩]
  positional := .one "path"

/-- What the arguments ask for. -/
structure Invocation where
  path : Path := ⟨"", []⟩
  engine : Engine := .builtIn

/-- Take up something that the arguments give. -/
def Invocation.take (i : Invocation) : Given Key → Except Halt Invocation
  | .option o value =>
    match o.key with
    | .help => .error .help
    | .engine => do
      let engine ← o.choose (Engine.all.map fun e => (e.label, e)) value
      return { i with engine }
  | .positional words => .ok { i with path := .ofString (words.headD "") }

/-- What can break a run off. -/
inductive RunFault
  | unreadable (path : Path) (failure : FileFailure)
  | fault (cause : FixFault)

/-- The wording of a fault. -/
def RunFault.message : RunFault → String
  | unreadable path failure => "Cannot read " ++ path.shown ++ ": " ++ failure.message path
  | fault cause => cause.message

/-- What the arguments ask for. -/
def readInvocation (arguments : List String) : Except Halt Invocation :=
  grammar.read Invocation.take {} arguments

/-- Do what the arguments ask for. -/
def Invocation.run (i : Invocation) (process : Text → ProcessOutcome) (tree : FileTree) :
    Outcome RunFault :=
  match tree.readText i.path with
  | .error failure => { ending := .broken (.unreadable i.path failure), tree }
  | .ok source =>
    match listSource {} { engine := i.engine } (process source) source with
    | .error (.fault fault) => { ending := .broken (.fault fault), tree }
    | .error (.issue issue) =>
      { ending := .exit 2, stdout := "error: " ++ issue.summary ++ "\n", tree }
    | .ok text => { ending := .exit 0, stdout := text, tree }

/-- Run the command. -/
def run (arguments : List String) (process : Text → ProcessOutcome) (tree : FileTree) :
    Outcome RunFault :=
  match readInvocation arguments with
  | .error halt => halt.outcome command tree
  | .ok i => i.run process tree

end ListImports

end UseOrder
