import UseOrder.CommandLine.Arguments
import UseOrder.Files.Tree

/-!
# Runs

What a run of a command comes to: how it ended, what it printed, and the files that it leaves.
-/

namespace UseOrder

/-- How a run ended; `φ` says what can break it off. -/
inductive Ending (φ : Type)
  | exit (code : Nat)
  /-- Help is asked for. -/
  | help
  /-- Something broke the run off. -/
  | broken (fault : φ)
deriving Repr

/-- What a run comes to. -/
structure Outcome (φ : Type) where
  ending : Ending φ
  stdout : String := ""
  stderr : String := ""
  tree : FileTree
deriving Repr

/-- The run of a command whose arguments ask for none: an error is printed with the command's
name. -/
def Halt.outcome {φ : Type} (command : String) (tree : FileTree) : Halt → Outcome φ
  | .help => { ending := .help, tree }
  | .error cause =>
    { ending := .exit 2, stderr := command ++ ": error: " ++ cause.message ++ "\n", tree }

end UseOrder
