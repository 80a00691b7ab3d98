import UseOrder.CommandLine.ListImports
import UseOrder.CommandLine.OrderImports

/-!
# The program

Takes the files that the arguments name into a file tree, runs a command on it, and carries out what
the run comes to. Which of the two commands runs is told by the name that the program is called by.

The names of the files in a directory are read from standard input, one a line. No process is
started: whoever asks for a `php` process is told that there is none.
-/

namespace UseOrder.Program

/-- What stands at a path of the file system. -/
def lookUp (path : Path) : IO Entry := do
  try
    let bytes ← IO.FS.readBinFile path.toString
    return .file bytes.toList
  catch
    | .noFileOrDirectory .. => return .missing
    | .inappropriateType .. => return .directory
    | e => throw e

/-- The tree with what stands at a path and on the way to it. -/
def addPath (tree : FileTree) (path : Path) : IO FileTree := do
  let mut seen := tree
  for n in [0 : path.parts.length + 1] do
    let step : Path := ⟨path.root, path.parts.take n⟩
    match seen.locate step with
    | .error _ => pure ()
    | .ok place =>
      match ← lookUp step with
      | .file bytes => seen := seen.writeAt place bytes
      | .directory => seen := { seen with directories := seen.directories ++ [place] }
      | .missing => pure ()
  return seen

/-- The tree with what stands at paths; if there is a directory among those to be walked, the names
of the files in it come from standard input. -/
def addPaths (tree : FileTree) (paths walked : List Path) : IO FileTree := do
  let seen ← paths.foldlM addPath tree
  if walked.any fun path => seen.entry path = .directory then
    let names ← (← IO.getStdin).lines
    names.foldlM (fun t name => addPath t (.ofString name)) seen
  else return seen

/-- Bring the file system from one tree to another. -/
def carryOut (before after : FileTree) : IO Unit := do
  for place in after.directories do
    unless before.directories.contains place do
      IO.FS.createDirAll (Path.mk "/" place).toString
  for (place, bytes) in after.files do
    unless before.bytesAt? place = some bytes do
      IO.FS.writeBinFile (Path.mk "/" place).toString (ByteArray.mk bytes.toArray)

/-- Carry out what a run comes to, print what it prints, and give its exit code. -/
def finish {φ : Type} (command : String) (message : φ → String) (before : FileTree)
    (outcome : Outcome φ) : IO UInt32 := do
  carryOut before outcome.tree
  IO.print outcome.stdout
  IO.eprint outcome.stderr
  match outcome.ending with
  | .exit code => return code.toUInt32
  | .help =>
    IO.println ("usage: " ++ command ++ " [OPTION ...] PATH ...")
    return 0
  | .broken fault =>
    IO.eprintln ("error: " ++ message fault)
    return 1

/-- Order the imports of files. -/
def orderImports (tree : FileTree) (arguments : List String) : IO UInt32 := do
  let seen ← match OrderImports.readInvocation arguments with
    | .ok i => addPaths tree i.named i.paths
    | .error _ => pure tree
  finish OrderImports.command OrderImports.RunFault.message seen
    (OrderImports.run arguments (fun _ => .notFound) seen)

/-- List the imports of a file. -/
def listImports (tree : FileTree) (arguments : List String) : IO UInt32 := do
  let seen ← match ListImports.readInvocation arguments with
    | .ok i => addPath tree i.path
    | .error _ => pure tree
  finish ListImports.command ListImports.RunFault.message seen
    (ListImports.run arguments (fun _ => .notFound) seen)

end UseOrder.Program

open UseOrder in
/-- The program. -/
def main (arguments : List String) : IO UInt32 := do
  let calledBy := (Path.ofString (toString (← IO.appPath))).parts.getLast?
  let tree : FileTree := { home := (Path.ofString (toString (← IO.currentDir))).parts }
  if calledBy = some ListImports.command then Program.listImports tree arguments
  else Program.orderImports tree arguments
