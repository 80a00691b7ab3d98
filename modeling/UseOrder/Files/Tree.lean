import UseOrder.Files.Path
import UseOrder.Text.Utf8

/-!
# File trees

The files that a run can see, as a value: for each file the names on the way to it from the root of
the tree, and its bytes; and the directories, which may be empty. A directory with something in it
is there even if it is not listed, and the root always is. Rooted paths start from the root, the
others from the home directory.
-/

namespace UseOrder

/-- The place of a file or directory: the names on the way to it. -/
abbrev Location := List String

/-- The bytes of a file. -/
abbrev Bytes := List UInt8

/-- The files and directories that can be seen. -/
structure FileTree where
  files : List (Location × Bytes) := []
  directories : List Location := []
  /-- The directory that relative paths start from. -/
  home : Location := []
deriving DecidableEq, Repr

/-- What stands at a place. -/
inductive Entry
  | file (bytes : Bytes)
  | directory
  | missing
deriving DecidableEq, Repr

/-- Why a file or directory cannot be reached, read or written. -/
inductive FileFailure
  | missing
  /-- Something stands where a directory is to be made. -/
  | taken
  /-- A part on the way is a file. -/
  | throughFile
  | isDirectory
  /-- The path holds a character that no file name can hold. -/
  | nulInName
  | notText (cause : Utf8.DecodeError)
deriving DecidableEq, Repr

/-- The wording of a failure at a path. -/
def FileFailure.message (p : Path) : FileFailure → String
  | missing => "[Errno 2] No such file or directory: " ++ p.shown
  | taken => "[Errno 17] File exists: " ++ p.shown
  | throughFile => "[Errno 20] Not a directory: " ++ p.shown
  | isDirectory => "[Errno 21] Is a directory: " ++ p.shown
  | nulInName => "embedded null byte"
  | notText cause => cause.message

namespace FileTree

/-- The bytes of the file at a place. -/
def bytesAt? (t : FileTree) (place : Location) : Option Bytes :=
  t.files.lookup place

/-- A place lies below another one. -/
def isBelow (upper lower : Location) : Bool :=
  upper.isPrefixOf lower && lower != upper

/-- A directory stands at a place: the root, one that is listed, or one with something in it. -/
def isDirectoryAt (t : FileTree) (place : Location) : Bool :=
  place.isEmpty || t.directories.contains place || t.directories.any (isBelow place) ||
    t.files.any fun (name, _) => isBelow place name

/-- What stands at a place. -/
def entryAt (t : FileTree) (place : Location) : Entry :=
  match t.bytesAt? place with
  | some bytes => .file bytes
  | none => if t.isDirectoryAt place then .directory else .missing

/-- Follow names from a place. A name can only be followed from a directory, and two dots lead to
the directory above; above the root is the root itself. -/
def follow (t : FileTree) (here : Location) : List String → Except FileFailure Location
  | [] => .ok here
  | name :: rest =>
    match t.entryAt here with
    | .file _ => .error .throughFile
    | .missing => .error .missing
    | .directory =>
      t.follow (if name == ".." then here.dropLast else here ++ [name]) rest

/-- The place that a path leads to, whatever stands there. -/
def locate (t : FileTree) (p : Path) : Except FileFailure Location :=
  if p.hasNul then .error .nulInName
  else t.follow (if p.root == "" then t.home else []) p.parts

/-- What a path leads to. -/
def entry (t : FileTree) (p : Path) : Entry :=
  match t.locate p with
  | .ok place => t.entryAt place
  | .error _ => .missing

/-! ## Reading -/

/-- The bytes of the file that a path leads to. -/
def readBytes (t : FileTree) (p : Path) : Except FileFailure Bytes := do
  let place ← t.locate p
  match t.entryAt place with
  | .file bytes => return bytes
  | .directory => throw .isDirectory
  | .missing => throw .missing

/-- The text of the file that a path leads to. -/
def readText (t : FileTree) (p : Path) : Except FileFailure Text := do
  let bytes ← t.readBytes p
  (Utf8.decode bytes).mapError .notText

/-! ## Writing -/

/-- Put bytes at a place; a file that is there already keeps its position in the list. -/
def putFile (place : Location) (bytes : Bytes) : List (Location × Bytes) → List (Location × Bytes)
  | [] => [(place, bytes)]
  | (name, old) :: rest =>
    if name = place then (name, bytes) :: rest else (name, old) :: putFile place bytes rest

/-- The tree with bytes at a place. -/
def writeAt (t : FileTree) (place : Location) (bytes : Bytes) : FileTree :=
  { t with files := putFile place bytes t.files }

theorem lookup_putFile (place other : Location) (bytes : Bytes)
    (files : List (Location × Bytes)) :
    (putFile place bytes files).lookup other =
      if other = place then some bytes else files.lookup other := by
  induction files with
  | nil =>
    simp only [putFile, List.lookup_cons, List.lookup_nil]
    by_cases h : other = place
    · simp [h]
    · simp [h, beq_eq_false_iff_ne.mpr h]
  | cons file rest ih =>
    obtain ⟨name, old⟩ := file
    by_cases hName : name = place
    · subst hName
      simp only [putFile, List.lookup_cons, if_pos]
      by_cases h : other = name
      · simp [h]
      · simp [h, beq_eq_false_iff_ne.mpr h]
    · simp only [putFile, if_neg hName, List.lookup_cons]
      by_cases h : other = name
      · subst h
        simp [hName]
      · simp [beq_eq_false_iff_ne.mpr h, ih]

/-- Writing a file sets its bytes and leaves all other files as they are. -/
theorem bytesAt?_writeAt (t : FileTree) (place other : Location) (bytes : Bytes) :
    (t.writeAt place bytes).bytesAt? other =
      if other = place then some bytes else t.bytesAt? other :=
  lookup_putFile place other bytes t.files

/-- Write a text to the file that a path leads to; the file need not be there before. -/
def writeText (t : FileTree) (p : Path) (text : Text) : Except FileFailure FileTree := do
  let place ← t.locate p
  match t.entryAt place with
  | .directory => throw .isDirectory
  | _ => return t.writeAt place (Utf8.encode text)

/-- Make a directory in one that is there. -/
def makeDirectory (t : FileTree) (p : Path) : Except FileFailure FileTree := do
  let place ← t.locate p
  match t.entryAt place with
  | .missing => return { t with directories := t.directories ++ [place] }
  | _ => throw .taken

/-- Make a directory, unless it is there. -/
def ensureDirectory (t : FileTree) (p : Path) : Except (Path × FileFailure) FileTree :=
  match t.makeDirectory p with
  | .ok made => .ok made
  -- whatever stood in the way, a directory that is there will do
  | .error failure => if t.entry p = .directory then .ok t else .error (p, failure)

/-- Make the directory with the given names, last one first, and those above it, unless they are
there. -/
def ensureDirectories (t : FileTree) (root : String) :
    (reversed : List String) → Except (Path × FileFailure) FileTree
  | [] => .ok t
  | name :: above =>
    let p : Path := ⟨root, (name :: above).reverse⟩
    match t.makeDirectory p with
    | .error .missing => do
      let made ← t.ensureDirectories root above
      made.ensureDirectory p
    | _ => t.ensureDirectory p

/-- Write a text to a file, and make the directories on the way to it. -/
def writeWithParents (t : FileTree) (p : Path) (text : Text) :
    Except (Path × FileFailure) FileTree := do
  let made ← t.ensureDirectories p.root p.parent.parts.reverse
  (made.writeText p text).mapError fun failure => (p, failure)

/-! ## Walking directories -/

/-- The names from a place to one below it. -/
def namesFrom? (upper lower : Location) : Option Location :=
  if isBelow upper lower then some (lower.drop upper.length) else none

/-- Places by their first difference, names by code points. -/
def locationLe : Location → Location → Bool
  | [], _ => true
  | _ :: _, [] => false
  | a :: as, b :: bs =>
    match Text.compare a.toList b.toList with
    | .lt => true
    | .gt => false
    | .eq => locationLe as bs

/-- The file name has the ending of source files. -/
def isSourceName (place : Location) : Bool :=
  match place.getLast? with
  | some name => ".php".toList.isSuffixOf name.toList
  | none => false

/-- The source files below a place, by the names on the way from there. -/
def sourcesBelow (t : FileTree) (place : Location) : List Location :=
  let found := t.files.filterMap fun (name, _) => namesFrom? place name
  (found.filter isSourceName).mergeSort locationLe

/-- The source files that a path stands for: a file is taken whatever its name, a directory stands
for all source files in it. There are none if nothing is there. -/
def sources? (t : FileTree) (p : Path) : Option (List Path) :=
  match t.locate p with
  | .error _ => none
  | .ok place =>
    match t.entryAt place with
    | .file _ => some [p]
    | .directory => some ((t.sourcesBelow place).map p.append)
    | .missing => none

/-- The source files that paths stand for, or the first path that stands for nothing. -/
def allSources (t : FileTree) : List Path → Except Path (List Path)
  | [] => .ok []
  | p :: rest =>
    match t.sources? p with
    | none => .error p
    | some found => do
      let later ← t.allSources rest
      return found ++ later

end FileTree

end UseOrder
