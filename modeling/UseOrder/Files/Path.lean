import UseOrder.Text.Quoted

/-!
# Paths

A path is a root, which relative paths lack, and the names of its parts. Empty parts and parts that
name the directory itself are dropped when a path is read; parts that go up are kept.
-/

namespace UseOrder

/-- A path of the file system. -/
structure Path where
  /-- Empty for a relative path, else one slash or two. -/
  root : String
  parts : List String
deriving DecidableEq, Repr

namespace Path

/-- The root that a text starts with: exactly two slashes make a root of their own. -/
def rootOf (text : Text) : String :=
  match (text.takeWhile (· == '/')).length with
  | 0 => ""
  | 2 => "//"
  | _ => "/"

/-- The path that a text names. -/
def ofString (s : String) : Path :=
  let names := (Text.splitAt '/' s.toList).map String.ofList
  ⟨rootOf s.toList, names.filter fun name => name != "" && name != "."⟩

/-- The path as text. -/
def toString (p : Path) : String :=
  if p.root == "" && p.parts.isEmpty then "."
  else p.root ++ String.intercalate "/" p.parts

/-- The path as messages show it. -/
def shown (p : Path) : String :=
  String.ofList (Text.quoted p.toString.toList)

/-- The path of the directory that a path lies in. -/
def parent (p : Path) : Path :=
  ⟨p.root, p.parts.dropLast⟩

/-- A path further down. -/
def append (p : Path) (names : List String) : Path :=
  ⟨p.root, p.parts ++ names⟩

/-- The path names something that no file can be called. -/
def hasNul (p : Path) : Bool :=
  p.parts.any fun name => name.toList.contains (Char.ofNat 0)

end Path

end UseOrder
