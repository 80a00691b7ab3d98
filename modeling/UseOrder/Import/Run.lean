import UseOrder.Import.Statement

/-!
# Runs and sub-groups

The imports of one namespace form a run: run 0 holds those before the first namespace declaration,
and every declaration opens a new run. A run is cut into sub-groups, of statements that follow
each other with nothing but white space and comments between them. Imports are reordered within
their sub-group only.
-/

namespace UseOrder

/-- The positions of imports, cut at every namespace declaration; `i` is the position of the first
token. -/
def importRunsFrom (i : Nat) : List Token → List (List Int)
  | [] => [[]]
  | t :: rest =>
    let later := importRunsFrom (i + 1) rest
    if t.kind == .namespaceWord then [] :: later
    else if t.kind == .useWord then
      match later with
      -- there is always a run, so this is not reached
      | [] => [[(i : Int)]]
      | run :: runs => ((i : Int) :: run) :: runs
    else later

/-- The positions of imports, run by run. Runs may be empty. -/
def importRuns (ts : List Token) : List (List Int) :=
  importRunsFrom 0 ts

/-- The statement at `v` follows the one at `u` directly. After a close tag, the code that the next
open tag starts counts as following directly. -/
def follows (ts : List Token) (u v : Int) : Except Fault Bool := do
  let stop ← statementEnd ts u
  -- a statement holds no open tag, so the search for the next one may start at its `use`
  let resumed ← if (← tokenAt ts stop).kind == .closeTag
    then nextWhere (·.kind == .openTag) ts u
    else pure none
  return (← nextMeaningful ts (resumed.getD stop)) == some v

/-- Cut a run into sub-groups. -/
def splitRun (ts : List Token) : List Int → Except Fault (List (List Int))
  | [] => return []
  | [u] => return [[u]]
  | u :: v :: rest => do
    let joined ← follows ts u v
    let groups ← splitRun ts (v :: rest)
    match joined, groups with
    | true, group :: others => return (u :: group) :: others
    | _, _ => return [u] :: groups

/-- A sub-group: the run that it belongs to, and the positions of its statements. -/
structure SubGroup where
  run : Nat
  uses : List Int
deriving DecidableEq, Repr

/-- The sub-groups of runs that are numbered from `n`. -/
def subGroupsFrom (ts : List Token) (n : Nat) : List (List Int) → Except Fault (List SubGroup)
  | [] => return []
  | uses :: runs => do
    let groups ← splitRun ts uses
    let later ← subGroupsFrom ts (n + 1) runs
    return groups.map (SubGroup.mk n) ++ later

/-- Every sub-group, in source order. -/
def subGroups (ts : List Token) : Except Fault (List SubGroup) :=
  subGroupsFrom ts 0 (importRuns ts)

end UseOrder
