import UseOrder.Text.Basic

/-!
# Text without comments

The text of an imported name may hold comments. They are dropped in two passes: first every closed
block comment, then every line comment up to the end of its line.
-/

namespace UseOrder

/-- The length of the rest of a block comment, its end mark included, if there is one. -/
def closedCommentLength? : Text → Option Nat
  | [] => none
  | '*' :: '/' :: _ => some 2
  | _ :: rest => (closedCommentLength? rest).map (· + 1)

/-- Drop the block comments that are closed. -/
def dropBlockComments (text : Text) : Text :=
  match text with
  | [] => []
  | c :: rest =>
    if c == '/' && rest.head? == some '*' then
      match closedCommentLength? (rest.drop 1) with
      | some n => dropBlockComments (rest.drop (1 + n))
      -- a comment that is not closed stays
      | none => c :: dropBlockComments rest
    else c :: dropBlockComments rest
termination_by text.length
decreasing_by all_goals simp only [List.length_drop, List.length_cons]; omega

/-- The rest of a line is left out, or kept. -/
def dropLineCommentsFrom (inComment : Bool) : Text → Text
  | [] => []
  | c :: rest =>
    if c == '\r' || c == '\n' then c :: dropLineCommentsFrom false rest
    else if inComment || c == '#' || (c == '/' && rest.head? == some '/') then
      dropLineCommentsFrom true rest
    else c :: dropLineCommentsFrom false rest

/-- Drop the line comments. -/
def dropLineComments (text : Text) : Text :=
  dropLineCommentsFrom false text

/-- The text without its comments. -/
def stripComments (text : Text) : Text :=
  dropLineComments (dropBlockComments text)

end UseOrder
