/-!
# Labels in DOT

A label is a list of lines between quotation marks. Whatever text a line holds, it cannot end the
label early: a quotation mark or a backslash in it gets a backslash in front. The lines are
separated by a backslash and the letter n, which the lines themselves can no longer hold.
-/

namespace GoalPlanning.Dot

/-- A text with another text in place of each occurrence of a character. -/
def replaceEach (old : Char) (new s : String) : String :=
  String.ofList (s.toList.flatMap fun c => if c = old then new.toList else [c])

/-- A text inside quotation marks. Backslashes come first: the ones that are put in front of
quotation marks afterwards must not be doubled. -/
def escape (s : String) : String := replaceEach '"' "\\\"" (replaceEach '\\' "\\\\" s)

/-- The lines of a label between quotation marks. -/
def quoteLines (lines : List String) : String :=
  "\"" ++ "\\n".intercalate (lines.map escape) ++ "\""

end GoalPlanning.Dot
