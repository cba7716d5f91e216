import JavaTree.Failure
import JavaTree.Text.Quoted

/-!
How source text is laid out.
-/

namespace JavaTree

/-- Where the opening brace of a body stands. -/
inductive BraceStyle where
  /-- At the end of the header's line. -/
  | sameLine
  /-- On a line of its own. -/
  | nextLine
  deriving DecidableEq

/-- The word for a brace style. -/
def BraceStyle.name : BraceStyle → String
  | sameLine => "same-line"
  | nextLine => "next-line"

/-- The brace style that a word stands for. -/
def BraceStyle.ofName? (s : String) : Option BraceStyle :=
  [sameLine, nextLine].find? (·.name = s)

/-- The settings for the layout of source text. -/
structure Layout where
  /-- Spaces for one level of indentation. -/
  indentWidth : Nat := 4
  /-- Indent with one tab for each level instead of spaces. -/
  useTabs : Bool := false
  /-- The text at the end of every line. -/
  newline : String := "\n"
  braceStyle : BraceStyle := .sameLine
  deriving DecidableEq

namespace Layout

/-- The text for one level of indentation. -/
def indentUnit (l : Layout) : String :=
  if l.useTabs then "\t" else String.ofList (List.replicate l.indentWidth ' ')

/-- True for the texts that end a line of source text. -/
def isNewline (s : String) : Bool := s = "\n" || s = "\r\n" || s = "\r"

/-- Why a layout would give source text that cannot be read back, if it would. -/
def problem? (l : Layout) : Option Failure :=
  if !isNewline l.newline then
    some (.config ("newline must be \"\\n\", \"\\r\\n\" or \"\\r\", got " ++
      Text.Quoted.render l.newline))
  else if !l.useTabs && l.indentWidth = 0 then
    some (.config "indent_width must be at least 1 when indenting with spaces")
  else
    none

end Layout

end JavaTree
