import JavaTree.Layout

/-!
Lines of text on a page.

A `Line` knows how deep it is indented, but not by what. A line may ask to go on with the line
before it: it does so where braces share the line of their header and the line before ends in a
closing brace.

    lines:   0 "if (a) {"          page:   if (a) {
             1 "f();"                          f();
             0 "}"                         } else {
             0 "else {"  joins                 g();
             1 "g();"                      }
             0 "}"
-/

namespace JavaTree

/-- A line of text. -/
inductive Line where
  | blank
  /-- Text at a level of indentation, which may ask to go on with the line before. -/
  | text (level : Nat) (content : String) (joins : Bool)
  deriving DecidableEq

namespace Line

/-- A line at the outermost level. -/
def plain (content : String) : Line := .text 0 content false

/-- A line one level further in. -/
def indent : Line → Line
  | blank => blank
  | text level content joins => text (level + 1) content joins

/-- A line that asks to go on with the line before. -/
def join : Line → Line
  | blank => blank
  | text level content _ => text level content true

/-- Lines one level further in. -/
def indentAll (ls : List Line) : List Line := ls.map indent

/-- Lines of which the first one asks to go on with the line before. -/
def joinFirst : List Line → List Line
  | [] => []
  | l :: ls => l.join :: ls

/-- A header and, between braces, lines one level further in. Without a header the braces stand
alone. -/
def braced (style : BraceStyle) (header : String) (inner : List Line) : List Line :=
  let opening :=
    if header = "" then [plain "\x7b"]
    else match style with
      | .sameLine => [plain (header ++ " \x7b")]
      | .nextLine => [plain header, plain "\x7b"]
  opening ++ indentAll inner ++ [plain "\x7d"]

/-- Groups of lines with blank lines between them. -/
def separated (groups : List (List Line)) : List Line := [blank].intercalate groups

end Line

/-- Text that is being written, last character first. -/
abbrev Page := List Char

namespace Page

/-- Writes a text at the end of a page. -/
def put (page : Page) (s : String) : Page := s.toList.reverse ++ page

/-- True when the last line of a page ends in a closing brace. -/
def endsInBrace (layout : Layout) (page : Page) : Bool :=
  ("\x7d" ++ layout.newline).toList.reverse.isPrefixOf page

/-- Writes one line at the end of a page. -/
def write (layout : Layout) (page : Page) : Line → Page
  | .blank => page.put layout.newline
  | .text level content joins =>
    let start :=
      if joins && layout.braceStyle = .sameLine && page.endsInBrace layout then
        Page.put (page.drop layout.newline.length) " "
      else
        page.put (String.join (List.replicate level layout.indentUnit))
    (start.put content).put layout.newline

/-- The text of a page. -/
def text (page : Page) : String := String.ofList page.reverse

/-- Lines as text. -/
def render (layout : Layout) (ls : List Line) : String := Page.text (ls.foldl (write layout) [])

end Page

end JavaTree
