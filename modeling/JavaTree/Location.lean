/-!
Places in a source text.

A `Location` names one character by line, column and byte offset; a `Span` names the first and the
last token of a piece of text. A `Cursor` walks over characters and knows the location of the next
one.

    character:   a   b   \r  \n  c
    line:        1   1   1   2   2
    column:      1   2   3   1   1

A line ends at `\r`, at `\n`, or at the pair `\r\n`, which counts once. The `\n` of that pair takes
no column of its own.
-/

namespace JavaTree

/-- A place in a source text: line and column count from one, the offset counts UTF-8 bytes from
zero. Columns count characters. -/
structure Location where
  line : Nat
  column : Nat
  offset : Nat
  deriving DecidableEq, Inhabited

namespace Location

/-- The place of the first character of a text. -/
def start : Location := ⟨1, 1, 0⟩

/-- Locations are ordered by line, then column, then offset. -/
instance : LT Location where
  lt a b := a.line < b.line ∨
    (a.line = b.line ∧ (a.column < b.column ∨ (a.column = b.column ∧ a.offset < b.offset)))

instance (a b : Location) : Decidable (a < b) :=
  inferInstanceAs (Decidable (a.line < b.line ∨
    (a.line = b.line ∧ (a.column < b.column ∨ (a.column = b.column ∧ a.offset < b.offset)))))

/-- One location is at most another when it is not strictly after it. -/
instance : LE Location where
  le a b := ¬ b < a

instance (a b : Location) : Decidable (a ≤ b) :=
  inferInstanceAs (Decidable (¬ b < a))

/-- The form in which messages name a place: `line:column`. -/
def render (l : Location) : String :=
  toString l.line ++ ":" ++ toString l.column

end Location

/-- A stretch of source text, named by the locations of its first and of its last token. -/
structure Span where
  first : Location
  last : Location
  deriving DecidableEq, Inhabited

namespace Span

/-- The span of a text without tokens. -/
def empty : Span := ⟨⟨0, 0, 0⟩, ⟨0, 0, 0⟩⟩

/-- The span of a single token. -/
def single (l : Location) : Span := ⟨l, l⟩

/-- The span from one location to another, or of the first one alone if the second stands before
it. -/
def between (first last : Location) : Span :=
  ⟨first, if last < first then first else last⟩

/-- The form in which reports name a span: `l:c-c` on one line and `l:c-l:c` across lines. -/
def render (s : Span) : String :=
  if s.first.line = s.last.line then
    s.first.render ++ "-" ++ toString s.last.column
  else
    s.first.render ++ "-" ++ s.last.render

end Span

/-- A walk over a text: where the next character stands, and whether the last one was `\r`. -/
structure Cursor where
  location : Location
  afterReturn : Bool
  deriving DecidableEq

namespace Cursor

/-- The walk before the first character. -/
def start : Cursor := ⟨.start, false⟩

/-- One step of the walk. -/
def advance (u : Cursor) (c : Char) : Cursor :=
  let l := u.location
  let offset := l.offset + c.utf8Size
  let next : Location :=
    if c = '\n' ∧ u.afterReturn then ⟨l.line, l.column, offset⟩
    else if c = '\n' ∨ c = '\r' then ⟨l.line + 1, 1, offset⟩
    else ⟨l.line, l.column + 1, offset⟩
  ⟨next, c = '\r'⟩

/-- The walk over a whole text. -/
def advanceAll (u : Cursor) (cs : List Char) : Cursor := cs.foldl advance u

end Cursor

/-- The location just past the end of a text. -/
def Location.endOf (cs : List Char) : Location := (Cursor.start.advanceAll cs).location

end JavaTree
