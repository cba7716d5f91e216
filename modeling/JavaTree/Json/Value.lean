/-!
JSON documents.

Two things are kept open until a value is used. A text may hold half of a surrogate pair, which is
no character: such a text can be passed over, but not read. A number may be one that is not written
as a natural number of machine size: it can be passed over, too.
-/

namespace JavaTree.Json

/-- A JSON value. -/
inductive Value where
  | null
  | bool (b : Bool)
  /-- A number, if it is written as a natural number of machine size. -/
  | number (n : Option Nat)
  /-- A text, if it consists of characters. -/
  | text (s : Option String)
  | array (items : List Value)
  /-- The fields in the order in which they are written. -/
  | object (fields : List (Option String × Value))

end JavaTree.Json
