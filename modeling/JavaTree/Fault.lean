import JavaTree.Location

/-!
Faults of the text below the level of tokens.
-/

namespace JavaTree

/-- What is wrong with a stretch of text that is no token. -/
inductive FaultKind where
  | unterminatedString
  | unterminatedCharacter
  | invalidEscape (escaped : Char)
  | invalidUnicodeEscape
  | wrongCharacterLength
  | unrecognized
  deriving DecidableEq, Repr

namespace FaultKind

/-- What is said about a fault. -/
def message : FaultKind → String
  | unterminatedString => "unterminated string literal"
  | unterminatedCharacter => "unterminated character literal"
  | invalidEscape c => "invalid escape sequence '\\" ++ String.singleton c ++ "'"
  | invalidUnicodeEscape => "invalid unicode escape (expected exactly 4 hex digits)"
  | wrongCharacterLength => "character literal must contain exactly one character"
  | unrecognized => "unrecognized character"

end FaultKind

/-- A faulty stretch of text: what is wrong, where it starts, and the text that was passed over. -/
structure Fault where
  kind : FaultKind
  location : Location
  text : String
  deriving DecidableEq

namespace Fault

/-- The full report of a fault, with its place and text. -/
def report (f : Fault) : String :=
  f.kind.message ++ " at " ++ f.location.render ++ " (offset " ++ toString f.location.offset ++
    "): '" ++ f.text ++ "'"

end Fault

end JavaTree
