import JavaTree.Text.Quoted
import JavaTree.Token

/-!
How listings show tokens.
-/

namespace JavaTree

/-- A kind of token with the value of a literal: `Identifier`, `StringLiteral("a")`. -/
def Kind.display (k : Kind) : String :=
  match k.value? with
  | some v => k.name ++ "(" ++ Text.Quoted.render v ++ ")"
  | none => k.name

/-- A token with its text and place: `Identifier 'x' at 1:5`. -/
def Token.display (t : Token) : String :=
  t.kind.display ++ " '" ++ t.lexeme ++ "' at " ++ t.location.render

end JavaTree
