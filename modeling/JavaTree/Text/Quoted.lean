import JavaTree.Text.Hex
import JavaTree.Text.Visible

/-!
Texts in double quotes, for listings and messages.

What is visible stands as it is; quotes, backslashes and the common control codes get a short
escape, and everything else its code point in braces: `\u` and then `{301}`.
-/

namespace JavaTree.Text.Quoted

/-- One character of a quoted text. -/
def char (c : Char) : List Char :=
  match c with
  | '"' => ['\\', '"']
  | '\\' => ['\\', '\\']
  | '\n' => ['\\', 'n']
  | '\t' => ['\\', 't']
  | '\r' => ['\\', 'r']
  | '\x00' => ['\\', '0']
  | c =>
    if Visible.isVisible c then [c]
    else ['\\', 'u', '{'] ++ Hex.digits c.toNat ++ ['}']

/-- A text in double quotes. -/
def render (s : String) : String :=
  "\"" ++ String.ofList (s.toList.flatMap char) ++ "\""

end JavaTree.Text.Quoted
