import JavaTree.Token.Angle
import JavaTree.Token.Lexer

/-!
From tokens back to text.

Operators with two operands get a space on either side, commas and semicolons one after them, words
are kept apart, and so are tokens that would read differently if they touched. Angle brackets around
type arguments stay tight. Quoted literals are written anew from the text they stand for.
-/

namespace JavaTree

/-- The text of a single token. -/
def Token.text (t : Token) : String :=
  match t.kind with
  | .string v => "\"" ++ Literal.escape v '"' ++ "\""
  | .character c => "'" ++ Literal.escape (String.singleton c) '\'' ++ "'"
  | _ => t.lexeme

namespace Spacing

/-- Words and quoted literals. -/
def isWordlike : Kind → Bool
  | .string _ | .character _ => true
  | k => k.isWord

/-- Tokens that end an operand, so that `+` and `-` after them have two operands. -/
def endsOperand : Kind → Bool
  | .identifier | .integer | .float | .string _ | .character _ => true
  | .keyword .true_ | .keyword .false_ | .keyword .null_
  | .keyword .this_ | .keyword .super_ => true
  | .mark .closeParen | .mark .closeBracket | .mark .increment | .mark .decrement => true
  | _ => false

/-- True for a token with a space on either side, given the token before it and whether it is an
angle bracket around type arguments. -/
def isPadded (k : Kind) (previous : Option Kind) (angle : Bool) : Bool :=
  match previous with
  | none => false
  | some p =>
    match k with
    | .mark .less | .mark .greater
    | .mark .leftShift | .mark .rightShift | .mark .unsignedShift => !angle
    | .mark .question => p != .mark .less && p != .mark .comma
    | .mark .plus | .mark .minus => endsOperand p
    | .mark .assign | .mark .addAssign | .mark .subAssign | .mark .mulAssign
    | .mark .divAssign | .mark .modAssign | .mark .andAssign | .mark .orAssign
    | .mark .xorAssign | .mark .leftShiftAssign | .mark .rightShiftAssign
    | .mark .unsignedShiftAssign
    | .mark .equal | .mark .notEqual | .mark .lessEqual | .mark .greaterEqual
    | .mark .logicalAnd | .mark .logicalOr
    | .mark .star | .mark .slash | .mark .percent
    | .mark .ampersand | .mark .pipe | .mark .caret
    | .mark .colon | .mark .arrow => true
    | _ => false

/-- True when a text would not be read as a token of its own with the other one right behind it. -/
def merges (before after : List Char) : Bool :=
  !before.isEmpty && !after.isEmpty && (Lexer.read (before ++ after)).width != before.length

/-- What has been written so far, as far as it bears on the next space. -/
structure Left where
  /-- The last token. -/
  token : Token
  /-- The last token asks for a space after it. -/
  wantsSpace : Bool
  /-- The last character written is a space. -/
  endsInSpace : Bool

/-- True when the next token does not stand right behind what is to its left. -/
def needsSpace (left : Left) (t : Token) (padded : Bool) : Bool :=
  padded
    || (left.wantsSpace && t.kind != .mark .semicolon)
    || (isWordlike t.kind &&
        (isWordlike left.token.kind || left.token.kind == .mark .question))
    || merges left.token.text.toList t.text.toList

/-- The text of each token, with the space before it if there is one. -/
def pieces (left : Option Left) : List (Token × Bool) → List String
  | [] => []
  | (t, angle) :: rest =>
    let padded := isPadded t.kind (left.map (·.token.kind)) angle
    let space := match left with
      | none => false
      | some l => needsSpace l t padded && !l.endsInSpace
    let text := t.text
    let endsInSpace := match text.toList.getLast? with
      | some c => c == ' '
      | none => space || (left.map (·.endsInSpace)).getD false
    let wantsSpace := padded || t.kind == .mark .comma || t.kind == .mark .semicolon
    (if space then " " ++ text else text) :: pieces (some ⟨t, wantsSpace, endsInSpace⟩) rest

/-- A run of tokens as text. -/
def render (ts : List Token) : String :=
  String.join (pieces none (ts.zip (Angle.marks 0 ts)))

end Spacing

end JavaTree
