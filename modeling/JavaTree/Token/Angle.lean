import JavaTree.Token

/-!
Angle brackets around generic arguments.

A `<` may compare two numbers or open a list of type arguments. It opens a list when the tokens up
to the bracket that closes it can all stand in a type; `>>` and `>>>` close two and three lists at
once.

    tokens:   Map  <  K  ,  List  <  V  >>
    depth:         1  1  1  1     2  2  0
-/

namespace JavaTree.Angle

/-- What a token adds to the depth of angle brackets. -/
def weight : Kind → Int
  | .mark .less => 1
  | .mark .greater => -1
  | .mark .rightShift => -2
  | .mark .unsignedShift => -3
  | _ => 0

/-- Tokens that open or close lists of type arguments. -/
def isAngle (k : Kind) : Bool := weight k != 0

/-- Tokens that can stand between the angle brackets of a type, brackets included. -/
def isInType : Kind → Bool
  | .identifier => true
  | .keyword (.primitive _) | .keyword .extends_ | .keyword .super_ => true
  | .mark .question | .mark .comma | .mark .dot | .mark .ampersand
  | .mark .openBracket | .mark .closeBracket => true
  | k => isAngle k

/-- How many tokens it takes, inside a list of type arguments of the given depth, to bring the
depth back to zero. -/
def close? (depth : Int) : List Token → Option Nat
  | [] => none
  | t :: ts =>
    if isInType t.kind then
      let d := depth + weight t.kind
      if d < 0 then none
      else if d = 0 then some 1
      else (close? d ts).map (· + 1)
    else none

/-- For each token, whether it is an angle bracket around type arguments; the first `inside` tokens
belong to a list that is already open. -/
def marks (inside : Nat) : List Token → List Bool
  | [] => []
  | t :: ts =>
    match inside with
    | n + 1 => isAngle t.kind :: marks n ts
    | 0 =>
      match (if t.kind = .mark .less then close? 1 ts else none) with
      | some n => true :: marks n ts
      | none => false :: marks 0 ts

end JavaTree.Angle
