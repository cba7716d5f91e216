import JavaTree.Parser.Basic
import JavaTree.Token.Angle

/-!
What the tokens ahead look like, without passing over them.

A type is a built-in name, or names joined by dots with lists of type arguments, and after either of
them pairs of brackets. Whether a text declares something or computes something is decided by what
follows such a type.
-/

namespace JavaTree.Parser

/-- True when a list starts with tokens of two given kinds. -/
def startsWith (a b : Kind) : List Token → Bool
  | s :: t :: _ => s.kind = a && t.kind = b
  | _ => false

/-- The names after the first one of a name with dots. -/
def furtherNames : List Token → List String
  | d :: t :: ts =>
    if d.kind = .mark .dot ∧ t.kind = .identifier then t.lexeme :: furtherNames ts else []
  | _ => []

/-- How many empty pairs of brackets a list starts with. -/
def dimensions : List Token → Nat
  | a :: b :: ts =>
    if a.kind = .mark .openBracket ∧ b.kind = .mark .closeBracket then dimensions ts + 1 else 0
  | _ => 0

/-- What follows a list of type arguments, of which the first `depth` brackets are open. A list that
is longer than the cap is not recognised. -/
def afterAngle? (cap : Nat) (depth : Int) : List Token → Option (List Token)
  | [] => none
  | t :: ts =>
    if Angle.isInType t.kind then
      let d := depth + Angle.weight t.kind
      if d ≤ 0 then some ts
      else match cap with
        | 0 => none
        | room + 1 => afterAngle? room d ts
    else none

/-- What follows the list of type arguments at the start, if there is one. -/
def afterArguments? (cap : Nat) (ts : List Token) : Option (List Token) :=
  if kindOf ts = .mark .less then afterAngle? cap 0 ts else some ts

/-- What follows the rest of a type's name, after its first word. -/
def afterName? (cap : Nat) : Nat → List Token → Option (List Token)
  | 0, ts => some ts
  | n + 1, ts =>
    (afterArguments? cap ts).bind fun more =>
      if startsWith (.mark .dot) .identifier more then afterName? cap n (more.drop 2) else some more

/-- What follows the type at the start of a list. -/
def afterType? (cap : Nat) : List Token → Option (List Token)
  | [] => none
  | t :: ts =>
    let named :=
      if t.kind.isPrimitive then some ts
      else if t.kind = .identifier then afterName? cap (ts.length + 1) ts
      else none
    named.map fun more => more.drop (2 * dimensions more)

/-- Tokens that start a type. -/
def isTypeStart (k : Kind) : Bool := k = .identifier || k.isPrimitive

/-- True for a type, a name and an opening parenthesis. -/
def looksLikeMethod (cap : Nat) (ts : List Token) : Bool :=
  match afterType? cap ts with
  | some more => startsWith .identifier (.mark .openParen) more
  | none => false

/-- True for a type, a name, and what may follow the name of a variable. -/
def looksLikeVariable (cap : Nat) (ts : List Token) : Bool :=
  match afterType? cap ts with
  | some more =>
    startsWith .identifier (.mark .assign) more || startsWith .identifier (.mark .semicolon) more ||
      startsWith .identifier (.mark .comma) more ||
      startsWith .identifier (.mark .openBracket) more
  | none => false

/-- True for what may start a member: an annotation, a modifier, `void`, the name of a constructor,
or a type and a name. -/
def looksLikeMember (cap : Nat) (ts : List Token) : Bool :=
  match kindOf ts with
  | .mark .atSign | .keyword .void_ | .keyword (.modifier _) => true
  | _ =>
    startsWith .identifier (.mark .openParen) ts ||
      match afterType? cap ts with
      | some more => kindOf more = .identifier
      | none => false

/-- True for an annotation, as opposed to the declaration of one. -/
def looksAnnotated (ts : List Token) : Bool :=
  kindOf ts = .mark .atSign && kindOf (ts.drop 1) ≠ .keyword .interface_

/-- True for what may start a local variable with annotations or modifiers. `synchronized` before a
parenthesis starts a statement, and `default` labels a case. -/
def looksLikeModified (ts : List Token) : Bool :=
  match kindOf ts with
  | .mark .atSign => true
  | .keyword (.modifier .synchronized_) => kindOf (ts.drop 1) ≠ .mark .openParen
  | .keyword (.modifier .default_) => false
  | k => k.isModifier

/-- Words that start the declaration of a type. -/
def isTypeWord : Kind → Bool
  | .keyword .class_ | .keyword .interface_ | .keyword .enum_ => true
  | _ => false

end JavaTree.Parser
