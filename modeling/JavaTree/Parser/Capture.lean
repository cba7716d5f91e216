import JavaTree.Parser.Lookahead

/-!
How far the excerpt or the list of type arguments at the start of a list of tokens reaches.

An excerpt ends before a token that the rule names, before a bracket that closes something outside,
and, where a missing `;` is to be noticed, before a token that can only start something new. It
holds every bracket with its counterpart.
-/

namespace JavaTree.Parser

/-- Where an excerpt ends. -/
structure CaptureRule where
  /-- Tokens that end it. -/
  stops : List Kind
  /-- Whether it ends before tokens that cannot go on with an expression. -/
  guarded : Bool

/-- True when a token, given the one before and the one after it, cannot go on with an expression:
it starts a declaration, or it is the second of two operands in a row. -/
def isBoundary (previous : Option Kind) (k next : Kind) : Bool :=
  let startsDeclaration := match k with
    | .keyword .class_ => previous ≠ some (.mark .dot)
    | .keyword .void_ => next ≠ .mark .dot
    | .mark .atSign | .keyword .interface_ | .keyword .enum_ | .keyword .package_
    | .keyword .import_ => true
    | .keyword (.modifier m) => m ≠ .default_
    | _ => false
  let endsOperand := match previous with
    | some .identifier | some (.mark .closeBracket) => true
    | some p => p.isLiteral
    | none => false
  startsDeclaration || (isTypeStart k && endsOperand)

/-- True when an excerpt ends before a token outside of all its brackets. -/
def CaptureRule.endsBefore (rule : CaptureRule) (previous : Option Kind) (k next : Kind) : Bool :=
  rule.stops.contains k ||
    (match k with
      | .mark m => m.isCloser
      | _ => false) ||
    (rule.guarded && isBoundary previous k next)

/-- Why a capture ended. -/
inductive CaptureEnd where
  /-- All of it was found. -/
  | complete
  /-- The input ended inside brackets. -/
  | unclosed
  /-- A bracket closes another one than the innermost. -/
  | mismatched
  /-- An invalid token is in the way. -/
  | invalid
  /-- The cap was reached. -/
  | overLong
  deriving DecidableEq

/-- How many tokens an excerpt takes, and why it ends there. -/
def extent (rule : CaptureRule) (cap : Nat) (closers : List Mark) (previous : Option Kind) :
    List Token → Nat × CaptureEnd
  | [] => (0, if closers.isEmpty then .complete else .unclosed)
  | t :: ts =>
    if t.kind = .invalid then (0, .invalid)
    else if closers.isEmpty && rule.endsBefore previous t.kind (kindOf ts) then (0, .complete)
    else match Excerpt.closersAfter closers t.kind with
      | none => (0, .mismatched)
      | some inner =>
        match cap with
        | 0 => (0, .overLong)
        | room + 1 =>
          let (n, e) := extent rule room inner (some t.kind) ts
          (n + 1, e)

/-- Tokens that no list of type arguments holds. -/
def endsAngle : Kind → Bool
  | .mark .semicolon | .mark .openBrace | .mark .closeBrace | .mark .openParen | .mark .closeParen
  | .mark .assign | .invalid | .endOfInput => true
  | _ => false

/-- How many tokens a list of type arguments takes, and why it ends there. -/
def angleExtent (cap : Nat) (depth : Int) : List Token → Nat × CaptureEnd
  | [] => (0, .unclosed)
  | t :: ts =>
    if endsAngle t.kind then (0, .unclosed)
    else match cap with
      | 0 => (0, .overLong)
      | room + 1 =>
        let d := depth + Angle.weight t.kind
        if d ≤ 0 then (1, .complete)
        else
          let (n, e) := angleExtent room d ts
          (n + 1, e)

/-- The text of a list of type arguments: words are kept apart, `,` has a space after it and `&` on
either side. -/
def typeText (previous : Option Kind) : List Token → String
  | [] => ""
  | t :: ts =>
    let apart : Bool := match previous with
      | some p => (t.kind.isWord && (p.isWord || p = .mark .question)) || t.kind = .mark .ampersand
      | none => false
    let trailing : Bool := t.kind = .mark .comma || t.kind = .mark .ampersand
    (if apart then " " else "") ++ t.lexeme ++ (if trailing then " " else "") ++
      typeText (some t.kind) ts

end JavaTree.Parser
