import JavaTree.Parser.Lookahead

/-!
How many tokens to pass over after a fault, or to leave out a construct.

Each rule counts tokens at the start of a list and follows brackets by their depth from there. The rules
for faults stop at a brace that closes the block around, or behind it in a type at the top. `typeBody`
does not: on its way to the body of a type that is left out it passes over any closing brace.

    after a fault in       goes on
    a statement            behind the next `;`, behind a brace group, or before `}`
    a case of a switch     before the next `case`, `default` or `}`
    a member               as for a statement, or before what looks like a member
    an enum constant       before the next `,`, `;` or `}`
    a type                 behind a brace group, or before what looks like a type
-/

namespace JavaTree.Parser

/-- Brackets that open. -/
def isOpener : Kind → Bool
  | .mark m => m.closer?.isSome
  | _ => false

/-- Brackets that close. -/
def isCloser : Kind → Bool
  | .mark m => m.isCloser
  | _ => false

/-- The bracket group at the start, or a single token. -/
def group (depth : Nat) : List Token → Nat
  | [] => 0
  | t :: ts =>
    let d := if isOpener t.kind then depth + 1 else if isCloser t.kind then depth - 1 else depth
    if d = 0 then 1 else group d ts + 1

/-- What lies before the brace that closes the block around. -/
def blockRest (depth : Nat) : List Token → Nat
  | [] => 0
  | t :: ts =>
    if t.kind = .mark .closeBrace then
      if depth = 0 then 0 else blockRest (depth - 1) ts + 1
    else if t.kind = .mark .openBrace then blockRest (depth + 1) ts + 1
    else blockRest depth ts + 1

/-- The declaration of a type, header and body. -/
def typeBody (ts : List Token) : Nat :=
  let header := (ts.takeWhile fun t =>
    t.kind ≠ .mark .openBrace && t.kind ≠ .mark .semicolon).length
  let body := ts.drop header
  header + if kindOf body = .mark .openBrace then group 0 body else min 1 body.length

/-- What is left of a faulty statement. -/
def statementRest (depth : Nat) : List Token → Nat
  | [] => 0
  | t :: ts =>
    if t.kind = .mark .semicolon ∧ depth = 0 then 1
    else if t.kind = .mark .closeBrace then
      if depth = 0 then 0
      else if depth = 1 then 1
      else statementRest (depth - 1) ts + 1
    else if isOpener t.kind then statementRest (depth + 1) ts + 1
    else if isCloser t.kind then statementRest (depth - 1) ts + 1
    else statementRest depth ts + 1

/-- What is left of a faulty case of a `switch`. -/
def caseRest (depth : Nat) : List Token → Nat
  | [] => 0
  | t :: ts =>
    if depth = 0 ∧ (t.kind = .keyword .case_ ∨ t.kind = .keyword (.modifier .default_) ∨
        t.kind = .mark .closeBrace) then 0
    else if isOpener t.kind then caseRest (depth + 1) ts + 1
    else if isCloser t.kind then caseRest (depth - 1) ts + 1
    else caseRest depth ts + 1

/-- What is left of a faulty member. A member that failed at its first token is left behind even if
that token may start one. -/
def memberRest (cap : Nat) (atStart : Bool) (depth : Nat) : List Token → Nat
  | [] => 0
  | t :: ts =>
    if t.kind = .mark .semicolon ∧ depth = 0 then 1
    else if t.kind = .mark .closeBrace ∧ depth = 0 then 0
    else if depth = 0 ∧ !atStart ∧ looksLikeMember cap (t :: ts) then 0
    else if isOpener t.kind then memberRest cap false (depth + 1) ts + 1
    else if t.kind = .mark .closeBrace then
      if depth = 1 then 1 else memberRest cap false (depth - 1) ts + 1
    else if isCloser t.kind then memberRest cap false (depth - 1) ts + 1
    else memberRest cap false depth ts + 1

/-- What is left of a faulty enum constant. A constant that failed at a comma leaves it behind. -/
def constantRest (atStart : Bool) (depth : Nat) : List Token → Nat
  | [] => 0
  | t :: ts =>
    if depth = 0 ∧ t.kind = .mark .comma then (if atStart then 1 else 0)
    else if depth = 0 ∧ (t.kind = .mark .semicolon ∨ t.kind = .mark .closeBrace) then 0
    else if isOpener t.kind then constantRest false (depth + 1) ts + 1
    else if isCloser t.kind then constantRest false (depth - 1) ts + 1
    else constantRest false depth ts + 1

/-- Tokens that may start something at the top of a source text. -/
def isTopLevelStart : Kind → Bool
  | .keyword .package_ | .keyword .import_ | .keyword .class_ | .keyword .interface_
  | .keyword .enum_ | .keyword (.modifier _) | .mark .atSign => true
  | _ => false

/-- What is left of a faulty type. -/
def typeRest (atStart : Bool) (depth : Nat) : List Token → Nat
  | [] => 0
  | t :: ts =>
    if depth = 0 ∧ !atStart ∧ isTopLevelStart t.kind then 0
    else if isOpener t.kind then typeRest false (depth + 1) ts + 1
    else if t.kind = .mark .closeBrace ∧ depth ≤ 1 then 1
    else if isCloser t.kind then typeRest false (depth - 1) ts + 1
    else typeRest false depth ts + 1

end JavaTree.Parser
