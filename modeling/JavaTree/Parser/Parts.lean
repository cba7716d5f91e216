import JavaTree.Parser.Capture
import JavaTree.Parser.Recovery

/-!
Names, types, annotations, excerpts and variables: the parts that statements and members share.
-/

namespace JavaTree.Parser

/-- A name without dots. -/
def identifier : Parser String := do
  let t ← peek
  if t.kind = .identifier then
    skip 1
    return t.lexeme
  else
    fail "identifier"

/-- A name with dots. -/
def qualifiedName : Parser String := do
  let first ← identifier
  let further := furtherNames (← rest)
  skip (2 * further.length)
  return ".".intercalate (first :: further)

/-- An excerpt that is not empty. -/
def excerpt (rule : CaptureRule) (what : String) : Parser Excerpt := do
  let cap := (← read).limits.excerptTokens
  let ahead ← rest
  let (n, ending) := extent rule cap [] none ahead
  skip n
  match ending with
  | .complete => if n = 0 then fail what else return ⟨ahead.take n⟩
  | .unclosed => fail ("closing bracket in " ++ what)
  | .mismatched => fail ("matching bracket in " ++ what)
  | .invalid => fail what
  | .overLong => throw (.limitExceeded ("tokens in " ++ what) cap (← here))

/-- An expression up to one of the given tokens. -/
def expression (stops : List Kind) (what : String) : Parser Excerpt := excerpt ⟨stops, true⟩ what

/-- What stands between parentheses. -/
def parenthesized (what : String) : Parser Excerpt := do
  require Mark.openParen ("'(' before " ++ what)
  let inner ← excerpt ⟨[Mark.closeParen], false⟩ what
  require Mark.closeParen ("')' after " ++ what)
  return inner

/-- What stands between parentheses, perhaps nothing. -/
def arguments (what : String) : Parser Excerpt := do
  require Mark.openParen ("'(' before " ++ what)
  let inner ← if ← check Mark.closeParen then pure ⟨[]⟩
    else excerpt ⟨[Mark.closeParen], false⟩ what
  require Mark.closeParen ("')' after " ++ what)
  return inner

/-- What stands between parentheses, if there are parentheses. -/
def optionalArguments (what : String) : Parser (Option Excerpt) := do
  if ← check Mark.openParen then return some (← arguments what) else return none

/-- A list of type arguments or type parameters, as text. -/
def angleText : Parser String := do
  let cap := (← read).limits.excerptTokens
  let ahead ← rest
  let (n, ending) := angleExtent cap 0 ahead
  skip n
  match ending with
  | .complete => return typeText none (ahead.take n)
  | .overLong => throw (.limitExceeded "tokens in a generic argument list" cap (← here))
  | _ => fail "'>' to close generic argument list"

/-- A list of type parameters, if there is one. -/
def typeParameters : Parser (Option String) := do
  if ← check Mark.less then return some (← angleText) else return none

/-- The rest of a type's name, after what is known of it. -/
def typeName (known : String) : Nat → Parser String
  | 0 => return known
  | n + 1 => do
    let named ← if ← check Mark.less then pure (known ++ (← angleText)) else pure known
    if startsWith Mark.dot .identifier (← rest) then
      skip 1
      typeName (named ++ "." ++ (← identifier)) n
    else
      return named

/-- Pairs of brackets behind a type or a name. -/
def brackets : Parser Nat := do
  let n := dimensions (← rest)
  skip (2 * n)
  return n

/-- The use of a type. -/
def typeUse : Parser TypeUse := do
  let start ← here
  let first ← peek
  let name ← if first.kind.isPrimitive then do
      skip 1
      pure first.lexeme
    else if first.kind = .identifier then do
      typeName (← identifier) (← steps)
    else
      fail "type"
  let n ← brackets
  return ⟨name, n, ← spanFrom start⟩

/-- Types behind commas. -/
def moreTypes : Nat → Parser (List TypeUse)
  | 0 => return []
  | n + 1 => do
    if ← accept Mark.comma then
      let t ← typeUse
      return t :: (← moreTypes n)
    else
      return []

/-- Types with commas between them. -/
def typeList : Parser (List TypeUse) := do
  let first ← typeUse
  return first :: (← moreTypes (← steps))

/-- Types with commas between them behind a keyword, none without it. -/
def typesAfter (k : Keyword) : Parser (List TypeUse) := do
  if ← accept k then typeList else return []

/-- An annotation. -/
def annotationUse : Parser AnnotationUse := do
  let start ← here
  require Mark.atSign "'@'"
  let name ← qualifiedName
  let args ← optionalArguments "annotation arguments"
  return ⟨name, args, ← spanFrom start⟩

/-- Annotations in a row. -/
def annotations : Nat → Parser (List AnnotationUse)
  | 0 => return []
  | n + 1 => do
    if looksAnnotated (← rest) then
      let a ← annotationUse
      return a :: (← annotations n)
    else
      return []

/-- What stands before a declaration. -/
structure Qualifiers where
  annotations : List AnnotationUse
  modifiers : List Modifier

/-- Annotations and modifiers in any order. A modifier that is written again counts once. -/
def qualifiers (found : Qualifiers) : Nat → Parser Qualifiers
  | 0 => return found
  | n + 1 => do
    if looksAnnotated (← rest) then
      let a ← annotationUse
      qualifiers { found with annotations := found.annotations ++ [a] } n
    else
      match (← kind).modifier? with
      | none => return found
      | some m =>
        if m = .synchronized_ && (← secondKind) = Mark.openParen then
          return found
        else
          skip 1
          let modifiers := if m ∈ found.modifiers then found.modifiers else found.modifiers ++ [m]
          qualifiers { found with modifiers } n

/-- Annotations and modifiers before a declaration. -/
def allQualifiers : Parser Qualifiers := do qualifiers ⟨[], []⟩ (← steps)

/-- One variable, with its initializer. -/
def declarator : Parser Declarator := do
  let start ← here
  let name ← identifier
  let n ← brackets
  let initializer ← if ← accept Mark.assign then
      pure (some (← expression [Mark.comma, Mark.semicolon] "initializer"))
    else pure none
  return ⟨name, n, initializer, ← spanFrom start⟩

/-- Variables with commas between them. -/
def declaratorList : Nat → Parser (List Declarator)
  | 0 => return []
  | n + 1 => do
    let d ← declarator
    if ← accept Mark.comma then
      return d :: (← declaratorList n)
    else
      return [d]

/-- Variables up to the end of their declaration. -/
def declarators : Parser (List Declarator) := do
  let declared ← declaratorList (← steps)
  require Mark.semicolon "';' after variable declaration"
  return declared

/-- The variables of one declaration, each as a field with the same span. -/
def fields (start : Location) (q : Qualifiers) : Parser (List Field) := do
  let type ← typeUse
  let declared ← declarators
  let span ← spanFrom start
  return declared.map fun v =>
    { modifiers := q.modifiers
      annotations := q.annotations
      type := { type with dimensions := type.dimensions + v.dimensions }
      name := v.name
      initializer := v.initializer
      span }

/-- Leaves out the declaration of a type. -/
def skipType (construct : String) : Parser Unit := do
  let l ← here
  skipBy typeBody
  report (.unsupported construct l)

end JavaTree.Parser
