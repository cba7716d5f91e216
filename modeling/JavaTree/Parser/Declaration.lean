import JavaTree.Parser.Statement

/-!
Members and types.
-/

namespace JavaTree.Parser

/-! ### Members -/

/-- One parameter. -/
def parameter : Parser Parameter := do
  let start ← here
  let q ← allQualifiers
  let type ← typeUse
  let isVariadic ← accept Mark.ellipsis
  let name ← identifier
  let n ← brackets
  return {
    annotations := q.annotations
    isFinal := q.modifiers.contains .final_
    type := { type with dimensions := type.dimensions + n }
    name
    isVariadic
    span := ← spanFrom start }

/-- Parameters with commas between them. -/
def parameterList : Nat → Parser (List Parameter)
  | 0 => return []
  | n + 1 => do
    let p ← parameter
    if ← accept Mark.comma then
      return p :: (← parameterList n)
    else
      return [p]

/-- Parameters between parentheses. -/
def parameters : Parser (List Parameter) := do
  require Mark.openParen "'(' before parameters"
  let found ← if ← check Mark.closeParen then pure [] else parameterList (← steps)
  require Mark.closeParen "')' after parameters"
  return found

/-- The return type of a method. -/
def returnType : Parser TypeUse := do
  let start ← here
  if ← accept Keyword.void_ then return .void (.single start) else typeUse

/-- A method behind its qualifiers and type parameters. -/
def method (start : Location) (q : Qualifiers) (typeParameters : Option String) :
    Parser Method := do
  let type ← returnType
  let name ← identifier
  let ps ← parameters
  let throws ← typesAfter .throws_
  let inner ← if ← check Mark.openBrace then pure (some (← body))
    else do
      require Mark.semicolon "'\x7b' or ';' after method signature"
      pure none
  return {
    modifiers := q.modifiers
    annotations := q.annotations
    typeParameters
    returnType := type
    name
    parameters := ps
    throws
    body := inner
    span := ← spanFrom start }

/-- A constructor behind its qualifiers and type parameters. One with another name than its type is
noted, and kept. -/
def constructor (start : Location) (typeName : String) (q : Qualifiers)
    (typeParameters : Option String) : Parser Constructor := do
  let l ← here
  let name ← identifier
  if name ≠ typeName then
    note (.misnamedConstructor name l typeName)
  let ps ← parameters
  let throws ← typesAfter .throws_
  let inner ← body
  return {
    modifiers := q.modifiers
    annotations := q.annotations
    typeParameters
    name
    parameters := ps
    throws
    body := inner
    span := ← spanFrom start }

/-- A member that starts with a type, a name or type parameters. -/
def plainMember (start : Location) (typeName : String) (q : Qualifiers) : Parser (List Member) := do
  let params ← typeParameters
  let ahead ← rest
  if startsWith .identifier Mark.openParen ahead then
    return [.constructor (← constructor start typeName q params)]
  else if kindOf ahead = Keyword.void_ || looksLikeMethod (← read).limits.excerptTokens ahead then
    return [.method (← method start q params)]
  else if isTypeStart (kindOf ahead) then
    return (← fields start q).map .field
  else
    fail "member declaration"

/-- What one declaration in a type contributes: one member, several fields, or nothing if it is
left out. -/
def member (typeName : String) : Parser (List Member) := do
  let start ← here
  let q ← allQualifiers
  let ahead ← rest
  if isTypeWord (kindOf ahead) then
    skipType "nested type declaration"
    return []
  else if startsWith Mark.atSign Keyword.interface_ ahead then
    skipType "nested annotation type declaration"
    return []
  else if kindOf ahead = Mark.openBrace then
    let inner ← body
    return [.initializer ⟨q.modifiers.contains .static_, inner, ← spanFrom start⟩]
  else
    plainMember start typeName q

/-- Members up to the end of the type. Lone semicolons count for the cap, but leave nothing. -/
def members (typeName : String) : Nat → Parser (List Member)
  | 0 => do
    if endsStatements false (← kind) then
      return []
    else
      report (.limitExceeded "members in a type body" (← read).limits.typeMembers (← here))
      skipBy (blockRest 0)
      return []
  | cap + 1 => do
    if endsStatements false (← kind) then
      return []
    else if ← accept Mark.semicolon then
      members typeName cap
    else
      let before ← steps
      let found ← recover (member typeName) do
        let atStart := (← steps) = before
        skipBy (memberRest (← read).limits.excerptTokens atStart 0)
        return []
      return found ++ (← members typeName cap)

/-- The members of a type and its closing brace, which is reported if it is missing. -/
def memberSection (typeName : String) : Parser (List Member) := do
  let found ← members typeName (← read).limits.typeMembers
  if !(← accept Mark.closeBrace) then
    report (← unexpected "'\x7d' to close type body")
  return found

/-! ### Types -/

/-- The rest of a class behind its first word. -/
def classRest (start : Location) (q : Qualifiers) : Parser TypeDeclaration := do
  skip 1
  let name ← identifier
  let params ← typeParameters
  let superclass ← if ← accept Keyword.extends_ then pure (some (← typeUse)) else pure none
  let interfaces ← typesAfter .implements_
  require Mark.openBrace "'\x7b' after class declaration"
  let found ← memberSection name
  return ⟨q.modifiers, q.annotations, name, .class_ params superclass interfaces, found,
    ← spanFrom start⟩

/-- The rest of an interface behind its first word. -/
def interfaceRest (start : Location) (q : Qualifiers) : Parser TypeDeclaration := do
  skip 1
  let name ← identifier
  let params ← typeParameters
  let parents ← typesAfter .extends_
  require Mark.openBrace "'\x7b' after interface declaration"
  let found ← memberSection name
  return ⟨q.modifiers, q.annotations, name, .interface_ params parents, found, ← spanFrom start⟩

/-- A constant of an enum. A body behind it is left out. -/
def enumConstant : Parser EnumConstant := do
  let start ← here
  let found ← annotations (← steps)
  let name ← identifier
  let args ← optionalArguments "enum constant arguments"
  if ← check Mark.openBrace then
    let l ← here
    skipBy (group 0)
    report (.unsupported "enum constant body" l)
  return ⟨found, name, args, ← spanFrom start⟩

/-- Constants with commas between them. -/
def enumConstants : Nat → Parser (List EnumConstant)
  | 0 => return []
  | n + 1 => do
    if endsStatements false (← kind) || (← check Mark.semicolon) then
      return []
    else
      let before ← steps
      let found ← recover (some <$> enumConstant) do
        let atStart := (← steps) = before
        skipBy (constantRest atStart 0)
        return none
      if ← accept Mark.comma then
        return found.toList ++ (← enumConstants n)
      else
        return found.toList

/-- What follows the constants of an enum: its members behind a semicolon, or its closing brace. -/
def enumMembers (typeName : String) : Parser (List Member) := do
  if ← accept Mark.semicolon then
    memberSection typeName
  else
    if !(← accept Mark.closeBrace) then
      report (← unexpected "',', ';' or '\x7d' after enum constants")
      skipBy (memberRest (← read).limits.excerptTokens true 0)
      let _ ← accept Mark.closeBrace
    return []

/-- The rest of an enum behind its first word. -/
def enumRest (start : Location) (q : Qualifiers) : Parser TypeDeclaration := do
  skip 1
  let name ← identifier
  let interfaces ← typesAfter .implements_
  require Mark.openBrace "'\x7b' after enum declaration"
  let constants ← enumConstants (← steps)
  let found ← enumMembers name
  return ⟨q.modifiers, q.annotations, name, .enum_ interfaces constants, found, ← spanFrom start⟩

/-- The declaration of a type, or nothing if it is left out. -/
def typeDeclaration : Parser (Option TypeDeclaration) := do
  let start ← here
  let q ← allQualifiers
  match ← kind, ← secondKind with
  | .keyword .class_, _ => return some (← classRest start q)
  | .keyword .interface_, _ => return some (← interfaceRest start q)
  | .keyword .enum_, _ => return some (← enumRest start q)
  | .mark .atSign, .keyword .interface_ =>
    skipType "annotation type declaration"
    return none
  | _, _ => fail "type declaration"

end JavaTree.Parser
