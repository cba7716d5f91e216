import JavaTree.Parser.Parts

/-!
Statements and blocks.

Statements hold statements. Each statement form is given here in terms of the readers for one level
further in, a `Deeper`; `statement`, `block` and `caseBody` then close the circle by recursion on
the number of levels that are left. With none left, they stop before the first token, so that
recovery passes over the whole group.
-/

namespace JavaTree.Parser

/-- The readers for one level further in. -/
structure Deeper where
  statement : Parser Statement
  block : Parser Block
  caseBody : Parser (List Statement)

/-! ### Constructs that are left out -/

/-- Passes over a bracket group if one of the given sort is next. -/
def skipGroup (opener : Mark) : Parser Unit := do
  if ← check opener then skipBy (group 0)

/-- Passes over `catch` clauses. -/
def skipCatches : Nat → Parser Unit
  | 0 => return ()
  | n + 1 => do
    if ← accept Keyword.catch_ then
      skipGroup .openParen
      skipGroup .openBrace
      skipCatches n

/-- Leaves out a `try` with resources, its clauses included. -/
def skipTryWithResources : Parser Unit := do
  let l ← here
  skip 1
  skipBy (group 0)
  skipGroup .openBrace
  skipCatches (← steps)
  if ← accept Keyword.finally_ then skipGroup .openBrace
  report (.unsupported "try-with-resources statement" l)

/-! ### Statements in a row -/

/-- One statement of a block, where declarations with modifiers and constructs that are left out
may stand, too. -/
def blockStatement (statement : Parser Statement) : Parser (List Statement) := do
  let ahead ← rest
  if isTypeWord (kindOf ahead) then
    skipType "local type declaration"
    return []
  else if startsWith Keyword.try_ Mark.openParen ahead then
    skipTryWithResources
    return []
  else if looksLikeModified ahead then
    let start ← here
    let q ← allQualifiers
    if isTypeWord (← kind) then
      skipType "local type declaration"
      return []
    else
      return (← fields start q).map .field
  else
    return [← statement]

/-- True where a row of statements ends. -/
def endsStatements (inSwitch : Bool) : Kind → Bool
  | .endOfInput | .mark .closeBrace => true
  | .keyword .case_ | .keyword (.modifier .default_) => inSwitch
  | _ => false

/-- Statements up to the end of the block, or of the case. Empty statements count for the cap, but
leave nothing. -/
def statements (statement : Parser Statement) (inSwitch : Bool) : Nat → Parser (List Statement)
  | 0 => do
    if endsStatements inSwitch (← kind) then
      return []
    else
      report (.limitExceeded "statements in a block" (← read).limits.blockStatements (← here))
      skipBy (blockRest 0)
      return []
  | cap + 1 => do
    if endsStatements inSwitch (← kind) then
      return []
    else if ← accept Mark.semicolon then
      statements statement inSwitch cap
    else
      let found ← recover (blockStatement statement) do
        skipBy (statementRest 0)
        return []
      return found ++ (← statements statement inSwitch cap)

/-- Statements up to the cap of the settings. -/
def allStatements (statement : Parser Statement) (inSwitch : Bool) : Parser (List Statement) := do
  statements statement inSwitch (← read).limits.blockStatements

/-- Statements between braces. A missing closing brace is reported. -/
def braced (statement : Parser Statement) : Parser Block := do
  let start ← here
  require Mark.openBrace "'\x7b'"
  let inner ← allStatements statement false
  if !(← accept Mark.closeBrace) then
    report (← unexpected "'\x7d' to close block")
  return ⟨inner, ← spanFrom start⟩

/-! ### Single statements -/

/-- A block without statements that reaches from a place to the last token. -/
def emptyBlock (start : Location) : Parser Statement := do
  return .block ⟨[], ← spanFrom start⟩

/-- `return`, perhaps with a value. -/
def returnStatement (start : Location) : Parser Statement := do
  skip 1
  let value ← if ← check Mark.semicolon then pure none
    else pure (some (← expression [Mark.semicolon] "return value"))
  require Mark.semicolon "';' after return"
  return .return_ value (← spanFrom start)

/-- `if`, perhaps with `else`. -/
def ifStatement (deeper : Deeper) (start : Location) : Parser Statement := do
  skip 1
  let condition ← parenthesized "condition"
  let thenBranch ← deeper.statement
  let elseBranch ← if ← accept Keyword.else_ then pure (some (← deeper.statement)) else pure none
  return .if_ condition thenBranch elseBranch (← spanFrom start)

/-- `for` with either sort of header. -/
def forStatement (deeper : Deeper) (start : Location) : Parser Statement := do
  skip 1
  let header ← parenthesized "for header"
  let body ← deeper.statement
  return .for_ header body (← spanFrom start)

/-- `while`. -/
def whileStatement (deeper : Deeper) (start : Location) : Parser Statement := do
  skip 1
  let condition ← parenthesized "condition"
  let body ← deeper.statement
  return .while_ condition body (← spanFrom start)

/-- `do` and `while`. -/
def doStatement (deeper : Deeper) (start : Location) : Parser Statement := do
  skip 1
  let body ← deeper.statement
  require Keyword.while_ "'while' after do-body"
  let condition ← parenthesized "condition"
  require Mark.semicolon "';' after do-while condition"
  return .doWhile body condition (← spanFrom start)

/-- `catch` clauses. -/
def catchClauses (deeper : Deeper) : Nat → Parser (List CatchClause)
  | 0 => return []
  | n + 1 => do
    let start ← here
    if ← accept Keyword.catch_ then
      let parameter ← parenthesized "catch parameter"
      let body ← deeper.block
      let clause := ⟨parameter, body, ← spanFrom start⟩
      return clause :: (← catchClauses deeper n)
    else
      return []

/-- `try` without resources. One without `catch` and `finally` is noted, and kept. -/
def tryStatement (deeper : Deeper) (start : Location) : Parser Statement := do
  skip 1
  let body ← deeper.block
  let catches ← catchClauses deeper (← steps)
  let finallyBlock ← if ← accept Keyword.finally_ then pure (some (← deeper.block)) else pure none
  if catches.isEmpty && finallyBlock.isNone then
    note (.bareTry start)
  return .try_ body catches finallyBlock (← spanFrom start)

/-- Labels of a case, up to the statements behind them or to an arrow. -/
def caseLabels : Nat → Parser (List CaseLabel)
  | 0 => return []
  | n + 1 => do
    if (← check Keyword.case_) || (← check (Keyword.modifier .default_)) then
      let label ← if ← accept (Keyword.modifier .default_) then pure .default
        else do
          skip 1
          pure (.value (← excerpt ⟨[Mark.colon, Mark.arrow], false⟩ "case label"))
      if ← check Mark.arrow then
        return [label]
      else
        require Mark.colon "':' after case label"
        return label :: (← caseLabels n)
    else
      return []

/-- At least one label. -/
def someCaseLabels : Parser (List CaseLabel) := do
  let labels ← caseLabels (← steps)
  if labels.isEmpty then fail "'case' or 'default'" else return labels

/-- The cases of a `switch`. One with arrows is left out from the first arrow on. -/
def switchCases (deeper : Deeper) : Nat → Parser (List SwitchCase)
  | 0 => return []
  | n + 1 => do
    if endsStatements false (← kind) then
      return []
    else
      let start ← here
      let labels ← recover (some <$> someCaseLabels) do
        skipBy (caseRest 0)
        return none
      match labels with
      | none => switchCases deeper n
      | some labels =>
        if ← check Mark.arrow then
          report (.unsupported "switch rule ('->')" (← here))
          skipBy (blockRest 0)
          return []
        else
          let inner ← recover (some <$> deeper.caseBody) do
            skipBy (blockRest 0)
            return none
          match inner with
          | none => return []
          | some inner =>
            let case := ⟨labels, inner, ← spanFrom start⟩
            return case :: (← switchCases deeper n)

/-- `switch`. A missing closing brace is reported. -/
def switchStatement (deeper : Deeper) (start : Location) : Parser Statement := do
  skip 1
  let selector ← parenthesized "switch selector"
  require Mark.openBrace "'\x7b' to open switch body"
  let cases ← switchCases deeper (← steps)
  if !(← accept Mark.closeBrace) then
    report (← unexpected "'\x7d' to close switch body")
  return .switch selector cases (← spanFrom start)

/-- `throw`. -/
def throwStatement (start : Location) : Parser Statement := do
  skip 1
  let thrown ← expression [Mark.semicolon] "thrown expression"
  require Mark.semicolon "';' after throw"
  return .throw_ thrown (← spanFrom start)

/-- `break` or `continue`, perhaps with a label. -/
def jumpStatement (make : Option String → Span → Statement) (start : Location) :
    Parser Statement := do
  skip 1
  let label ← if ← check .identifier then pure (some (← identifier)) else pure none
  require Mark.semicolon "';' after break or continue"
  return make label (← spanFrom start)

/-- `synchronized` with a lock. -/
def synchronizedStatement (deeper : Deeper) (start : Location) : Parser Statement := do
  skip 1
  let lock ← parenthesized "lock expression"
  let body ← deeper.block
  return .synchronized lock body (← spanFrom start)

/-- `assert`, perhaps with a message. -/
def assertStatement (start : Location) : Parser Statement := do
  skip 1
  let condition ← expression [Mark.colon, Mark.semicolon] "assertion"
  let message ← if ← accept Mark.colon then
      pure (some (← expression [Mark.semicolon] "assertion message"))
    else pure none
  require Mark.semicolon "';' after assert"
  return .assert condition message (← spanFrom start)

/-- A label and the statement behind it. -/
def labeledStatement (deeper : Deeper) (start : Location) : Parser Statement := do
  let label ← identifier
  skip 1
  let body ← deeper.statement
  return .labeled label body (← spanFrom start)

/-- A declaration of variables, or an expression. -/
def plainStatement (start : Location) : Parser Statement := do
  if looksLikeVariable (← read).limits.excerptTokens (← rest) then
    let type ← typeUse
    let declared ← declarators
    return .declaration type declared (← spanFrom start)
  else
    let e ← expression [Mark.semicolon] "expression"
    require Mark.semicolon "';' after expression"
    return .expression e (← spanFrom start)

/-- One statement, by its first two tokens. -/
def anyStatement (deeper : Deeper) : Parser Statement := do
  let start ← here
  match ← kind, ← secondKind with
  | .mark .openBrace, _ => return .block (← deeper.block)
  | .mark .semicolon, _ =>
    skip 1
    emptyBlock start
  | .keyword .return_, _ => returnStatement start
  | .keyword .if_, _ => ifStatement deeper start
  | .keyword .for_, _ => forStatement deeper start
  | .keyword .while_, _ => whileStatement deeper start
  | .keyword .do_, _ => doStatement deeper start
  | .keyword .try_, .mark .openParen =>
    skipTryWithResources
    emptyBlock start
  | .keyword .try_, _ => tryStatement deeper start
  | .keyword .switch_, _ => switchStatement deeper start
  | .keyword .throw_, _ => throwStatement start
  | .keyword .break_, _ => jumpStatement .break_ start
  | .keyword .continue_, _ => jumpStatement .continue_ start
  | .keyword (.modifier .synchronized_), .mark .openParen => synchronizedStatement deeper start
  | .keyword .assert_, _ => assertStatement start
  | .identifier, .mark .colon => labeledStatement deeper start
  | .keyword .class_, _ | .keyword .interface_, _ | .keyword .enum_, _ =>
    throw (.unsupported "local type declaration" start)
  | .keyword .else_, _ | .keyword .catch_, _ | .keyword .finally_, _ | .keyword .case_, _
  | .keyword (.modifier .default_), _ => fail "statement"
  | _, _ => plainStatement start

/-! ### Levels -/

/-- Stops because no level is left. -/
def tooDeep : Parser α := do
  throw (.limitExceeded "levels of statement nesting" (← read).limits.nesting (← here))

mutual

/-- A statement, with a number of levels left. -/
def statement : Nat → Parser Statement
  | 0 => tooDeep
  | levels + 1 => anyStatement ⟨statement levels, block levels, caseBody levels⟩

/-- A block, with a number of levels left. -/
def block : Nat → Parser Block
  | 0 => tooDeep
  | levels + 1 => braced (statement levels)

/-- The statements of a case, with a number of levels left. -/
def caseBody : Nat → Parser (List Statement)
  | 0 => tooDeep
  | levels + 1 => allStatements (statement levels) true

end

/-- The body of a member. -/
def body : Parser Block := do block (← read).limits.nesting

end JavaTree.Parser
