import JavaTree.Parser.Declaration
import JavaTree.Token.Lexer

/-!
Whole source texts.

Reading a text always gives a unit. When the budget for findings is spent, reading stops, and the
unit holds what was complete by then: an `Outcome` keeps what was found next to the reason for
stopping.
-/

namespace JavaTree

namespace Parser

/-- What was found, and the finding that stopped the search, if one did. -/
structure Outcome (α : Type) where
  found : α
  stopped : Option Diagnostic

/-- The clause that names the package. -/
def packageClause : Parser PackageClause := do
  let start ← here
  skip 1
  let name ← qualifiedName
  require Mark.semicolon "';' after package name"
  return ⟨name, ← spanFrom start⟩

/-- An import. -/
def importClause : Parser Import := do
  let start ← here
  skip 1
  let isStatic ← accept (Keyword.modifier .static_)
  let name ← qualifiedName
  let isWildcard ← accept Mark.dot
  if isWildcard then
    require Mark.star "'*' after '.' in import"
  require Mark.semicolon "';' after import"
  return ⟨name, isStatic, isWildcard, ← spanFrom start⟩

/-- Leaves behind what is left of a faulty clause. -/
def skipClause : Parser (Option α) := do
  skipBy (statementRest 0)
  return none

/-- The package clause, if there is one. -/
def optionalPackage : Parser (Option PackageClause) := do
  if ← check Keyword.package_ then recover (some <$> packageClause) skipClause else return none

/-- Imports up to the first type. -/
def imports : Nat → Parser (Outcome (List Import))
  | 0 => return ⟨[], none⟩
  | n + 1 => do
    if ← check Keyword.import_ then
      match ← attempt (recover (some <$> importClause) skipClause) with
      | .error d => return ⟨[], some d⟩
      | .ok found =>
        let more ← imports n
        return { more with found := found.toList ++ more.found }
    else
      return ⟨[], none⟩

/-- One type at the top of a text, or nothing if it is left out. -/
def topLevelType : Parser (Option TypeDeclaration) := do
  let before ← steps
  recover typeDeclaration do
    let atStart := (← steps) = before
    skipBy (typeRest atStart 0)
    return none

/-- Types up to the end of the text, and the span of all that has been read. -/
def types (start : Location) (span : Span) : Nat → Parser (Outcome (List TypeDeclaration × Span))
  | 0 => return ⟨([], span), none⟩
  | n + 1 => do
    if ← atEnd then
      return ⟨([], span), none⟩
    else if ← accept Mark.semicolon then
      types start span n
    else
      match ← attempt topLevelType with
      | .error d => return ⟨([], span), some d⟩
      | .ok found =>
        let more ← types start (← spanFrom start) n
        return { more with found := (found.toList ++ more.found.1, more.found.2) }

/-- A whole text. -/
def unit : Parser (Outcome CompilationUnit) := do
  let start ← here
  let span := Span.single start
  match ← attempt optionalPackage with
  | .error d => return ⟨⟨none, [], [], span⟩, some d⟩
  | .ok package =>
    let is ← imports (← steps)
    match is.stopped with
    | some d => return ⟨⟨package, is.found, [], span⟩, some d⟩
    | none =>
      let ts ← types start span (← steps)
      return { ts with found := ⟨package, is.found, ts.found.1, ts.found.2⟩ }

/-- What a parser is given to read. -/
structure Input where
  tokens : List Token
  /-- The place where the text ends. -/
  stop : Location
  faults : List Fault

namespace Input

/-- A list of tokens, up to the first end of input in it. Without one, the text ends where its last
token stands. -/
def ofTokens (ts : List Token) : Input where
  tokens := ts.takeWhile (·.kind ≠ .endOfInput)
  stop := match ts.find? (·.kind = .endOfInput), ts.getLast? with
    | some t, _ => t.location
    | none, some t => t.location
    | none, none => .start
  faults := []

/-- The tokens and faults of a source text. -/
def ofSource (source : String) : Input :=
  { ofTokens (Lexer.recover source) with faults := Lexer.faults source }

end Input

end Parser

/-- What reading a source text gives: what it declares, the findings about it, and the journal. -/
structure Parsed where
  unit : CompilationUnit
  diagnostics : List Diagnostic
  journal : List Event

/-- How a source text is read. -/
structure ParseOptions where
  limits : Limits := {}
  budget : ErrorBudget := .standard

/-- Adds the finding that stopped reading, if one did. -/
def Parsed.ofOutcome (o : Parser.Outcome CompilationUnit) (s : Parser.State) : Parsed :=
  match o.stopped with
  | none => ⟨o.found, s.diagnostics, s.journal⟩
  | some d => ⟨o.found, s.diagnostics ++ [d], s.journal ++ [.aborted d]⟩

/-- Reads tokens. Faults of the text are noted first. -/
def Parser.Input.parse (input : Parser.Input) (options : ParseOptions) : Parsed :=
  let settings : Parser.Settings := ⟨options.limits, options.budget, input.faults, input.stop⟩
  let state : Parser.State := ⟨input.tokens, none, [], input.faults.map .deferred⟩
  match (Parser.unit.run settings).run state with
  | .ok outcome s => .ofOutcome outcome s
  | .error d s => .ofOutcome ⟨⟨none, [], [], .single input.stop⟩, some d⟩ s

/-- Reads a source text. -/
def CompilationUnit.parse (source : String) (options : ParseOptions) : Parsed :=
  (Parser.Input.ofSource source).parse options

end JavaTree
