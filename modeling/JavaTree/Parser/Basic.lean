import JavaTree.Event
import JavaTree.Syntax

/-!
The parser as a state machine over a list of tokens.

A parser reads from the tokens that are left, and ends with a result or with the finding that
stopped it. It keeps the tokens it has passed over in either case, so that recovery goes on from the
place of the fault. All state changes are made by three steps: `skip` passes over tokens, `note`
writes to the journal, and `report` records a finding.
-/

namespace JavaTree

/-- Caps on what is read. What lies beyond a cap is reported and passed over. -/
structure Limits where
  /-- Statements in one block or one case of a `switch`. -/
  blockStatements : Nat := 100000
  /-- Tokens in one excerpt or one list of type arguments. -/
  excerptTokens : Nat := 200000
  /-- Members in one type. -/
  typeMembers : Nat := 100000
  /-- Blocks and statements inside each other. -/
  nesting : Nat := 48
  deriving DecidableEq

namespace Parser

/-- What stays the same while a text is read. -/
structure Settings where
  limits : Limits
  budget : ErrorBudget
  /-- The faults of the text, for the reports of invalid tokens. -/
  faults : List Fault
  /-- The place where the text ends. -/
  stop : Location

/-- How far reading has got. -/
structure State where
  /-- The tokens that are left. -/
  rest : List Token
  /-- The place of the last token passed over. -/
  last : Option Location
  /-- The findings so far. -/
  diagnostics : List Diagnostic
  /-- The journal so far. -/
  journal : List Event

/-- The kind of the first token of a list, or the end of the input. -/
def kindOf : List Token → Kind
  | t :: _ => t.kind
  | [] => .endOfInput

end Parser

/-- A reader of tokens that may stop with a finding. -/
abbrev Parser := ReaderT Parser.Settings (EStateM Diagnostic Parser.State)

namespace Parser

/-! ### Looking -/

/-- The next token; after the last one, the end of the input. -/
def peek : Parser Token := do
  match (← get).rest with
  | t :: _ => return t
  | [] => return .endAt (← read).stop

/-- The tokens that are left. -/
def rest : Parser (List Token) := return (← get).rest

/-- How many steps a loop needs in which every step but the last passes over a token. -/
def steps : Parser Nat := return (← get).rest.length + 1

/-- The kind of the next token. -/
def kind : Parser Kind := return kindOf (← get).rest

/-- The kind of the token after the next one. -/
def secondKind : Parser Kind := return kindOf ((← get).rest.drop 1)

/-- The place of the next token. -/
def here : Parser Location := return (← peek).location

/-- True when the next token is of the given kind. -/
def check (k : Kind) : Parser Bool := return (← kind) = k

/-- True when all tokens have been passed over. -/
def atEnd : Parser Bool := check .endOfInput

/-- The span from a place to the last token passed over. -/
def spanFrom (start : Location) : Parser Span := do
  match (← get).last with
  | some l => return .between start l
  | none => return .between start (← here)

/-! ### Moving -/

/-- The state after some more tokens have been passed over. -/
def State.skip (s : State) (n : Nat) : State :=
  { s with
    rest := s.rest.drop n
    last := match (s.rest.take n).getLast? with
      | some t => some t.location
      | none => s.last }

/-- Passes over tokens. -/
def skip (n : Nat) : Parser Unit := modify (·.skip n)

/-- Passes over as many tokens as a rule says. -/
def skipBy (rule : List Token → Nat) : Parser Unit := do skip (rule (← rest))

/-- Passes over the next token if it is of the given kind. -/
def accept (k : Kind) : Parser Bool := do
  if ← check k then
    skip 1
    return true
  else
    return false

/-! ### Findings -/

/-- Writes to the journal. -/
def note (e : Event) : Parser Unit := modify fun s => { s with journal := s.journal ++ [e] }

/-- The finding that something else was expected in the place of a token. A token that is invalid
because of a fault of the text gives rise to that fault. -/
def mismatch (faults : List Fault) (expected : String) (t : Token) : Diagnostic :=
  match t.kind with
  | .endOfInput => .unexpectedEnd expected t.location
  | .invalid =>
    match faults.find? (·.location = t.location) with
    | some f => .lexical f.kind.message t.location
    | none => .lexical ("invalid token '" ++ t.lexeme ++ "'") t.location
  | _ => .unexpectedToken expected ("'" ++ t.lexeme ++ "'") t.location

/-- The finding that something else was expected here. -/
def unexpected (expected : String) : Parser Diagnostic :=
  return mismatch (← read).faults expected (← peek)

/-- Stops with the finding that something else was expected here. -/
def fail (expected : String) : Parser α := do throw (← unexpected expected)

/-- Records a finding. Stops when that spends the budget, or when it was spent before. -/
def report (d : Diagnostic) : Parser Unit := do
  if d.isRecoverable then
    modify fun s => { s with
      diagnostics := s.diagnostics ++ [d]
      journal := s.journal ++ [.reported d] }
    let reported := (← get).diagnostics
    if (← read).budget.allows reported then
      return ()
    else
      throw (.tooManyErrors reported.length d.location)
  else
    throw d

/-- Runs a parser; if it stops, reports why and goes on with another one. -/
def recover (p : Parser α) (resume : Parser α) : Parser α :=
  tryCatch p fun d => do
    report d
    resume

/-- Runs a parser, with the finding that stopped it as a result. -/
def attempt (p : Parser α) : Parser (Except Diagnostic α) :=
  tryCatch (do return .ok (← p)) fun d => return .error d

/-- Passes over the next token, which must be of the given kind. -/
def require (k : Kind) (expected : String) : Parser Unit := do
  if ← check k then
    skip 1
  else
    fail expected

end Parser

end JavaTree
