import JavaTree.Fault
import JavaTree.Text.Numeral
import JavaTree.Text.Space

/-!
What is reported about a source text that could not be read in full, and how many reports are
tolerated.
-/

namespace JavaTree

/-- A finding about a source text, with the place it is about. -/
inductive Diagnostic where
  /-- Another token was expected here. -/
  | unexpectedToken (expected found : String) (location : Location)
  /-- The text ended where something was expected. -/
  | unexpectedEnd (expected : String) (location : Location)
  /-- The text holds something that is no token. -/
  | lexical (message : String) (location : Location)
  /-- A construct that the tree has no node for was passed over. -/
  | unsupported (construct : String) (location : Location)
  /-- A cap was reached, and what lies beyond it was passed over. -/
  | limitExceeded (what : String) (limit : Nat) (location : Location)
  /-- The budget for findings is spent, and reading stopped. -/
  | tooManyErrors (count : Nat) (location : Location)
  deriving DecidableEq

namespace Diagnostic

/-- The place a finding is about. -/
def location : Diagnostic → Location
  | unexpectedToken _ _ l | unexpectedEnd _ l | lexical _ l | unsupported _ l
  | limitExceeded _ _ l | tooManyErrors _ l => l

/-- Every finding but the last one lets reading go on. -/
def isRecoverable : Diagnostic → Bool
  | tooManyErrors .. => false
  | _ => true

/-- The report of a finding. -/
def message : Diagnostic → String
  | unexpectedToken expected found l =>
    "Parse error at " ++ l.render ++ ": expected " ++ expected ++ ", found " ++ found
  | unexpectedEnd expected l =>
    "Parse error at " ++ l.render ++ ": unexpected end of input, expected " ++ expected
  | lexical text l => "Lexical error at " ++ l.render ++ ": " ++ text
  | unsupported construct l =>
    "Unsupported construct at " ++ l.render ++ ": " ++ construct ++ " skipped"
  | limitExceeded what limit l =>
    "Limit exceeded at " ++ l.render ++ ": more than " ++ toString limit ++ " " ++ what ++
      ", remainder skipped"
  | tooManyErrors count l =>
    "Parsing stopped at " ++ l.render ++ " after " ++ toString count ++ " errors"

/-- The finding that a fault of the text gives rise to. -/
def ofFault (f : Fault) : Diagnostic := .lexical f.kind.message f.location

end Diagnostic

/-- How many findings are reported before reading stops. -/
structure ErrorBudget where
  limit : Nat
  deriving DecidableEq

namespace ErrorBudget

/-- The budget used unless another one is asked for. -/
def standard : ErrorBudget := ⟨100⟩

/-- The budget that a setting asks for: a number with white space around it, or the standard one if
the setting is absent or no number. -/
def ofSetting (setting : Option String) : ErrorBudget :=
  match setting.bind fun s => Text.Numeral.word? (Text.Space.trim s) with
  | some n => ⟨n⟩
  | none => standard

/-- True while the findings reported so far leave room for more. -/
def allows (b : ErrorBudget) (reported : List Diagnostic) : Bool := reported.length < b.limit

end ErrorBudget

end JavaTree
