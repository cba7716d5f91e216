import JavaTree.Diagnostic

/-!
Why an operation as a whole has no result.
-/

namespace JavaTree

/-- The reason why an operation failed. -/
inductive Failure where
  /-- A file could not be read. -/
  | io (cause : String)
  /-- The source text holds a fault. -/
  | lexical (location : Location) (cause : String)
  /-- The source text could not be read as declarations. -/
  | parse (location : Location) (cause : String)
  /-- A layout is not acceptable. -/
  | config (cause : String)
  /-- A document is not of the expected form. -/
  | json
  deriving DecidableEq

namespace Failure

/-- The report of a failure. -/
def message : Failure → String
  | io cause => "IO error: " ++ cause
  | lexical l cause =>
    "Lexical error at line " ++ toString l.line ++ ", column " ++ toString l.column ++
      " (offset " ++ toString l.offset ++ "): " ++ cause
  | parse l cause =>
    "Parse error at line " ++ toString l.line ++ ", column " ++ toString l.column ++ ": " ++ cause
  | config cause => "Configuration error: " ++ cause
  | json => "JSON error"

/-- The failure that a fault of a source text amounts to. -/
def ofFault (f : Fault) : Failure := .lexical f.location f.kind.message

/-- The failure that a finding about a source text amounts to. -/
def ofDiagnostic (d : Diagnostic) : Failure := .parse d.location d.message

end Failure

end JavaTree
