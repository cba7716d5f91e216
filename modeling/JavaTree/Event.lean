import JavaTree.Diagnostic

/-!
The journal that reading and writing keep of what they meet on the way.
-/

namespace JavaTree

/-- How much an entry of the journal matters. -/
inductive Level where
  | error | warn | debug | trace
  deriving DecidableEq

/-- The word for a level. -/
def Level.name : Level → String
  | error => "ERROR"
  | warn => "WARN"
  | debug => "DEBUG"
  | trace => "TRACE"

/-- Something that reading or writing met on the way. -/
inductive Event where
  /-- The text holds a fault, which is reported once reading gets to it. -/
  | deferred (f : Fault)
  /-- A finding was reported. -/
  | reported (d : Diagnostic)
  /-- A member looks like a constructor but has another name than the type around it. -/
  | misnamedConstructor (name : String) (location : Location) (typeName : String)
  /-- A `try` has neither `catch` nor `finally`. -/
  | bareTry (location : Location)
  /-- Reading stopped before the end of the text. -/
  | aborted (d : Diagnostic)
  /-- A piece of source text is about to be written. -/
  | generating (what : String)
  /-- A thing of unknown kind was written as a comment. -/
  | placeholder (what name : String)

namespace Event

/-- How much an event matters. -/
def level : Event → Level
  | deferred _ => .debug
  | reported _ | misnamedConstructor .. | bareTry _ | placeholder .. => .warn
  | aborted _ => .error
  | generating _ => .trace

/-- What the journal says of an event. -/
def message : Event → String
  | deferred f => "lexical fault deferred to parser: " ++ f.report
  | reported d => d.message
  | misnamedConstructor name l typeName =>
    "constructor-shaped member '" ++ name ++ "' at " ++ l.render ++
      " does not match enclosing type '" ++ typeName ++ "'"
  | bareTry l => "try statement at " ++ l.render ++ " has neither catch nor finally"
  | aborted d => "parsing aborted, returning partial compilation unit: " ++ d.message
  | generating what => "generating " ++ what
  | placeholder what name => "no renderer for " ++ what ++ " '" ++ name ++ "', emitting placeholder"

end Event

end JavaTree
