/-!
The arguments of the program at the command line.

    lex FILE [-l]            the tokens of a source text, or with their places
    parse FILE [-d]          the types of a source text, or the whole tree
    format FILE [-c FILE]    the source text laid out anew
    summarize FILE           the summary of a source text
    skeleton FILE [-c FILE]  source text with stubs, from a summary
    check FOLDER             the findings about every source text in a folder
-/

namespace JavaTree.CommandLine

/-- What the program is asked to do. -/
inductive Command where
  | lex (file : String) (locations : Bool)
  | parse (file : String) (detailed : Bool)
  | format (file : String) (layout : Option String)
  | summarize (file : String)
  | skeleton (file : String) (layout : Option String)
  | check (folder : String)
  deriving DecidableEq

/-- The options of a command, each by its long name; the short name is its first letter. -/
structure Options where
  switch : Option String := none
  setting : Option String := none

/-- The arguments of a command. -/
structure Arguments where
  operands : List String := []
  switch : Bool := false
  setting : Option String := none

/-- True for an option in its long or its short form. -/
def names (option : Option String) (arg : String) : Bool :=
  match option with
  | none => false
  | some name => arg = "--" ++ name || arg = "-" ++ String.ofList (name.toList.take 1)

/-- The value that is written in one argument with an option. -/
def attached? (option : Option String) (arg : String) : Option String :=
  option.bind fun name =>
    let long := ("--" ++ name ++ "=").toList
    let short := '-' :: name.toList.take 1
    let cs := arg.toList
    if long.isPrefixOf cs then some (String.ofList (cs.drop long.length))
    else if short.isPrefixOf cs && short.length < cs.length then
      match cs.drop short.length with
      | '=' :: value => some (String.ofList value)
      | value => some (String.ofList value)
    else none

/-- True for an argument that is not an operand. -/
def isOption (arg : String) : Bool :=
  match arg.toList with
  | '-' :: _ :: _ => true
  | _ => false

/-- Sorts the arguments of a command. Options may stand anywhere, each at most once and none with an
empty value; after `--` all arguments are operands. -/
def sortArguments? (options : Options) (found : Arguments) : List String → Option Arguments
  | [] => some found
  | arg :: args =>
    if arg = "--" then some { found with operands := found.operands ++ args }
    else if names options.switch arg then
      if found.switch then none else sortArguments? options { found with switch := true } args
    else if names options.setting arg then
      match args with
      | value :: more =>
        if isOption value || value = "" || found.setting.isSome then none
        else sortArguments? options { found with setting := some value } more
      | [] => none
    else match attached? options.setting arg with
      | some value =>
        if value = "" || found.setting.isSome then none
        else sortArguments? options { found with setting := some value } args
      | none =>
        if isOption arg then none
        else sortArguments? options { found with operands := found.operands ++ [arg] } args

/-- The arguments of a command with exactly one operand, which is not empty. -/
def operand? (options : Options) (args : List String) : Option (String × Arguments) :=
  match sortArguments? options {} args with
  | some found =>
    match found.operands with
    | [operand] => if operand = "" then none else some (operand, found)
    | _ => none
  | none => none

/-- The command that the arguments ask for. -/
def command? : List String → Option Command
  | "lex" :: args =>
    (operand? { switch := some "locations" } args).map fun (f, a) => .lex f a.switch
  | "parse" :: args =>
    (operand? { switch := some "detailed" } args).map fun (f, a) => .parse f a.switch
  | "format" :: args =>
    (operand? { setting := some "config" } args).map fun (f, a) => .format f a.setting
  | "summarize" :: args => (operand? {} args).map fun (f, _) => .summarize f
  | "skeleton" :: args =>
    (operand? { setting := some "config" } args).map fun (f, a) => .skeleton f a.setting
  | "check" :: args => (operand? {} args).map fun (f, _) => .check f
  | _ => none

/-- What is said when the arguments ask for nothing that the program does. -/
def usage : String :=
  "usage: javatree lex FILE [-l] | parse FILE [-d] | format FILE [-c JSON] | summarize FILE | " ++
    "skeleton JSON [-c JSON] | check DIR"

end JavaTree.CommandLine
