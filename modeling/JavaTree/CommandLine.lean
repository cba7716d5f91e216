import JavaTree.CommandLine.Arguments
import JavaTree.FileTree.Load
import JavaTree.Listing
import JavaTree.Summary.Skeleton
import JavaTree.Token.Display

/-!
The program that runs at the command line, as a function of its arguments, the files and the setting
for the error budget.
-/

namespace JavaTree.CommandLine

/-! ### Results -/

/-- What a run of the program leaves: its exit status and the texts on its two outputs. -/
structure Output where
  status : Nat
  stdout : String
  stderr : String
  deriving DecidableEq

/-- Why a command failed, with the causes behind that, outermost first. -/
structure Problem where
  text : String
  causes : List String

/-- Texts, each on a line. -/
def lines (texts : List String) : String := String.join (texts.map (· ++ "\n"))

/-- The lines for causes, numbered if there are several. -/
def causeLines : List String → List String
  | [] => []
  | [cause] => ["", "Caused by:", "    " ++ cause]
  | causes =>
    ["", "Caused by:"] ++
      causes.zipIdx.map fun (cause, n) => "    " ++ toString n ++ ": " ++ cause

/-- The output of a command that failed. -/
def Problem.output (p : Problem) : Output :=
  ⟨1, "", lines (("Error: " ++ p.text) :: causeLines p.causes)⟩

/-- The causes behind a failure to load something. -/
def causes : Failure → List String
  | .io cause => [(Failure.io cause).message, cause]
  | f => [f.message]

/-- The source text in a file. -/
def readSource (t : FileTree) (file : String) : Except Problem String :=
  (t.readText file).mapError fun e => ⟨"failed to read " ++ file, [e.message]⟩

/-- Something loaded from a file. -/
def load (what : String) (read : String → Except Failure α) (file : String) : Except Problem α :=
  (read file).mapError fun f => ⟨"failed to load " ++ what ++ " " ++ file, causes f⟩

/-- The layout in a file, or the standard one if there is no file. -/
def loadLayout (t : FileTree) : Option String → Except Problem Layout
  | some file => load "config" (Layout.ofFile t) file
  | none => .ok {}

/-! ### Commands -/

/-- One line for each token. -/
def lex (source : String) (locations : Bool) : Except Problem Output :=
  match Lexer.tokenize source with
  | .error f => .error ⟨"Lexical error: " ++ f.report, []⟩
  | .ok tokens =>
    let line (t : Token) :=
      if locations then t.kind.display ++ " at " ++ t.location.render
      else t.kind.display ++ ": '" ++ t.lexeme ++ "'"
    .ok ⟨0, lines (tokens.map line), ""⟩

/-- One line for each type, or a listing of the tree, and the findings. -/
def parse (file : String) (p : Parsed) (detailed : Bool) : Output :=
  let shown :=
    if detailed then [p.unit.listing.render 0]
    else p.unit.types.map fun t => t.name ++ " (" ++ toString t.members.length ++ " members)"
  ⟨0, lines shown, lines (p.diagnostics.map fun d => file ++ ": " ++ d.message)⟩

/-- The source text laid out anew, with a warning if there are findings. -/
def format (file : String) (p : Parsed) (layout : Layout) : Output :=
  let warning :=
    if p.diagnostics.isEmpty then []
    else [file ++ ": " ++ toString p.diagnostics.length ++
      " diagnostics, output may be incomplete"]
  ⟨0, p.unit.render layout, lines warning⟩

/-- What `check` says about one file. -/
inductive Verdict where
  | clean (report : List String)
  | flawed (report : List String)
  | unreadable (report : String)

/-- Checks one file. -/
def checkFile (t : FileTree) (options : ParseOptions) (file : String) : Verdict :=
  match t.readText file with
  | .error e => .unreadable (file ++ ": " ++ e.message)
  | .ok source =>
    let p := CompilationUnit.parse source options
    if p.diagnostics.isEmpty then
      .clean ["ok    " ++ file ++ " (" ++ toString p.unit.types.length ++ " types)"]
    else
      .flawed (("warn  " ++ file ++ " (" ++ toString p.diagnostics.length ++ " diagnostics)") ::
        p.diagnostics.map fun d => "      " ++ d.message)

/-- The lines about a file that could be read. -/
def Verdict.report? : Verdict → Option String
  | clean report | flawed report => some (lines report)
  | unreadable _ => none

/-- The line about a file that could not be read. -/
def Verdict.trouble? : Verdict → Option String
  | unreadable report => some report
  | _ => none

/-- True when there is something to say against a file. -/
def Verdict.isFailing : Verdict → Bool
  | clean _ => false
  | _ => true

/-- Texts in the order of their characters. -/
def sorted (texts : List String) : List String := texts.mergeSort fun a b => ¬ b < a

/-- Checks every source text in a folder. The reports are in the order of their texts. -/
def check (t : FileTree) (options : ParseOptions) (folder : String) : Output :=
  let files := (t.filesBelow folder).filter fun f => FileTree.extension? f = some "java"
  let verdicts := files.map (checkFile t options)
  let closing := toString files.length ++ " files checked, " ++
    toString (verdicts.filter (·.isFailing)).length ++ " with diagnostics"
  ⟨0, String.join (sorted (verdicts.filterMap (·.report?))) ++ lines [closing],
    lines (sorted (verdicts.filterMap (·.trouble?)))⟩

/-- Carries out a command. A layout is loaded before the source text that needs it. -/
def Command.run (t : FileTree) (options : ParseOptions) : Command → Except Problem Output
  | .lex file locations => do CommandLine.lex (← readSource t file) locations
  | .parse file detailed => do
    let source ← readSource t file
    return CommandLine.parse file (CompilationUnit.parse source options) detailed
  | .format file layoutFile => do
    let layout ← loadLayout t layoutFile
    let source ← readSource t file
    return CommandLine.format file (CompilationUnit.parse source options) layout
  | .summarize file => do
    let source ← readSource t file
    return ⟨0, lines [(CompilationUnit.parse source options).unit.summary.toDocument], ""⟩
  | .skeleton file layoutFile => do
    let layout ← loadLayout t layoutFile
    let summary ← load "summary" (UnitSummary.ofFile t) file
    return ⟨0, (summary.skeleton layout).text, ""⟩
  | .check folder => return CommandLine.check t options folder

/-- Runs the program. -/
def run (args : List String) (t : FileTree) (budget : Option String) : Output :=
  match command? args with
  | none => ⟨2, "", lines [usage]⟩
  | some command =>
    match command.run t { budget := .ofSetting budget } with
    | .ok output => output
    | .error problem => problem.output

end JavaTree.CommandLine
