import JavaTree.CommandLine

/-!
The program itself: gathers the files that a command names, runs the command on them, and prints
what it leaves.
-/

namespace JavaTree.CommandLine

/-- The paths that a command reads. -/
def Command.paths : Command → List String
  | .lex file _ | .parse file _ | .summarize file => [file]
  | .format file layout | .skeleton file layout => file :: layout.toList
  | .check folder => [folder]

/-- A file tree with one more file. -/
def addFile (t : FileTree) (path : String) (content : ByteArray) : FileTree :=
  { t with files := t.files ++ [(path, content)] }

/-- A file tree with one more folder. -/
def addFolder (t : FileTree) (path : String) : FileTree := { t with folders := t.folders ++ [path] }

/-- Adds what lies at a path and, if asked for, below it. Files that cannot be opened are left
out. -/
partial def gather (below : Bool) (t : FileTree) (path : String) : IO FileTree := do
  try
    let entries ← (← IO.FS.realPath path).readDir
    if below then
      entries.foldlM (fun t e => gather below t (FileTree.joinPath path e.fileName))
        (addFolder t path)
    else
      return addFolder t path
  catch _ =>
    try
      return addFile t path (← IO.FS.readBinFile path)
    catch _ => return t

/-- The folders that a path passes through, as paths. -/
def passed (path : String) : List String :=
  let cs := path.toList
  (List.range cs.length).filterMap fun n =>
    if 0 < n ∧ cs[n]? = some '/' then some (String.ofList (cs.take n)) else none

/-- The files that a command needs, and the folders on the way to them. -/
def gatherFor (command : Command) : IO FileTree := do
  let below := match command with
    | .check _ => true
    | _ => false
  let folders ← (command.paths.flatMap passed).foldlM (gather false) ⟨[], []⟩
  command.paths.foldlM (gather below) folders

/-- The variable that sets the error budget. -/
def budgetVariable : String := "JAST_PARSE_MAX_ERRORS"

end JavaTree.CommandLine

open JavaTree.CommandLine in
/-- Runs the program at the command line. -/
def main (args : List String) : IO UInt32 := do
  let files ← match command? args with
    | some command => gatherFor command
    | none => pure ⟨[], []⟩
  let output := run args files (← IO.getEnv budgetVariable)
  IO.print output.stdout
  IO.eprint output.stderr
  return output.status.toUInt32
