import JavaTree.FileTree
import JavaTree.Layout.Document
import JavaTree.Parser.Unit
import JavaTree.Printer
import JavaTree.Summary.Document

/-!
Source texts, layouts and summaries from files.
-/

namespace JavaTree

/-- Reads a source text from a file. -/
def CompilationUnit.parseFile (t : FileTree) (path : String) (options : ParseOptions) :
    Except Failure Parsed :=
  (t.source path).map fun s => CompilationUnit.parse s options

/-- Lays out the source text in a file anew. -/
def CompilationUnit.formatFile (t : FileTree) (path : String) (layout : Layout)
    (options : ParseOptions) : Except Failure String :=
  (parseFile t path options).map fun p => p.unit.render layout

/-- Reads a layout from a file. -/
def Layout.ofFile (t : FileTree) (path : String) : Except Failure Layout :=
  (t.source path).bind Layout.ofDocument

/-- Reads a summary from a file. -/
def UnitSummary.ofFile (t : FileTree) (path : String) : Except Failure UnitSummary :=
  (t.source path).bind UnitSummary.ofDocument

end JavaTree
