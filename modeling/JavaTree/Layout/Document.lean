import JavaTree.Json.Reader
import JavaTree.Json.Record
import JavaTree.Layout

/-!
Layouts as JSON documents.
-/

namespace JavaTree.Layout

/-- The layout that a value describes. What is absent is as in the standard layout. -/
def ofValue? (v : Json.Value) : Option Layout := do
  let r ← Json.record? ["indent_width", "use_tabs", "newline", "brace_style"] v
  let standard : Layout := {}
  return {
    indentWidth := ← r.optional? "indent_width" standard.indentWidth Json.Value.natural?
    useTabs := ← r.optional? "use_tabs" standard.useTabs Json.Value.bool?
    newline := ← r.optional? "newline" standard.newline Json.Value.text?
    braceStyle := ← r.optional? "brace_style" standard.braceStyle
      fun v => v.name?.bind BraceStyle.ofName? }

/-- The layout that a document describes, unless it is not acceptable. -/
def ofDocument (s : String) : Except Failure Layout :=
  match (Json.document? s).bind ofValue? with
  | none => .error .json
  | some l =>
    match l.problem? with
    | some f => .error f
    | none => .ok l

end JavaTree.Layout
