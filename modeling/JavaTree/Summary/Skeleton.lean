import JavaTree.Event
import JavaTree.Printer
import JavaTree.Summary
import JavaTree.Text.Space

/-!
Source text with stubs in the place of bodies, from a summary.

What is of an unknown kind is written as a comment and noted in the journal.
-/

namespace JavaTree

/-- The comment in the body of a stub. -/
def stubMarker : String := "// stub: body not available in summary"

/-- The value that a stub with a return type gives back, unless it returns nothing. -/
def defaultReturn? (typeName : String) : Option String :=
  let name := Text.Space.trim typeName
  if name = "" || name = "void" then none
  else if name.toList.getLast? = some ']' then some "null"
  else match name with
    | "boolean" => some "false"
    | "byte" | "short" | "int" | "long" => some "0"
    | "float" | "double" => some "0.0"
    | "char" => some "'\\0'"
    | _ => some "null"

/-- The comment in the place of something of an unknown kind. -/
def placeholderLine (what name : String) : Line :=
  .plain ("/* no renderer for " ++ what ++ " '" ++ name ++ "' */")

/-- What the kinds of types are called in placeholders. -/
def typeKindWords : String := "type kind"

/-- What the kinds of members are called in placeholders. -/
def memberKindWords : String := "member kind"

/-- A parameter as source text. -/
def ParameterSummary.render (p : ParameterSummary) : String :=
  (if p.isFinal then "final " else "") ++ p.typeName ++ (if p.isVariadic then "..." else "") ++
    " " ++ p.name

namespace MemberSummary

/-- A method, or a constructor if there is no return type: a signature, or a stub. -/
def callableLines (style : BraceStyle) (inInterface : Bool) (m : MemberSummary)
    (returnType : Option String) : List Line :=
  let header := callableHeader m.modifiers m.typeParameters returnType m.name
    (m.parameters.map (·.render)) m.throws
  if m.isSignatureOnly inInterface then [.plain (header ++ ";")]
  else
    let value := returnType.bind defaultReturn?
    Line.braced style header
      (.plain stubMarker :: value.toList.map fun v => .plain ("return " ++ v ++ ";"))

/-- The lines of a member. -/
def lines (style : BraceStyle) (inInterface : Bool) (m : MemberSummary) : List Line :=
  match m.kind with
  | .field =>
    [.plain (Modifier.lead m.modifiers ++ m.typeName.getD "Object" ++ " " ++ m.name ++ ";")]
  | .method => m.callableLines style inInterface (some (m.typeName.getD "void"))
  | .constructor => m.callableLines style inInterface none
  | .unknown => [placeholderLine memberKindWords m.name]

/-- What is noted when a member is written. -/
def notes (m : MemberSummary) : List Event :=
  if m.kind = .unknown then [.placeholder memberKindWords m.name] else []

/-- The lines of the members of a type. -/
def allLines (style : BraceStyle) (inInterface : Bool) (ms : List MemberSummary) : List Line :=
  spacedLines (·.kind = .field) (lines style inInterface) ms

end MemberSummary

namespace TypeSummary

/-- The lines of a type. -/
def lines (style : BraceStyle) (t : TypeSummary) : List Line :=
  let header (word : String) :=
    typeHeader word t.modifiers t.name t.typeParameters t.parents t.interfaces
  match t.kind with
  | .class_ => Line.braced style (header "class") (MemberSummary.allLines style false t.members)
  | .interface_ =>
    Line.braced style (header "interface") (MemberSummary.allLines style true t.members)
  | .enum_ =>
    Line.braced style (header "enum")
      (enumLines t.constants (MemberSummary.allLines style false t.members) !t.members.isEmpty)
  | .unknown => [placeholderLine typeKindWords t.name]

/-- What is noted when a type is written. -/
def notes (t : TypeSummary) : List Event :=
  if t.kind = .unknown then [.placeholder typeKindWords t.name] else t.members.flatMap (·.notes)

end TypeSummary

namespace UnitSummary

/-- The lines of a unit. -/
def lines (style : BraceStyle) (u : UnitSummary) : List Line :=
  unitLines (u.package.map packageLine)
    (u.imports.map fun i => .plain (importText i.name i.isStatic i.isWildcard))
    (u.types.map (·.lines style))

/-- What is noted when a unit is written. -/
def notes (u : UnitSummary) : List Event := u.types.flatMap (·.notes)

end UnitSummary

/-- Source text and what was noted when it was written. -/
structure Skeleton where
  text : String
  journal : List Event

/-- The skeleton of a member of a class. -/
def MemberSummary.skeleton (layout : Layout) (m : MemberSummary) : Skeleton :=
  ⟨Page.render layout (m.lines layout.braceStyle false), .generating "member summary" :: m.notes⟩

/-- The skeleton of a type. -/
def TypeSummary.skeleton (layout : Layout) (t : TypeSummary) : Skeleton :=
  ⟨Page.render layout (t.lines layout.braceStyle), .generating "type summary" :: t.notes⟩

/-- The skeleton of a unit. -/
def UnitSummary.skeleton (layout : Layout) (u : UnitSummary) : Skeleton :=
  ⟨Page.render layout (u.lines layout.braceStyle), .generating "unit summary" :: u.notes⟩

end JavaTree
