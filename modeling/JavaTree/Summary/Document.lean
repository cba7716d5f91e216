import JavaTree.Failure
import JavaTree.Json.Reader
import JavaTree.Json.Record
import JavaTree.Json.Writer
import JavaTree.Summary

/-!
Summaries as JSON documents.

Each sort of summary has `toValue` and `ofValue?`. The fields stand in the order of their
declaration; a summary that is read need not have those that may be empty.
-/

namespace JavaTree

open Json (Value Record record?)

/-! ### Names -/

/-- The word for a sort of type. -/
def TypeKind.name : TypeKind → String
  | class_ => "class"
  | interface_ => "interface"
  | enum_ => "enum"
  | unknown => "unknown"

/-- The sort of type that a word stands for; any other word stands for an unknown one. -/
def TypeKind.ofName (s : String) : TypeKind :=
  ([class_, interface_, enum_].find? (·.name = s)).getD unknown

/-- The word for a sort of member. -/
def MemberKind.name : MemberKind → String
  | field => "field"
  | method => "method"
  | constructor => "constructor"
  | unknown => "unknown"

/-- The sort of member that a word stands for; any other word stands for an unknown one. -/
def MemberKind.ofName (s : String) : MemberKind :=
  ([field, method, constructor].find? (·.name = s)).getD unknown

/-- Modifiers as values. -/
def Modifier.toValue (ms : List Modifier) : Value := .array (ms.map fun m => .ofText m.text)

/-- Modifiers from values. -/
def Modifier.ofValue? (v : Value) : Option (List Modifier) :=
  v.list? fun v => v.name?.bind ofText?

/-- Texts as values. -/
def textsToValue (texts : List String) : Value := .array (texts.map .ofText)

/-- Texts from values. -/
def textsOfValue? (v : Value) : Option (List String) := v.list? Value.text?

/-! ### Imports and parameters -/

/-- An import as a value. -/
def ImportSummary.toValue (i : ImportSummary) : Value :=
  .ofFields [("name", .ofText i.name), ("is_static", .bool i.isStatic),
    ("is_wildcard", .bool i.isWildcard)]

/-- An import from a value. -/
def ImportSummary.ofValue? (v : Value) : Option ImportSummary := do
  let r ← record? ["name", "is_static", "is_wildcard"] v
  return {
    name := ← r.optional? "name" "" Value.text?
    isStatic := ← r.optional? "is_static" false Value.bool?
    isWildcard := ← r.optional? "is_wildcard" false Value.bool? }

/-- A parameter as a value. -/
def ParameterSummary.toValue (p : ParameterSummary) : Value :=
  .ofFields [("name", .ofText p.name), ("type_name", .ofText p.typeName),
    ("varargs", .bool p.isVariadic), ("is_final", .bool p.isFinal)]

/-- A parameter from a value. -/
def ParameterSummary.ofValue? (v : Value) : Option ParameterSummary := do
  let r ← record? ["name", "type_name", "varargs", "is_final"] v
  return {
    name := ← r.required? "name" Value.text?
    typeName := ← r.required? "type_name" Value.text?
    isVariadic := ← r.optional? "varargs" false Value.bool?
    isFinal := ← r.optional? "is_final" false Value.bool? }

/-! ### Members and types -/

/-- A member as a value. -/
def MemberSummary.toValue (m : MemberSummary) : Value :=
  .ofFields [("kind", .ofText m.kind.name), ("name", .ofText m.name),
    ("modifiers", Modifier.toValue m.modifiers), ("type_name", .ofNullableText m.typeName),
    ("type_params", .ofNullableText m.typeParameters),
    ("parameters", .array (m.parameters.map (·.toValue))), ("throws", textsToValue m.throws)]

/-- A member from a value. -/
def MemberSummary.ofValue? (v : Value) : Option MemberSummary := do
  let r ← record?
    ["kind", "name", "modifiers", "type_name", "type_params", "parameters", "throws"] v
  return {
    kind := ← r.required? "kind" fun v => v.name?.map MemberKind.ofName
    name := ← r.required? "name" Value.text?
    modifiers := ← r.optional? "modifiers" [] Modifier.ofValue?
    typeName := ← r.optional? "type_name" none Value.nullableText?
    typeParameters := ← r.optional? "type_params" none Value.nullableText?
    parameters := ← r.optional? "parameters" [] (Value.list? ParameterSummary.ofValue?)
    throws := ← r.optional? "throws" [] textsOfValue? }

/-- A type as a value. -/
def TypeSummary.toValue (t : TypeSummary) : Value :=
  .ofFields [("kind", .ofText t.kind.name), ("name", .ofText t.name),
    ("modifiers", Modifier.toValue t.modifiers), ("type_params", .ofNullableText t.typeParameters),
    ("extends", textsToValue t.parents), ("implements", textsToValue t.interfaces),
    ("constants", textsToValue t.constants), ("members", .array (t.members.map (·.toValue)))]

/-- A type from a value. -/
def TypeSummary.ofValue? (v : Value) : Option TypeSummary := do
  let r ← record?
    ["kind", "name", "modifiers", "type_params", "extends", "implements", "constants", "members"] v
  return {
    kind := ← r.required? "kind" fun v => v.name?.map TypeKind.ofName
    name := ← r.required? "name" Value.text?
    modifiers := ← r.optional? "modifiers" [] Modifier.ofValue?
    typeParameters := ← r.optional? "type_params" none Value.nullableText?
    parents := ← r.optional? "extends" [] textsOfValue?
    interfaces := ← r.optional? "implements" [] textsOfValue?
    constants := ← r.optional? "constants" [] textsOfValue?
    members := ← r.optional? "members" [] (Value.list? MemberSummary.ofValue?) }

/-! ### Units -/

/-- A unit as a value. -/
def UnitSummary.toValue (u : UnitSummary) : Value :=
  .ofFields [("package", .ofNullableText u.package),
    ("imports", .array (u.imports.map (·.toValue))), ("types", .array (u.types.map (·.toValue)))]

/-- A unit from a value. -/
def UnitSummary.ofValue? (v : Value) : Option UnitSummary := do
  let r ← record? ["package", "imports", "types"] v
  return {
    package := ← r.optional? "package" none Value.nullableText?
    imports := ← r.optional? "imports" [] (Value.list? ImportSummary.ofValue?)
    types := ← r.optional? "types" [] (Value.list? TypeSummary.ofValue?) }

/-- A unit as a document. -/
def UnitSummary.toDocument (u : UnitSummary) : String := u.toValue.render 0

/-- What a document describes, if it is of the form that a reader of values expects. -/
def fromDocument (read : Value → Option α) (s : String) : Except Failure α :=
  match (Json.document? s).bind read with
  | some a => .ok a
  | none => .error .json

/-- A unit from a document. -/
def UnitSummary.ofDocument (s : String) : Except Failure UnitSummary :=
  fromDocument UnitSummary.ofValue? s

/-- A type from a document. -/
def TypeSummary.ofDocument (s : String) : Except Failure TypeSummary :=
  fromDocument TypeSummary.ofValue? s

/-- A member from a document. -/
def MemberSummary.ofDocument (s : String) : Except Failure MemberSummary :=
  fromDocument MemberSummary.ofValue? s

end JavaTree
