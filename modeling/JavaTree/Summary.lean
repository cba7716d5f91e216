import JavaTree.Syntax

/-!
What a source text declares, without bodies and places.

A summary has the names, modifiers, types and parameters of declarations. It says enough to write
stubs for them.
-/

namespace JavaTree

/-- The sort of a summarized type. -/
inductive TypeKind where
  | class_ | interface_ | enum_
  /-- A sort that is not known here. -/
  | unknown
  deriving DecidableEq

/-- The sort of a summarized member. -/
inductive MemberKind where
  | field | method | constructor
  /-- A sort that is not known here. -/
  | unknown
  deriving DecidableEq

/-- The summary of an import. -/
structure ImportSummary where
  name : String := ""
  isStatic : Bool := false
  isWildcard : Bool := false
  deriving DecidableEq

/-- The summary of a parameter. -/
structure ParameterSummary where
  name : String
  typeName : String
  isVariadic : Bool
  isFinal : Bool
  deriving DecidableEq

/-- The summary of a member. The type of a method is its return type. -/
structure MemberSummary where
  kind : MemberKind
  name : String
  modifiers : List Modifier
  typeName : Option String
  typeParameters : Option String
  parameters : List ParameterSummary
  throws : List String
  deriving DecidableEq

/-- The summary of a type. -/
structure TypeSummary where
  kind : TypeKind
  name : String
  modifiers : List Modifier
  typeParameters : Option String
  /-- The superclass of a class, or the interfaces that an interface builds on. -/
  parents : List String
  interfaces : List String
  /-- The names of the constants of an enum. -/
  constants : List String
  members : List MemberSummary
  deriving DecidableEq

/-- The summary of a source text. -/
structure UnitSummary where
  package : Option String
  imports : List ImportSummary
  types : List TypeSummary
  deriving DecidableEq

/-- True for a method that is written without a body: an abstract or native one, and in an interface
any that is neither default nor static. -/
def MemberSummary.isSignatureOnly (m : MemberSummary) (inInterface : Bool) : Bool :=
  m.kind = .method &&
    (m.modifiers.contains .abstract_ || m.modifiers.contains .native_ ||
      (inInterface && !m.modifiers.contains .default_ && !m.modifiers.contains .static_))

/-! ### Summaries of trees -/

/-- The summary of a parameter. -/
def Parameter.summary (p : Parameter) : ParameterSummary :=
  ⟨p.name, p.type.render, p.isVariadic, p.isFinal⟩

/-- The summary of a member; an initializer has none. -/
def Member.summary? : Member → Option MemberSummary
  | .field f => some ⟨.field, f.name, f.modifiers, some f.type.render, none, [], []⟩
  | .method m => some ⟨.method, m.name, m.modifiers, some m.returnType.render, m.typeParameters,
      m.parameters.map (·.summary), m.throws.map (·.render)⟩
  | .constructor c => some ⟨.constructor, c.name, c.modifiers, none, c.typeParameters,
      c.parameters.map (·.summary), c.throws.map (·.render)⟩
  | .initializer _ => none

/-- The summary of a type. -/
def TypeDeclaration.summary (t : TypeDeclaration) : TypeSummary :=
  let members := t.members.filterMap (·.summary?)
  let texts (ts : List TypeUse) := ts.map (·.render)
  match t.header with
  | .class_ params superclass interfaces =>
    ⟨.class_, t.name, t.modifiers, params, texts superclass.toList, texts interfaces, [], members⟩
  | .interface_ params parents =>
    ⟨.interface_, t.name, t.modifiers, params, texts parents, [], [], members⟩
  | .enum_ interfaces constants =>
    ⟨.enum_, t.name, t.modifiers, none, [], texts interfaces, constants.map (·.name), members⟩

/-- The summary of a source text. -/
def CompilationUnit.summary (u : CompilationUnit) : UnitSummary where
  package := u.package.map (·.name)
  imports := u.imports.map fun i => ⟨i.name, i.isStatic, i.isWildcard⟩
  types := u.types.map (·.summary)

end JavaTree
