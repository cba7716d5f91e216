import JavaTree.Token

/-!
The tree of declarations and statements.

    CompilationUnit
    ├── PackageClause, Import
    └── TypeDeclaration  (class, interface, enum)
        └── Member       (field, method, constructor, initializer)
            └── Block
                └── Statement

Expressions are not taken apart: what stands in the place of one is an `Excerpt` of the tokens.
-/

namespace JavaTree

/-- A run of tokens that stands for an expression, a loop header or a catch parameter. -/
structure Excerpt where
  tokens : List Token

namespace Excerpt

/-- The span from the first to the last token. -/
def span (e : Excerpt) : Span :=
  match e.tokens.head?, e.tokens.getLast? with
  | some first, some last => ⟨first.location, last.location⟩
  | _, _ => .empty

/-- The texts of the tokens. -/
def lexemes (e : Excerpt) : List String := e.tokens.map (·.lexeme)

/-- The brackets still to be closed after one more token, innermost first, or `none` if it closes
a bracket that is not the innermost one. -/
def closersAfter (closers : List Mark) : Kind → Option (List Mark)
  | .mark m =>
    match m.closer? with
    | some c => some (c :: closers)
    | none =>
      if m.isCloser then
        match closers with
        | c :: outer => if c = m then some outer else none
        | [] => none
      else some closers
  | _ => some closers

/-- The brackets left open by a run of tokens, or `none` if one is closed out of order. -/
def openBrackets (closers : List Mark) : List Token → Option (List Mark)
  | [] => some closers
  | t :: ts => (closersAfter closers t.kind).bind (openBrackets · ts)

/-- True when all brackets are closed in order. -/
def isBalanced (e : Excerpt) : Bool := openBrackets [] e.tokens = some []

end Excerpt

/-- The clause that names the package of a source text. -/
structure PackageClause where
  name : String
  span : Span

/-- An import. The name is without the `.*` of a wildcard. -/
structure Import where
  name : String
  isStatic : Bool
  isWildcard : Bool
  span : Span

/-- An annotation. The name is without `@`; there are no arguments without parentheses. -/
structure AnnotationUse where
  name : String
  arguments : Option Excerpt
  span : Span

/-- The use of a type. The name holds its type arguments, but not its array dimensions. -/
structure TypeUse where
  name : String
  dimensions : Nat
  span : Span

namespace TypeUse

/-- The return type of a method that returns nothing. -/
def void (s : Span) : TypeUse := ⟨"void", 0, s⟩

/-- True for array types. -/
def isArray (t : TypeUse) : Bool := t.dimensions > 0

/-- True for the return type of a method that returns nothing. -/
def isVoid (t : TypeUse) : Bool := t.name = "void" && t.dimensions = 0

/-- The name without its type arguments. -/
def erasure (t : TypeUse) : String := String.ofList (t.name.toList.takeWhile (· != '<'))

/-- The type as it is written. -/
def render (t : TypeUse) : String :=
  t.name ++ String.join (List.replicate t.dimensions "[]")

end TypeUse

/-- A parameter of a method or constructor. -/
structure Parameter where
  annotations : List AnnotationUse
  isFinal : Bool
  type : TypeUse
  name : String
  isVariadic : Bool
  span : Span

/-- One variable of a declaration, with the dimensions written behind its name. -/
structure Declarator where
  name : String
  dimensions : Nat
  initializer : Option Excerpt
  span : Span

/-- A field, or a local variable that is declared with modifiers or annotations. -/
structure Field where
  modifiers : List Modifier
  annotations : List AnnotationUse
  type : TypeUse
  name : String
  initializer : Option Excerpt
  span : Span

/-- A label in a `switch`. -/
inductive CaseLabel where
  | value (e : Excerpt)
  | default

mutual

/-- A statement. -/
inductive Statement where
  | declaration (type : TypeUse) (declared : List Declarator) (span : Span)
  | expression (expression : Excerpt) (span : Span)
  | return_ (value : Option Excerpt) (span : Span)
  | if_ (condition : Excerpt) (thenBranch : Statement) (elseBranch : Option Statement) (span : Span)
  | for_ (header : Excerpt) (body : Statement) (span : Span)
  | while_ (condition : Excerpt) (body : Statement) (span : Span)
  | doWhile (body : Statement) (condition : Excerpt) (span : Span)
  | try_ (body : Block) (catches : List CatchClause) (finallyBlock : Option Block) (span : Span)
  | field (field : Field)
  | block (block : Block)
  | break_ (label : Option String) (span : Span)
  | continue_ (label : Option String) (span : Span)
  | throw_ (expression : Excerpt) (span : Span)
  | switch (selector : Excerpt) (cases : List SwitchCase) (span : Span)
  | synchronized (lock : Excerpt) (body : Block) (span : Span)
  | labeled (label : String) (body : Statement) (span : Span)
  | assert (condition : Excerpt) (message : Option Excerpt) (span : Span)

/-- Statements between braces. -/
structure Block where
  statements : List Statement
  span : Span

/-- A `catch` with what it catches. -/
structure CatchClause where
  parameter : Excerpt
  body : Block
  span : Span

/-- Labels of a `switch` and the statements behind them. -/
structure SwitchCase where
  labels : List CaseLabel
  statements : List Statement
  span : Span

end

/-- The span of a statement. -/
def Statement.span : Statement → Span
  | declaration _ _ s | expression _ s | return_ _ s | if_ _ _ _ s | for_ _ _ s | while_ _ _ s
  | doWhile _ _ s | try_ _ _ _ s | break_ _ s | continue_ _ s | throw_ _ s | switch _ _ s
  | synchronized _ _ s | labeled _ _ s | assert _ _ s => s
  | field f => f.span
  | block b => b.span

/-- A method. It has no body if it is only a signature. -/
structure Method where
  modifiers : List Modifier
  annotations : List AnnotationUse
  typeParameters : Option String
  returnType : TypeUse
  name : String
  parameters : List Parameter
  throws : List TypeUse
  body : Option Block
  span : Span

/-- A constructor. -/
structure Constructor where
  modifiers : List Modifier
  annotations : List AnnotationUse
  typeParameters : Option String
  name : String
  parameters : List Parameter
  throws : List TypeUse
  body : Block
  span : Span

/-- A block that runs when a type or an object is set up. -/
structure Initializer where
  isStatic : Bool
  body : Block
  span : Span

/-- A member of a type. -/
inductive Member where
  | field (f : Field)
  | method (m : Method)
  | constructor (c : Constructor)
  | initializer (i : Initializer)

/-- The span of a member. -/
def Member.span : Member → Span
  | field f => f.span
  | method m => m.span
  | constructor c => c.span
  | initializer i => i.span

/-- True for fields. -/
def Member.isField : Member → Bool
  | field _ => true
  | _ => false

/-- A constant of an enum. -/
structure EnumConstant where
  annotations : List AnnotationUse
  name : String
  arguments : Option Excerpt
  span : Span

/-- What the header of a type says, by the sort of type. -/
inductive TypeHeader where
  | class_ (typeParameters : Option String) (superclass : Option TypeUse)
      (interfaces : List TypeUse)
  | interface_ (typeParameters : Option String) (parents : List TypeUse)
  | enum_ (interfaces : List TypeUse) (constants : List EnumConstant)

/-- The declaration of a class, an interface or an enum. -/
structure TypeDeclaration where
  modifiers : List Modifier
  annotations : List AnnotationUse
  name : String
  header : TypeHeader
  members : List Member
  span : Span

namespace TypeDeclaration

/-- The methods of a type, in the order of their declaration. -/
def methods (t : TypeDeclaration) : List Method :=
  t.members.filterMap fun | .method m => some m | _ => none

/-- The constructors of a type, in the order of their declaration. -/
def constructors (t : TypeDeclaration) : List Constructor :=
  t.members.filterMap fun | .constructor c => some c | _ => none

/-- The fields of a type, in the order of their declaration. -/
def fields (t : TypeDeclaration) : List Field :=
  t.members.filterMap fun | .field f => some f | _ => none

end TypeDeclaration

/-- Everything that a source text declares. -/
structure CompilationUnit where
  package : Option PackageClause
  imports : List Import
  types : List TypeDeclaration
  span : Span

namespace CompilationUnit

/-- True when a source text declares nothing at all. -/
def isEmpty (u : CompilationUnit) : Bool :=
  u.package.isNone && u.imports.isEmpty && u.types.isEmpty

/-- The first type with a given name. -/
def findType? (u : CompilationUnit) (name : String) : Option TypeDeclaration :=
  u.types.find? (·.name = name)

end CompilationUnit

end JavaTree
