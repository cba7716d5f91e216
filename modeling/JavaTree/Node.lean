import JavaTree.Outline
import JavaTree.Printer

/-!
Any node of a tree, on its own.

A `Node` can be asked for its sort, its span and its outline, and it can be written as source text
whatever stands around it. `CompilationUnit.nodes` lists the nodes of a whole tree down to the
statements of its members.
-/

namespace JavaTree

/-- A node of a tree. -/
inductive Node where
  | unit (u : CompilationUnit)
  | package (p : PackageClause)
  | import_ (i : Import)
  /-- Any declaration of a type. -/
  | type (t : TypeDeclaration)
  /-- The declaration of a type as the class, interface or enum that it is. -/
  | typeForm (t : TypeDeclaration)
  | enumConstant (c : EnumConstant)
  /-- Any member. -/
  | member (m : Member)
  /-- A member as the field, method, constructor or initializer that it is. -/
  | memberForm (m : Member)
  | parameter (p : Parameter)
  | annotationUse (a : AnnotationUse)
  | typeUse (t : TypeUse)
  | block (b : Block)
  | statement (s : Statement)
  | excerpt (e : Excerpt)
  /-- The type and the variables of a declaration. -/
  | declaration (t : TypeUse) (ds : List Declarator) (span : Span)
  | declarator (d : Declarator)
  | catchClause (c : CatchClause)
  | switchCase (c : SwitchCase)

namespace Node

/-- The words for the sort of a node. -/
def kind : Node → String
  | unit _ => "compilation unit"
  | package _ => "package declaration"
  | import_ _ => "import declaration"
  | type _ => "type declaration"
  | typeForm t =>
    match t.header with
    | .class_ .. => "class declaration"
    | .interface_ .. => "interface declaration"
    | .enum_ .. => "enum declaration"
  | enumConstant _ => "enum constant"
  | member _ => "member"
  | memberForm m =>
    match m with
    | .field _ => "field"
    | .method _ => "method"
    | .constructor _ => "constructor"
    | .initializer _ => "initializer block"
  | parameter _ => "parameter"
  | annotationUse _ => "annotation"
  | typeUse _ => "type reference"
  | block _ => "block"
  | statement _ => "statement"
  | excerpt _ => "expression"
  | declaration .. => "declaration"
  | declarator _ => "variable"
  | catchClause _ => "catch"
  | switchCase _ => "case"

/-- Nodes that are written as part of a line. -/
def isInline : Node → Bool
  | parameter _ | annotationUse _ | typeUse _ | excerpt _ => true
  | _ => false

/-- The span of a node. -/
def span : Node → Span
  | unit u => u.span
  | package p => p.span
  | import_ i => i.span
  | type t | typeForm t => t.span
  | enumConstant c => c.span
  | member m | memberForm m => m.span
  | parameter p => p.span
  | annotationUse a => a.span
  | typeUse t => t.span
  | block b => b.span
  | statement s => s.span
  | excerpt e => e.span
  | declaration _ _ s => s
  | declarator d => d.span
  | catchClause c => c.span
  | switchCase c => c.span

/-- What a walk through a node meets. -/
def outline : Node → List OutlineEntry
  | unit u => Outline.unit 0 u
  | package p => [⟨0, .package p⟩]
  | import_ i => [⟨0, .import_ i⟩]
  | type t | typeForm t => Outline.typeDeclaration 0 t
  | enumConstant c => [⟨0, .constant c⟩]
  | member m | memberForm m => Outline.member 0 m
  | parameter p => Outline.parameter 0 p
  | annotationUse a => [⟨0, .annotationUse a⟩]
  | typeUse t => Outline.type 0 t
  | block b => Outline.block 0 b
  | statement s => Outline.statement 0 s
  | excerpt e => Outline.excerpt 0 e
  | declaration t ds _ => Outline.declaration 0 t ds
  | declarator d => Outline.declarators 0 [d]
  | catchClause c => Outline.catchClause 0 c
  | switchCase c => Outline.switchCase 0 c

/-- A node as source text, alone. Parts of statements have no text of their own. -/
def render? (layout : Layout) (n : Node) : Option String :=
  let style := layout.braceStyle
  let page (ls : List Line) := some (Page.render layout ls)
  match n with
  | unit u => page (u.lines style)
  | package p => page [packageLine p.name]
  | import_ i => page [i.line]
  | type t | typeForm t => page (t.lines style)
  | enumConstant c => page [.plain c.render]
  | member m | memberForm m => page (m.lines style)
  | parameter p => some p.render
  | annotationUse a => some a.render
  | typeUse t => some t.render
  | block b => page (Line.braced style "" (b.lines style))
  | statement s => page (s.lines style .row)
  | excerpt e => some e.render
  | declaration .. | declarator _ | catchClause _ | switchCase _ => none

end Node

/-! ### Listing -/

/-- An annotation and its arguments. -/
def AnnotationUse.nodes (a : AnnotationUse) : List Node :=
  .annotationUse a :: a.arguments.toList.map .excerpt

/-- Annotations and their arguments. -/
def AnnotationUse.allNodes (as : List AnnotationUse) : List Node := as.flatMap (·.nodes)

/-- A statement and those of its parts that hold no other statement around them. -/
def Statement.nodes : Statement → List Node
  | s@(.declaration t ds span) =>
    .statement s :: .declaration t ds span :: ds.map .declarator
  | s@(.try_ _ cs _ _) => .statement s :: cs.map .catchClause
  | s@(.switch _ cs _) => .statement s :: cs.map .switchCase
  | s => [.statement s]

/-- A block and its statements, but not the ones inside them. -/
def Block.nodes (b : Block) : List Node := .block b :: b.statements.flatMap (·.nodes)

/-- A parameter, its annotations and its type. -/
def Parameter.nodes (p : Parameter) : List Node :=
  .parameter p :: (AnnotationUse.allNodes p.annotations ++ [.typeUse p.type])

/-- A member and its parts. -/
def Member.nodes (m : Member) : List Node :=
  .member m :: .memberForm m ::
    match m with
    | .field f =>
      AnnotationUse.allNodes f.annotations ++ [.typeUse f.type] ++ f.initializer.toList.map .excerpt
    | .method m =>
      AnnotationUse.allNodes m.annotations ++ [.typeUse m.returnType] ++
        m.parameters.flatMap (·.nodes) ++ m.throws.map .typeUse ++ m.body.toList.flatMap (·.nodes)
    | .constructor c =>
      AnnotationUse.allNodes c.annotations ++ c.parameters.flatMap (·.nodes) ++
        c.throws.map .typeUse ++ c.body.nodes
    | .initializer i => i.body.nodes

/-- The parts of a type's header. -/
def TypeHeader.nodes : TypeHeader → List Node
  | .class_ _ superclass interfaces => superclass.toList.map .typeUse ++ interfaces.map .typeUse
  | .interface_ _ parents => parents.map .typeUse
  | .enum_ interfaces constants =>
    interfaces.map .typeUse ++ constants.flatMap fun c =>
      .enumConstant c :: (AnnotationUse.allNodes c.annotations ++ c.arguments.toList.map .excerpt)

/-- A type and its parts. -/
def TypeDeclaration.nodes (t : TypeDeclaration) : List Node :=
  .type t :: .typeForm t ::
    (AnnotationUse.allNodes t.annotations ++ t.header.nodes ++ t.members.flatMap (·.nodes))

/-- A unit and its parts. -/
def CompilationUnit.nodes (u : CompilationUnit) : List Node :=
  .unit u :: (u.package.toList.map .package ++ u.imports.map .import_ ++
    u.types.flatMap (·.nodes))

end JavaTree
