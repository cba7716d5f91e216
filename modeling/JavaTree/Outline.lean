import JavaTree.Syntax

/-!
The outline of a tree: what a walk through it meets, in the order of the source text.

A walk goes from a node to its parts in the order in which they are written. It does not look into
the arguments of annotations and enum constants, nor at the types in the header of a type or behind
`throws`. A statement is met before its parts, which lie one level deeper.
-/

namespace JavaTree

/-- Something that a walk meets. -/
inductive Sight where
  | unit (u : CompilationUnit)
  | package (p : PackageClause)
  | import_ (i : Import)
  | constant (c : EnumConstant)
  | statement (s : Statement)
  | excerpt (e : Excerpt)
  | type (t : TypeUse)
  | annotationUse (a : AnnotationUse)

namespace Sight

/-- The word for what is met. -/
def what : Sight → String
  | unit _ => "unit"
  | package _ => "package"
  | import_ _ => "import"
  | constant _ => "constant"
  | statement _ => "stmt"
  | excerpt _ => "span"
  | type _ => "type"
  | annotationUse _ => "annotation"

/-- The place of what is met. -/
def location : Sight → Location
  | unit u => u.span.first
  | package p => p.span.first
  | import_ i => i.span.first
  | constant c => c.span.first
  | statement s => s.span.first
  | excerpt e => e.span.first
  | type t => t.span.first
  | annotationUse a => a.span.first

/-- The text that tells one thing from another of its sort. -/
def detail : Sight → String
  | unit _ | statement _ => ""
  | package p => p.name
  | import_ i => i.name
  | constant c => c.name
  | excerpt e => " ".intercalate e.lexemes
  | type t => t.render
  | annotationUse a => a.name

end Sight

/-- What a walk meets, at which depth. -/
structure OutlineEntry where
  depth : Nat
  sight : Sight

/-- The line of an entry. -/
def OutlineEntry.render (e : OutlineEntry) : String :=
  String.join (List.replicate e.depth "  ") ++ e.sight.what ++ " " ++ e.sight.location.render ++
    " " ++ e.sight.detail

namespace Outline

/-- Annotations in a row. -/
def annotations (depth : Nat) (as : List AnnotationUse) : List OutlineEntry :=
  as.map fun a => ⟨depth, .annotationUse a⟩

/-- One excerpt. -/
def excerpt (depth : Nat) (e : Excerpt) : List OutlineEntry := [⟨depth, .excerpt e⟩]

/-- An excerpt that may be absent. -/
def excerpt? (depth : Nat) (e : Option Excerpt) : List OutlineEntry :=
  e.toList.map fun e => ⟨depth, .excerpt e⟩

/-- The use of a type. -/
def type (depth : Nat) (t : TypeUse) : List OutlineEntry := [⟨depth, .type t⟩]

/-- The variables of a declaration. -/
def declarators (depth : Nat) (ds : List Declarator) : List OutlineEntry :=
  ds.flatMap fun d => excerpt? depth d.initializer

/-- A declaration of variables. -/
def declaration (depth : Nat) (t : TypeUse) (ds : List Declarator) : List OutlineEntry :=
  type depth t ++ declarators depth ds

/-- A field. -/
def field (depth : Nat) (f : Field) : List OutlineEntry :=
  annotations depth f.annotations ++ type depth f.type ++ excerpt? depth f.initializer

/-- A label of a case. -/
def label (depth : Nat) : CaseLabel → List OutlineEntry
  | .value e => excerpt depth e
  | .default => []

mutual

/-- A statement and, one level deeper, its parts. -/
def statement (depth : Nat) : Statement → List OutlineEntry
  | s@(.declaration t ds _) => ⟨depth, .statement s⟩ :: declaration (depth + 1) t ds
  | s@(.expression e _) => ⟨depth, .statement s⟩ :: excerpt (depth + 1) e
  | s@(.return_ v _) => ⟨depth, .statement s⟩ :: excerpt? (depth + 1) v
  | s@(.if_ c t e _) =>
    ⟨depth, .statement s⟩ ::
      (excerpt (depth + 1) c ++ statement (depth + 1) t ++ statement? (depth + 1) e)
  | s@(.for_ h b _) => ⟨depth, .statement s⟩ :: (excerpt (depth + 1) h ++ statement (depth + 1) b)
  | s@(.while_ c b _) => ⟨depth, .statement s⟩ :: (excerpt (depth + 1) c ++ statement (depth + 1) b)
  | s@(.doWhile b c _) =>
    ⟨depth, .statement s⟩ :: (statement (depth + 1) b ++ excerpt (depth + 1) c)
  | s@(.try_ b cs f _) =>
    ⟨depth, .statement s⟩ ::
      (block (depth + 1) b ++ catchClauses (depth + 1) cs ++ block? (depth + 1) f)
  | s@(.field f) => ⟨depth, .statement s⟩ :: field (depth + 1) f
  | s@(.block b) => ⟨depth, .statement s⟩ :: block (depth + 1) b
  | s@(.break_ _ _) => [⟨depth, .statement s⟩]
  | s@(.continue_ _ _) => [⟨depth, .statement s⟩]
  | s@(.throw_ e _) => ⟨depth, .statement s⟩ :: excerpt (depth + 1) e
  | s@(.switch e cs _) =>
    ⟨depth, .statement s⟩ :: (excerpt (depth + 1) e ++ switchCases (depth + 1) cs)
  | s@(.synchronized l b _) =>
    ⟨depth, .statement s⟩ :: (excerpt (depth + 1) l ++ block (depth + 1) b)
  | s@(.labeled _ b _) => ⟨depth, .statement s⟩ :: statement (depth + 1) b
  | s@(.assert c m _) =>
    ⟨depth, .statement s⟩ :: (excerpt (depth + 1) c ++ excerpt? (depth + 1) m)

/-- A statement that may be absent. -/
def statement? (depth : Nat) : Option Statement → List OutlineEntry
  | none => []
  | some s => statement depth s

/-- Statements in a row. -/
def statements (depth : Nat) : List Statement → List OutlineEntry
  | [] => []
  | s :: ss => statement depth s ++ statements depth ss

/-- The statements of a block. -/
def block (depth : Nat) : Block → List OutlineEntry
  | ⟨ss, _⟩ => statements depth ss

/-- A block that may be absent. -/
def block? (depth : Nat) : Option Block → List OutlineEntry
  | none => []
  | some b => block depth b

/-- A `catch` clause. -/
def catchClause (depth : Nat) : CatchClause → List OutlineEntry
  | ⟨e, b, _⟩ => excerpt depth e ++ block depth b

/-- `catch` clauses in a row. -/
def catchClauses (depth : Nat) : List CatchClause → List OutlineEntry
  | [] => []
  | c :: cs => catchClause depth c ++ catchClauses depth cs

/-- A case of a `switch`. -/
def switchCase (depth : Nat) : SwitchCase → List OutlineEntry
  | ⟨ls, ss, _⟩ => ls.flatMap (label depth) ++ statements depth ss

/-- The cases of a `switch`. -/
def switchCases (depth : Nat) : List SwitchCase → List OutlineEntry
  | [] => []
  | c :: cs => switchCase depth c ++ switchCases depth cs

end

/-- A parameter. -/
def parameter (depth : Nat) (p : Parameter) : List OutlineEntry :=
  annotations depth p.annotations ++ type depth p.type

/-- A method. -/
def method (depth : Nat) (m : Method) : List OutlineEntry :=
  annotations depth m.annotations ++ type depth m.returnType ++
    m.parameters.flatMap (parameter depth) ++ block? depth m.body

/-- A constructor. -/
def constructor (depth : Nat) (c : Constructor) : List OutlineEntry :=
  annotations depth c.annotations ++ c.parameters.flatMap (parameter depth) ++ block depth c.body

/-- A member. -/
def member (depth : Nat) : Member → List OutlineEntry
  | .field f => field depth f
  | .method m => method depth m
  | .constructor c => constructor depth c
  | .initializer i => block depth i.body

/-- The constants of an enum; other types have none. -/
def constants (depth : Nat) : TypeHeader → List OutlineEntry
  | .enum_ _ cs => cs.map fun c => ⟨depth, .constant c⟩
  | _ => []

/-- A type. -/
def typeDeclaration (depth : Nat) (t : TypeDeclaration) : List OutlineEntry :=
  annotations depth t.annotations ++ constants depth t.header ++ t.members.flatMap (member depth)

/-- A whole source text. -/
def unit (depth : Nat) (u : CompilationUnit) : List OutlineEntry :=
  ⟨depth, .unit u⟩ ::
    (u.package.toList.map (fun p => ⟨depth, .package p⟩) ++
      u.imports.map (fun i => ⟨depth, .import_ i⟩) ++ u.types.flatMap (typeDeclaration depth))

end Outline

end JavaTree
