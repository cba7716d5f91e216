import JavaTree.Syntax
import JavaTree.Text.Quoted

/-!
Full listings of trees.

A listing shows every field of every node on lines of its own, four spaces deeper for each level. It
goes through a small language of records, calls and lists, so that the layout is in one place.
-/

namespace JavaTree

/-- A part of a listing. -/
inductive Listing where
  | atom (text : String)
  /-- A name with one part in parentheses. -/
  | call (name : String) (part : Listing)
  /-- A name with named parts in braces. -/
  | record (name : String) (fields : List (String × Listing))
  | list (items : List Listing)

namespace Listing

/-- A new line at a level. -/
def newLine (level : Nat) : String := "\n" ++ String.join (List.replicate level "    ")

mutual

/-- The text of a part at a level. -/
def render (level : Nat) : Listing → String
  | atom text => text
  | call name part =>
    name ++ "(" ++ newLine (level + 1) ++ part.render (level + 1) ++ "," ++ newLine level ++ ")"
  | record name fields =>
    name ++ " \x7b" ++ renderFields (level + 1) fields ++ newLine level ++ "\x7d"
  | list items =>
    if items.isEmpty then "[]"
    else "[" ++ renderItems (level + 1) items ++ newLine level ++ "]"

/-- The named parts of a record, each on lines of its own. -/
def renderFields (level : Nat) : List (String × Listing) → String
  | [] => ""
  | (name, part) :: fields =>
    newLine level ++ name ++ ": " ++ part.render level ++ "," ++ renderFields level fields

/-- The items of a list, each on lines of its own. -/
def renderItems (level : Nat) : List Listing → String
  | [] => ""
  | item :: items => newLine level ++ item.render level ++ "," ++ renderItems level items

end

/-- A number. -/
def ofNat (n : Nat) : Listing := .atom (toString n)

/-- A truth value. -/
def ofBool (b : Bool) : Listing := .atom (if b then "true" else "false")

/-- A text. -/
def ofText (s : String) : Listing := .atom (Text.Quoted.render s)

/-- Something that may be absent. -/
def ofOption (f : α → Listing) : Option α → Listing
  | some a => .call "Some" (f a)
  | none => .atom "None"

/-- Things in a row. -/
def ofList (f : α → Listing) (as : List α) : Listing := .list (as.map f)

end Listing

/-! ### Places and tokens -/

/-- The listing of a location. -/
def Location.listing (l : Location) : Listing :=
  .record "Location" [("line", .ofNat l.line), ("column", .ofNat l.column),
    ("offset", .ofNat l.offset)]

/-- The listing of a span. -/
def Span.listing (s : Span) : Listing :=
  .record "Span" [("start", s.first.listing), ("end", s.last.listing)]

/-- The listing of a kind of token. -/
def Kind.listing (k : Kind) : Listing :=
  match k.value? with
  | some v => .call k.name (.ofText v)
  | none => .atom k.name

/-- The listing of a token. -/
def Token.listing (t : Token) : Listing :=
  .record "LexicalToken" [("token", t.kind.listing), ("lexeme", .ofText t.lexeme),
    ("location", t.location.listing)]

/-- The listing of an excerpt. -/
def Excerpt.listing (e : Excerpt) : Listing :=
  .record "TokenSpan" [("tokens", .ofList Token.listing e.tokens)]

/-- The listing of an excerpt that may be absent. -/
def Excerpt.listing? (e : Option Excerpt) : Listing := .ofOption Excerpt.listing e

/-! ### Parts of declarations -/

/-- The listing of a modifier. -/
def Modifier.listing (m : Modifier) : Listing := .atom m.text.capitalize

/-- The listing of an annotation. -/
def AnnotationUse.listing (a : AnnotationUse) : Listing :=
  .record "Annotation" [("name", .ofText a.name), ("arguments", Excerpt.listing? a.arguments),
    ("span", a.span.listing)]

/-- The listings of what stands before a declaration. -/
def qualifierListings (ms : List Modifier) (as : List AnnotationUse) : List (String × Listing) :=
  [("modifiers", .ofList Modifier.listing ms), ("annotations", .ofList AnnotationUse.listing as)]

/-- The listing of the use of a type. -/
def TypeUse.listing (t : TypeUse) : Listing :=
  .record "TypeRef" [("name", .ofText t.name), ("array_dims", .ofNat t.dimensions),
    ("span", t.span.listing)]

/-- The listing of a parameter. -/
def Parameter.listing (p : Parameter) : Listing :=
  .record "Parameter" [("annotations", .ofList AnnotationUse.listing p.annotations),
    ("is_final", .ofBool p.isFinal), ("type_ref", p.type.listing), ("name", .ofText p.name),
    ("varargs", .ofBool p.isVariadic), ("span", p.span.listing)]

/-- The listing of one variable. -/
def Declarator.listing (d : Declarator) : Listing :=
  .record "VariableDeclarator" [("name", .ofText d.name), ("array_dims", .ofNat d.dimensions),
    ("initializer", Excerpt.listing? d.initializer), ("span", d.span.listing)]

/-- The listing of a field. -/
def Field.listing (f : Field) : Listing :=
  .record "FieldDecl" (qualifierListings f.modifiers f.annotations ++
    [("type_ref", f.type.listing), ("name", .ofText f.name),
     ("initializer", Excerpt.listing? f.initializer), ("span", f.span.listing)])

/-- The listing of a label. -/
def CaseLabel.listing : CaseLabel → Listing
  | .value e => .call "Case" e.listing
  | .default => .atom "Default"

/-! ### Statements -/

/-- The listing of a jump. -/
def jumpListing (name record : String) (label : Option String) (span : Span) : Listing :=
  .call name (.record record [("label", .ofOption .ofText label), ("span", span.listing)])

mutual

/-- The listing of a statement. -/
def Statement.listing : Statement → Listing
  | .declaration type declared span =>
    .call "Declaration" (.record "VarDeclStmt" [("type_ref", type.listing),
      ("variables", .ofList Declarator.listing declared), ("span", span.listing)])
  | .expression e span =>
    .call "Expression" (.record "ExprStmt" [("expr", e.listing), ("span", span.listing)])
  | .return_ value span =>
    .call "Return" (.record "ReturnStmt" [("value", Excerpt.listing? value),
      ("span", span.listing)])
  | .if_ condition thenBranch elseBranch span =>
    .call "If" (.record "IfStmt" [("condition", condition.listing),
      ("then_branch", thenBranch.listing), ("else_branch", Statement.listing? elseBranch),
      ("span", span.listing)])
  | .for_ header body span =>
    .call "For" (.record "ForStmt" [("header", header.listing), ("body", body.listing),
      ("span", span.listing)])
  | .while_ condition body span =>
    .call "While" (.record "WhileStmt" [("condition", condition.listing), ("body", body.listing),
      ("span", span.listing)])
  | .doWhile body condition span =>
    .call "DoWhile" (.record "DoWhileStmt" [("body", body.listing),
      ("condition", condition.listing), ("span", span.listing)])
  | .try_ body catches finallyBlock span =>
    .call "Try" (.record "TryStmt" [("try_block", body.listing),
      ("catch_clauses", .list (CatchClause.listings catches)),
      ("finally_block", Block.listing? finallyBlock), ("span", span.listing)])
  | .field f => .call "Field" f.listing
  | .block b => .call "Block" b.listing
  | .break_ label span => jumpListing "Break" "BreakStmt" label span
  | .continue_ label span => jumpListing "Continue" "ContinueStmt" label span
  | .throw_ e span =>
    .call "Throw" (.record "ThrowStmt" [("expr", e.listing), ("span", span.listing)])
  | .switch selector cases span =>
    .call "Switch" (.record "SwitchStmt" [("selector", selector.listing),
      ("cases", .list (SwitchCase.listings cases)), ("span", span.listing)])
  | .synchronized lock body span =>
    .call "Synchronized" (.record "SynchronizedStmt" [("lock", lock.listing),
      ("body", body.listing), ("span", span.listing)])
  | .labeled label body span =>
    .call "Labeled" (.record "LabeledStmt" [("label", .ofText label), ("body", body.listing),
      ("span", span.listing)])
  | .assert condition message span =>
    .call "Assert" (.record "AssertStmt" [("condition", condition.listing),
      ("message", Excerpt.listing? message), ("span", span.listing)])

/-- The listing of a statement that may be absent. -/
def Statement.listing? : Option Statement → Listing
  | none => .atom "None"
  | some s => .call "Some" s.listing

/-- The listings of statements in a row. -/
def Statement.listings : List Statement → List Listing
  | [] => []
  | s :: ss => s.listing :: Statement.listings ss

/-- The listing of a block. -/
def Block.listing : Block → Listing
  | ⟨statements, span⟩ =>
    .record "Block" [("statements", .list (Statement.listings statements)), ("span", span.listing)]

/-- The listing of a block that may be absent. -/
def Block.listing? : Option Block → Listing
  | none => .atom "None"
  | some b => .call "Some" b.listing

/-- The listings of `catch` clauses. -/
def CatchClause.listings : List CatchClause → List Listing
  | [] => []
  | ⟨parameter, body, span⟩ :: cs =>
    .record "CatchClause" [("parameter", parameter.listing), ("body", body.listing),
      ("span", span.listing)] :: CatchClause.listings cs

/-- The listings of cases. -/
def SwitchCase.listings : List SwitchCase → List Listing
  | [] => []
  | ⟨labels, statements, span⟩ :: cs =>
    .record "SwitchCase" [("labels", .ofList CaseLabel.listing labels),
      ("statements", .list (Statement.listings statements)), ("span", span.listing)] ::
      SwitchCase.listings cs

end

/-! ### Members, types and units -/

/-- The listings of what a header says about parameters and exceptions. -/
def callableListings (parameters : List Parameter) (throws : List TypeUse) :
    List (String × Listing) :=
  [("parameters", .ofList Parameter.listing parameters), ("throws", .ofList TypeUse.listing throws)]

/-- The listing of a member. -/
def Member.listing : Member → Listing
  | .field f => .call "Field" f.listing
  | .method m =>
    .call "Method" (.record "MethodDecl" (qualifierListings m.modifiers m.annotations ++
      [("type_params", .ofOption .ofText m.typeParameters), ("return_type", m.returnType.listing),
       ("name", .ofText m.name)] ++ callableListings m.parameters m.throws ++
      [("body", Block.listing? m.body), ("span", m.span.listing)]))
  | .constructor c =>
    .call "Constructor" (.record "ConstructorDecl" (qualifierListings c.modifiers c.annotations ++
      [("type_params", .ofOption .ofText c.typeParameters), ("name", .ofText c.name)] ++
      callableListings c.parameters c.throws ++
      [("body", c.body.listing), ("span", c.span.listing)]))
  | .initializer i =>
    .call "Initializer" (.record "InitializerBlock" [("is_static", .ofBool i.isStatic),
      ("body", i.body.listing), ("span", i.span.listing)])

/-- The listing of a constant of an enum. -/
def EnumConstant.listing (c : EnumConstant) : Listing :=
  .record "EnumConstant" [("annotations", .ofList AnnotationUse.listing c.annotations),
    ("name", .ofText c.name), ("arguments", Excerpt.listing? c.arguments),
    ("span", c.span.listing)]

/-- The listing of a type. -/
def TypeDeclaration.listing (t : TypeDeclaration) : Listing :=
  let lead := qualifierListings t.modifiers t.annotations ++ [("name", .ofText t.name)]
  let tail := [("members", .ofList Member.listing t.members), ("span", t.span.listing)]
  let types (ts : List TypeUse) : Listing := .ofList TypeUse.listing ts
  match t.header with
  | .class_ params superclass interfaces =>
    .call "Class" (.record "ClassDecl" (lead ++ [("type_params", .ofOption .ofText params),
      ("extends", .ofOption TypeUse.listing superclass), ("implements", types interfaces)] ++ tail))
  | .interface_ params parents =>
    .call "Interface" (.record "InterfaceDecl" (lead ++
      [("type_params", .ofOption .ofText params), ("extends", types parents)] ++ tail))
  | .enum_ interfaces constants =>
    .call "Enum" (.record "EnumDecl" (lead ++ [("implements", types interfaces),
      ("constants", .ofList EnumConstant.listing constants)] ++ tail))

/-- The listing of a package clause. -/
def PackageClause.listing (p : PackageClause) : Listing :=
  .record "PackageDecl" [("name", .ofText p.name), ("span", p.span.listing)]

/-- The listing of an import. -/
def Import.listing (i : Import) : Listing :=
  .record "ImportDecl" [("name", .ofText i.name), ("is_static", .ofBool i.isStatic),
    ("is_wildcard", .ofBool i.isWildcard), ("span", i.span.listing)]

/-- The listing of a unit. -/
def CompilationUnit.listing (u : CompilationUnit) : Listing :=
  .record "CompilationUnit" [("package_decl", .ofOption PackageClause.listing u.package),
    ("imports", .ofList Import.listing u.imports),
    ("type_decls", .ofList TypeDeclaration.listing u.types), ("span", u.span.listing)]

end JavaTree
