import JavaTree.Page
import JavaTree.Syntax
import JavaTree.Token.Spacing

/-!
From the tree back to source text.

Parts of a line are written as text; declarations and statements are written as lines. How a body
is written depends on where it stands: a block shares its braces with the header before it, and
anything else goes on a line of its own one level further in.
-/

namespace JavaTree

/-! ### Parts of a line -/

/-- Texts with commas between them. -/
def commaList (texts : List String) : String := ", ".intercalate texts

/-- A word and a list behind it, or nothing if the list is empty. -/
def clause (word : String) (texts : List String) : String :=
  if texts.isEmpty then "" else " " ++ word ++ " " ++ commaList texts

/-- An excerpt as source text. -/
def Excerpt.render (e : Excerpt) : String := Spacing.render e.tokens

/-- An annotation as source text. -/
def AnnotationUse.render (a : AnnotationUse) : String :=
  match a.arguments with
  | some args => "@" ++ a.name ++ "(" ++ args.render ++ ")"
  | none => "@" ++ a.name

/-- Annotations, each followed by a space. -/
def AnnotationUse.lead (as : List AnnotationUse) : String :=
  String.join (as.map fun a => a.render ++ " ")

/-- The text of an initializer behind a name. -/
def initializerText (e : Option Excerpt) : String :=
  match e with
  | some e => " = " ++ e.render
  | none => ""

/-- A parameter as source text. -/
def Parameter.render (p : Parameter) : String :=
  AnnotationUse.lead p.annotations ++ (if p.isFinal then "final " else "") ++ p.type.render ++
    (if p.isVariadic then "..." else "") ++ " " ++ p.name

/-- A constant of an enum as source text. -/
def EnumConstant.render (c : EnumConstant) : String :=
  AnnotationUse.lead c.annotations ++ c.name ++
    match c.arguments with
    | some args => "(" ++ args.render ++ ")"
    | none => ""

/-- One variable of a declaration as source text. -/
def Declarator.render (d : Declarator) : String :=
  d.name ++ String.join (List.replicate d.dimensions "[]") ++ initializerText d.initializer

/-- A field without its annotations and its semicolon. -/
def Field.render (f : Field) : String :=
  Modifier.lead f.modifiers ++ f.type.render ++ " " ++ f.name ++ initializerText f.initializer

/-- The text of an import. -/
def importText (name : String) (isStatic isWildcard : Bool) : String :=
  "import " ++ (if isStatic then "static " else "") ++ name ++
    (if isWildcard then ".*" else "") ++ ";"

/-- The header of a type. -/
def typeHeader (word : String) (modifiers : List Modifier) (name : String)
    (typeParameters : Option String) (parents interfaces : List String) : String :=
  Modifier.lead modifiers ++ word ++ " " ++ name ++ typeParameters.getD "" ++
    clause "extends" parents ++ clause "implements" interfaces

/-- The header of a method, or of a constructor if there is no return type. -/
def callableHeader (modifiers : List Modifier) (typeParameters returnType : Option String)
    (name : String) (parameters throws : List String) : String :=
  let spaced : Option String → String
    | some s => s ++ " "
    | none => ""
  Modifier.lead modifiers ++ spaced typeParameters ++ spaced returnType ++ name ++ "(" ++
    commaList parameters ++ ")" ++ clause "throws" throws

/-! ### Statements -/

/-- Where a statement stands. -/
inductive Place where
  /-- In a row of statements. -/
  | row
  /-- Behind a header, as its body. -/
  | body (header : String)
  /-- Behind the body of an `if`. -/
  | orElse

namespace Place

/-- The header in front of a block. -/
def header : Place → String
  | row => ""
  | body h => h
  | orElse => "else"

/-- The lines of a statement that is no block, put where it stands. -/
def hold (p : Place) (own : List Line) : List Line :=
  match p with
  | row => own
  | body h => .plain h :: Line.indentAll own
  | orElse => .plain "else" :: Line.indentAll own

end Place

/-- The line of a keyword that may have something behind it. -/
def wordLine (word : String) (operand : Option String) : Line :=
  match operand with
  | some s => .plain (word ++ " " ++ s ++ ";")
  | none => .plain (word ++ ";")

/-- The line of a label in a `switch`. -/
def CaseLabel.line : CaseLabel → Line
  | value e => .plain ("case " ++ e.render ++ ":")
  | default => .plain "default:"

mutual

/-- The lines of a statement. An `if` behind `else` shares its line. -/
def Statement.lines (style : BraceStyle) (place : Place) : Statement → List Line
  | .declaration type declared _ =>
    place.hold [.plain (type.render ++ " " ++ commaList (declared.map (·.render)) ++ ";")]
  | .expression e _ => place.hold [.plain (e.render ++ ";")]
  | .return_ value _ => place.hold [wordLine "return" (value.map (·.render))]
  | .if_ condition thenBranch elseBranch _ =>
    let head := "if (" ++ condition.render ++ ")"
    let chain (lead : String) :=
      thenBranch.lines style (.body (lead ++ head)) ++ Statement.elseLines style elseBranch
    match place with
    | .orElse => chain "else "
    | _ => place.hold (chain "")
  | .for_ header body _ =>
    place.hold (body.lines style (.body ("for (" ++ header.render ++ ")")))
  | .while_ condition body _ =>
    place.hold (body.lines style (.body ("while (" ++ condition.render ++ ")")))
  | .doWhile body condition _ =>
    place.hold (body.lines style (.body "do") ++
      Line.joinFirst [.plain ("while (" ++ condition.render ++ ");")])
  | .try_ body catches finallyBlock _ =>
    place.hold (Line.braced style "try" (body.lines style) ++
      CatchClause.allLines style catches ++ Block.finallyLines style finallyBlock)
  | .field f => place.hold [.plain (AnnotationUse.lead f.annotations ++ f.render ++ ";")]
  | .block b => Line.braced style place.header (b.lines style)
  | .break_ label _ => place.hold [wordLine "break" label]
  | .continue_ label _ => place.hold [wordLine "continue" label]
  | .throw_ e _ => place.hold [wordLine "throw" (some e.render)]
  | .switch selector cases _ =>
    place.hold (Line.braced style ("switch (" ++ selector.render ++ ")")
      (SwitchCase.allLines style cases))
  | .synchronized lock body _ =>
    place.hold (Line.braced style ("synchronized (" ++ lock.render ++ ")") (body.lines style))
  | .labeled label body _ => place.hold (.plain (label ++ ":") :: body.lines style .row)
  | .assert condition message _ =>
    place.hold [wordLine "assert" (some (condition.render ++
      match message with
      | some m => " : " ++ m.render
      | none => ""))]

/-- The lines of an `else` branch. -/
def Statement.elseLines (style : BraceStyle) : Option Statement → List Line
  | none => []
  | some s => Line.joinFirst (s.lines style .orElse)

/-- The lines of statements in a row. -/
def Statement.allLines (style : BraceStyle) : List Statement → List Line
  | [] => []
  | s :: ss => s.lines style .row ++ Statement.allLines style ss

/-- The lines between the braces of a block. -/
def Block.lines (style : BraceStyle) : Block → List Line
  | ⟨statements, _⟩ => Statement.allLines style statements

/-- The lines of a `finally` block. -/
def Block.finallyLines (style : BraceStyle) : Option Block → List Line
  | none => []
  | some b => Line.joinFirst (Line.braced style "finally" (b.lines style))

/-- The lines of `catch` clauses. -/
def CatchClause.allLines (style : BraceStyle) : List CatchClause → List Line
  | [] => []
  | ⟨parameter, body, _⟩ :: cs =>
    Line.joinFirst (Line.braced style ("catch (" ++ parameter.render ++ ")") (body.lines style)) ++
      CatchClause.allLines style cs

/-- The lines of the cases of a `switch`. -/
def SwitchCase.allLines (style : BraceStyle) : List SwitchCase → List Line
  | [] => []
  | ⟨labels, statements, _⟩ :: cs =>
    labels.map (·.line) ++ Line.indentAll (Statement.allLines style statements) ++
      SwitchCase.allLines style cs

end

/-! ### Members -/

/-- Each annotation on a line. -/
def AnnotationUse.lines (as : List AnnotationUse) : List Line := as.map fun a => .plain a.render

/-- The lines of a field. -/
def Field.lines (f : Field) : List Line :=
  AnnotationUse.lines f.annotations ++ [.plain (f.render ++ ";")]

/-- The lines of a method. -/
def Method.lines (style : BraceStyle) (m : Method) : List Line :=
  let header := callableHeader m.modifiers m.typeParameters (some m.returnType.render) m.name
    (m.parameters.map (·.render)) (m.throws.map (·.render))
  AnnotationUse.lines m.annotations ++
    match m.body with
    | some b => Line.braced style header (b.lines style)
    | none => [.plain (header ++ ";")]

/-- The lines of a constructor. -/
def Constructor.lines (style : BraceStyle) (c : Constructor) : List Line :=
  let header := callableHeader c.modifiers c.typeParameters none c.name
    (c.parameters.map (·.render)) (c.throws.map (·.render))
  AnnotationUse.lines c.annotations ++ Line.braced style header (c.body.lines style)

/-- The lines of an initializer. -/
def Initializer.lines (style : BraceStyle) (i : Initializer) : List Line :=
  Line.braced style (if i.isStatic then "static" else "") (i.body.lines style)

/-- The lines of a member. -/
def Member.lines (style : BraceStyle) : Member → List Line
  | .field f => f.lines
  | .method m => m.lines style
  | .constructor c => c.lines style
  | .initializer i => i.lines style

/-- The lines of things in a row, with a blank line between two of them unless both are fields. -/
def spacedLines (isField : α → Bool) (lines : α → List Line) : List α → List Line
  | [] => []
  | [a] => lines a
  | a :: b :: rest =>
    lines a ++ (if isField a && isField b then [] else [.blank]) ++
      spacedLines isField lines (b :: rest)

/-- The lines of the members of a type. -/
def Member.allLines (style : BraceStyle) (ms : List Member) : List Line :=
  spacedLines Member.isField (Member.lines style) ms

/-! ### Types and units -/

/-- The constants of an enum, one on each line, with `last` behind the last one. -/
def constantLines (last : String) : List String → List Line
  | [] => []
  | [c] => [.plain (c ++ last)]
  | c :: cs => .plain (c ++ ",") :: constantLines last cs

/-- The constants of an enum, and its members behind a semicolon. -/
def enumLines (constants : List String) (members : List Line) (hasMembers : Bool) : List Line :=
  if hasMembers then
    (if constants.isEmpty then [.plain ";"] else constantLines ";" constants) ++ .blank :: members
  else
    constantLines "" constants

/-- The lines of a type. -/
def TypeDeclaration.lines (style : BraceStyle) (t : TypeDeclaration) : List Line :=
  let members := Member.allLines style t.members
  let texts (ts : List TypeUse) := ts.map (·.render)
  AnnotationUse.lines t.annotations ++
    match t.header with
    | .class_ params superclass interfaces =>
      Line.braced style
        (typeHeader "class" t.modifiers t.name params (texts superclass.toList) (texts interfaces))
        members
    | .interface_ params parents =>
      Line.braced style (typeHeader "interface" t.modifiers t.name params (texts parents) []) members
    | .enum_ interfaces constants =>
      Line.braced style (typeHeader "enum" t.modifiers t.name none [] (texts interfaces))
        (enumLines (constants.map (·.render)) members !t.members.isEmpty)

/-- The line of a package clause. -/
def packageLine (name : String) : Line := .plain ("package " ++ name ++ ";")

/-- The line of an import. -/
def Import.line (i : Import) : Line := .plain (importText i.name i.isStatic i.isWildcard)

/-- The sections of a source text, with blank lines between them. -/
def unitLines (package : Option Line) (imports : List Line) (types : List (List Line)) :
    List Line :=
  Line.separated (package.toList.map ([·]) ++ (if imports.isEmpty then [] else [imports]) ++ types)

/-- The lines of a unit. -/
def CompilationUnit.lines (style : BraceStyle) (u : CompilationUnit) : List Line :=
  unitLines (u.package.map fun p => packageLine p.name) (u.imports.map (·.line))
    (u.types.map (·.lines style))

/-- A unit as source text. -/
def CompilationUnit.render (layout : Layout) (u : CompilationUnit) : String :=
  Page.render layout (u.lines layout.braceStyle)

end JavaTree
