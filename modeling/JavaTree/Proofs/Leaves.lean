import JavaTree.Syntax

/-!
What a tree keeps of the text that it was read from.

A tree keeps runs of tokens, its excerpts, and texts that were put together from tokens: the types that
are used in it, and its lists of type parameters. Both are leaves of the tree, in the order in which the tree
holds them, and each sort of them is what a filter keeps of the leaves.
-/

namespace JavaTree

/-- An excerpt in a tree, by what it is written for. -/
inductive Capture where
  /-- An expression, a condition, a header, a label, a catch parameter or a lock. -/
  | expression (e : Excerpt)
  /-- What stands between the parentheses of an annotation or of an enum constant. -/
  | arguments (e : Excerpt)

namespace Capture

/-- The excerpt itself. -/
def excerpt : Capture → Excerpt
  | expression e | arguments e => e

end Capture

/-- A text in a tree that was put together from the tokens of a type, or of a list of type parameters. -/
inductive StoredText where
  | use (t : TypeUse)
  | parameters (x : String)

namespace StoredText

/-- The text itself. -/
def text : StoredText → String
  | use t => t.render
  | parameters x => x

/-- True for the return type of a method that returns nothing. -/
def isVoid : StoredText → Bool
  | use t => t.isVoid
  | parameters _ => false

end StoredText

/-- What a tree keeps of a text: an excerpt, or the text of a type. -/
inductive Leaf where
  | capture (x : Capture)
  | typeText (x : StoredText)

namespace Leaf

/-- The excerpt that a leaf is. -/
def capture? : Leaf → Option Capture
  | capture x => some x
  | typeText _ => none

/-- The text of a type that a leaf is. -/
def typeText? : Leaf → Option StoredText
  | capture _ => none
  | typeText x => some x

/-- The leaf for something that is computed. -/
def expression (e : Excerpt) : Leaf := capture (.expression e)

/-- The leaf for the arguments of an annotation or of an enum constant. -/
def arguments (e : Excerpt) : Leaf := capture (.arguments e)

/-- The leaf for the use of a type. -/
def type (t : TypeUse) : Leaf := typeText (.use t)

/-- The leaf for a list of type parameters. -/
def parameters (x : String) : Leaf := typeText (.parameters x)

end Leaf

def AnnotationUse.leaves (a : AnnotationUse) : List Leaf := a.arguments.toList.map .arguments

def Parameter.leaves (p : Parameter) : List Leaf := p.annotations.flatMap (·.leaves) ++ [.type p.type]

def Declarator.leaves (d : Declarator) : List Leaf := d.initializer.toList.map .expression

def Field.leaves (f : Field) : List Leaf :=
  f.annotations.flatMap (·.leaves) ++ .type f.type :: f.initializer.toList.map .expression

def CaseLabel.leaves : CaseLabel → List Leaf
  | value e => [.expression e]
  | default => []

mutual

/-- The leaves of a statement and of all statements inside it. -/
def Statement.leaves : Statement → List Leaf
  | .declaration type declared _ => .type type :: declared.flatMap (·.leaves)
  | .expression e _ | .throw_ e _ => [.expression e]
  | .return_ value _ => value.toList.map .expression
  | .if_ condition thenBranch elseBranch _ =>
    .expression condition :: thenBranch.leaves ++ Statement.elseLeaves elseBranch
  | .for_ e body _ | .while_ e body _ | .doWhile body e _ => .expression e :: body.leaves
  | .try_ body catches finallyBlock _ =>
    body.leaves ++ CatchClause.allLeaves catches ++ Block.finallyLeaves finallyBlock
  | .field f => f.leaves
  | .block b => b.leaves
  | .break_ _ _ | .continue_ _ _ => []
  | .switch selector cases _ => .expression selector :: SwitchCase.allLeaves cases
  | .synchronized lock body _ => .expression lock :: body.leaves
  | .labeled _ body _ => body.leaves
  | .assert condition message _ => .expression condition :: message.toList.map .expression

def Statement.elseLeaves : Option Statement → List Leaf
  | none => []
  | some s => s.leaves

def Statement.allLeaves : List Statement → List Leaf
  | [] => []
  | s :: ss => s.leaves ++ Statement.allLeaves ss

def Block.leaves : Block → List Leaf
  | ⟨statements, _⟩ => Statement.allLeaves statements

def Block.finallyLeaves : Option Block → List Leaf
  | none => []
  | some b => b.leaves

def CatchClause.allLeaves : List CatchClause → List Leaf
  | [] => []
  | ⟨parameter, body, _⟩ :: cs => .expression parameter :: body.leaves ++ CatchClause.allLeaves cs

def SwitchCase.allLeaves : List SwitchCase → List Leaf
  | [] => []
  | ⟨labels, statements, _⟩ :: cs =>
    labels.flatMap (·.leaves) ++ Statement.allLeaves statements ++ SwitchCase.allLeaves cs

end

def Member.leaves : Member → List Leaf
  | field f => f.leaves
  | method m => m.annotations.flatMap (·.leaves) ++ m.typeParameters.toList.map .parameters ++
      .type m.returnType :: m.parameters.flatMap (·.leaves) ++ m.throws.map .type ++
      m.body.toList.flatMap (·.leaves)
  | constructor c => c.annotations.flatMap (·.leaves) ++ c.typeParameters.toList.map .parameters ++
      c.parameters.flatMap (·.leaves) ++ c.throws.map .type ++ c.body.leaves
  | initializer i => i.body.leaves

def EnumConstant.leaves (c : EnumConstant) : List Leaf :=
  c.annotations.flatMap (·.leaves) ++ c.arguments.toList.map .arguments

def TypeHeader.leaves : TypeHeader → List Leaf
  | class_ parameters superclass interfaces =>
    parameters.toList.map .parameters ++ superclass.toList.map .type ++ interfaces.map .type
  | interface_ parameters parents => parameters.toList.map .parameters ++ parents.map .type
  | enum_ interfaces constants => interfaces.map .type ++ constants.flatMap (·.leaves)

def TypeDeclaration.leaves (t : TypeDeclaration) : List Leaf :=
  t.annotations.flatMap (·.leaves) ++ t.header.leaves ++ t.members.flatMap (·.leaves)

namespace CompilationUnit

/-- All leaves of a tree. -/
def leaves (u : CompilationUnit) : List Leaf := u.types.flatMap (·.leaves)

/-- All excerpts of a tree. -/
def captures (u : CompilationUnit) : List Capture := u.leaves.filterMap Leaf.capture?

/-- All types that are used in a tree, and all of its lists of type parameters. -/
def typeTexts (u : CompilationUnit) : List StoredText := u.leaves.filterMap Leaf.typeText?

end CompilationUnit

theorem Statement.allLeaves_append (ss ss' : List Statement) :
    Statement.allLeaves (ss ++ ss') = Statement.allLeaves ss ++ Statement.allLeaves ss' := by
  induction ss with
  | nil => rfl
  | cons s ss ih => simp [Statement.allLeaves, ih]

end JavaTree
