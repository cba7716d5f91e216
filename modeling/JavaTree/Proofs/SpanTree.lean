import JavaTree.Syntax

/-!
The spans of a tree.

A `SpanTree` is what is left of a node when only the spans are kept: its own span, and the nodes in it
in rows. A row holds nodes of one sort in the order of the tree, such as the members of a type or the
statements of a block. In a tree that `Nests`, every span reaches from a token of the text to a token
that is not before it, the nodes in a node lie inside of it, and the nodes of a row follow each other.

    class A { int x, y; void f() { } }
    ├─────────────────────────────────   the type
              ├───────┤                  two fields of one declaration
                        ├────────────    a method, and its block
-/

namespace JavaTree

/-- A span starts and ends inside of another one. -/
def Span.IsInside (a b : Span) : Prop := b.first ≤ a.first ∧ a.last ≤ b.last

/-- The span of a node, whether it is a field, and the nodes in it. -/
inductive SpanTree where
  | node (span : Span) (isField : Bool) (rows : List (List SpanTree))

namespace SpanTree

def span : SpanTree → Span
  | node span _ _ => span

def isField : SpanTree → Bool
  | node _ isField _ => isField

/-- The first node ends before the second one starts, or both are fields of one declaration. -/
def Before (a b : SpanTree) : Prop :=
  a.span.last < b.span.first ∨ (a.isField = true ∧ b.isField = true ∧ a.span = b.span)

/-- A token stands at a place. -/
def IsPlace (ts : List Token) (l : Location) : Prop := ∃ t ∈ ts, t.location = l

/-- All spans reach from a token to one that is not before it, lie inside of the span around them, and
follow each other in their rows. -/
inductive Nests (ts : List Token) : SpanTree → Prop
  | node {span : Span} {isField : Bool} {rows : List (List SpanTree)} (first : IsPlace ts span.first)
      (last : IsPlace ts span.last) (ordered : span.first ≤ span.last)
      (inside : ∀ row ∈ rows, ∀ t ∈ row, t.span.IsInside span)
      (inOrder : ∀ row ∈ rows, row.Pairwise Before) (nested : ∀ row ∈ rows, ∀ t ∈ row, Nests ts t) :
      Nests ts (.node span isField rows)

end SpanTree

/-! ### The spans of a tree -/

/-- The span of an excerpt, if it is not empty. -/
def Excerpt.spans (e : Excerpt) : List SpanTree :=
  if e.tokens = [] then [] else [.node e.span false []]

def AnnotationUse.spans (a : AnnotationUse) : SpanTree :=
  .node a.span false [a.arguments.toList.flatMap (·.spans)]

def TypeUse.spans (t : TypeUse) : SpanTree := .node t.span false []

def Parameter.spans (p : Parameter) : SpanTree :=
  .node p.span false [p.annotations.map (·.spans), [p.type.spans]]

def Declarator.spans (d : Declarator) : SpanTree :=
  .node d.span false [d.initializer.toList.flatMap (·.spans)]

def Field.spans (f : Field) : SpanTree :=
  .node f.span true [f.annotations.map (·.spans), [f.type.spans], f.initializer.toList.flatMap (·.spans)]

def CaseLabel.spans : CaseLabel → List SpanTree
  | value e => e.spans
  | default => []

mutual

/-- A statement and the nodes in it. -/
def Statement.spans : Statement → SpanTree
  | .declaration type declared span => .node span false [[type.spans], declared.map (·.spans)]
  | .expression e span | .throw_ e span => .node span false [e.spans]
  | .return_ value span => .node span false [value.toList.flatMap (·.spans)]
  | .if_ condition thenBranch elseBranch span =>
    .node span false [condition.spans, [thenBranch.spans], Statement.elseSpans elseBranch]
  | .for_ e body span | .while_ e body span | .doWhile body e span =>
    .node span false [e.spans, [body.spans]]
  | .try_ body catches finallyBlock span =>
    .node span false [[body.spans], CatchClause.allSpans catches, Block.finallySpans finallyBlock]
  | .field f => f.spans
  | .block b => .node b.spans.span false [[b.spans]]
  | .break_ _ span | .continue_ _ span => .node span false []
  | .switch selector cases span => .node span false [selector.spans, SwitchCase.allSpans cases]
  | .synchronized lock body span => .node span false [lock.spans, [body.spans]]
  | .labeled _ body span => .node span false [[body.spans]]
  | .assert condition message span =>
    .node span false [condition.spans, message.toList.flatMap (·.spans)]

def Statement.elseSpans : Option Statement → List SpanTree
  | none => []
  | some s => [s.spans]

def Statement.allSpans : List Statement → List SpanTree
  | [] => []
  | s :: ss => s.spans :: Statement.allSpans ss

def Block.spans : Block → SpanTree
  | ⟨statements, span⟩ => .node span false [Statement.allSpans statements]

def Block.finallySpans : Option Block → List SpanTree
  | none => []
  | some b => [b.spans]

def CatchClause.allSpans : List CatchClause → List SpanTree
  | [] => []
  | ⟨parameter, body, span⟩ :: cs =>
    .node span false [parameter.spans, [body.spans]] :: CatchClause.allSpans cs

def SwitchCase.allSpans : List SwitchCase → List SpanTree
  | [] => []
  | ⟨labels, statements, span⟩ :: cs =>
    .node span false [labels.flatMap (·.spans), Statement.allSpans statements] ::
      SwitchCase.allSpans cs

end

def Method.spans (m : Method) : SpanTree :=
  .node m.span false [m.annotations.map (·.spans), [m.returnType.spans], m.parameters.map (·.spans),
    m.throws.map (·.spans), m.body.toList.map (·.spans)]

def Constructor.spans (c : Constructor) : SpanTree :=
  .node c.span false [c.annotations.map (·.spans), c.parameters.map (·.spans), c.throws.map (·.spans),
    [c.body.spans]]

def Initializer.spans (i : Initializer) : SpanTree := .node i.span false [[i.body.spans]]

/-- A member and the nodes in it. -/
def Member.spans : Member → SpanTree
  | field f => f.spans
  | method m => m.spans
  | constructor c => c.spans
  | initializer i => i.spans

def EnumConstant.spans (c : EnumConstant) : SpanTree :=
  .node c.span false [c.annotations.map (·.spans), c.arguments.toList.flatMap (·.spans)]

/-- The rows of nodes in the header of a type. -/
def TypeHeader.spans : TypeHeader → List (List SpanTree)
  | class_ _ superclass interfaces =>
    [superclass.toList.map (·.spans), interfaces.map (·.spans)]
  | interface_ _ parents => [parents.map (·.spans)]
  | enum_ interfaces constants => [interfaces.map (·.spans), constants.map (·.spans)]

/-- The declaration of a type and the nodes in it. -/
def TypeDeclaration.spans (t : TypeDeclaration) : SpanTree :=
  .node t.span false (t.annotations.map (·.spans) :: t.header.spans ++ [t.members.map (·.spans)])

theorem Statement.allSpans_eq_map (ss : List Statement) : Statement.allSpans ss = ss.map (·.spans) := by
  induction ss with
  | nil => rfl
  | cons s ss ih => rw [Statement.allSpans, ih, List.map_cons]

end JavaTree
