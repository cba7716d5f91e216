import JavaTree.Parser.Declaration
import JavaTree.Printer
import JavaTree.Proofs.Alike

/-!
Trees without their places.

What is left of a tree, of a token or of a finding when its places are taken away is its `bare`. Two
trees are the same up to places when their bares are equal. The text that a tree is written as does
not depend on places, so it is the same for both.

    class A{int  x ;}        class A            both bare:   class A { int x; }
                             { int x; }                      every span empty
-/

namespace JavaTree

/-! ### Tokens and findings -/

def Token.bare (t : Token) : Token := ⟨t.kind, t.lexeme, .start⟩

@[simp] theorem Token.kind_bare (t : Token) : t.bare.kind = t.kind := by
  cases t
  rfl

@[simp] theorem Token.lexeme_bare (t : Token) : t.bare.lexeme = t.lexeme := by
  cases t
  rfl

theorem Token.bare_eq_iff {t u : Token} : t.bare = u.bare ↔ t.kind = u.kind ∧ t.lexeme = u.lexeme := by
  simp [Token.bare]

def Diagnostic.bare : Diagnostic → Diagnostic
  | unexpectedToken expected found _ => .unexpectedToken expected found .start
  | unexpectedEnd expected _ => .unexpectedEnd expected .start
  | lexical message _ => .lexical message .start
  | unsupported construct _ => .unsupported construct .start
  | limitExceeded what limit _ => .limitExceeded what limit .start
  | tooManyErrors count _ => .tooManyErrors count .start

/-! ### Parts -/

def Excerpt.bare (e : Excerpt) : Excerpt := ⟨e.tokens.map Token.bare⟩

def AnnotationUse.bare (a : AnnotationUse) : AnnotationUse :=
  ⟨a.name, a.arguments.map Excerpt.bare, .empty⟩

def TypeUse.bare (t : TypeUse) : TypeUse := ⟨t.name, t.dimensions, .empty⟩

def Parameter.bare (p : Parameter) : Parameter :=
  ⟨p.annotations.map AnnotationUse.bare, p.isFinal, p.type.bare, p.name, p.isVariadic, .empty⟩

def Declarator.bare (d : Declarator) : Declarator :=
  ⟨d.name, d.dimensions, d.initializer.map Excerpt.bare, .empty⟩

def Field.bare (f : Field) : Field :=
  ⟨f.modifiers, f.annotations.map AnnotationUse.bare, f.type.bare, f.name,
    f.initializer.map Excerpt.bare, .empty⟩

def CaseLabel.bare : CaseLabel → CaseLabel
  | value e => .value e.bare
  | default => .default

/-! ### Statements -/

mutual

def Statement.bare : Statement → Statement
  | .declaration type declared _ => .declaration type.bare (declared.map Declarator.bare) .empty
  | .expression e _ => .expression e.bare .empty
  | .return_ value _ => .return_ (value.map Excerpt.bare) .empty
  | .if_ condition thenBranch elseBranch _ =>
    .if_ condition.bare thenBranch.bare (Statement.bareElse elseBranch) .empty
  | .for_ header body _ => .for_ header.bare body.bare .empty
  | .while_ condition body _ => .while_ condition.bare body.bare .empty
  | .doWhile body condition _ => .doWhile body.bare condition.bare .empty
  | .try_ body catches finallyBlock _ =>
    .try_ body.bare (CatchClause.bareAll catches) (Block.bareFinally finallyBlock) .empty
  | .field f => .field f.bare
  | .block b => .block b.bare
  | .break_ label _ => .break_ label .empty
  | .continue_ label _ => .continue_ label .empty
  | .throw_ e _ => .throw_ e.bare .empty
  | .switch selector cases _ => .switch selector.bare (SwitchCase.bareAll cases) .empty
  | .synchronized lock body _ => .synchronized lock.bare body.bare .empty
  | .labeled label body _ => .labeled label body.bare .empty
  | .assert condition message _ => .assert condition.bare (message.map Excerpt.bare) .empty

def Statement.bareElse : Option Statement → Option Statement
  | none => none
  | some s => some s.bare

def Statement.bareAll : List Statement → List Statement
  | [] => []
  | s :: ss => s.bare :: Statement.bareAll ss

def Block.bare : Block → Block
  | ⟨statements, _⟩ => ⟨Statement.bareAll statements, .empty⟩

def Block.bareFinally : Option Block → Option Block
  | none => none
  | some b => some b.bare

def CatchClause.bareAll : List CatchClause → List CatchClause
  | [] => []
  | ⟨parameter, body, _⟩ :: cs => ⟨parameter.bare, body.bare, .empty⟩ :: CatchClause.bareAll cs

def SwitchCase.bareAll : List SwitchCase → List SwitchCase
  | [] => []
  | ⟨labels, statements, _⟩ :: cs =>
    ⟨labels.map CaseLabel.bare, Statement.bareAll statements, .empty⟩ :: SwitchCase.bareAll cs

end

def CatchClause.bare (c : CatchClause) : CatchClause := ⟨c.parameter.bare, c.body.bare, .empty⟩

def SwitchCase.bare (c : SwitchCase) : SwitchCase :=
  ⟨c.labels.map CaseLabel.bare, c.statements.map Statement.bare, .empty⟩

theorem Statement.bareElse_eq (e : Option Statement) : Statement.bareElse e = e.map Statement.bare := by
  cases e <;> rfl

theorem Statement.bareAll_eq (ss : List Statement) : Statement.bareAll ss = ss.map Statement.bare := by
  induction ss with
  | nil => rfl
  | cons s ss ih => rw [Statement.bareAll, ih, List.map_cons]

theorem Block.bareFinally_eq (b : Option Block) : Block.bareFinally b = b.map Block.bare := by
  cases b <;> rfl

theorem CatchClause.bareAll_eq (cs : List CatchClause) :
    CatchClause.bareAll cs = cs.map CatchClause.bare := by
  induction cs with
  | nil => rfl
  | cons c cs ih =>
    obtain ⟨parameter, body, span⟩ := c
    rw [CatchClause.bareAll, ih, List.map_cons, CatchClause.bare]

theorem SwitchCase.bareAll_eq (cs : List SwitchCase) : SwitchCase.bareAll cs = cs.map SwitchCase.bare := by
  induction cs with
  | nil => rfl
  | cons c cs ih =>
    obtain ⟨labels, statements, span⟩ := c
    rw [SwitchCase.bareAll, ih, List.map_cons, SwitchCase.bare, Statement.bareAll_eq]

/-! ### Members, types and units -/

def Method.bare (m : Method) : Method :=
  ⟨m.modifiers, m.annotations.map AnnotationUse.bare, m.typeParameters, m.returnType.bare, m.name,
    m.parameters.map Parameter.bare, m.throws.map TypeUse.bare, m.body.map Block.bare, .empty⟩

def Constructor.bare (c : Constructor) : Constructor :=
  ⟨c.modifiers, c.annotations.map AnnotationUse.bare, c.typeParameters, c.name,
    c.parameters.map Parameter.bare, c.throws.map TypeUse.bare, c.body.bare, .empty⟩

def Initializer.bare (i : Initializer) : Initializer := ⟨i.isStatic, i.body.bare, .empty⟩

def Member.bare : Member → Member
  | field f => .field f.bare
  | method m => .method m.bare
  | constructor c => .constructor c.bare
  | initializer i => .initializer i.bare

def EnumConstant.bare (c : EnumConstant) : EnumConstant :=
  ⟨c.annotations.map AnnotationUse.bare, c.name, c.arguments.map Excerpt.bare, .empty⟩

def TypeHeader.bare : TypeHeader → TypeHeader
  | class_ params superclass interfaces =>
    .class_ params (superclass.map TypeUse.bare) (interfaces.map TypeUse.bare)
  | interface_ params parents => .interface_ params (parents.map TypeUse.bare)
  | enum_ interfaces constants => .enum_ (interfaces.map TypeUse.bare) (constants.map EnumConstant.bare)

def TypeDeclaration.bare (t : TypeDeclaration) : TypeDeclaration :=
  ⟨t.modifiers, t.annotations.map AnnotationUse.bare, t.name, t.header.bare, t.members.map Member.bare,
    .empty⟩

def PackageClause.bare (p : PackageClause) : PackageClause := ⟨p.name, .empty⟩

def Import.bare (i : Import) : Import := ⟨i.name, i.isStatic, i.isWildcard, .empty⟩

def CompilationUnit.bare (u : CompilationUnit) : CompilationUnit :=
  ⟨u.package.map PackageClause.bare, u.imports.map Import.bare, u.types.map TypeDeclaration.bare, .empty⟩

/-! ### Writing -/

theorem alike_bare (ts : List Token) : Alike (ts.map Token.bare) ts := by
  rw [Alike, List.map_map]
  rfl

@[simp] theorem Excerpt.render_bare (e : Excerpt) : e.bare.render = e.render :=
  Spacing.render_congr (alike_bare e.tokens)

@[simp] theorem AnnotationUse.render_bare (a : AnnotationUse) : a.bare.render = a.render := by
  obtain ⟨name, _ | args, span⟩ := a
  · rfl
  · simp [AnnotationUse.bare, AnnotationUse.render]

@[simp] theorem AnnotationUse.lead_bare (as : List AnnotationUse) :
    AnnotationUse.lead (as.map AnnotationUse.bare) = AnnotationUse.lead as := by
  simp [AnnotationUse.lead, Function.comp_def]

@[simp] theorem AnnotationUse.lines_bare (as : List AnnotationUse) :
    AnnotationUse.lines (as.map AnnotationUse.bare) = AnnotationUse.lines as := by
  simp [AnnotationUse.lines]

@[simp] theorem TypeUse.render_bare (t : TypeUse) : t.bare.render = t.render := rfl

@[simp] theorem initializerText_bare (e : Option Excerpt) :
    initializerText (e.map Excerpt.bare) = initializerText e := by
  cases e <;> simp [initializerText]

@[simp] theorem Parameter.render_bare (p : Parameter) : p.bare.render = p.render := by
  simp only [Parameter.render, Parameter.bare, AnnotationUse.lead_bare, TypeUse.render_bare]
  rfl

@[simp] theorem EnumConstant.render_bare (c : EnumConstant) : c.bare.render = c.render := by
  obtain ⟨annotations, name, _ | args, span⟩ := c <;> simp [EnumConstant.bare, EnumConstant.render]

@[simp] theorem Declarator.render_bare (d : Declarator) : d.bare.render = d.render := by
  simp [Declarator.bare, Declarator.render]

@[simp] theorem Field.render_bare (f : Field) : f.bare.render = f.render := by
  simp [Field.bare, Field.render]

@[simp] theorem Field.annotations_bare (f : Field) :
    f.bare.annotations = f.annotations.map AnnotationUse.bare := rfl

@[simp] theorem CaseLabel.line_bare (l : CaseLabel) : l.bare.line = l.line := by
  cases l <;> simp [CaseLabel.bare, CaseLabel.line]

variable (style : BraceStyle)

mutual

theorem Statement.lines_bare : (s : Statement) → (place : Place) →
    s.bare.lines style place = s.lines style place
  | .declaration _ _ _, _ => by simp [Statement.bare, Statement.lines, Function.comp_def]
  | .expression _ _, _ | .throw_ _ _, _ => by simp [Statement.bare, Statement.lines]
  | .return_ _ _, _ => by simp [Statement.bare, Statement.lines, Function.comp_def]
  | .if_ _ s e _, place => by
    simp only [Statement.bare, Statement.lines, Excerpt.render_bare, s.lines_bare, Statement.elseLines_bare e]
  | .for_ _ s _, _ | .while_ _ s _, _ | .doWhile s _ _, _ | .labeled _ s _, _ => by
    simp only [Statement.bare, Statement.lines, Excerpt.render_bare, s.lines_bare]
  | .try_ b cs f _, _ => by
    simp only [Statement.bare, Statement.lines, b.lines_bare, CatchClause.allLines_bare cs,
      Block.finallyLines_bare f]
  | .field f, _ => by simp [Statement.bare, Statement.lines]
  | .block b, _ => by simp only [Statement.bare, Statement.lines, b.lines_bare]
  | .break_ _ _, _ | .continue_ _ _, _ => rfl
  | .switch _ cs _, _ => by
    simp only [Statement.bare, Statement.lines, Excerpt.render_bare, SwitchCase.allLines_bare cs]
  | .synchronized _ b _, _ => by
    simp only [Statement.bare, Statement.lines, Excerpt.render_bare, b.lines_bare]
  | .assert _ message _, _ => by cases message <;> simp [Statement.bare, Statement.lines]

theorem Statement.elseLines_bare : (e : Option Statement) →
    Statement.elseLines style (Statement.bareElse e) = Statement.elseLines style e
  | none => rfl
  | some s => by simp only [Statement.bareElse, Statement.elseLines, s.lines_bare]

theorem Statement.allLines_bare : (ss : List Statement) →
    Statement.allLines style (Statement.bareAll ss) = Statement.allLines style ss
  | [] => rfl
  | s :: ss => by
    simp only [Statement.bareAll, Statement.allLines, s.lines_bare, Statement.allLines_bare ss]

theorem Block.lines_bare : (b : Block) → b.bare.lines style = b.lines style
  | ⟨ss, _⟩ => by simp only [Block.bare, Block.lines, Statement.allLines_bare ss]

theorem Block.finallyLines_bare : (b : Option Block) →
    Block.finallyLines style (Block.bareFinally b) = Block.finallyLines style b
  | none => rfl
  | some b => by simp only [Block.bareFinally, Block.finallyLines, b.lines_bare]

theorem CatchClause.allLines_bare : (cs : List CatchClause) →
    CatchClause.allLines style (CatchClause.bareAll cs) = CatchClause.allLines style cs
  | [] => rfl
  | ⟨_, b, _⟩ :: cs => by
    simp only [CatchClause.bareAll, CatchClause.allLines, Excerpt.render_bare, b.lines_bare,
      CatchClause.allLines_bare cs]

theorem SwitchCase.allLines_bare : (cs : List SwitchCase) →
    SwitchCase.allLines style (SwitchCase.bareAll cs) = SwitchCase.allLines style cs
  | [] => rfl
  | ⟨labels, ss, _⟩ :: cs => by
    simp only [SwitchCase.bareAll, SwitchCase.allLines, List.map_map, Function.comp_def,
      CaseLabel.line_bare, Statement.allLines_bare ss, SwitchCase.allLines_bare cs]

end

@[simp] theorem Member.lines_bare (m : Member) : m.bare.lines style = m.lines style := by
  cases m with
  | field f => simp [Member.bare, Member.lines, Field.lines]
  | method m =>
    obtain ⟨_, _, _, _, _, _, _, body, _⟩ := m
    cases body <;>
      simp [Member.bare, Member.lines, Method.lines, Method.bare, Function.comp_def, Block.lines_bare]
  | constructor c =>
    simp [Member.bare, Member.lines, Constructor.lines, Constructor.bare, Function.comp_def,
      Block.lines_bare]
  | initializer i =>
    simp [Member.bare, Member.lines, Initializer.lines, Initializer.bare, Block.lines_bare]

@[simp] theorem Member.isField_bare (m : Member) : m.bare.isField = m.isField := by
  cases m <;> rfl

@[simp] theorem Member.allLines_bare (ms : List Member) :
    Member.allLines style (ms.map Member.bare) = Member.allLines style ms := by
  rw [Member.allLines, Member.allLines]
  induction ms with
  | nil => rfl
  | cons m ms ih =>
    cases ms with
    | nil => simp [spacedLines]
    | cons n ms =>
      simp only [List.map_cons, spacedLines, Member.lines_bare, Member.isField_bare] at ih ⊢
      rw [ih]

@[simp] theorem TypeDeclaration.lines_bare (t : TypeDeclaration) : t.bare.lines style = t.lines style := by
  obtain ⟨_, _, _, header, _, _⟩ := t
  cases header with
  | class_ params superclass interfaces =>
    cases superclass <;>
      simp [TypeDeclaration.lines, TypeDeclaration.bare, TypeHeader.bare, Function.comp_def]
  | interface_ | enum_ =>
    simp [TypeDeclaration.lines, TypeDeclaration.bare, TypeHeader.bare, Function.comp_def]

/-- The text of a unit does not depend on places. -/
theorem CompilationUnit.render_bare (layout : Layout) (u : CompilationUnit) :
    u.bare.render layout = u.render layout := by
  have hpackage : (u.package.map PackageClause.bare).map (fun p => packageLine p.name) =
      u.package.map fun p => packageLine p.name := by
    cases u.package <;> rfl
  have himports : (u.imports.map Import.bare).map Import.line = u.imports.map Import.line := by
    simp [Function.comp_def, Import.bare, Import.line]
  rw [CompilationUnit.render, CompilationUnit.render, CompilationUnit.lines, CompilationUnit.lines]
  simp only [CompilationUnit.bare, hpackage, himports, List.map_map, Function.comp_def,
    TypeDeclaration.lines_bare]

end JavaTree
