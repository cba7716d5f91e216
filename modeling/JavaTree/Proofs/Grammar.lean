import JavaTree.Printer
import JavaTree.Parser.Statement
import JavaTree.Proofs.Alike
import JavaTree.Proofs.Parser.Capture
import JavaTree.Proofs.Token.Generics

/-!
The words that trees are written with.

Each relation here says of a part of a tree which words it is written with, and under which
conditions these words stand for that part and for nothing else. Two things are shown of them
elsewhere: the text of a tree spells these words, and these words are read as that tree again, up to
the places in it.

Statements hold statements, so their words are given level by level, as they are read: `Inner` holds
the relations for one level further in, and `wordsAt` closes the circle by recursion on the number
of levels.
-/

namespace JavaTree

open JavaTree.Parser

/-! ### Lists and options -/

section Lists

variable {α : Type} (P : α → List Word → Prop)

/-- The words of things in a row. -/
inductive EachWords : List α → List Word → Prop
  | nil : EachWords [] []
  | cons {a : α} {as : List α} {ws vs : List Word} (ha : P a ws) (has : EachWords as vs) :
      EachWords (a :: as) (ws ++ vs)

/-- The words of at least one thing, with commas between them. -/
inductive CommaWords : List α → List Word → Prop
  | one {a : α} {ws : List Word} (ha : P a ws) : CommaWords [a] ws
  | cons {a : α} {as : List α} {ws vs : List Word} (ha : P a ws) (has : CommaWords as vs) :
      CommaWords (a :: as) (ws ++ .mark .comma :: vs)

/-- The words of something that may be missing. -/
inductive OptionWords : Option α → List Word → Prop
  | none : OptionWords none []
  | some {a : α} {ws : List Word} (ha : P a ws) : OptionWords (some a) ws

end Lists

theorem EachWords.append {α : Type} {P : α → List Word → Prop} {as bs : List α}
    {ws vs : List Word} (h : EachWords P as ws)
    (h' : EachWords P bs vs) : EachWords P (as ++ bs) (ws ++ vs) := by
  induction h with
  | nil => exact h'
  | cons ha _ ih =>
    rw [List.append_assoc]
    exact .cons ha ih

/-! ### Names and types -/

/-- The words of a name with dots. -/
inductive QualifiedWords : String → List Word → Prop
  | mk {x first : String} {further : List String} (hfirst : IsIdentifier first)
      (hfurther : ∀ n ∈ further, IsIdentifier n) (hx : x = ".".intercalate (first :: further)) :
      QualifiedWords x (.name first :: further.flatMap fun n => [.mark .dot, .name n])

/-- A part of a type's name: a name and the list of type arguments behind it, if there is one. -/
structure Segment where
  name : String
  list : Option (List Word)

namespace Segment

/-- The text of a part of a type's name. -/
def text (g : Segment) : String := g.name ++ (g.list.map (Angle.text none)).getD ""

/-- The words behind the name of a part of a type's name. -/
def listWords (g : Segment) : List Word := (g.list.map (Angle.fuse 0)).getD []

/-- The words of a part of a type's name. -/
def words (g : Segment) : List Word := .name g.name :: g.listWords

/-- A name, with a list of the given sort behind it or with none. -/
structure Holds (L : List Word → Prop) (g : Segment) : Prop where
  name : IsIdentifier g.name
  list : ∀ ws ∈ g.list, L ws

end Segment

/-- The words of the name of a type, with lists of the given sort. -/
inductive TypeNameWords (L : List Word → Prop) : String → List Word → Prop
  | primitive {x : String} (p : Primitive) (hx : x = p.text) :
      TypeNameWords L x [.keyword (.primitive p)]
  | named {x : String} {first : Segment} {further : List Segment} (hfirst : first.Holds L)
      (hfurther : ∀ g ∈ further, g.Holds L)
      (hx : x = first.text ++ String.join (further.map fun g => "." ++ g.text)) :
      TypeNameWords L x (first.words ++ further.flatMap fun g => .mark .dot :: g.words)

/-- Pairs of brackets. -/
def bracketWords : Nat → List Word
  | 0 => []
  | n + 1 => .mark .openBracket :: .mark .closeBracket :: bracketWords n

/-- The words of the use of a type, with lists of the given sort. -/
def TypeWords (L : List Word → Prop) (t : TypeUse) (ws : List Word) : Prop :=
  ∃ vs, TypeNameWords L t.name vs ∧ ws = vs ++ bracketWords t.dimensions

namespace TypeWords

variable {L L' : List Word → Prop} {t : TypeUse} {ws : List Word} {rereads : Prop}

theorem imp (h : TypeWords L t ws) (hL : ∀ l, L l → L' l) : TypeWords L' t ws := by
  obtain ⟨vs, hname, rfl⟩ := h
  refine ⟨vs, ?_, rfl⟩
  cases hname with
  | primitive p hx => exact .primitive p hx
  | named hfirst hfurther hx =>
    have hsegment (g : Segment) (hg : g.Holds L) : g.Holds L' := ⟨hg.name, fun l hl => hL l (hg.list l hl)⟩
    exact .named (hsegment _ hfirst) (fun g hg => hsegment g (hfurther g hg)) hx

theorem written (h : TypeWords (Angle.MayStand rereads) t ws) : TypeWords Angle.IsWritten t ws :=
  h.imp fun _ hl => hl.written

/-- The lists of a type that is to be read again hold nothing but types. -/
theorem lists (h : TypeWords (Angle.MayStand rereads) t ws) (hr : rereads) :
    TypeWords Angle.IsList t ws :=
  h.imp fun _ hl => hl.list hr

end TypeWords

section Rereads

/-! What stands in a declaration may be written without being read again: `rereads` says whether it is. -/

variable (rereads : Prop)

/-- The words of a return type. -/
inductive ReturnWords : TypeUse → List Word → Prop
  | void {t : TypeUse} (hname : t.name = "void") (hdim : t.dimensions = 0) :
      ReturnWords t [.keyword .void_]
  | type {t : TypeUse} {ws : List Word} (h : TypeWords (Angle.MayStand rereads) t ws) : ReturnWords t ws

/-- The words of a list of type parameters. -/
inductive ParametersWords : String → List Word → Prop
  | mk {x : String} {ws : List Word} (h : Angle.MayStand rereads ws) (hx : x = Angle.text none ws) :
      ParametersWords x (Angle.fuse 0 ws)

/-- The words of types behind a keyword, none if there are no types. -/
inductive ClauseWords (k : Keyword) : List TypeUse → List Word → Prop
  | nil : ClauseWords k [] []
  | some {ts : List TypeUse} {ws : List Word} (h : CommaWords (TypeWords (Angle.MayStand rereads)) ts ws) :
      ClauseWords k ts (.keyword k :: ws)

end Rereads

/-! ### Excerpts -/

/-- The words of an excerpt. -/
def Excerpt.words (e : Excerpt) : List Word := e.tokens.map Token.written

/-- An excerpt that a capture takes as a whole. -/
structure Captured (rule : CaptureRule) (e : Excerpt) : Prop where
  nonempty : e.tokens ≠ []
  balanced : Excerpt.openBrackets [] e.tokens = some []
  valid : ∀ t ∈ e.tokens, t.kind ≠ .invalid
  passes : ∀ after, kindOf after ≠ .mark .dot → PassesBy rule [] none e.tokens after

/-- What may be behind the text of an excerpt: a separator, or a colon unless it ends in one. -/
def Excerpt.Ends (e : Excerpt) (r : List Char) : Prop :=
  ∀ c ∈ r.head?, Pattern.isSeparator c = true ∨
    (c = ':' ∧ ∀ t ∈ e.tokens.getLast?, t.kind ≠ .mark .colon)

/-- An excerpt whose text spells its words. -/
def Excerpt.IsLegible (e : Excerpt) : Prop := Writes e.render e.words e.Ends

/-- An excerpt that is written and read as it is. -/
structure ExcerptWords (rule : CaptureRule) (e : Excerpt) (ws : List Word) : Prop where
  captured : Captured rule e
  legible : e.IsLegible
  words : ws = e.words

/-- What ends with a parenthesis. -/
def parenRule : CaptureRule := ⟨[Mark.closeParen], false⟩

/-- An expression up to one of the given marks. -/
def expressionRule (stops : List Kind) : CaptureRule := ⟨stops, true⟩

/-- The words of something between parentheses. -/
def ParenWords (e : Excerpt) (ws : List Word) : Prop :=
  ∃ vs, ExcerptWords parenRule e vs ∧ ws = .mark .openParen :: vs ++ [.mark .closeParen]

/-- The words of arguments between parentheses. -/
inductive ArgumentsWords : Excerpt → List Word → Prop
  | empty : ArgumentsWords ⟨[]⟩ [.mark .openParen, .mark .closeParen]
  | some {e : Excerpt} {ws : List Word} (h : ParenWords e ws) : ArgumentsWords e ws

/-- The first word of arguments is a parenthesis. -/
theorem ArgumentsWords.head {e : Excerpt} {ws : List Word} (h : ArgumentsWords e ws) :
    ∃ vs, ws = .mark .openParen :: vs := by
  cases h with
  | empty => exact ⟨_, rfl⟩
  | some h =>
    obtain ⟨vs, -, rfl⟩ := h
    exact ⟨_, rfl⟩

/-! ### Parts of declarations -/

/-- The words of an annotation. -/
def AnnotationWords (a : AnnotationUse) (ws : List Word) : Prop :=
  ∃ nw aw, QualifiedWords a.name nw ∧ OptionWords ArgumentsWords a.arguments aw ∧
    ws = .mark .atSign :: nw ++ aw

/-- The words of modifiers. -/
def modifierWords (ms : List Modifier) : List Word := ms.map fun m => .keyword (.modifier m)

/-- The words of what stands before a declaration: annotations first, then modifiers. -/
inductive QualifierWords : List AnnotationUse → List Modifier → List Word → Prop
  | mk {as : List AnnotationUse} {ms : List Modifier} {ws : List Word}
      (has : EachWords AnnotationWords as ws) (hms : ms.Nodup) :
      QualifierWords as ms (ws ++ modifierWords ms)

/-- The words of an initializer behind a name. -/
def InitializerWords (e : Excerpt) (ws : List Word) : Prop :=
  ∃ vs, ExcerptWords (expressionRule [Mark.comma, Mark.semicolon]) e vs ∧
    ws = .mark .assign :: vs

/-- The words of one variable of a declaration. -/
def DeclaratorWords (d : Declarator) (ws : List Word) : Prop :=
  ∃ iw, IsIdentifier d.name ∧ OptionWords InitializerWords d.initializer iw ∧
    ws = .name d.name :: bracketWords d.dimensions ++ iw

/-- The words of a field. -/
def FieldWords (rereads : Prop) (f : Field) (ws : List Word) : Prop :=
  ∃ qw tw iw, QualifierWords f.annotations f.modifiers qw ∧ TypeWords (Angle.MayStand rereads) f.type tw ∧
    IsIdentifier f.name ∧ OptionWords InitializerWords f.initializer iw ∧
    ws = qw ++ tw ++ .name f.name :: iw ++ [.mark .semicolon]

/-- The words of a parameter. -/
def ParameterWords (rereads : Prop) (p : Parameter) (ws : List Word) : Prop :=
  ∃ qw tw, QualifierWords p.annotations (if p.isFinal then [.final_] else []) qw ∧
    TypeWords (Angle.MayStand rereads) p.type tw ∧ IsIdentifier p.name ∧
    ws = qw ++ tw ++ (if p.isVariadic then [.mark .ellipsis] else []) ++ [.name p.name]

/-! ### Statements -/

/-- A statement that would take an `else` behind it for its own. -/
inductive Statement.EndsOpen : Statement → Prop
  | if_ {c : Excerpt} {t : Statement} {s : Span} : EndsOpen (.if_ c t none s)
  | else_ {c : Excerpt} {t e : Statement} {s : Span} (h : EndsOpen e) : EndsOpen (.if_ c t (some e) s)
  | for_ {c : Excerpt} {b : Statement} {s : Span} (h : EndsOpen b) : EndsOpen (.for_ c b s)
  | while_ {c : Excerpt} {b : Statement} {s : Span} (h : EndsOpen b) : EndsOpen (.while_ c b s)
  | labeled {l : String} {b : Statement} {s : Span} (h : EndsOpen b) : EndsOpen (.labeled l b s)

/-- Kinds of tokens that, with the one behind them, start a declaration of variables or an
expression. -/
def isPlainStart : Kind → Kind → Bool
  | .endOfInput, _ | .mark .openBrace, _ | .mark .semicolon, _ => false
  | .keyword .return_, _ | .keyword .if_, _ | .keyword .for_, _ | .keyword .while_, _
  | .keyword .do_, _ | .keyword .try_, _ | .keyword .switch_, _ | .keyword .throw_, _
  | .keyword .break_, _ | .keyword .continue_, _ | .keyword .assert_, _ => false
  | .keyword (.modifier .synchronized_), .mark .openParen => false
  | .identifier, .mark .colon => false
  | .keyword .class_, _ | .keyword .interface_, _ | .keyword .enum_, _ => false
  | .keyword .else_, _ | .keyword .catch_, _ | .keyword .finally_, _ | .keyword .case_, _
  | .keyword (.modifier .default_), _ => false
  | _, _ => true

/-- An expression that is read as one where a statement may stand. -/
structure ReadsPlain (e : Excerpt) : Prop where
  start : isPlainStart (kindOf e.tokens) (kindOf (e.tokens.drop 1 ++ [(Word.mark .semicolon).token]))
  noVariable : ∀ ts cap after, SameKinds ts e.tokens → ts.length ≤ cap →
    kindOf after = .mark .semicolon → looksLikeVariable cap (ts ++ after) = false

/-- The words of a label in a `switch`. -/
inductive LabelWords : CaseLabel → List Word → Prop
  | value {e : Excerpt} {ws : List Word} (h : ExcerptWords ⟨[Mark.colon, Mark.arrow], false⟩ e ws) :
      LabelWords (.value e) (.keyword .case_ :: ws ++ [.mark .colon])
  | default : LabelWords .default [.keyword (.modifier .default_), .mark .colon]

/-- The words of what an assertion says behind a colon. -/
def MessageWords (e : Excerpt) (ws : List Word) : Prop :=
  ∃ vs, ExcerptWords (expressionRule [Mark.semicolon]) e vs ∧ ws = .mark .colon :: vs

/-- The words of the statements one level further in: of a statement, of what stands between the
braces of a block, and of the statements of a case. -/
structure Inner where
  statement : Statement → List Word → Prop
  block : Block → List Word → Prop
  caseBody : List Statement → List Word → Prop
  /-- Whether the words are to be read again. A case whose statements start with an arrow is written
  like any other, but not read. -/
  rereads : Prop

namespace Inner

variable (inner : Inner)

/-- The words of a block. -/
def BracedWords (b : Block) (ws : List Word) : Prop :=
  ∃ vs, inner.block b vs ∧ ws = .mark .openBrace :: vs ++ [.mark .closeBrace]

/-- The words of a `catch` clause. -/
def CatchWords (c : CatchClause) (ws : List Word) : Prop :=
  ∃ pw bw, ParenWords c.parameter pw ∧ inner.BracedWords c.body bw ∧
    ws = .keyword .catch_ :: pw ++ bw

/-- The words of a `finally` block. -/
def FinallyWords (b : Block) (ws : List Word) : Prop :=
  ∃ bw, inner.BracedWords b bw ∧ ws = .keyword .finally_ :: bw

/-- The words of a case: at least one label, and statements that do not start with an arrow, if they
are to be read again. -/
def CaseWords (c : SwitchCase) (ws : List Word) : Prop :=
  ∃ lw bw, c.labels ≠ [] ∧ EachWords LabelWords c.labels lw ∧ inner.caseBody c.statements bw ∧
    (inner.rereads → ∀ w ∈ bw.head?, w.kind ≠ .mark .arrow) ∧ ws = lw ++ bw

/-- The words of a statement. -/
inductive StatementWords : Statement → List Word → Prop
  | declaration {t : TypeUse} {ds : List Declarator} {s : Span} {tw dw : List Word}
      (ht : TypeWords (Angle.MayStand inner.rereads) t tw) (hds : CommaWords DeclaratorWords ds dw) :
      StatementWords (.declaration t ds s) (tw ++ dw ++ [.mark .semicolon])
  | expression {e : Excerpt} {s : Span} {ws : List Word}
      (he : ExcerptWords (expressionRule [Mark.semicolon]) e ws) (hplain : ReadsPlain e) :
      StatementWords (.expression e s) (ws ++ [.mark .semicolon])
  | return_ {value : Option Excerpt} {s : Span} {ws : List Word}
      (h : OptionWords (ExcerptWords (expressionRule [Mark.semicolon])) value ws) :
      StatementWords (.return_ value s) (.keyword .return_ :: ws ++ [.mark .semicolon])
  | if_ {c : Excerpt} {t : Statement} {s : Span} {cw tw : List Word} (hc : ParenWords c cw)
      (ht : inner.statement t tw) :
      StatementWords (.if_ c t none s) (.keyword .if_ :: cw ++ tw)
  | ifElse {c : Excerpt} {t e : Statement} {s : Span} {cw tw ew : List Word} (hc : ParenWords c cw)
      (ht : inner.statement t tw) (hopen : ¬ t.EndsOpen) (he : inner.statement e ew) :
      StatementWords (.if_ c t (some e) s)
        (.keyword .if_ :: cw ++ tw ++ .keyword .else_ :: ew)
  | for_ {c : Excerpt} {b : Statement} {s : Span} {cw bw : List Word} (hc : ParenWords c cw)
      (hb : inner.statement b bw) : StatementWords (.for_ c b s) (.keyword .for_ :: cw ++ bw)
  | while_ {c : Excerpt} {b : Statement} {s : Span} {cw bw : List Word} (hc : ParenWords c cw)
      (hb : inner.statement b bw) : StatementWords (.while_ c b s) (.keyword .while_ :: cw ++ bw)
  | doWhile {c : Excerpt} {b : Statement} {s : Span} {cw bw : List Word} (hc : ParenWords c cw)
      (hb : inner.statement b bw) :
      StatementWords (.doWhile b c s)
        (.keyword .do_ :: bw ++ .keyword .while_ :: cw ++ [.mark .semicolon])
  | try_ {b : Block} {cs : List CatchClause} {f : Option Block} {s : Span} {bw cw fw : List Word}
      (hb : inner.BracedWords b bw) (hcs : EachWords inner.CatchWords cs cw)
      (hf : OptionWords inner.FinallyWords f fw) :
      StatementWords (.try_ b cs f s) (.keyword .try_ :: bw ++ cw ++ fw)
  | block {b : Block} {ws : List Word} (h : inner.BracedWords b ws) : StatementWords (.block b) ws
  | break_ {l : Option String} {s : Span} (hl : ∀ n ∈ l, IsIdentifier n) :
      StatementWords (.break_ l s)
        (.keyword .break_ :: l.toList.map .name ++ [.mark .semicolon])
  | continue_ {l : Option String} {s : Span} (hl : ∀ n ∈ l, IsIdentifier n) :
      StatementWords (.continue_ l s)
        (.keyword .continue_ :: l.toList.map .name ++ [.mark .semicolon])
  | throw_ {e : Excerpt} {s : Span} {ws : List Word}
      (he : ExcerptWords (expressionRule [Mark.semicolon]) e ws) :
      StatementWords (.throw_ e s) (.keyword .throw_ :: ws ++ [.mark .semicolon])
  | switch {e : Excerpt} {cs : List SwitchCase} {s : Span} {ew cw : List Word} (he : ParenWords e ew)
      (hcs : EachWords inner.CaseWords cs cw) :
      StatementWords (.switch e cs s)
        (.keyword .switch_ :: ew ++ .mark .openBrace :: cw ++ [.mark .closeBrace])
  | synchronized {e : Excerpt} {b : Block} {s : Span} {ew bw : List Word} (he : ParenWords e ew)
      (hb : inner.BracedWords b bw) :
      StatementWords (.synchronized e b s) (.keyword (.modifier .synchronized_) :: ew ++ bw)
  | labeled {l : String} {b : Statement} {s : Span} {bw : List Word} (hl : IsIdentifier l)
      (hb : inner.statement b bw) :
      StatementWords (.labeled l b s) (.name l :: .mark .colon :: bw)
  | assert {c : Excerpt} {m : Option Excerpt} {s : Span} {cw mw : List Word}
      (hc : ExcerptWords (expressionRule [Mark.colon, Mark.semicolon]) c cw)
      (hm : OptionWords MessageWords m mw) :
      StatementWords (.assert c m s) (.keyword .assert_ :: cw ++ mw ++ [.mark .semicolon])

/-- The words of a statement in a row, where a variable with modifiers or annotations may stand,
too. Such a variable does not start with `default`. -/
inductive RowStatementWords : Statement → List Word → Prop
  | statement {s : Statement} {ws : List Word} (h : inner.statement s ws) : RowStatementWords s ws
  | field {f : Field} {ws : List Word} (h : FieldWords inner.rereads f ws)
      (hlead : f.annotations ≠ [] ∨ ∃ m ∈ f.modifiers.head?, m ≠ .default_) :
      RowStatementWords (.field f) ws

/-- The words of statements in a row. -/
def RowWords (ss : List Statement) (ws : List Word) : Prop := EachWords inner.RowStatementWords ss ws

end Inner

/-- The words of statements with a number of levels inside them. -/
def wordsAt (rereads : Prop) : Nat → Inner
  | 0 => ⟨fun _ _ => False, fun _ _ => False, fun _ _ => False, rereads⟩
  | n + 1 => ⟨(wordsAt rereads n).StatementWords, fun b => (wordsAt rereads n).RowWords b.statements,
      (wordsAt rereads n).RowWords, rereads⟩

@[simp] theorem wordsAt_rereads (rereads : Prop) (n : Nat) : (wordsAt rereads n).rereads = rereads := by
  cases n <;> rfl

/-! ### Members -/

section Levels

variable (rereads : Prop) (n : Nat)

/-- The words of a body. -/
def BodyWords (b : Block) (ws : List Word) : Prop := (wordsAt rereads n).BracedWords b ws

/-- The words of parameters between parentheses. -/
inductive ParameterListWords : List Parameter → List Word → Prop
  | nil : ParameterListWords [] [.mark .openParen, .mark .closeParen]
  | some {ps : List Parameter} {ws : List Word} (h : CommaWords (ParameterWords rereads) ps ws) :
      ParameterListWords ps (.mark .openParen :: ws ++ [.mark .closeParen])

/-- The words of the body of a method, or of the semicolon in its place. -/
inductive MethodBodyWords : Option Block → List Word → Prop
  | none : MethodBodyWords none [.mark .semicolon]
  | some {b : Block} {ws : List Word} (h : BodyWords rereads n b ws) : MethodBodyWords (some b) ws

/-- The words of a method. -/
def MethodWords (m : Method) (ws : List Word) : Prop :=
  ∃ qw gw rw pw tw bw, QualifierWords m.annotations m.modifiers qw ∧
    OptionWords (ParametersWords rereads) m.typeParameters gw ∧ ReturnWords rereads m.returnType rw ∧
    IsIdentifier m.name ∧ ParameterListWords rereads m.parameters pw ∧
    ClauseWords rereads .throws_ m.throws tw ∧ MethodBodyWords rereads n m.body bw ∧
    ws = qw ++ gw ++ rw ++ .name m.name :: pw ++ tw ++ bw

/-- The words of a constructor. -/
def ConstructorWords (c : Constructor) (ws : List Word) : Prop :=
  ∃ qw gw pw tw bw, QualifierWords c.annotations c.modifiers qw ∧
    OptionWords (ParametersWords rereads) c.typeParameters gw ∧ IsIdentifier c.name ∧
    ParameterListWords rereads c.parameters pw ∧ ClauseWords rereads .throws_ c.throws tw ∧
    BodyWords rereads n c.body bw ∧
    ws = qw ++ gw ++ .name c.name :: pw ++ tw ++ bw

/-- The words of an initializer. -/
def InitializerBlockWords (i : Initializer) (ws : List Word) : Prop :=
  ∃ bw, BodyWords rereads n i.body bw ∧
    ws = (if i.isStatic then [.keyword (.modifier .static_)] else []) ++ bw

/-- The words of a member. -/
inductive MemberWords : Member → List Word → Prop
  | field {f : Field} {ws : List Word} (h : FieldWords rereads f ws) : MemberWords (.field f) ws
  | method {m : Method} {ws : List Word} (h : MethodWords rereads n m ws) : MemberWords (.method m) ws
  | constructor {c : Constructor} {ws : List Word} (h : ConstructorWords rereads n c ws) :
      MemberWords (.constructor c) ws
  | initializer {i : Initializer} {ws : List Word} (h : InitializerBlockWords rereads n i ws) :
      MemberWords (.initializer i) ws

/-! ### Types and units -/

/-- The words of a constant of an enum. -/
def ConstantWords (c : EnumConstant) (ws : List Word) : Prop :=
  ∃ nw aw, EachWords AnnotationWords c.annotations nw ∧ IsIdentifier c.name ∧
    OptionWords ArgumentsWords c.arguments aw ∧ ws = nw ++ .name c.name :: aw

/-- The words of the constants of an enum. -/
inductive ConstantsWords : List EnumConstant → List Word → Prop
  | nil : ConstantsWords [] []
  | some {cs : List EnumConstant} {ws : List Word} (h : CommaWords ConstantWords cs ws) :
      ConstantsWords cs ws

/-- The words of a type behind what stands before it. -/
inductive HeaderWords (name : String) (ms : List Member) : TypeHeader → List Word → Prop
  | class_ {g : Option String} {t : Option TypeUse} {is : List TypeUse} {gw ew iw mw : List Word}
      (hg : OptionWords (ParametersWords rereads) g gw) (ht : ClauseWords rereads .extends_ t.toList ew)
      (his : ClauseWords rereads .implements_ is iw) (hms : EachWords (MemberWords rereads n) ms mw) :
      HeaderWords name ms (.class_ g t is) (.keyword .class_ :: .name name :: gw ++ ew ++ iw ++
        .mark .openBrace :: mw ++ [.mark .closeBrace])
  | interface_ {g : Option String} {ts : List TypeUse} {gw ew mw : List Word}
      (hg : OptionWords (ParametersWords rereads) g gw) (hts : ClauseWords rereads .extends_ ts ew)
      (hms : EachWords (MemberWords rereads n) ms mw) :
      HeaderWords name ms (.interface_ g ts) (.keyword .interface_ :: .name name :: gw ++ ew ++
        .mark .openBrace :: mw ++ [.mark .closeBrace])
  | enum_ {is : List TypeUse} {cs : List EnumConstant} {iw cw mw : List Word}
      (his : ClauseWords rereads .implements_ is iw) (hcs : ConstantsWords cs cw)
      (hms : EachWords (MemberWords rereads n) ms mw) :
      HeaderWords name ms (.enum_ is cs) (.keyword .enum_ :: .name name :: iw ++
        .mark .openBrace :: cw ++ (if ms.isEmpty then [] else .mark .semicolon :: mw) ++
        [.mark .closeBrace])

/-- The words of a type. -/
def DeclarationWords (t : TypeDeclaration) (ws : List Word) : Prop :=
  ∃ qw hw, QualifierWords t.annotations t.modifiers qw ∧ IsIdentifier t.name ∧
    HeaderWords rereads n t.name t.members t.header hw ∧ ws = qw ++ hw

/-- The words of a package clause. -/
def PackageWords (p : PackageClause) (ws : List Word) : Prop :=
  ∃ nw, QualifiedWords p.name nw ∧ ws = .keyword .package_ :: nw ++ [.mark .semicolon]

/-- The words of an import. -/
def ImportWords (i : Import) (ws : List Word) : Prop :=
  ∃ nw, QualifiedWords i.name nw ∧
    ws = .keyword .import_ :: (if i.isStatic then [.keyword (.modifier .static_)] else []) ++ nw ++
      (if i.isWildcard then [.mark .dot, .mark .star] else []) ++ [.mark .semicolon]

/-- The words of a source text. -/
def UnitWords (u : CompilationUnit) (ws : List Word) : Prop :=
  ∃ pw iw tw, OptionWords PackageWords u.package pw ∧ EachWords ImportWords u.imports iw ∧
    EachWords (DeclarationWords rereads n) u.types tw ∧ ws = pw ++ iw ++ tw

end Levels

end JavaTree
