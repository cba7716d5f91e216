import JavaTree.Proofs.Grammar
import JavaTree.Proofs.Token.Spacing

/-!
The passages that trees are read from.

A tree is written in one way, and is read from many texts. Qualifiers come in any order and may be
repeated, one declaration holds several fields, brackets stand behind a name, a semicolon stands
alone. Each relation here says from which passages of a text a part of a tree is read when nothing
about them is reported.

Not all words of a passage reach the tree. What stands before an initializer and the type parameters
before a field are read and dropped; a `Passage` keeps account of them, and of the lists of type
arguments and type parameters in it, which reach the tree as texts.
-/

namespace JavaTree

open JavaTree.Parser

/-! ### Stretches of words -/

namespace Angle

/-- The list of type arguments that starts with the first word, if that is an opening bracket. -/
def list? : List Word → Option (List Word)
  | [] => none
  | w :: ws => if w.kind = .mark .less then upToClosing 0 (w :: ws) else none

/-- All stretches of words that can be lists of type arguments. -/
def candidates : List Word → List (List Word)
  | [] => []
  | w :: ws => (list? (w :: ws)).toList ++ candidates ws

theorem upToClosing_append {depth : Int} {ws l : List Word} (h : upToClosing depth ws = some l)
    (vs : List Word) : upToClosing depth (ws ++ vs) = some l := by
  induction ws generalizing depth l with
  | nil => cases h
  | cons w ws ih =>
    rw [upToClosing] at h
    rw [List.cons_append, upToClosing]
    split at h
    · next hd => rw [if_pos hd, h]
    · next hd =>
      obtain ⟨l', hl', rfl⟩ := Option.map_eq_some_iff.mp h
      rw [if_neg hd, ih hl', Option.map_some]

theorem mem_candidates_left {ws l : List Word} (h : l ∈ candidates ws) (vs : List Word) :
    l ∈ candidates (ws ++ vs) := by
  induction ws with
  | nil => cases h
  | cons w ws ih =>
    refine List.mem_append.mpr ((List.mem_append.mp h).imp (fun h => ?_) ih)
    rw [Option.mem_toList, list?] at h ⊢
    split at h
    · next hk =>
      rw [if_pos hk]
      exact upToClosing_append h vs
    · cases h

theorem mem_candidates_right {vs l : List Word} (h : l ∈ candidates vs) (ws : List Word) :
    l ∈ candidates (ws ++ vs) := by
  induction ws with
  | nil => exact h
  | cons w ws ih => exact List.mem_append_right _ ih

theorem prefix_of_upToClosing {depth : Int} {ws l : List Word} (h : upToClosing depth ws = some l) :
    l <+: ws := by
  induction ws generalizing depth l with
  | nil => cases h
  | cons w ws ih =>
    rw [upToClosing] at h
    split at h
    · cases h
      exact List.prefix_append [w] ws
    · obtain ⟨l', hl', rfl⟩ := Option.map_eq_some_iff.mp h
      exact List.cons_prefix_cons.mpr ⟨rfl, ih hl'⟩

/-- A stretch that can be a list is a part of the words. -/
theorem infix_of_mem_candidates {ws l : List Word} (h : l ∈ candidates ws) : l <:+: ws := by
  induction ws with
  | nil => cases h
  | cons w ws ih =>
    rw [candidates, List.mem_append, Option.mem_toList] at h
    obtain h | h := h
    · rw [list?] at h
      split at h
      · exact (prefix_of_upToClosing h).isInfix
      · cases h
    · exact (ih h).trans (List.suffix_cons w ws).isInfix

/-- A stretch that can be a list starts with a bracket. -/
theorem opens_of_mem_candidates {ws l : List Word} (h : l ∈ candidates ws) :
    ∃ v vs, l = v :: vs ∧ v.kind = .mark .less := by
  induction ws with
  | nil => cases h
  | cons w ws ih =>
    rw [candidates, List.mem_append, Option.mem_toList] at h
    obtain h | h := h
    · rw [list?] at h
      split at h
      · next hk =>
        rw [upToClosing] at h
        split at h
        · cases h
          exact ⟨w, [], rfl, hk⟩
        · obtain ⟨vs, -, rfl⟩ := Option.map_eq_some_iff.mp h
          exact ⟨w, vs, rfl, hk⟩
      · cases h
    · exact ih h

theorem mem_candidates_self {l : List Word} (h : list? l = some l) : l ∈ candidates l := by
  rcases l with _ | ⟨w, ws⟩
  · cases h
  · refine List.mem_append_left _ ?_
    rw [h]
    exact List.mem_cons_self

end Angle

/-- A stretch of a source text. -/
structure Passage where
  /-- The words of it. -/
  words : List Word
  /-- The lists of type arguments and type parameters in it. -/
  lists : List (List Word)
  /-- The words of it that leave nothing in the tree. -/
  left : List Word
  within : ∀ l ∈ lists, l ∈ Angle.candidates words

namespace Passage

/-- Words without lists, all of which count. -/
def plain (ws : List Word) : Passage := ⟨ws, [], [], nofun⟩

/-- The words of a list. -/
def ofList (ws : List Word) (h : Angle.list? ws = some ws) : Passage :=
  ⟨ws, [ws], [], fun l hl => by
    rw [List.mem_singleton.mp hl]
    exact Angle.mem_candidates_self h⟩

instance : Append Passage :=
  ⟨fun p q => ⟨p.words ++ q.words, p.lists ++ q.lists, p.left ++ q.left, fun l hl =>
    (List.mem_append.mp hl).elim (fun hl => Angle.mem_candidates_left (p.within l hl) _)
      fun hl => Angle.mem_candidates_right (q.within l hl) _⟩⟩

@[simp] theorem words_ofList (ws : List Word) (h : Angle.list? ws = some ws) :
    (ofList ws h).words = ws := rfl

@[simp] theorem words_plain (ws : List Word) : (plain ws).words = ws := rfl

@[simp] theorem lists_plain (ws : List Word) : (plain ws).lists = [] := rfl

@[simp] theorem left_plain (ws : List Word) : (plain ws).left = [] := rfl

@[simp] theorem words_append (p q : Passage) : (p ++ q).words = p.words ++ q.words := rfl

@[simp] theorem lists_append (p q : Passage) : (p ++ q).lists = p.lists ++ q.lists := rfl

@[simp] theorem left_append (p q : Passage) : (p ++ q).left = p.left ++ q.left := rfl

/-- A passage of which nothing reaches the tree. -/
def dropped (p : Passage) : Passage := ⟨p.words, p.lists, p.words, p.within⟩

@[simp] theorem words_dropped (p : Passage) : p.dropped.words = p.words := rfl

@[simp] theorem lists_dropped (p : Passage) : p.dropped.lists = p.lists := rfl

@[simp] theorem left_dropped (p : Passage) : p.dropped.left = p.words := rfl

end Passage

/-! ### Lists and options -/

section Lists

variable {α : Type} (P : α → Passage → Prop)

/-- The passages of things in a row. -/
inductive EachFrom : List α → Passage → Prop
  | nil : EachFrom [] (.plain [])
  | cons {a : α} {as : List α} {p q : Passage} (ha : P a p) (has : EachFrom as q) :
      EachFrom (a :: as) (p ++ q)

/-- The passages of at least one thing, with commas between them. -/
inductive CommaFrom : List α → Passage → Prop
  | one {a : α} {p : Passage} (ha : P a p) : CommaFrom [a] p
  | cons {a : α} {as : List α} {p q : Passage} (ha : P a p) (has : CommaFrom as q) :
      CommaFrom (a :: as) (p ++ .plain [.mark .comma] ++ q)

/-- The passages of something that may be missing. -/
inductive OptionFrom : Option α → Passage → Prop
  | none : OptionFrom none (.plain [])
  | some {a : α} {p : Passage} (ha : P a p) : OptionFrom (some a) p

end Lists

/-! ### Types -/

/-- The passages of a list of type arguments or type parameters. -/
inductive ListFrom : String → Passage → Prop
  | mk {ts : List Token} (hts : ∀ t ∈ ts, t.IsReadable ∧ endsAngle t.kind = false)
      (hlist : Angle.list? (ts.map Token.written) = some (ts.map Token.written)) :
      ListFrom (typeText none ts) (.ofList (ts.map Token.written) hlist)

/-- The passages of the rest of a type's name, after what is known of it. -/
inductive TypeRestFrom : String → String → Passage → Prop
  | done {known : String} {list : Option String} {p : Passage} (hlist : OptionFrom ListFrom list p) :
      TypeRestFrom known (known ++ list.getD "") p
  | dot {known x name : String} {list : Option String} {p q : Passage}
      (hlist : OptionFrom ListFrom list p) (hx : IsIdentifier x)
      (hrest : TypeRestFrom (known ++ list.getD "" ++ "." ++ x) name q) :
      TypeRestFrom known name (p ++ .plain [.mark .dot, .name x] ++ q)

/-- The passages of the name of a type. -/
inductive TypeNameFrom : String → Passage → Prop
  | primitive (p : Primitive) : TypeNameFrom p.text (.plain [.keyword (.primitive p)])
  | named {x name : String} {p : Passage} (hx : IsIdentifier x) (h : TypeRestFrom x name p) :
      TypeNameFrom name (.plain [.name x] ++ p)

/-- The passages of the use of a type. -/
def TypeFrom (t : TypeUse) (p : Passage) : Prop :=
  ∃ q, TypeNameFrom t.name q ∧ p = q ++ .plain (bracketWords t.dimensions)

/-- The passages of a return type. -/
inductive ReturnFrom : TypeUse → Passage → Prop
  | void {s : Span} : ReturnFrom (.void s) (.plain [.keyword .void_])
  | type {t : TypeUse} {p : Passage} (h : TypeFrom t p) : ReturnFrom t p

/-- The passages of types behind a keyword, none if there are no types. -/
inductive ClauseFrom (k : Keyword) : List TypeUse → Passage → Prop
  | nil : ClauseFrom k [] (.plain [])
  | some {ts : List TypeUse} {p : Passage} (h : CommaFrom TypeFrom ts p) :
      ClauseFrom k ts (.plain [.keyword k] ++ p)

/-! ### Excerpts -/

/-- The words of an excerpt as it stands in a text. -/
structure ExcerptFrom (rule : CaptureRule) (e : Excerpt) (ws : List Word) : Prop where
  captured : Captured rule e
  readable : ∀ t ∈ e.tokens, t.IsReadable
  words : ws = e.words

/-- The words of something between parentheses. -/
def ParenFrom (e : Excerpt) (ws : List Word) : Prop :=
  ∃ vs, ExcerptFrom parenRule e vs ∧ ws = .mark .openParen :: vs ++ [.mark .closeParen]

/-- The words of arguments between parentheses. -/
inductive ArgumentsFrom : Excerpt → List Word → Prop
  | empty : ArgumentsFrom ⟨[]⟩ [.mark .openParen, .mark .closeParen]
  | some {e : Excerpt} {ws : List Word} (h : ParenFrom e ws) : ArgumentsFrom e ws

/-! ### Parts of declarations -/

/-- The words of an annotation. -/
def AnnotationFrom (a : AnnotationUse) (ws : List Word) : Prop :=
  ∃ nw aw, QualifiedWords a.name nw ∧ OptionWords ArgumentsFrom a.arguments aw ∧
    ws = .mark .atSign :: nw ++ aw

/-- The words of annotations and modifiers in any order, behind those that have been found. -/
inductive QualifiersFrom : Qualifiers → Qualifiers → List Word → Prop
  | done {q : Qualifiers} : QualifiersFrom q q []
  | annotation {found q : Qualifiers} {a : AnnotationUse} {aw ws : List Word}
      (ha : AnnotationFrom a aw)
      (h : QualifiersFrom { found with annotations := found.annotations ++ [a] } q ws) :
      QualifiersFrom found q (aw ++ ws)
  | modifier {found q : Qualifiers} {m : Modifier} {ws : List Word}
      (h : QualifiersFrom { found with
        modifiers := if m ∈ found.modifiers then found.modifiers else found.modifiers ++ [m] } q ws) :
      QualifiersFrom found q (.keyword (.modifier m) :: ws)

/-- The words of an initializer behind a name. -/
def InitializerFrom (e : Excerpt) (ws : List Word) : Prop :=
  ∃ vs, ExcerptFrom (expressionRule [Mark.comma, Mark.semicolon]) e vs ∧ ws = .mark .assign :: vs

/-- The words of one variable of a declaration. -/
def DeclaratorFrom (d : Declarator) (ws : List Word) : Prop :=
  ∃ iw, IsIdentifier d.name ∧ OptionWords InitializerFrom d.initializer iw ∧
    ws = .name d.name :: bracketWords d.dimensions ++ iw

/-- The passages of the fields of one declaration, behind their qualifiers. -/
inductive FieldsFrom (q : Qualifiers) : List Field → Passage → Prop
  | mk {t : TypeUse} {ds : List Declarator} {span : Span} {p : Passage} {dw : List Word}
      (ht : TypeFrom t p) (hds : CommaWords DeclaratorFrom ds dw) :
      FieldsFrom q
        (ds.map fun v => ⟨q.modifiers, q.annotations,
          { t with dimensions := t.dimensions + v.dimensions }, v.name, v.initializer, span⟩)
        (p ++ .plain (dw ++ [.mark .semicolon]))

/-- The passages of a parameter. -/
inductive ParameterFrom : Parameter → Passage → Prop
  | mk {q : Qualifiers} {qw : List Word} {t : TypeUse} {p : Passage} {isVariadic : Bool}
      {x : String} {n : Nat} {span : Span} (hq : QualifiersFrom ⟨[], []⟩ q qw) (ht : TypeFrom t p)
      (hx : IsIdentifier x) :
      ParameterFrom ⟨q.annotations, q.modifiers.contains .final_,
          { t with dimensions := t.dimensions + n }, x, isVariadic, span⟩
        (.plain qw ++ p ++
          .plain ((if isVariadic then [.mark .ellipsis] else []) ++ .name x :: bracketWords n))

/-! ### Statements -/

/-- The words of a label in a `switch`. -/
inductive LabelFrom : CaseLabel → List Word → Prop
  | value {e : Excerpt} {ws : List Word} (h : ExcerptFrom ⟨[Mark.colon, Mark.arrow], false⟩ e ws) :
      LabelFrom (.value e) (.keyword .case_ :: ws ++ [.mark .colon])
  | default : LabelFrom .default [.keyword (.modifier .default_), .mark .colon]

/-- The words of what an assertion says behind a colon. -/
def MessageFrom (e : Excerpt) (ws : List Word) : Prop :=
  ∃ vs, ExcerptFrom (expressionRule [Mark.semicolon]) e vs ∧ ws = .mark .colon :: vs

/-- The passages of the statements one level further in: of a statement, of what stands between the
braces of a block, and of the statements of a case. -/
structure Within where
  statement : Statement → Passage → Prop
  block : Block → Passage → Prop
  caseBody : List Statement → Passage → Prop

namespace Within

variable (within : Within)

/-- The passages of a block. -/
def BracedFrom (b : Block) (p : Passage) : Prop :=
  ∃ q, within.block b q ∧ p = .plain [.mark .openBrace] ++ q ++ .plain [.mark .closeBrace]

/-- The passages of a `catch` clause. -/
def CatchFrom (c : CatchClause) (p : Passage) : Prop :=
  ∃ ew bp, ParenFrom c.parameter ew ∧ within.BracedFrom c.body bp ∧
    p = .plain (.keyword .catch_ :: ew) ++ bp

/-- The passages of a `finally` block. -/
def FinallyFrom (b : Block) (p : Passage) : Prop :=
  ∃ bp, within.BracedFrom b bp ∧ p = .plain [.keyword .finally_] ++ bp

/-- The passages of a case: at least one label, and what does not start with an arrow. -/
def CaseFrom (c : SwitchCase) (p : Passage) : Prop :=
  ∃ lw bp, c.labels ≠ [] ∧ EachWords LabelFrom c.labels lw ∧ within.caseBody c.statements bp ∧
    (∀ w ∈ bp.words.head?, w.kind ≠ .mark .arrow) ∧ p = .plain lw ++ bp

/-- The passages of a statement. A semicolon that stands for one is read as a block without
statements. -/
inductive StatementFrom : Statement → Passage → Prop
  | empty {s : Span} : StatementFrom (.block ⟨[], s⟩) (.plain [.mark .semicolon])
  | declaration {t : TypeUse} {ds : List Declarator} {s : Span} {p : Passage} {dw : List Word}
      (ht : TypeFrom t p) (hds : CommaWords DeclaratorFrom ds dw) :
      StatementFrom (.declaration t ds s) (p ++ .plain (dw ++ [.mark .semicolon]))
  | expression {e : Excerpt} {s : Span} {ws : List Word}
      (he : ExcerptFrom (expressionRule [Mark.semicolon]) e ws) (hplain : ReadsPlain e) :
      StatementFrom (.expression e s) (.plain (ws ++ [.mark .semicolon]))
  | return_ {value : Option Excerpt} {s : Span} {ws : List Word}
      (h : OptionWords (ExcerptFrom (expressionRule [Mark.semicolon])) value ws) :
      StatementFrom (.return_ value s) (.plain (.keyword .return_ :: ws ++ [.mark .semicolon]))
  | if_ {c : Excerpt} {t : Statement} {s : Span} {cw : List Word} {p : Passage}
      (hc : ParenFrom c cw) (ht : within.statement t p) :
      StatementFrom (.if_ c t none s) (.plain (.keyword .if_ :: cw) ++ p)
  | ifElse {c : Excerpt} {t e : Statement} {s : Span} {cw : List Word} {p q : Passage}
      (hc : ParenFrom c cw) (ht : within.statement t p) (hopen : ¬ t.EndsOpen)
      (he : within.statement e q) :
      StatementFrom (.if_ c t (some e) s)
        (.plain (.keyword .if_ :: cw) ++ p ++ .plain [.keyword .else_] ++ q)
  | for_ {c : Excerpt} {b : Statement} {s : Span} {cw : List Word} {p : Passage}
      (hc : ParenFrom c cw) (hb : within.statement b p) :
      StatementFrom (.for_ c b s) (.plain (.keyword .for_ :: cw) ++ p)
  | while_ {c : Excerpt} {b : Statement} {s : Span} {cw : List Word} {p : Passage}
      (hc : ParenFrom c cw) (hb : within.statement b p) :
      StatementFrom (.while_ c b s) (.plain (.keyword .while_ :: cw) ++ p)
  | doWhile {c : Excerpt} {b : Statement} {s : Span} {cw : List Word} {p : Passage}
      (hc : ParenFrom c cw) (hb : within.statement b p) :
      StatementFrom (.doWhile b c s)
        (.plain [.keyword .do_] ++ p ++ .plain (.keyword .while_ :: cw ++ [.mark .semicolon]))
  | try_ {b : Block} {cs : List CatchClause} {f : Option Block} {s : Span} {bp cp fp : Passage}
      (hb : within.BracedFrom b bp) (hcs : EachFrom within.CatchFrom cs cp)
      (hf : OptionFrom within.FinallyFrom f fp) :
      StatementFrom (.try_ b cs f s) (.plain [.keyword .try_] ++ bp ++ cp ++ fp)
  | block {b : Block} {p : Passage} (h : within.BracedFrom b p) : StatementFrom (.block b) p
  | break_ {l : Option String} {s : Span} (hl : ∀ n ∈ l, IsIdentifier n) :
      StatementFrom (.break_ l s)
        (.plain (.keyword .break_ :: l.toList.map .name ++ [.mark .semicolon]))
  | continue_ {l : Option String} {s : Span} (hl : ∀ n ∈ l, IsIdentifier n) :
      StatementFrom (.continue_ l s)
        (.plain (.keyword .continue_ :: l.toList.map .name ++ [.mark .semicolon]))
  | throw_ {e : Excerpt} {s : Span} {ws : List Word}
      (he : ExcerptFrom (expressionRule [Mark.semicolon]) e ws) :
      StatementFrom (.throw_ e s) (.plain (.keyword .throw_ :: ws ++ [.mark .semicolon]))
  | switch {e : Excerpt} {cs : List SwitchCase} {s : Span} {ew : List Word} {p : Passage}
      (he : ParenFrom e ew) (hcs : EachFrom within.CaseFrom cs p) :
      StatementFrom (.switch e cs s)
        (.plain (.keyword .switch_ :: ew ++ [.mark .openBrace]) ++ p ++ .plain [.mark .closeBrace])
  | synchronized {e : Excerpt} {b : Block} {s : Span} {ew : List Word} {p : Passage}
      (he : ParenFrom e ew) (hb : within.BracedFrom b p) :
      StatementFrom (.synchronized e b s) (.plain (.keyword (.modifier .synchronized_) :: ew) ++ p)
  | labeled {l : String} {b : Statement} {s : Span} {p : Passage} (hl : IsIdentifier l)
      (hb : within.statement b p) :
      StatementFrom (.labeled l b s) (.plain [.name l, .mark .colon] ++ p)
  | assert {c : Excerpt} {m : Option Excerpt} {s : Span} {cw mw : List Word}
      (hc : ExcerptFrom (expressionRule [Mark.colon, Mark.semicolon]) c cw)
      (hm : OptionWords MessageFrom m mw) :
      StatementFrom (.assert c m s) (.plain (.keyword .assert_ :: cw ++ mw ++ [.mark .semicolon]))

/-- True where a variable with annotations or modifiers may start in a row of statements. -/
def startsModified : Kind → Bool
  | .mark .atSign => true
  | .keyword (.modifier m) => m ≠ .default_
  | _ => false

/-- The passages of statements in a row, where variables with modifiers or annotations and lone
semicolons may stand, too. -/
inductive RowFrom : List Statement → Passage → Prop
  | nil : RowFrom [] (.plain [])
  | empty {ss : List Statement} {p : Passage} (h : RowFrom ss p) :
      RowFrom ss (.plain [.mark .semicolon] ++ p)
  | statement {s : Statement} {ss : List Statement} {p q : Passage} (hs : within.statement s p)
      (h : RowFrom ss q) : RowFrom (s :: ss) (p ++ q)
  | fields {quals : Qualifiers} {fs : List Field} {ss : List Statement} {qw : List Word}
      {p q : Passage} (hq : QualifiersFrom ⟨[], []⟩ quals qw) (hf : FieldsFrom quals fs p)
      (hlead : ∃ w ∈ qw.head?, startsModified w.kind = true) (h : RowFrom ss q) :
      RowFrom (fs.map .field ++ ss) (.plain qw ++ p ++ q)

end Within

/-- The passages of statements with a number of levels inside them. -/
def passagesAt : Nat → Within
  | 0 => ⟨fun _ _ => False, fun _ _ => False, fun _ _ => False⟩
  | n + 1 => ⟨(passagesAt n).StatementFrom, fun b => (passagesAt n).RowFrom b.statements,
      (passagesAt n).RowFrom⟩

/-! ### Members -/

section Levels

variable (n : Nat)

/-- The passages of a body. -/
def BodyFrom (b : Block) (p : Passage) : Prop := (passagesAt n).BracedFrom b p

/-- The passages of parameters between parentheses. -/
inductive ParameterListFrom : List Parameter → Passage → Prop
  | nil : ParameterListFrom [] (.plain [.mark .openParen, .mark .closeParen])
  | some {ps : List Parameter} {p : Passage} (h : CommaFrom ParameterFrom ps p) :
      ParameterListFrom ps (.plain [.mark .openParen] ++ p ++ .plain [.mark .closeParen])

/-- The passages of the body of a method, or of the semicolon in its place. -/
inductive MethodBodyFrom : Option Block → Passage → Prop
  | none : MethodBodyFrom none (.plain [.mark .semicolon])
  | some {b : Block} {p : Passage} (h : BodyFrom n b p) : MethodBodyFrom (some b) p

/-- The passages of a method behind its qualifiers and type parameters. -/
def MethodFrom (m : Method) (p : Passage) : Prop :=
  ∃ rp pp tp bp, ReturnFrom m.returnType rp ∧ IsIdentifier m.name ∧
    ParameterListFrom m.parameters pp ∧ ClauseFrom .throws_ m.throws tp ∧
    MethodBodyFrom n m.body bp ∧ p = rp ++ .plain [.name m.name] ++ pp ++ tp ++ bp

/-- The passages of a constructor behind its qualifiers and type parameters. -/
def ConstructorFrom (c : Constructor) (p : Passage) : Prop :=
  ∃ pp tp bp, IsIdentifier c.name ∧ ParameterListFrom c.parameters pp ∧
    ClauseFrom .throws_ c.throws tp ∧ BodyFrom n c.body bp ∧
    p = .plain [.name c.name] ++ pp ++ tp ++ bp

/-- The passages of one declaration in a type, and what it contributes. What stands before an
initializer and the type parameters before a field are dropped. -/
inductive MemberFrom : List Member → Passage → Prop
  | initializer {q : Qualifiers} {b : Block} {s : Span} {qw : List Word} {p : Passage}
      (hq : QualifiersFrom ⟨[], []⟩ q qw) (hb : BodyFrom n b p) :
      MemberFrom [.initializer ⟨q.modifiers.contains .static_, b, s⟩]
        ((Passage.plain qw).dropped ++ p)
  | fields {q : Qualifiers} {g : Option String} {fs : List Field} {qw : List Word}
      {gp p : Passage} (hq : QualifiersFrom ⟨[], []⟩ q qw) (hg : OptionFrom ListFrom g gp)
      (hf : FieldsFrom q fs p) :
      MemberFrom (fs.map .field) (.plain qw ++ gp.dropped ++ p)
  | method {m : Method} {qw : List Word} {gp p : Passage}
      (hq : QualifiersFrom ⟨[], []⟩ ⟨m.annotations, m.modifiers⟩ qw)
      (hg : OptionFrom ListFrom m.typeParameters gp) (hm : MethodFrom n m p) :
      MemberFrom [.method m] (.plain qw ++ gp ++ p)
  | constructor {c : Constructor} {qw : List Word} {gp p : Passage}
      (hq : QualifiersFrom ⟨[], []⟩ ⟨c.annotations, c.modifiers⟩ qw)
      (hg : OptionFrom ListFrom c.typeParameters gp) (hc : ConstructorFrom n c p) :
      MemberFrom [.constructor c] (.plain qw ++ gp ++ p)

/-- The passages of the members of a type, with lone semicolons between them. -/
inductive MembersFrom : List Member → Passage → Prop
  | nil : MembersFrom [] (.plain [])
  | empty {ms : List Member} {p : Passage} (h : MembersFrom ms p) :
      MembersFrom ms (.plain [.mark .semicolon] ++ p)
  | cons {found ms : List Member} {p q : Passage} (hm : MemberFrom n found p)
      (h : MembersFrom ms q) : MembersFrom (found ++ ms) (p ++ q)

/-! ### Types and units -/

/-- The words of a constant of an enum. -/
def ConstantFrom (c : EnumConstant) (ws : List Word) : Prop :=
  ∃ nw aw, EachWords AnnotationFrom c.annotations nw ∧ IsIdentifier c.name ∧
    OptionWords ArgumentsFrom c.arguments aw ∧ ws = nw ++ .name c.name :: aw

/-- The words of the constants of an enum, where a comma may stand behind the last one. -/
inductive ConstantsFrom : List EnumConstant → List Word → Prop
  | nil : ConstantsFrom [] []
  | last {c : EnumConstant} {ws : List Word} (hc : ConstantFrom c ws) : ConstantsFrom [c] ws
  | cons {c : EnumConstant} {cs : List EnumConstant} {ws vs : List Word} (hc : ConstantFrom c ws)
      (hcs : ConstantsFrom cs vs) : ConstantsFrom (c :: cs) (ws ++ .mark .comma :: vs)

/-- The passages of what follows the constants of an enum. -/
inductive EnumMembersFrom : List Member → Passage → Prop
  | none : EnumMembersFrom [] (.plain [])
  | some {ms : List Member} {p : Passage} (h : MembersFrom n ms p) :
      EnumMembersFrom ms (.plain [.mark .semicolon] ++ p)

/-- The passages of a type behind what stands before it. -/
inductive HeaderFrom (name : String) (ms : List Member) : TypeHeader → Passage → Prop
  | class_ {g : Option String} {t : Option TypeUse} {is : List TypeUse} {gp ep ip mp : Passage}
      (hg : OptionFrom ListFrom g gp) (ht : ClauseFrom .extends_ t.toList ep)
      (his : ClauseFrom .implements_ is ip) (hms : MembersFrom n ms mp) :
      HeaderFrom name ms (.class_ g t is) (.plain [.keyword .class_, .name name] ++ gp ++ ep ++ ip ++
        .plain [.mark .openBrace] ++ mp ++ .plain [.mark .closeBrace])
  | interface_ {g : Option String} {ts : List TypeUse} {gp ep mp : Passage}
      (hg : OptionFrom ListFrom g gp) (hts : ClauseFrom .extends_ ts ep)
      (hms : MembersFrom n ms mp) :
      HeaderFrom name ms (.interface_ g ts) (.plain [.keyword .interface_, .name name] ++ gp ++ ep ++
        .plain [.mark .openBrace] ++ mp ++ .plain [.mark .closeBrace])
  | enum_ {is : List TypeUse} {cs : List EnumConstant} {cw : List Word} {ip mp : Passage}
      (his : ClauseFrom .implements_ is ip) (hcs : ConstantsFrom cs cw)
      (hms : EnumMembersFrom n ms mp) :
      HeaderFrom name ms (.enum_ is cs) (.plain [.keyword .enum_, .name name] ++ ip ++
        .plain (.mark .openBrace :: cw) ++ mp ++ .plain [.mark .closeBrace])

/-- The passages of a type. -/
def DeclarationFrom (t : TypeDeclaration) (p : Passage) : Prop :=
  ∃ qw hp, QualifiersFrom ⟨[], []⟩ ⟨t.annotations, t.modifiers⟩ qw ∧ IsIdentifier t.name ∧
    HeaderFrom n t.name t.members t.header hp ∧ p = .plain qw ++ hp

/-- The passages of types in a row, with lone semicolons between them. -/
inductive TypesFrom : List TypeDeclaration → Passage → Prop
  | nil : TypesFrom [] (.plain [])
  | empty {ts : List TypeDeclaration} {p : Passage} (h : TypesFrom ts p) :
      TypesFrom ts (.plain [.mark .semicolon] ++ p)
  | cons {t : TypeDeclaration} {ts : List TypeDeclaration} {p q : Passage}
      (ht : DeclarationFrom n t p) (h : TypesFrom ts q) : TypesFrom (t :: ts) (p ++ q)

/-- The passages of a source text. -/
def UnitFrom (u : CompilationUnit) (p : Passage) : Prop :=
  ∃ pw iw tp, OptionWords PackageWords u.package pw ∧ EachWords ImportWords u.imports iw ∧
    TypesFrom n u.types tp ∧ p = .plain (pw ++ iw) ++ tp

end Levels

end JavaTree
