import JavaTree.Proofs.Source.Units
import JavaTree.Proofs.Token.Pieces

/-!
Texts without findings.

A text about which nothing is reported is a passage of its tree, from the first token to the last.
So it has no faults, and its parentheses and braces are nested: `after` follows them through the words
of a text, and all passages leave them as they find them.
-/

namespace JavaTree

open JavaTree.Parser

/-! ### Parentheses and braces -/

/-- Parentheses and braces, as opposed to square brackets. -/
def Mark.isGrouping : Mark → Bool
  | openParen | closeParen | openBrace | closeBrace => true
  | _ => false

namespace Kind

/-- Parentheses and braces. -/
def isGrouping : Kind → Bool
  | mark m => m.isGrouping
  | _ => false

/-- The parentheses and braces still to be closed after one more word, or `none` if it closes one
out of order, or is invalid. -/
def after (closers : List Mark) (k : Kind) : Option (List Mark) :=
  if k.isGrouping then Excerpt.closersAfter closers k
  else if k = invalid then none
  else some closers

end Kind

/-- The parentheses and braces that words leave open. -/
def after (closers : List Mark) : List Word → Option (List Mark)
  | [] => some closers
  | w :: ws => (w.kind.after closers).bind (after · ws)

/-- Valid words that leave parentheses and braces as they find them. -/
def Nested (ws : List Word) : Prop := ∀ closers, after closers ws = some closers

@[simp] theorem after_nil (closers : List Mark) : after closers [] = some closers := rfl

@[simp] theorem after_append (closers : List Mark) (ws vs : List Word) :
    after closers (ws ++ vs) = (after closers ws).bind (after · vs) := by
  induction ws generalizing closers with
  | nil => rfl
  | cons w ws ih => simp only [List.cons_append, after, ih, Option.bind_assoc]

@[simp] theorem after_keyword (closers : List Mark) (k : Keyword) (ws : List Word) :
    after closers (.keyword k :: ws) = after closers ws := rfl

@[simp] theorem after_name (closers : List Mark) (x : String) (ws : List Word) :
    after closers (.name x :: ws) = after closers ws := rfl

@[simp] theorem after_openParen (closers : List Mark) (ws : List Word) :
    after closers (.mark .openParen :: ws) = after (.closeParen :: closers) ws := rfl

@[simp] theorem after_closeParen (closers : List Mark) (ws : List Word) :
    after (.closeParen :: closers) (.mark .closeParen :: ws) = after closers ws := rfl

@[simp] theorem after_openBrace (closers : List Mark) (ws : List Word) :
    after closers (.mark .openBrace :: ws) = after (.closeBrace :: closers) ws := rfl

@[simp] theorem after_closeBrace (closers : List Mark) (ws : List Word) :
    after (.closeBrace :: closers) (.mark .closeBrace :: ws) = after closers ws := rfl

theorem after_mark {m : Mark} (h : m.isGrouping = false) (closers : List Mark) (ws : List Word) :
    after closers (.mark m :: ws) = after closers ws := by
  simp [after, Kind.after, Word.mark, Kind.isGrouping, h]

@[simp] theorem after_semicolon (closers : List Mark) (ws : List Word) :
    after closers (.mark .semicolon :: ws) = after closers ws := after_mark rfl closers ws

@[simp] theorem after_comma (closers : List Mark) (ws : List Word) :
    after closers (.mark .comma :: ws) = after closers ws := after_mark rfl closers ws

@[simp] theorem after_dot (closers : List Mark) (ws : List Word) :
    after closers (.mark .dot :: ws) = after closers ws := after_mark rfl closers ws

@[simp] theorem after_colon (closers : List Mark) (ws : List Word) :
    after closers (.mark .colon :: ws) = after closers ws := after_mark rfl closers ws

@[simp] theorem after_assign (closers : List Mark) (ws : List Word) :
    after closers (.mark .assign :: ws) = after closers ws := after_mark rfl closers ws

@[simp] theorem after_atSign (closers : List Mark) (ws : List Word) :
    after closers (.mark .atSign :: ws) = after closers ws := after_mark rfl closers ws

@[simp] theorem after_ellipsis (closers : List Mark) (ws : List Word) :
    after closers (.mark .ellipsis :: ws) = after closers ws := after_mark rfl closers ws

@[simp] theorem after_star (closers : List Mark) (ws : List Word) :
    after closers (.mark .star :: ws) = after closers ws := after_mark rfl closers ws

@[simp] theorem Nested.after {ws : List Word} (h : Nested ws) (closers : List Mark) :
    after closers ws = some closers := h closers

theorem nested_nil : Nested [] := fun _ => rfl

/-- Words that are neither invalid nor parentheses or braces. -/
theorem nested_of_forall {ws : List Word}
    (h : ∀ w ∈ ws, w.kind.isGrouping = false ∧ w.kind ≠ .invalid) : Nested ws := by
  intro closers
  induction ws with
  | nil => rfl
  | cons w ws ih =>
    obtain ⟨hgroup, hvalid⟩ := h w List.mem_cons_self
    have hws := ih fun v hv => h v (List.mem_cons_of_mem _ hv)
    simp [JavaTree.after, Kind.after, hgroup, hvalid, hws]

/-! ### Lists and options -/

section Lists

variable {α : Type}

theorem nested_each {P : α → List Word → Prop} (hP : ∀ a ws, P a ws → Nested ws) {as : List α}
    {ws : List Word} (h : EachWords P as ws) : Nested ws := by
  induction h with
  | nil => exact nested_nil
  | cons ha _ ih => intro closers; simp [hP _ _ ha, ih]

theorem nested_comma {P : α → List Word → Prop} (hP : ∀ a ws, P a ws → Nested ws) {as : List α}
    {ws : List Word} (h : CommaWords P as ws) : Nested ws := by
  induction h with
  | one ha => exact hP _ _ ha
  | cons ha _ ih => intro closers; simp [hP _ _ ha, ih]

theorem nested_option {P : α → List Word → Prop} (hP : ∀ a ws, P a ws → Nested ws) {o : Option α}
    {ws : List Word} (h : OptionWords P o ws) : Nested ws := by
  cases h with
  | none => exact nested_nil
  | some ha => exact hP _ _ ha

variable {P : α → Passage → Prop} (hP : ∀ a p, P a p → Nested p.words)
include hP

theorem EachFrom.nested {as : List α} {p : Passage} (h : EachFrom P as p) : Nested p.words := by
  induction h with
  | nil => exact nested_nil
  | cons ha _ ih => intro closers; simp [hP _ _ ha, ih]

theorem CommaFrom.nested {as : List α} {p : Passage} (h : CommaFrom P as p) : Nested p.words := by
  induction h with
  | one ha => exact hP _ _ ha
  | cons ha _ ih => intro closers; simp [hP _ _ ha, ih]

theorem OptionFrom.nested {o : Option α} {p : Passage} (h : OptionFrom P o p) : Nested p.words := by
  cases h with
  | none => exact nested_nil
  | some ha => exact hP _ _ ha

end Lists

/-! ### Types and excerpts -/

theorem nested_bracketWords (n : Nat) : Nested (bracketWords n) := by
  intro closers
  induction n with
  | zero => rfl
  | succ n ih => exact (after_mark rfl closers _).trans ((after_mark rfl closers _).trans ih)

theorem QualifiedWords.nested {x : String} {ws : List Word} (h : QualifiedWords x ws) :
    Nested ws := by
  obtain ⟨-, -, -⟩ := h
  refine nested_of_forall fun w hw => ?_
  simp only [List.mem_cons, List.mem_flatMap, List.not_mem_nil, or_false] at hw
  obtain rfl | ⟨n, -, rfl | rfl⟩ := hw <;> exact ⟨rfl, nofun⟩

theorem ListFrom.nested {x : String} {p : Passage} (h : ListFrom x p) : Nested p.words := by
  obtain ⟨hts, -⟩ := h
  refine nested_of_forall fun w hw => ?_
  obtain ⟨t, ht, rfl⟩ := List.mem_map.mp hw
  obtain ⟨hreadable, hends⟩ := hts t ht
  refine ⟨?_, hreadable.kind_ne.2⟩
  show t.kind.isGrouping = false
  generalize t.kind = k at hends
  cases k with
  | mark m => cases m <;> first | rfl | cases hends
  | _ => rfl

theorem TypeRestFrom.nested {known x : String} {p : Passage} (h : TypeRestFrom known x p) :
    Nested p.words := by
  induction h with
  | done hlist => exact hlist.nested fun _ _ h => h.nested
  | dot hlist _ _ ih => intro closers; simp [hlist.nested fun _ _ h => h.nested, ih]

theorem TypeFrom.nested {t : TypeUse} {p : Passage} (h : TypeFrom t p) : Nested p.words := by
  obtain ⟨q, hq, rfl⟩ := h
  have hname : Nested q.words := by
    generalize t.name = x at hq
    cases hq with
    | primitive => exact fun _ => rfl
    | named _ h => intro closers; simp [h.nested]
  intro closers
  simp [hname, nested_bracketWords]

theorem ReturnFrom.nested {t : TypeUse} {p : Passage} (h : ReturnFrom t p) : Nested p.words := by
  cases h with
  | void => exact fun _ => rfl
  | type h => exact h.nested

theorem ClauseFrom.nested {k : Keyword} {ts : List TypeUse} {p : Passage} (h : ClauseFrom k ts p) :
    Nested p.words := by
  cases h with
  | nil => exact nested_nil
  | some h => intro closers; simp [h.nested fun _ _ h => h.nested]

/-- A token does to the parentheses and braces what it does to all brackets. -/
theorem Parser.Turns.after {k : Kind} {ms ns : List Mark} (h : Turns ms k ns) (hvalid : k ≠ .invalid)
    (outer : List Mark) : k.after (ms.filter Mark.isGrouping ++ outer) =
      some (ns.filter Mark.isGrouping ++ outer) := by
  cases h with
  | @opens m c hm => cases m <;> cases hm <;> rfl
  | @closes m hm => cases m <;> cases hm <;> rfl
  | passes ho hc =>
    have hgrouping : k.isGrouping = false := by
      cases k with
      | mark m => cases m <;> first | rfl | (cases ho <;> cases hc)
      | _ => rfl
    rw [Kind.after, if_neg (by rw [hgrouping]; exact nofun), if_neg hvalid]

/-- Tokens with their brackets closed in order have their parentheses and braces so. -/
theorem after_of_openBrackets {ts : List Token} {closers opened : List Mark}
    (h : Excerpt.openBrackets closers ts = some opened) (hvalid : ∀ t ∈ ts, t.kind ≠ .invalid)
    (outer : List Mark) :
    after (closers.filter Mark.isGrouping ++ outer) (ts.map Token.written) =
      some (opened.filter Mark.isGrouping ++ outer) := by
  induction ts generalizing closers with
  | nil => cases h; rfl
  | cons t ts ih =>
    obtain ⟨inner, hinner, hts⟩ := Option.bind_eq_some_iff.mp h
    have hstep : t.kind.after _ = some (inner.filter Mark.isGrouping ++ outer) :=
      (turns_of_closersAfter hinner).after (hvalid t List.mem_cons_self) outer
    rw [List.map_cons, after]
    exact (congrArg (Option.bind · _) hstep).trans (ih hts fun u hu => hvalid u (List.mem_cons_of_mem _ hu))

theorem ExcerptFrom.nested {rule : CaptureRule} {e : Excerpt} {ws : List Word}
    (h : ExcerptFrom rule e ws) : Nested ws := by
  intro closers
  rw [h.words]
  exact after_of_openBrackets h.captured.balanced h.captured.valid closers

theorem ParenFrom.nested {e : Excerpt} {ws : List Word} (h : ParenFrom e ws) : Nested ws := by
  obtain ⟨vs, hvs, rfl⟩ := h
  intro closers
  simp [hvs.nested]

theorem ArgumentsFrom.nested {e : Excerpt} {ws : List Word} (h : ArgumentsFrom e ws) :
    Nested ws := by
  cases h with
  | empty => exact fun _ => rfl
  | some h => exact h.nested

/-! ### Declarations and statements -/

theorem AnnotationFrom.nested {a : AnnotationUse} {ws : List Word} (h : AnnotationFrom a ws) :
    Nested ws := by
  obtain ⟨nw, aw, hname, hargs, rfl⟩ := h
  intro closers
  simp [hname.nested, nested_option (fun _ _ h => h.nested) hargs]

theorem QualifiersFrom.nested {found q : Qualifiers} {ws : List Word} (h : QualifiersFrom found q ws) :
    Nested ws := by
  induction h with
  | done => exact nested_nil
  | annotation ha _ ih => intro closers; simp [ha.nested, ih]
  | modifier _ ih => exact ih

theorem InitializerFrom.nested {e : Excerpt} {ws : List Word} (h : InitializerFrom e ws) :
    Nested ws := by
  obtain ⟨vs, hvs, rfl⟩ := h
  intro closers
  simp [hvs.nested]

theorem DeclaratorFrom.nested {d : Declarator} {ws : List Word} (h : DeclaratorFrom d ws) :
    Nested ws := by
  obtain ⟨iw, -, hinit, rfl⟩ := h
  intro closers
  simp [nested_bracketWords, nested_option (fun _ _ h => h.nested) hinit]

theorem FieldsFrom.nested {q : Qualifiers} {fs : List Field} {p : Passage} (h : FieldsFrom q fs p) :
    Nested p.words := by
  obtain ⟨ht, hds⟩ := h
  intro closers
  simp [ht.nested, nested_comma (fun _ _ h => h.nested) hds]

theorem ParameterFrom.nested {x : Parameter} {p : Passage} (h : ParameterFrom x p) :
    Nested p.words := by
  obtain ⟨hq, ht, -⟩ := h
  intro closers
  split <;> simp [hq.nested, ht.nested, nested_bracketWords]

theorem LabelFrom.nested {l : CaseLabel} {ws : List Word} (h : LabelFrom l ws) : Nested ws := by
  cases h with
  | value h => intro closers; simp [h.nested]
  | default => exact fun _ => rfl

theorem MessageFrom.nested {e : Excerpt} {ws : List Word} (h : MessageFrom e ws) : Nested ws := by
  obtain ⟨vs, hvs, rfl⟩ := h
  intro closers
  simp [hvs.nested]

namespace Within

/-- Statements one level further in leave parentheses and braces as they find them. -/
structure AreNested (within : Within) : Prop where
  statement : ∀ s p, within.statement s p → Nested p.words
  block : ∀ b p, within.block b p → Nested p.words
  caseBody : ∀ ss p, within.caseBody ss p → Nested p.words

variable {within : Within} (hw : within.AreNested)
include hw

theorem AreNested.braced {b : Block} {p : Passage} (h : within.BracedFrom b p) :
    Nested p.words := by
  obtain ⟨q, hq, rfl⟩ := h
  intro closers
  simp [hw.block b q hq]

theorem AreNested.catch_ {k : CatchClause} {p : Passage} (h : within.CatchFrom k p) :
    Nested p.words := by
  obtain ⟨ew, bp, he, hb, rfl⟩ := h
  intro closers
  simp [he.nested, hw.braced hb]

theorem AreNested.finally_ {b : Block} {p : Passage} (h : within.FinallyFrom b p) :
    Nested p.words := by
  obtain ⟨bp, hb, rfl⟩ := h
  intro closers
  simp [hw.braced hb]

theorem AreNested.case {k : SwitchCase} {p : Passage} (h : within.CaseFrom k p) :
    Nested p.words := by
  obtain ⟨lw, bp, -, hl, hb, -, rfl⟩ := h
  intro closers
  simp [nested_each (fun _ _ h => h.nested) hl, hw.caseBody _ _ hb]

theorem AreNested.statementFrom {s : Statement} {p : Passage} (h : within.StatementFrom s p) :
    Nested p.words := by
  intro closers
  cases h with
  | empty => rfl
  | declaration ht hds => simp [ht.nested, nested_comma (fun _ _ h => h.nested) hds]
  | expression he _ => simp [he.nested]
  | return_ he => simp [nested_option (fun _ _ h => h.nested) he]
  | if_ hc ht => simp [hc.nested, hw.statement _ _ ht]
  | ifElse hc ht _ he => simp [hc.nested, hw.statement _ _ ht, hw.statement _ _ he]
  | for_ hc hb | while_ hc hb | doWhile hc hb => simp [hc.nested, hw.statement _ _ hb]
  | try_ hb hcs hf =>
    simp [hw.braced hb, hcs.nested fun _ _ h => hw.catch_ h, hf.nested fun _ _ h => hw.finally_ h]
  | block hb => exact hw.braced hb closers
  | @break_ l _ hl | @continue_ l _ hl => cases l <;> simp
  | throw_ he => simp [he.nested]
  | switch he hcs => simp [he.nested, hcs.nested fun _ _ h => hw.case h]
  | synchronized he hb => simp [he.nested, hw.braced hb]
  | labeled _ hb => simp [hw.statement _ _ hb]
  | assert hc hm => simp [hc.nested, nested_option (fun _ _ h => h.nested) hm]

theorem AreNested.rowFrom {ss : List Statement} {p : Passage} (h : within.RowFrom ss p) :
    Nested p.words := by
  induction h with
  | nil => exact nested_nil
  | empty _ ih => exact ih
  | statement hs _ ih => intro closers; simp [hw.statement _ _ hs, ih]
  | fields hq hf _ _ ih => intro closers; simp [hq.nested, hf.nested, ih]

end Within

theorem areNested (n : Nat) : (passagesAt n).AreNested := by
  induction n with
  | zero => exact ⟨nofun, nofun, nofun⟩
  | succ n ih =>
    exact ⟨fun _ _ h => ih.statementFrom h, fun _ _ h => ih.rowFrom h, fun _ _ h => ih.rowFrom h⟩

/-! ### Members, types and units -/

section Levels

variable {n : Nat}

theorem ParameterListFrom.nested {ps : List Parameter} {p : Passage} (h : ParameterListFrom ps p) :
    Nested p.words := by
  cases h with
  | nil => exact fun _ => rfl
  | some h => intro closers; simp [h.nested fun _ _ h => h.nested]

theorem MethodFrom.nested {m : Method} {p : Passage} (h : MethodFrom n m p) : Nested p.words := by
  obtain ⟨rp, pp, tp, bp, hr, -, hps, hts, hb, rfl⟩ := h
  have hbody : Nested bp.words := by
    generalize m.body = body at hb
    cases hb with
    | none => exact fun _ => rfl
    | some h => exact (areNested n).braced h
  intro closers
  simp [hr.nested, hps.nested, hts.nested, hbody]

theorem ConstructorFrom.nested {k : Constructor} {p : Passage} (h : ConstructorFrom n k p) :
    Nested p.words := by
  obtain ⟨pp, tp, bp, -, hps, hts, hb, rfl⟩ := h
  intro closers
  simp [hps.nested, hts.nested, (areNested n).braced hb]

theorem MemberFrom.nested {found : List Member} {p : Passage} (h : MemberFrom n found p) :
    Nested p.words := by
  have hlist {g : Option String} {gp : Passage} (hg : OptionFrom ListFrom g gp) :
      Nested gp.words := hg.nested fun _ _ h => h.nested
  intro closers
  cases h with
  | initializer hq hb => simp [hq.nested, (areNested n).braced hb]
  | fields hq hg hf => simp [hq.nested, hlist hg, hf.nested]
  | method hq hg hm => simp [hq.nested, hlist hg, hm.nested]
  | constructor hq hg hc => simp [hq.nested, hlist hg, hc.nested]

theorem MembersFrom.nested {ms : List Member} {p : Passage} (h : MembersFrom n ms p) :
    Nested p.words := by
  induction h with
  | nil => exact nested_nil
  | empty _ ih => exact ih
  | cons hm _ ih => intro closers; simp [hm.nested, ih]

theorem ConstantsFrom.nested {cs : List EnumConstant} {ws : List Word} (h : ConstantsFrom cs ws) :
    Nested ws := by
  have hone {k : EnumConstant} {ws : List Word} (h : ConstantFrom k ws) : Nested ws := by
    obtain ⟨nw, aw, hnotes, -, hargs, rfl⟩ := h
    intro closers
    simp [nested_each (fun _ _ h => h.nested) hnotes, nested_option (fun _ _ h => h.nested) hargs]
  induction h with
  | nil => exact nested_nil
  | last h => exact hone h
  | cons h _ ih => intro closers; simp [hone h, ih]

theorem HeaderFrom.nested {x : String} {ms : List Member} {header : TypeHeader} {p : Passage}
    (h : HeaderFrom n x ms header p) : Nested p.words := by
  have hlist {g : Option String} {gp : Passage} (hg : OptionFrom ListFrom g gp) :
      Nested gp.words := hg.nested fun _ _ h => h.nested
  intro closers
  cases h with
  | class_ hg ht his hms => simp [hlist hg, ht.nested, his.nested, hms.nested]
  | interface_ hg hts hms => simp [hlist hg, hts.nested, hms.nested]
  | @enum_ _ _ _ _ mp his hcs hms =>
    have hmembers : Nested mp.words := by
      cases hms with
      | none => exact nested_nil
      | some h => exact h.nested
    simp [his.nested, hcs.nested, hmembers]

theorem TypesFrom.nested {ts : List TypeDeclaration} {p : Passage} (h : TypesFrom n ts p) :
    Nested p.words := by
  induction h with
  | nil => exact nested_nil
  | empty _ ih => exact ih
  | cons ht _ ih =>
    obtain ⟨qw, hp, hq, -, hheader, rfl⟩ := ht
    intro closers
    simp [hq.nested, hheader.nested, ih]

/-- A whole text leaves no parenthesis and no brace open, and closes none that is not open. -/
theorem UnitFrom.nested {u : CompilationUnit} {p : Passage} (h : UnitFrom n u p) :
    Nested p.words := by
  obtain ⟨pw, iw, tp, hp, his, hts, rfl⟩ := h
  have hpackage : Nested pw := nested_option (fun p ws h => by
    obtain ⟨nw, hname, rfl⟩ := h
    intro closers
    simp [hname.nested]) hp
  have himports : Nested iw := nested_each (fun i ws h => by
    obtain ⟨nw, hname, rfl⟩ := h
    intro closers
    split <;> split <;> simp [hname.nested]) his
  intro closers
  simp [hpackage, himports, hts.nested]

end Levels

/-! ### Texts without findings -/

theorem valid_of_after {ts : List Token} {closers opened : List Mark}
    (h : after closers (ts.map Token.written) = some opened) : ∀ t ∈ ts, t.kind ≠ .invalid := by
  induction ts generalizing closers with
  | nil => nofun
  | cons t ts ih =>
    obtain ⟨inner, hinner, hts⟩ := Option.bind_eq_some_iff.mp h
    rintro u (_ | ⟨_, hu⟩)
    · intro hk
      have hkind : t.written.kind = .invalid := hk
      rw [hkind] at hinner
      cases hinner
    · exact ih hts u hu

theorem openBrackets_of_after {ts : List Token} {closers opened : List Mark}
    (h : after closers (ts.map Token.written) = some opened) :
    Excerpt.openBrackets closers (ts.filter (·.kind.isGrouping)) = some opened := by
  induction ts generalizing closers with
  | nil => exact h
  | cons t ts ih =>
    obtain ⟨inner, hinner, hts⟩ := Option.bind_eq_some_iff.mp h
    have hrest := ih hts
    have hkind : t.kind.after closers = some inner := hinner
    rw [Kind.after] at hkind
    split at hkind
    · next hgroup =>
      rw [List.filter_cons, if_pos hgroup, Excerpt.openBrackets, hkind]
      exact hrest
    · next hgroup =>
      split at hkind <;> cases hkind
      rwa [List.filter_cons, if_neg hgroup]

namespace Parser.Input

/-- What a text without findings is read as, and from which passage. -/
structure IsClean (source : String) (options : ParseOptions) (p : Passage) : Prop where
  passage : UnitFrom options.limits.nesting (CompilationUnit.parse source options).unit p
  words : p.words = (ofSource source).tokens.map Token.written
  ends : (final (unit ((ofSource source).settings options) (ofSource source).state)).rest = []

theorem isClean {source : String} {options : ParseOptions}
    (h : (CompilationUnit.parse source options).diagnostics = []) : ∃ p, IsClean source options p := by
  have hparse : CompilationUnit.parse source options = _ := parse_eq (ofSource source) options
  have hstop {o : Outcome CompilationUnit} {s : State} (hnil : (Parsed.ofOutcome o s).diagnostics = []) :
      o.stopped = none ∧ s.diagnostics = [] ∧ (Parsed.ofOutcome o s).unit = o.found := by
    unfold Parsed.ofOutcome at hnil ⊢
    split at hnil
    · next hnone => exact ⟨hnone, hnil, rfl⟩
    · simp at hnil
  rw [hparse] at h
  split at h
  · next o s hrun =>
    obtain ⟨hstopped, hquiet, hunit⟩ := hstop h
    obtain ⟨us, hus, hreads⟩ := reads_unit.quiet hrun hquiet fun t ht => isSound_of_mem_tokens ht
    obtain ⟨⟨p, hp, hwords⟩, hrest⟩ := hreads hstopped
    have htokens : (ofSource source).tokens = us := by
      rw [hrest, List.append_nil] at hus
      exact hus
    refine ⟨p, ?_, htokens ▸ hwords, ?_⟩
    · rw [hparse, hrun, hunit]
      exact hp
    · rw [hrun]
      exact hrest
  · exact absurd (hstop h).1 nofun

/-- A text about which nothing is reported has no faults, is read up to its end, and has its
parentheses and braces nested, whatever the limits and the budget are. -/
theorem certified_of_diagnostics_eq_nil {source : String} {options : ParseOptions}
    (h : (CompilationUnit.parse source options).diagnostics = []) :
    Lexer.faults source = [] ∧
      (final (unit ((ofSource source).settings options) (ofSource source).state)).rest = [] ∧
      Excerpt.openBrackets [] ((Lexer.recover source).filter (·.kind.isGrouping)) = some [] := by
  obtain ⟨p, hpassage, hwords, hends⟩ := isClean h
  have hafter := hpassage.nested []
  rw [hwords] at hafter
  refine ⟨Lexer.faults_eq_nil ?_, hends, ?_⟩
  · rw [← tokens_ofSource]
    exact valid_of_after hafter
  · have hnested := openBrackets_of_after hafter
    rw [tokens_ofSource] at hnested
    rw [Lexer.recover, List.filter_append]
    simpa [Lexer.endToken, Token.endAt, Kind.isGrouping] using hnested

/-- A brace between quotes does not count, nor do square brackets. -/
theorem certified_quotedBrace :
    let source := "class A \x7b int f(int[] x) \x7b return g(x[0], '\x7d'); \x7d \x7d"
    (CompilationUnit.parse source {}).diagnostics = [] ∧ Lexer.faults source = [] ∧
      (final (unit ((ofSource source).settings {}) (ofSource source).state)).rest = [] ∧
      Excerpt.openBrackets [] ((Lexer.recover source).filter (·.kind.isGrouping)) = some [] :=
  ⟨by decide +kernel, certified_of_diagnostics_eq_nil (by decide +kernel)⟩

end Parser.Input

end JavaTree
