import JavaTree.Proofs.Written.Parts

/-!
The lines of a statement spell its words.

A statement is written behind the header before it, if there is one, so what its lines spell starts
with the words of that header. The words of statements are given level by level, and the proof
follows them: one level of statements, then all levels by induction.
-/

namespace JavaTree

open JavaTree.Parser

variable {layout : Layout} {ws vs : List Word} {rereads : Prop}

/-! ### Braces and places -/

/-- A text that may have a separator behind it, as a line of its own. -/
theorem LinesWrite.single (hlayout : layout.problem? = none) {s : String} (h : Writes s ws Separated)
    (hne : s ≠ "") : LinesWrite layout [.plain s] ws :=
  .plain (h.line hlayout hne)

theorem LinesWrite.plain_cons (hlayout : layout.problem? = none) {s : String} {ls : List Line}
    (h : Writes s ws Separated) (hne : s ≠ "") (hls : LinesWrite layout ls vs) :
    LinesWrite layout (.plain s :: ls) (ws ++ vs) :=
  (LinesWrite.single hlayout h hne).append hls

theorem LinesWrite.braced (hlayout : layout.problem? = none) {header : String} {inner : List Line}
    {hw iw : List Word} (hheader : Writes header hw Separated) (hinner : LinesWrite layout inner iw)
    (style : BraceStyle) : LinesWrite layout (Line.braced style header inner)
      (hw ++ .mark .openBrace :: iw ++ [.mark .closeBrace]) := by
  have hopen : Writes "\x7b" [.mark .openBrace] Separated := Writes.openBrace.mono fun _ _ => trivial
  have hclose : LinesWrite layout [.plain "\x7d"] [.mark .closeBrace] :=
    .single hlayout (Writes.closeBrace.mono fun _ _ => trivial) (by decide)
  have hlines {opening : List Line} (hopening : LinesWrite layout opening (hw ++ [.mark .openBrace])) :
      LinesWrite layout (opening ++ Line.indentAll inner ++ [.plain "\x7d"])
        (hw ++ .mark .openBrace :: iw ++ [.mark .closeBrace]) := by
    simpa using (hopening.append hinner.indentAll).append hclose
  by_cases hempty : header = ""
  · have hnil : hw = [] := by
      have hspells := hheader [] [] separated_nil .done
      rw [hempty] at hspells
      simpa using hspells.eq_nil
    have hopening : LinesWrite layout [.plain "\x7b"] (hw ++ [.mark .openBrace]) := by
      rw [hnil]
      exact .single hlayout hopen (by decide)
    simp only [Line.braced, if_pos hempty]
    exact hlines hopening
  · simp only [Line.braced, if_neg hempty]
    cases style with
    | sameLine =>
      refine hlines (.single hlayout ?_ ?_)
      · exact hheader.apart (Writes.append_anything (Writes.space Anything) hopen) (separated_cons rfl _)
      · simp
    | nextLine =>
      exact hlines (.plain_cons hlayout hheader hempty (.single hlayout hopen (by decide)))

/-- The words in front of a statement at its place. -/
inductive PlaceWrites : Place → List Word → Prop
  | row : PlaceWrites .row []
  | body {h : String} {ws : List Word} (hh : Writes h ws Separated) (hne : h ≠ "") :
      PlaceWrites (.body h) ws
  | orElse : PlaceWrites .orElse [.keyword .else_]

theorem writes_keyword (k : Keyword) : Writes k.text [.keyword k] Separated :=
  (Writes.keyword k).mono fun _ hr => hr.nameEnds

theorem PlaceWrites.header {place : Place} (h : PlaceWrites place ws) :
    Writes place.header ws Separated := by
  cases h with
  | row => exact Writes.nil _
  | body hh _ => exact hh
  | orElse => exact writes_keyword .else_

theorem PlaceWrites.hold (hlayout : layout.problem? = none) {place : Place} {own : List Line}
    (h : PlaceWrites place ws) (hown : LinesWrite layout own vs) :
    LinesWrite layout (place.hold own) (ws ++ vs) := by
  cases h with
  | row => exact hown
  | body hh hne => exact .plain_cons hlayout hh hne hown.indentAll
  | orElse => exact .plain_cons hlayout (writes_keyword .else_) (by decide) hown.indentAll

/-- A text and the semicolon that ends a statement. -/
theorem Writes.semicolon_behind {s : String} (h : Writes s ws Separated) :
    Writes (s ++ ";") (ws ++ [.mark .semicolon]) Separated :=
  h.apart (Writes.semicolon.mono fun _ _ => trivial) (separated_cons rfl _)

theorem append_ne_empty {s t : String} (h : t ≠ "") : s ++ t ≠ "" := by
  intro hempty
  exact h (String.append_eq_empty_iff.mp hempty).2

/-- A statement on one line, put where it stands. -/
theorem PlaceWrites.simple (hlayout : layout.problem? = none) {place : Place} {pw : List Word}
    (h : PlaceWrites place pw) {s : String} (hs : Writes s ws Separated) :
    LinesWrite layout (place.hold [.plain (s ++ ";")]) (pw ++ (ws ++ [.mark .semicolon])) :=
  h.hold hlayout (.single hlayout hs.semicolon_behind (append_ne_empty (by decide)))

/-- A keyword with something between parentheses behind it. -/
theorem writes_keywordParen (k : Keyword) {e : Excerpt} (h : ParenWords e ws) :
    Writes (k.text ++ " (" ++ e.render ++ ")") (.keyword k :: ws) Separated := by
  have hparen := (writes_keyword k).spaced ((writes_paren h).mono fun _ _ => trivial)
  have htext : k.text ++ " (" ++ e.render ++ ")" = k.text ++ " " ++ ("(" ++ e.render ++ ")") := by
    rw [show (" (" : String) = " " ++ "(" from rfl]
    simp only [String.append_assoc]
  rw [htext]
  exact hparen

/-- What a capture that ends before colons takes does not end in a colon. -/
theorem lastKind_ne_colon {rule : CaptureRule} {e : Excerpt} (h : Captured rule e)
    (hcolon : rule.stops.contains (.mark .colon) = true) :
    ∀ t ∈ e.tokens.getLast?, t.kind ≠ .mark .colon := by
  intro t ht hkind
  obtain ⟨front, hfront⟩ := List.getLast?_eq_some_iff.mp ht
  have hopen : Excerpt.openBrackets [] front = some [] := by
    have hbalanced := h.balanced
    rw [hfront, Excerpt.openBrackets_append] at hbalanced
    obtain ⟨closers, hclosers, hlast⟩ := Option.bind_eq_some_iff.mp hbalanced
    have hsame : Excerpt.openBrackets closers [t] = some closers := by
      simp only [Excerpt.openBrackets, hkind]
      rfl
    rw [hclosers, ← hsame, hlast]
  have hpasses := h.passes [] (by simp [kindOf]) front t [] hfront hopen
  rw [endsBefore_eq, hkind, hcolon] at hpasses
  cases hpasses

theorem writes_label {l : CaseLabel} (h : LabelWords l ws) :
    ∃ s, l.line = .plain s ∧ s ≠ "" ∧ Writes s ws Separated := by
  cases h with
  | @value e vs he =>
    have hcolon : Writes ":" [.mark .colon] Separated := Writes.mark .colon
    have hlabel : Writes (e.render ++ ":") (vs ++ [.mark .colon]) Separated := by
      rw [he.words]
      refine he.legible.append hcolon fun r _ c hc => ?_
      cases hc
      exact .inr ⟨rfl, lastKind_ne_colon he.captured rfl⟩
    have hcase : Writes "case " [.keyword .case_] Anything := (writes_keyword .case_).before_space
    refine ⟨_, rfl, append_ne_empty (by decide), ?_⟩
    rw [String.append_assoc]
    exact hcase.append_anything hlabel
  | default =>
    have hcolon : Writes ":" [.mark .colon] Separated := Writes.mark .colon
    refine ⟨_, rfl, by decide, ?_⟩
    exact (Writes.keyword (.modifier .default_)).append hcolon fun r _ c hc => by
      cases hc
      rfl

/-- A keyword that may have something behind it, and a semicolon. -/
theorem writes_wordLine (hlayout : layout.problem? = none) {place : Place} {pw : List Word}
    (h : PlaceWrites place pw) (k : Keyword) {o : Option String} {P : String → List Word → Prop}
    (ho : OptionWords P o ws) (hP : ∀ s ws, P s ws → Writes s ws Separated) :
    LinesWrite layout (place.hold [wordLine k.text o])
      (pw ++ (.keyword k :: ws ++ [.mark .semicolon])) := by
  cases ho with
  | none => exact h.simple hlayout (writes_keyword k)
  | some ho => exact h.simple hlayout ((writes_keyword k).spaced (hP _ _ ho))

theorem optionWords_map {α : Type} {P : α → List Word → Prop} {o : Option α} {f : α → String}
    (h : OptionWords P o ws) : OptionWords (fun s ws => ∃ a, P a ws ∧ s = f a) (o.map f) ws := by
  cases h with
  | none => exact .none
  | some h => exact .some ⟨_, h, rfl⟩

/-- The word of a name. -/
def NameWord (x : String) (ws : List Word) : Prop := IsIdentifier x ∧ ws = [.name x]

theorem writes_nameWord {x : String} (h : NameWord x ws) : Writes x ws Separated := by
  rw [h.2]
  exact writes_identifier h.1

theorem optionWords_name {l : Option String} (h : ∀ n ∈ l, IsIdentifier n) :
    OptionWords NameWord l (l.toList.map .name) := by
  cases l with
  | none => exact .none
  | some x => exact .some ⟨h x rfl, rfl⟩

/-- What an assertion says. -/
theorem writes_assertion {c : Excerpt} {m : Option Excerpt} {cw mw : List Word}
    (hc : ExcerptWords (expressionRule [Mark.colon, Mark.semicolon]) c cw) :
    OptionWords MessageWords m mw →
    Writes (c.render ++ match m with
      | some m => " : " ++ m.render
      | none => "") (cw ++ mw) Separated := by
  intro hm
  cases hm with
  | none =>
    simp only [String.append_empty, List.append_nil]
    exact writes_excerpt hc
  | some h =>
    obtain ⟨vs, he, rfl⟩ := h
    have hcolon : Writes ":" [.mark .colon] Separated := Writes.mark .colon
    have hmessage := (writes_excerpt hc).spaced (hcolon.spaced (writes_excerpt he))
    simp only [String.append_assoc] at hmessage
    exact hmessage

/-! ### One level -/

/-- The lines of statements one level further in spell their words. -/
structure InnerWrites (layout : Layout) (style : BraceStyle) (inner : Inner) : Prop where
  statement : ∀ s ws, inner.statement s ws → ∀ place pw, PlaceWrites place pw →
    LinesWrite layout (s.lines style place) (pw ++ ws)
  block : ∀ b ws, inner.block b ws → LinesWrite layout (b.lines style) ws
  caseBody : ∀ ss ws, inner.caseBody ss ws → LinesWrite layout (Statement.allLines style ss) ws

section Level

variable {style : BraceStyle} {inner : Inner} (hlayout : layout.problem? = none)
  (hinner : InnerWrites layout style inner)

include hlayout hinner

theorem linesWrite_braced {header : String} {hw : List Word} (hheader : Writes header hw Separated)
    {b : Block} (h : inner.BracedWords b ws) :
    LinesWrite layout (Line.braced style header (b.lines style)) (hw ++ ws) := by
  obtain ⟨vs, hb, rfl⟩ := h
  have hbraced := LinesWrite.braced hlayout hheader (hinner.block b vs hb) style
  rwa [List.append_assoc] at hbraced

theorem linesWrite_catches {cs : List CatchClause} (h : EachWords inner.CatchWords cs ws) :
    LinesWrite layout (CatchClause.allLines style cs) ws := by
  induction h with
  | nil =>
    rw [CatchClause.allLines]
    exact .nil
  | @cons c cs cw vs hc _ ih =>
    obtain ⟨pw, bw, hp, hb, rfl⟩ := hc
    obtain ⟨e, b, sp⟩ := c
    rw [CatchClause.allLines]
    exact (linesWrite_braced hlayout hinner (writes_keywordParen .catch_ hp) hb).joinFirst.append ih

theorem linesWrite_finally {f : Option Block} (h : OptionWords inner.FinallyWords f ws) :
    LinesWrite layout (Block.finallyLines style f) ws := by
  cases h with
  | none =>
    rw [Block.finallyLines]
    exact .nil
  | some h =>
    obtain ⟨bw, hb, rfl⟩ := h
    rw [Block.finallyLines]
    exact (linesWrite_braced hlayout hinner (writes_keyword .finally_) hb).joinFirst

omit hinner in
theorem linesWrite_labels {ls : List CaseLabel} (h : EachWords LabelWords ls ws) :
    LinesWrite layout (ls.map CaseLabel.line) ws := by
  induction h with
  | nil => exact .nil
  | cons hl _ ih =>
    obtain ⟨s, hs, hne, hw⟩ := writes_label hl
    rw [List.map_cons, hs]
    exact .plain_cons hlayout hw hne ih

theorem linesWrite_cases {cs : List SwitchCase} (h : EachWords inner.CaseWords cs ws) :
    LinesWrite layout (SwitchCase.allLines style cs) ws := by
  induction h with
  | nil =>
    rw [SwitchCase.allLines]
    exact .nil
  | @cons c cs cw vs hc _ ih =>
    obtain ⟨lw, bw, -, hl, hb, -, rfl⟩ := hc
    obtain ⟨ls, ss, sp⟩ := c
    rw [SwitchCase.allLines]
    exact ((linesWrite_labels hlayout hl).append (hinner.caseBody ss bw hb).indentAll).append ih

/-- The branches of an `if` behind its header. -/
theorem linesWrite_if {place : Place} {pw : List Word} (hplace : PlaceWrites place pw) {c : Excerpt}
    {t : Statement} {cw tw : List Word} (hc : ParenWords c cw) (ht : inner.statement t tw)
    {e : Option Statement} {ew : List Word}
    (he : LinesWrite layout (Statement.elseLines style e) ew) (sp : Span) :
    LinesWrite layout (Statement.lines style place (.if_ c t e sp))
      (pw ++ (.keyword .if_ :: cw ++ tw ++ ew)) := by
  have hhead := writes_keywordParen .if_ hc
  have hne (s : String) : s ++ ")" ≠ "" := append_ne_empty (by decide)
  have hchain {header : String} {hw : List Word} (hh : Writes header hw Separated) (hne : header ≠ "") :
      LinesWrite layout (t.lines style (.body header) ++ Statement.elseLines style e)
        (hw ++ (tw ++ ew)) := by
    have hbranches := (hinner.statement t tw ht _ _ (.body hh hne)).append he
    rwa [List.append_assoc] at hbranches
  cases hplace with
  | orElse =>
    have hlines := hchain ((writes_keyword .else_).spaced hhead) (append_ne_empty (hne _))
    rw [Statement.lines]
    simp only [List.append_assoc, List.cons_append, List.nil_append] at hlines ⊢
    exact hlines
  | row =>
    have hlines := hchain hhead (hne _)
    rw [Statement.lines]
    · simp only [List.append_assoc, List.cons_append, List.nil_append, String.empty_append] at hlines ⊢
      exact hlines
    · intro hplace
      cases hplace
  | body hh hne' =>
    have hlines := (PlaceWrites.body hh hne').hold hlayout (hchain hhead (hne _))
    rw [Statement.lines]
    · simp only [List.append_assoc, List.cons_append, String.empty_append] at hlines ⊢
      exact hlines
    · intro hplace
      cases hplace

/-- A loop: a header with its body behind it. -/
theorem linesWrite_loop {place : Place} {pw : List Word} (hplace : PlaceWrites place pw)
    {b : Statement} {bw : List Word} (hb : inner.statement b bw) {header : String} {hw : List Word}
    (hh : Writes header hw Separated) (hne : header ≠ "") :
    LinesWrite layout (place.hold (b.lines style (.body header))) (pw ++ (hw ++ bw)) :=
  hplace.hold hlayout (hinner.statement b bw hb _ _ (.body hh hne))

theorem linesWrite_statement {s : Statement} (h : inner.StatementWords s ws) {place : Place}
    {pw : List Word} (hplace : PlaceWrites place pw) :
    LinesWrite layout (s.lines style place) (pw ++ ws) := by
  have hne (s : String) : s ++ ")" ≠ "" := append_ne_empty (by decide)
  cases h with
  | declaration ht hds =>
    rw [Statement.lines]
    have hlist := writes_commaList (P := DeclaratorWords) (f := Declarator.render)
      (fun _ _ => writes_declarator) hds
    exact hplace.simple hlayout ((writes_typeUse ht).spaced hlist)
  | expression he _ =>
    rw [Statement.lines]
    exact hplace.simple hlayout (writes_excerpt he)
  | return_ h =>
    rw [Statement.lines]
    refine writes_wordLine hlayout hplace .return_ (optionWords_map h) ?_
    rintro _ ws ⟨e, he, rfl⟩
    exact writes_excerpt he
  | @if_ c t sp _ _ hc ht =>
    have hlines := linesWrite_if hlayout hinner hplace hc ht (e := none)
      (by rw [Statement.elseLines]; exact .nil) sp
    rwa [List.append_nil] at hlines
  | ifElse hc ht _ he =>
    refine linesWrite_if hlayout hinner hplace hc ht ?_ _
    rw [Statement.elseLines]
    exact (hinner.statement _ _ he _ _ .orElse).joinFirst
  | for_ hc hb =>
    rw [Statement.lines]
    exact linesWrite_loop hlayout hinner hplace hb (writes_keywordParen .for_ hc) (hne _)
  | while_ hc hb =>
    rw [Statement.lines]
    exact linesWrite_loop hlayout hinner hplace hb (writes_keywordParen .while_ hc) (hne _)
  | doWhile hc hb =>
    rw [Statement.lines]
    have hdo := hinner.statement _ _ hb _ _ (.body (writes_keyword .do_) (by decide))
    have hwhile := LinesWrite.single hlayout (writes_keywordParen .while_ hc).semicolon_behind
      (append_ne_empty (by decide))
    have hlines := hplace.hold hlayout (hdo.append hwhile.joinFirst)
    simp only [String.append_assoc, List.append_assoc, List.cons_append, List.nil_append] at hlines ⊢
    exact hlines
  | try_ hb hcs hf =>
    rw [Statement.lines]
    have hlines := hplace.hold hlayout
      (((linesWrite_braced hlayout hinner (writes_keyword .try_) hb).append
        (linesWrite_catches hlayout hinner hcs)).append (linesWrite_finally hlayout hinner hf))
    exact hlines
  | block h =>
    rw [Statement.lines]
    exact linesWrite_braced hlayout hinner hplace.header h
  | break_ hl =>
    rw [Statement.lines]
    exact writes_wordLine hlayout hplace .break_ (optionWords_name hl) fun _ _ => writes_nameWord
  | continue_ hl =>
    rw [Statement.lines]
    exact writes_wordLine hlayout hplace .continue_ (optionWords_name hl) fun _ _ => writes_nameWord
  | throw_ he =>
    rw [Statement.lines]
    exact hplace.simple hlayout ((writes_keyword .throw_).spaced (writes_excerpt he))
  | switch he hcs =>
    rw [Statement.lines]
    have hlines := hplace.hold hlayout (LinesWrite.braced hlayout (writes_keywordParen .switch_ he)
      (linesWrite_cases hlayout hinner hcs) style)
    exact hlines
  | synchronized he hb =>
    rw [Statement.lines]
    exact hplace.hold hlayout (linesWrite_braced hlayout hinner
      (writes_keywordParen (.modifier .synchronized_) he) hb)
  | labeled hl hb =>
    rw [Statement.lines]
    have hlabel := (Writes.identifier hl).append (Writes.mark .colon) fun r _ c hc => by
      cases hc
      rfl
    exact hplace.hold hlayout (.plain_cons hlayout hlabel (append_ne_empty (by decide))
      (hinner.statement _ _ hb .row [] .row))
  | assert hc hm =>
    simp only [Statement.lines]
    have hlines := hplace.simple hlayout ((writes_keyword .assert_).spaced (writes_assertion hc hm))
    simp only [List.append_assoc, List.cons_append, List.nil_append] at hlines ⊢
    exact hlines

/-- A variable with modifiers or annotations among statements. -/
theorem linesWrite_rowStatement {s : Statement} (h : inner.RowStatementWords s ws) :
    LinesWrite layout (s.lines style .row) ws := by
  cases h with
  | statement h => exact hinner.statement s ws h .row [] .row
  | field h _ =>
    obtain ⟨qw, tw, iw, ⟨has, hms⟩, ht, hname, hinit, rfl⟩ := h
    have hfield := ((writes_annotations has).append_anything (writes_field ht hname hinit))
    have hlines := PlaceWrites.row.simple hlayout hfield
    rw [Statement.lines]
    simp only [List.append_assoc, List.nil_append, List.cons_append] at hlines ⊢
    exact hlines

theorem linesWrite_row {ss : List Statement} (h : inner.RowWords ss ws) :
    LinesWrite layout (Statement.allLines style ss) ws := by
  induction h with
  | nil =>
    rw [Statement.allLines]
    exact .nil
  | cons hs _ ih =>
    rw [Statement.allLines]
    exact (linesWrite_rowStatement hlayout hinner hs).append ih

end Level

/-! ### All levels -/

theorem innerWrites_wordsAt (hlayout : layout.problem? = none) (style : BraceStyle) (n : Nat) :
    InnerWrites layout style (wordsAt rereads n) := by
  induction n with
  | zero => exact ⟨nofun, nofun, nofun⟩
  | succ n ih =>
    refine ⟨fun s ws h place pw hplace => linesWrite_statement hlayout ih h hplace,
      fun b ws h => ?_, fun ss ws h => linesWrite_row hlayout ih h⟩
    obtain ⟨ss, sp⟩ := b
    rw [Block.lines]
    exact linesWrite_row hlayout ih h

/-- A header and the body behind it. -/
theorem linesWrite_body (hlayout : layout.problem? = none) {header : String} {hw : List Word}
    (hheader : Writes header hw Separated) {n : Nat} {b : Block} (h : BodyWords rereads n b ws)
    (style : BraceStyle) :
    LinesWrite layout (Line.braced style header (b.lines style)) (hw ++ ws) :=
  linesWrite_braced hlayout (innerWrites_wordsAt hlayout style n) hheader h

end JavaTree
