import JavaTree.Proofs.Reread.Parts

/-!
Statements are read back from their words.

Each form of statement is read back if the statements inside it are, so that all of them are, by
induction on the levels. Two things depend on what comes behind a statement: an `else` belongs to
the innermost `if` that is still open, and the labels behind a case without statements belong to
that case. The first never happens to the words of a tree, and the second changes no line.
-/

namespace JavaTree.Parser

variable {α β : Type} {c : Settings} {s : State} {ts rest mid : List Token} {w : Word}
  {ws vs : List Word} {R : α → Prop} {inner : Inner} {deeper : Deeper}

/-! ### How statements start -/

/-- Kinds of tokens that, with the one behind them, start a variable with modifiers or annotations. -/
def isModifiedStart (k next : Kind) : Bool :=
  match k with
  | .mark .atSign => true
  | .keyword (.modifier .synchronized_) => next ≠ .mark .openParen
  | .keyword (.modifier .default_) => false
  | k => k.isModifier

/-- Words that go on with the statement before them. -/
def isContinuation (k : Kind) : Bool :=
  k = .keyword .else_ || k = .keyword .catch_ || k = .keyword .finally_

/-- Kinds of tokens that, with the one behind them, start a statement in a row. -/
def isRowStart (k next : Kind) : Bool :=
  !endsStatements true k && k ≠ .mark .semicolon && !isTypeWord k && !isContinuation k &&
    !isModifiedStart k next && !(k = .keyword .try_ && next = .mark .openParen)

/-- What the first token of an expression is not. -/
theorem isRowStart_of_isPlainStart {previous : Option Kind} {k next : Kind}
    (hplain : isPlainStart k next = true)
    (hpass : (expressionRule [Mark.semicolon]).endsBefore previous k next = false) :
    isRowStart k next = true := by
  rw [endsBefore_eq] at hpass
  simp only [Bool.or_eq_false_iff, expressionRule, Bool.true_and] at hpass
  obtain ⟨⟨hstop, hcloser⟩, hbound⟩ := hpass
  cases k with
  | keyword k =>
    cases k with
    | modifier m =>
      cases m <;> first | exact absurd hplain Bool.false_ne_true | simp [isBoundary] at hbound
    | _ => first | rfl | exact absurd hplain Bool.false_ne_true
  | mark m =>
    cases m <;> first
      | rfl
      | exact absurd hplain Bool.false_ne_true
      | exact absurd hcloser.symm Bool.false_ne_true
      | simp [isBoundary] at hbound
  | _ => first | rfl | exact absurd hplain Bool.false_ne_true

/-- Words of which the first two start a statement in a row. -/
def StartsRow (ws : List Word) : Prop :=
  ∃ w w' vs, ws = w :: w' :: vs ∧ isRowStart w.kind w'.kind = true

theorem startsRow_cons (hw : ∀ k, isRowStart w.kind k = true) (hws : ws ≠ []) :
    StartsRow (w :: ws) := by
  obtain ⟨w', vs, rfl⟩ := List.exists_cons_of_ne_nil hws
  exact ⟨w, w', vs, rfl, hw _⟩

/-- The first word of a type. -/
theorem typeWords_head {L : List Word → Prop} {t : TypeUse} (h : TypeWords L t ws) :
    ∃ w vs, ws = w :: vs ∧ isTypeStart w.kind = true := by
  obtain ⟨nw, hname, rfl⟩ := h
  cases hname with
  | primitive p hx => exact ⟨_, _, rfl, rfl⟩
  | named hfirst hfurther hx => exact ⟨_, _, rfl, rfl⟩

theorem isRowStart_of_isTypeStart {k : Kind} (h : isTypeStart k = true) (next : Kind) :
    isRowStart k next = true := by
  rcases isTypeStart_cases h with rfl | ⟨p, rfl⟩ <;> rfl

theorem startsRow_of_excerptWords {e : Excerpt}
    (h : ExcerptWords (expressionRule [Mark.semicolon]) e ws) (hplain : ReadsPlain e) :
    StartsRow (ws ++ [.mark .semicolon]) := by
  obtain ⟨⟨hne, -, -, hpasses⟩, -, rfl⟩ := h
  obtain ⟨hstart, -⟩ := hplain
  obtain ⟨t, us, hts⟩ := List.exists_cons_of_ne_nil hne
  have hpass := hpasses [(Word.mark .semicolon).token] nofun [] t us hts rfl
  rw [hts] at hstart
  have hrow := isRowStart_of_isPlainStart hstart hpass
  rw [Excerpt.words, hts]
  rcases us with _ | ⟨u, us⟩
  · exact ⟨t.written, .mark .semicolon, [], rfl, hrow⟩
  · exact ⟨t.written, u.written, us.map Token.written ++ [.mark .semicolon], rfl, hrow⟩

/-- The words of a statement start as a statement in a row does. -/
theorem startsRow_of_statementWords {a : Statement} (h : inner.StatementWords a ws) :
    StartsRow ws := by
  cases h with
  | declaration ht hds =>
    obtain ⟨w, vs, rfl, hw⟩ := typeWords_head ht
    exact startsRow_cons (isRowStart_of_isTypeStart hw) (by simp)
  | expression he hplain => exact startsRow_of_excerptWords he hplain
  | return_ h => exact startsRow_cons (fun _ => rfl) (by simp)
  | if_ hc ht =>
    obtain ⟨vs, -, rfl⟩ := hc
    exact startsRow_cons (fun _ => rfl) nofun
  | ifElse hc ht hopen he =>
    obtain ⟨vs, -, rfl⟩ := hc
    exact startsRow_cons (fun _ => rfl) nofun
  | for_ hc hb =>
    obtain ⟨vs, -, rfl⟩ := hc
    exact startsRow_cons (fun _ => rfl) nofun
  | while_ hc hb =>
    obtain ⟨vs, -, rfl⟩ := hc
    exact startsRow_cons (fun _ => rfl) nofun
  | doWhile hc hb => exact startsRow_cons (fun _ => rfl) (by simp)
  | try_ hb hcs hf =>
    obtain ⟨vs, -, rfl⟩ := hb
    exact ⟨_, _, _, rfl, rfl⟩
  | block h =>
    obtain ⟨vs, -, rfl⟩ := h
    exact startsRow_cons (fun _ => rfl) (by simp)
  | break_ hl => exact startsRow_cons (fun _ => rfl) (by simp)
  | continue_ hl => exact startsRow_cons (fun _ => rfl) (by simp)
  | throw_ he => exact startsRow_cons (fun _ => rfl) (by simp)
  | switch he hcs =>
    obtain ⟨vs, -, rfl⟩ := he
    exact startsRow_cons (fun _ => rfl) nofun
  | synchronized he hb =>
    obtain ⟨vs, -, rfl⟩ := he
    exact ⟨_, _, _, rfl, rfl⟩
  | labeled hl hb => exact ⟨_, _, _, rfl, rfl⟩
  | assert hc hm => exact startsRow_cons (fun _ => rfl) (by simp)

/-- What a row sees of a statement that starts there, or of a variable with modifiers or
annotations. -/
structure Sees (isModified : Bool) (ts : List Token) : Prop where
  goesOn : ∀ inSwitch, endsStatements inSwitch (kindOf ts) = false
  semicolon : kindOf ts ≠ .mark .semicolon
  typeWord : isTypeWord (kindOf ts) = false
  continuation : isContinuation (kindOf ts) = false
  modified : looksLikeModified ts = isModified
  resources : startsWith Keyword.try_ Mark.openParen ts = false

theorem endsStatements_le {k : Kind} (h : endsStatements true k = false) (inSwitch : Bool) :
    endsStatements inSwitch k = false := by
  cases inSwitch with
  | true => exact h
  | false =>
    revert h
    unfold endsStatements
    split <;> simp

/-- A row sees a statement where the words of one start. -/
theorem StartsRow.sees (h : StartsRow ws) (hs : Begins ts (ws ++ vs) rest) : Sees false ts := by
  obtain ⟨w, w', us, rfl, hstart⟩ := h
  have hk : kindOf ts = w.kind := Begins.kindOf hs
  have hnext : kindOf (ts.drop 1) = w'.kind := Begins.kindOf (Begins.tail hs)
  simp only [isRowStart, Bool.and_eq_true, Bool.not_eq_true', decide_eq_true_eq] at hstart
  obtain ⟨⟨⟨⟨⟨hends, hsemi⟩, htype⟩, hcont⟩, hmod⟩, htry⟩ := hstart
  refine ⟨endsStatements_le (by rw [hk, hends]), by rw [hk]; exact hsemi, by rw [hk, htype],
    by rw [hk, hcont], ?_, ?_⟩
  · rw [← hmod, ← hk, ← hnext]
    rfl
  · rw [Begins.startsWith hs]
    exact htry

/-! ### What is read back -/

/-- Statements that are written alike, wherever they stand. -/
def AlikeStatement (a b : Statement) : Prop := ∀ style place, a.lines style place = b.lines style place

/-- Blocks that are written alike. -/
def AlikeBlock (a b : Block) : Prop := ∀ style, a.lines style = b.lines style

/-- Rows of statements that are written alike. -/
def AlikeRow (ss ts : List Statement) : Prop :=
  ∀ style, Statement.allLines style ss = Statement.allLines style ts

/-- What may follow a statement. -/
structure Follows (a : Statement) (rest : List Token) : Prop where
  catch_ : kindOf rest ≠ .keyword .catch_
  finally_ : kindOf rest ≠ .keyword .finally_
  else_ : a.EndsOpen → kindOf rest ≠ .keyword .else_

/-- The readers for one level further in read words of that level back. -/
structure Rereads (c : Settings) (deeper : Deeper) (inner : Inner) : Prop where
  rereads : inner.rereads
  statement : ∀ {a ws s rest}, inner.statement a ws → Begins s.rest ws rest → Follows a rest →
    Yields c s deeper.statement rest (AlikeStatement · a)
  block : ∀ {b ws s rest}, inner.BracedWords b ws → Begins s.rest ws rest →
    Yields c s deeper.block rest (AlikeBlock · b)
  caseBody : ∀ {ss ws s rest}, inner.caseBody ss ws → Begins s.rest ws rest →
    endsStatements true (kindOf rest) = true → Yields c s deeper.caseBody rest (AlikeRow · ss)
  start : ∀ {a ws}, inner.statement a ws → StartsRow ws
  caseStart : ∀ {ss ws}, inner.caseBody ss ws → (ss = [] ∧ ws = []) ∨
    (ss ≠ [] ∧ ∃ w vs, ws = w :: vs ∧ endsStatements true w.kind = false)

/-! ### Single statements -/

theorem yields_returnStatement {value : Option Excerpt} {l : Location} {sp : Span}
    (h : OptionWords (ExcerptWords (expressionRule [Mark.semicolon])) value ws)
    (hs : Begins s.rest (.keyword .return_ :: ws ++ [.mark .semicolon]) rest) :
    Yields c s (returnStatement l) rest (AlikeStatement · (.return_ value sp)) := by
  refine yields_skip_one hs fun s₁ hs₁ => ?_
  rw [yields_check]
  cases h with
  | none =>
    have hkind : kindOf s₁.rest = .mark .semicolon := Begins.kindOf hs₁
    rw [if_pos (by simpa using hkind), pure_bind]
    refine yields_require hs₁ rfl _ fun s₂ hs₂ => ?_
    rw [yields_spanFrom]
    exact yields_pure (begins_nil.mp hs₂) fun _ _ => by simp only [Statement.lines]
  | some he =>
    have hkind : kindOf s₁.rest ≠ .mark .semicolon := kindOf_of_excerptWords he hs₁ (.inl rfl)
    rw [if_neg (by simpa using hkind)]
    refine Yields.then hs₁ (fun mid hmid hbehind => yields_excerpt he hmid ?_ _)
      fun e' s₂ hs₂ he' => ?_
    · rw [hbehind.kindOf]
      decide
    · rw [pure_bind]
      refine yields_require hs₂ rfl _ fun s₃ hs₃ => ?_
      rw [yields_spanFrom]
      refine yields_pure (begins_nil.mp hs₃) fun _ _ => ?_
      simp only [Statement.lines, Option.map_some, he']

theorem yields_throwStatement {e : Excerpt} {l : Location} {sp : Span}
    (h : ExcerptWords (expressionRule [Mark.semicolon]) e ws)
    (hs : Begins s.rest (.keyword .throw_ :: ws ++ [.mark .semicolon]) rest) :
    Yields c s (throwStatement l) rest (AlikeStatement · (.throw_ e sp)) := by
  refine yields_skip_one hs fun s₁ hs₁ => ?_
  refine Yields.then hs₁ (fun mid hmid hbehind => yields_excerpt h hmid ?_ _) fun e' s₂ hs₂ he' => ?_
  · rw [hbehind.kindOf]
    decide
  · refine yields_require hs₂ rfl _ fun s₃ hs₃ => ?_
    rw [yields_spanFrom]
    refine yields_pure (begins_nil.mp hs₃) fun _ _ => ?_
    simp only [Statement.lines, he']

/-- A jump with or without a label is read as it is written. -/
theorem yields_jumpStatement {label : Option String} {make : Option String → Span → Statement}
    {sp : Span} (hmake : ∀ sp', AlikeStatement (make label sp') (make label sp)) {l : Location}
    (hs : Begins s.rest (w :: label.toList.map .name ++ [.mark .semicolon]) rest) :
    Yields c s (jumpStatement make l) rest (AlikeStatement · (make label sp)) := by
  refine yields_skip_one hs fun s₁ hs₁ => ?_
  rw [yields_check]
  cases label with
  | none =>
    have hkind : kindOf s₁.rest = .mark .semicolon := Begins.kindOf hs₁
    rw [if_neg (by rw [hkind]; decide), pure_bind]
    refine yields_require hs₁ rfl _ fun s₂ hs₂ => ?_
    rw [yields_spanFrom]
    exact yields_pure (begins_nil.mp hs₂) (hmake _)
  | some x =>
    have hkind : kindOf s₁.rest = .identifier := Begins.kindOf hs₁
    rw [if_pos (by rw [hkind]; decide)]
    refine yields_identifier hs₁ fun s₂ hs₂ => ?_
    rw [pure_bind]
    refine yields_require hs₂ rfl _ fun s₃ hs₃ => ?_
    rw [yields_spanFrom]
    exact yields_pure (begins_nil.mp hs₃) (hmake _)

theorem yields_assertStatement {e : Excerpt} {m : Option Excerpt} {ew mw : List Word} {l : Location}
    {sp : Span} (he : ExcerptWords (expressionRule [Mark.colon, Mark.semicolon]) e ew)
    (hm : OptionWords MessageWords m mw)
    (hs : Begins s.rest (.keyword .assert_ :: ew ++ mw ++ [.mark .semicolon]) rest) :
    Yields c s (assertStatement l) rest (AlikeStatement · (.assert e m sp)) := by
  rw [List.append_assoc] at hs
  refine yields_skip_one hs fun s₁ hs₁ => ?_
  cases hm with
  | none =>
    refine Yields.then hs₁ (fun mid hmid hbehind => yields_excerpt he hmid ?_ _)
      fun e' s₂ hs₂ he' => ?_
    · rw [Begins.kindOf hbehind]
      decide
    · have hkind : kindOf s₂.rest = .mark .semicolon := Begins.kindOf hs₂
      rw [yields_accept_none (by rw [hkind]; decide), if_neg nofun, pure_bind]
      refine yields_require hs₂ rfl _ fun s₃ hs₃ => ?_
      rw [yields_spanFrom]
      refine yields_pure (begins_nil.mp hs₃) fun _ _ => ?_
      simp only [Statement.lines, he']
  | some hm =>
    obtain ⟨vs, hm, rfl⟩ := hm
    refine Yields.then hs₁ (fun mid hmid hbehind => yields_excerpt he hmid ?_ _)
      fun e' s₂ hs₂ he' => ?_
    · rw [Begins.kindOf hbehind]
      decide
    · refine yields_accept hs₂ rfl fun s₃ hs₃ => ?_
      rw [if_pos rfl]
      refine Yields.then hs₃ (fun mid hmid hbehind => yields_excerpt hm hmid ?_ _)
        fun m' s₄ hs₄ hm' => ?_
      · rw [hbehind.kindOf]
        decide
      · rw [pure_bind]
        refine yields_require hs₄ rfl _ fun s₅ hs₅ => ?_
        rw [yields_spanFrom]
        refine yields_pure (begins_nil.mp hs₅) fun _ _ => ?_
        simp only [Statement.lines, he', hm']

theorem yields_labeledStatement {x : String} {b : Statement} {bw : List Word} {l : Location}
    {sp : Span} (hd : Rereads c deeper inner) (hb : inner.statement b bw)
    (hs : Begins s.rest (.name x :: .mark .colon :: bw) rest)
    (hrest : Follows (.labeled x b sp) rest) :
    Yields c s (labeledStatement deeper l) rest (AlikeStatement · (.labeled x b sp)) := by
  refine yields_identifier hs fun s₁ hs₁ => ?_
  refine yields_skip_one hs₁ fun s₂ hs₂ => ?_
  have hbody : Follows b rest := ⟨hrest.catch_, hrest.finally_, fun h => hrest.else_ (.labeled h)⟩
  refine (hd.statement hb hs₂ hbody).bind fun b' s₃ hs₃ hb' => ?_
  rw [yields_spanFrom]
  refine yields_pure hs₃ fun style place => ?_
  simp only [Statement.lines, hb' style]

/-- The body of a loop is read behind the header of the loop. -/
theorem yields_loop {e : Excerpt} {b : Statement} {cw bw : List Word}
    (make : Excerpt → Statement → Span → Statement) {what : String} {l : Location} {sp : Span}
    (hd : Rereads c deeper inner) (hc : ParenWords e cw)
    (hb : inner.statement b bw) (hs : Begins s.rest (w :: cw ++ bw) rest)
    (hopen : b.EndsOpen → (make e b sp).EndsOpen) (hrest : Follows (make e b sp) rest)
    (hmake : ∀ e' b' sp', e'.render = e.render → AlikeStatement b' b →
      AlikeStatement (make e' b' sp') (make e b sp)) :
    Yields c s (do
      skip 1
      let e' ← parenthesized what
      let b' ← deeper.statement
      return make e' b' (← Parser.spanFrom l)) rest (AlikeStatement · (make e b sp)) := by
  refine yields_skip_one hs fun s₁ hs₁ => ?_
  refine Yields.then hs₁ (fun mid hmid _ => yields_parenthesized hc hmid _) fun e' s₂ hs₂ he' => ?_
  have hbody : Follows b rest := ⟨hrest.catch_, hrest.finally_, fun h => hrest.else_ (hopen h)⟩
  refine (hd.statement hb hs₂ hbody).bind fun b' s₃ hs₃ hb' => ?_
  rw [yields_spanFrom]
  exact yields_pure hs₃ (hmake e' b' _ he' hb')

theorem yields_forStatement {e : Excerpt} {b : Statement} {cw bw : List Word} {l : Location}
    {sp : Span} (hd : Rereads c deeper inner) (hc : ParenWords e cw) (hb : inner.statement b bw)
    (hs : Begins s.rest (.keyword .for_ :: cw ++ bw) rest) (hrest : Follows (.for_ e b sp) rest) :
    Yields c s (forStatement deeper l) rest (AlikeStatement · (.for_ e b sp)) := by
  refine yields_loop .for_ hd hc hb hs .for_ hrest fun e' b' sp' he' hb' style place => ?_
  simp only [Statement.lines, he', hb' style]

theorem yields_whileStatement {e : Excerpt} {b : Statement} {cw bw : List Word} {l : Location}
    {sp : Span} (hd : Rereads c deeper inner) (hc : ParenWords e cw) (hb : inner.statement b bw)
    (hs : Begins s.rest (.keyword .while_ :: cw ++ bw) rest)
    (hrest : Follows (.while_ e b sp) rest) :
    Yields c s (whileStatement deeper l) rest (AlikeStatement · (.while_ e b sp)) := by
  refine yields_loop .while_ hd hc hb hs .while_ hrest
    fun e' b' sp' he' hb' style place => ?_
  simp only [Statement.lines, he', hb' style]

theorem yields_doStatement {e : Excerpt} {b : Statement} {cw bw : List Word} {l : Location}
    {sp : Span} (hd : Rereads c deeper inner) (hc : ParenWords e cw) (hb : inner.statement b bw)
    (hs : Begins s.rest (.keyword .do_ :: bw ++ .keyword .while_ :: cw ++ [.mark .semicolon]) rest) :
    Yields c s (doStatement deeper l) rest (AlikeStatement · (.doWhile b e sp)) := by
  rw [List.append_assoc] at hs
  refine yields_skip_one hs fun s₁ hs₁ => ?_
  refine Yields.then hs₁ (fun mid hmid hbehind => hd.statement hb hmid ?_) fun b' s₂ hs₂ hb' => ?_
  · have hkind : kindOf mid = .keyword .while_ := Begins.kindOf hbehind
    refine ⟨?_, ?_, fun _ => ?_⟩ <;> rw [hkind] <;> exact nofun
  · refine yields_require hs₂ rfl _ fun s₃ hs₃ => ?_
    refine Yields.then hs₃ (fun mid hmid _ => yields_parenthesized hc hmid _)
      fun e' s₄ hs₄ he' => ?_
    refine yields_require hs₄ rfl _ fun s₅ hs₅ => ?_
    rw [yields_spanFrom]
    refine yields_pure (begins_nil.mp hs₅) fun style place => ?_
    simp only [Statement.lines, he', hb' style]

theorem yields_ifStatement {e : Excerpt} {t : Statement} {cw tw : List Word} {l : Location}
    {sp : Span} (hd : Rereads c deeper inner) (hc : ParenWords e cw) (ht : inner.statement t tw)
    (hs : Begins s.rest (.keyword .if_ :: cw ++ tw) rest) (hrest : Follows (.if_ e t none sp) rest) :
    Yields c s (ifStatement deeper l) rest (AlikeStatement · (.if_ e t none sp)) := by
  have helse : kindOf rest ≠ .keyword .else_ := hrest.else_ .if_
  refine yields_skip_one hs fun s₁ hs₁ => ?_
  refine Yields.then hs₁ (fun mid hmid _ => yields_parenthesized hc hmid _) fun e' s₂ hs₂ he' => ?_
  refine (hd.statement ht hs₂ ⟨hrest.catch_, hrest.finally_, fun _ => helse⟩).bind
    fun t' s₃ hs₃ ht' => ?_
  rw [yields_accept_none (by rwa [hs₃]), if_neg nofun, pure_bind, yields_spanFrom]
  refine yields_pure hs₃ fun style place => ?_
  cases place <;> simp only [Statement.lines, he', ht' style]

theorem yields_ifElseStatement {e : Excerpt} {t f : Statement} {cw tw fw : List Word} {l : Location}
    {sp : Span} (hd : Rereads c deeper inner) (hc : ParenWords e cw) (ht : inner.statement t tw)
    (hopen : ¬ t.EndsOpen) (hf : inner.statement f fw)
    (hs : Begins s.rest (.keyword .if_ :: cw ++ tw ++ .keyword .else_ :: fw) rest)
    (hrest : Follows (.if_ e t (some f) sp) rest) :
    Yields c s (ifStatement deeper l) rest (AlikeStatement · (.if_ e t (some f) sp)) := by
  rw [List.append_assoc] at hs
  refine yields_skip_one hs fun s₁ hs₁ => ?_
  refine Yields.then hs₁ (fun mid hmid _ => yields_parenthesized hc hmid _) fun e' s₂ hs₂ he' => ?_
  refine Yields.then hs₂ (fun mid hmid hbehind => hd.statement ht hmid ?_) fun t' s₃ hs₃ ht' => ?_
  · refine ⟨?_, ?_, fun h => absurd h hopen⟩ <;> rw [hbehind.kindOf] <;> exact nofun
  · refine yields_accept hs₃ rfl fun s₄ hs₄ => ?_
    rw [if_pos rfl]
    have helse : Follows f rest := ⟨hrest.catch_, hrest.finally_, fun h => hrest.else_ (.else_ h)⟩
    refine (hd.statement hf hs₄ helse).bind fun f' s₅ hs₅ hf' => ?_
    rw [pure_bind, yields_spanFrom]
    refine yields_pure hs₅ fun style place => ?_
    cases place <;> simp only [Statement.lines, Statement.elseLines, he', ht' style, hf' style]

theorem yields_synchronizedStatement {e : Excerpt} {b : Block} {ew bw : List Word} {l : Location}
    {sp : Span} (hd : Rereads c deeper inner) (he : ParenWords e ew) (hb : inner.BracedWords b bw)
    (hs : Begins s.rest (.keyword (.modifier .synchronized_) :: ew ++ bw) rest) :
    Yields c s (synchronizedStatement deeper l) rest (AlikeStatement · (.synchronized e b sp)) := by
  refine yields_skip_one hs fun s₁ hs₁ => ?_
  refine Yields.then hs₁ (fun mid hmid _ => yields_parenthesized he hmid _) fun e' s₂ hs₂ he' => ?_
  refine (hd.block hb hs₂).bind fun b' s₃ hs₃ hb' => ?_
  rw [yields_spanFrom]
  refine yields_pure hs₃ fun style place => ?_
  simp only [Statement.lines, he', hb' style]

/-! ### Clauses of `try` -/

/-- Clauses that are written alike. -/
def AlikeCatches (cs ds : List CatchClause) : Prop :=
  ∀ style, CatchClause.allLines style cs = CatchClause.allLines style ds

theorem yields_catchClauses {cs : List CatchClause} (hd : Rereads c deeper inner)
    (h : EachWords inner.CatchWords cs ws) (hs : Begins s.rest ws rest)
    (hrest : kindOf rest ≠ .keyword .catch_) {n : Nat} (hn : cs.length ≤ n) :
    Yields c s (catchClauses deeper n) rest (AlikeCatches · cs) := by
  induction h generalizing s n with
  | nil =>
    have hs : s.rest = rest := begins_nil.mp hs
    cases n with
    | zero => exact yields_pure hs fun _ => rfl
    | succ n =>
      rw [catchClauses, yields_here, yields_accept_none (by rwa [hs]), if_neg Bool.false_ne_true]
      exact yields_pure hs fun _ => rfl
  | @cons a cs aw vs ha has ih =>
    obtain ⟨n, rfl⟩ : ∃ m, n = m + 1 := ⟨n - 1, by simp only [List.length_cons] at hn; omega⟩
    obtain ⟨pw, bw, hp, hb, rfl⟩ := ha
    obtain ⟨param, body, sp⟩ := a
    simp only [List.cons_append, List.append_assoc] at hs
    rw [catchClauses, yields_here]
    refine yields_accept hs rfl fun s₁ hs₁ => ?_
    rw [if_pos rfl]
    refine Yields.then hs₁ (fun mid hmid _ => yields_parenthesized hp hmid _)
      fun p s₂ hs₂ hp' => ?_
    refine Yields.then hs₂ (fun mid hmid _ => hd.block hb hmid) fun b s₃ hs₃ hb' => ?_
    rw [yields_spanFrom]
    refine (ih hs₃ ?_).bind fun cs' s₄ hs₄ hcs' => yields_pure hs₄ fun style => ?_
    · simp only [List.length_cons] at hn
      omega
    · simp only [CatchClause.allLines, hcs' style, hp', hb' style]

theorem catchWords_ne_nil {a : CatchClause} (h : inner.CatchWords a ws) : ws ≠ [] := by
  obtain ⟨pw, bw, -, -, rfl⟩ := h
  exact nofun

/-- Writing to the journal yields nothing. -/
theorem yields_note (e : Event) {f : Unit → Parser α}
    (hf : ∀ s' : State, s'.rest = s.rest → Yields c s' (f ()) rest R) :
    Yields c s (note e >>= f) rest R := by
  intro hroom
  obtain ⟨a, s', ha, hrest, hdiag, h⟩ := hf { s with journal := s.journal ++ [e] } rfl hroom
  exact ⟨a, s', by rw [bind_run_ok (note_run e), ha], hrest, hdiag, h⟩

theorem yields_tryStatement {b : Block} {cs : List CatchClause} {f : Option Block}
    {bw cw fw : List Word} {l : Location} {sp : Span} (hd : Rereads c deeper inner)
    (hb : inner.BracedWords b bw) (hcs : EachWords inner.CatchWords cs cw)
    (hf : OptionWords inner.FinallyWords f fw)
    (hs : Begins s.rest (.keyword .try_ :: bw ++ cw ++ fw) rest)
    (hrest : Follows (.try_ b cs f sp) rest) :
    Yields c s (tryStatement deeper l) rest (AlikeStatement · (.try_ b cs f sp)) := by
  simp only [List.cons_append, List.append_assoc] at hs
  refine yields_skip_one hs fun s₁ hs₁ => ?_
  refine Yields.then hs₁ (fun mid hmid _ => hd.block hb hmid) fun b' s₂ hs₂ hb' => ?_
  rw [yields_steps]
  refine Yields.then hs₂ (fun mid hmid hbehind => yields_catchClauses hd hcs hmid ?_ ?_)
    fun cs' s₃ hs₃ hcs' => ?_
  · cases hf with
    | none =>
      rw [begins_nil.mp hbehind]
      exact hrest.catch_
    | some hf =>
      obtain ⟨fw, -, rfl⟩ := hf
      rw [hbehind.kindOf]
      intro hcatch
      cases hcatch
  · have hle := length_le_of_eachWords hcs fun _ _ => catchWords_ne_nil
    have hlen := hmid.length_eq
    omega
  -- a `try` without clauses is noted in the journal, which changes nothing that is read
  have hend (f' : Option Block) (s' : State) (hs' : s'.rest = rest)
      (hf' : ∀ style, Block.finallyLines style f' = Block.finallyLines style f) :
      Yields c s' (do
        if cs'.isEmpty && f'.isNone then note (.bareTry l)
        return Statement.try_ b' cs' f' (← Parser.spanFrom l)) rest
        (AlikeStatement · (.try_ b cs f sp)) := by
    have halike (sp' : Span) : AlikeStatement (.try_ b' cs' f' sp') (.try_ b cs f sp) := by
      intro style place
      simp only [Statement.lines, hb' style, hcs' style, hf' style]
    split
    · refine yields_note _ fun s'' hs'' => ?_
      rw [yields_spanFrom]
      exact yields_pure (hs''.trans hs') (halike _)
    · exact (yields_spanFrom l _).mpr (yields_pure hs' (halike _))
  cases hf with
  | none =>
    have hs₃ : s₃.rest = rest := begins_nil.mp hs₃
    rw [yields_accept_none (by rw [hs₃]; exact hrest.finally_), if_neg Bool.false_ne_true, pure_bind]
    exact hend none s₃ hs₃ fun _ => rfl
  | some hf =>
    obtain ⟨fw, hfb, rfl⟩ := hf
    refine yields_accept hs₃ rfl fun s₄ hs₄ => ?_
    rw [if_pos rfl]
    refine (hd.block hfb hs₄).bind fun f' s₅ hs₅ hf' => ?_
    rw [pure_bind]
    refine hend (some f') s₅ hs₅ fun style => ?_
    simp only [Block.finallyLines, hf' style]

/-! ### Cases of `switch` -/

/-- Labels that are written alike. -/
def AlikeLabels (ls ms : List CaseLabel) : Prop := ls.map CaseLabel.line = ms.map CaseLabel.line

/-- What starts a label. -/
def startsLabel (k : Kind) : Bool := k = .keyword .case_ || k = .keyword (.modifier .default_)

theorem labelWords_head {label : CaseLabel} (h : LabelWords label ws) :
    ∃ w vs, ws = w :: vs ∧ startsLabel w.kind = true := by
  cases h with
  | value h => exact ⟨_, _, rfl, rfl⟩
  | default => exact ⟨_, _, rfl, rfl⟩

theorem yields_caseLabels {ls : List CaseLabel} (h : EachWords LabelWords ls ws)
    (hs : Begins s.rest ws rest) (hrest : startsLabel (kindOf rest) = false) {n : Nat}
    (hn : ls.length ≤ n) : Yields c s (caseLabels n) rest (AlikeLabels · ls) := by
  induction h generalizing s n with
  | nil =>
    have hs : s.rest = rest := begins_nil.mp hs
    cases n with
    | zero => exact yields_pure hs rfl
    | succ n =>
      rw [caseLabels, yields_check, yields_check, hs,
        if_neg (by rw [← startsLabel, hrest]; exact Bool.false_ne_true)]
      exact yields_pure hs rfl
  | @cons a ls aw vs ha has ih =>
    obtain ⟨n, rfl⟩ : ∃ m, n = m + 1 := ⟨n - 1, by simp only [List.length_cons] at hn; omega⟩
    have hlabel : startsLabel (kindOf s.rest) = true := by
      obtain ⟨w, us, rfl, hw⟩ := labelWords_head ha
      rw [Begins.kindOf hs]
      exact hw
    -- behind the label itself, its colon and the other labels
    have hmore (l : CaseLabel) (hl : l.line = a.line) (s' : State)
        (hs' : Begins s'.rest (.mark .colon :: vs) rest) :
        Yields c s' (do
          if ← check Mark.arrow then return [l]
          else
            require Mark.colon "':' after case label"
            return l :: (← caseLabels n)) rest (AlikeLabels · (a :: ls)) := by
      rw [yields_check, if_neg (by rw [hs'.kindOf]; decide)]
      refine yields_require hs' rfl _ fun s₁ hs₁ => ?_
      refine (ih hs₁ ?_).bind fun ls' s₂ hs₂ hls' => yields_pure hs₂ ?_
      · simp only [List.length_cons] at hn
        omega
      · rw [AlikeLabels, List.map_cons, List.map_cons, hl, hls']
    rw [caseLabels, yields_check, yields_check, if_pos (show (_ || _) = true from hlabel)]
    cases ha with
    | default =>
      refine yields_accept hs rfl fun s₁ hs₁ => ?_
      rw [if_pos rfl, pure_bind]
      exact hmore .default rfl s₁ hs₁
    | @value e ew he =>
      have hkind : kindOf s.rest = .keyword .case_ := Begins.kindOf hs
      rw [yields_accept_none (by rw [hkind]; decide), if_neg Bool.false_ne_true]
      simp only [List.cons_append, List.append_assoc] at hs
      refine yields_skip_one hs fun s₁ hs₁ => ?_
      refine Yields.then hs₁ (fun mid hmid hbehind => yields_excerpt he hmid ?_ _)
        fun e' s₂ hs₂ he' => ?_
      · rw [Begins.kindOf hbehind]
        decide
      · rw [pure_bind]
        exact hmore (.value e') (by rw [CaseLabel.line, CaseLabel.line, he']) s₂ hs₂

theorem yields_someCaseLabels {ls : List CaseLabel} (h : EachWords LabelWords ls ws)
    (hne : ls ≠ []) (hs : Begins s.rest ws rest) (hrest : startsLabel (kindOf rest) = false) :
    Yields c s someCaseLabels rest (AlikeLabels · ls) := by
  rw [someCaseLabels, yields_steps]
  refine (yields_caseLabels h hs hrest ?_).bind fun ls' s₁ hs₁ hls' => ?_
  · have hle := length_le_of_eachWords h fun _ _ hl => by
      obtain ⟨w, vs, rfl, -⟩ := labelWords_head hl
      exact nofun
    have hlen := hs.length_eq
    omega
  · have hne' : ls'.isEmpty = false := by
      rw [List.isEmpty_eq_false_iff]
      rintro rfl
      exact hne (List.map_eq_nil_iff.mp hls'.symm)
    rw [if_neg (by rw [hne']; exact nofun)]
    exact yields_pure hs₁ hls'

/-- A case in front of others: without statements, it gives its labels to the next one. -/
def joinCase (k : SwitchCase) : List SwitchCase → List SwitchCase
  | [] => [k]
  | m :: ms =>
    if k.statements.isEmpty then ⟨k.labels ++ m.labels, m.statements, m.span⟩ :: ms else k :: m :: ms

/-- Cases as they are read: labels in a row belong together. -/
def mergeCases : List SwitchCase → List SwitchCase
  | [] => []
  | k :: ks => joinCase k (mergeCases ks)

/-- Only the last case may have no statements. -/
def Settled : List SwitchCase → Prop
  | k :: m :: ks => k.statements ≠ [] ∧ Settled (m :: ks)
  | _ => True

/-- Cases that are written alike. -/
def AlikeCases (ks ms : List SwitchCase) : Prop :=
  ∀ style, SwitchCase.allLines style ks = SwitchCase.allLines style ms

theorem settled_mergeCases (ks : List SwitchCase) : Settled (mergeCases ks) := by
  induction ks with
  | nil => trivial
  | cons k ks ih =>
    rw [mergeCases]
    rcases hm : mergeCases ks with _ | ⟨m, ms⟩
    · trivial
    · rw [hm] at ih
      rw [joinCase]
      split
      · cases ms with
        | nil => trivial
        | cons m' ms => exact ih
      · next hne => exact ⟨fun h => hne (List.isEmpty_iff.mpr h), ih⟩

theorem alike_mergeCases (ks : List SwitchCase) : AlikeCases (mergeCases ks) ks := by
  intro style
  induction ks with
  | nil => rfl
  | cons k ks ih =>
    obtain ⟨ls, ss, sp⟩ := k
    rw [mergeCases]
    rcases hm : mergeCases ks with _ | ⟨⟨ls', ss', sp'⟩, ms⟩
    · rw [hm] at ih
      simp only [joinCase, SwitchCase.allLines, ← ih]
    · rw [hm] at ih
      rw [joinCase]
      split
      · next hnil =>
        obtain rfl : ss = [] := List.isEmpty_iff.mp hnil
        simp only [SwitchCase.allLines, ← ih, Statement.allLines, Line.indentAll, List.map_nil,
          List.append_nil, List.map_append, List.append_assoc]
      · simp only [SwitchCase.allLines, ← ih]

/-- Merging cases does not change their words. -/
theorem words_mergeCases (hd : Rereads c deeper inner) {ks : List SwitchCase}
    (h : EachWords inner.CaseWords ks ws) : EachWords inner.CaseWords (mergeCases ks) ws := by
  induction h with
  | nil => exact .nil
  | @cons k ks kw vs hk hks ih =>
    rw [mergeCases]
    rcases hm : mergeCases ks with _ | ⟨m, ms⟩
    · rw [hm] at ih
      exact .cons hk ih
    · rw [hm] at ih
      rw [joinCase]
      split
      · next hnil =>
        obtain ⟨lw, bw, hne, hlabels, hbody, -, rfl⟩ := hk
        rw [List.isEmpty_iff.mp hnil] at hbody
        obtain ⟨-, rfl⟩ | ⟨hss, -⟩ := hd.caseStart hbody
        · cases ih with
          | cons hm hms =>
            obtain ⟨lw', bw', hne', hlabels', hbody', harrow, rfl⟩ := hm
            rw [List.append_nil, ← List.append_assoc]
            refine .cons ⟨lw ++ lw', bw', by simp [hne], hlabels.append hlabels', hbody', harrow, ?_⟩
              hms
            rw [List.append_assoc]
        · exact absurd rfl hss
      · exact .cons hk ih

/-- The words of a case start with a label. -/
theorem caseWords_head {k : SwitchCase} (h : inner.CaseWords k ws) :
    ∃ w vs, ws = w :: vs ∧ startsLabel w.kind = true := by
  obtain ⟨lw, bw, hne, hlabels, -, -, rfl⟩ := h
  generalize k.labels = ls at hne hlabels
  cases hlabels with
  | nil => exact absurd rfl hne
  | cons hl _ =>
    obtain ⟨w, vs, rfl, hw⟩ := labelWords_head hl
    exact ⟨w, _, rfl, hw⟩

theorem endsStatements_of_startsLabel {k : Kind} (h : startsLabel k = true) :
    endsStatements true k = true ∧ endsStatements false k = false := by
  simp only [startsLabel, Bool.or_eq_true, decide_eq_true_eq] at h
  rcases h with rfl | rfl <;> exact ⟨rfl, rfl⟩

/-- What comes behind the statements of a case ends them. -/
theorem endsStatements_behind_case {ks : List SwitchCase} (h : EachWords inner.CaseWords ks ws)
    (hs : Begins mid ws rest) (hrest : kindOf rest = .mark .closeBrace) :
    endsStatements true (kindOf mid) = true := by
  cases h with
  | nil =>
    rw [begins_nil.mp hs, hrest]
    rfl
  | cons hk _ =>
    obtain ⟨w, vs, rfl, hw⟩ := caseWords_head hk
    rw [Begins.kindOf hs]
    exact (endsStatements_of_startsLabel hw).1

/-- Behind the labels of a case that is read, there is neither a label nor an arrow. -/
theorem kindOf_behind_labels (hd : Rereads c deeper inner) {k : SwitchCase} {ks : List SwitchCase}
    {bw : List Word} (hbody : inner.caseBody k.statements bw)
    (harrow : ∀ w ∈ bw.head?, w.kind ≠ .mark .arrow) (hsettled : Settled (k :: ks))
    (h : EachWords inner.CaseWords ks ws) (hs : Begins mid (bw ++ ws) rest)
    (hrest : kindOf rest = .mark .closeBrace) :
    startsLabel (kindOf mid) = false ∧ kindOf mid ≠ .mark .arrow := by
  obtain ⟨hnil, rfl⟩ | ⟨-, w, vs, rfl, hw⟩ := hd.caseStart hbody
  · cases h with
    | nil =>
      rw [begins_nil.mp hs, hrest]
      exact ⟨rfl, nofun⟩
    | cons _ _ => exact absurd hnil hsettled.1
  · rw [Begins.kindOf hs]
    refine ⟨?_, harrow w rfl⟩
    cases hlabel : startsLabel w.kind with
    | false => rfl
    | true =>
      rw [(endsStatements_of_startsLabel hlabel).1] at hw
      cases hw

theorem Settled.tail {k : SwitchCase} {ks : List SwitchCase} (h : Settled (k :: ks)) :
    Settled ks := by
  cases ks with
  | nil => trivial
  | cons m ms => exact h.2

theorem yields_switchCases {ks : List SwitchCase} (hd : Rereads c deeper inner)
    (h : EachWords inner.CaseWords ks ws) (hsettled : Settled ks) (hs : Begins s.rest ws rest)
    (hrest : kindOf rest = .mark .closeBrace) {n : Nat} (hn : ks.length ≤ n) :
    Yields c s (switchCases deeper n) rest (AlikeCases · ks) := by
  induction h generalizing s n with
  | nil =>
    have hs : s.rest = rest := begins_nil.mp hs
    cases n with
    | zero => exact yields_pure hs fun _ => rfl
    | succ n =>
      have hends : endsStatements false (kindOf s.rest) = true := by
        rw [hs, hrest]
        rfl
      rw [switchCases, yields_kind, if_pos hends]
      exact yields_pure hs fun _ => rfl
  | @cons k ks kw vs hk hks ih =>
    obtain ⟨n, rfl⟩ : ∃ m, n = m + 1 := ⟨n - 1, by simp only [List.length_cons] at hn; omega⟩
    have hstart : endsStatements false (kindOf s.rest) = false := by
      obtain ⟨w, us, rfl, hw⟩ := caseWords_head hk
      rw [Begins.kindOf hs]
      exact (endsStatements_of_startsLabel hw).2
    obtain ⟨lw, bw, hne, hlabels, hbody, harrow, rfl⟩ := hk
    have harrow := harrow hd.rereads
    rw [List.append_assoc] at hs
    rw [switchCases, yields_kind, if_neg (by rw [hstart]; exact nofun), yields_here]
    refine Yields.then (P := fun o => ∃ ls, o = some ls ∧ AlikeLabels ls k.labels) hs
      (fun mid hmid hbehind => Yields.recover (Yields.map (yields_someCaseLabels hlabels hne hmid ?_)
        fun ls hls => ⟨ls, rfl, hls⟩) _) fun o s₁ hs₁ ho => ?_
    · exact (kindOf_behind_labels hd hbody harrow hsettled hks hbehind hrest).1
    · obtain ⟨ls, rfl, hls⟩ := ho
      have hkind := (kindOf_behind_labels hd hbody harrow hsettled hks hs₁ hrest).2
      dsimp only
      rw [yields_check, if_neg (by simpa using hkind)]
      refine Yields.then (P := fun o => ∃ ss, o = some ss ∧ AlikeRow ss k.statements) hs₁
        (fun mid hmid hbehind => Yields.recover (Yields.map (hd.caseBody hbody hmid ?_)
          fun ss hss => ⟨ss, rfl, hss⟩) _) fun o s₂ hs₂ ho => ?_
      · exact endsStatements_behind_case hks hbehind hrest
      · obtain ⟨ss, rfl, hss⟩ := ho
        dsimp only
        rw [yields_spanFrom]
        refine (ih hsettled.tail hs₂ ?_).bind fun ks' s₃ hs₃ hks' => yields_pure hs₃ fun style => ?_
        · simp only [List.length_cons] at hn
          omega
        · obtain ⟨ls', ss', sp⟩ := k
          rw [AlikeLabels] at hls
          simp only [SwitchCase.allLines, hls, hss style, hks' style]

theorem yields_switchStatement {e : Excerpt} {ks : List SwitchCase} {ew kw : List Word} {l : Location}
    {sp : Span} (hd : Rereads c deeper inner) (he : ParenWords e ew)
    (hks : EachWords inner.CaseWords ks kw)
    (hs : Begins s.rest (.keyword .switch_ :: ew ++ .mark .openBrace :: kw ++ [.mark .closeBrace])
      rest) :
    Yields c s (switchStatement deeper l) rest (AlikeStatement · (.switch e ks sp)) := by
  simp only [List.cons_append, List.append_assoc] at hs
  refine yields_skip_one hs fun s₁ hs₁ => ?_
  refine Yields.then hs₁ (fun mid hmid _ => yields_parenthesized he hmid _) fun e' s₂ hs₂ he' => ?_
  refine yields_require hs₂ rfl _ fun s₃ hs₃ => ?_
  rw [yields_steps]
  refine Yields.then hs₃ (fun mid hmid hbehind => yields_switchCases hd (words_mergeCases hd hks)
    (settled_mergeCases ks) hmid hbehind.kindOf ?_) fun ks' s₄ hs₄ hks' => ?_
  · have hle := length_le_of_eachWords (words_mergeCases hd hks) fun _ _ hk => by
      obtain ⟨w, vs, rfl, -⟩ := caseWords_head hk
      exact nofun
    have hlen := hmid.length_eq
    omega
  · refine yields_accept hs₄ rfl fun s₅ hs₅ => ?_
    rw [if_neg nofun]
    refine (yields_spanFrom l _).mpr (yields_pure (begins_nil.mp hs₅) fun style place => ?_)
    have hlines := (hks' style).trans (alike_mergeCases ks style)
    simp only [Statement.lines, he', hlines]

/-! ### Declarations and expressions -/

/-- What may follow the name of a variable. -/
def followsVariable (k : Kind) : Bool :=
  k = .mark .assign || k = .mark .semicolon || k = .mark .comma || k = .mark .openBracket

theorem declaratorWords_head {d : Declarator} (h : DeclaratorWords d ws)
    (hw : followsVariable w.kind = true) (vs : List Word) :
    ∃ x v us, ws ++ w :: vs = .name x :: v :: us ∧ followsVariable v.kind = true := by
  obtain ⟨iw, -, hinit, rfl⟩ := h
  generalize d.dimensions = n
  generalize d.initializer = e at hinit
  cases n with
  | succ n => exact ⟨d.name, _, _, rfl, rfl⟩
  | zero =>
    cases hinit with
    | none => exact ⟨d.name, w, vs, rfl, hw⟩
    | some h =>
      obtain ⟨us, -, rfl⟩ := h
      exact ⟨d.name, .mark .assign, us ++ w :: vs, rfl, rfl⟩

theorem commaDeclarators_head {ds : List Declarator} (h : CommaWords DeclaratorWords ds ws) :
    ∃ x v us, ws ++ [.mark .semicolon] = .name x :: v :: us ∧ followsVariable v.kind = true := by
  cases h with
  | one hd => exact declaratorWords_head hd rfl []
  | cons hd _ =>
    rw [List.append_assoc]
    exact declaratorWords_head hd rfl _

/-- A declaration of variables looks like one. -/
theorem looksLikeVariable_of_words {t : TypeUse} {tw : List Word} (ht : TypeWords Angle.IsList t tw)
    {x : String} {v : Word} (hs : Begins ts (tw ++ .name x :: v :: ws) rest) (hv : followsVariable v.kind = true)
    {cap : Nat} (hcap : ts.length ≤ cap) : looksLikeVariable cap ts = true := by
  obtain ⟨mid, htw, hbehind⟩ := begins_append.mp hs
  have hends : EndsType (kindOf mid) := by
    rw [hbehind.kindOf]
    exact ⟨⟨nofun, nofun⟩, nofun⟩
  simp only [looksLikeVariable, afterType?_eq ht htw hends hcap, hbehind.startsWith]
  simpa [followsVariable, Word.name] using hv

theorem yields_declarationStatement {t : TypeUse} {ds : List Declarator} {tw dw : List Word}
    {l : Location} {sp : Span} (ht : TypeWords Angle.IsList t tw) (hds : CommaWords DeclaratorWords ds dw)
    (hs : Begins s.rest (tw ++ dw ++ [.mark .semicolon]) rest) :
    Yields c s (plainStatement l) rest (AlikeStatement · (.declaration t ds sp)) := by
  rw [List.append_assoc] at hs
  obtain ⟨x, v, us, hhead, hv⟩ := commaDeclarators_head hds
  refine yields_of_roomy fun hroom => ?_
  have hlooks : looksLikeVariable c.limits.excerptTokens s.rest = true := by
    rw [hhead] at hs
    exact looksLikeVariable_of_words ht hs hv hroom.tokens
  rw [plainStatement, yields_read, yields_rest, if_pos hlooks]
  refine Yields.then hs (fun mid hmid hbehind => yields_typeUse ht hmid ?_) fun t' s₁ hs₁ ht' => ?_
  · rw [hhead] at hbehind
    rw [hbehind.kindOf]
    exact ⟨⟨nofun, nofun⟩, nofun⟩
  · refine (yields_declarators hds hs₁).bind fun ds' s₂ hs₂ hds' => ?_
    rw [yields_spanFrom]
    refine yields_pure hs₂ fun style place => ?_
    simp only [Statement.lines, render_eq ht', hds'.render]

theorem yields_expressionStatement {e : Excerpt} {l : Location} {sp : Span}
    (he : ExcerptWords (expressionRule [Mark.semicolon]) e ws) (hplain : ReadsPlain e)
    (hs : Begins s.rest (ws ++ [.mark .semicolon]) rest) :
    Yields c s (plainStatement l) rest (AlikeStatement · (.expression e sp)) := by
  refine yields_of_roomy fun hroom => ?_
  have hlooks : looksLikeVariable c.limits.excerptTokens s.rest = false := by
    obtain ⟨mid, ⟨us, hus, hword⟩, hsemi⟩ := begins_append.mp hs
    have hkinds : SameKinds us e.tokens := (alike_of_word (hword.trans he.words)).sameKinds
    have hlen := hroom.tokens
    rw [hus, List.length_append] at hlen
    rw [hus]
    exact hplain.noVariable us _ mid hkinds (by omega) hsemi.kindOf
  rw [plainStatement, yields_read, yields_rest, if_neg (by rw [hlooks]; exact nofun)]
  refine Yields.then hs (fun mid hmid hbehind => yields_excerpt he hmid ?_ _) fun e' s₁ hs₁ he' => ?_
  · rw [hbehind.kindOf]
    decide
  · refine yields_require hs₁ rfl _ fun s₂ hs₂ => ?_
    rw [yields_spanFrom]
    refine yields_pure (begins_nil.mp hs₂) fun style place => ?_
    simp only [Statement.lines, he']

/-! ### Any statement -/

/-- What starts no other statement is read as a declaration or an expression. -/
theorem yields_anyStatement_plain
    (hplain : isPlainStart (kindOf s.rest) (kindOf (s.rest.drop 1)) = true) {R : Statement → Prop}
    (h : ∀ l, Yields c s (plainStatement l) rest R) : Yields c s (anyStatement deeper) rest R := by
  rw [anyStatement, yields_here, yields_kind, yields_secondKind]
  generalize kindOf s.rest = k at hplain ⊢
  generalize kindOf (s.rest.drop 1) = next at hplain ⊢
  split <;> first | cases hplain | exact h _

/-- What may follow the first word of a type that has a name behind it. -/
def followsTypeStart (k : Kind) : Bool :=
  k = .mark .less || k = .mark .dot || k = .mark .openBracket || k = .identifier

/-- The first two words of a type with a name behind it. -/
theorem typeWords_second {t : TypeUse} (h : TypeWords Angle.IsWritten t ws) (x : String) (vs : List Word) :
    ∃ w v us, ws ++ .name x :: vs = w :: v :: us ∧ isTypeStart w.kind = true ∧
      followsTypeStart v.kind = true := by
  obtain ⟨nw, hname, rfl⟩ := h
  generalize t.dimensions = n
  cases hname with
  | primitive p hx => cases n <;> exact ⟨_, _, _, rfl, rfl, rfl⟩
  | @named first further hfirst hfurther hx =>
    obtain ⟨-, hlist⟩ := hfirst
    rcases first with ⟨y, _ | us⟩
    · cases further <;> cases n <;> exact ⟨_, _, _, rfl, rfl, rfl⟩
    · obtain ⟨us, rfl⟩ := List.head?_eq_some_iff.mp (hlist us rfl).opens
      exact ⟨_, _, _, rfl, rfl, rfl⟩

/-- A type with a name behind it starts a declaration. -/
theorem isPlainStart_of_typeWords {t : TypeUse} {x : String} (h : TypeWords Angle.IsWritten t ws)
    (hs : Begins ts (ws ++ .name x :: vs) rest) :
    isPlainStart (kindOf ts) (kindOf (ts.drop 1)) = true := by
  obtain ⟨w, v, us, heq, hw, hv⟩ := typeWords_second h x vs
  rw [heq] at hs
  rw [Begins.kindOf hs, Begins.kindOf (Begins.tail hs)]
  rcases isTypeStart_cases hw with hk | ⟨p, hk⟩ <;> rw [hk]
  · simp only [followsTypeStart, Bool.or_eq_true, decide_eq_true_eq] at hv
    rcases hv with ((hv | hv) | hv) | hv <;> rw [hv] <;> rfl
  · rfl

theorem yields_anyStatement {a : Statement} (hd : Rereads c deeper inner)
    (h : inner.StatementWords a ws) (hs : Begins s.rest ws rest) (hrest : Follows a rest) :
    Yields c s (anyStatement deeper) rest (AlikeStatement · a) := by
  cases h with
  | declaration ht hds =>
    obtain ⟨x, v, us, hhead, -⟩ := commaDeclarators_head hds
    refine yields_anyStatement_plain ?_ fun l =>
      yields_declarationStatement (ht.lists hd.rereads) hds hs
    rw [List.append_assoc, hhead] at hs
    exact isPlainStart_of_typeWords ht.written hs
  | @expression e _ _ he hplain =>
    refine yields_anyStatement_plain ?_ fun l => yields_expressionStatement he hplain hs
    obtain ⟨hcaptured, -, rfl⟩ := he
    obtain ⟨t, us, hts⟩ := List.exists_cons_of_ne_nil hcaptured.nonempty
    have hstart := hplain.start
    rw [Excerpt.words, hts] at hs
    rw [hts] at hstart
    rw [Begins.kindOf hs]
    rcases us with _ | ⟨u, us⟩
    · rw [Begins.kindOf (Begins.tail hs)]
      exact hstart
    · rw [Begins.kindOf (Begins.tail hs)]
      exact hstart
  | return_ h =>
    rw [anyStatement, yields_here, yields_kind, yields_secondKind, Begins.kindOf hs]
    exact yields_returnStatement h hs
  | if_ hc ht =>
    rw [anyStatement, yields_here, yields_kind, yields_secondKind, Begins.kindOf hs]
    exact yields_ifStatement hd hc ht hs hrest
  | ifElse hc ht hopen he =>
    rw [anyStatement, yields_here, yields_kind, yields_secondKind, Begins.kindOf hs]
    exact yields_ifElseStatement hd hc ht hopen he hs hrest
  | for_ hc hb =>
    rw [anyStatement, yields_here, yields_kind, yields_secondKind, Begins.kindOf hs]
    exact yields_forStatement hd hc hb hs hrest
  | while_ hc hb =>
    rw [anyStatement, yields_here, yields_kind, yields_secondKind, Begins.kindOf hs]
    exact yields_whileStatement hd hc hb hs hrest
  | doWhile hc hb =>
    rw [anyStatement, yields_here, yields_kind, yields_secondKind, Begins.kindOf hs]
    exact yields_doStatement hd hc hb hs
  | try_ hb hcs hf =>
    have hnext : kindOf (s.rest.drop 1) = .mark .openBrace := by
      obtain ⟨bw, -, rfl⟩ := hb
      exact Begins.kindOf (Begins.tail hs)
    rw [anyStatement, yields_here, yields_kind, yields_secondKind, Begins.kindOf hs, hnext]
    exact yields_tryStatement hd hb hcs hf hs hrest
  | block hb =>
    have hkind : kindOf s.rest = .mark .openBrace := by
      obtain ⟨bw, -, rfl⟩ := hb
      exact Begins.kindOf hs
    rw [anyStatement, yields_here, yields_kind, yields_secondKind, hkind]
    refine (hd.block hb hs).bind fun b' s₁ hs₁ hb' => yields_pure hs₁ fun style place => ?_
    simp only [Statement.lines, hb' style]
  | break_ hl =>
    rw [anyStatement, yields_here, yields_kind, yields_secondKind, Begins.kindOf hs]
    exact yields_jumpStatement (fun _ _ _ => by simp only [Statement.lines]) hs
  | continue_ hl =>
    rw [anyStatement, yields_here, yields_kind, yields_secondKind, Begins.kindOf hs]
    exact yields_jumpStatement (fun _ _ _ => by simp only [Statement.lines]) hs
  | throw_ he =>
    rw [anyStatement, yields_here, yields_kind, yields_secondKind, Begins.kindOf hs]
    exact yields_throwStatement he hs
  | switch he hcs =>
    rw [anyStatement, yields_here, yields_kind, yields_secondKind, Begins.kindOf hs]
    exact yields_switchStatement hd he hcs hs
  | synchronized he hb =>
    have hnext : kindOf (s.rest.drop 1) = .mark .openParen := by
      obtain ⟨ew, -, rfl⟩ := he
      exact Begins.kindOf (Begins.tail hs)
    rw [anyStatement, yields_here, yields_kind, yields_secondKind, Begins.kindOf hs, hnext]
    exact yields_synchronizedStatement hd he hb hs
  | labeled hl hb =>
    rw [anyStatement, yields_here, yields_kind, yields_secondKind, Begins.kindOf hs,
      Begins.kindOf (Begins.tail hs)]
    exact yields_labeledStatement hd hb hs hrest
  | assert hc hm =>
    rw [anyStatement, yields_here, yields_kind, yields_secondKind, Begins.kindOf hs]
    exact yields_assertStatement hc hm hs

/-! ### Statements in a row -/

theorem endsQualifiers_of_isTypeStart (h : isTypeStart (kindOf ts) = true) : EndsQualifiers ts := by
  rcases isTypeStart_cases h with hk | ⟨p, hk⟩ <;>
    exact ⟨by simp [hk, EndsAnnotated], by rw [looksAnnotated, hk]; rfl, by rw [hk]; rfl⟩

theorem sees_modifier {m : Modifier} (hm : m ≠ .default_) (hk : kindOf ts = .keyword (.modifier m))
    (hnext : kindOf (ts.drop 1) ≠ .mark .openParen) : Sees true ts := by
  have hends : endsStatements true (kindOf ts) = false := by
    rw [hk]
    cases m <;> first | rfl | exact absurd rfl hm
  have hmod : looksLikeModified ts = true := by
    rw [looksLikeModified, hk]
    cases m <;> first | rfl | exact absurd rfl hm | exact decide_eq_true hnext
  exact ⟨endsStatements_le hends, by rw [hk]; exact nofun, by rw [hk]; rfl, by rw [hk]; rfl, hmod,
    startsWith_eq_false (by rw [hk]; exact nofun)⟩

theorem sees_annotated (hk : kindOf ts = .mark .atSign) : Sees true ts :=
  ⟨endsStatements_le (by rw [hk]; rfl), by rw [hk]; exact nofun, by rw [hk]; rfl, by rw [hk]; rfl,
    by rw [looksLikeModified, hk], startsWith_eq_false (by rw [hk]; exact nofun)⟩

/-- A row sees a variable with modifiers or annotations where the words of one start. -/
theorem sees_field {f : Field} (h : FieldWords inner.rereads f ws)
    (hlead : f.annotations ≠ [] ∨ ∃ m ∈ f.modifiers.head?, m ≠ .default_)
    (hs : Begins ts (ws ++ vs) rest) : Sees true ts := by
  obtain ⟨qw, tw, iw, ⟨has, -⟩, ht, -, -, rfl⟩ := h
  simp only [List.append_assoc, List.cons_append] at hs
  generalize f.annotations = as at has hlead
  cases has with
  | cons ha has =>
    rw [List.append_assoc] at hs
    exact sees_annotated (looksAnnotated_of_words ha hs).2
  | nil =>
    obtain ⟨m, hm, hdefault⟩ := hlead.resolve_left fun h => h rfl
    rcases hms : f.modifiers with _ | ⟨m', ms⟩
    · rw [hms] at hm
      cases hm
    · rw [hms] at hm hs
      cases hm
      refine sees_modifier hdefault (Begins.kindOf hs) ?_
      have htail := Begins.tail hs
      rcases ms with _ | ⟨m', ms⟩
      · obtain ⟨w, us, rfl, hw⟩ := typeWords_head ht
        rw [Begins.kindOf htail]
        intro hparen
        rw [hparen] at hw
        cases hw
      · rw [Begins.kindOf htail]
        exact nofun

/-- A row sees the words of any of its statements. -/
theorem sees_rowStatement {a : Statement} (hd : Rereads c deeper inner)
    (h : inner.RowStatementWords a ws) (hs : Begins ts (ws ++ vs) rest) :
    ∃ isModified, Sees isModified ts := by
  cases h with
  | statement h => exact ⟨false, (hd.start h).sees hs⟩
  | field h hlead => exact ⟨true, sees_field h hlead hs⟩

theorem fieldLines_congr {f g : Field} (h : AlikeField f g) :
    AlikeStatement (.field f) (.field g) := by
  intro style place
  obtain ⟨has, hms, htype, hname, hinit⟩ := h
  simp only [Statement.lines, Field.render, annotationLead_congr has, hms, htype, hname,
    initializerText_congr hinit]

theorem yields_blockStatement {a : Statement} (hd : Rereads c deeper inner)
    (h : inner.RowStatementWords a ws) (hs : Begins s.rest ws rest) (hrest : Follows a rest) :
    Yields c s (blockStatement deeper.statement) rest fun ss => ∃ b, ss = [b] ∧ AlikeStatement b a := by
  have hs' : Begins s.rest (ws ++ []) rest := by rwa [List.append_nil]
  rw [blockStatement, yields_rest]
  cases h with
  | statement h =>
    have hsees := (hd.start h).sees hs'
    rw [if_neg (by rw [hsees.typeWord]; exact nofun), if_neg (by rw [hsees.resources]; exact nofun),
      if_neg (by rw [hsees.modified]; exact nofun)]
    exact (hd.statement h hs hrest).bind fun b s₁ hs₁ hb => yields_pure hs₁ ⟨b, rfl, hb⟩
  | field h hlead =>
    have hsees := sees_field h hlead hs'
    rw [if_neg (by rw [hsees.typeWord]; exact nofun), if_neg (by rw [hsees.resources]; exact nofun),
      if_pos hsees.modified, yields_here]
    obtain ⟨qw, tw, iw, hq, ht, hname, hinit, rfl⟩ := h
    obtain ⟨w, us, rfl, hw⟩ := typeWords_head ht
    simp only [List.append_assoc, List.cons_append] at hs
    refine Yields.then hs (fun mid hmid hbehind => yields_allQualifiers hq hmid ?_)
      fun q s₁ hs₁ hq' => ?_
    · refine endsQualifiers_of_isTypeStart ?_
      rw [hbehind.kindOf]
      exact hw
    · have hword : isTypeWord (kindOf s₁.rest) = false := by
        rw [hs₁.kindOf]
        rcases isTypeStart_cases hw with hk | ⟨p, hk⟩ <;> rw [hk] <;> rfl
      have ht := ht.lists hd.rereads
      rw [yields_kind, if_neg (by rw [hword]; exact nofun)]
      refine (yields_fields ht hname hinit (by simpa using hs₁) _ hq').bind fun fs s₂ hs₂ hfs => ?_
      obtain ⟨g, rfl, hg⟩ := hfs
      exact yields_pure hs₂ ⟨.field g, rfl, fieldLines_congr hg⟩

/-- What may follow the last statement of a row. -/
theorem follows_of_endsStatements {a : Statement} {inSwitch : Bool}
    (h : endsStatements inSwitch (kindOf rest) = true) : Follows a rest := by
  refine ⟨?_, ?_, fun _ => ?_⟩ <;> intro hk <;> rw [hk] at h <;> cases h

theorem Sees.follows {isModified : Bool} (h : Sees isModified rest) (a : Statement) :
    Follows a rest := by
  have hcont := h.continuation
  simp only [isContinuation, Bool.or_eq_false_iff, decide_eq_false_iff_not] at hcont
  exact ⟨hcont.1.2, hcont.2, fun _ => hcont.1.1⟩

theorem yields_statements {ss : List Statement} (hd : Rereads c deeper inner)
    (h : inner.RowWords ss ws) (hs : Begins s.rest ws rest) {inSwitch : Bool}
    (hrest : endsStatements inSwitch (kindOf rest) = true) {cap : Nat} (hcap : ss.length ≤ cap) :
    Yields c s (statements deeper.statement inSwitch cap) rest (AlikeRow · ss) := by
  rw [Inner.RowWords] at h
  induction h generalizing s cap with
  | nil =>
    have hs : s.rest = rest := begins_nil.mp hs
    cases cap with
    | zero =>
      rw [statements, yields_kind, hs, if_pos hrest]
      exact yields_pure hs fun _ => rfl
    | succ cap =>
      rw [statements, yields_kind, hs, if_pos hrest]
      exact yields_pure hs fun _ => rfl
  | @cons a ss aw vs ha has ih =>
    obtain ⟨cap, rfl⟩ : ∃ m, cap = m + 1 := ⟨cap - 1, by simp only [List.length_cons] at hcap; omega⟩
    obtain ⟨isModified, hsees⟩ := sees_rowStatement hd ha hs
    rw [statements, yields_kind, if_neg (by rw [hsees.goesOn]; exact nofun),
      yields_accept_none hsees.semicolon, if_neg nofun]
    refine Yields.then hs (fun mid hmid hbehind =>
      (yields_blockStatement hd ha hmid ?_).recover _) fun bs s₁ hs₁ hbs => ?_
    · cases has with
      | nil =>
        rw [begins_nil.mp hbehind]
        exact follows_of_endsStatements hrest
      | cons hb _ =>
        obtain ⟨isModified', hsees'⟩ := sees_rowStatement hd hb hbehind
        exact hsees'.follows a
    · obtain ⟨b, rfl, hb⟩ := hbs
      refine (ih hs₁ ?_).bind fun ss' s₂ hs₂ hss' => yields_pure hs₂ fun style => ?_
      · simp only [List.length_cons] at hcap
        omega
      · simp only [List.singleton_append, Statement.allLines, hb style, hss' style]

/-- The words of a row are none, or start as a statement in a row does. -/
theorem rowWords_cases {ss : List Statement} (hd : Rereads c deeper inner)
    (h : inner.RowWords ss ws) : (ss = [] ∧ ws = []) ∨
      (ss ≠ [] ∧ ∃ w vs, ws = w :: vs ∧ endsStatements true w.kind = false) := by
  rw [Inner.RowWords] at h
  cases h with
  | nil => exact .inl ⟨rfl, rfl⟩
  | @cons a ss aw vs ha has =>
    refine .inr ⟨nofun, ?_⟩
    -- words that start a row are seen in any tokens that are read from them
    have hbegins : Begins ((aw ++ vs).map Word.token) (aw ++ vs) [] := by
      refine ⟨(aw ++ vs).map Word.token, by rw [List.append_nil], ?_⟩
      rw [List.map_map]
      exact List.map_id _
    obtain ⟨isModified, hsees⟩ := sees_rowStatement hd ha hbegins
    have hgoes := hsees.goesOn true
    rcases hws : aw ++ vs with _ | ⟨w, us⟩
    · rw [hws] at hgoes
      cases hgoes
    · rw [hws] at hgoes
      exact ⟨w, us, rfl, hgoes⟩

theorem length_le_of_rowWords {ss : List Statement} (hd : Rereads c deeper inner)
    (h : inner.RowWords ss ws) : ss.length ≤ ws.length := by
  refine length_le_of_eachWords h fun a ws ha => ?_
  obtain ⟨hnil, -⟩ | ⟨-, w, vs, hws, -⟩ :=
    rowWords_cases hd (show inner.RowWords [a] (ws ++ []) from .cons ha .nil)
  · cases hnil
  · rw [List.append_nil] at hws
    rw [hws]
    exact nofun

theorem yields_allStatements {ss : List Statement} (hd : Rereads c deeper inner)
    (h : inner.RowWords ss ws) (hs : Begins s.rest ws rest) {inSwitch : Bool}
    (hrest : endsStatements inSwitch (kindOf rest) = true) :
    Yields c s (allStatements deeper.statement inSwitch) rest (AlikeRow · ss) := by
  refine yields_of_roomy fun hroom => ?_
  rw [allStatements, yields_read]
  refine yields_statements hd h hs hrest ?_
  have hle := length_le_of_rowWords hd h
  have hlen := hs.length_eq
  have hroom := hroom.statements
  omega

theorem yields_braced {b : Block} (hd : Rereads c deeper inner) (h : inner.RowWords b.statements ws)
    (hs : Begins s.rest (.mark .openBrace :: ws ++ [.mark .closeBrace]) rest) :
    Yields c s (braced deeper.statement) rest (AlikeBlock · b) := by
  rw [braced, yields_here]
  refine yields_require hs rfl _ fun s₁ hs₁ => ?_
  refine Yields.then hs₁ (fun mid hmid hbehind => yields_allStatements hd h hmid ?_)
    fun ss s₂ hs₂ hss => ?_
  · rw [hbehind.kindOf]
    rfl
  · refine yields_accept hs₂ rfl fun s₃ hs₃ => ?_
    rw [if_neg nofun]
    refine (yields_spanFrom _ _).mpr (yields_pure (begins_nil.mp hs₃) fun style => ?_)
    obtain ⟨ss', sp⟩ := b
    simp only [Block.lines, hss style]

/-! ### Levels -/

/-- The readers at one level. -/
def readersAt (levels : Nat) : Deeper := ⟨statement levels, block levels, caseBody levels⟩

/-- Statements are read back at every level that leaves room for the levels inside them. -/
theorem rereads_readersAt {n levels : Nat} (h : n ≤ levels) :
    Rereads c (readersAt levels) (wordsAt True n) := by
  induction n generalizing levels with
  | zero =>
    refine ⟨trivial, fun h => absurd h id, fun h => ?_, fun h => absurd h id, fun h => absurd h id,
      fun h => absurd h id⟩
    obtain ⟨vs, h, -⟩ := h
    exact absurd h id
  | succ n ih =>
    obtain ⟨levels, rfl⟩ : ∃ m, levels = m + 1 := ⟨levels - 1, by omega⟩
    have hd : Rereads c (readersAt levels) (wordsAt True n) := ih (by omega)
    refine ⟨trivial, fun h hs hrest => ?_, fun h hs => ?_, fun h hs hrest => ?_, fun h => ?_,
      fun h => ?_⟩
    · exact yields_anyStatement hd h hs hrest
    · obtain ⟨vs, hrow, rfl⟩ := h
      exact yields_braced hd hrow hs
    · exact yields_allStatements hd h hs hrest
    · exact startsRow_of_statementWords h
    · exact rowWords_cases hd h

theorem yields_body {n : Nat} {b : Block} (h : BodyWords True n b ws) (hs : Begins s.rest ws rest)
    (hn : n ≤ c.limits.nesting) : Yields c s body rest (AlikeBlock · b) := by
  rw [body, yields_read]
  exact (rereads_readersAt hn).block h hs

end JavaTree.Parser
