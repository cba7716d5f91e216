import JavaTree.Proofs.Source.Parts
import JavaTree.Proofs.Source.Plain

/-!
Statements are read from their passages.

A statement whose last part is an `if` without `else` takes an `else` behind it for its own. So what
is known of a statement that has been read includes that no `else` is left behind it, if it ends open
in that way; the branch of an `if` before its `else` is never such a statement.
-/

namespace JavaTree.Parser

variable {α β : Type} {c : Settings} {within : Within}

/-! ### Statements in a row -/

/-- A statement that has been read from a passage, with no `else` left behind it that it could have
taken. -/
def ReadsAs (From : Statement → Passage → Prop) (a : Statement) (us after : List Token) : Prop :=
  Spelled (From a) us ∧ (a.EndsOpen → kindOf after ≠ .keyword .else_)

theorem startsModified_of_looksLikeModified {ts : List Token} (h : looksLikeModified ts = true) :
    Within.startsModified (kindOf ts) = true := by
  revert h
  unfold looksLikeModified
  cases kindOf ts with
  | keyword w =>
    cases w with
    | modifier m => cases m <;> simp [Within.startsModified, Kind.isModifier, Kind.modifier?]
    | _ => exact fun h => by cases h
  | mark m => cases m <;> simp [Within.startsModified, Kind.isModifier, Kind.modifier?]
  | _ => exact fun h => by cases h

/-- The declaration of a field starts with a type. -/
theorem isTypeStart_of_fieldsFrom {q : Qualifiers} {fs : List Field} {p : Passage}
    (h : FieldsFrom q fs p) : ∃ w ws, p.words = w :: ws ∧ isTypeStart w.kind = true := by
  obtain @⟨t, -, -, -, -, ⟨tp, htype, rfl⟩, -⟩ := h
  generalize t.name = name at htype
  cases htype with
  | primitive p => exact ⟨_, _, rfl, rfl⟩
  | named => exact ⟨_, _, rfl, rfl⟩

/-- Qualifiers before a field are not empty where a modified variable starts. -/
theorem startsModified_of_fields {q : Qualifiers} {fs : List Field} {us vs after : List Token}
    (h : Spelled (FieldsFrom q fs) vs) (hts : looksLikeModified (us ++ (vs ++ after)) = true) :
    ∃ w ∈ (us.map Token.written).head?, Within.startsModified w.kind = true := by
  have hstart := startsModified_of_looksLikeModified hts
  rcases us with _ | ⟨t, us⟩
  · obtain ⟨p, hp, hpw⟩ := h
    obtain ⟨w, ws, hwords, hw⟩ := isTypeStart_of_fieldsFrom hp
    rw [hwords] at hpw
    obtain ⟨v, vs', rfl, rfl, -⟩ := List.map_eq_cons_iff.mp hpw.symm
    revert hw hstart
    show Within.startsModified v.kind = true → isTypeStart v.kind = true → _
    cases v.kind with
    | keyword w => cases w <;> nofun
    | _ => nofun
  · exact ⟨t.written, rfl, hstart⟩

theorem reads_skipTryWithResources {R : β → List Token → List Token → Prop} {f : Unit → Parser β}
    (hf : Grows c (f ())) : Reads c R (skipTryWithResources >>= f) := by
  unfold skipTryWithResources
  simp only [bind_assoc]
  refine reads_still still_here fun l => reads_bind (reads_skipSome 1) fun _ _ => ?_
  refine reads_bind (reads_skipBy _) fun _ _ => ?_
  refine reads_bind (reads_of_contained fun _ => contained_skipGroup rfl) fun _ _ => ?_
  refine reads_still still_steps fun n => ?_
  refine reads_bind (reads_of_contained fun _ => contained_skipCatches n) fun _ _ => ?_
  refine reads_accept (fixes_keyword _) (fun _ => ?_) ?_
  · rw [if_pos rfl, bind_assoc]
    exact reads_bind (reads_of_contained fun _ => contained_skipGroup rfl) fun _ _ => reads_report _ hf
  · rw [if_neg nofun]
    exact reads_report _ hf

section Row

variable {st : Parser Statement} (hst : Reads c (ReadsAs within.statement) st)

include hst

/-- What one step in a row adds to the rest of the row. -/
theorem reads_blockStatement :
    Reads c (fun found us _ => ∀ ss q, within.RowFrom ss q →
      Spelled (fun p => ∃ r, within.RowFrom (found ++ ss) r ∧ r.words = p.words ++ q.words) us)
      (blockStatement st) := by
  refine reads_rest fun ts => reads_ite (fun _ => ?_) fun _ => reads_ite (fun _ => ?_) fun _ => ?_
  · exact reads_skipType _ (grows_pure _)
  · exact reads_skipTryWithResources (grows_pure _)
  refine reads_ite (fun hmodified => ?_) fun _ => ?_
  · refine reads_still still_here fun start => reads_bind reads_allQualifiers fun q us => ?_
    refine reads_kind fun k => reads_ite (fun _ => reads_skipType _ (grows_pure _)) fun _ => ?_
    refine reads_bind (reads_fields start q) fun fs vs => reads_pure fun after hfs _ hq hts => ?_
    rintro ss r hss
    have hahead : looksLikeModified (us ++ (vs ++ after)) = true := by
      rw [← hmodified, hts]
      simp
    have hlead := startsModified_of_fields hfs hahead
    obtain ⟨p, hp, hpw⟩ := hfs
    exact ⟨.plain (us.map Token.written) ++ p, ⟨_, .fields hq hp hlead hss, by simp⟩, by simp [hpw]⟩
  · refine reads_bind hst fun s us => reads_pure fun _ hs _ => ?_
    rintro ss q hss
    obtain ⟨p, hp, hpw⟩ := hs.1
    exact ⟨p, ⟨_, .statement hp hss, rfl⟩, by simp [hpw]⟩

theorem reads_statements (inSwitch : Bool) (cap : Nat) :
    Reads c (fun ss us _ => Spelled (within.RowFrom ss) us) (statements st inSwitch cap) := by
  induction cap with
  | zero =>
    refine reads_kind fun k => reads_ite (fun _ => reads_pure fun _ _ => ⟨_, .nil, rfl⟩) fun _ => ?_
    refine reads_read (reads_still still_here fun l => reads_report _ ?_)
    exact grows_bind (grows_skipBy _) fun _ => grows_pure _
  | succ cap ih =>
    refine reads_kind fun k => reads_ite (fun _ => reads_pure fun _ _ => ⟨_, .nil, rfl⟩) fun _ => ?_
    refine reads_accept (fixes_mark .semicolon) (fun us => ?_) ?_
    · refine ih.mono fun ss vs _ ⟨p, hp, hpw⟩ hus _ => ⟨_, .empty hp, ?_⟩
      simp [hpw, hus]
    · refine reads_bind (reads_recover (reads_blockStatement hst) ?_) fun found us => ?_
      · exact grows_bind (grows_skipBy _) fun _ => grows_pure _
      · refine reads_bind ih fun ss vs => reads_pure fun _ ⟨q, hq, hqw⟩ hfound _ _ => ?_
        obtain ⟨p, ⟨r, hr, hrw⟩, hpw⟩ := hfound ss q hq
        exact ⟨r, hr, by simp [hrw, hpw, hqw]⟩

theorem reads_allStatements (inSwitch : Bool) :
    Reads c (fun ss us _ => Spelled (within.RowFrom ss) us) (allStatements st inSwitch) :=
  reads_read (reads_statements hst inSwitch _)

theorem reads_braced :
    Reads c (fun b us _ => Spelled (fun p => ∃ q, within.RowFrom b.statements q ∧
      p = .plain [.mark .openBrace] ++ q ++ .plain [.mark .closeBrace]) us) (braced st) := by
  refine reads_still still_here fun start => reads_bind (reads_require (fixes_mark _) _) fun _ us => ?_
  refine reads_bind (reads_allStatements hst false) fun ss vs => reads_close fun ts => ?_
  refine reads_still (still_spanFrom _) fun span => reads_pure fun _ hts ⟨q, hq, hqw⟩ hus => ?_
  exact ⟨_, ⟨q, hq, rfl⟩, by simp [hus, hqw, hts]⟩

end Row

/-! ### Single statements -/

/-- The readers for one level further in read from their passages. -/
structure DeeperReads (c : Settings) (within : Within) (deeper : Deeper) : Prop where
  statement : Reads c (ReadsAs within.statement) deeper.statement
  block : Reads c (fun b us _ => Spelled (within.BracedFrom b) us) deeper.block
  caseBody : Reads c (fun ss us _ => Spelled (within.caseBody ss) us) deeper.caseBody

/-- Reads a statement that starts with a given token. -/
def ReadsFrom (c : Settings) (within : Within) (k : Kind) (p : Parser Statement) : Prop :=
  Reads c (fun a us after => kindOf (us ++ after) = k → ReadsAs within.StatementFrom a us after) p

/-- The last step of a statement, which gives it its span. -/
theorem reads_spanned {Q : α → List Token → List Token → Prop} (start : Location) {make : Span → α}
    (h : ∀ span after, Q (make span) [] after) :
    Reads c Q (do return make (← Parser.spanFrom start)) :=
  reads_still (still_spanFrom start) fun span => reads_pure (h span)

/-- A statement that starts with a keyword. -/
theorem readsFrom_keyword {k : Keyword} {p : Parser Statement}
    (hp : ∀ us, Reads c (fun a vs after => us.map Token.written = [.keyword k] →
      ReadsAs within.StatementFrom a (us ++ vs) after) p) :
    ReadsFrom c within (.keyword k) (do skip 1; p) := by
  refine reads_bind (reads_skip (fixes_keyword k)) fun _ us => ?_
  refine (hp us).mono fun a vs after ha hus hk => ha (hus ?_)
  rwa [← List.append_assoc]

section Simple

variable (start : Location)

theorem reads_returnStatement :
    ReadsFrom c within (.keyword .return_) (returnStatement start) := by
  refine readsFrom_keyword fun us => ?_
  simp only [← bind_assoc]
  refine reads_checkJoin (P := fun e vs _ =>
    OptionWords (ExcerptFrom (expressionRule [Mark.semicolon])) e (vs.map Token.written))
    (reads_pure fun _ _ => .none) ?_ fun e vs => ?_
  · refine reads_bind (reads_excerpt rfl _) fun e vs => reads_pure fun _ he _ => ?_
    rw [List.append_nil]
    exact .some he.1
  · rw [bind_assoc]
    refine reads_bind (reads_require (fixes_mark _) _) fun _ ts => reads_spanned start ?_
    exact fun span after hts he hus => ⟨⟨_, .return_ he, by simp [hus, hts]⟩, nofun⟩

theorem reads_throwStatement : ReadsFrom c within (.keyword .throw_) (throwStatement start) := by
  refine readsFrom_keyword fun us => reads_bind (reads_excerpt rfl _) fun e vs => ?_
  refine reads_bind (reads_require (fixes_mark _) _) fun _ ts => reads_spanned start ?_
  exact fun span after hts he hus => ⟨⟨_, .throw_ he.1, by simp [hus, hts]⟩, nofun⟩

/-- A jump, by what makes it a statement and how that one is read. -/
theorem reads_jumpStatement {k : Keyword} {make : Option String → Span → Statement}
    (hfrom : ∀ label span, (∀ n ∈ label, IsIdentifier n) → within.StatementFrom (make label span)
      (.plain (.keyword k :: label.toList.map .name ++ [.mark .semicolon])))
    (hopen : ∀ label span, ¬ (make label span).EndsOpen) :
    ReadsFrom c within (.keyword k) (jumpStatement make start) := by
  refine readsFrom_keyword fun us => ?_
  simp only [← bind_assoc]
  refine reads_checkJoin (P := fun label vs _ => (∀ n ∈ label, IsIdentifier n) ∧
    vs.map Token.written = label.toList.map .name) ?_ (reads_pure fun _ _ => ⟨nofun, rfl⟩) fun label vs => ?_
  · exact reads_bind reads_identifier fun x vs => reads_pure fun _ hx _ => by
      simpa using hx
  · rw [bind_assoc]
    refine reads_bind (reads_require (fixes_mark _) _) fun _ ts => reads_spanned start ?_
    intro span after hts hlabel hus
    exact ⟨⟨_, hfrom label span hlabel.1, by simp [hus, hlabel.2, hts]⟩,
      fun h => absurd h (hopen label span)⟩

theorem reads_assertStatement : ReadsFrom c within (.keyword .assert_) (assertStatement start) := by
  refine readsFrom_keyword fun us => reads_bind (reads_excerpt rfl _) fun e vs => ?_
  simp only [← bind_assoc]
  refine reads_acceptJoin (fixes_mark .colon) (P := fun m ws _ =>
    OptionWords MessageFrom m (ws.map Token.written)) (fun ts => ?_)
    (reads_pure fun _ _ => .none) fun m ws => ?_
  · exact reads_bind (reads_excerpt rfl _) fun m ws => reads_pure fun _ hm hts =>
      .some ⟨_, hm.1, by simp [hts]⟩
  · rw [bind_assoc]
    refine reads_bind (reads_require (fixes_mark _) _) fun _ ts => reads_spanned start ?_
    exact fun span after hts hm he hus => ⟨⟨_, .assert he.1 hm, by simp [hus, hts]⟩, nofun⟩

/-- A statement that starts as no other one does is an expression or declares variables. -/
theorem reads_plainStatement :
    Reads c (fun a us after => (kindOf (us ++ after) ≠ .endOfInput →
      isPlainStart (kindOf (us ++ after)) (kindOf ((us ++ after).drop 1)) = true) →
        ReadsAs within.StatementFrom a us after) (plainStatement start) := by
  refine reads_read (reads_rest fun ts => reads_ite (fun _ => ?_) fun hvariable => ?_)
  · refine reads_bind reads_typeUse fun t us => reads_bind reads_declarators fun ds vs => ?_
    refine reads_spanned start fun span after ⟨dw, hds, hdw⟩ ⟨p, hp, hpw⟩ _ _ => ?_
    exact ⟨⟨_, .declaration hp hds, by simp [hpw, hdw]⟩, nofun⟩
  · refine reads_bind (reads_excerpt rfl _) fun e us => ?_
    refine reads_bind (reads_require (fixes_mark _) _) fun _ vs => reads_spanned start ?_
    intro span after hvs ⟨he, hus, hshort⟩ hts hstart
    have hsemicolon : kindOf (vs ++ after) = .mark .semicolon := by
      obtain ⟨t, rfl, ht⟩ := List.map_eq_singleton_iff.mp hvs
      exact congrArg Word.kind ht
    subst hus
    simp only [List.append_nil, List.append_assoc] at hts hstart ⊢
    rw [hts, Bool.not_eq_true] at hvariable
    have hproper : kindOf (e.tokens ++ (vs ++ after)) ≠ .endOfInput := by
      obtain ⟨t, ts', hcons⟩ := List.exists_cons_of_ne_nil he.captured.nonempty
      rw [hcons]
      exact (he.readable t (by simp [hcons])).kind_ne.1
    have hplain := readsPlain_of_looksLikeVariable (hstart hproper) hvariable he.captured.nonempty hshort
      hsemicolon
    exact ⟨⟨_, .expression he hplain, by simp [hvs]⟩, nofun⟩

end Simple

/-! ### Labels -/

theorem reads_caseLabels (n : Nat) :
    Reads c (fun ls us after => kindOf after ≠ .mark .arrow →
      EachWords LabelFrom ls (us.map Token.written)) (caseLabels n) := by
  induction n with
  | zero => exact reads_pure fun _ _ => .nil
  | succ n ih =>
    refine reads_check fun isCase => reads_check fun isDefault => ?_
    refine reads_ite (fun hlabel => ?_) fun _ => reads_pure fun _ _ _ _ => .nil
    simp only [← bind_assoc]
    refine reads_acceptJoin (fixes_keyword (.modifier .default_)) (P := fun l us after =>
      kindOf (us ++ after) = .keyword .case_ ∨ kindOf (us ++ after) = .keyword (.modifier .default_) →
        ∀ colon : List Token, colon.map Token.written = [.mark .colon] →
          LabelFrom l ((us ++ colon).map Token.written)) (fun ds => ?_) ?_ fun l us => ?_
    · refine reads_pure fun _ hds _ colon hcolon => ?_
      simpa [hds, hcolon] using LabelFrom.default
    · rw [bind_assoc]
      refine reads_bind (reads_skip (fixes_keyword .case_)) fun _ ks => ?_
      refine reads_bind (reads_excerpt rfl _) fun e es => ?_
      refine reads_pure fun after he hks hdefault hk colon hcolon => ?_
      have hks := hks (by simpa using hk.resolve_right hdefault)
      simpa [hks, hcolon] using LabelFrom.value he.1
    · refine reads_checkIte (reads_pure fun after harrow _ _ _ hafter => absurd harrow hafter) ?_
      rw [bind_assoc]
      refine reads_bind (reads_require (fixes_mark _) _) fun _ colon => reads_bind ih fun ls vs => ?_
      refine reads_pure fun after hls hcolon _ hl hdefault hcase hafter => ?_
      have hl := hl (by
        rw [Bool.or_eq_true] at hlabel
        simpa using hlabel.imp hcase.mp hdefault.mp) colon hcolon
      simpa using EachWords.cons hl (hls hafter)

theorem reads_someCaseLabels :
    Reads c (fun ls us after => ls ≠ [] ∧ (kindOf after ≠ .mark .arrow →
      EachWords LabelFrom ls (us.map Token.written))) someCaseLabels := by
  refine reads_still still_steps fun n => reads_bind (reads_caseLabels n) fun ls us => ?_
  refine reads_ite (fun _ => reads_fail _) fun hne => reads_pure fun after hls => ?_
  exact ⟨by simpa using hne, by simpa using hls⟩

section Compound

variable {deeper : Deeper} (hd : DeeperReads c within deeper) (start : Location)

include hd

theorem reads_ifStatement : ReadsFrom c within (.keyword .if_) (ifStatement deeper start) := by
  refine readsFrom_keyword fun us => reads_bind (reads_parenthesized _) fun e es => ?_
  refine reads_bind hd.statement fun t vs => ?_
  simp only [← bind_assoc]
  refine reads_acceptJoin (fixes_keyword .else_) (P := fun o ws after =>
    (o = none ∧ ws = [] ∧ kindOf after ≠ .keyword .else_) ∨
      ∃ f, o = some f ∧ kindOf (ws ++ after) = .keyword .else_ ∧
        (f.EndsOpen → kindOf after ≠ .keyword .else_) ∧
        ∃ p, within.statement f p ∧ ws.map Token.written = .keyword .else_ :: p.words)
    (fun ts => ?_) ?_ fun o ws => ?_
  · refine reads_bind hd.statement fun f vs => reads_pure fun after hread hts => ?_
    obtain ⟨⟨p, hp, hpw⟩, hf⟩ := hread
    obtain ⟨t, rfl, ht⟩ := List.map_eq_singleton_iff.mp hts
    exact .inr ⟨f, rfl, congrArg Word.kind ht, hf, p, hp, by simp [hpw, ht]⟩
  · exact reads_pure fun _ hafter => .inl ⟨rfl, rfl, hafter⟩
  · refine reads_spanned start fun span after ho hthen he hus => ?_
    obtain ⟨⟨p, hp, hpw⟩, ht⟩ := hthen
    rcases ho with ⟨rfl, rfl, hafter⟩ | ⟨f, rfl, helse, hopen, q, hq, hqw⟩
    · exact ⟨⟨_, .if_ he hp, by simp [hus, hpw]⟩, fun _ => hafter⟩
    · refine ⟨⟨_, .ifElse he hp (fun h => ht h (by simpa using helse)) hq, by simp [hus, hpw, hqw]⟩, ?_⟩
      intro h
      cases h with
      | else_ hf => exact hopen hf

theorem reads_forStatement : ReadsFrom c within (.keyword .for_) (forStatement deeper start) := by
  refine readsFrom_keyword fun us => reads_bind (reads_parenthesized _) fun e es => ?_
  refine reads_bind hd.statement fun b vs => reads_spanned start ?_
  intro span after ⟨⟨p, hp, hpw⟩, hb⟩ he hus
  refine ⟨⟨_, .for_ he hp, by simp [hus, hpw]⟩, fun h => ?_⟩
  cases h with
  | for_ h => exact hb h

theorem reads_whileStatement : ReadsFrom c within (.keyword .while_) (whileStatement deeper start) := by
  refine readsFrom_keyword fun us => reads_bind (reads_parenthesized _) fun e es => ?_
  refine reads_bind hd.statement fun b vs => reads_spanned start ?_
  intro span after ⟨⟨p, hp, hpw⟩, hb⟩ he hus
  refine ⟨⟨_, .while_ he hp, by simp [hus, hpw]⟩, fun h => ?_⟩
  cases h with
  | while_ h => exact hb h

theorem reads_doStatement : ReadsFrom c within (.keyword .do_) (doStatement deeper start) := by
  refine readsFrom_keyword fun us => reads_bind hd.statement fun b vs => ?_
  refine reads_bind (reads_require (fixes_keyword _) _) fun _ ks => ?_
  refine reads_bind (reads_parenthesized _) fun e es => ?_
  refine reads_bind (reads_require (fixes_mark _) _) fun _ ts => reads_spanned start ?_
  intro span after hts he hks ⟨⟨p, hp, hpw⟩, _⟩ hus
  exact ⟨⟨_, .doWhile he hp, by simp [hus, hpw, hks, hts]⟩, nofun⟩

theorem reads_catchClauses (n : Nat) :
    Reads c (fun cs us _ => Spelled (EachFrom within.CatchFrom cs) us) (catchClauses deeper n) := by
  induction n with
  | zero => exact reads_pure fun _ => ⟨_, .nil, rfl⟩
  | succ n ih =>
    rw [catchClauses]
    refine reads_still still_here fun start => ?_
    refine reads_accept (fixes_keyword .catch_) (fun us => ?_) (reads_pure fun _ _ => ⟨_, .nil, rfl⟩)
    refine reads_bind (reads_parenthesized _) fun e es => reads_bind hd.block fun b bs => ?_
    refine reads_still (still_spanFrom _) fun span => reads_bind ih fun cs vs => ?_
    refine reads_pure fun _ ⟨q, hq, hqw⟩ ⟨p, hp, hpw⟩ he hus => ?_
    exact ⟨_, .cons ⟨_, p, he, hp, rfl⟩ hq, by simp [hus, hpw, hqw]⟩

theorem reads_tryStatement : ReadsFrom c within (.keyword .try_) (tryStatement deeper start) := by
  refine readsFrom_keyword fun us => reads_bind hd.block fun b bs => ?_
  refine reads_still still_steps fun n => reads_bind (reads_catchClauses hd n) fun cs vs => ?_
  simp only [← bind_assoc]
  refine reads_acceptJoin (fixes_keyword .finally_) (P := fun f ws _ =>
    Spelled (OptionFrom within.FinallyFrom f) ws) (fun ts => ?_)
    (reads_pure fun _ _ => spelled_none) fun f ws => ?_
  · refine reads_bind hd.block fun f vs => reads_pure fun _ ⟨p, hp, hpw⟩ hts => ?_
    exact ⟨_, .some ⟨p, hp, rfl⟩, by simp [hts, hpw]⟩
  · have hlast : Reads c (fun a ts after => Spelled (OptionFrom within.FinallyFrom f) ws →
        Spelled (EachFrom within.CatchFrom cs) vs → Spelled (within.BracedFrom b) bs →
        us.map Token.written = [.keyword .try_] →
        ReadsAs within.StatementFrom a (us ++ (bs ++ (vs ++ (ws ++ ts)))) after)
        (do return .try_ b cs f (← Parser.spanFrom start)) := by
      refine reads_spanned start fun span after ⟨r, hr, hrw⟩ ⟨q, hq, hqw⟩ ⟨p, hp, hpw⟩ hus => ?_
      exact ⟨⟨_, .try_ hp hq hr, by simp [hus, hpw, hqw, hrw]⟩, nofun⟩
    refine reads_ite (fun _ => ?_) fun _ => hlast
    rw [bind_assoc]
    exact reads_still (still_note _) fun _ => hlast

theorem reads_switchCases (n : Nat) :
    Reads c (fun cs us _ => Spelled (EachFrom within.CaseFrom cs) us) (switchCases deeper n) := by
  induction n with
  | zero => exact reads_pure fun _ => ⟨_, .nil, rfl⟩
  | succ n ih =>
    refine reads_kind fun k => reads_ite (fun _ => reads_pure fun _ _ => ⟨_, .nil, rfl⟩) fun _ => ?_
    refine reads_still still_here fun start => ?_
    refine reads_bind (P := fun o us after => ∃ ls, o = some ls ∧ ls ≠ [] ∧
      (kindOf after ≠ .mark .arrow → EachWords LabelFrom ls (us.map Token.written)))
      (reads_recover (reads_map reads_someCaseLabels fun ls us after h => ⟨ls, rfl, h⟩) ?_)
      fun labels us => ?_
    · exact grows_bind (grows_skipBy _) fun _ => grows_pure _
    rcases labels with _ | labels
    · exact ih.mono fun _ _ _ _ ⟨_, h, _⟩ => nomatch h
    refine reads_checkIte ?_ ?_
    · refine reads_still still_here fun _ => reads_report _ ?_
      exact grows_bind (grows_skipBy _) fun _ => grows_pure _
    refine reads_bind (P := fun o vs _ => ∃ ss, o = some ss ∧ Spelled (within.caseBody ss) vs)
      (reads_recover (reads_map hd.caseBody fun ss vs _ h => ⟨ss, rfl, h⟩) ?_) fun body vs => ?_
    · exact grows_bind (grows_skipBy _) fun _ => grows_pure _
    rcases body with _ | body
    · exact reads_pure fun _ ⟨_, h, _⟩ => nomatch h
    refine reads_still (still_spanFrom _) fun span => reads_bind ih fun cs ws => ?_
    refine reads_pure fun after ⟨q, hq, hqw⟩ ⟨_, hbody, p, hp, hpw⟩ harrow ⟨_, hlabels, hne, hls⟩ _ => ?_
    cases hbody
    cases hlabels
    refine ⟨_, .cons ⟨_, p, hne, hls (by simpa using harrow), hp, fun w hw => ?_, rfl⟩ hq,
      by simp [hpw, hqw]⟩
    rw [hpw] at hw
    rcases vs with _ | ⟨v, vs⟩
    · cases hw
    · cases hw
      exact harrow

theorem reads_switchStatement :
    ReadsFrom c within (.keyword .switch_) (switchStatement deeper start) := by
  refine readsFrom_keyword fun us => reads_bind (reads_parenthesized _) fun e es => ?_
  refine reads_bind (reads_require (fixes_mark _) _) fun _ os => reads_still still_steps fun n => ?_
  refine reads_bind (reads_switchCases hd n) fun cs vs => reads_close fun ts => reads_spanned start ?_
  intro span after hts ⟨p, hp, hpw⟩ hos he hus
  exact ⟨⟨_, .switch he hp, by simp [hus, hos, hpw, hts]⟩, nofun⟩

theorem reads_synchronizedStatement :
    ReadsFrom c within (.keyword (.modifier .synchronized_)) (synchronizedStatement deeper start) := by
  refine readsFrom_keyword fun us => reads_bind (reads_parenthesized _) fun e es => ?_
  refine reads_bind hd.block fun b bs => reads_spanned start fun span after ⟨p, hp, hpw⟩ he hus => ?_
  exact ⟨⟨_, .synchronized he hp, by simp [hus, hpw]⟩, nofun⟩

theorem reads_labeledStatement :
    Reads c (fun a us after => kindOf ((us ++ after).drop 1) = .mark .colon →
      ReadsAs within.StatementFrom a us after) (labeledStatement deeper start) := by
  refine reads_bind reads_identifier fun x us => ?_
  refine reads_bind (reads_skip (fixes_mark .colon)) fun _ vs => ?_
  refine reads_bind hd.statement fun b ws => reads_spanned start ?_
  intro span after ⟨⟨p, hp, hpw⟩, hb⟩ hvs hx hk
  obtain ⟨t, rfl, -⟩ := List.map_eq_singleton_iff.mp hx.2
  have hvs := hvs (by simpa using hk)
  refine ⟨⟨_, .labeled hx.1 hp, ?_⟩, fun h => ?_⟩
  · simp only [List.map_cons, List.map_nil, List.cons.injEq, and_true] at hx
    simp [hx.2, hvs, hpw]
  · cases h with
    | labeled h => exact hb h

omit start in
theorem reads_anyStatement : Reads c (ReadsAs within.StatementFrom) (anyStatement deeper) := by
  refine reads_still still_here fun start => reads_kind fun k => reads_secondKind fun k' => ?_
  have hread {k : Kind} {p : Parser Statement} (hp : ReadsFrom c within k p) :
      Reads c (fun a us after => k' = kindOf ((us ++ after).drop 1) → k = kindOf (us ++ after) →
        ReadsAs within.StatementFrom a us after) p :=
    Reads.mono hp fun a us after ha _ hk => ha hk.symm
  split
  · refine reads_bind hd.block fun b us => reads_pure fun _ hb _ _ => ?_
    obtain ⟨p, hp, hpw⟩ := hb
    exact ⟨⟨p, .block hp, by simp [hpw]⟩, fun hopen => by cases hopen⟩
  · refine reads_bind (reads_skip (fixes_mark .semicolon)) fun _ us => reads_spanned start ?_
    intro span after hus _ hk
    have hempty := (hus (by simpa using hk.symm)).symm
    exact ⟨⟨_, .empty, by simpa using hempty⟩, fun hopen => by cases hopen⟩
  · exact hread (reads_returnStatement start)
  · exact hread (reads_ifStatement hd start)
  · exact hread (reads_forStatement hd start)
  · exact hread (reads_whileStatement hd start)
  · exact hread (reads_doStatement hd start)
  · exact reads_skipTryWithResources (grows_bind (still_spanFrom start).grows fun _ => grows_pure _)
  · exact hread (reads_tryStatement hd start)
  · exact hread (reads_switchStatement hd start)
  · exact hread (reads_throwStatement start)
  · exact hread (reads_jumpStatement start (fun _ _ h => .break_ h) fun _ _ hopen => by cases hopen)
  · exact hread (reads_jumpStatement start (fun _ _ h => .continue_ h) fun _ _ hopen => by cases hopen)
  · exact hread (reads_synchronizedStatement hd start)
  · exact hread (reads_assertStatement start)
  · exact (reads_labeledStatement hd start).mono fun a us after ha hk _ => ha hk.symm
  iterate 3 exact reads_throw _
  iterate 5 exact reads_fail _
  · refine (reads_plainStatement start).mono fun a us after ha hk' hk => ha fun hproper => ?_
    rw [← hk] at hproper
    rw [← hk, ← hk']
    clear ha hk hk'
    unfold isPlainStart
    split <;> first | rfl | contradiction

end Compound

theorem reads_tooDeep {Q : α → List Token → List Token → Prop} : Reads c Q tooDeep :=
  reads_read (reads_still still_here fun _ => reads_throw _)

theorem deeperReads (levels : Nat) :
    DeeperReads c (passagesAt levels) ⟨statement levels, block levels, caseBody levels⟩ := by
  induction levels with
  | zero => exact ⟨reads_tooDeep, reads_tooDeep, reads_tooDeep⟩
  | succ levels ih =>
    refine ⟨?_, ?_, ?_⟩
    · simp only [statement]
      exact reads_anyStatement ih
    · simp only [block]
      exact reads_braced ih.statement
    · simp only [caseBody]
      exact reads_allStatements ih.statement true

theorem reads_body : Reads c (fun b us _ => Spelled (BodyFrom c.limits.nesting b) us) body :=
  reads_read (deeperReads _).block

end JavaTree.Parser
