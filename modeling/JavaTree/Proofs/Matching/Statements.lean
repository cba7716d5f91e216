import JavaTree.Proofs.Matching.Parts

/-!
The readers of statements match themselves.

What is read one level further in is given to the readers of one level, so these match themselves if
the given readers do. All levels follow by induction on the levels that are left.
-/

namespace JavaTree.Parser

variable {α γ : Type} {c c' : Settings}

/-! ### Statements -/

section Statements

variable {st : Parser Statement} (hst : Matches c c' Statement.bare st st)

include hst

theorem matches_blockStatement :
    Matches c c' (List.map Statement.bare) (blockStatement st) (blockStatement st) := by
  apply matches_rest.bindOn
  intro ts us h
  simp only [eq_of_bare kindOf_bare h, eq_of_bare (startsWith_bare · Keyword.try_ Mark.openParen) h,
    eq_of_bare looksLikeModified_bare h]
  refine matches_ite Iff.rfl ?_ (matches_ite Iff.rfl ?_ (matches_ite Iff.rfl ?_ ?_))
  · exact (matches_skipType _).bind fun _ => matches_pure rfl
  · exact matches_skipTryWithResources.bind fun _ => matches_pure rfl
  · apply matches_here.bindAny
    intro start start'
    apply matches_allQualifiers.bindOn
    intro q q' hq
    apply matches_kind.bind
    intro _
    apply matches_ite Iff.rfl
    · exact (matches_skipType _).bind fun _ => matches_pure rfl
    · apply (matches_fields hq start start').bindOn
      intro fs fs' hfs
      apply matches_pure
      exact map_eq_map hfs fun f f' hf => by rw [Statement.bare, Statement.bare, hf]
  · exact hst.bindOn fun s s' hs => matches_pure (by rw [List.map_singleton, List.map_singleton, hs])

theorem matches_statements (inSwitch : Bool) (cap : Nat) :
    Matches c c' (List.map Statement.bare) (statements st inSwitch cap) (statements st inSwitch cap) := by
  induction cap with
  | zero =>
    apply matches_kind.bind
    intro _
    refine matches_ite Iff.rfl (matches_pure rfl) ?_
    apply matches_read
    intro hlimits
    apply matches_here.bindAny
    intro _ _
    refine (matches_report (by simp only [hlimits, Diagnostic.bare])).bind fun _ => ?_
    exact (matches_skipBy (blockRest_bare · 0)).bind fun _ => matches_pure rfl
  | succ cap ih =>
    apply matches_kind.bind
    intro _
    refine matches_ite Iff.rfl (matches_pure rfl) ?_
    apply (matches_accept _).bind
    intro _
    refine matches_ite Iff.rfl ih ?_
    refine ((matches_blockStatement hst).recover ?_).bindOn fun ss ss' hss => ?_
    · exact (matches_skipBy (statementRest_bare · 0)).bind fun _ => matches_pure rfl
    · apply ih.bindOn
      intro more more' hmore
      apply matches_pure
      rw [List.map_append, List.map_append, hss, hmore]

theorem matches_allStatements (inSwitch : Bool) :
    Matches c c' (List.map Statement.bare) (allStatements st inSwitch) (allStatements st inSwitch) := by
  apply matches_read
  intro hlimits
  simp only [hlimits]
  exact matches_statements hst inSwitch _

theorem matches_braced : Matches c c' Block.bare (braced st) (braced st) := by
  apply matches_here.bindAny
  intro start start'
  apply (matches_require _ _).bind
  intro _
  apply (matches_allStatements hst false).bindOn
  intro ss ss' hss
  refine matches_close (matches_spanned start start' fun _ _ => ?_)
  rw [Block.bare, Block.bare, Statement.bareAll_eq, Statement.bareAll_eq, hss]

end Statements

theorem matches_caseLabels (n : Nat) :
    Matches c c' (List.map CaseLabel.bare) (caseLabels n) (caseLabels n) := by
  induction n with
  | zero => exact matches_pure rfl
  | succ n ih =>
    apply (matches_check _).bind
    intro _
    apply (matches_check _).bind
    intro _
    refine matches_ite Iff.rfl ((matches_accept _).bind fun _ => ?_) (matches_pure rfl)
    simp only [← bind_assoc]
    refine matches_join (v := CaseLabel.bare) (matches_pure rfl) ?_ fun label label' hlabel => ?_
    · apply ((matches_skip 1).bind fun _ => matches_excerpt _ _).bindOn
      intro e e' he
      apply matches_pure
      rw [CaseLabel.bare, CaseLabel.bare, he]
    · apply (matches_check _).bind
      intro _
      refine matches_ite Iff.rfl (matches_pure ?_) ?_
      · rw [List.map_singleton, List.map_singleton, hlabel]
      · apply ((matches_require _ _).bind fun _ => ih).bindOn
        intro ls ls' hls
        apply matches_pure
        rw [List.map_cons, List.map_cons, hlabel, hls]

theorem matches_someCaseLabels :
    Matches c c' (List.map CaseLabel.bare) someCaseLabels someCaseLabels := by
  apply matches_steps.bind
  intro _
  apply (matches_caseLabels _).bindOn
  intro ls ls' hls
  have hempty : ls.isEmpty = ls'.isEmpty := by
    rw [← List.isEmpty_map (f := CaseLabel.bare), hls, List.isEmpty_map]
  simp only [hempty]
  exact matches_ite Iff.rfl (matches_fail _) (matches_pure hls)

/-- The readers for one level further in match themselves. -/
structure DeeperMatches (c c' : Settings) (deeper : Deeper) : Prop where
  statement : Matches c c' Statement.bare deeper.statement deeper.statement
  block : Matches c c' Block.bare deeper.block deeper.block
  caseBody : Matches c c' (List.map Statement.bare) deeper.caseBody deeper.caseBody

section Deeper

variable {deeper : Deeper} (start start' : Location)

theorem matches_emptyBlock : Matches c c' Statement.bare (emptyBlock start) (emptyBlock start') :=
  matches_spanned start start' fun _ _ => rfl

theorem matches_returnStatement :
    Matches c c' Statement.bare (returnStatement start) (returnStatement start') := by
  apply (matches_skip 1).bind
  intro _
  apply (matches_check _).bind
  intro _
  simp only [← bind_assoc]
  refine matches_join (matches_pure rfl) (matches_someExcerpt _ _) fun e e' he => ?_
  refine matches_ended start start' fun _ _ => ?_
  simp only [Statement.bare, he]

theorem matches_throwStatement :
    Matches c c' Statement.bare (throwStatement start) (throwStatement start') := by
  apply (matches_skip 1).bind
  intro _
  apply (matches_excerpt _ _).bindOn
  intro e e' he
  apply (matches_require _ _).bind
  intro _
  apply matches_spanned start start'
  intro _ _
  simp only [Statement.bare, he]

theorem matches_jumpStatement {make : Option String → Span → Statement}
    (hmake : ∀ label a a', (make label a).bare = (make label a').bare) :
    Matches c c' Statement.bare (jumpStatement make start) (jumpStatement make start') := by
  apply (matches_skip 1).bind
  intro _
  apply (matches_check _).bind
  intro _
  simp only [← bind_assoc]
  refine matches_join (v := id) (matches_identifier.bind fun _ => matches_pure rfl) (matches_pure rfl) ?_
  rintro label _ rfl
  exact matches_ended start start' (hmake label)

theorem matches_assertStatement :
    Matches c c' Statement.bare (assertStatement start) (assertStatement start') := by
  apply (matches_skip 1).bind
  intro _
  apply (matches_excerpt _ _).bindOn
  intro e e' he
  apply (matches_accept _).bind
  intro _
  simp only [← bind_assoc]
  refine matches_join (matches_someExcerpt _ _) (matches_pure rfl) fun m m' hm => ?_
  refine matches_ended start start' fun _ _ => ?_
  simp only [Statement.bare, he, hm]

theorem matches_plainStatement :
    Matches c c' Statement.bare (plainStatement start) (plainStatement start') := by
  apply matches_read
  intro hlimits
  apply matches_rest.bindOn
  intro ts us h
  simp only [hlimits, eq_of_bare (looksLikeVariable_bare · c'.limits.excerptTokens) h]
  apply matches_ite Iff.rfl
  · apply matches_typeUse.bindOn
    intro t t' ht
    apply matches_declarators.bindOn
    intro ds ds' hds
    apply matches_spanned start start'
    intro _ _
    simp only [Statement.bare, ht, hds]
  · apply (matches_excerpt _ _).bindOn
    intro e e' he
    apply (matches_require _ _).bind
    intro _
    apply matches_spanned start start'
    intro _ _
    simp only [Statement.bare, he]

variable (hd : DeeperMatches c c' deeper)

include hd

theorem matches_catchClauses (n : Nat) :
    Matches c c' (List.map CatchClause.bare) (catchClauses deeper n) (catchClauses deeper n) := by
  induction n with
  | zero => exact matches_pure rfl
  | succ n ih =>
    apply matches_here.bindAny
    intro start start'
    apply (matches_accept _).bind
    intro _
    refine matches_ite Iff.rfl ((matches_parenthesized _).bindOn fun e e' he => ?_) (matches_pure rfl)
    apply hd.block.bindOn
    intro b b' hb
    apply (matches_spanFrom start start').bindAny
    intro _ _
    apply ih.bindOn
    intro cs cs' hcs
    apply matches_pure
    simp only [List.map_cons, CatchClause.bare, he, hb, hcs]

theorem matches_switchCases (n : Nat) :
    Matches c c' (List.map SwitchCase.bare) (switchCases deeper n) (switchCases deeper n) := by
  induction n with
  | zero => exact matches_pure rfl
  | succ n ih =>
    apply matches_kind.bind
    intro _
    refine matches_ite Iff.rfl (matches_pure rfl) ?_
    apply matches_here.bindAny
    intro start start'
    have hlabels : Matches c c' (Option.map (List.map CaseLabel.bare)) (some <$> someCaseLabels)
        (some <$> someCaseLabels) := matches_someCaseLabels.map fun _ _ => congrArg some
    refine (hlabels.recover ?_).bindOn fun ls ls' hls => ?_
    · exact (matches_skipBy (caseRest_bare · 0)).bind fun _ => matches_pure rfl
    rcases ls with _ | ls <;> rcases ls' with _ | ls'
    · exact ih
    · cases hls
    · cases hls
    apply (matches_check _).bind
    intro _
    apply matches_ite Iff.rfl
    · apply matches_here.bindAny
      intro _ _
      refine (matches_report (by rfl)).bind fun _ => ?_
      exact (matches_skipBy (blockRest_bare · 0)).bind fun _ => matches_pure rfl
    · have hinner : Matches c c' (Option.map (List.map Statement.bare)) (some <$> deeper.caseBody)
          (some <$> deeper.caseBody) := hd.caseBody.map fun _ _ => congrArg some
      refine (hinner.recover ?_).bindOn fun ss ss' hss => ?_
      · exact (matches_skipBy (blockRest_bare · 0)).bind fun _ => matches_pure rfl
      rcases ss with _ | ss <;> rcases ss' with _ | ss'
      · exact matches_pure rfl
      · cases hss
      · cases hss
      apply (matches_spanFrom start start').bindAny
      intro _ _
      apply ih.bindOn
      intro cs cs' hcs
      refine matches_pure ?_
      rw [List.map_cons, List.map_cons, SwitchCase.bare, SwitchCase.bare, Option.some.inj hls,
        Option.some.inj hss, hcs]

theorem matches_ifStatement :
    Matches c c' Statement.bare (ifStatement deeper start) (ifStatement deeper start') := by
  apply (matches_skip 1).bind
  intro _
  apply (matches_parenthesized _).bindOn
  intro e e' he
  apply hd.statement.bindOn
  intro s s' hs
  apply (matches_accept _).bind
  intro _
  simp only [← bind_assoc]
  refine matches_join (v := Option.map Statement.bare)
    (hd.statement.bindOn fun _ _ h => matches_pure (congrArg some h)) (matches_pure rfl) fun o o' ho => ?_
  apply matches_spanned start start'
  intro _ _
  simp only [Statement.bare, Statement.bareElse_eq, he, hs, ho]

theorem matches_forStatement :
    Matches c c' Statement.bare (forStatement deeper start) (forStatement deeper start') := by
  apply (matches_skip 1).bind
  intro _
  apply (matches_parenthesized _).bindOn
  intro e e' he
  apply hd.statement.bindOn
  intro s s' hs
  apply matches_spanned start start'
  intro _ _
  simp only [Statement.bare, he, hs]

theorem matches_whileStatement :
    Matches c c' Statement.bare (whileStatement deeper start) (whileStatement deeper start') := by
  apply (matches_skip 1).bind
  intro _
  apply (matches_parenthesized _).bindOn
  intro e e' he
  apply hd.statement.bindOn
  intro s s' hs
  apply matches_spanned start start'
  intro _ _
  simp only [Statement.bare, he, hs]

theorem matches_doStatement :
    Matches c c' Statement.bare (doStatement deeper start) (doStatement deeper start') := by
  apply (matches_skip 1).bind
  intro _
  apply hd.statement.bindOn
  intro s s' hs
  apply (matches_require _ _).bind
  intro _
  apply (matches_parenthesized _).bindOn
  intro e e' he
  apply (matches_require _ _).bind
  intro _
  apply matches_spanned start start'
  intro _ _
  simp only [Statement.bare, he, hs]

theorem matches_tryStatement :
    Matches c c' Statement.bare (tryStatement deeper start) (tryStatement deeper start') := by
  apply (matches_skip 1).bind
  intro _
  apply hd.block.bindOn
  intro b b' hb
  apply matches_steps.bind
  intro _
  apply (matches_catchClauses hd _).bindOn
  intro cs cs' hcs
  apply (matches_accept _).bind
  intro _
  simp only [← bind_assoc]
  refine matches_join (v := Option.map Block.bare)
    (hd.block.bindOn fun _ _ h => matches_pure (congrArg some h)) (matches_pure rfl) fun f f' hf => ?_
  have hbare : (cs.isEmpty && f.isNone) = (cs'.isEmpty && f'.isNone) := by
    rw [← List.isEmpty_map (f := CatchClause.bare), hcs, List.isEmpty_map,
      ← Option.isNone_map (f := Block.bare), hf, Option.isNone_map]
  have hnode (a a' : Span) : (Statement.try_ b cs f a).bare = (Statement.try_ b' cs' f' a').bare := by
    simp only [Statement.bare, CatchClause.bareAll_eq, Block.bareFinally_eq, hb, hcs, hf]
  rw [hbare]
  refine matches_ite Iff.rfl ?_ (matches_spanned start start' hnode)
  exact ((matches_note _ _).bind fun _ => matches_spanFrom start start').bindAny fun a a' =>
    matches_pure (hnode a a')

theorem matches_switchStatement :
    Matches c c' Statement.bare (switchStatement deeper start) (switchStatement deeper start') := by
  apply (matches_skip 1).bind
  intro _
  apply (matches_parenthesized _).bindOn
  intro e e' he
  apply (matches_require _ _).bind
  intro _
  apply matches_steps.bind
  intro _
  apply (matches_switchCases hd _).bindOn
  intro cs cs' hcs
  refine matches_close (matches_spanned start start' fun _ _ => ?_)
  simp only [Statement.bare, SwitchCase.bareAll_eq, he, hcs]

theorem matches_synchronizedStatement :
    Matches c c' Statement.bare (synchronizedStatement deeper start)
      (synchronizedStatement deeper start') := by
  apply (matches_skip 1).bind
  intro _
  apply (matches_parenthesized _).bindOn
  intro e e' he
  apply hd.block.bindOn
  intro b b' hb
  apply matches_spanned start start'
  intro _ _
  simp only [Statement.bare, he, hb]

theorem matches_labeledStatement :
    Matches c c' Statement.bare (labeledStatement deeper start) (labeledStatement deeper start') := by
  apply matches_identifier.bind
  intro label
  apply (matches_skip 1).bind
  intro _
  apply hd.statement.bindOn
  intro s s' hs
  apply matches_spanned start start'
  intro _ _
  simp only [Statement.bare, hs]

omit start start' in
theorem matches_anyStatement :
    Matches c c' Statement.bare (anyStatement deeper) (anyStatement deeper) := by
  apply matches_here.bindAny
  intro start start'
  apply matches_kind.bind
  intro _
  apply matches_secondKind.bind
  intro _
  split
  · exact hd.block.bindOn fun b b' hb => matches_pure (by rw [Statement.bare, Statement.bare, hb])
  · exact (matches_skip 1).bind fun _ => matches_emptyBlock start start'
  · exact matches_returnStatement start start'
  · exact matches_ifStatement start start' hd
  · exact matches_forStatement start start' hd
  · exact matches_whileStatement start start' hd
  · exact matches_doStatement start start' hd
  · exact matches_skipTryWithResources.bind fun _ => matches_emptyBlock start start'
  · exact matches_tryStatement start start' hd
  · exact matches_switchStatement start start' hd
  · exact matches_throwStatement start start'
  · exact matches_jumpStatement start start' fun _ _ _ => rfl
  · exact matches_jumpStatement start start' fun _ _ _ => rfl
  · exact matches_synchronizedStatement start start' hd
  · exact matches_assertStatement start start'
  · exact matches_labeledStatement start start' hd
  iterate 3 exact matches_throw rfl
  iterate 5 exact matches_fail _
  exact matches_plainStatement start start'

end Deeper

theorem matches_tooDeep {v : α → γ} : Matches c c' v (tooDeep : Parser α) tooDeep := by
  apply matches_read
  intro hlimits
  apply matches_here.bindAny
  intro _ _
  refine matches_throw ?_
  simp only [hlimits, Diagnostic.bare]

theorem deeperMatches (levels : Nat) :
    DeeperMatches c c' ⟨statement levels, block levels, caseBody levels⟩ := by
  induction levels with
  | zero => exact ⟨matches_tooDeep, matches_tooDeep, matches_tooDeep⟩
  | succ levels ih =>
    refine ⟨?_, ?_, ?_⟩
    · simp only [statement]
      exact matches_anyStatement ih
    · simp only [block]
      exact matches_braced ih.statement
    · simp only [caseBody]
      exact matches_allStatements ih.statement true

theorem matches_body : Matches c c' Block.bare body body := by
  apply matches_read
  intro hlimits
  rw [hlimits]
  exact (deeperMatches _).block

end JavaTree.Parser
