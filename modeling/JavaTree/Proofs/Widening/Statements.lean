import JavaTree.Proofs.Widening.Parts

/-!
Statements with wider caps.

The number of statements that a row may hold and the number of levels are caps that a reader counts
down. Where the narrow one has come to its end, its reader reports that or stops with it, whatever the
other one does from there on.
-/

namespace JavaTree.Parser

variable {α β : Type} {c : Settings} {wide : Limits} {s : State}

section Limited

variable (hle : c.limits.Within wide)

include hle

/-! ### Rows with a cap -/

omit hle in
/-- A row that comes to its cap reports it. -/
theorem widens_overfull (what : String) (limit : Limits → Nat) (a : α) (q : Parser α) : Widens c wide (do
    report (.limitExceeded what (limit (← read).limits) (← here))
    skipBy (blockRest 0)
    return a) q := by
  refine .capped (.read (fun _ _ => rfl) fun c => .bind built_here fun _ => ?_) fun s => ?_
  · exact .bind (built_report rfl trivial) fun _ => .bind (built_skipBy _) fun _ => .pure a
  · rw [bind_run_ok read_run, bind_run_ok here_run]
    exact hitsCap_bind (hitsCap_report rfl) fun _ _ _ => List.prefix_refl _

section Rows

variable {st st' : Parser Statement} (hst : Widens c wide st st')

include hst

theorem widens_blockStatement : Widens c wide (blockStatement st) (blockStatement st') := by
  refine .bind widens_rest fun _ => .ite ?_ (.ite ?_ (.ite ?_ ?_))
  · exact .bind (widens_skipType _) fun _ => widens_pure []
  · exact .bind widens_skipTryWithResources fun _ => widens_pure []
  · refine .bind widens_here fun start => .bind (widens_allQualifiers hle) fun q => ?_
    refine .bind widens_kind fun _ => ?_
    refine .ite (.bind (widens_skipType _) fun _ => widens_pure []) ?_
    exact .bind (widens_fields hle start q) fun _ => widens_pure _
  · exact .bind hst fun _ => widens_pure _

theorem widens_statements (inSwitch : Bool) {cap cap' : Nat} (hcap : cap ≤ cap') :
    Widens c wide (statements st inSwitch cap) (statements st' inSwitch cap') := by
  induction cap generalizing cap' with
  | zero =>
    cases cap' with
    | zero | succ _ =>
      exact .bind widens_kind fun _ => .ite (widens_pure []) (widens_overfull _ Limits.blockStatements [] _)
  | succ cap ih =>
    obtain ⟨cap', rfl⟩ : ∃ n, cap' = n + 1 := ⟨cap' - 1, by omega⟩
    have hmore := ih (Nat.le_of_succ_le_succ hcap)
    refine .bind widens_kind fun _ => .ite (widens_pure []) (.bind (widens_accept _) fun _ => .ite hmore ?_)
    refine .bind (.recover (widens_blockStatement hle hst) ?_) fun _ => .bind hmore fun _ => widens_pure _
    exact .bind (widens_skipBy _) fun _ => widens_pure []

theorem widens_allStatements (inSwitch : Bool) :
    Widens c wide (allStatements st inSwitch) (allStatements st' inSwitch) :=
  .read (widens_statements hle hst inSwitch hle.blockStatements)

theorem widens_braced : Widens c wide (braced st) (braced st') :=
  .bind widens_here fun start => .bind (widens_require _ _) fun _ =>
    .bind (widens_allStatements hle hst false) fun _ => widens_close (widens_spanned start _)

end Rows

/-! ### Statements -/

theorem widens_caseLabels (n : Nat) : Widens c wide (caseLabels n) (caseLabels n) := by
  induction n with
  | zero => exact widens_pure []
  | succ n ih =>
    refine .bind (widens_check _) fun _ => .bind (widens_check _) fun _ => .ite ?_ (widens_pure [])
    refine .bind (widens_accept _) fun _ => ?_
    simp only [← bind_assoc]
    refine .join (widens_pure _)
      (.bind (.bind (widens_skip 1) fun _ => widens_excerpt hle _ _) fun _ => widens_pure _) fun label => ?_
    refine .bind (widens_check _) fun _ => .ite (widens_pure _) ?_
    exact .bind (.bind (widens_require _ _) fun _ => ih) fun _ => widens_pure _

theorem widens_someCaseLabels : Widens c wide someCaseLabels someCaseLabels :=
  .bind widens_steps fun _ => .bind (widens_caseLabels hle _) fun _ => .ite (widens_fail _) (widens_pure _)

/-- Readers for one level further in. -/
structure DeeperWidens (c : Settings) (wide : Limits) (d e : Deeper) : Prop where
  statement : Widens c wide d.statement e.statement
  block : Widens c wide d.block e.block
  caseBody : Widens c wide d.caseBody e.caseBody

section Deeper

variable {deeper deeper' : Deeper} (start : Location)

omit hle in
theorem widens_emptyBlock : Widens c wide (emptyBlock start) (emptyBlock start) := widens_spanned start _

theorem widens_returnStatement : Widens c wide (returnStatement start) (returnStatement start) := by
  refine .bind (widens_skip 1) fun _ => .bind (widens_check _) fun _ => ?_
  simp only [← bind_assoc]
  exact .join (widens_pure none) (widens_someExcerpt hle _ _) fun _ => widens_ended start _

theorem widens_throwStatement : Widens c wide (throwStatement start) (throwStatement start) :=
  .bind (widens_skip 1) fun _ => .bind (widens_excerpt hle _ _) fun _ => .bind (widens_require _ _) fun _ =>
    widens_spanned start _

omit hle in
theorem widens_jumpStatement (make : Option String → Span → Statement) :
    Widens c wide (jumpStatement make start) (jumpStatement make start) := by
  refine .bind (widens_skip 1) fun _ => .bind (widens_check _) fun _ => ?_
  simp only [← bind_assoc]
  exact .join (.bind widens_identifier fun _ => widens_pure _) (widens_pure none) fun _ =>
    widens_ended start _

theorem widens_assertStatement : Widens c wide (assertStatement start) (assertStatement start) := by
  refine .bind (widens_skip 1) fun _ => .bind (widens_excerpt hle _ _) fun _ => ?_
  refine .bind (widens_accept _) fun _ => ?_
  simp only [← bind_assoc]
  exact .join (widens_someExcerpt hle _ _) (widens_pure none) fun _ => widens_ended start _

theorem widens_plainStatement : Widens c wide (plainStatement start) (plainStatement start) := by
  refine .read (.ahead fun ts hts => ?_)
  have hlooks : looksLikeVariable (c.withLimits wide).limits.excerptTokens ts =
      looksLikeVariable c.limits.excerptTokens ts := (hts.looksLikeVariable hle.excerptTokens).symm
  rw [hlooks]
  refine .ite ?_ ?_
  · exact .bind (widens_typeUse hle) fun _ => .bind (widens_declarators hle) fun _ => widens_spanned start _
  · exact .bind (widens_excerpt hle _ _) fun _ => .bind (widens_require _ _) fun _ => widens_spanned start _

variable (hd : DeeperWidens c wide deeper deeper')

include hd

theorem widens_catchClauses (n : Nat) : Widens c wide (catchClauses deeper n) (catchClauses deeper' n) := by
  induction n with
  | zero => exact widens_pure []
  | succ n ih =>
    refine .bind widens_here fun start => .bind (widens_accept _) fun _ => .ite ?_ (widens_pure [])
    refine .bind (widens_parenthesized hle _) fun _ => .bind hd.block fun _ => ?_
    exact .bind (widens_spanFrom start) fun _ => .bind ih fun _ => widens_pure _

theorem widens_switchCases (n : Nat) : Widens c wide (switchCases deeper n) (switchCases deeper' n) := by
  induction n with
  | zero => exact widens_pure []
  | succ n ih =>
    refine .bind widens_kind fun _ => .ite (widens_pure []) (.bind widens_here fun start => ?_)
    refine .bind (.recover ((widens_someCaseLabels hle).map some) ?_) fun labels => ?_
    · exact .bind (widens_skipBy _) fun _ => widens_pure none
    rcases labels with _ | labels
    · exact ih
    refine .bind (widens_check _) fun _ => .ite ?_ ?_
    · exact .bind widens_here fun _ => .bind (widens_report _) fun _ =>
        .bind (widens_skipBy _) fun _ => widens_pure []
    · refine .bind (.recover (hd.caseBody.map some) ?_) fun inner => ?_
      · exact .bind (widens_skipBy _) fun _ => widens_pure none
      rcases inner with _ | inner
      · exact widens_pure []
      · exact .bind (widens_spanFrom start) fun _ => .bind ih fun _ => widens_pure _

theorem widens_ifStatement : Widens c wide (ifStatement deeper start) (ifStatement deeper' start) := by
  refine .bind (widens_skip 1) fun _ => .bind (widens_parenthesized hle _) fun _ => ?_
  refine .bind hd.statement fun _ => .bind (widens_accept _) fun _ => ?_
  simp only [← bind_assoc]
  exact .join (.bind hd.statement fun _ => widens_pure _) (widens_pure none) fun _ => widens_spanned start _

theorem widens_forStatement : Widens c wide (forStatement deeper start) (forStatement deeper' start) :=
  .bind (widens_skip 1) fun _ => .bind (widens_parenthesized hle _) fun _ => .bind hd.statement fun _ =>
    widens_spanned start _

theorem widens_whileStatement : Widens c wide (whileStatement deeper start) (whileStatement deeper' start) :=
  .bind (widens_skip 1) fun _ => .bind (widens_parenthesized hle _) fun _ => .bind hd.statement fun _ =>
    widens_spanned start _

theorem widens_doStatement : Widens c wide (doStatement deeper start) (doStatement deeper' start) :=
  .bind (widens_skip 1) fun _ => .bind hd.statement fun _ => .bind (widens_require _ _) fun _ =>
    .bind (widens_parenthesized hle _) fun _ => .bind (widens_require _ _) fun _ => widens_spanned start _

theorem widens_tryStatement : Widens c wide (tryStatement deeper start) (tryStatement deeper' start) := by
  refine .bind (widens_skip 1) fun _ => .bind hd.block fun _ => .bind widens_steps fun _ => ?_
  refine .bind (widens_catchClauses hle hd _) fun _ => .bind (widens_accept _) fun _ => ?_
  simp only [← bind_assoc]
  refine .join (.bind hd.block fun _ => widens_pure _) (widens_pure none) fun _ => ?_
  refine .ite ?_ (widens_spanned start _)
  exact .bind (.bind (widens_note _) fun _ => widens_spanFrom start) fun _ => widens_pure _

theorem widens_switchStatement :
    Widens c wide (switchStatement deeper start) (switchStatement deeper' start) := by
  refine .bind (widens_skip 1) fun _ => .bind (widens_parenthesized hle _) fun _ => ?_
  refine .bind (widens_require _ _) fun _ => .bind widens_steps fun _ => ?_
  exact .bind (widens_switchCases hle hd _) fun _ => widens_close (widens_spanned start _)

theorem widens_synchronizedStatement :
    Widens c wide (synchronizedStatement deeper start) (synchronizedStatement deeper' start) :=
  .bind (widens_skip 1) fun _ => .bind (widens_parenthesized hle _) fun _ => .bind hd.block fun _ =>
    widens_spanned start _

omit hle in
theorem widens_labeledStatement :
    Widens c wide (labeledStatement deeper start) (labeledStatement deeper' start) :=
  .bind widens_identifier fun _ => .bind (widens_skip 1) fun _ => .bind hd.statement fun _ =>
    widens_spanned start _

omit start in
theorem widens_anyStatement : Widens c wide (anyStatement deeper) (anyStatement deeper') := by
  refine .bind widens_here fun start => .bind widens_kind fun _ => .bind widens_secondKind fun _ => ?_
  split
  · exact .bind hd.block fun _ => widens_pure _
  · exact .bind (widens_skip 1) fun _ => widens_emptyBlock start
  · exact widens_returnStatement hle start
  · exact widens_ifStatement hle start hd
  · exact widens_forStatement hle start hd
  · exact widens_whileStatement hle start hd
  · exact widens_doStatement hle start hd
  · exact .bind widens_skipTryWithResources fun _ => widens_emptyBlock start
  · exact widens_tryStatement hle start hd
  · exact widens_switchStatement hle start hd
  · exact widens_throwStatement hle start
  · exact widens_jumpStatement start _
  · exact widens_jumpStatement start _
  · exact widens_synchronizedStatement hle start hd
  · exact widens_assertStatement hle start
  · exact widens_labeledStatement start hd
  iterate 3 exact widens_throw _
  iterate 5 exact widens_fail _
  exact widens_plainStatement hle start

end Deeper

omit hle in
/-- Where no level is left, the finding that the cap was reached stops the reader. -/
theorem widens_tooDeep (q : Parser α) : Widens c wide tooDeep q := by
  refine .capped built_tooDeep fun s => ?_
  rw [tooDeep, bind_run_ok read_run, bind_run_ok here_run, throw_run]
  exact ⟨_, List.mem_append_right _ List.mem_cons_self, rfl⟩

theorem deeperWidens {levels levels' : Nat} (hlevels : levels ≤ levels') :
    DeeperWidens c wide ⟨statement levels, block levels, caseBody levels⟩
      ⟨statement levels', block levels', caseBody levels'⟩ := by
  induction levels generalizing levels' with
  | zero => exact ⟨widens_tooDeep _, widens_tooDeep _, widens_tooDeep _⟩
  | succ levels ih =>
    obtain ⟨levels', rfl⟩ : ∃ n, levels' = n + 1 := ⟨levels' - 1, by omega⟩
    have hinner := ih (Nat.le_of_succ_le_succ hlevels)
    refine ⟨?_, ?_, ?_⟩
    · simp only [statement]
      exact widens_anyStatement hle hinner
    · simp only [block]
      exact widens_braced hle hinner.statement
    · simp only [caseBody]
      exact widens_allStatements hle hinner.statement true

theorem widens_body : Widens c wide body body := .read (deeperWidens hle hle.nesting).block

end Limited

end JavaTree.Parser
