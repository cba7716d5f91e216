import Mathlib.Data.List.Flatten
import JavaTree.Proofs.Parser.Appended
import JavaTree.Proofs.Parser.Budget
import JavaTree.Proofs.Token.Coordinates
import JavaTree.Proofs.Walk

/-!
Excerpts in the order of the text.

A reader moves forward only, and an excerpt is what it passes over. So the tokens that have been gathered
in excerpts, with those that are left behind them, are always a part of the tokens that there were. The
order in which a walk meets the excerpts of a tree is the order in which they have been gathered.

    tokens      do { f ( a ) ; } while ( b ) ;  ...
    gathered         f ( a )             b
    left                                      ;  ...
-/

namespace JavaTree

/-- The tokens of excerpts, one after another. -/
def Excerpt.allTokens (es : List Excerpt) : List Token := es.flatMap (·.tokens)

theorem Excerpt.first_span (e : Excerpt) (h : e.tokens ≠ []) :
    e.span.first = (e.tokens.head h).location := by
  rw [span, List.head?_eq_some_head h, List.getLast?_eq_some_getLast h]

theorem Excerpt.last_span (e : Excerpt) (h : e.tokens ≠ []) :
    e.span.last = (e.tokens.getLast h).location := by
  rw [span, List.head?_eq_some_head h, List.getLast?_eq_some_getLast h]

namespace Parser

open Excerpt Outline

variable {α β : Type} {c : Settings} {x : List Excerpt}

/-- What a reader finds is gathered behind what had been gathered before. With what is left of the text, its
tokens are a part of those that had been gathered and of what was left then. -/
def Gathers (c : Settings) (x : List Excerpt) (found : α → List Excerpt) (p : Parser α) : Prop :=
  ∀ ⦃s a s'⦄, p c s = .ok a s' → (allTokens (found a) ++ s'.rest).Sublist (allTokens x ++ s.rest)

/-! ### Rules -/

section Rules

variable {F : α → List Excerpt} {G : β → List Excerpt}

theorem gathers_pure {a : α} (h : (F a).Sublist x) : Gathers c x F (pure a) := by
  intro s b s' hrun
  cases hrun
  exact (h.flatMap _).append_right s.rest

theorem gathers_bind {p : Parser α} {f : α → Parser β} (hp : Gathers c x F p)
    (hf : ∀ a, Gathers c (F a) G (f a)) : Gathers c x G (p >>= f) := by
  intro s b s' hrun
  obtain ⟨a, t, hfirst, hsecond⟩ := bind_eq_ok.mp hrun
  exact (hf a hsecond).trans (hp hfirst)

/-- A reader goes on behind what has been gathered. -/
theorem Gathers.behind {p : Parser α} (h : Gathers c [] F p) (x : List Excerpt) :
    Gathers c x (fun a => x ++ F a) p := by
  intro s a s' hrun
  rw [allTokens, List.flatMap_append, List.append_assoc]
  exact (h hrun).append_left _

/-- A reader that finds no excerpt leaves no more than there was. -/
theorem gathers_forward {p : Parser α} (h : Forward c p) : Gathers c x (fun _ => x) p :=
  fun _ _ _ hrun => (h.suffix hrun).sublist.append_left _

/-- A step that finds no excerpt. -/
theorem gathers_step {p : Parser α} {f : α → Parser β} (hp : Built (fun _ => True) p)
    (hf : ∀ a, Gathers c x G (f a)) : Gathers c x G (p >>= f) :=
  gathers_bind (gathers_forward hp.forward) hf

theorem gathers_map {p : Parser α} {f : α → β} (hp : Gathers c x F p)
    (hf : ∀ a, (G (f a)).Sublist (F a)) : Gathers c x G (f <$> p) := by
  rw [← bind_pure_comp]
  exact gathers_bind hp fun a => gathers_pure (hf a)

theorem gathers_ite {b : Prop} [Decidable b] {p q : Parser α} (hp : Gathers c x F p)
    (hq : Gathers c x F q) : Gathers c x F (if b then p else q) := by
  split
  · exact hp
  · exact hq

/-- A choice between two readers with one continuation. -/
theorem gathers_join {b : Prop} [Decidable b] {p q : Parser α} {f : α → Parser β} (hp : Gathers c x F p)
    (hq : Gathers c x F q) (hf : ∀ a, Gathers c (F a) G (f a)) :
    Gathers c x G (if b then p >>= f else q >>= f) :=
  gathers_ite (gathers_bind hp hf) (gathers_bind hq hf)

theorem gathers_fail (expected : String) : Gathers c x F (fail expected) := by
  intro s a s' hrun
  rw [fail_run] at hrun
  cases hrun

theorem gathers_throw (d : Diagnostic) : Gathers c x F (throw d) := fun _ _ _ hrun => by cases hrun

theorem gathers_read {f : Settings → Parser α} (h : ∀ c', Gathers c x F (f c')) :
    Gathers c x F (read >>= f) := by
  intro s a s' hrun
  rw [bind_run_ok read_run] at hrun
  exact h c hrun

theorem gathers_report (d : Diagnostic) : Gathers c x (fun _ => x) (report d) :=
  gathers_forward (Keeps.forward fun _ => keeps_report d)

/-- A reader that stops has moved on, too, and reading resumes from there. -/
theorem gathers_recover {p resume : Parser α} (hp : Gathers c x F p) (hbuilt : Built (fun _ => True) p)
    (hresume : Gathers c x F resume) : Gathers c x F (recover p resume) := by
  intro s a s' hrun
  rcases recover_eq_ok.mp hrun with hfirst | ⟨d, t, hstop, hlast⟩
  · exact hp hfirst
  · have hback := hbuilt.forward (c := c) s
    rw [hstop] at hback
    exact (gathers_bind (gathers_report d) (fun _ => hresume) hlast).trans (hback.sublist.append_left _)

/-- An attempt that is given up finds no excerpt. -/
theorem gathers_attempt {p : Parser α} (hp : Gathers c x F p) (hbuilt : Built (fun _ => True) p) :
    Gathers c x (fun | .ok a => F a | .error _ => x) (attempt p) := by
  intro s r s' hrun
  rcases attempt_eq_ok.mp hrun with ⟨a, rfl, hfirst⟩ | ⟨d, rfl, hstop⟩
  · exact hp hfirst
  · have hback := hbuilt.forward (c := c) s
    rw [hstop] at hback
    exact hback.sublist.append_left _

/-- A missing closing brace is reported. -/
theorem gathers_close {expected : String} {p : Parser α} (hp : Gathers c x F p) : Gathers c x F (do
    if !(← accept Mark.closeBrace) then
      report (← unexpected expected)
    p) := by
  refine gathers_step (built_accept _) fun _ => gathers_ite ?_ hp
  refine gathers_bind (gathers_forward (Keeps.forward fun _ => keeps_unexpected expected)) fun _ => ?_
  exact gathers_bind (gathers_report _) fun _ => hp

/-- A node that ends with its span. -/
theorem gathers_spanned {start : Location} {make : Span → α} (h : ∀ span, (F (make span)).Sublist x) :
    Gathers c x F (do return make (← spanFrom start)) :=
  gathers_step (built_spanFrom start) fun span => gathers_pure (h span)

end Rules

/-! ### Excerpts and variables -/

theorem gathers_excerpt (rule : CaptureRule) (what : String) :
    Gathers c [] (fun e => [e]) (excerpt rule what) := by
  intro s e s' hrun
  obtain ⟨-, hrest⟩ := liesIn_of_excerpt hrun (List.suffix_refl _)
  simp [allTokens, hrest]

/-- An excerpt that may be left out. -/
theorem gathers_someExcerpt (rule : CaptureRule) (what : String) :
    Gathers c [] Option.toList (do return some (← excerpt rule what)) :=
  gathers_bind (gathers_excerpt rule what) fun _ => gathers_pure (.refl _)

theorem gathers_parenthesized (what : String) : Gathers c [] (fun e => [e]) (parenthesized what) := by
  refine gathers_step (built_require _ _) fun _ => gathers_bind (gathers_excerpt _ _) fun _ => ?_
  exact gathers_step (built_require _ _) fun _ => gathers_pure (.refl _)

theorem gathers_declarator : Gathers c [] (fun d => d.initializer.toList) declarator := by
  refine gathers_step built_here fun _ => gathers_step built_identifier fun _ => ?_
  refine gathers_step built_brackets fun _ => gathers_step (built_accept _) fun _ => ?_
  simp only [← bind_assoc]
  refine gathers_join (gathers_someExcerpt _ _) (gathers_pure (.refl _)) fun _ => ?_
  exact gathers_spanned fun _ => .refl _

theorem gathers_declaratorList (n : Nat) :
    Gathers c [] (fun ds => ds.flatMap (·.initializer.toList)) (declaratorList n) := by
  induction n with
  | zero => exact gathers_pure (.refl _)
  | succ n ih =>
    refine gathers_bind gathers_declarator fun d => gathers_step (built_accept _) fun _ => gathers_ite ?_ ?_
    · exact gathers_bind (ih.behind _) fun ds => gathers_pure (by simp)
    · exact gathers_pure (by simp)

theorem gathers_declarators :
    Gathers c [] (fun ds => ds.flatMap (·.initializer.toList)) declarators := by
  refine gathers_step built_steps fun _ => gathers_bind (gathers_declaratorList _) fun ds => ?_
  exact gathers_step (built_require _ _) fun _ => gathers_pure (.refl _)

/-- Each variable of a declaration is a field with its own initializer. -/
theorem gathers_fields (start : Location) (q : Qualifiers) :
    Gathers c [] (fun fs => fs.flatMap (·.initializer.toList)) (fields start q) := by
  refine gathers_step built_typeUse fun _ => gathers_bind gathers_declarators fun ds => ?_
  exact gathers_spanned fun _ => by simp [List.flatMap_map]

/-! ### Statements in a row -/

section Statements

variable {st : Parser Statement} (hbuilt : Built (fun _ => True) st) (d : Nat)
  (hst : Gathers c [] (fun s => excerpts (Outline.statement d s)) st)

theorem excerpts_fields (fs : List Field) :
    excerpts (Outline.statements d (fs.map .field)) = fs.flatMap (·.initializer.toList) := by
  induction fs with
  | nil => rfl
  | cons f fs ih => simp [Outline.statements, Outline.statement, ih]

theorem excerpts_statements_append (ss ss' : List Statement) :
    excerpts (Outline.statements d (ss ++ ss')) =
      excerpts (Outline.statements d ss) ++ excerpts (Outline.statements d ss') := by
  induction ss with
  | nil => rfl
  | cons s ss ih => simp [Outline.statements, ih]

include hst

theorem gathers_blockStatement :
    Gathers c [] (fun ss => excerpts (Outline.statements d ss)) (blockStatement st) := by
  refine gathers_step built_rest fun _ => gathers_ite ?_ (gathers_ite ?_ (gathers_ite ?_ ?_))
  · exact gathers_step (built_skipType _) fun _ => gathers_pure (.refl _)
  · exact gathers_step built_skipTryWithResources fun _ => gathers_pure (.refl _)
  · refine gathers_step built_here fun _ => gathers_step built_allQualifiers fun _ => ?_
    refine gathers_step built_kind fun _ => gathers_ite ?_ ?_
    · exact gathers_step (built_skipType _) fun _ => gathers_pure (.refl _)
    · exact gathers_bind (gathers_fields _ _) fun fs => gathers_pure (by simp [excerpts_fields])
  · exact gathers_bind hst fun _ => gathers_pure (by simp [Outline.statements])

include hbuilt

theorem gathers_statements (inSwitch : Bool) (cap : Nat) :
    Gathers c [] (fun ss => excerpts (Outline.statements d ss)) (statements st inSwitch cap) := by
  induction cap with
  | zero =>
    refine gathers_step built_kind fun _ => gathers_ite (gathers_pure (.refl _)) (gathers_read fun _ => ?_)
    refine gathers_step built_here fun _ => gathers_bind (gathers_report _) fun _ => ?_
    exact gathers_step (built_skipBy _) fun _ => gathers_pure (.refl _)
  | succ cap ih =>
    refine gathers_step built_kind fun _ => gathers_ite (gathers_pure (.refl _)) ?_
    refine gathers_step (built_accept _) fun _ => gathers_ite ih ?_
    refine gathers_bind (gathers_recover (gathers_blockStatement d hst) (built_blockStatement hbuilt) ?_)
      fun ss => ?_
    · exact gathers_step (built_skipBy _) fun _ => gathers_pure (.refl _)
    · exact gathers_bind (ih.behind _) fun _ => gathers_pure (by simp [excerpts_statements_append])

theorem gathers_allStatements (inSwitch : Bool) :
    Gathers c [] (fun ss => excerpts (Outline.statements d ss)) (allStatements st inSwitch) :=
  gathers_read fun _ => gathers_statements hbuilt d hst inSwitch _

theorem gathers_braced : Gathers c [] (fun b => excerpts (Outline.block d b)) (braced st) := by
  refine gathers_step built_here fun _ => gathers_step (built_require _ _) fun _ => ?_
  refine gathers_bind (gathers_allStatements hbuilt d hst false) fun _ => gathers_close ?_
  exact gathers_spanned fun _ => .refl _

end Statements

theorem gathers_caseLabels (d n : Nat) :
    Gathers c [] (fun ls => excerpts (ls.flatMap (Outline.label d))) (caseLabels n) := by
  induction n with
  | zero => exact gathers_pure (.refl _)
  | succ n ih =>
    refine gathers_step (built_check _) fun _ => gathers_step (built_check _) fun _ => ?_
    refine gathers_ite (gathers_step (built_accept _) fun _ => ?_) (gathers_pure (.refl _))
    simp only [← bind_assoc]
    refine gathers_join (F := fun l => excerpts (Outline.label d l)) (gathers_pure (.refl _)) ?_ fun l => ?_
    · rw [bind_assoc]
      refine gathers_step (built_skip 1) fun _ => ?_
      exact gathers_bind (gathers_excerpt _ _) fun _ => gathers_pure (.refl _)
    refine gathers_step (built_check _) fun _ => gathers_ite (gathers_pure (by simp)) ?_
    rw [bind_assoc]
    refine gathers_step (built_require _ _) fun _ => gathers_bind (ih.behind _) fun _ => ?_
    exact gathers_pure (by simp)

theorem gathers_someCaseLabels (d : Nat) :
    Gathers c [] (fun ls => excerpts (ls.flatMap (Outline.label d))) someCaseLabels := by
  refine gathers_step built_steps fun _ => gathers_bind (gathers_caseLabels d _) fun _ => ?_
  exact gathers_ite (gathers_fail _) (gathers_pure (.refl _))

/-- The readers for one level further in gather what they find. -/
structure DeeperGathers (c : Settings) (deeper : Deeper) : Prop where
  built : DeeperBuilt (fun _ => True) deeper
  statement : ∀ d, Gathers c [] (fun s => excerpts (Outline.statement d s)) deeper.statement
  block : ∀ d, Gathers c [] (fun b => excerpts (Outline.block d b)) deeper.block
  caseBody : ∀ d, Gathers c [] (fun ss => excerpts (Outline.statements d ss)) deeper.caseBody

/-! ### Single statements -/

section Deeper

variable (d : Nat) (start : Location)

theorem gathers_emptyBlock :
    Gathers c [] (fun s => excerpts (Outline.statement d s)) (emptyBlock start) :=
  gathers_spanned fun _ => .refl _

theorem gathers_returnStatement :
    Gathers c [] (fun s => excerpts (Outline.statement d s)) (returnStatement start) := by
  refine gathers_step (built_skip 1) fun _ => gathers_step (built_check _) fun _ => ?_
  simp only [← bind_assoc]
  refine gathers_join (gathers_pure (.refl _)) (gathers_someExcerpt _ _) fun e => ?_
  simp only [bind_assoc]
  refine gathers_step (built_require _ _) fun _ => gathers_spanned fun _ => ?_
  simp [Outline.statement]

theorem gathers_throwStatement :
    Gathers c [] (fun s => excerpts (Outline.statement d s)) (throwStatement start) := by
  refine gathers_step (built_skip 1) fun _ => gathers_bind (gathers_excerpt _ _) fun _ => ?_
  exact gathers_step (built_require _ _) fun _ => gathers_spanned fun _ => .refl _

theorem gathers_jumpStatement {make : Option String → Span → Statement}
    (hmake : ∀ label span, excerpts (Outline.statement d (make label span)) = []) :
    Gathers c [] (fun s => excerpts (Outline.statement d s)) (jumpStatement make start) := by
  refine gathers_step (built_skip 1) fun _ => gathers_step (built_check _) fun _ => ?_
  simp only [← bind_assoc]
  refine gathers_join (F := fun _ => []) ?_ (gathers_pure (.refl _)) fun _ => ?_
  · exact gathers_step built_identifier fun _ => gathers_pure (.refl _)
  simp only [bind_assoc]
  refine gathers_step (built_require _ _) fun _ => gathers_spanned fun _ => ?_
  rw [hmake]

theorem gathers_assertStatement :
    Gathers c [] (fun s => excerpts (Outline.statement d s)) (assertStatement start) := by
  refine gathers_step (built_skip 1) fun _ => gathers_bind (gathers_excerpt _ _) fun condition => ?_
  refine gathers_step (built_accept _) fun _ => ?_
  simp only [← bind_assoc]
  refine gathers_join ((gathers_someExcerpt _ _).behind _) (gathers_pure (.refl _)) fun message => ?_
  simp only [bind_assoc]
  refine gathers_step (built_require _ _) fun _ => gathers_spanned fun _ => ?_
  simp [Outline.statement]

theorem gathers_plainStatement :
    Gathers c [] (fun s => excerpts (Outline.statement d s)) (plainStatement start) := by
  refine gathers_read fun _ => gathers_step built_rest fun _ => gathers_ite ?_ ?_
  · refine gathers_step built_typeUse fun _ => gathers_bind gathers_declarators fun _ => ?_
    exact gathers_spanned fun _ => by simp [Outline.statement]
  · refine gathers_bind (gathers_excerpt _ _) fun _ => gathers_step (built_require _ _) fun _ => ?_
    exact gathers_spanned fun _ => .refl _

variable {deeper : Deeper} (hd : DeeperGathers c deeper)

include hd

theorem gathers_catchClauses (n : Nat) :
    Gathers c [] (fun cs => excerpts (Outline.catchClauses d cs)) (catchClauses deeper n) := by
  induction n with
  | zero => exact gathers_pure (.refl _)
  | succ n ih =>
    refine gathers_step built_here fun _ => gathers_step (built_accept _) fun _ => ?_
    refine gathers_ite ?_ (gathers_pure (.refl _))
    refine gathers_bind (gathers_parenthesized _) fun parameter => ?_
    refine gathers_bind ((hd.block d).behind _) fun body => gathers_step (built_spanFrom _) fun _ => ?_
    refine gathers_bind (ih.behind _) fun cs => gathers_pure ?_
    simp [Outline.catchClauses, Outline.catchClause]

theorem gathers_ifStatement :
    Gathers c [] (fun s => excerpts (Outline.statement d s)) (ifStatement deeper start) := by
  refine gathers_step (built_skip 1) fun _ => gathers_bind (gathers_parenthesized _) fun condition => ?_
  refine gathers_bind ((hd.statement (d + 1)).behind _) fun thenBranch => ?_
  refine gathers_step (built_accept _) fun _ => ?_
  simp only [← bind_assoc]
  refine gathers_join (F := fun s => [condition] ++ excerpts (Outline.statement (d + 1) thenBranch) ++
    excerpts (Outline.statement? (d + 1) s)) ?_ (gathers_pure (by simp [Outline.statement?])) fun _ => ?_
  · exact gathers_bind ((hd.statement (d + 1)).behind _) fun _ => gathers_pure (.refl _)
  exact gathers_spanned fun _ => by simp [Outline.statement]

theorem gathers_forStatement :
    Gathers c [] (fun s => excerpts (Outline.statement d s)) (forStatement deeper start) := by
  refine gathers_step (built_skip 1) fun _ => gathers_bind (gathers_parenthesized _) fun header => ?_
  refine gathers_bind ((hd.statement (d + 1)).behind _) fun _ => gathers_spanned fun _ => ?_
  simp [Outline.statement]

theorem gathers_whileStatement :
    Gathers c [] (fun s => excerpts (Outline.statement d s)) (whileStatement deeper start) := by
  refine gathers_step (built_skip 1) fun _ => gathers_bind (gathers_parenthesized _) fun condition => ?_
  refine gathers_bind ((hd.statement (d + 1)).behind _) fun _ => gathers_spanned fun _ => ?_
  simp [Outline.statement]

theorem gathers_doStatement :
    Gathers c [] (fun s => excerpts (Outline.statement d s)) (doStatement deeper start) := by
  refine gathers_step (built_skip 1) fun _ => gathers_bind (hd.statement (d + 1)) fun body => ?_
  refine gathers_step (built_require _ _) fun _ => ?_
  refine gathers_bind ((gathers_parenthesized _).behind _) fun condition => ?_
  refine gathers_step (built_require _ _) fun _ => gathers_spanned fun _ => ?_
  simp [Outline.statement]

theorem gathers_tryStatement :
    Gathers c [] (fun s => excerpts (Outline.statement d s)) (tryStatement deeper start) := by
  refine gathers_step (built_skip 1) fun _ => gathers_bind (hd.block (d + 1)) fun body => ?_
  refine gathers_step built_steps fun _ => ?_
  refine gathers_bind ((gathers_catchClauses (d + 1) hd _).behind _) fun catches => ?_
  refine gathers_step (built_accept _) fun _ => ?_
  simp only [← bind_assoc]
  refine gathers_join (F := fun b => excerpts (Outline.block (d + 1) body) ++
    excerpts (Outline.catchClauses (d + 1) catches) ++ excerpts (Outline.block? (d + 1) b)) ?_
    (gathers_pure (by simp [Outline.block?])) fun finallyBlock => ?_
  · exact gathers_bind ((hd.block (d + 1)).behind _) fun _ => gathers_pure (.refl _)
  have hend : Gathers c (excerpts (Outline.block (d + 1) body) ++
        excerpts (Outline.catchClauses (d + 1) catches) ++ excerpts (Outline.block? (d + 1) finallyBlock))
      (fun s => excerpts (Outline.statement d s))
      (do return Statement.try_ body catches finallyBlock (← spanFrom start)) :=
    gathers_spanned fun _ => by simp [Outline.statement]
  refine gathers_ite ?_ hend
  simp only [bind_assoc]
  exact gathers_step (.note _) fun _ => hend

/-- Labels that stop leave no case, and what they have gathered is passed over. -/
theorem gathers_switchCases (n : Nat) :
    Gathers c [] (fun cs => excerpts (Outline.switchCases d cs)) (switchCases deeper n) := by
  induction n with
  | zero => exact gathers_pure (.refl _)
  | succ n ih =>
    refine gathers_step built_kind fun _ => gathers_ite (gathers_pure (.refl _)) ?_
    refine gathers_step built_here fun _ => ?_
    refine gathers_bind (gathers_recover (F := fun found => excerpts
      (found.toList.flatMap fun ls => ls.flatMap (Outline.label d))) ?_ (built_someCaseLabels.map some) ?_)
      fun labels => ?_
    · exact gathers_map (gathers_someCaseLabels d) fun _ => by simp
    · exact gathers_step (built_skipBy _) fun _ => gathers_pure (.refl _)
    rcases labels with _ | labels
    · exact ih
    refine gathers_step (built_check _) fun _ => gathers_ite ?_ ?_
    · refine gathers_step built_here fun _ => gathers_bind (gathers_report _) fun _ => ?_
      exact gathers_step (built_skipBy _) fun _ => gathers_pure (List.nil_sublist _)
    refine gathers_bind (gathers_recover (F := fun found => excerpts (labels.flatMap (Outline.label d)) ++
      excerpts (found.toList.flatMap (Outline.statements d))) ?_ (hd.built.caseBody.map some) ?_)
      fun inner => ?_
    · exact gathers_map ((hd.caseBody d).behind _) fun _ => by simp
    · exact gathers_step (built_skipBy _) fun _ => gathers_pure (by simp)
    rcases inner with _ | inner
    · exact gathers_pure (List.nil_sublist _)
    refine gathers_step (built_spanFrom _) fun _ => gathers_bind (ih.behind _) fun _ => gathers_pure ?_
    simp [Outline.switchCases, Outline.switchCase]

theorem gathers_switchStatement :
    Gathers c [] (fun s => excerpts (Outline.statement d s)) (switchStatement deeper start) := by
  refine gathers_step (built_skip 1) fun _ => gathers_bind (gathers_parenthesized _) fun selector => ?_
  refine gathers_step (built_require _ _) fun _ => gathers_step built_steps fun _ => ?_
  refine gathers_bind ((gathers_switchCases (d + 1) hd _).behind _) fun _ => gathers_close ?_
  exact gathers_spanned fun _ => by simp [Outline.statement]

theorem gathers_synchronizedStatement :
    Gathers c [] (fun s => excerpts (Outline.statement d s)) (synchronizedStatement deeper start) := by
  refine gathers_step (built_skip 1) fun _ => gathers_bind (gathers_parenthesized _) fun lock => ?_
  refine gathers_bind ((hd.block (d + 1)).behind _) fun _ => gathers_spanned fun _ => ?_
  simp [Outline.statement]

theorem gathers_labeledStatement :
    Gathers c [] (fun s => excerpts (Outline.statement d s)) (labeledStatement deeper start) := by
  refine gathers_step built_identifier fun _ => gathers_step (built_skip 1) fun _ => ?_
  refine gathers_bind (hd.statement (d + 1)) fun _ => gathers_spanned fun _ => ?_
  simp [Outline.statement]

theorem gathers_anyStatement :
    Gathers c [] (fun s => excerpts (Outline.statement d s)) (anyStatement deeper) := by
  refine gathers_step built_here fun start => gathers_step built_kind fun k₁ => ?_
  refine gathers_step built_secondKind fun k₂ => ?_
  split
  · exact gathers_bind (hd.block (d + 1)) fun _ => gathers_pure (by simp [Outline.statement])
  · exact gathers_step (built_skip 1) fun _ => gathers_emptyBlock d start
  · exact gathers_returnStatement d start
  · exact gathers_ifStatement d start hd
  · exact gathers_forStatement d start hd
  · exact gathers_whileStatement d start hd
  · exact gathers_doStatement d start hd
  · exact gathers_step built_skipTryWithResources fun _ => gathers_emptyBlock d start
  · exact gathers_tryStatement d start hd
  · exact gathers_switchStatement d start hd
  · exact gathers_throwStatement d start
  · exact gathers_jumpStatement d start fun _ _ => rfl
  · exact gathers_jumpStatement d start fun _ _ => rfl
  · exact gathers_synchronizedStatement d start hd
  · exact gathers_assertStatement d start
  · exact gathers_labeledStatement d start hd
  iterate 3 exact gathers_throw _
  iterate 5 exact gathers_fail _
  exact gathers_plainStatement d start

end Deeper

theorem gathers_tooDeep {F : α → List Excerpt} : Gathers c x F (tooDeep : Parser α) :=
  gathers_read fun _ => gathers_step built_here fun _ => gathers_throw _

theorem deeperGathers (levels : Nat) :
    DeeperGathers c ⟨statement levels, block levels, caseBody levels⟩ := by
  induction levels with
  | zero =>
    exact ⟨deeperBuilt 0, fun _ => gathers_tooDeep, fun _ => gathers_tooDeep, fun _ => gathers_tooDeep⟩
  | succ levels ih =>
    refine ⟨deeperBuilt _, fun d => ?_, fun d => ?_, fun d => ?_⟩
    · simp only [statement]
      exact gathers_anyStatement d ih
    · simp only [block]
      exact gathers_braced ih.built.statement d (ih.statement d)
    · simp only [caseBody]
      exact gathers_allStatements ih.built.statement d (ih.statement d) true

theorem gathers_body (d : Nat) : Gathers c [] (fun b => excerpts (Outline.block d b)) body :=
  gathers_read fun _ => (deeperGathers _).block d

/-! ### Members -/

section Members

variable (d : Nat)

theorem excerpts_members (fs : List Field) :
    excerpts ((fs.map Member.field).flatMap (Outline.member d)) = fs.flatMap (·.initializer.toList) := by
  simp [List.flatMap_map, Outline.member]

theorem gathers_method (start : Location) (q : Qualifiers) (params : Option String) :
    Gathers c [] (fun m => excerpts (Outline.member d (.method m))) (method start q params) := by
  refine gathers_step built_returnType fun _ => gathers_step built_identifier fun _ => ?_
  refine gathers_step built_parameters fun _ => gathers_step (built_typesAfter _) fun _ => ?_
  refine gathers_step (built_check _) fun _ => ?_
  simp only [← bind_assoc]
  refine gathers_join (F := fun b => excerpts (Outline.block? d b)) ?_ ?_ fun inner => ?_
  · exact gathers_bind (gathers_body d) fun _ => gathers_pure (.refl _)
  · exact gathers_step (built_require _ _) fun _ => gathers_pure (.refl _)
  exact gathers_spanned fun _ => by simp [Outline.member, Outline.method]

theorem gathers_constructor (start : Location) (typeName : String) (q : Qualifiers)
    (params : Option String) : Gathers c [] (fun a => excerpts (Outline.member d (.constructor a)))
      (constructor start typeName q params) := by
  refine gathers_step built_here fun _ => gathers_step built_identifier fun name => ?_
  have hend : Gathers c [] (fun a => excerpts (Outline.member d (.constructor a))) (do
      let ps ← parameters
      let throws ← typesAfter .throws_
      let inner ← body
      return ({
        modifiers := q.modifiers
        annotations := q.annotations
        typeParameters := params
        name
        parameters := ps
        throws
        body := inner
        span := ← spanFrom start } : Constructor)) := by
    refine gathers_step built_parameters fun _ => gathers_step (built_typesAfter _) fun _ => ?_
    refine gathers_bind (gathers_body d) fun _ => gathers_spanned fun _ => ?_
    simp [Outline.member, Outline.constructor]
  exact gathers_ite (gathers_step (.note _) fun _ => hend) hend

theorem gathers_plainMember (start : Location) (typeName : String) (q : Qualifiers) :
    Gathers c [] (fun ms => excerpts (ms.flatMap (Outline.member d))) (plainMember start typeName q) := by
  refine gathers_step built_typeParameters fun _ => gathers_step built_rest fun _ => gathers_ite ?_ ?_
  · exact gathers_bind (gathers_constructor d start typeName q _) fun _ => gathers_pure (by simp)
  refine gathers_read fun _ => gathers_ite ?_ (gathers_ite ?_ (gathers_fail _))
  · exact gathers_bind (gathers_method d start q _) fun _ => gathers_pure (by simp)
  · refine gathers_bind (gathers_fields start q) fun fs => gathers_pure ?_
    rw [excerpts_members]

theorem gathers_member (typeName : String) :
    Gathers c [] (fun ms => excerpts (ms.flatMap (Outline.member d))) (member typeName) := by
  refine gathers_step built_here fun start => gathers_step built_allQualifiers fun q => ?_
  refine gathers_step built_rest fun _ => gathers_ite ?_ (gathers_ite ?_ (gathers_ite ?_ ?_))
  · exact gathers_step (built_skipType _) fun _ => gathers_pure (.refl _)
  · exact gathers_step (built_skipType _) fun _ => gathers_pure (.refl _)
  · refine gathers_bind (gathers_body d) fun _ => gathers_spanned fun _ => ?_
    simp [Outline.member]
  · exact gathers_plainMember d start typeName q

theorem gathers_members (typeName : String) (cap : Nat) :
    Gathers c [] (fun ms => excerpts (ms.flatMap (Outline.member d))) (members typeName cap) := by
  induction cap with
  | zero =>
    refine gathers_step built_kind fun _ => gathers_ite (gathers_pure (.refl _)) (gathers_read fun _ => ?_)
    refine gathers_step built_here fun _ => gathers_bind (gathers_report _) fun _ => ?_
    exact gathers_step (built_skipBy _) fun _ => gathers_pure (.refl _)
  | succ cap ih =>
    refine gathers_step built_kind fun _ => gathers_ite (gathers_pure (.refl _)) ?_
    refine gathers_step (built_accept _) fun _ => gathers_ite ih (gathers_step built_steps fun _ => ?_)
    refine gathers_bind (gathers_recover (gathers_member d typeName) (built_member typeName) ?_) fun _ => ?_
    · refine gathers_step built_steps fun _ => gathers_read fun _ => ?_
      exact gathers_step (built_skipBy _) fun _ => gathers_pure (.refl _)
    · exact gathers_bind (ih.behind _) fun _ => gathers_pure (by simp)

theorem gathers_memberSection (typeName : String) :
    Gathers c [] (fun ms => excerpts (ms.flatMap (Outline.member d))) (memberSection typeName) :=
  gathers_read fun _ => gathers_bind (gathers_members d typeName _) fun _ =>
    gathers_close (gathers_pure (.refl _))

/-! ### Types -/

theorem gathers_classRest (start : Location) (q : Qualifiers) :
    Gathers c [] (fun t => excerpts (Outline.typeDeclaration d t)) (classRest start q) := by
  refine gathers_step (built_skip 1) fun _ => gathers_step built_identifier fun name => ?_
  refine gathers_step built_typeParameters fun _ => gathers_step (built_accept _) fun _ => ?_
  simp only [← bind_assoc]
  refine gathers_join (F := fun _ => []) ?_ (gathers_pure (.refl _)) fun _ => ?_
  · exact gathers_step built_typeUse fun _ => gathers_pure (.refl _)
  simp only [bind_assoc]
  refine gathers_step (built_typesAfter _) fun _ => gathers_step (built_require _ _) fun _ => ?_
  refine gathers_bind (gathers_memberSection d name) fun _ => gathers_spanned fun _ => ?_
  simp [Outline.typeDeclaration]

theorem gathers_interfaceRest (start : Location) (q : Qualifiers) :
    Gathers c [] (fun t => excerpts (Outline.typeDeclaration d t)) (interfaceRest start q) := by
  refine gathers_step (built_skip 1) fun _ => gathers_step built_identifier fun name => ?_
  refine gathers_step built_typeParameters fun _ => gathers_step (built_typesAfter _) fun _ => ?_
  refine gathers_step (built_require _ _) fun _ => ?_
  refine gathers_bind (gathers_memberSection d name) fun _ => gathers_spanned fun _ => ?_
  simp [Outline.typeDeclaration]

theorem gathers_enumMembers (typeName : String) :
    Gathers c [] (fun ms => excerpts (ms.flatMap (Outline.member d))) (enumMembers typeName) := by
  refine gathers_step (built_accept _) fun _ => gathers_ite (gathers_memberSection d typeName) ?_
  refine gathers_step (built_accept _) fun _ => gathers_ite ?_ (gathers_pure (.refl _))
  refine gathers_bind (gathers_forward (Keeps.forward fun _ => keeps_unexpected _)) fun _ => ?_
  refine gathers_bind (gathers_report _) fun _ => gathers_read fun _ => ?_
  exact gathers_step (built_skipBy _) fun _ => gathers_step (built_accept _) fun _ => gathers_pure (.refl _)

theorem gathers_enumRest (start : Location) (q : Qualifiers) :
    Gathers c [] (fun t => excerpts (Outline.typeDeclaration d t)) (enumRest start q) := by
  refine gathers_step (built_skip 1) fun _ => gathers_step built_identifier fun name => ?_
  refine gathers_step (built_typesAfter _) fun _ => gathers_step (built_require _ _) fun _ => ?_
  refine gathers_step built_steps fun _ => gathers_step (built_enumConstants _) fun _ => ?_
  refine gathers_bind (gathers_enumMembers d name) fun _ => gathers_spanned fun _ => ?_
  simp [Outline.typeDeclaration]

theorem gathers_typeDeclaration :
    Gathers c [] (fun t => excerpts (t.toList.flatMap (Outline.typeDeclaration d))) typeDeclaration := by
  refine gathers_step built_here fun start => gathers_step built_allQualifiers fun q => ?_
  refine gathers_step built_kind fun _ => gathers_step built_secondKind fun _ => ?_
  split
  · exact gathers_bind (gathers_classRest d start q) fun _ => gathers_pure (by simp)
  · exact gathers_bind (gathers_interfaceRest d start q) fun _ => gathers_pure (by simp)
  · exact gathers_bind (gathers_enumRest d start q) fun _ => gathers_pure (by simp)
  · exact gathers_step (built_skipType _) fun _ => gathers_pure (.refl _)
  · exact gathers_fail _

/-! ### Whole texts -/

theorem gathers_topLevelType :
    Gathers c [] (fun t => excerpts (t.toList.flatMap (Outline.typeDeclaration d))) topLevelType := by
  refine gathers_step built_steps fun _ => ?_
  refine gathers_recover (gathers_typeDeclaration d) built_typeDeclaration ?_
  exact gathers_step built_steps fun _ => gathers_step (built_skipBy _) fun _ => gathers_pure (.refl _)

theorem gathers_types (start : Location) (span : Span) (n : Nat) :
    Gathers c [] (fun o => excerpts (o.found.1.flatMap (Outline.typeDeclaration d))) (types start span n) := by
  induction n generalizing span with
  | zero => exact gathers_pure (.refl _)
  | succ n ih =>
    refine gathers_step (built_check _) fun _ => gathers_ite (gathers_pure (.refl _)) ?_
    refine gathers_step (built_accept _) fun _ => gathers_ite (ih span) ?_
    refine gathers_bind (gathers_attempt (gathers_topLevelType d) built_topLevelType) fun r => ?_
    rcases r with _ | found
    · exact gathers_pure (.refl _)
    refine gathers_step (built_spanFrom start) fun span' => ?_
    exact gathers_bind ((ih span').behind _) fun _ => gathers_pure (by simp)

theorem gathers_imports (n : Nat) : Gathers c x (fun _ => x) (imports n) :=
  gathers_forward (Keeps.forward fun _ => keeps_imports n)

theorem gathers_behindPackage (start : Location) (package : Option PackageClause) :
    Gathers c [] (fun o => excerpts (Outline.unit d o.found)) (behindPackage start package) := by
  have hunit (is : List Import) (span : Span) (ts : List TypeDeclaration) :
      excerpts (Outline.unit d ⟨package, is, ts, span⟩) =
        excerpts (ts.flatMap (Outline.typeDeclaration d)) := by
    have hpackage : excerpts (package.toList.map fun p => ⟨d, .package p⟩) = [] :=
      excerpts_map _ fun _ => rfl
    have himports : excerpts (is.map fun i => ⟨d, .import_ i⟩) = [] := excerpts_map _ fun _ => rfl
    simp [Outline.unit, hpackage, himports]
  refine gathers_step built_steps fun _ => gathers_bind (gathers_imports _) fun is => ?_
  split
  · exact gathers_pure (by simp [hunit])
  · refine gathers_step built_steps fun _ => gathers_bind (gathers_types d _ _ _) fun _ => ?_
    exact gathers_pure (by simp [hunit])

theorem gathers_unit : Gathers c [] (fun o => excerpts (Outline.unit d o.found)) unit := by
  rw [unit_eq]
  refine gathers_step built_here fun start => ?_
  refine gathers_bind (gathers_attempt (F := fun _ => []) (gathers_forward built_optionalPackage.forward)
    built_optionalPackage) fun r => ?_
  rcases r with _ | package
  · exact gathers_pure (.refl _)
  · exact gathers_behindPackage d start package

end Members

end Parser

/-! ### The walk through a source text -/

namespace CompilationUnit

variable (source : String) (options : ParseOptions)

/-- The excerpts that a walk meets are a part of the tokens of the text, in their order. -/
theorem sublist_of_walk (d : Nat) :
    (Excerpt.allTokens (Outline.excerpts (Outline.unit d (parse source options).unit))).Sublist
      (Parser.Input.ofSource source).tokens := by
  obtain ⟨o, s, hrun, hparse, -⟩ := Parser.Input.parse_settled (.ofSource source) options
  have hunit : (parse source options).unit = o.found := by
    rw [← Parser.ofOutcome_unit o s, ← hparse]
    rfl
  rw [hunit]
  exact (List.sublist_append_left _ _).trans (Parser.gathers_unit d hrun)

/-- No excerpt that a walk meets is empty. -/
theorem tokens_ne_nil_of_walk (d : Nat) {e : Excerpt}
    (he : e ∈ Outline.excerpts (Outline.unit d (parse source options).unit)) : e.tokens ≠ [] := by
  have hheld := (Outline.perm_unit d _).mem_iff.mp he
  obtain ⟨x, hx, hxe⟩ := List.mem_filterMap.mp hheld
  cases x with
  | expression e =>
    cases hxe
    exact (Parser.Input.liesIn_of_mem_captures _ _ options hx).1.written
  | arguments e => cases hxe

/-- A walk through what is read from a source text meets all excerpts but for the arguments of annotations
and of enum constants, each of them once, and in the order of the text: each one ends before the next
one starts. -/
theorem walk_in_order :
    let unit := (parse source options).unit
    let met := Outline.excerpts (Outline.unit 0 unit)
    met.Perm (Capture.expressions unit.captures) ∧
      met.Pairwise fun e f => e.span.last.offset < f.span.first.offset ∧
        ∀ t ∈ e.tokens, ∀ u ∈ f.tokens, t.location.offset + t.lexeme.utf8ByteSize ≤ u.location.offset := by
  intro unit met
  refine ⟨Outline.perm_unit 0 unit, ?_⟩
  have hsublist := sublist_of_walk source options 0
  have hpairs := List.pairwise_flatMap.mp ((Parser.Input.pairwise_offsets source).sublist hsublist)
  refine hpairs.2.imp_of_mem fun {e f} he hf hbefore => ⟨?_, hbefore⟩
  have hne := tokens_ne_nil_of_walk source options 0 he
  have hne' := tokens_ne_nil_of_walk source options 0 hf
  have hlast := e.tokens.getLast_mem hne
  have hwritten : 0 < (e.tokens.getLast hne).lexeme.utf8ByteSize :=
    Nat.pos_of_ne_zero fun h => Parser.Input.lexeme_ne_empty
      (hsublist.subset (List.mem_flatMap.mpr ⟨e, he, hlast⟩)) (String.utf8ByteSize_eq_zero_iff.mp h)
  rw [e.last_span hne, f.first_span hne']
  exact (Nat.lt_add_of_pos_right hwritten).trans_le (hbefore _ hlast _ (f.tokens.head_mem hne'))

end CompilationUnit

end JavaTree
