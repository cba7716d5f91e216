import JavaTree.Proofs.Rows
import JavaTree.Proofs.Parser.Budget

/-!
What the caps bound, and where an `else` belongs.

A statement that is read with some levels left has at most so many levels, as each reader hands one
level less to the readers further in. A row is read in steps, which its cap counts: a step adds one
declaration, or nothing. As one declaration may have several variables, and each of them stands in the
row as a field, the cap bounds the declarations of a row, but not its length.

    cap 3      ;      int a;     int b, c, d;   |   int e;
    steps      1      2          3                  reported and left out
    row               a          b  c  d

An `else` is taken by the first `if` that looks for one. A statement that could still take one was not
followed by one, so where an `if` finds its `else`, no statement before it could have taken it.

    if (a) while (b) if (c) f(); else g();
                     └────────── taken here, as the inner `if` is the first to look
-/

namespace JavaTree.Parser

variable {α β : Type} {c : Settings}

/-! ### Results -/

/-- All results of a reader have a property. -/
def Returns (c : Settings) (Q : α → Prop) (p : Parser α) : Prop := ∀ s a s', p c s = .ok a s' → Q a

theorem returns_pure {Q : α → Prop} {a : α} (h : Q a) : Returns c Q (pure a) := by
  rintro s b s' hrun
  cases hrun
  exact h

theorem returns_fail {Q : α → Prop} (expected : String) : Returns c Q (fail expected) := by
  intro s a s' hrun
  rw [fail_run] at hrun
  cases hrun

theorem returns_throw {Q : α → Prop} (d : Diagnostic) : Returns c Q (throw d) := nofun

theorem returns_bind {P : α → Prop} {Q : β → Prop} {p : Parser α} {f : α → Parser β}
    (hp : Returns c P p) (hf : ∀ a, P a → Returns c Q (f a)) : Returns c Q (p >>= f) := by
  intro s b s' hrun
  obtain ⟨a, t, hfirst, hsecond⟩ := bind_eq_ok.mp hrun
  exact hf a (hp s a t hfirst) t b s' hsecond

theorem returns_any {p : Parser α} : Returns c (fun _ => True) p := fun _ _ _ _ => trivial

/-- A step whose result does not matter. -/
theorem returns_behind {Q : β → Prop} {p : Parser α} {f : α → Parser β}
    (hf : ∀ a, Returns c Q (f a)) : Returns c Q (p >>= f) :=
  returns_bind returns_any fun a _ => hf a

/-- A look at the settings. -/
theorem returns_read {Q : α → Prop} {f : Settings → Parser α} (hf : Returns c Q (f c)) :
    Returns c Q (read >>= f) :=
  fun s a s' hrun => hf s a s' hrun

theorem returns_map {P : α → Prop} {Q : β → Prop} {p : Parser α} {f : α → β} (hp : Returns c P p)
    (hf : ∀ a, P a → Q (f a)) : Returns c Q (f <$> p) := by
  rw [← bind_pure_comp]
  exact returns_bind hp fun a ha => returns_pure (hf a ha)

theorem returns_ite {Q : α → Prop} {b : Prop} [Decidable b] {p q : Parser α} (hp : Returns c Q p)
    (hq : Returns c Q q) : Returns c Q (if b then p else q) := by
  split
  · exact hp
  · exact hq

theorem returns_recover {Q : α → Prop} {p resume : Parser α} (hp : Returns c Q p)
    (hresume : Returns c Q resume) : Returns c Q (recover p resume) := by
  intro s a s' hrun
  rcases recover_eq_ok.mp hrun with hfirst | ⟨d, t, -, hlast⟩
  · exact hp s a s' hfirst
  · exact returns_behind (fun _ => hresume) t a s' hlast

theorem returns_attempt {Q : α → Prop} {p : Parser α} (hp : Returns c Q p) :
    Returns c (fun r => ∀ a, r = .ok a → Q a) (attempt p) := by
  rintro s r s' hrun a rfl
  exact hp s a s' (eq_ok_of_attempt hrun)

/-- A choice between two readers with one continuation. -/
theorem returns_join {P : α → Prop} {Q : β → Prop} {b : Prop} [Decidable b] {p q : Parser α}
    {k : α → Parser β} (hp : Returns c P p) (hq : Returns c P q) (hk : ∀ a, P a → Returns c Q (k a)) :
    Returns c Q (if b then p >>= k else q >>= k) :=
  returns_ite (returns_bind hp hk) (returns_bind hq hk)

/-- The last step of a node, which gives it its span. -/
theorem returns_spanned {Q : α → Prop} (start : Location) {make : Span → α} (h : ∀ span, Q (make span)) :
    Returns c Q (do return make (← spanFrom start)) :=
  returns_behind fun span => returns_pure (h span)

/-- A missing closing brace is reported, and what has been found is kept. -/
theorem returns_close {Q : α → Prop} {expected : String} {k : Parser α} (hk : Returns c Q k) :
    Returns c Q (do
      if !(← accept Mark.closeBrace) then
        report (← unexpected expected)
      k) :=
  returns_behind fun _ => returns_ite (returns_behind fun _ => returns_behind fun _ => hk) hk

/-- All results of a reader have a property, together with the tokens that are left behind them. -/
def Ends (c : Settings) (Q : α → List Token → Prop) (p : Parser α) : Prop :=
  ∀ s a s', p c s = .ok a s' → Q a s'.rest

theorem ends_behind {Q : β → List Token → Prop} {p : Parser α} {f : α → Parser β}
    (hf : ∀ a, Ends c Q (f a)) : Ends c Q (p >>= f) := by
  intro s b s' hrun
  obtain ⟨a, t, -, hsecond⟩ := bind_eq_ok.mp hrun
  exact hf a t b s' hsecond

theorem ends_fail {Q : α → List Token → Prop} (expected : String) : Ends c Q (fail expected) := by
  intro s a s' hrun
  rw [fail_run] at hrun
  cases hrun

theorem ends_throw {Q : α → List Token → Prop} (d : Diagnostic) : Ends c Q (throw d) := nofun

theorem Returns.ends {P : α → Prop} {Q : α → List Token → Prop} {p : Parser α} (hp : Returns c P p)
    (h : ∀ a rest, P a → Q a rest) : Ends c Q p :=
  fun s a s' hrun => h a s'.rest (hp s a s' hrun)

/-! ### Rows of statements -/

variable {levels : Nat}

/-- A statement has at most so many levels, and the cap for its rows holds. -/
abbrev StatementFits (c : Settings) (levels : Nat) (s : Statement) : Prop :=
  s.Fits c.limits.blockStatements levels

/-- The same for a statement that takes no `else`. -/
abbrev ClosedFits (c : Settings) (levels : Nat) (s : Statement) : Prop :=
  StatementFits c levels s ∧ ¬ s.EndsOpen

/-- The same for a statement with the tokens behind it: it has taken the `else` it could take. -/
def StatementEnds (c : Settings) (levels : Nat) (s : Statement) (rest : List Token) : Prop :=
  StatementFits c levels s ∧ (s.EndsOpen → kindOf rest ≠ .keyword .else_)

/-- The same for a row that a block or a case may have. -/
abbrev BlockFits (c : Settings) (levels : Nat) (row : List Statement) : Prop :=
  RowFits c.limits.blockStatements c.limits.blockStatements levels row

/-- The variables of one declaration are fields with one span. -/
theorem returns_fields (start : Location) (q : Qualifiers) :
    Returns c (fun fs => ∃ span, ∀ f ∈ fs, f.span = span) (fields start q) := by
  refine returns_behind fun type => returns_behind fun declared => returns_behind fun span => ?_
  refine returns_pure ⟨span, fun f hf => ?_⟩
  obtain ⟨v, -, rfl⟩ := List.mem_map.mp hf
  rfl

theorem rowFits_fields {cap : Nat} {span : Span} {fs : List Field} (h : ∀ f ∈ fs, f.span = span) :
    RowFits cap 1 (levels + 1) (fs.map .field) := by
  refine ⟨declarations_le_one span fun s hs => ?_, fun s hs => ?_⟩
  · obtain ⟨f, hf, rfl⟩ := List.mem_map.mp hs
    rw [Statement.fieldSpan?, h f hf]
  · obtain ⟨f, -, rfl⟩ := List.mem_map.mp hs
    exact (Statement.fits_leaf rfl rfl).1

section Rows

variable {st : Parser Statement} (hst : Returns c (StatementFits c levels) st)

include hst

/-- One step of a row adds one declaration at most. -/
theorem returns_blockStatement :
    Returns c (RowFits c.limits.blockStatements 1 (levels + 1)) (blockStatement st) := by
  refine returns_behind fun _ => returns_ite ?_ (returns_ite ?_ (returns_ite ?_ ?_))
  · exact returns_behind fun _ => returns_pure rowFits_nil
  · exact returns_behind fun _ => returns_pure rowFits_nil
  · refine returns_behind fun start => returns_behind fun q => returns_behind fun _ => ?_
    refine returns_ite (returns_behind fun _ => returns_pure rowFits_nil) ?_
    exact returns_bind (returns_fields start q) fun fs ⟨_, hfs⟩ => returns_pure (rowFits_fields hfs)
  · exact returns_bind hst fun s hs => returns_pure (rowFits_single hs.succ)

theorem returns_statements (inSwitch : Bool) (cap : Nat) :
    Returns c (RowFits c.limits.blockStatements cap (levels + 1)) (statements st inSwitch cap) := by
  induction cap with
  | zero =>
    refine returns_behind fun _ => returns_ite (returns_pure rowFits_nil) ?_
    refine returns_behind fun _ => returns_behind fun _ => returns_behind fun _ => ?_
    exact returns_behind fun _ => returns_pure rowFits_nil
  | succ cap ih =>
    refine returns_behind fun _ => returns_ite (returns_pure rowFits_nil) ?_
    refine returns_behind fun _ => returns_ite ?_ ?_
    · exact fun s row s' hrun => (ih s row s' hrun).mono (Nat.le_succ cap)
    · refine returns_bind (returns_recover (returns_blockStatement hst) ?_) fun row hrow => ?_
      · exact returns_behind fun _ => returns_pure rowFits_nil
      · refine returns_bind ih fun row' hrow' => returns_pure ?_
        exact (hrow.append hrow').mono (Nat.add_comm 1 cap).le

theorem returns_allStatements (inSwitch : Bool) :
    Returns c (BlockFits c (levels + 1)) (allStatements st inSwitch) :=
  returns_read (returns_statements hst inSwitch _)

theorem returns_braced : Returns c (fun b => BlockFits c (levels + 1) b.statements) (braced st) := by
  refine returns_behind fun start => returns_behind fun _ => ?_
  refine returns_bind (returns_allStatements hst false) fun row hrow => returns_close ?_
  exact returns_spanned start fun _ => hrow

end Rows

/-! ### Statements -/

/-- The readers further in have a number of levels left, and keep to it. -/
structure DeeperReturns (c : Settings) (levels : Nat) (deeper : Deeper) : Prop where
  statement : Ends c (StatementEnds c levels) deeper.statement
  block : Returns c (fun b => BlockFits c levels b.statements) deeper.block
  caseBody : Returns c (BlockFits c levels) deeper.caseBody

theorem DeeperReturns.fits {deeper : Deeper} (hd : DeeperReturns c levels deeper) :
    Returns c (StatementFits c levels) deeper.statement :=
  fun s a s' hrun => (hd.statement s a s' hrun).1

section Deeper

variable {deeper : Deeper} (start : Location)

theorem returns_emptyBlock : Returns c (ClosedFits c (levels + 1)) (emptyBlock start) := by
  refine returns_spanned start fun _ => Statement.fits_of_rows (fun row hrow => ?_) rfl
  rw [List.mem_singleton.mp hrow]
  exact rowFits_nil

theorem returns_returnStatement : Returns c (ClosedFits c (levels + 1)) (returnStatement start) := by
  refine returns_behind fun _ => returns_behind fun _ => ?_
  simp only [← bind_assoc]
  refine returns_join returns_any returns_any fun _ _ => returns_behind fun _ => ?_
  exact returns_pure (Statement.fits_leaf rfl rfl)

theorem returns_throwStatement : Returns c (ClosedFits c (levels + 1)) (throwStatement start) :=
  returns_behind fun _ => returns_behind fun _ => returns_behind fun _ =>
    returns_spanned start fun _ => Statement.fits_leaf rfl rfl

theorem returns_jumpStatement {make : Option String → Span → Statement}
    (hmake : ∀ label span, (make label span).rows = [] ∧ (make label span).branches = []) :
    Returns c (ClosedFits c (levels + 1)) (jumpStatement make start) := by
  refine returns_behind fun _ => returns_behind fun _ => ?_
  simp only [← bind_assoc]
  refine returns_join returns_any returns_any fun label _ => returns_behind fun span => returns_pure ?_
  exact Statement.fits_leaf (hmake label span).1 (hmake label span).2

theorem returns_assertStatement : Returns c (ClosedFits c (levels + 1)) (assertStatement start) := by
  refine returns_behind fun _ => returns_behind fun _ => returns_behind fun _ => ?_
  simp only [← bind_assoc]
  refine returns_join returns_any returns_any fun _ _ => returns_behind fun _ => ?_
  exact returns_pure (Statement.fits_leaf rfl rfl)

theorem returns_plainStatement : Returns c (ClosedFits c (levels + 1)) (plainStatement start) := by
  refine returns_behind fun _ => returns_behind fun _ => returns_ite ?_ ?_
  · exact returns_behind fun _ => returns_behind fun _ =>
      returns_spanned start fun _ => Statement.fits_leaf rfl rfl
  · exact returns_behind fun _ => returns_behind fun _ =>
      returns_spanned start fun _ => Statement.fits_leaf rfl rfl

variable (hd : DeeperReturns c levels deeper)

include hd

/-- An `if` takes the `else` behind its first branch. That branch could not take it: it is followed by
one. -/
theorem ends_ifStatement : Ends c (StatementEnds c (levels + 1)) (ifStatement deeper start) := by
  refine ends_behind fun _ => ends_behind fun condition => ?_
  intro s a s' hrun
  obtain ⟨thenBranch, s₁, hthen, hrun⟩ := bind_eq_ok.mp hrun
  obtain ⟨hfits, hopen⟩ := hd.statement _ _ _ hthen
  rw [bind_run, accept_run] at hrun
  by_cases helse : kindOf s₁.rest = .keyword .else_
  · rw [if_pos helse] at hrun
    obtain ⟨elseBranch, s₂, hrest, hrun⟩ := bind_eq_ok.mp hrun
    obtain ⟨hfits', hopen'⟩ := hd.statement _ _ _ hrest
    rw [pure_bind] at hrun
    obtain ⟨span, s₃, hspan, hrun⟩ := bind_eq_ok.mp hrun
    rw [spanFrom_run] at hspan
    cases hspan
    cases hrun
    refine ⟨.of_rows (fun h => hopen h helse) nofun fun u hu => ?_, ?_⟩
    · rcases List.mem_cons.mp hu with rfl | hu
      · exact hfits
      · exact List.mem_singleton.mp hu ▸ hfits'
    · rintro (_ | h)
      exact hopen' h
  · rw [if_neg helse] at hrun
    rw [pure_bind] at hrun
    obtain ⟨span, s₃, hspan, hrun⟩ := bind_eq_ok.mp hrun
    rw [spanFrom_run] at hspan
    cases hspan
    cases hrun
    refine ⟨.of_rows trivial nofun fun u hu => ?_, fun _ => helse⟩
    exact List.mem_singleton.mp hu ▸ hfits

/-- A statement that ends with its only branch. -/
theorem ends_branch {make : Statement → Span → Statement}
    (hparts : ∀ b span, (make b span).rows = [] ∧ (make b span).branches = [b])
    (hattached : ∀ b span, (make b span).IsAttached)
    (hopen : ∀ b span, (make b span).EndsOpen → b.EndsOpen) :
    Ends c (StatementEnds c (levels + 1)) (do
      let b ← deeper.statement
      return make b (← spanFrom start)) := by
  intro s a s' hrun
  obtain ⟨b, s₁, hbody, hrun⟩ := bind_eq_ok.mp hrun
  obtain ⟨hfits, hopen'⟩ := hd.statement _ _ _ hbody
  rw [bind_run_ok (spanFrom_run start)] at hrun
  cases hrun
  refine ⟨.of_rows (hattached b _) (by simp [hparts]) fun u hu => ?_, fun h => hopen' (hopen b _ h)⟩
  rw [(hparts b _).2] at hu
  exact List.mem_singleton.mp hu ▸ hfits

theorem ends_forStatement : Ends c (StatementEnds c (levels + 1)) (forStatement deeper start) :=
  ends_behind fun _ => ends_behind fun _ =>
    ends_branch start hd (fun _ _ => ⟨rfl, rfl⟩) (fun _ _ => trivial) fun _ _ (.for_ h) => h

theorem ends_whileStatement : Ends c (StatementEnds c (levels + 1)) (whileStatement deeper start) :=
  ends_behind fun _ => ends_behind fun _ =>
    ends_branch start hd (fun _ _ => ⟨rfl, rfl⟩) (fun _ _ => trivial) fun _ _ (.while_ h) => h

theorem ends_labeledStatement :
    Ends c (StatementEnds c (levels + 1)) (labeledStatement deeper start) :=
  ends_behind fun _ => ends_behind fun _ =>
    ends_branch start hd (fun _ _ => ⟨rfl, rfl⟩) (fun _ _ => trivial) fun _ _ (.labeled h) => h

theorem returns_doStatement : Returns c (ClosedFits c (levels + 1)) (doStatement deeper start) := by
  refine returns_behind fun _ => returns_bind hd.fits fun b hb => returns_behind fun _ => ?_
  refine returns_behind fun _ => returns_behind fun _ => returns_spanned start fun _ => ⟨?_, nofun⟩
  exact .of_rows trivial nofun fun u hu => List.mem_singleton.mp hu ▸ hb

theorem returns_synchronizedStatement :
    Returns c (ClosedFits c (levels + 1)) (synchronizedStatement deeper start) := by
  refine returns_behind fun _ => returns_behind fun _ => returns_bind hd.block fun b hb => ?_
  refine returns_spanned start fun _ => Statement.fits_of_rows (fun row hrow => ?_) rfl
  exact List.mem_singleton.mp hrow ▸ hb

theorem returns_catchClauses (n : Nat) :
    Returns c (fun cs => ∀ k ∈ cs, BlockFits c levels k.body.statements) (catchClauses deeper n) := by
  induction n with
  | zero => exact returns_pure nofun
  | succ n ih =>
    refine returns_behind fun _ => returns_behind fun _ => returns_ite ?_ (returns_pure nofun)
    refine returns_behind fun _ => returns_bind hd.block fun b hb => returns_behind fun span => ?_
    refine returns_bind ih fun cs hcs => returns_pure fun k hk => ?_
    rcases List.mem_cons.mp hk with rfl | hk
    · exact hb
    · exact hcs k hk

theorem returns_tryStatement : Returns c (ClosedFits c (levels + 1)) (tryStatement deeper start) := by
  refine returns_behind fun _ => returns_bind hd.block fun b hb => returns_behind fun _ => ?_
  refine returns_bind (returns_catchClauses hd _) fun cs hcs => returns_behind fun _ => ?_
  simp only [← bind_assoc]
  refine returns_join (P := fun last => ∀ b ∈ last, BlockFits c levels b.statements) ?_ ?_
    fun last hlast => ?_
  · refine returns_bind hd.block fun b hb => returns_pure fun k hk => ?_
    exact Option.mem_some_iff.mp hk ▸ hb
  · exact returns_pure nofun
  · have hall (span : Span) : ClosedFits c (levels + 1) (.try_ b cs last span) := by
      refine Statement.fits_of_rows (fun row hrow => ?_) rfl
      simp only [Statement.rows, List.cons_append, List.mem_cons, List.mem_append, List.mem_map,
        Option.mem_toList] at hrow
      rcases hrow with rfl | ⟨k, hk, rfl⟩ | ⟨b, hb, rfl⟩
      · exact hb
      · exact hcs k hk
      · exact hlast b hb
    refine returns_ite (returns_behind fun _ => returns_pure (hall _)) (returns_spanned start hall)

theorem returns_switchCases (n : Nat) :
    Returns c (fun cs => ∀ k ∈ cs, BlockFits c levels k.statements) (switchCases deeper n) := by
  induction n with
  | zero => exact returns_pure nofun
  | succ n ih =>
    refine returns_behind fun _ => returns_ite (returns_pure nofun) (returns_behind fun start => ?_)
    refine returns_behind fun labels => ?_
    rcases labels with _ | labels
    · exact ih
    refine returns_behind fun _ => returns_ite ?_ ?_
    · exact returns_behind fun _ => returns_behind fun _ => returns_behind fun _ => returns_pure nofun
    · refine returns_bind (P := fun found => ∀ row ∈ found, BlockFits c levels row)
        (returns_recover (returns_map hd.caseBody fun row hrow => ?_) ?_) fun inner hinner => ?_
      · exact fun r hr => Option.mem_some_iff.mp hr ▸ hrow
      · exact returns_behind fun _ => returns_pure nofun
      rcases inner with _ | inner
      · exact returns_pure nofun
      refine returns_behind fun span => returns_bind ih fun cs hcs => returns_pure fun k hk => ?_
      rcases List.mem_cons.mp hk with rfl | hk
      · exact hinner inner rfl
      · exact hcs k hk

theorem returns_switchStatement :
    Returns c (ClosedFits c (levels + 1)) (switchStatement deeper start) := by
  refine returns_behind fun _ => returns_behind fun _ => returns_behind fun _ => returns_behind fun _ => ?_
  refine returns_bind (returns_switchCases hd _) fun cs hcs => returns_close ?_
  refine returns_spanned start fun _ => Statement.fits_of_rows (fun row hrow => ?_) rfl
  obtain ⟨k, hk, rfl⟩ := List.mem_map.mp hrow
  exact hcs k hk

omit start in
/-- A statement has one level more than the readers further in have left. -/
theorem ends_anyStatement : Ends c (StatementEnds c (levels + 1)) (anyStatement deeper) := by
  have hclosed {p : Parser Statement} (hp : Returns c (ClosedFits c (levels + 1)) p) :
      Ends c (StatementEnds c (levels + 1)) p :=
    hp.ends fun a rest h => ⟨h.1, fun hopen => absurd hopen h.2⟩
  refine ends_behind fun start => ends_behind fun _ => ends_behind fun _ => ?_
  split
  · refine hclosed (returns_bind hd.block fun b hb => returns_pure ?_)
    exact Statement.fits_of_rows (fun row hrow => List.mem_singleton.mp hrow ▸ hb) rfl
  · exact hclosed (returns_behind fun _ => returns_emptyBlock start)
  · exact hclosed (returns_returnStatement start)
  · exact ends_ifStatement start hd
  · exact ends_forStatement start hd
  · exact ends_whileStatement start hd
  · exact hclosed (returns_doStatement start hd)
  · exact hclosed (returns_behind fun _ => returns_emptyBlock start)
  · exact hclosed (returns_tryStatement start hd)
  · exact hclosed (returns_switchStatement start hd)
  · exact hclosed (returns_throwStatement start)
  · exact hclosed (returns_jumpStatement start fun _ _ => ⟨rfl, rfl⟩)
  · exact hclosed (returns_jumpStatement start fun _ _ => ⟨rfl, rfl⟩)
  · exact hclosed (returns_synchronizedStatement start hd)
  · exact hclosed (returns_assertStatement start)
  · exact ends_labeledStatement start hd
  iterate 3 exact ends_throw _
  iterate 5 exact ends_fail _
  exact hclosed (returns_plainStatement start)

end Deeper

theorem returns_tooDeep {Q : α → Prop} : Returns c Q tooDeep :=
  returns_behind fun _ => returns_behind fun _ => returns_throw _

/-- What is read has no more levels than were left. -/
theorem deeperReturns (levels : Nat) :
    DeeperReturns c levels ⟨statement levels, block levels, caseBody levels⟩ := by
  induction levels with
  | zero =>
    have hnone {γ : Type} : Returns c (fun _ : γ => False) tooDeep := returns_tooDeep
    exact ⟨hnone.ends fun _ _ => False.elim, returns_tooDeep, returns_tooDeep⟩
  | succ levels ih =>
    refine ⟨?_, ?_, ?_⟩
    · simp only [statement]
      exact ends_anyStatement ih
    · simp only [block]
      exact returns_braced ih.fits
    · simp only [caseBody]
      exact returns_allStatements ih.fits true

theorem returns_body : Returns c (fun b => BlockFits c c.limits.nesting b.statements) body :=
  returns_read (deeperReturns _).block

/-! ### Members -/

/-- A member whose body has at most as many levels as the cap allows, and rows within theirs. -/
def MemberFits (c : Settings) (m : Member) : Prop :=
  ∀ b ∈ m.body?, BlockFits c c.limits.nesting b.statements

/-- Members with at most so many declarations. -/
structure MembersFit (c : Settings) (declared : Nat) (ms : List Member) : Prop where
  declared : declarations Member.fieldSpan? ms ≤ declared
  fits : ∀ m ∈ ms, MemberFits c m

theorem membersFit_nil {declared : Nat} : MembersFit c declared [] := ⟨Nat.zero_le _, nofun⟩

theorem membersFit_single {m : Member} (h : MemberFits c m) : MembersFit c 1 [m] :=
  ⟨Nat.le_refl 1, fun _ hm => List.mem_singleton.mp hm ▸ h⟩

theorem membersFit_fields {span : Span} {fs : List Field} (h : ∀ f ∈ fs, f.span = span) :
    MembersFit c 1 (fs.map .field) := by
  refine ⟨declarations_le_one span fun m hm => ?_, fun m hm => ?_⟩
  · obtain ⟨f, hf, rfl⟩ := List.mem_map.mp hm
    rw [Member.fieldSpan?, h f hf]
  · obtain ⟨f, -, rfl⟩ := List.mem_map.mp hm
    nofun

theorem returns_method (start : Location) (q : Qualifiers) (params : Option String) :
    Returns c (fun m => MemberFits c (.method m)) (method start q params) := by
  refine returns_behind fun _ => returns_behind fun _ => returns_behind fun _ => returns_behind fun _ => ?_
  refine returns_behind fun _ => ?_
  simp only [← bind_assoc]
  refine returns_join
    (P := fun (inner : Option Block) => ∀ b ∈ inner, BlockFits c c.limits.nesting b.statements)
    ?_ ?_ fun inner hinner => returns_spanned start fun _ => hinner
  · refine returns_bind returns_body fun b hb => returns_pure fun b' hb' => ?_
    exact Option.mem_some_iff.mp hb' ▸ hb
  · exact returns_behind fun _ => returns_pure nofun

theorem returns_constructor (start : Location) (typeName : String) (q : Qualifiers)
    (params : Option String) :
    Returns c (fun k => MemberFits c (.constructor k)) (constructor start typeName q params) := by
  refine returns_behind fun _ => returns_behind fun _ => returns_ite (returns_behind fun _ => ?_) ?_
  all_goals
    refine returns_behind fun _ => returns_behind fun _ => returns_bind returns_body fun b hb => ?_
    exact returns_spanned start fun _ b' hb' => Option.mem_some_iff.mp hb' ▸ hb

theorem returns_plainMember (start : Location) (typeName : String) (q : Qualifiers) :
    Returns c (MembersFit c 1) (plainMember start typeName q) := by
  refine returns_behind fun params => returns_behind fun _ => returns_ite ?_ ?_
  · exact returns_bind (returns_constructor start typeName q params) fun _ h =>
      returns_pure (membersFit_single h)
  refine returns_behind fun _ => returns_ite ?_ (returns_ite ?_ (returns_fail _))
  · exact returns_bind (returns_method start q params) fun _ h => returns_pure (membersFit_single h)
  · exact returns_bind (returns_fields start q) fun _ ⟨_, h⟩ => returns_pure (membersFit_fields h)

/-- One step of a type body adds one declaration at most. -/
theorem returns_member (typeName : String) : Returns c (MembersFit c 1) (member typeName) := by
  refine returns_behind fun start => returns_behind fun q => returns_behind fun _ => ?_
  refine returns_ite ?_ (returns_ite ?_ (returns_ite ?_ (returns_plainMember start typeName q)))
  · exact returns_behind fun _ => returns_pure membersFit_nil
  · exact returns_behind fun _ => returns_pure membersFit_nil
  · refine returns_bind returns_body fun b hb => returns_spanned start fun _ => membersFit_single ?_
    exact fun b' hb' => Option.mem_some_iff.mp hb' ▸ hb

theorem returns_members (typeName : String) (cap : Nat) :
    Returns c (MembersFit c cap) (members typeName cap) := by
  induction cap with
  | zero =>
    refine returns_behind fun _ => returns_ite (returns_pure membersFit_nil) ?_
    refine returns_behind fun _ => returns_behind fun _ => returns_behind fun _ => ?_
    exact returns_behind fun _ => returns_pure membersFit_nil
  | succ cap ih =>
    refine returns_behind fun _ => returns_ite (returns_pure membersFit_nil) ?_
    refine returns_behind fun _ => returns_ite ?_ (returns_behind fun _ => ?_)
    · exact fun s ms s' hrun => ⟨(ih s ms s' hrun).declared.trans (Nat.le_succ cap), (ih s ms s' hrun).fits⟩
    refine returns_bind (returns_recover (returns_member typeName) ?_) fun ms hms => ?_
    · refine returns_behind fun _ => returns_behind fun _ => ?_
      exact returns_behind fun _ => returns_pure membersFit_nil
    · refine returns_bind ih fun ms' hms' => returns_pure ⟨?_, fun m hm => ?_⟩
      · have hsum := declarations_append_le Member.fieldSpan? ms ms'
        have hleft := hms.declared
        have hright := hms'.declared
        omega
      · rcases List.mem_append.mp hm with hm | hm
        · exact hms.fits m hm
        · exact hms'.fits m hm

theorem returns_memberSection (typeName : String) :
    Returns c (MembersFit c c.limits.typeMembers) (memberSection typeName) :=
  returns_read (returns_bind (returns_members typeName _) fun _ h => returns_close (returns_pure h))

/-! ### Types -/

/-- A type whose members are within their cap. -/
def TypeFits (c : Settings) (t : TypeDeclaration) : Prop := MembersFit c c.limits.typeMembers t.members

section Types

variable (start : Location) (q : Qualifiers)

theorem returns_classRest : Returns c (TypeFits c) (classRest start q) := by
  refine returns_behind fun _ => returns_behind fun name => returns_behind fun _ => returns_behind fun _ => ?_
  simp only [← bind_assoc]
  refine returns_join returns_any returns_any fun _ _ => ?_
  simp only [bind_assoc]
  refine returns_behind fun _ => returns_behind fun _ => ?_
  exact returns_bind (returns_memberSection name) fun _ h => returns_spanned start fun _ => h

theorem returns_interfaceRest : Returns c (TypeFits c) (interfaceRest start q) := by
  refine returns_behind fun _ => returns_behind fun name => returns_behind fun _ => returns_behind fun _ => ?_
  refine returns_behind fun _ => ?_
  exact returns_bind (returns_memberSection name) fun _ h => returns_spanned start fun _ => h

theorem returns_enumMembers (typeName : String) :
    Returns c (MembersFit c c.limits.typeMembers) (enumMembers typeName) := by
  refine returns_behind fun _ => returns_ite (returns_memberSection typeName) ?_
  refine returns_behind fun _ => returns_ite ?_ (returns_pure membersFit_nil)
  refine returns_behind fun _ => returns_behind fun _ => returns_behind fun _ => ?_
  exact returns_behind fun _ => returns_behind fun _ => returns_pure membersFit_nil

theorem returns_enumRest : Returns c (TypeFits c) (enumRest start q) := by
  refine returns_behind fun _ => returns_behind fun name => returns_behind fun _ => returns_behind fun _ => ?_
  refine returns_behind fun _ => returns_behind fun _ => ?_
  exact returns_bind (returns_enumMembers name) fun _ h => returns_spanned start fun _ => h

end Types

theorem returns_typeDeclaration : Returns c (fun o => ∀ t ∈ o, TypeFits c t) typeDeclaration := by
  have hfound {p : Parser TypeDeclaration} (hp : Returns c (TypeFits c) p) :
      Returns c (fun o => ∀ t ∈ o, TypeFits c t) (do return some (← p)) :=
    returns_bind hp fun t ht => returns_pure fun u hu => Option.mem_some_iff.mp hu ▸ ht
  refine returns_behind fun start => returns_behind fun q => returns_behind fun _ => ?_
  refine returns_behind fun _ => ?_
  split
  · exact hfound (returns_classRest start q)
  · exact hfound (returns_interfaceRest start q)
  · exact hfound (returns_enumRest start q)
  · exact returns_behind fun _ => returns_pure nofun
  · exact returns_fail _

theorem returns_topLevelType : Returns c (fun o => ∀ t ∈ o, TypeFits c t) topLevelType := by
  refine returns_behind fun _ => returns_recover returns_typeDeclaration ?_
  exact returns_behind fun _ => returns_behind fun _ => returns_pure nofun

theorem returns_types (start : Location) (span : Span) (n : Nat) :
    Returns c (fun o => ∀ t ∈ o.found.1, TypeFits c t) (types start span n) := by
  induction n generalizing span with
  | zero => exact returns_pure nofun
  | succ n ih =>
    refine returns_behind fun _ => returns_ite (returns_pure nofun) ?_
    refine returns_behind fun _ => returns_ite (ih span) ?_
    refine returns_bind (returns_attempt returns_topLevelType) fun r hr => ?_
    rcases r with d | found
    · exact returns_pure nofun
    · refine returns_behind fun _ => returns_bind (ih _) fun o ho => returns_pure fun t ht => ?_
      rcases List.mem_append.mp ht with ht | ht
      · exact hr found rfl t (Option.mem_toList.mp ht)
      · exact ho t ht

theorem returns_unit : Returns c (fun o => ∀ t ∈ o.found.types, TypeFits c t) unit := by
  refine returns_behind fun start => returns_behind fun r => ?_
  rcases r with d | package
  · exact returns_pure nofun
  refine returns_behind fun _ => returns_behind fun is => ?_
  split
  · exact returns_pure nofun
  · exact returns_behind fun _ => returns_bind (returns_types _ _ _) fun o ho => returns_pure ho

/-! ### Whole texts -/

namespace Input

/-- The types of a text are within the caps. -/
theorem typeFits_parse (input : Input) (options : ParseOptions) :
    ∀ t ∈ (input.parse options).unit.types, TypeFits (input.settings options) t := by
  obtain ⟨o, s, hrun, hparse, -⟩ := parse_settled input options
  rw [hparse, ofOutcome_unit]
  exact returns_unit _ o s hrun

/-- In the body of a member, no chain of statements is longer than the cap for levels. -/
theorem length_le_nesting (input : Input) (options : ParseOptions) {t : TypeDeclaration}
    (ht : t ∈ (input.parse options).unit.types) {m : Member} (hm : m ∈ t.members) {b : Block}
    (hb : b ∈ m.body?) {chain : List Statement} (hin : ∀ s ∈ chain, b.Contains s)
    (hchain : chain.IsChain Statement.Contains) : chain.length ≤ options.limits.nesting :=
  length_le_of_chain ((typeFits_parse input options t ht).fits m hm b hb) hin hchain

/-- Every type body, every block and every case is within its cap, where neighbouring fields with one span
are one declaration. -/
theorem rows_within_caps (ts : List Token) (faults : List Fault) (options : ParseOptions)
    {t : TypeDeclaration} (ht : t ∈ ((given ts faults).parse options).unit.types) :
    WithinCap Member.fieldSpan? options.limits.typeMembers t.members ∧
      ∀ m ∈ t.members, ∀ b ∈ m.body?,
        WithinCap Statement.fieldSpan? options.limits.blockStatements b.statements ∧
          ∀ s, b.Contains s → ∀ row ∈ s.rows,
            WithinCap Statement.fieldSpan? options.limits.blockStatements row := by
  have hfits := typeFits_parse (given ts faults) options t ht
  refine ⟨withinCap_of_declarations hfits.declared, fun m hm b hb => ?_⟩
  have hbody := hfits.fits m hm b hb
  refine ⟨withinCap_of_declarations hbody.declared, fun s hs row hrow => ?_⟩
  exact withinCap_of_declarations (declared_of_contains hbody hs hrow)

/-- Two declarations with a cap of two, of three members. -/
theorem rows_within_caps_twoVariables :
    let ts := (ofSource "class A \x7b int x, y; void f() \x7b \x7d \x7d").tokens
    let limits : Limits := { typeMembers := 2 }
    let options : ParseOptions := { limits := limits }
    ∃ t, ((given ts []).parse options).unit.types = [t] ∧ t.members.length = 3 ∧
      WithinCap Member.fieldSpan? 2 t.members := by
  intro ts limits options
  have hlengths : ((given ts []).parse options).unit.types.map (fun t => t.members.length) = [3] := by
    decide +kernel
  obtain ⟨t, ht, hlength⟩ := List.map_eq_singleton_iff.mp hlengths
  have hmem : t ∈ ((given ts []).parse options).unit.types := ht ▸ List.mem_singleton.mpr rfl
  exact ⟨t, ht, hlength, (rows_within_caps ts [] options hmem).1⟩

/-- Two variables of one declaration are two members where the cap allows one, and two statements, and
nothing is reported. -/
theorem rows_exceed_caps :
    let oneMember : Limits := { typeMembers := 1 }
    let oneStatement : Limits := { blockStatements := 1 }
    let fields := CompilationUnit.parse "class A \x7b int x, y; \x7d" { limits := oneMember }
    let locals := CompilationUnit.parse "class A \x7b \x7b final int x, y; \x7d \x7d"
      { limits := oneStatement }
    (fields.unit.types.map fun t => t.members.length) = [2] ∧ fields.diagnostics = [] ∧
      (locals.unit.types.flatMap fun t => t.members.filterMap fun m =>
        m.body?.map fun b => b.statements.length) = [2] ∧ locals.diagnostics = [] := by
  decide +kernel

end Input

end JavaTree.Parser
