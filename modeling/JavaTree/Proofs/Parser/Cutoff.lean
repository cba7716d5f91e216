import JavaTree.Proofs.Parser.Budget

/-!
Reading with a smaller budget.

Up to the finding that spends the smaller budget, the two runs are the same. From there on the first
one only passes on that it has stopped, and the second one only adds findings; so it is enough to say
of each reader that the first run is the second one or has stopped for good with some of its findings.
Around the readers, an attempt at an import or at a type turns the stop into the end of the list.

    larger budget     d₁  d₂  d₃  d₄  d₅
    smaller budget    d₁  d₂  d₃  stop
-/

namespace JavaTree.Parser

variable {α β : Type} {c : Settings} {s : State}

/-! ### Readers -/

/-- Settings with another budget. -/
def Settings.withBudget (c : Settings) (b : ErrorBudget) : Settings := { c with budget := b }

/-- The first run is the second one, or it has stopped for good with some of its findings. -/
def CutsOff (small large : EStateM.Result Diagnostic State α) : Prop :=
  small = large ∨ ∃ d s, small = .error d s ∧ d.isRecoverable = false ∧
    s.diagnostics <+: (final large).diagnostics

theorem CutsOff.refl (r : EStateM.Result Diagnostic State α) : CutsOff r r := .inl rfl

section Pairs

variable {small large : ErrorBudget} (hle : small.limit ≤ large.limit)

theorem cutsOff_bind {p : Parser α} {f : α → Parser β} {c c' : Settings}
    (hp : CutsOff (p c s) (p c' s)) (hf : ∀ a s', CutsOff (f a c s') (f a c' s'))
    (hgrows : ∀ a, Grows c' (f a)) : CutsOff ((p >>= f) c s) ((p >>= f) c' s) := by
  rcases hp with heq | ⟨d, s', hstop, hd, hprefix⟩
  · rw [bind_run, bind_run, ← heq]
    cases p c s with
    | ok a s' => exact hf a s'
    | error d s' => exact .refl _
  · refine .inr ⟨d, s', bind_run_error hstop f, hd, hprefix.trans ?_⟩
    rw [bind_run]
    cases p c' s with
    | ok a s'' => exact hgrows a s''
    | error e s'' => exact List.prefix_refl _

theorem cutsOff_report {c c' : Settings} (hle : c.budget.limit ≤ c'.budget.limit) (d : Diagnostic) :
    CutsOff (report d c s) (report d c' s) := by
  rw [report_run, report_run]
  cases hd : d.isRecoverable with
  | false => exact .refl _
  | true =>
    have hmore (ds : List Diagnostic) (h : c.budget.allows ds = true) : c'.budget.allows ds = true :=
      decide_eq_true ((of_decide_eq_true h).trans_le hle)
    rw [if_pos rfl, if_pos rfl]
    by_cases hsmall : c.budget.allows (s.noted d).diagnostics = true
    · rw [if_pos hsmall, if_pos (hmore _ hsmall)]
      exact .refl _
    · rw [if_neg hsmall]
      refine .inr ⟨_, _, rfl, rfl, ?_⟩
      split <;> exact List.prefix_refl _

include hle in
theorem cutsOff_recover {p resume : Parser α}
    (hp : CutsOff (p (c.withBudget small) s) (p (c.withBudget large) s))
    (hresume : ∀ s', CutsOff (resume (c.withBudget small) s') (resume (c.withBudget large) s'))
    (hgrows : Grows (c.withBudget large) resume) :
    CutsOff (recover p resume (c.withBudget small) s) (recover p resume (c.withBudget large) s) := by
  rw [recover_run, recover_run]
  rcases hp with heq | ⟨d, s', hstop, hd, hprefix⟩
  · rw [← heq]
    cases p (c.withBudget small) s with
    | ok a s' => exact .refl _
    | error d s' => exact cutsOff_bind (cutsOff_report hle d) (fun _ => hresume) fun _ => hgrows
  · rw [hstop]
    refine .inr ⟨d, s', bind_run_error (report_of_stops hd) _, hd, hprefix.trans ?_⟩
    cases p (c.withBudget large) s with
    | ok a s'' => exact List.prefix_refl _
    | error e s'' => exact grows_bind (grows_report e) (fun _ => hgrows) s''

include hle in
/-- A run with a smaller budget is the run with a larger one, or stops for good before it ends. -/
theorem Built.cutsOff {p : Parser α} (h : Built (fun _ => True) p) :
    CutsOff (p (c.withBudget small) s) (p (c.withBudget large) s) := by
  induction h generalizing s with
  | pure a => exact .refl _
  | look f hrun hbudget =>
    have hsame (b : ErrorBudget) : f (c.withBudget b) s = f c s := hbudget c b s
    rw [hrun, hrun, hsame, hsame]
    exact .refl _
  | @read _ f hbudget hf ih =>
    rw [bind_run_ok read_run, bind_run_ok read_run]
    have hsame (b : ErrorBudget) : f (c.withBudget b) = f c := hbudget c b
    rw [hsame, hsame]
    exact ih c
  | skip n hrun =>
    rw [hrun, hrun]
    exact .refl _
  | note e => exact .refl _
  | stop f hrun hgoes hplace hbudget =>
    have hsame (b : ErrorBudget) : f (c.withBudget b) s = f c s := hbudget c b s
    rw [hrun, hrun, hsame, hsame]
    exact .refl _
  | report f n hrun hgoes hplace hbudget =>
    have hsame (b : ErrorBudget) : f (c.withBudget b) s = f c s := hbudget c b s
    rw [hrun, hrun, hsame, hsame]
    exact cutsOff_report hle _
  | bind hp hf ihp ihf => exact cutsOff_bind ihp (fun a s' => ihf a) fun a => (hf a).grows _
  | recover hp hresume ihp ihresume =>
    exact cutsOff_recover hle ihp (fun s' => ihresume) (hresume.grows _)

/-! ### Whole texts -/

/-- Two outcomes: the first one is the second one, or reading has stopped with some of what there is
and of the findings. -/
def Shortened (R : α → α → Prop) (small large : EStateM.Result Diagnostic State (Outcome α)) : Prop :=
  ∃ o s o' s', small = .ok o s ∧ large = .ok o' s' ∧
    (o = o' ∧ s = s' ∨ o.stopped.isSome = true ∧ R o.found o'.found ∧ s.diagnostics <+: s'.diagnostics)

theorem Shortened.refl (R : α → α → Prop) (o : Outcome α) (s : State) : Shortened R (.ok o s) (.ok o s) :=
  ⟨o, s, o, s, rfl, rfl, .inl ⟨rfl, rfl⟩⟩

/-- What is made of what has been found. -/
theorem Shortened.found {R : α → α → Prop} {S : β → β → Prop} {p : Parser (Outcome α)} {c c' : Settings}
    (h : Shortened R (p c s) (p c' s)) {g : α → β} (hg : ∀ x y, R x y → S (g x) (g y)) :
    Shortened S ((p >>= fun o => pure ⟨g o.found, o.stopped⟩) c s)
      ((p >>= fun o => pure ⟨g o.found, o.stopped⟩) c' s) := by
  obtain ⟨o, t, o', t', hrun, hrun', h⟩ := h
  refine ⟨_, t, _, t', bind_run_ok hrun _, bind_run_ok hrun' _, ?_⟩
  rcases h with ⟨rfl, rfl⟩ | ⟨hstopped, hR, hprefix⟩
  · exact .inl ⟨rfl, rfl⟩
  · exact .inr ⟨hstopped, hg _ _ hR, hprefix⟩

theorem final_attempt (p : Parser α) : final (attempt p c s) = final (p c s) := by
  rw [attempt_run]
  cases p c s <;> rfl

theorem grows_attempt {p : Parser α} (h : Grows c p) : Grows c (attempt p) := by
  intro s
  rw [final_attempt]
  exact h s

theorem grows_behindImport {n : Nat} (h : Grows c (imports n)) :
    ∀ r, Grows c (behindImport n r)
  | .error _ => grows_pure _
  | .ok _ => grows_bind h fun _ => grows_pure _

theorem grows_imports (n : Nat) : Grows c (imports n) := by
  induction n with
  | zero => exact grows_pure _
  | succ n ih =>
    intro s
    by_cases himport : kindOf s.rest = .keyword .import_
    · rw [imports_run_import himport]
      exact grows_bind (grows_attempt (built_import.grows c)) (grows_behindImport ih) s
    · rw [imports_run_end himport]
      exact List.prefix_refl _

theorem grows_behindType {start : Location} {n : Nat} (h : ∀ span, Grows c (types start span n)) (span : Span) :
    ∀ r, Grows c (behindType start span n r)
  | .error _ => grows_pure _
  | .ok _ => grows_bind ((built_spanFrom _).grows c) fun _ => grows_bind (h _) fun _ => grows_pure _

theorem grows_types (start : Location) (span : Span) (n : Nat) : Grows c (types start span n) := by
  induction n generalizing span with
  | zero => exact grows_pure _
  | succ n ih =>
    intro s
    by_cases hend : kindOf s.rest = .endOfInput
    · rw [types_run_end n hend]
      exact List.prefix_refl _
    by_cases hsemicolon : kindOf s.rest = .mark .semicolon
    · rw [types_run_semicolon n hsemicolon]
      exact ih span (s.skip 1)
    rw [types_run_type n hend hsemicolon]
    exact grows_bind (grows_attempt (built_topLevelType.grows c)) (grows_behindType ih span) s

include hle

theorem InBudget.more (h : InBudget (c.withBudget small) s) : InBudget (c.withBudget large) s := by
  have hroom : small.room ≤ large.room := by
    simp only [ErrorBudget.room]
    omega
  exact ⟨h.goesOn, Nat.lt_of_lt_of_le h.room hroom⟩

/-- What follows an attempt. When the first run has stopped in it, there is nothing more. -/
theorem shortened_attempt {R : β → β → Prop} {p : Parser α} {f : Except Diagnostic α → Parser (Outcome β)}
    {x : β} (hp : Built (fun _ => True) p) (hpersists : ∀ c, Persists c p)
    (hs : InBudget (c.withBudget small) s)
    (herror : ∀ d c s', f (.error d) c s' = .ok ⟨x, some d⟩ s')
    (hx : ∀ d t r t' o s', p (c.withBudget small) s = .error d t →
      attempt p (c.withBudget large) s = .ok r t' → f r (c.withBudget large) t' = .ok o s' → R x o.found)
    (hok : ∀ a s', InBudget (c.withBudget small) s' →
      Shortened R (f (.ok a) (c.withBudget small) s') (f (.ok a) (c.withBudget large) s'))
    (hsettles : ∀ a, Settles (c.withBudget large) (f (.ok a)))
    (hgrows : ∀ r, Grows (c.withBudget large) (f r)) :
    Shortened R ((attempt p >>= f) (c.withBudget small) s) ((attempt p >>= f) (c.withBudget large) s) := by
  rcases hp.cutsOff (c := c) (s := s) hle with heq | ⟨d, s', hstop, -, hprefix⟩
  · have hattempt : attempt p (c.withBudget large) s = attempt p (c.withBudget small) s := by
      rw [attempt_run, attempt_run, heq]
    obtain ⟨a, s', hrun, hs'⟩ | ⟨d, s', hrun, -⟩ := attempt_cases hp (hpersists _) hs
    · rw [bind_run_ok hrun, bind_run_ok (hattempt.trans hrun)]
      exact hok a s' hs'
    · rw [bind_run_ok hrun, bind_run_ok (hattempt.trans hrun), herror, herror]
      exact ⟨_, s', _, s', rfl, rfl, .inl ⟨rfl, rfl⟩⟩
  · have hsmall : attempt p (c.withBudget small) s = .ok (.error d) s' := by rw [attempt_run, hstop]
    rw [bind_run_ok hsmall, herror]
    rw [← final_attempt] at hprefix
    obtain ⟨a, s'', hrun, hs''⟩ | ⟨e, s'', hrun, -⟩ := attempt_cases hp (hpersists _) (hs.more hle)
    · obtain ⟨o, t, ho, -⟩ := hsettles a s'' hs''
      have hmore := hgrows (.ok a) s''
      rw [ho] at hmore
      rw [hrun] at hprefix
      have hR := hx _ _ _ _ _ _ hstop hrun ho
      rw [bind_run_ok hrun, ho]
      exact ⟨_, s', o, t, rfl, rfl, .inr ⟨rfl, hR, hprefix.trans hmore⟩⟩
    · rw [hrun] at hprefix
      have hR := hx _ _ _ _ _ _ hstop hrun (herror e _ s'')
      rw [bind_run_ok hrun, herror]
      exact ⟨_, s', _, s'', rfl, rfl, .inr ⟨rfl, hR, hprefix⟩⟩

theorem shortened_imports (n : Nat) (hs : InBudget (c.withBudget small) s) :
    Shortened (· <+: ·) (imports n (c.withBudget small) s) (imports n (c.withBudget large) s) := by
  induction n generalizing s with
  | zero => exact .refl _ _ s
  | succ n ih =>
    by_cases himport : kindOf s.rest = .keyword .import_
    · rw [imports_run_import himport, imports_run_import himport]
      refine shortened_attempt hle built_import (fun _ => persists_import) hs (fun _ _ _ => rfl)
        (fun _ _ _ _ _ _ _ _ _ => List.nil_prefix) (fun found s' hs' => ?_) (fun found s' hs' => ?_)
        (grows_behindImport (grows_imports n))
      · exact (ih hs').found fun _ _ h => (List.prefix_append_right_inj _).mpr h
      · obtain ⟨o, t, hrun, hsettled⟩ := settles_imports n s' hs'
        exact ⟨_, t, bind_run_ok hrun _, hsettled⟩
    · rw [imports_run_end himport, imports_run_end himport]
      exact .refl _ _ s

theorem shortened_types (start : Location) (span : Span) (n : Nat) (hs : InBudget (c.withBudget small) s) :
    Shortened (fun x y => x.1 <+: y.1) (types start span n (c.withBudget small) s)
      (types start span n (c.withBudget large) s) := by
  induction n generalizing span s with
  | zero => exact .refl _ _ s
  | succ n ih =>
    by_cases hend : kindOf s.rest = .endOfInput
    · rw [types_run_end n hend, types_run_end n hend]
      exact .refl _ _ s
    by_cases hsemicolon : kindOf s.rest = .mark .semicolon
    · rw [types_run_semicolon n hsemicolon, types_run_semicolon n hsemicolon]
      exact ih span ⟨hs.goesOn, hs.room⟩
    rw [types_run_type n hend hsemicolon, types_run_type n hend hsemicolon]
    refine shortened_attempt hle built_topLevelType (fun _ => persists_topLevelType) hs (fun _ _ _ => rfl)
      (fun _ _ _ _ _ _ _ _ _ => List.nil_prefix) (fun found s' hs' => ?_) (fun found s' hs' => ?_)
      (grows_behindType (fun span => grows_types start span n) span)
    · rw [behindType_run, behindType_run]
      exact Shortened.found (g := fun x => (found.toList ++ x.1, x.2)) (ih _ hs') fun _ _ h =>
        (List.prefix_append_right_inj _).mpr h
    · rw [behindType_run]
      obtain ⟨o, t, hrun, hsettled⟩ := settles_types start (s'.spanFrom _ start) n s' hs'
      exact ⟨_, t, bind_run_ok hrun _, hsettled⟩

/-- A unit that has as much as another one, up to a place. -/
structure UnitPart (u v : CompilationUnit) : Prop where
  package : u.package = v.package
  imports : u.imports <+: v.imports
  types : u.types <+: v.types

omit hle in
/-- A package clause reports nothing, so the budget plays no part. -/
theorem packageClause_withBudget (b : ErrorBudget) :
    packageClause (c.withBudget b) s = packageClause c s := by
  have hnext (s : State) : s.next (c.withBudget b) = s.next c := rfl
  have hspan (s : State) (l : Location) : s.spanFrom (c.withBudget b) l = s.spanFrom c l := rfl
  simp only [packageClause, qualifiedName, bind_run, here_run, skip_run, identifier_run, rest_run,
    require_run, spanFrom_run, pure_run, hnext, hspan]
  rfl

omit hle in
/-- When reading stops in the package clause, there is none, whatever the budget. -/
theorem package_eq_none {d : Diagnostic} {s' s'' : State} {package : Option PackageClause}
    (hstop : optionalPackage (c.withBudget small) s = .error d s')
    (hrun : optionalPackage (c.withBudget large) s = .ok package s'') : package = none := by
  rw [optionalPackage, bind_run_ok (check_run _), ite_run] at hstop hrun
  split at hstop
  · next hpackage =>
    rw [if_pos hpackage, recover_run] at hrun
    rw [recover_run] at hstop
    have hsame : (some <$> packageClause) (c.withBudget large) s =
        (some <$> packageClause) (c.withBudget small) s := by
      rw [map_run, map_run, packageClause_withBudget, packageClause_withBudget]
    rw [hsame] at hrun
    cases hclause : (some <$> packageClause) (c.withBudget small) s with
    | ok a t =>
      rw [hclause] at hstop
      cases hstop
    | error e t =>
      rw [hclause] at hrun
      obtain ⟨_, _, -, hskip⟩ := bind_eq_ok.mp hrun
      cases hskip
      rfl
  · cases hstop

omit hle in
theorem grows_behindImports (start : Location) (package : Option PackageClause)
    (is : Outcome (List Import)) : Grows c (behindImports start package is) := by
  unfold behindImports
  split
  · exact grows_pure _
  · exact grows_bind (built_steps.grows c) fun _ => grows_bind (grows_types _ _ _) fun _ => grows_pure _

omit hle in
theorem grows_behindPackage (start : Location) (package : Option PackageClause) :
    Grows c (behindPackage start package) := by
  intro s
  rw [behindPackage_run]
  exact grows_bind (grows_imports _) (grows_behindImports start package) s

omit hle in
theorem package_of_behindPackage {start : Location} {package : Option PackageClause}
    {o : Outcome CompilationUnit} {s' : State} (h : behindPackage start package c s = .ok o s') :
    o.found.package = package := by
  rw [behindPackage_run] at h
  obtain ⟨⟨is, stopped⟩, t, -, h⟩ := bind_eq_ok.mp h
  cases stopped with
  | some d =>
    cases h
    rfl
  | none =>
    rw [behindImports_run] at h
    obtain ⟨ts, u, -, h⟩ := bind_eq_ok.mp h
    cases h
    rfl

theorem shortened_behindPackage (start : Location) (package : Option PackageClause)
    (hs : InBudget (c.withBudget small) s) :
    Shortened UnitPart (behindPackage start package (c.withBudget small) s)
      (behindPackage start package (c.withBudget large) s) := by
  have hsettles {b : ErrorBudget} {o : Outcome (List Import)} {s' : State}
      (hs : InBudget (c.withBudget b) s)
      (hrun : imports (s.rest.length + 1) (c.withBudget b) s = .ok o s') :
      SettledBy (c.withBudget b) o.stopped s' := by
    obtain ⟨_, _, hrun', hsettled⟩ := settles_imports (s.rest.length + 1) s hs
    rw [hrun] at hrun'
    cases hrun'
    exact hsettled
  obtain ⟨⟨is, stopped⟩, t, ⟨is', stopped'⟩, t', hrun, hrun', h⟩ :=
    shortened_imports hle (s.rest.length + 1) hs
  have hsettled := hsettles hs hrun
  have hsettled' := hsettles (hs.more hle) hrun'
  rw [behindPackage_run, behindPackage_run, bind_run_ok hrun, bind_run_ok hrun']
  rcases h with ⟨heq, rfl⟩ | ⟨hstopped, hprefix, hmore⟩
  · cases heq
    cases stopped with
    | some d => exact .refl _ _ t
    | none =>
      rw [behindImports_run, behindImports_run]
      exact Shortened.found (S := UnitPart)
        (g := fun x : List TypeDeclaration × Span => (⟨package, is, x.1, x.2⟩ : CompilationUnit))
        (shortened_types hle _ _ _ hsettled) fun _ _ h => ⟨rfl, List.prefix_refl _, h⟩
  · obtain ⟨d, rfl⟩ := Option.isSome_iff_exists.mp hstopped
    cases stopped' with
    | some e => exact ⟨_, t, _, t', rfl, rfl, .inr ⟨rfl, ⟨rfl, hprefix, List.nil_prefix⟩, hmore⟩⟩
    | none =>
      obtain ⟨ts, u, htypes, -⟩ := settles_types start (.single start) (t'.rest.length + 1) t' hsettled'
      have hgrows := grows_types (c := c.withBudget large) start (.single start) (t'.rest.length + 1) t'
      rw [htypes] at hgrows
      rw [behindImports_run]
      exact ⟨_, t, _, u, rfl, bind_run_ok htypes _,
        .inr ⟨rfl, ⟨rfl, hprefix, List.nil_prefix⟩, hmore.trans hgrows⟩⟩

theorem shortened_unit (hs : InBudget (c.withBudget small) s) :
    Shortened UnitPart (unit (c.withBudget small) s) (unit (c.withBudget large) s) := by
  rw [unit_eq, bind_run_ok here_run, bind_run_ok here_run]
  refine shortened_attempt hle built_optionalPackage (fun _ => persists_optionalPackage) hs
    (fun _ _ _ => rfl) (fun d t r t' o s' hstop hrun ho => ?_)
    (fun package s' hs' => shortened_behindPackage hle _ package hs')
    (fun package => settles_behindPackage _ package) fun r => ?_
  · rcases r with e | package
    · cases ho
      exact ⟨rfl, List.prefix_refl _, List.prefix_refl _⟩
    · refine ⟨?_, List.nil_prefix, List.nil_prefix⟩
      rw [package_of_behindPackage ho]
      exact (package_eq_none hstop (eq_ok_of_attempt hrun)).symm
  · rcases r with d | package
    · exact grows_pure _
    · exact grows_behindPackage _ package

end Pairs

namespace Input

/-- The findings of a text that let reading go on are those before the one that stopped it. -/
theorem filter_diagnostics {o : Outcome CompilationUnit} {s : State} (h : SettledBy c o.stopped s) :
    (Parsed.ofOutcome o s).diagnostics.filter Diagnostic.isRecoverable = s.diagnostics := by
  rw [ofOutcome_diagnostics, List.filter_append]
  cases hstopped : o.stopped with
  | none =>
    rw [hstopped] at h
    rw [List.filter_eq_self.mpr h.goesOn]
    exact List.append_nil _
  | some d =>
    rw [hstopped] at h
    rw [List.filter_eq_self.mpr h.goesOn, Option.toList_some, List.filter_cons, h.stops]
    exact List.append_nil _

/-- With a smaller budget, a text is read as with a larger one up to some point. If the findings with
the larger budget are fewer than the smaller one, both are the same. -/
theorem parse_truncates (ts : List Token) (faults : List Fault) (limits : Limits)
    {small large : ErrorBudget} (hle : small.limit ≤ large.limit) :
    let cut := (given ts faults).parse ⟨limits, small⟩
    let full := (given ts faults).parse ⟨limits, large⟩
    let goesOn (p : Parsed) := p.diagnostics.filter Diagnostic.isRecoverable
    goesOn cut <+: goesOn full ∧ cut.unit.package = full.unit.package ∧
      cut.unit.imports <+: full.unit.imports ∧ cut.unit.types <+: full.unit.types ∧
      ((goesOn full).length < small.limit → cut.unit = full.unit ∧ cut.diagnostics = full.diagnostics) := by
  intro cut full goesOn
  obtain ⟨o, s, o', s', hsmall, hlarge, h⟩ := shortened_unit
    (c := (given ts faults).settings ⟨limits, large⟩) (s := (given ts faults).state) hle
    ⟨nofun, Nat.lt_of_lt_of_le Nat.one_pos (le_max_right _ _)⟩
  obtain ⟨_, _, hrun, hcut, hsettled⟩ := parse_settled (given ts faults) ⟨limits, small⟩
  obtain ⟨_, _, hrun', hfull, hsettled'⟩ := parse_settled (given ts faults) ⟨limits, large⟩
  obtain ⟨rfl, rfl⟩ := EStateM.Result.ok.inj (hsmall.symm.trans hrun)
  obtain ⟨rfl, rfl⟩ := EStateM.Result.ok.inj (hlarge.symm.trans hrun')
  have hgoes : goesOn cut = s.diagnostics := (congrArg goesOn hcut).trans (filter_diagnostics hsettled)
  have hgoes' : goesOn full = s'.diagnostics := (congrArg goesOn hfull).trans (filter_diagnostics hsettled')
  rw [hgoes, hgoes']
  rcases h with ⟨rfl, rfl⟩ | ⟨hstopped, ⟨hpackage, himports, htypes⟩, hmore⟩
  · have hsame : cut = full := hcut.trans hfull.symm
    rw [hsame]
    exact ⟨List.prefix_refl _, rfl, List.prefix_refl _, List.prefix_refl _, fun _ => ⟨rfl, rfl⟩⟩
  · have hunit : cut.unit = o.found := (congrArg Parsed.unit hcut).trans (ofOutcome_unit o s)
    have hunit' : full.unit = o'.found := (congrArg Parsed.unit hfull).trans (ofOutcome_unit o' s')
    rw [hunit, hunit']
    refine ⟨hmore, hpackage, himports, htypes, fun hfew => absurd hfew ?_⟩
    -- the smaller budget was spent, so there are too many findings
    obtain ⟨d, hd⟩ := Option.isSome_iff_exists.mp hstopped
    rw [hd] at hsettled
    have hspent : small.limit ≤ s.diagnostics.length := hsettled.full ▸ le_max_left _ _
    exact Nat.not_lt.mpr (hspent.trans hmore.length_le)

/-- `class A { } ) class B { } )`: the first finding is the last one with a budget of one. -/
theorem parse_truncates_secondFault :
    let ts := tokensOf [.keyword .class_, .identifier, .mark .openBrace, .mark .closeBrace,
      .mark .closeParen, .keyword .class_, .identifier, .mark .openBrace, .mark .closeBrace,
      .mark .closeParen]
    let cut := (given ts []).parse ⟨{}, ⟨1⟩⟩
    let full := (given ts []).parse ⟨{}, ⟨3⟩⟩
    cut.unit.types.length = 1 ∧ full.unit.types.length = 2 ∧ cut.unit.types <+: full.unit.types ∧
      cut.diagnostics.filter Diagnostic.isRecoverable <+:
        full.diagnostics.filter Diagnostic.isRecoverable := by
  intro ts
  obtain ⟨hfindings, -, -, htypes, -⟩ := @parse_truncates ts [] {} ⟨1⟩ ⟨3⟩ (by decide)
  dsimp only
  exact ⟨by decide +kernel, by decide +kernel, htypes, hfindings⟩

end Input

end JavaTree.Parser
