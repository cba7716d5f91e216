import JavaTree.Proofs.Parser.Built
import JavaTree.Proofs.Parser.Excerpts

/-!
The budget for findings.

Findings are recorded until the budget is spent. The finding that spends it stops reading, and no
recovery goes on from there: what stops a reader then is passed on by all readers around it, and is
recorded once, behind the others.

    within the budget    d₁  d₂  d₃
    with it spent        d₁  d₂  d₃  d₄  stop
-/

namespace JavaTree

/-- How many findings are recorded before reading stops. The first one always is. -/
def ErrorBudget.room (b : ErrorBudget) : Nat := max b.limit 1

namespace Parser

variable {α β : Type} {c : Settings} {s : State} {d : Diagnostic}

/-! ### Keeping the accounts -/

/-- The findings so far leave room for more, and each of them let reading go on. -/
structure InBudget (c : Settings) (s : State) : Prop where
  goesOn : ∀ d ∈ s.diagnostics, d.isRecoverable = true
  room : s.diagnostics.length < c.budget.room

/-- The findings so far have spent the budget, the last one did, and the given one says so. -/
structure Spent (c : Settings) (d : Diagnostic) (s : State) : Prop where
  goesOn : ∀ d ∈ s.diagnostics, d.isRecoverable = true
  full : s.diagnostics.length = c.budget.room
  cause : ∃ last, s.diagnostics.getLast? = some last ∧
    d = .tooManyErrors c.budget.room last.location

theorem Spent.stops (h : Spent c d s) : d.isRecoverable = false := by
  obtain ⟨last, -, rfl⟩ := h.cause
  rfl

/-- A run that leaves room for more findings, unless it has stopped because there is none. -/
def Accounted (c : Settings) : EStateM.Result Diagnostic State α → Prop
  | .ok _ s => InBudget c s
  | .error d s => (d.isRecoverable = true ∧ InBudget c s) ∨ Spent c d s

theorem accounted_report (hd : d.isRecoverable = true) (h : InBudget c s) :
    Accounted c (report d c s) := by
  have hgoesOn : ∀ e ∈ (s.noted d).diagnostics, e.isRecoverable = true := by
    intro e he
    rcases List.mem_append.mp he with he | he
    · exact h.goesOn e he
    · rw [List.mem_singleton.mp he]
      exact hd
  have hlength : (s.noted d).diagnostics.length = s.diagnostics.length + 1 := by simp
  have hroom := h.room
  rw [report_run, if_pos hd, ErrorBudget.allows]
  rw [ErrorBudget.room] at hroom
  split
  · next hallows =>
    rw [decide_eq_true_eq] at hallows
    exact ⟨hgoesOn, hallows.trans_le (le_max_left _ _)⟩
  · next hallows =>
    rw [decide_eq_true_eq] at hallows
    have hfull : (s.noted d).diagnostics.length = c.budget.room := by
      rw [ErrorBudget.room]
      omega
    exact .inr ⟨hgoesOn, hfull, d, List.getLast?_concat .., by rw [hfull]⟩

/-- A finding that does not let reading go on is passed on. -/
theorem report_of_stops (hd : d.isRecoverable = false) : report d c s = .error d s := by
  rw [report_run, hd]
  rfl

theorem accounted_bind {p : Parser α} {f : α → Parser β} (hp : Accounted c (p c s))
    (hf : ∀ a s', InBudget c s' → Accounted c (f a c s')) : Accounted c ((p >>= f) c s) := by
  rw [bind_run]
  cases hrun : p c s with
  | ok a s' =>
    rw [hrun] at hp
    exact hf a s' hp
  | error d s' =>
    rw [hrun] at hp
    exact hp

theorem accounted_recover {p resume : Parser α} (hp : Accounted c (p c s))
    (hresume : ∀ s', InBudget c s' → Accounted c (resume c s')) :
    Accounted c (recover p resume c s) := by
  rw [recover_run]
  cases hrun : p c s with
  | ok a s' =>
    rw [hrun] at hp
    exact hp
  | error d s' =>
    rw [hrun] at hp
    rcases hp with ⟨hd, hwithin⟩ | hspent
    · exact accounted_bind (accounted_report hd hwithin) fun _ => hresume
    · -- the finding that the budget is spent is passed on
      have hpassed : (report d >>= fun _ => resume) c s' = .error d s' :=
        bind_run_error (report_of_stops hspent.stops) _
      simp only [hpassed]
      exact .inr hspent

theorem Built.accounted {p : Parser α} (h : Built (fun _ => True) p) (hs : InBudget c s) :
    Accounted c (p c s) := by
  induction h generalizing c s with
  | pure a => exact hs
  | look f hrun hbudget =>
    rw [hrun]
    exact hs
  | read hbudget hf ih =>
    rw [bind_run_ok read_run]
    exact ih c hs
  | skip n hrun =>
    rw [hrun]
    exact ⟨hs.goesOn, hs.room⟩
  | note e => exact ⟨hs.goesOn, hs.room⟩
  | stop f hrun hgoes hplace hbudget =>
    rw [hrun]
    exact .inl ⟨hgoes c s, hs⟩
  | report f n hrun hgoes hplace hbudget =>
    rw [hrun]
    exact accounted_report (hgoes c s) ⟨hs.goesOn, hs.room⟩
  | bind hp hf ihp ihf => exact accounted_bind (ihp hs) fun a s' => ihf a
  | recover hp hresume ihp ihresume => exact accounted_recover (ihp hs) fun s' => ihresume

/-! ### Whole texts -/

/-- A reader that stops only with a finding that does not let reading go on. -/
def Persists (c : Settings) (p : Parser α) : Prop :=
  ∀ s d s', p c s = .error d s' → d.isRecoverable = false

theorem persists_recover {p resume : Parser α} (h : ∀ s, ∃ a s', resume c s = .ok a s') :
    Persists c (recover p resume) := by
  intro s e s' hrun
  rw [recover_run] at hrun
  cases hp : p c s with
  | ok a t =>
    rw [hp] at hrun
    cases hrun
  | error d t =>
    simp only [hp, bind_run, report_run] at hrun
    cases hd : d.isRecoverable with
    | false =>
      rw [hd] at hrun
      cases hrun
      exact hd
    | true =>
      obtain ⟨a, u, hresume⟩ := h (t.noted d)
      simp only [hd, if_true] at hrun
      split at hrun
      · next hreport =>
        split at hreport <;> cases hreport
        rw [hresume] at hrun
        cases hrun
      · next hreport =>
        split at hreport <;> cases hreport
        cases hrun
        rfl

theorem persists_optionalPackage : Persists c optionalPackage := by
  intro s d s' hrun
  rw [optionalPackage, bind_run_ok (check_run _), ite_run] at hrun
  split at hrun
  · exact persists_recover (fun _ => ⟨none, _, rfl⟩) _ _ _ hrun
  · cases hrun

theorem persists_import : Persists c (recover (some <$> importClause) skipClause) :=
  persists_recover fun _ => ⟨none, _, rfl⟩

theorem persists_topLevelType : Persists c topLevelType := by
  intro s d s' hrun
  rw [topLevelType, bind_run_ok steps_run] at hrun
  exact persists_recover (fun _ => ⟨none, _, rfl⟩) _ _ _ hrun

/-- What stopped reading was that the budget is spent, or there is room for more findings. -/
def SettledBy (c : Settings) (stopped : Option Diagnostic) (s : State) : Prop :=
  match stopped with
  | none => InBudget c s
  | some d => Spent c d s

/-- A reader that always has an outcome, with the accounts kept. -/
def Settles (c : Settings) (p : Parser (Outcome α)) : Prop :=
  ∀ s, InBudget c s → ∃ o s', p c s = .ok o s' ∧ SettledBy c o.stopped s'

/-- What an attempt of a reader gives. -/
theorem attempt_cases {p : Parser α} (hp : Built (fun _ => True) p) (hpersists : Persists c p)
    (hs : InBudget c s) :
    (∃ a s', attempt p c s = .ok (.ok a) s' ∧ InBudget c s') ∨
      ∃ d s', attempt p c s = .ok (.error d) s' ∧ Spent c d s' := by
  have haccounted := hp.accounted hs
  rw [attempt_run]
  cases hrun : p c s with
  | ok a s' =>
    rw [hrun] at haccounted
    exact .inl ⟨a, s', rfl, haccounted⟩
  | error d s' =>
    rw [hrun] at haccounted
    refine .inr ⟨d, s', rfl, haccounted.resolve_left fun hd => ?_⟩
    exact absurd (hpersists s d s' hrun) (by simp [hd.1])

theorem settles_imports (n : Nat) : Settles c (imports n) := by
  induction n with
  | zero => exact fun s hs => ⟨_, s, rfl, hs⟩
  | succ n ih =>
    intro s hs
    by_cases himport : kindOf s.rest = .keyword .import_
    · rw [imports_run_import himport]
      obtain ⟨found, s', hrun, hs'⟩ | ⟨d, s', hrun, hspent⟩ := attempt_cases built_import persists_import hs
      · obtain ⟨o, s'', hmore, hsettled⟩ := ih s' hs'
        rw [bind_run_ok hrun]
        exact ⟨_, s'', bind_run_ok hmore _, hsettled⟩
      · exact ⟨_, s', bind_run_ok hrun _, hspent⟩
    · exact ⟨_, s, imports_run_end himport n, hs⟩

theorem settles_types (start : Location) (span : Span) (n : Nat) : Settles c (types start span n) := by
  induction n generalizing span with
  | zero => exact fun s hs => ⟨_, s, rfl, hs⟩
  | succ n ih =>
    intro s hs
    by_cases hend : kindOf s.rest = .endOfInput
    · exact ⟨_, s, types_run_end n hend, hs⟩
    by_cases hsemicolon : kindOf s.rest = .mark .semicolon
    · rw [types_run_semicolon n hsemicolon]
      exact ih span _ ⟨hs.goesOn, hs.room⟩
    rw [types_run_type n hend hsemicolon]
    obtain ⟨found, s', hrun, hs'⟩ | ⟨d, s', hrun, hspent⟩ :=
      attempt_cases built_topLevelType persists_topLevelType hs
    · obtain ⟨o, s'', hmore, hsettled⟩ := ih (s'.spanFrom c start) s' hs'
      rw [bind_run_ok hrun, behindType_run]
      exact ⟨_, s'', bind_run_ok hmore _, hsettled⟩
    · exact ⟨_, s', bind_run_ok hrun _, hspent⟩

/-- What follows the package clause of a text. -/
def behindPackage (start : Location) (package : Option PackageClause) :
    Parser (Outcome CompilationUnit) := do
  let is ← imports (← steps)
  match is.stopped with
  | some d => return ⟨⟨package, is.found, [], .single start⟩, some d⟩
  | none =>
    let ts ← types start (.single start) (← steps)
    return { ts with found := ⟨package, is.found, ts.found.1, ts.found.2⟩ }

theorem unit_eq : unit = (do
    let start ← here
    match ← attempt optionalPackage with
    | .error d => return ⟨⟨none, [], [], .single start⟩, some d⟩
    | .ok package => behindPackage start package) := rfl

/-- What follows the imports of a text. -/
def behindImports (start : Location) (package : Option PackageClause) (is : Outcome (List Import)) :
    Parser (Outcome CompilationUnit) :=
  match is.stopped with
  | some d => return ⟨⟨package, is.found, [], .single start⟩, some d⟩
  | none => do
    let ts ← types start (.single start) (← steps)
    return { ts with found := ⟨package, is.found, ts.found.1, ts.found.2⟩ }

theorem behindPackage_run (start : Location) (package : Option PackageClause) :
    behindPackage start package c s =
      (imports (s.rest.length + 1) >>= behindImports start package) c s := by
  rw [behindPackage, bind_run_ok steps_run]
  rfl

theorem behindImports_stopped (start : Location) (package : Option PackageClause) (is : List Import)
    (d : Diagnostic) : behindImports start package ⟨is, some d⟩ c s =
      .ok ⟨⟨package, is, [], .single start⟩, some d⟩ s := rfl

theorem behindImports_run (start : Location) (package : Option PackageClause) (is : List Import) :
    behindImports start package ⟨is, none⟩ c s =
      (types start (.single start) (s.rest.length + 1) >>= fun ts =>
        pure ⟨⟨package, is, ts.found.1, ts.found.2⟩, ts.stopped⟩) c s := by
  simp only [behindImports, bind_run_ok steps_run]

theorem settles_behindPackage (start : Location) (package : Option PackageClause) :
    Settles c (behindPackage start package) := by
  intro s hs
  obtain ⟨⟨is, stopped⟩, s', himports, hs'⟩ := settles_imports (s.rest.length + 1) s hs
  rw [behindPackage_run, bind_run_ok himports]
  cases stopped with
  | some d => exact ⟨_, s', behindImports_stopped .., hs'⟩
  | none =>
    obtain ⟨ts, s'', htypes, hs''⟩ := settles_types start (.single start) (s'.rest.length + 1) s' hs'
    rw [behindImports_run]
    exact ⟨_, s'', bind_run_ok htypes _, hs''⟩

theorem settles_unit : Settles c unit := by
  intro s hs
  rw [unit_eq, bind_run_ok here_run]
  obtain ⟨package, s', hrun, hs'⟩ | ⟨d, s', hrun, hspent⟩ :=
    attempt_cases built_optionalPackage persists_optionalPackage hs
  · rw [bind_run_ok hrun]
    exact settles_behindPackage _ package s' hs'
  · exact ⟨_, s', bind_run_ok hrun _, hspent⟩

theorem ofOutcome_unit (o : Outcome CompilationUnit) (s : State) : (Parsed.ofOutcome o s).unit = o.found := by
  unfold Parsed.ofOutcome
  split <;> rfl

theorem ofOutcome_diagnostics (o : Outcome CompilationUnit) (s : State) :
    (Parsed.ofOutcome o s).diagnostics = s.diagnostics ++ o.stopped.toList := by
  unfold Parsed.ofOutcome
  split
  · next h => rw [h, Option.toList_none, List.append_nil]
  · next h => rw [h, Option.toList_some]

namespace Input

/-- A whole text is always read to an outcome, with the accounts kept. -/
theorem parse_settled (input : Input) (options : ParseOptions) :
    ∃ o s, unit (input.settings options) input.state = .ok o s ∧
      input.parse options = .ofOutcome o s ∧ SettledBy (input.settings options) o.stopped s := by
  have hstart : InBudget (input.settings options) input.state :=
    ⟨nofun, Nat.lt_of_lt_of_le Nat.one_pos (le_max_right _ _)⟩
  obtain ⟨o, s, hrun, hsettled⟩ := settles_unit _ hstart
  exact ⟨o, s, hrun, by simp only [parse_eq, hrun], hsettled⟩

/-- The findings of a text are recorded until the budget is spent: they are fewer than that and let
reading go on, or they are as many, with the finding that they are so many behind the last of them,
at its place. -/
theorem diagnostics_within_budget (ts : List Token) (faults : List Fault) (options : ParseOptions) :
    let found := ((given ts faults).parse options).diagnostics
    let room := max options.budget.limit 1
    ((∀ d ∈ found, d.isRecoverable = true) ∧ found.length < room) ∨
      ∃ front last, found = front ++ [last, .tooManyErrors room last.location] ∧
        front.length + 1 = room ∧ ∀ d ∈ front ++ [last], d.isRecoverable = true := by
  intro found room
  obtain ⟨o, s, -, hparse, hsettled⟩ := parse_settled (given ts faults) options
  have hfound : found = s.diagnostics ++ o.stopped.toList := by
    rw [← ofOutcome_diagnostics, ← hparse]
  cases hstopped : o.stopped with
  | none =>
    rw [hstopped] at hsettled hfound
    rw [Option.toList_none, List.append_nil] at hfound
    exact .inl (hfound ▸ ⟨hsettled.goesOn, hsettled.room⟩)
  | some d =>
    rw [hstopped] at hsettled hfound
    obtain ⟨hgoesOn, hfull, last, hlast, rfl⟩ := hsettled
    obtain ⟨front, hfront⟩ := List.getLast?_eq_some_iff.mp hlast
    rw [hfront] at hgoesOn hfull hfound
    rw [List.length_append] at hfull
    refine .inr ⟨front, last, ?_, hfull, hgoesOn⟩
    rw [hfound, List.append_assoc]
    rfl

end Input

end Parser

end JavaTree
