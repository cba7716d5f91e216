import JavaTree.Proofs.Parser.Budget

/-!
What is kept of the findings while a text is read.

A finding comes up at the next token, and there is a stretch of reading in which it is known but not
yet recorded: what is left out is passed over first, and a finding that stops a reader is carried to
the recovery that records it. So an invariant about findings has two parts, and each step of a reader
leads from one to the other. `Built` has the steps, so an invariant that is kept by them is kept by
every reader, and by the reading of a whole text.

              skip, note
              ┌──────┐
              ▼      │
             Holds ──┘ ── stop ──▶ Pending
               ▲                     │   │ spent
               └────── record ───────┘   ▼
                                      Pending, for good
-/

namespace JavaTree.Parser

variable {α β : Type} {c : Settings} {s : State} {d : Diagnostic}

/-- Something that is kept while a text is read: of the states in which reading goes on, and of the
states with a finding that is not yet recorded. -/
structure Invariant (c : Settings) where
  /-- While reading goes on. -/
  Holds : State → Prop
  /-- While a finding waits to be recorded. -/
  Pending : Diagnostic → State → Prop
  skip : ∀ {s}, Holds s → ∀ n, Holds (s.skip n)
  note : ∀ {s}, Holds s → ∀ e, Holds { s with journal := s.journal ++ [e] }
  /-- A finding about the next token comes up, and some tokens are passed over. -/
  stop : ∀ {s d}, Holds s → Concerns c.faults (s.next c) d → ∀ n, Pending d (s.skip n)
  record : ∀ {s d}, Pending d s → Holds (s.noted d)
  /-- A finding is recorded and spends the budget. -/
  spent : ∀ {s d}, Pending d s → ∀ count, Pending (.tooManyErrors count d.location) (s.noted d)

namespace Invariant

variable (I : Invariant c)

/-! ### Readers -/

/-- A run that ends with the invariant. -/
def Run : EStateM.Result Diagnostic State α → Prop
  | .ok _ s => I.Holds s
  | .error d s => I.Pending d s

variable {I}

theorem run_report (h : I.Pending d s) : I.Run (report d c s) := by
  rw [report_run]
  split
  · split
    · exact I.record h
    · exact I.spent h _
  · exact h

theorem run_bind {p : Parser α} {f : α → Parser β} (hp : I.Run (p c s))
    (hf : ∀ a s', I.Holds s' → I.Run (f a c s')) : I.Run ((p >>= f) c s) := by
  rw [bind_run]
  cases hrun : p c s with
  | ok a s' =>
    rw [hrun] at hp
    exact hf a s' hp
  | error d s' =>
    rw [hrun] at hp
    exact hp

theorem run_recover {p resume : Parser α} (hp : I.Run (p c s))
    (hresume : ∀ s', I.Holds s' → I.Run (resume c s')) : I.Run (recover p resume c s) := by
  rw [recover_run]
  cases hrun : p c s with
  | ok a s' =>
    rw [hrun] at hp
    exact hp
  | error d s' =>
    rw [hrun] at hp
    exact run_bind (run_report hp) fun _ => hresume

/-- A reader whose findings are about the next token keeps the invariant. -/
theorem run_built {p : Parser α} (h : Built (fun _ => False) p) (hs : I.Holds s) : I.Run (p c s) := by
  induction h generalizing s with
  | pure a => exact hs
  | look f hrun hbudget =>
    rw [hrun]
    exact hs
  | read hbudget hf ih =>
    rw [bind_run_ok read_run]
    exact ih c hs
  | skip n hrun =>
    rw [hrun]
    exact I.skip hs _
  | note e => exact I.note hs e
  | stop f hrun hgoes hplace hbudget =>
    have hstopped := I.stop hs ((hplace c s).resolve_right id) 0
    rw [skip_zero] at hstopped
    rw [hrun]
    exact hstopped
  | report f n hrun hgoes hplace hbudget =>
    rw [hrun]
    exact run_report (I.stop hs ((hplace c s).resolve_right id) (n s))
  | bind hp hf ihp ihf => exact run_bind (ihp hs) fun a s' => ihf a
  | recover hp hresume ihp ihresume => exact run_recover (ihp hs) fun s' => ihresume

/-! ### Whole texts -/

variable (I) in
/-- The invariant at the end of a search, with the finding that has stopped it. -/
def Settled (stopped : Option Diagnostic) (s : State) : Prop :=
  match stopped with
  | none => I.Holds s
  | some d => I.Pending d s

variable (I) in
/-- A run whose outcome is found with the invariant. -/
def Outcome (r : EStateM.Result Diagnostic State (Parser.Outcome α)) : Prop :=
  ∀ o s', r = .ok o s' → I.Settled o.stopped s'

theorem outcome_ok {o : Parser.Outcome α} (h : I.Settled o.stopped s) : I.Outcome (.ok o s) := by
  intro o' s' hrun
  cases hrun
  exact h

/-- What is made of what has been found. -/
theorem outcome_found {p : Parser (Parser.Outcome α)} (h : I.Outcome (p c s)) (g : α → β) :
    I.Outcome ((p >>= fun o => pure ⟨g o.found, o.stopped⟩) c s) := by
  intro o s' hrun
  obtain ⟨o', t, hp, hlast⟩ := bind_eq_ok.mp hrun
  cases hlast
  exact h o' s' hp

theorem outcome_attempt {p : Parser α} {f : Except Diagnostic α → Parser (Parser.Outcome β)} {x : β}
    (hp : Built (fun _ => False) p) (hs : I.Holds s)
    (herror : ∀ d s', f (.error d) c s' = .ok ⟨x, some d⟩ s')
    (hok : ∀ a s', I.Holds s' → I.Outcome (f (.ok a) c s')) : I.Outcome ((attempt p >>= f) c s) := by
  have hkept := run_built hp hs
  cases hrun : p c s with
  | ok a t =>
    rw [hrun] at hkept
    rw [bind_run_ok (by rw [attempt_run, hrun])]
    exact hok a t hkept
  | error d t =>
    rw [hrun] at hkept
    rw [bind_run_ok (by rw [attempt_run, hrun]), herror]
    exact outcome_ok hkept

theorem outcome_imports (n : Nat) (hs : I.Holds s) : I.Outcome (imports n c s) := by
  induction n generalizing s with
  | zero => exact outcome_ok hs
  | succ n ih =>
    by_cases himport : kindOf s.rest = .keyword .import_
    · rw [imports_run_import himport]
      refine outcome_attempt built_import hs (fun _ _ => rfl) fun found t ht => ?_
      exact outcome_found (ih ht) _
    · rw [imports_run_end himport]
      exact outcome_ok hs

theorem outcome_types (start : Location) (span : Span) (n : Nat) (hs : I.Holds s) :
    I.Outcome (types start span n c s) := by
  induction n generalizing span s with
  | zero => exact outcome_ok hs
  | succ n ih =>
    by_cases hend : kindOf s.rest = .endOfInput
    · rw [types_run_end n hend]
      exact outcome_ok hs
    by_cases hsemicolon : kindOf s.rest = .mark .semicolon
    · rw [types_run_semicolon n hsemicolon]
      exact ih span (I.skip hs 1)
    · rw [types_run_type n hend hsemicolon]
      refine outcome_attempt built_topLevelType hs (fun _ _ => rfl) fun found t ht => ?_
      rw [behindType_run]
      exact outcome_found (ih _ ht) fun x => (found.toList ++ x.1, x.2)

theorem outcome_behindPackage {start : Location} {package : Option PackageClause} (hs : I.Holds s) :
    I.Outcome (behindPackage start package c s) := by
  intro o s' hrun
  rw [behindPackage_run] at hrun
  obtain ⟨⟨is, stopped⟩, t, hread, hrun⟩ := bind_eq_ok.mp hrun
  have ht := outcome_imports _ hs _ t hread
  cases stopped with
  | some d =>
    rw [behindImports_stopped] at hrun
    cases hrun
    exact ht
  | none =>
    rw [behindImports_run] at hrun
    exact outcome_found (outcome_types _ _ _ ht) (fun ts => ⟨package, is, ts.1, ts.2⟩) o s' hrun

/-- A whole text is read with the invariant. -/
theorem outcome_unit (hs : I.Holds s) : I.Outcome (unit c s) := by
  rw [unit_eq, bind_run_ok here_run]
  exact outcome_attempt built_optionalPackage hs (fun _ _ => rfl) fun _ _ ht => outcome_behindPackage ht

/-- An invariant that holds at the start holds of what a text gives in the end. -/
theorem settled_parse (input : Input) (options : ParseOptions)
    (I : Invariant (input.settings options)) (hstart : I.Holds input.state) :
    ∃ o s, input.parse options = .ofOutcome o s ∧ I.Settled o.stopped s := by
  obtain ⟨o, s, hrun, hparse, -⟩ := Input.parse_settled input options
  exact ⟨o, s, hparse, outcome_unit hstart o s hrun⟩

end Invariant

end JavaTree.Parser
