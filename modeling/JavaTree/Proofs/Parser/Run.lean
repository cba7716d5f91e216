import JavaTree.Parser.Parts

/-!
Running a parser from a state.

A parser is a function of the settings and of a state, so a run is an application `p c s`. The
equations here say what a run of each step of the parser does. With them, a run of a longer parser
is followed from step to step, and no later proof looks inside the monad.
-/

namespace JavaTree.Parser

variable {α β : Type} {c : Settings} {s : State}

/-- Standard settings for a text without faults. -/
def plainSettings : Settings := ⟨{}, .standard, [], .start⟩

/-! ### Sequences -/

@[simp] theorem pure_run (a : α) : (pure a : Parser α) c s = .ok a s := rfl

@[simp] theorem throw_run (d : Diagnostic) : (throw d : Parser α) c s = .error d s := rfl

section AnyState

variable {σ : Type} (p : ReaderT Settings (EStateM Diagnostic σ) α) (s : σ)

theorem bind_run (f : α → ReaderT Settings (EStateM Diagnostic σ) β) :
    (p >>= f) c s = match p c s with
      | .ok a s' => f a c s'
      | .error d s' => .error d s' := by
  show EStateM.bind (p c) (fun a => f a c) s = _
  unfold EStateM.bind
  cases p c s <;> rfl

theorem tryCatch_run (f : Diagnostic → ReaderT Settings (EStateM Diagnostic σ) α) :
    tryCatch p f c s = match p c s with
      | .ok a s' => .ok a s'
      | .error d s' => f d c s' := by
  show EStateM.tryCatch (p c) (fun d => f d c) s = _
  unfold EStateM.tryCatch
  cases p c s <;> rfl

end AnyState

/-- A sequence goes on from where its first part ended. -/
theorem bind_run_ok {p : Parser α} {a : α} {s' : State} (h : p c s = .ok a s')
    (f : α → Parser β) : (p >>= f) c s = f a c s' := by
  rw [bind_run, h]

/-- A sequence stops where its first part stopped. -/
theorem bind_run_error {p : Parser α} {d : Diagnostic} {s' : State} (h : p c s = .error d s')
    (f : α → Parser β) : (p >>= f) c s = .error d s' := by
  rw [bind_run, h]

/-- A sequence that has a result passes through a result of its first part. -/
theorem bind_eq_ok {p : Parser α} {f : α → Parser β} {b : β} {s' : State} :
    (p >>= f) c s = .ok b s' ↔ ∃ a t, p c s = .ok a t ∧ f a c t = .ok b s' := by
  rw [bind_run]
  constructor
  · intro h
    split at h
    · exact ⟨_, _, ‹_›, h⟩
    · cases h
  · rintro ⟨a, t, hp, hf⟩
    rw [hp]
    exact hf

theorem map_run (f : α → β) (p : Parser α) :
    (f <$> p) c s = match p c s with
      | .ok a s' => .ok (f a) s'
      | .error d s' => .error d s' := by
  show EStateM.map f (p c) s = _
  unfold EStateM.map
  cases p c s <;> rfl

theorem ite_run (b : Prop) [Decidable b] (p q : Parser α) :
    (if b then p else q) c s = if b then p c s else q c s := by
  split <;> rfl

/-! ### Looking -/

@[simp] theorem read_run : (read : Parser Settings) c s = .ok c s := rfl

@[simp] theorem get_run : (get : Parser State) c s = .ok s s := rfl

@[simp] theorem rest_run : rest c s = .ok s.rest s := rfl

@[simp] theorem steps_run : steps c s = .ok (s.rest.length + 1) s := rfl

@[simp] theorem kind_run : kind c s = .ok (kindOf s.rest) s := rfl

@[simp] theorem secondKind_run : secondKind c s = .ok (kindOf (s.rest.drop 1)) s := rfl

@[simp] theorem check_run (k : Kind) :
    check k c s = .ok (decide (kindOf s.rest = k)) s := rfl

@[simp] theorem atEnd_run : atEnd c s = .ok (decide (kindOf s.rest = .endOfInput)) s := rfl

/-- The next token; after the last one, the end of the input. -/
def State.next (s : State) (c : Settings) : Token := s.rest.headD (.endAt c.stop)

@[simp] theorem peek_run : peek c s = .ok (s.next c) s := by
  rcases s with ⟨_ | ⟨t, ts⟩, l, ds, es⟩ <;> rfl

@[simp] theorem here_run : here c s = .ok (s.next c).location s := by
  rcases s with ⟨_ | ⟨t, ts⟩, l, ds, es⟩ <;> rfl

theorem next_kind : (s.next c).kind = kindOf s.rest := by
  rcases s with ⟨_ | ⟨t, ts⟩, l, ds, es⟩ <;> rfl

/-- The span from a place to the last token passed over. -/
def State.spanFrom (s : State) (c : Settings) (start : Location) : Span :=
  .between start (s.last.getD (s.next c).location)

@[simp] theorem spanFrom_run (start : Location) :
    Parser.spanFrom start c s = .ok (s.spanFrom c start) s := by
  rcases s with ⟨_ | ⟨t, ts⟩, _ | l, ds, es⟩ <;> rfl

theorem eq_primitive {k : Kind} (h : k.isPrimitive = true) : ∃ p, k = .keyword (.primitive p) := by
  revert h
  fun_cases Kind.isPrimitive k with
  | case1 p => exact fun _ => ⟨p, rfl⟩
  | case2 => nofun

/-- A type starts with a name or with a built-in type. -/
theorem isTypeStart_cases {k : Kind} (h : isTypeStart k = true) :
    k = .identifier ∨ ∃ p, k = .keyword (.primitive p) := by
  rw [isTypeStart, Bool.or_eq_true, decide_eq_true_eq] at h
  exact h.imp_right eq_primitive

theorem isTypeWord_cases {k : Kind} (h : isTypeWord k = true) :
    k = .keyword .class_ ∨ k = .keyword .interface_ ∨ k = .keyword .enum_ := by
  revert h
  fun_cases isTypeWord k <;> simp

/-! ### Moving -/

@[simp] theorem modify_run (f : State → State) :
    (modify f : Parser Unit) c s = .ok () (f s) := rfl

@[simp] theorem skip_run (n : Nat) : skip n c s = .ok () (s.skip n) := rfl

@[simp] theorem skipBy_run (rule : List Token → Nat) :
    skipBy rule c s = .ok () (s.skip (rule s.rest)) := rfl

@[simp] theorem skip_rest (n : Nat) : (s.skip n).rest = s.rest.drop n := rfl

@[simp] theorem skip_diagnostics (n : Nat) : (s.skip n).diagnostics = s.diagnostics := rfl

@[simp] theorem skip_journal (n : Nat) : (s.skip n).journal = s.journal := rfl

@[simp] theorem skip_zero : s.skip 0 = s := by
  simp [State.skip]

/-- Tokens passed over one after the other. -/
theorem skip_skip (m n : Nat) : (s.skip m).skip n = s.skip (m + n) := by
  simp only [State.skip, List.drop_drop, List.take_add, List.getLast?_append]
  rcases ((s.rest.drop m).take n).getLast? <;> rfl

theorem accept_run (k : Kind) :
    accept k c s = if kindOf s.rest = k then .ok true (s.skip 1) else .ok false s := by
  simp only [accept, bind_run, check_run, decide_eq_true_eq, ite_run, skip_run, pure_run]

/-! ### Findings -/

@[simp] theorem note_run (e : Event) :
    note e c s = .ok () { s with journal := s.journal ++ [e] } := rfl

theorem isRecoverable_mismatch (faults : List Fault) (expected : String) (t : Token) :
    (mismatch faults expected t).isRecoverable = true := by
  unfold mismatch
  split
  · rfl
  · split <;> rfl
  · rfl

@[simp] theorem unexpected_run (expected : String) :
    unexpected expected c s = .ok (mismatch c.faults expected (s.next c)) s := by
  simp only [unexpected, bind_run, read_run, peek_run, pure_run]

@[simp] theorem fail_run (expected : String) :
    (fail expected : Parser α) c s = .error (mismatch c.faults expected (s.next c)) s := by
  simp only [fail, bind_run, unexpected_run, throw_run]

theorem require_run (k : Kind) (expected : String) :
    require k expected c s = if kindOf s.rest = k then .ok () (s.skip 1)
      else .error (mismatch c.faults expected (s.next c)) s := by
  simp only [require, bind_run, check_run, decide_eq_true_eq, ite_run, skip_run, fail_run]

/-- The state after a finding has been recorded. -/
def State.noted (s : State) (d : Diagnostic) : State :=
  { s with diagnostics := s.diagnostics ++ [d], journal := s.journal ++ [.reported d] }

@[simp] theorem noted_rest (d : Diagnostic) : (s.noted d).rest = s.rest := rfl

@[simp] theorem noted_diagnostics (d : Diagnostic) :
    (s.noted d).diagnostics = s.diagnostics ++ [d] := rfl

theorem report_run (d : Diagnostic) :
    report d c s =
      if d.isRecoverable then
        if c.budget.allows (s.noted d).diagnostics then .ok () (s.noted d)
        else .error (.tooManyErrors (s.noted d).diagnostics.length d.location) (s.noted d)
      else .error d s := by
  unfold report
  rw [ite_run]
  split
  · simp only [bind_run, modify_run, get_run, read_run, ite_run, pure_run, throw_run]
    rfl
  · rfl

theorem recover_run (p resume : Parser α) :
    recover p resume c s = match p c s with
      | .ok a s' => .ok a s'
      | .error d s' => (report d >>= fun _ => resume) c s' := by
  rw [recover, tryCatch_run]
  cases p c s <;> rfl

theorem attempt_run (p : Parser α) :
    attempt p c s = match p c s with
      | .ok a s' => .ok (.ok a) s'
      | .error d s' => .ok (.error d) s' := by
  rw [attempt, tryCatch_run, bind_run]
  cases p c s <;> rfl

/-- A result of a reader that recovers is its own or, behind the finding that stopped it, that of the
reader that resumes. -/
theorem recover_eq_ok {p resume : Parser α} {a : α} {s' : State} :
    recover p resume c s = .ok a s' ↔ p c s = .ok a s' ∨
      ∃ d t, p c s = .error d t ∧ (report d >>= fun _ => resume) c t = .ok a s' := by
  rw [recover_run]
  constructor
  · intro h
    split at h
    · exact .inl (by rw [‹p c s = _›, h])
    · exact .inr ⟨_, _, ‹_›, h⟩
  · rintro (h | ⟨d, t, hstop, h⟩)
    · rw [h]
    · rw [hstop]
      exact h

/-- What an attempt results in. -/
theorem attempt_eq_ok {p : Parser α} {r : Except Diagnostic α} {s' : State} :
    attempt p c s = .ok r s' ↔
      (∃ a, r = .ok a ∧ p c s = .ok a s') ∨ ∃ d, r = .error d ∧ p c s = .error d s' := by
  rw [attempt_run]
  constructor
  · intro h
    split at h <;> cases h
    · exact .inl ⟨_, rfl, ‹_›⟩
    · exact .inr ⟨_, rfl, ‹_›⟩
  · rintro (⟨a, rfl, h⟩ | ⟨d, rfl, h⟩) <;> rw [h]

theorem eq_ok_of_attempt {p : Parser α} {a : α} {s' : State}
    (h : attempt p c s = .ok (.ok a) s') : p c s = .ok a s' := by
  rcases attempt_eq_ok.mp h with ⟨b, hb, hrun⟩ | ⟨d, hd, -⟩
  · cases hb
    exact hrun
  · cases hd

/-! ### Names and brackets -/

theorem identifier_run :
    identifier c s = if kindOf s.rest = .identifier then .ok (s.next c).lexeme (s.skip 1)
      else .error (mismatch c.faults "identifier" (s.next c)) s := by
  simp only [identifier, bind_run, peek_run, ite_run, next_kind, skip_run, pure_run, fail_run]

@[simp] theorem brackets_run :
    brackets c s = .ok (dimensions s.rest) (s.skip (2 * dimensions s.rest)) := by
  simp only [brackets, bind_run, rest_run, skip_run, pure_run]

/-- A capture of type arguments. -/
theorem angleText_run : angleText c s =
    let n := (angleExtent c.limits.excerptTokens 0 s.rest).1
    match (angleExtent c.limits.excerptTokens 0 s.rest).2 with
    | .complete => .ok (typeText none (s.rest.take n)) (s.skip n)
    | .overLong => .error (.limitExceeded "tokens in a generic argument list" c.limits.excerptTokens
        ((s.skip n).next c).location) (s.skip n)
    | _ => .error (mismatch c.faults "'>' to close generic argument list" ((s.skip n).next c))
        (s.skip n) := by
  simp only [angleText, bind_run, read_run, rest_run, skip_run]
  cases (angleExtent c.limits.excerptTokens 0 s.rest).2 <;>
    simp only [bind_run, pure_run, fail_run, here_run, throw_run]

theorem angleText_eq_ok {s' : State} {x : String} (h : angleText c s = .ok x s') :
    ∃ n, angleExtent c.limits.excerptTokens 0 s.rest = (n, .complete) ∧
      x = typeText none (s.rest.take n) ∧ s' = s.skip n := by
  rw [angleText_run] at h
  rcases hx : angleExtent c.limits.excerptTokens 0 s.rest with ⟨n, ending⟩
  rw [hx] at h
  cases ending <;> cases h
  exact ⟨n, rfl, rfl, rfl⟩

end JavaTree.Parser
