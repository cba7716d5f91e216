import JavaTree.Parser.Declaration
import JavaTree.Proofs.Parser.Containment

/-!
Blocks end with the brace that closes them.

The statements of a block are read one after another, and a fault in one of them is reported and left
behind. So a run over all statements is contained, ends before a closing brace, and is stopped only
when the budget for findings is spent. In a brace group, such a place is before the brace of the
group itself, and `Seals` is what a run then does that passes over it.
-/

namespace JavaTree.Parser

open Excerpt

variable {α β : Type} {c : Settings} {s : State}

/-! ### Runs that only a spent budget stops -/

/-- A run that is stopped, if at all, by a finding that lets nothing go on. -/
def Unstopped (r : EStateM.Result Diagnostic State α) : Prop :=
  ∀ d s', r = .error d s' → d.isRecoverable = false

theorem unstopped_ok (a : α) : Unstopped (.ok a s) := nofun

theorem unstopped_bind {p : Parser α} {f : α → Parser β} (hp : Unstopped (p c s))
    (hf : ∀ a s', p c s = .ok a s' → Unstopped (f a c s')) : Unstopped ((p >>= f) c s) := by
  intro d s' h
  rw [bind_run] at h
  split at h
  · next hrun => exact hf _ _ hrun d s' h
  · next hrun =>
    cases h
    exact hp _ _ hrun

theorem unstopped_accept (k : Kind) : Unstopped (accept k c s) := by
  rw [accept_run]
  split <;> exact unstopped_ok _

theorem unstopped_report (d : Diagnostic) : Unstopped (report d c s) := by
  intro e s' h
  rw [report_run] at h
  split at h
  · split at h <;> cases h
    rfl
  · next hd =>
    cases h
    simpa using hd

theorem rest_of_report {d : Diagnostic} {s' : State} (h : report d c s = .ok () s') :
    s'.rest = s.rest := by
  rw [report_run] at h
  split at h
  · split at h <;> cases h
    rfl
  · cases h

theorem unstopped_recover {p resume : Parser α} (hresume : ∀ s', Unstopped (resume c s')) :
    Unstopped (recover p resume c s) := by
  intro d s' h
  rw [recover_run] at h
  split at h
  · cases h
  · exact unstopped_bind (unstopped_report _) (fun _ s'' _ => hresume s'') d s' h

/-- A run over a row of statements, cases or members: it is contained, goes on behind each fault, and
ends where the row does. -/
structure Fills (ends : Kind → Bool) (c : Settings) (s : State)
    (r : EStateM.Result Diagnostic State α) : Prop where
  contained : Contained c s r
  unstopped : Unstopped r
  ended : ∀ a s', r = .ok a s' → ends (kindOf s'.rest) = true

theorem fills_ok {ends : Kind → Bool} (a : α) (h : ends (kindOf s.rest) = true) :
    Fills ends c s (.ok a s) :=
  ⟨contained_ok a, unstopped_ok a, fun _ _ hr => by cases hr; exact h⟩

theorem fills_bind {ends : Kind → Bool} {p : Parser α} {f : α → Parser β}
    (hp : Contained c s (p c s)) (hu : Unstopped (p c s))
    (hf : ∀ a s', p c s = .ok a s' → Fills ends c s' (f a c s')) :
    Fills ends c s ((p >>= f) c s) := by
  refine ⟨contained_bind hp fun a s' h => (hf a s' h).contained,
    unstopped_bind hu fun a s' h => (hf a s' h).unstopped, fun b s'' h => ?_⟩
  obtain ⟨a, s', hrun, h⟩ := bind_eq_ok.mp h
  exact (hf a s' hrun).ended b s'' h

/-- A row of which the last part has been read. -/
theorem Fills.map {ends : Kind → Bool} {p : Parser α} {f : α → β} (h : Fills ends c s (p c s)) :
    Fills ends c s ((p >>= fun a => pure (f a)) c s) := by
  refine ⟨contained_bind h.contained fun _ _ _ => contained_ok _,
    unstopped_bind h.unstopped fun _ _ _ => unstopped_ok _, fun b s' hrun => ?_⟩
  obtain ⟨a, s'', hp, hb⟩ := bind_eq_ok.mp hrun
  cases hb
  exact h.ended a _ hp

theorem blockRest_ends (depth : Nat) (ts : List Token) :
    endsStatements false (kindOf (ts.drop (blockRest depth ts))) = true := by
  fun_induction blockRest depth ts with
  | case1 => rfl
  | case2 t ts hk => simp [kindOf, hk, endsStatements]
  | case3 depth t ts hk hd ih => exact ih
  | case4 depth t ts hk ho ih => exact ih
  | case5 depth t ts hk ho ih => exact ih

theorem endsStatements_false_iff {k : Kind} :
    endsStatements false k = true ↔ k = .endOfInput ∨ k = .mark .closeBrace := by
  unfold endsStatements
  split <;> simp_all

theorem endsStatements_mono {inSwitch : Bool} {k : Kind} (h : endsStatements false k = true) :
    endsStatements inSwitch k = true := by
  rcases endsStatements_false_iff.mp h with rfl | rfl <;> rfl

/-- Passing over all that is left of the block ends the row. -/
theorem fills_blockRest {inSwitch : Bool} (a : α) :
    Fills (endsStatements inSwitch) c s ((do skipBy (blockRest 0); return a : Parser α) c s) := by
  refine fills_bind (contained_skipBy (remains_blockRest _)) (fun _ _ h => by cases h) fun _ s' h => ?_
  rw [skipBy_run] at h
  cases h
  exact fills_ok a (endsStatements_mono (blockRest_ends 0 s.rest))

/-! ### Closing a group -/

/-- A run from a place inside a brace group that passes over the brace that closes the group, unless
one of its findings leads out of it. -/
def Seals (c : Settings) (s : State) (r : EStateM.Result Diagnostic State α) : Prop :=
  (final r).rest <:+ s.rest ∧ ∃ new, (final r).diagnostics = s.diagnostics ++ new ∧
    (Mild c s.rest (new ++ stopping r) → ∀ since around,
      Enclosed since (.closeBrace :: around) s.rest →
        ∃ inner t, s.rest = inner ++ t :: (final r).rest ∧ t.kind = .mark .closeBrace ∧
          openBrackets since inner = some [])

/-- A row, and a run behind it that closes the group. -/
theorem seals_bind {p : Parser α} {f : α → Parser β} (hp : Contained c s (p c s))
    (hu : Unstopped (p c s)) (hf : ∀ a s', p c s = .ok a s' → Seals c s' (f a c s')) :
    Seals c s ((p >>= f) c s) := by
  rw [bind_run]
  cases h : p c s with
  | error d s' =>
    obtain ⟨hsuffix, new, hnew, -⟩ := h ▸ hp
    refine ⟨hsuffix, new, hnew, fun hmild => absurd hmild ?_⟩
    cases d with
    | tooManyErrors n l => exact not_mild_tooManyErrors
    | unexpectedToken | unexpectedEnd | lexical | unsupported | limitExceeded =>
      have := hu _ _ h
      cases this
  | ok a s' =>
    obtain ⟨hsuffix, new, hnew, hstays⟩ := h ▸ hp
    obtain ⟨hsuffix', new', hnew', hseals⟩ := hf a s' h
    refine ⟨hsuffix'.trans hsuffix, new ++ new', ?_, fun hmild since around henc => ?_⟩
    · rw [hnew', ← List.append_assoc]
      exact congrArg (· ++ new') hnew
    · rw [List.append_assoc, mild_append] at hmild
      obtain ⟨pre, hpre, hinside⟩ := hstays (by simpa [stopping] using hmild.1)
      obtain ⟨since', hopen, henc'⟩ := hinside since _ henc
      obtain ⟨inner, t, hs', ht, hinner⟩ := hseals (hmild.2.of_suffix hsuffix) since' around henc'
      refine ⟨pre ++ inner, t, ?_, ht, by rw [openBrackets_append, hopen]; exact hinner⟩
      rw [hpre, List.append_assoc, ← hs']
      rfl

/-- A run that closes a group, and one behind it that neither moves nor stops. -/
theorem Seals.map {p : Parser α} {f : α → Parser β} (h : Seals c s (p c s))
    (hf : ∀ a s', ∃ b, f a c s' = .ok b s') : Seals c s ((p >>= f) c s) := by
  rw [bind_run]
  cases hp : p c s with
  | error d s' =>
    rw [hp] at h
    exact h
  | ok a s' =>
    obtain ⟨b, hb⟩ := hf a s'
    rw [hp] at h
    simp only [hb]
    exact h

/-- Passing over a closing brace closes the group. -/
theorem seals_brace {a : α} (hbrace : kindOf s.rest = .mark .closeBrace) :
    Seals c s (.ok a (s.skip 1)) := by
  refine ⟨List.drop_suffix 1 s.rest, [], by simp [final], fun _ since around henc => ?_⟩
  rcases hs : s.rest with _ | ⟨t, us⟩
  · rw [hs] at hbrace
    cases hbrace
  · rw [hs] at henc hbrace
    rw [henc.eq_nil hbrace]
    exact ⟨[], t, by simp [final, hs], hbrace, rfl⟩

/-- Inside a brace group, a row of statements does not end with the input. -/
theorem Enclosed.eq_closeBrace {since around : List Mark} {ts : List Token}
    (h : Enclosed since (.closeBrace :: around) ts) (hends : endsStatements false (kindOf ts) = true) :
    kindOf ts = .mark .closeBrace := by
  rcases ts with _ | ⟨t, us⟩
  · have hnested := h.nested
    simp [openBrackets] at hnested
  · rcases endsStatements_false_iff.mp hends with hk | hk
    · exact absurd hk (h.proper t List.mem_cons_self)
    · exact hk

/-- The closing brace behind a row, which is reported if it is missing. -/
theorem seals_close {expected : String} {k : Parser α} (hk : ∀ s', ∃ b, k c s' = .ok b s')
    (hends : endsStatements false (kindOf s.rest) = true) :
    Seals c s ((do
      if !(← accept Mark.closeBrace) then
        report (← unexpected expected)
      k : Parser α) c s) := by
  by_cases hbrace : kindOf s.rest = .mark .closeBrace
  · obtain ⟨b, hb⟩ := hk (s.skip 1)
    have hrun : accept Mark.closeBrace c s = .ok true (s.skip 1) := by rw [accept_run, if_pos hbrace]
    rw [bind_run_ok hrun]
    simp only [Bool.not_true, Bool.false_eq_true, if_false, hb]
    exact seals_brace hbrace
  · have hrun : accept Mark.closeBrace c s = .ok false s := by rw [accept_run, if_neg hbrace]
    rw [bind_run_ok hrun]
    simp only [Bool.not_false, if_true, bind_run_ok (unexpected_run _)]
    obtain ⟨hsuffix, new, hnew, -⟩ := contained_bind
      (contained_report (mismatch c.faults expected (s.next c))) fun _ s' _ => by
        obtain ⟨b, hb⟩ := hk s'
        exact (hb ▸ contained_ok b : Contained c s' (k c s'))
    exact ⟨hsuffix, new, hnew, fun _ since around henc => absurd (henc.eq_closeBrace hends) hbrace⟩

/-- A brace group as a whole leaves no bracket open. -/
theorem openBrackets_group {o t : Token} {inner : List Token} (ho : o.kind = .mark .openBrace)
    (ht : t.kind = .mark .closeBrace) (hinner : openBrackets [] inner = some []) :
    openBrackets [] (o :: inner ++ [t]) = some [] := by
  have hweak := openBrackets_weaken hinner [.closeBrace]
  simp only [List.nil_append] at hweak
  simp only [List.cons_append, openBrackets, ho]
  rw [show closersAfter [] (.mark .openBrace) = some [.closeBrace] from rfl, Option.bind_some,
    openBrackets_append, hweak, Option.bind_some, openBrackets, ht]
  rfl

/-- Behind an opening brace, a run that closes its group is contained where the brace stands. -/
theorem Seals.contained {r : EStateM.Result Diagnostic State α}
    (ho : kindOf s.rest = .mark .openBrace) (h : Seals c (s.skip 1) r) : Contained c s r := by
  obtain ⟨hsuffix, new, hnew, hseals⟩ := h
  rcases hs : s.rest with _ | ⟨o, ts⟩
  · rw [hs] at ho
    cases ho
  · rw [skip_rest, hs] at hsuffix hseals
    simp only [List.drop_succ_cons, List.drop_zero] at hsuffix hseals
    have hcons : ts <:+ o :: ts := List.suffix_cons o ts
    refine ⟨by rw [hs]; exact hsuffix.trans hcons, new, by rw [hnew, skip_diagnostics], fun hmild => ?_⟩
    rw [hs] at hmild ho ⊢
    obtain ⟨pre, hpre⟩ := hsuffix.trans hcons
    refine ⟨pre, hpre.symm, fun since around henc => ?_⟩
    obtain ⟨inner, t, hts, ht, hinner⟩ :=
      hseals (hmild.of_suffix hcons) [] (since ++ around) (henc.opened ho)
    have hpre' : pre = o :: inner ++ [t] := by
      refine List.append_cancel_right (hpre.trans ?_)
      rw [hts]
      simp
    have hopen : openBrackets since pre = some since := by
      rw [hpre']
      exact openBrackets_weaken (openBrackets_group ho ht hinner) since
    rw [← hpre] at henc
    exact ⟨since, hopen, henc.after hopen henc.braceless⟩

/-! ### Constructs that are left out -/

theorem contained_group (ho : isOpener (kindOf s.rest) = true) :
    Contained c s (skipBy (group 0) c s) := by
  refine contained_skipBy ?_
  rcases hs : s.rest with _ | ⟨t, ts⟩
  · exact remains_of_braceless (by simp)
  · rw [hs] at ho
    exact (walk_group ho ts).remains

theorem contained_skipGroup {opener : Mark} (ho : isOpener (.mark opener) = true) :
    Contained c s (skipGroup opener c s) := by
  rw [skipGroup, bind_run_ok (check_run _), ite_run]
  split
  · next h => exact contained_group (by rw [of_decide_eq_true h]; exact ho)
  · exact contained_ok ()

theorem contained_skipCatches (n : Nat) : Contained c s (skipCatches n c s) := by
  induction n generalizing s with
  | zero => exact contained_ok ()
  | succ n ih =>
    refine contained_bind (skirts_accept rfl).contained fun _ _ _ => ?_
    rw [ite_run]
    split
    · refine contained_bind (contained_skipGroup rfl) fun _ _ _ => ?_
      exact contained_bind (contained_skipGroup rfl) fun _ _ _ => ih
    · exact contained_ok ()

theorem secondKind_of_startsWith {a b : Kind} {ts : List Token} (h : startsWith a b ts = true) :
    kindOf (ts.drop 1) = b := by
  rcases ts with _ | ⟨t, _ | ⟨u, us⟩⟩
  · cases h
  · cases h
  · simp only [startsWith, Bool.and_eq_true, decide_eq_true_eq] at h
    exact h.2

/-- Leaving out a `try` with resources is contained. -/
theorem contained_skipTryWithResources (htry : kindOf s.rest = .keyword .try_)
    (hparen : kindOf (s.rest.drop 1) = .mark .openParen) :
    Contained c s (skipTryWithResources c s) := by
  rw [skipTryWithResources, bind_run_ok here_run]
  refine contained_bind (skirts_skip_one (by rw [htry]; rfl)).contained fun _ s' hs' => ?_
  cases hs'
  refine contained_bind (contained_group (by rw [skip_rest, hparen]; rfl)) fun _ _ _ => ?_
  refine contained_bind (contained_skipGroup rfl) fun _ _ _ => ?_
  rw [bind_run_ok steps_run]
  refine contained_bind (contained_skipCatches _) fun _ _ _ => ?_
  refine contained_bind (skirts_accept rfl).contained fun _ _ _ => ?_
  rw [ite_run]
  split
  · exact contained_bind (contained_skipGroup rfl) fun _ _ _ => contained_report _
  · exact contained_report _

/-! ### Statements in a row -/

/-- Each reader for one level further in is contained. -/
structure DeeperContained (c : Settings) (deeper : Deeper) : Prop where
  statement : ∀ s, Contained c s (deeper.statement c s)
  block : ∀ s, Contained c s (deeper.block c s)
  caseBody : ∀ s, Contained c s (deeper.caseBody c s)

variable {st : Parser Statement}

theorem contained_blockStatement (hst : ∀ s, Contained c s (st c s)) :
    Contained c s (blockStatement st c s) := by
  rw [blockStatement, bind_run_ok rest_run, ite_run]
  split
  · next h => exact contained_bind (contained_skipType _ (.inl h)) fun _ _ _ => contained_ok []
  · rw [ite_run]
    split
    · next h =>
      exact contained_bind (contained_skipTryWithResources (kindOf_of_startsWith h)
        (secondKind_of_startsWith h)) fun _ _ _ => contained_ok []
    · rw [ite_run]
      split
      · rw [bind_run_ok here_run]
        refine contained_bind contained_allQualifiers fun _ _ _ => ?_
        rw [bind_run_ok kind_run, ite_run]
        split
        · next h => exact contained_bind (contained_skipType _ (.inl h)) fun _ _ _ => contained_ok []
        · exact contained_bind (contained_fields _ _) fun _ _ _ => contained_ok _
      · exact contained_bind (hst s) fun _ _ _ => contained_ok _

/-- A row of statements goes on behind each fault, up to the end of the block or of the case. -/
theorem fills_statements (hst : ∀ s, Contained c s (st c s)) (inSwitch : Bool) (cap : Nat) :
    Fills (endsStatements inSwitch) c s (statements st inSwitch cap c s) := by
  induction cap generalizing s with
  | zero =>
    rw [statements, bind_run_ok kind_run, ite_run]
    split
    · next h => exact fills_ok [] h
    · rw [bind_run_ok read_run, bind_run_ok here_run]
      exact fills_bind (contained_report _) (unstopped_report _) fun _ _ _ => fills_blockRest []
  | succ cap ih =>
    rw [statements, bind_run_ok kind_run, ite_run]
    split
    · next h => exact fills_ok [] h
    · refine fills_bind (skirts_accept rfl).contained (unstopped_accept _) fun _ _ _ => ?_
      rw [ite_run]
      split
      · exact ih
      · refine fills_bind (contained_recover (contained_blockStatement hst) fun s' => ?_)
          (unstopped_recover fun s' => ?_) fun _ _ _ => ih.map
        · exact contained_bind (contained_skipBy (walk_statementRest 0 _).remains) fun _ _ _ =>
            contained_ok []
        · exact unstopped_bind nofun fun _ _ _ => unstopped_ok []

theorem fills_allStatements (hst : ∀ s, Contained c s (st c s)) (inSwitch : Bool) :
    Fills (endsStatements inSwitch) c s (allStatements st inSwitch c s) := by
  rw [allStatements, bind_run_ok read_run]
  exact fills_statements hst inSwitch _

/-- Behind its opening brace, a block is read up to the brace that closes it. -/
theorem seals_braced (hst : ∀ s, Contained c s (st c s)) (ho : kindOf s.rest = .mark .openBrace) :
    Seals c (s.skip 1) (braced st c s) := by
  have hrun : require Mark.openBrace "'\x7b'" c s = .ok () (s.skip 1) := by
    rw [require_run, if_pos ho]
  rw [braced, bind_run_ok here_run, bind_run_ok hrun]
  have hfills : Fills (endsStatements false) c (s.skip 1) (allStatements st false c (s.skip 1)) :=
    fills_allStatements hst false
  refine seals_bind hfills.contained hfills.unstopped fun inner s' h => ?_
  exact seals_close (fun s'' => ⟨_, by rw [bind_run_ok (spanFrom_run _)]; rfl⟩) (hfills.ended _ _ h)

theorem contained_braced (hst : ∀ s, Contained c s (st c s)) : Contained c s (braced st c s) := by
  by_cases ho : kindOf s.rest = .mark .openBrace
  · exact (seals_braced hst ho).contained ho
  · have hrun : require Mark.openBrace "'\x7b'" c s =
        .error (mismatch c.faults "'\x7b'" (s.next c)) s := by rw [require_run, if_neg ho]
    rw [braced, bind_run_ok here_run, bind_run_error hrun]
    exact contained_error _

/-! ### Single statements -/

theorem contained_place (start : Location) : Contained c s (Parser.spanFrom start c s) := by
  rw [spanFrom_run]
  exact contained_ok _

/-- The token that ends a statement, and the span of the statement. -/
theorem contained_requireLast {k : Kind} (hk : isNoBrace k = true) (expected : String)
    (start : Location) (f : Span → α) :
    Contained c s ((do return f (← (do require k expected; Parser.spanFrom start)) : Parser α) c s) := by
  exact contained_bind (contained_bind (skirts_require hk _).contained fun _ _ _ =>
    contained_place start) fun _ _ _ => contained_ok _

section

variable {deeper : Deeper} (start : Location)

theorem contained_returnStatement (hk : isNoBrace (kindOf s.rest) = true) :
    Contained c s (returnStatement start c s) := by
  refine contained_bind (skirts_skip_one hk).contained fun _ _ _ => ?_
  rw [bind_run_ok (check_run _)]
  simp only [← bind_assoc]
  refine contained_join (fun _ => contained_ok none) (fun _ => ?_) fun _ _ => ?_
  · exact contained_bind (contained_excerpt _ _) fun _ _ _ => contained_ok _
  · exact contained_requireLast rfl _ _ _

theorem contained_throwStatement (hk : isNoBrace (kindOf s.rest) = true) :
    Contained c s (throwStatement start c s) := by
  refine contained_bind (skirts_skip_one hk).contained fun _ _ _ => ?_
  refine contained_bind (contained_excerpt _ _) fun _ _ _ => ?_
  exact contained_bind (skirts_require rfl _).contained fun _ _ _ => contained_spanFrom _ _

theorem contained_jumpStatement (make : Option String → Span → Statement)
    (hk : isNoBrace (kindOf s.rest) = true) : Contained c s (jumpStatement make start c s) := by
  refine contained_bind (skirts_skip_one hk).contained fun _ _ _ => ?_
  rw [bind_run_ok (check_run _)]
  simp only [← bind_assoc]
  refine contained_join (fun _ => ?_) (fun _ => contained_ok none) fun _ _ => ?_
  · exact contained_bind skirts_identifier.contained fun _ _ _ => contained_ok _
  · exact contained_requireLast rfl _ _ _

theorem contained_assertStatement (hk : isNoBrace (kindOf s.rest) = true) :
    Contained c s (assertStatement start c s) := by
  refine contained_bind (skirts_skip_one hk).contained fun _ _ _ => ?_
  refine contained_bind (contained_excerpt _ _) fun _ _ _ => ?_
  refine contained_bind (skirts_accept rfl).contained fun _ _ _ => ?_
  simp only [← bind_assoc]
  refine contained_join (fun _ => ?_) (fun _ => contained_ok none) fun _ _ => ?_
  · exact contained_bind (contained_excerpt _ _) fun _ _ _ => contained_ok _
  · exact contained_requireLast rfl _ _ _

theorem contained_plainStatement : Contained c s (plainStatement start c s) := by
  rw [plainStatement, bind_run_ok read_run, bind_run_ok rest_run, ite_run]
  split
  · refine contained_bind skirts_typeUse.contained fun _ _ _ => ?_
    exact contained_bind contained_declarators fun _ _ _ => contained_spanFrom _ _
  · refine contained_bind (contained_excerpt _ _) fun _ _ _ => ?_
    exact contained_bind (skirts_require rfl _).contained fun _ _ _ => contained_spanFrom _ _

variable (hd : DeeperContained c deeper)
include hd

theorem contained_ifStatement (hk : isNoBrace (kindOf s.rest) = true) :
    Contained c s (ifStatement deeper start c s) := by
  refine contained_bind (skirts_skip_one hk).contained fun _ _ _ => ?_
  refine contained_bind (contained_parenthesized _) fun _ _ _ => ?_
  refine contained_bind (hd.statement _) fun _ _ _ => ?_
  refine contained_bind (skirts_accept rfl).contained fun _ _ _ => ?_
  simp only [← bind_assoc]
  refine contained_join (fun _ => ?_) (fun _ => contained_ok none) fun _ _ => contained_spanFrom _ _
  exact contained_bind (hd.statement _) fun _ _ _ => contained_ok _

theorem contained_forStatement (hk : isNoBrace (kindOf s.rest) = true) :
    Contained c s (forStatement deeper start c s) := by
  refine contained_bind (skirts_skip_one hk).contained fun _ _ _ => ?_
  refine contained_bind (contained_parenthesized _) fun _ _ _ => ?_
  exact contained_bind (hd.statement _) fun _ _ _ => contained_spanFrom _ _

theorem contained_whileStatement (hk : isNoBrace (kindOf s.rest) = true) :
    Contained c s (whileStatement deeper start c s) := by
  refine contained_bind (skirts_skip_one hk).contained fun _ _ _ => ?_
  refine contained_bind (contained_parenthesized _) fun _ _ _ => ?_
  exact contained_bind (hd.statement _) fun _ _ _ => contained_spanFrom _ _

theorem contained_doStatement (hk : isNoBrace (kindOf s.rest) = true) :
    Contained c s (doStatement deeper start c s) := by
  refine contained_bind (skirts_skip_one hk).contained fun _ _ _ => ?_
  refine contained_bind (hd.statement _) fun _ _ _ => ?_
  refine contained_bind (skirts_require rfl _).contained fun _ _ _ => ?_
  refine contained_bind (contained_parenthesized _) fun _ _ _ => ?_
  exact contained_bind (skirts_require rfl _).contained fun _ _ _ => contained_spanFrom _ _

theorem contained_catchClauses (n : Nat) : Contained c s (catchClauses deeper n c s) := by
  induction n generalizing s with
  | zero => exact contained_ok []
  | succ n ih =>
    rw [catchClauses, bind_run_ok here_run]
    refine contained_bind (skirts_accept rfl).contained fun _ _ _ => ?_
    rw [ite_run]
    split
    · refine contained_bind (contained_parenthesized _) fun _ _ _ => ?_
      refine contained_bind (hd.block _) fun _ _ _ => ?_
      rw [bind_run_ok (spanFrom_run _)]
      exact contained_bind ih fun _ _ _ => contained_ok _
    · exact contained_ok []

theorem contained_tryStatement (hk : isNoBrace (kindOf s.rest) = true) :
    Contained c s (tryStatement deeper start c s) := by
  refine contained_bind (skirts_skip_one hk).contained fun _ _ _ => ?_
  refine contained_bind (hd.block _) fun _ _ _ => ?_
  rw [bind_run_ok steps_run]
  refine contained_bind (contained_catchClauses hd _) fun _ _ _ => ?_
  refine contained_bind (skirts_accept rfl).contained fun _ _ _ => ?_
  simp only [← bind_assoc]
  refine contained_join (fun _ => ?_) (fun _ => contained_ok none) fun _ _ => ?_
  · exact contained_bind (hd.block _) fun _ _ _ => contained_ok _
  · rw [ite_run]
    split
    · refine contained_bind (contained_bind ?_ fun _ _ _ => contained_place start) fun _ _ _ =>
        contained_ok _
      exact contained_still _ rfl rfl
    · exact contained_spanFrom _ _

theorem contained_synchronizedStatement (hk : isNoBrace (kindOf s.rest) = true) :
    Contained c s (synchronizedStatement deeper start c s) := by
  refine contained_bind (skirts_skip_one hk).contained fun _ _ _ => ?_
  refine contained_bind (contained_parenthesized _) fun _ _ _ => ?_
  exact contained_bind (hd.block _) fun _ _ _ => contained_spanFrom _ _

theorem contained_labeledStatement (hk : kindOf s.rest = .identifier)
    (hcolon : kindOf (s.rest.drop 1) = .mark .colon) :
    Contained c s (labeledStatement deeper start c s) := by
  have hrun : identifier c s = .ok (s.next c).lexeme (s.skip 1) := by rw [identifier_run, if_pos hk]
  refine contained_bind skirts_identifier.contained fun _ s' hs' => ?_
  rw [hrun] at hs'
  cases hs'
  refine contained_bind (skirts_skip_one (by rw [skip_rest, hcolon]; rfl)).contained fun _ _ _ => ?_
  exact contained_bind (hd.statement _) fun _ _ _ => contained_spanFrom _ _

end

/-! ### Cases of a `switch` -/

theorem contained_of_skip_one {r : EStateM.Result Diagnostic State α}
    (hk : isNoBrace (kindOf s.rest) = true) (h : Contained c (s.skip 1) r) : Contained c s r := by
  have hskip : Contained c s (skip 1 c s) := (skirts_skip_one hk).contained
  exact @contained_bind _ _ c s (skip 1) (fun _ _ _ => r) s hskip fun _ s' hs' => by
    cases hs'
    exact h

/-- Behind `case` or `default`, the rest of the labels is read. -/
theorem contained_caseLabels_succ {n : Nat} (ih : ∀ s, Contained c s (caseLabels n c s))
    (hk : kindOf s.rest = .keyword .case_ ∨ kindOf s.rest = .keyword (.modifier .default_)) :
    Contained c (s.skip 1) (caseLabels (n + 1) c s) := by
  have hafter (label : CaseLabel) (s' : State) : Contained c s' ((do
      if ← check Mark.arrow then
        return [label]
      else
        require Mark.colon "':' after case label"
        return label :: (← caseLabels n) : Parser (List CaseLabel)) c s') := by
    rw [bind_run_ok (check_run _), ite_run]
    split
    · exact contained_ok [label]
    · exact contained_bind (skirts_require rfl _).contained fun _ _ _ =>
        contained_bind (ih _) fun _ _ _ => contained_ok _
  rw [caseLabels, bind_run_ok (check_run _), bind_run_ok (check_run _), ite_run,
    if_pos (by simpa using hk)]
  rcases hk with hk | hk
  · have hrun : accept (Keyword.modifier .default_) c s = .ok false s := by
      rw [accept_run, if_neg (by rw [hk]; nofun)]
    rw [bind_run_ok hrun, ite_run, if_neg Bool.false_ne_true, bind_run_ok (skip_run 1)]
    exact contained_bind (contained_excerpt _ _) fun _ _ _ => hafter _ _
  · have hrun : accept (Keyword.modifier .default_) c s = .ok true (s.skip 1) := by
      rw [accept_run, if_pos hk]
    rw [bind_run_ok hrun, ite_run, if_pos rfl]
    exact hafter _ _

theorem contained_caseLabels (n : Nat) : Contained c s (caseLabels n c s) := by
  induction n generalizing s with
  | zero => exact contained_ok []
  | succ n ih =>
    by_cases hk : kindOf s.rest = .keyword .case_ ∨ kindOf s.rest = .keyword (.modifier .default_)
    · refine contained_of_skip_one ?_ (contained_caseLabels_succ (fun _ => ih) hk)
      rcases hk with hk | hk <;> rw [hk] <;> rfl
    · rw [caseLabels, bind_run_ok (check_run _), bind_run_ok (check_run _), ite_run,
        if_neg (by simpa using hk)]
      exact contained_ok []

theorem contained_someCaseLabels : Contained c s (someCaseLabels c s) := by
  rw [someCaseLabels, bind_run_ok steps_run]
  refine contained_bind (contained_caseLabels _) fun _ _ _ => ?_
  rw [ite_run]
  split
  · exact contained_fail _
  · exact contained_ok _

theorem length_skip_lt (h : s.rest ≠ []) : (s.skip 1).rest.length < s.rest.length := by
  rw [skip_rest, List.length_drop]
  have := List.length_pos_iff.mpr h
  omega

theorem rest_ne_nil {k : Kind} (h : kindOf s.rest = k) (hk : k ≠ .endOfInput) : s.rest ≠ [] := by
  intro hs
  rw [hs] at h
  exact hk h.symm

/-- Reading labels moves on, unless there is neither `case` nor `default`: then it stops. -/
theorem someCaseLabels_moves :
    (final (someCaseLabels c s)).rest.length < s.rest.length ∨
      (kindOf s.rest ≠ .keyword .case_ ∧ kindOf s.rest ≠ .keyword (.modifier .default_) ∧
        ∃ d, someCaseLabels c s = .error d s) := by
  by_cases hk : kindOf s.rest = .keyword .case_ ∨ kindOf s.rest = .keyword (.modifier .default_)
  · left
    have hne : s.rest ≠ [] := by
      rcases hk with hk | hk <;> exact rest_ne_nil hk nofun
    have hmoves : Contained c (s.skip 1) (someCaseLabels c s) := by
      rw [someCaseLabels, bind_run_ok steps_run]
      refine contained_bind (contained_caseLabels_succ (fun _ => contained_caseLabels _) hk)
        fun _ _ _ => ?_
      rw [ite_run]
      split
      · exact contained_fail _
      · exact contained_ok _
    exact Nat.lt_of_le_of_lt hmoves.1.length_le (length_skip_lt hne)
  · right
    rw [not_or] at hk
    have hnone : caseLabels (s.rest.length + 1) c s = .ok [] s := by
      rw [caseLabels, bind_run_ok (check_run _), bind_run_ok (check_run _), ite_run,
        if_neg (by simpa using hk), pure_run]
    have hrun : someCaseLabels c s =
        .error (mismatch c.faults "'case' or 'default'" (s.next c)) s := by
      rw [someCaseLabels, bind_run_ok steps_run, bind_run_ok hnone, ite_run,
        if_pos List.isEmpty_nil, fail_run]
    exact ⟨hk.1, hk.2, _, hrun⟩

theorem caseRest_pos {t : Token} {ts : List Token} (hcase : t.kind ≠ .keyword .case_)
    (hdefault : t.kind ≠ .keyword (.modifier .default_)) (hbrace : t.kind ≠ .mark .closeBrace) :
    0 < caseRest 0 (t :: ts) := by
  rw [caseRest, if_neg (by simp [hcase, hdefault, hbrace])]
  repeat' split
  all_goals omega

/-- The labels of a case, or the way to the next one; either moves on. -/
theorem labels_moves (hends : endsStatements false (kindOf s.rest) = false)
    {labels : Option (List CaseLabel)} {s' : State}
    (h : recover (some <$> someCaseLabels) (do skipBy (caseRest 0); return none) c s = .ok labels s') :
    s'.rest.length < s.rest.length := by
  have hmoves := @someCaseLabels_moves c s
  rw [recover_run, map_run] at h
  cases hrun : someCaseLabels c s with
  | ok found s'' =>
    rw [hrun] at h hmoves
    cases h
    exact hmoves.resolve_right fun hstop => by obtain ⟨-, -, d, hd⟩ := hstop; cases hd
  | error d s'' =>
    rw [hrun] at h hmoves
    obtain ⟨_, t, hreport, h⟩ := bind_eq_ok.mp h
    have ht : t.rest = s''.rest := rest_of_report hreport
    rw [bind_run_ok (skipBy_run _)] at h
    cases h
    simp only [skip_rest, List.length_drop, ht]
    rcases hmoves with hmoves | ⟨hcase, hdefault, e, he⟩
    · simp only [final] at hmoves
      omega
    · cases he
      rcases hs : s.rest with _ | ⟨u, us⟩
      · rw [hs] at hends
        cases hends
      · rw [hs] at hcase hdefault hends
        have hbrace : u.kind ≠ .mark .closeBrace := fun hu => by
          simp [kindOf, hu, endsStatements] at hends
        have hpos := @caseRest_pos u us hcase hdefault hbrace
        simp only [List.length_cons]
        omega

/-- What is left of a `switch` behind a case that is not read ends with its closing brace. -/
theorem ended_of_caseBody {p : Parser α} {s' : State}
    (h : recover (some <$> p) (do skipBy (blockRest 0); return none) c s = .ok none s') :
    endsStatements false (kindOf s'.rest) = true := by
  rw [recover_run, map_run] at h
  cases hrun : p c s with
  | ok a s'' =>
    rw [hrun] at h
    cases h
  | error d s'' =>
    rw [hrun] at h
    obtain ⟨-, t, -, h⟩ := bind_eq_ok.mp h
    rw [bind_run_ok (skipBy_run _)] at h
    cases h
    exact blockRest_ends 0 t.rest

variable {deeper : Deeper} (hd : DeeperContained c deeper)
include hd

/-- What is read of a case, or left out with all that is behind it, does not leave the `switch`. -/
theorem contained_recoveredCaseBody : Contained c s (recover (some <$> deeper.caseBody)
    (do skipBy (blockRest 0); return none) c s) :=
  contained_recover (contained_map (hd.caseBody _)) fun _ =>
    (@fills_blockRest _ _ _ false none).contained

/-- The cases of a `switch` are read up to its closing brace, as long as the number of steps allows
for one token each. -/
theorem fills_switchCases {n : Nat} (hn : s.rest.length < n) :
    Fills (endsStatements false) c s (switchCases deeper n c s) := by
  induction n generalizing s with
  | zero => omega
  | succ n ih =>
    rw [switchCases, bind_run_ok kind_run, ite_run]
    split
    · next h => exact fills_ok [] h
    · next hends =>
      rw [bind_run_ok here_run]
      refine fills_bind (contained_recover (contained_map contained_someCaseLabels) fun s' => ?_)
        (unstopped_recover fun s' => ?_) fun labels s' hs' => ?_
      · exact contained_bind (contained_skipBy (walk_caseRest 0 _).remains) fun _ _ _ =>
          contained_ok none
      · exact unstopped_bind nofun fun _ _ _ => unstopped_ok none
      · have hmoves := labels_moves (by simpa using hends) hs'
        cases labels with
        | none => exact ih (by omega)
        | some labels =>
          simp only
          rw [bind_run_ok (check_run _), ite_run]
          split
          · rw [bind_run_ok here_run]
            exact fills_bind (contained_report _) (unstopped_report _) fun _ _ _ => fills_blockRest []
          · have hcontained := contained_recoveredCaseBody hd (c := c) (s := s')
            refine fills_bind hcontained (unstopped_recover fun _ => ?_) fun inner s'' hs'' => ?_
            · exact (@fills_blockRest _ _ _ false none).unstopped
            · rw [hs''] at hcontained
              have hle := hcontained.1.length_le
              cases inner with
              | none => exact fills_ok [] (ended_of_caseBody hs'')
              | some inner =>
                simp only
                rw [bind_run_ok (spanFrom_run _)]
                exact (ih (by simp only [final] at hle; omega)).map

theorem contained_switchStatement (start : Location) (hk : isNoBrace (kindOf s.rest) = true) :
    Contained c s (switchStatement deeper start c s) := by
  refine contained_bind (skirts_skip_one hk).contained fun _ _ _ => ?_
  refine contained_bind (contained_parenthesized _) fun _ s' _ => ?_
  by_cases ho : kindOf s'.rest = .mark .openBrace
  · have hrun : require Mark.openBrace "'\x7b' to open switch body" c s' = .ok () (s'.skip 1) := by
      rw [require_run, if_pos ho]
    rw [bind_run_ok hrun, bind_run_ok steps_run]
    have hfills : Fills (endsStatements false) c (s'.skip 1)
        (switchCases deeper ((s'.skip 1).rest.length + 1) c (s'.skip 1)) :=
      fills_switchCases hd (Nat.lt_succ_self _)
    refine Seals.contained ho (seals_bind hfills.contained hfills.unstopped fun cases s'' h => ?_)
    exact seals_close (fun _ => ⟨_, by rw [bind_run_ok (spanFrom_run _)]; rfl⟩) (hfills.ended _ _ h)
  · have hrun : require Mark.openBrace "'\x7b' to open switch body" c s' =
        .error (mismatch c.faults "'\x7b' to open switch body" (s'.next c)) s' := by
      rw [require_run, if_neg ho]
    rw [bind_run_error hrun]
    exact contained_error _

/-- Each form of statement is contained, since its first token is known. -/
theorem contained_anyStatement : Contained c s (anyStatement deeper c s) := by
  rw [anyStatement, bind_run_ok here_run, bind_run_ok kind_run, bind_run_ok secondKind_run]
  generalize hk : kindOf s.rest = k
  generalize hk' : kindOf (s.rest.drop 1) = k'
  have hword (w : Keyword) (h : k = .keyword w) : isNoBrace (kindOf s.rest) = true := by
    rw [hk, h]
    rfl
  split
  · exact contained_bind (hd.block _) fun _ _ _ => contained_ok _
  · refine contained_bind (skirts_skip_one (by rw [hk]; rfl)).contained fun _ _ _ => ?_
    exact contained_spanFrom _ fun span => Statement.block ⟨[], span⟩
  · exact contained_returnStatement _ (hword _ rfl)
  · exact contained_ifStatement _ hd (hword _ rfl)
  · exact contained_forStatement _ hd (hword _ rfl)
  · exact contained_whileStatement _ hd (hword _ rfl)
  · exact contained_doStatement _ hd (hword _ rfl)
  · refine contained_bind (contained_skipTryWithResources hk hk') fun _ _ _ => ?_
    exact contained_spanFrom _ fun span => Statement.block ⟨[], span⟩
  · exact contained_tryStatement _ hd (hword _ rfl)
  · exact contained_switchStatement hd _ (hword _ rfl)
  · exact contained_throwStatement _ (hword _ rfl)
  · exact contained_jumpStatement _ _ (hword _ rfl)
  · exact contained_jumpStatement _ _ (hword _ rfl)
  · exact contained_synchronizedStatement _ hd (hword _ rfl)
  · exact contained_assertStatement _ (hword _ rfl)
  · exact contained_labeledStatement _ hd hk hk'
  iterate 3 exact contained_error _
  iterate 5 exact contained_fail _
  · exact contained_plainStatement _

omit hd in
theorem contained_tooDeep : Contained c s ((tooDeep : Parser α) c s) := by
  rw [tooDeep, bind_run_ok read_run, bind_run_ok here_run]
  exact contained_error _

omit hd in
/-- At each number of levels that are left, the readers of statements are contained. -/
theorem deeperContained (c : Settings) (levels : Nat) :
    DeeperContained c ⟨statement levels, block levels, caseBody levels⟩ := by
  induction levels with
  | zero =>
    refine ⟨fun _ => ?_, fun _ => ?_, fun _ => ?_⟩
    · rw [statement]
      exact contained_tooDeep
    · rw [block]
      exact contained_tooDeep
    · rw [caseBody]
      exact contained_tooDeep
  | succ levels ih =>
    refine ⟨fun _ => ?_, fun _ => ?_, fun _ => ?_⟩
    · rw [statement]
      exact contained_anyStatement ih
    · rw [block]
      exact contained_braced ih.statement
    · rw [caseBody]
      exact (fills_allStatements ih.statement true).contained

end JavaTree.Parser
