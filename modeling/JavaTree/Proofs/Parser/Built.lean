import Mathlib.Tactic.Choose
import JavaTree.Parser.Unit
import JavaTree.Proofs.Parser.Quiet

/-!
Readers that are built of a few sorts of steps.

A reader looks at the tokens, passes over some of them, writes to the journal, reports a finding or
stops with one; all else is sequence and recovery. None of these steps looks at the budget but the
report of a finding, no reader below a whole text makes the finding that the budget is spent, and a
finding is about the next token. What is left out is reported behind it, so this report passes over
tokens as well. `Built` says so of every reader once, so what holds of runs of these steps, and of
sequences and recovery, holds of all of them.

    look, read    the tokens, the limits     stop      with a finding
    skip          over some tokens           report    a finding about what was next, behind it
    note          in the journal             bind, recover
-/

namespace JavaTree.Parser

variable {α β : Type} {c : Settings} {s : State}

/-! ### Findings about a token -/

/-- The findings about a token: that something else was expected in its place, that something is left
out from there on, that a cap was reached or that the budget was spent there. -/
inductive Concerns (faults : List Fault) (t : Token) : Diagnostic → Prop
  | mismatch (expected : String) : Concerns faults t (mismatch faults expected t)
  | unsupported (construct : String) : Concerns faults t (.unsupported construct t.location)
  | limitExceeded (what : String) (limit : Nat) :
      Concerns faults t (.limitExceeded what limit t.location)
  | tooManyErrors (count : Nat) : Concerns faults t (.tooManyErrors count t.location)

/-- What was expected in the place of a token is about the place of that token. -/
theorem mismatch_location (faults : List Fault) (expected : String) (t : Token) :
    (mismatch faults expected t).location = t.location := by
  unfold mismatch
  split
  · rfl
  · split <;> rfl
  · rfl

/-- A finding about a token is about its place. -/
theorem Concerns.location {faults : List Fault} {t : Token} {d : Diagnostic} (h : Concerns faults t d) :
    d.location = t.location := by
  cases h with
  | mismatch expected => exact mismatch_location faults expected t
  | unsupported construct => rfl
  | limitExceeded what limit => rfl
  | tooManyErrors count => rfl

/-! ### Readers -/

/-- Readers that are built of steps which do not look at the budget, but for reports. The findings that
they report or stop with let reading go on, and are about the next token, or else about a place with a
given property. -/
inductive Built (L : Location → Prop) : ∀ {α : Type}, Parser α → Prop
  | pure {α : Type} (a : α) : Built L (pure a)
  | look {α : Type} {p : Parser α} (f : Settings → State → α) (hrun : ∀ c s, p c s = .ok (f c s) s)
      (hbudget : ∀ c b s, f { c with budget := b } s = f c s) : Built L p
  | read {α : Type} {f : Settings → Parser α} (hbudget : ∀ c b, f { c with budget := b } = f c)
      (hf : ∀ c, Built L (f c)) : Built L (read >>= f)
  | skip {p : Parser Unit} (n : State → Nat) (hrun : ∀ c s, p c s = .ok () (s.skip (n s))) : Built L p
  | note (e : Event) : Built L (note e)
  | stop {α : Type} {p : Parser α} (f : Settings → State → Diagnostic)
      (hrun : ∀ c s, p c s = .error (f c s) s) (hgoes : ∀ c s, (f c s).isRecoverable = true)
      (hplace : ∀ c s, Concerns c.faults (s.next c) (f c s) ∨ L (f c s).location)
      (hbudget : ∀ c b s, f { c with budget := b } s = f c s) : Built L p
  | report {p : Parser Unit} (f : Settings → State → Diagnostic) (n : State → Nat)
      (hrun : ∀ c s, p c s = report (f c s) c (s.skip (n s)))
      (hgoes : ∀ c s, (f c s).isRecoverable = true)
      (hplace : ∀ c s, Concerns c.faults (s.next c) (f c s) ∨ L (f c s).location)
      (hbudget : ∀ c b s, f { c with budget := b } s = f c s) : Built L p
  | bind {α β : Type} {p : Parser α} {f : α → Parser β} (hp : Built L p) (hf : ∀ a, Built L (f a)) :
      Built L (p >>= f)
  | recover {α : Type} {p resume : Parser α} (hp : Built L p) (hresume : Built L resume) :
      Built L (recover p resume)

section Readers

variable {L : Location → Prop}

/-! ### Steps -/

theorem built_rest : Built L rest := .look (fun _ s => s.rest) (fun _ _ => rest_run) fun _ _ _ => rfl

theorem built_steps : Built L steps :=
  .look (fun _ s => s.rest.length + 1) (fun _ _ => steps_run) fun _ _ _ => rfl

theorem built_kind : Built L kind := .look (fun _ s => kindOf s.rest) (fun _ _ => kind_run) fun _ _ _ => rfl

theorem built_secondKind : Built L secondKind :=
  .look (fun _ s => kindOf (s.rest.drop 1)) (fun _ _ => secondKind_run) fun _ _ _ => rfl

theorem built_check (k : Kind) : Built L (check k) :=
  .look (fun _ s => decide (kindOf s.rest = k)) (fun _ _ => check_run k) fun _ _ _ => rfl

theorem built_peek : Built L peek := .look (fun c s => s.next c) (fun _ _ => peek_run) fun _ _ _ => rfl

theorem built_spanFrom (start : Location) : Built L (spanFrom start) :=
  .look (fun c s => s.spanFrom c start) (fun _ _ => spanFrom_run start) fun _ _ _ => rfl

theorem built_skip (n : Nat) : Built L (skip n) := .skip (fun _ => n) fun _ _ => skip_run n

theorem built_skipBy (rule : List Token → Nat) : Built L (skipBy rule) :=
  .skip (fun s => rule s.rest) fun _ _ => skipBy_run rule

theorem built_here : Built L here :=
  .look (fun c s => (s.next c).location) (fun _ _ => here_run) fun _ _ _ => rfl

theorem built_throw {d : Diagnostic} (h : d.isRecoverable = true) (hl : L d.location) :
    Built L (throw d : Parser α) :=
  .stop (fun _ _ => d) (fun _ _ => throw_run d) (fun _ _ => h) (fun _ _ => .inr hl) fun _ _ _ => rfl

/-- A stop with a finding about the next token. -/
theorem built_stopHere {make : Location → Diagnostic} (hgoes : ∀ l, (make l).isRecoverable = true)
    (hmake : ∀ faults t, Concerns faults t (make t.location)) :
    Built L (do throw (make (← here)) : Parser α) :=
  .stop (fun c s => make (s.next c).location) (fun _ _ => bind_run_ok here_run _) (fun _ _ => hgoes _)
    (fun _ _ => .inl (hmake _ _)) fun _ _ _ => rfl

theorem built_fail (expected : String) : Built L (fail expected : Parser α) :=
  .stop (fun c s => mismatch c.faults expected (s.next c)) (fun _ _ => fail_run expected)
    (fun _ _ => isRecoverable_mismatch _ _ _) (fun _ _ => .inl (.mismatch expected)) fun _ _ _ => rfl

theorem built_report {d : Diagnostic} (h : d.isRecoverable = true) (hl : L d.location) :
    Built L (report d) :=
  .report (fun _ _ => d) (fun _ => 0) (fun _ s => by rw [skip_zero]) (fun _ _ => h)
    (fun _ _ => .inr hl) fun _ _ _ => rfl

/-- The report of what was expected here. -/
theorem built_reportUnexpected (expected : String) {f : Unit → Parser α} (hf : Built L (f ())) :
    Built L (unexpected expected >>= fun d => report d >>= f) := by
  rw [← bind_assoc]
  refine .bind (.report (fun c s => mismatch c.faults expected (s.next c)) (fun _ => 0)
    (fun c s => ?_) (fun _ _ => isRecoverable_mismatch _ _ _) (fun _ _ => .inl (.mismatch expected))
    fun _ _ _ => rfl) fun _ => hf
  rw [bind_run_ok (unexpected_run expected), skip_zero]

/-- A report of a finding about the next token. -/
theorem built_reportHere {make : Location → Diagnostic} {f : Unit → Parser α}
    (hgoes : ∀ l, (make l).isRecoverable = true)
    (hmake : ∀ faults t, Concerns faults t (make t.location)) (hf : Built L (f ())) :
    Built L (here >>= fun l => report (make l) >>= f) := by
  rw [← bind_assoc]
  refine .bind (.report (fun c s => make (s.next c).location) (fun _ => 0) (fun c s => ?_)
    (fun _ _ => hgoes _) (fun _ _ => .inl (hmake _ _)) fun _ _ _ => rfl) fun _ => hf
  rw [bind_run_ok here_run, skip_zero]

/-- A choice by the kinds of the next two tokens, with their place in mind. -/
theorem built_byKinds {f : Location → Kind → Kind → Parser α}
    (hf : ∀ k k', Built L (here >>= fun l => f l k k')) :
    Built L (here >>= fun l => kind >>= fun k => secondKind >>= fun k' => f l k k') := by
  have hlater : (here >>= fun l => kind >>= fun k => secondKind >>= fun k' => f l k k') =
      kind >>= fun k => secondKind >>= fun k' => here >>= fun l => f l k k' := by
    funext c s
    simp only [bind_run, here_run, kind_run, secondKind_run]
  rw [hlater]
  exact .bind built_kind fun k => .bind built_secondKind fun k' => hf k k'

theorem built_ite {b : Prop} [Decidable b] {p q : Parser α} (hp : Built L p) (hq : Built L q) :
    Built L (if b then p else q) := by
  split
  · exact hp
  · exact hq

/-- A choice between two readers with one continuation. -/
theorem built_join {b : Prop} [Decidable b] {p q : Parser α} {k : α → Parser β} (hp : Built L p)
    (hq : Built L q) (hk : ∀ a, Built L (k a)) : Built L (if b then p >>= k else q >>= k) :=
  built_ite (hp.bind hk) (hq.bind hk)

theorem Built.map {p : Parser α} (hp : Built L p) (f : α → β) : Built L (f <$> p) := by
  rw [← bind_pure_comp]
  exact hp.bind fun a => .pure (f a)

theorem built_accept (k : Kind) : Built L (accept k) :=
  .bind (built_check k) fun _ => built_ite (.bind (built_skip 1) fun _ => .pure true) (.pure false)

theorem built_require (k : Kind) (expected : String) : Built L (require k expected) :=
  .bind (built_check k) fun _ => built_ite (built_skip 1) (built_fail expected)

/-- The last step of a node, which gives it its span. -/
theorem built_spanned (start : Location) (make : Span → α) :
    Built L (do return make (← spanFrom start)) :=
  .bind (built_spanFrom start) fun _ => .pure _

/-- The token that ends a node, and the span of the node. -/
theorem built_ended {k : Kind} {expected : String} (start : Location) (make : Span → α) :
    Built L (do return make (← (do require k expected; spanFrom start))) :=
  .bind (.bind (built_require _ _) fun _ => built_spanFrom start) fun _ => .pure _

/-- A missing closing brace is reported. -/
theorem built_close {expected : String} {k : Parser α} (hk : Built L k) : Built L (do
    if !(← accept Mark.closeBrace) then
      report (← unexpected expected)
    k) :=
  .bind (built_accept _) fun _ => built_ite (built_reportUnexpected _ hk) hk

/-! ### Names and types -/

theorem built_identifier : Built L identifier :=
  .bind built_peek fun _ => built_ite (.bind (built_skip 1) fun _ => .pure _) (built_fail _)

theorem built_qualifiedName : Built L qualifiedName :=
  .bind built_identifier fun _ => .bind built_rest fun _ => .bind (built_skip _) fun _ => .pure _

theorem built_angleText : Built L angleText := by
  refine .read (fun _ _ => rfl) fun c => .bind built_rest fun ahead => .bind (built_skip _) fun _ => ?_
  split
  · exact .pure _
  · exact built_stopHere (fun _ => rfl) fun _ _ => .limitExceeded _ _
  · exact built_fail _

theorem built_typeParameters : Built L typeParameters :=
  .bind (built_check _) fun _ => built_ite (.bind built_angleText fun _ => .pure _) (.pure none)

theorem built_typeName (known : String) (n : Nat) : Built L (typeName known n) := by
  induction n generalizing known with
  | zero => exact .pure known
  | succ n ih =>
    refine .bind (built_check _) fun _ => ?_
    simp only [← bind_assoc]
    refine built_join (.bind built_angleText fun _ => .pure _) (.pure known) fun named => ?_
    refine .bind built_rest fun _ => built_ite ?_ (.pure named)
    exact .bind (.bind (built_skip 1) fun _ => built_identifier) fun _ => ih _

theorem built_brackets : Built L brackets :=
  .bind built_rest fun _ => .bind (built_skip _) fun _ => .pure _

theorem built_typeUse : Built L typeUse := by
  have hend (start : Location) (name : String) : Built L (do
      let n ← brackets
      return (⟨name, n, ← spanFrom start⟩ : TypeUse)) :=
    .bind built_brackets fun _ => built_spanned start _
  refine .bind built_here fun start => .bind built_peek fun first => ?_
  refine built_ite ?_ (built_ite ?_ ?_)
  · exact .bind (built_skip 1) fun _ => hend start _
  · refine .bind built_identifier fun _ => .bind built_steps fun _ => ?_
    exact .bind (built_typeName _ _) fun _ => hend start _
  · exact .bind (built_fail _) fun _ => hend start _

theorem built_moreTypes (n : Nat) : Built L (moreTypes n) := by
  induction n with
  | zero => exact .pure []
  | succ n ih =>
    refine .bind (built_accept _) fun _ => built_ite ?_ (.pure [])
    exact .bind built_typeUse fun _ => .bind ih fun _ => .pure _

theorem built_typeList : Built L typeList :=
  .bind built_typeUse fun _ => .bind built_steps fun _ => .bind (built_moreTypes _) fun _ => .pure _

theorem built_typesAfter (k : Keyword) : Built L (typesAfter k) :=
  .bind (built_accept _) fun _ => built_ite built_typeList (.pure [])

theorem built_returnType : Built L returnType :=
  .bind built_here fun _ => .bind (built_accept _) fun _ => built_ite (.pure _) built_typeUse

/-! ### Excerpts and annotations -/

theorem built_excerpt (rule : CaptureRule) (what : String) : Built L (excerpt rule what) := by
  refine .read (fun _ _ => rfl) fun c => .bind built_rest fun ahead => .bind (built_skip _) fun _ => ?_
  split
  · exact built_ite (built_fail _) (.pure _)
  · exact built_fail _
  · exact built_fail _
  · exact built_fail _
  · exact built_stopHere (fun _ => rfl) fun _ _ => .limitExceeded _ _

theorem built_parenthesized (what : String) : Built L (parenthesized what) :=
  .bind (built_require _ _) fun _ => .bind (built_excerpt _ _) fun _ =>
    .bind (built_require _ _) fun _ => .pure _

theorem built_arguments (what : String) : Built L (arguments what) := by
  refine .bind (built_require _ _) fun _ => .bind (built_check _) fun _ => ?_
  exact built_join (.pure _) (built_excerpt _ _) fun _ => .bind (built_require _ _) fun _ => .pure _

theorem built_optionalArguments (what : String) : Built L (optionalArguments what) :=
  .bind (built_check _) fun _ => built_ite (.bind (built_arguments what) fun _ => .pure _) (.pure none)

theorem built_annotationUse : Built L annotationUse :=
  .bind built_here fun start => .bind (built_require _ _) fun _ => .bind built_qualifiedName fun _ =>
    .bind (built_optionalArguments _) fun _ => built_spanned start _

theorem built_annotations (n : Nat) : Built L (annotations n) := by
  induction n with
  | zero => exact .pure []
  | succ n ih =>
    refine .bind built_rest fun _ => built_ite ?_ (.pure [])
    exact .bind built_annotationUse fun _ => .bind ih fun _ => .pure _

theorem built_qualifiers (found : Qualifiers) (n : Nat) : Built L (qualifiers found n) := by
  induction n generalizing found with
  | zero => exact .pure found
  | succ n ih =>
    refine .bind built_rest fun _ => built_ite (.bind built_annotationUse fun _ => ih _) ?_
    refine .bind built_kind fun _ => ?_
    split
    · exact .pure found
    · refine .bind built_secondKind fun _ => built_ite (.pure found) ?_
      exact .bind (built_skip 1) fun _ => ih _

theorem built_allQualifiers : Built L allQualifiers := .bind built_steps fun _ => built_qualifiers _ _

/-! ### Variables -/

theorem built_someExcerpt (rule : CaptureRule) (what : String) :
    Built L (do return some (← excerpt rule what)) :=
  .bind (built_excerpt _ _) fun _ => .pure _

theorem built_declarator : Built L declarator := by
  refine .bind built_here fun start => .bind built_identifier fun _ => .bind built_brackets fun _ => ?_
  refine .bind (built_accept _) fun _ => ?_
  simp only [← bind_assoc]
  exact built_join (built_someExcerpt _ _) (.pure _) fun _ => built_spanned start _

theorem built_declaratorList (n : Nat) : Built L (declaratorList n) := by
  induction n with
  | zero => exact .pure []
  | succ n ih =>
    refine .bind built_declarator fun _ => .bind (built_accept _) fun _ => built_ite ?_ (.pure _)
    exact .bind ih fun _ => .pure _

theorem built_declarators : Built L declarators :=
  .bind built_steps fun _ => .bind (built_declaratorList _) fun _ =>
    .bind (built_require _ _) fun _ => .pure _

theorem built_fields (start : Location) (q : Qualifiers) : Built L (fields start q) :=
  .bind built_typeUse fun _ => .bind built_declarators fun _ => .bind (built_spanFrom start) fun _ =>
    .pure _

/-! ### Constructs that are left out -/

/-- A reader that does no more than to pass over tokens, and has a result. -/
def Passes (p : Parser α) : Prop :=
  ∃ (f : State → α) (n : State → Nat), ∀ c s, p c s = .ok (f s) (s.skip (n s))

theorem passes_pure (a : α) : Passes (pure a) := ⟨fun _ => a, fun _ => 0, fun _ s => by rw [skip_zero]; rfl⟩

theorem passes_steps : Passes steps :=
  ⟨fun s => s.rest.length + 1, fun _ => 0, fun _ s => by rw [steps_run, skip_zero]⟩

theorem passes_check (k : Kind) : Passes (check k) :=
  ⟨fun s => decide (kindOf s.rest = k), fun _ => 0, fun _ s => by rw [check_run, skip_zero]⟩

theorem passes_skip (n : Nat) : Passes (skip n) := ⟨fun _ => (), fun _ => n, fun _ _ => skip_run n⟩

theorem passes_skipBy (rule : List Token → Nat) : Passes (skipBy rule) :=
  ⟨fun _ => (), fun s => rule s.rest, fun _ _ => skipBy_run rule⟩

theorem passes_bind {p : Parser α} {f : α → Parser β} (hp : Passes p) (hf : ∀ a, Passes (f a)) :
    Passes (p >>= f) := by
  obtain ⟨a, n, hp⟩ := hp
  choose b m hf using hf
  refine ⟨fun s => b (a s) (s.skip (n s)), fun s => n s + m (a s) (s.skip (n s)), fun c s => ?_⟩
  rw [bind_run_ok (hp c s), hf, skip_skip]

theorem passes_ite {b : Prop} [Decidable b] {p q : Parser α} (hp : Passes p) (hq : Passes q) :
    Passes (if b then p else q) := by
  split
  · exact hp
  · exact hq

theorem passes_accept (k : Kind) : Passes (accept k) :=
  passes_bind (passes_check k) fun _ =>
    passes_ite (passes_bind (passes_skip 1) fun _ => passes_pure true) (passes_pure false)

theorem passes_skipGroup (opener : Mark) : Passes (skipGroup opener) :=
  passes_bind (passes_check _) fun _ => passes_ite (passes_skipBy _) (passes_pure ())

theorem passes_skipCatches (n : Nat) : Passes (skipCatches n) := by
  induction n with
  | zero => exact passes_pure ()
  | succ n ih =>
    refine passes_bind (passes_accept _) fun _ => passes_ite ?_ (passes_pure ())
    exact passes_bind (passes_skipGroup _) fun _ => passes_bind (passes_skipGroup _) fun _ => ih

/-- What follows when the place of a construct has been kept in mind: some tokens are passed over, and
the construct is reported. -/
def ReportsBehind (construct : String) (q : Location → Parser Unit) : Prop :=
  ∃ n : State → Nat, ∀ l c s, q l c s = report (.unsupported construct l) c (s.skip (n s))

theorem reportsBehind_report (construct : String) :
    ReportsBehind construct fun l => report (.unsupported construct l) :=
  ⟨fun _ => 0, fun _ _ s => by rw [skip_zero]⟩

theorem reportsBehind_bind {construct : String} {p : Parser α} {q : α → Location → Parser Unit}
    (hp : Passes p) (hq : ∀ a, ReportsBehind construct (q a)) :
    ReportsBehind construct fun l => p >>= fun a => q a l := by
  obtain ⟨a, n, hp⟩ := hp
  choose m hq using hq
  refine ⟨fun s => n s + m (a s) (s.skip (n s)), fun l c s => ?_⟩
  rw [← skip_skip, ← hq]
  exact bind_run_ok (hp c s) fun a => q a l

theorem reportsBehind_ite {construct : String} {b : Prop} [Decidable b] {p q : Location → Parser Unit}
    (hp : ReportsBehind construct p) (hq : ReportsBehind construct q) :
    ReportsBehind construct fun l => if b then p l else q l := by
  split
  · exact hp
  · exact hq

/-- A reader that passes over a construct and reports it, at the place where the construct starts. -/
def LeavesOut (construct : String) (p : Parser Unit) : Prop :=
  ∃ n : State → Nat, ∀ c s,
    p c s = report (.unsupported construct (s.next c).location) c (s.skip (n s))

theorem ReportsBehind.leavesOut {construct : String} {q : Location → Parser Unit}
    (h : ReportsBehind construct q) : LeavesOut construct (here >>= q) := by
  obtain ⟨n, h⟩ := h
  exact ⟨n, fun c s => by rw [bind_run_ok here_run, h]⟩

theorem LeavesOut.built {construct : String} {p : Parser Unit} (h : LeavesOut construct p) :
    Built L p := by
  obtain ⟨n, h⟩ := h
  exact .report (fun c s => .unsupported construct (s.next c).location) n h (fun _ _ => rfl)
    (fun _ _ => .inl (.unsupported construct)) fun _ _ _ => rfl

theorem leavesOut_skipBy (rule : List Token → Nat) (construct : String) : LeavesOut construct (do
    let l ← here
    skipBy rule
    report (.unsupported construct l)) :=
  (reportsBehind_bind (passes_skipBy rule) fun _ => reportsBehind_report construct).leavesOut

theorem leavesOut_skipType (construct : String) : LeavesOut construct (skipType construct) :=
  leavesOut_skipBy typeBody construct

theorem leavesOut_skipTryWithResources :
    LeavesOut "try-with-resources statement" skipTryWithResources := by
  refine ReportsBehind.leavesOut ?_
  refine reportsBehind_bind (passes_skip 1) fun _ => reportsBehind_bind (passes_skipBy _) fun _ => ?_
  refine reportsBehind_bind (passes_skipGroup _) fun _ => reportsBehind_bind passes_steps fun _ => ?_
  refine reportsBehind_bind (passes_skipCatches _) fun _ => ?_
  refine reportsBehind_bind (passes_accept _) fun _ => ?_
  refine reportsBehind_ite (reportsBehind_bind (passes_skipGroup _) fun _ => ?_) ?_
  all_goals exact reportsBehind_report _

theorem built_skipType (construct : String) : Built L (skipType construct) :=
  (leavesOut_skipType construct).built

theorem built_skipTryWithResources : Built L skipTryWithResources :=
  leavesOut_skipTryWithResources.built

/-! ### Statements -/

section Statements

variable {st : Parser Statement} (hst : Built L st)

include hst

theorem built_blockStatement : Built L (blockStatement st) := by
  refine .bind built_rest fun _ => built_ite ?_ (built_ite ?_ (built_ite ?_ ?_))
  · exact .bind (built_skipType _) fun _ => .pure []
  · exact .bind built_skipTryWithResources fun _ => .pure []
  · refine .bind built_here fun start => .bind built_allQualifiers fun q => .bind built_kind fun _ => ?_
    refine built_ite (.bind (built_skipType _) fun _ => .pure []) ?_
    exact .bind (built_fields start q) fun _ => .pure _
  · exact .bind hst fun _ => .pure _

theorem built_statements (inSwitch : Bool) (cap : Nat) : Built L (statements st inSwitch cap) := by
  induction cap with
  | zero =>
    refine .bind built_kind fun _ => built_ite (.pure []) (.read (fun _ _ => rfl) fun c => ?_)
    refine built_reportHere (fun _ => rfl) (fun _ _ => .limitExceeded _ _) ?_
    exact .bind (built_skipBy _) fun _ => .pure []
  | succ cap ih =>
    refine .bind built_kind fun _ => built_ite (.pure []) (.bind (built_accept _) fun _ => ?_)
    refine built_ite ih (.bind (.recover (built_blockStatement hst) ?_) fun _ => ?_)
    · exact .bind (built_skipBy _) fun _ => .pure []
    · exact .bind ih fun _ => .pure _

theorem built_allStatements (inSwitch : Bool) : Built L (allStatements st inSwitch) :=
  .read (fun _ _ => rfl) fun _ => built_statements hst inSwitch _

theorem built_braced : Built L (braced st) :=
  .bind built_here fun start => .bind (built_require _ _) fun _ =>
    .bind (built_allStatements hst false) fun _ => built_close (built_spanned start _)

end Statements

theorem built_caseLabels (n : Nat) : Built L (caseLabels n) := by
  induction n with
  | zero => exact .pure []
  | succ n ih =>
    refine .bind (built_check _) fun _ => .bind (built_check _) fun _ => built_ite ?_ (.pure [])
    refine .bind (built_accept _) fun _ => ?_
    simp only [← bind_assoc]
    refine built_join (.pure _)
      (.bind (.bind (built_skip 1) fun _ => built_excerpt _ _) fun _ => .pure _) fun label => ?_
    refine .bind (built_check _) fun _ => built_ite (.pure _) ?_
    exact .bind (.bind (built_require _ _) fun _ => ih) fun _ => .pure _

theorem built_someCaseLabels : Built L someCaseLabels :=
  .bind built_steps fun _ => .bind (built_caseLabels _) fun _ => built_ite (built_fail _) (.pure _)

/-- The readers for one level further in are built of such steps. -/
structure DeeperBuilt (L : Location → Prop) (deeper : Deeper) : Prop where
  statement : Built L deeper.statement
  block : Built L deeper.block
  caseBody : Built L deeper.caseBody

section Deeper

variable {deeper : Deeper} (start : Location)

theorem built_emptyBlock : Built L (emptyBlock start) := built_spanned start _

theorem built_returnStatement : Built L (returnStatement start) := by
  refine .bind (built_skip 1) fun _ => .bind (built_check _) fun _ => ?_
  simp only [← bind_assoc]
  exact built_join (.pure none) (built_someExcerpt _ _) fun _ => built_ended start _

theorem built_throwStatement : Built L (throwStatement start) :=
  .bind (built_skip 1) fun _ => .bind (built_excerpt _ _) fun _ => .bind (built_require _ _) fun _ =>
    built_spanned start _

theorem built_jumpStatement (make : Option String → Span → Statement) :
    Built L (jumpStatement make start) := by
  refine .bind (built_skip 1) fun _ => .bind (built_check _) fun _ => ?_
  simp only [← bind_assoc]
  exact built_join (.bind built_identifier fun _ => .pure _) (.pure none) fun _ => built_ended start _

theorem built_assertStatement : Built L (assertStatement start) := by
  refine .bind (built_skip 1) fun _ => .bind (built_excerpt _ _) fun _ => ?_
  refine .bind (built_accept _) fun _ => ?_
  simp only [← bind_assoc]
  exact built_join (built_someExcerpt _ _) (.pure none) fun _ => built_ended start _

theorem built_plainStatement : Built L (plainStatement start) := by
  refine .read (fun _ _ => rfl) fun c => .bind built_rest fun _ => built_ite ?_ ?_
  · exact .bind built_typeUse fun _ => .bind built_declarators fun _ => built_spanned start _
  · exact .bind (built_excerpt _ _) fun _ => .bind (built_require _ _) fun _ => built_spanned start _

variable (hd : DeeperBuilt L deeper)

include hd

theorem built_catchClauses (n : Nat) : Built L (catchClauses deeper n) := by
  induction n with
  | zero => exact .pure []
  | succ n ih =>
    refine .bind built_here fun start => .bind (built_accept _) fun _ => built_ite ?_ (.pure [])
    refine .bind (built_parenthesized _) fun _ => .bind hd.block fun _ => ?_
    exact .bind (built_spanFrom start) fun _ => .bind ih fun _ => .pure _

theorem built_switchCases (n : Nat) : Built L (switchCases deeper n) := by
  induction n with
  | zero => exact .pure []
  | succ n ih =>
    refine .bind built_kind fun _ => built_ite (.pure []) (.bind built_here fun start => ?_)
    refine .bind (.recover (built_someCaseLabels.map some) ?_) fun labels => ?_
    · exact .bind (built_skipBy _) fun _ => .pure none
    rcases labels with _ | labels
    · exact ih
    refine .bind (built_check _) fun _ => built_ite ?_ ?_
    · refine built_reportHere (fun _ => rfl) (fun _ _ => .unsupported _) ?_
      exact .bind (built_skipBy _) fun _ => .pure []
    · refine .bind (.recover (hd.caseBody.map some) ?_) fun inner => ?_
      · exact .bind (built_skipBy _) fun _ => .pure none
      rcases inner with _ | inner
      · exact .pure []
      · exact .bind (built_spanFrom start) fun _ => .bind ih fun _ => .pure _

theorem built_ifStatement : Built L (ifStatement deeper start) := by
  refine .bind (built_skip 1) fun _ => .bind (built_parenthesized _) fun _ => ?_
  refine .bind hd.statement fun _ => .bind (built_accept _) fun _ => ?_
  simp only [← bind_assoc]
  exact built_join (.bind hd.statement fun _ => .pure _) (.pure none) fun _ => built_spanned start _

theorem built_forStatement : Built L (forStatement deeper start) :=
  .bind (built_skip 1) fun _ => .bind (built_parenthesized _) fun _ => .bind hd.statement fun _ =>
    built_spanned start _

theorem built_whileStatement : Built L (whileStatement deeper start) :=
  .bind (built_skip 1) fun _ => .bind (built_parenthesized _) fun _ => .bind hd.statement fun _ =>
    built_spanned start _

theorem built_doStatement : Built L (doStatement deeper start) :=
  .bind (built_skip 1) fun _ => .bind hd.statement fun _ => .bind (built_require _ _) fun _ =>
    .bind (built_parenthesized _) fun _ => .bind (built_require _ _) fun _ => built_spanned start _

theorem built_tryStatement : Built L (tryStatement deeper start) := by
  refine .bind (built_skip 1) fun _ => .bind hd.block fun _ => .bind built_steps fun _ => ?_
  refine .bind (built_catchClauses hd _) fun _ => .bind (built_accept _) fun _ => ?_
  simp only [← bind_assoc]
  refine built_join (.bind hd.block fun _ => .pure _) (.pure none) fun _ => ?_
  refine built_ite ?_ (built_spanned start _)
  exact .bind (.bind (.note _) fun _ => built_spanFrom start) fun _ => .pure _

theorem built_switchStatement : Built L (switchStatement deeper start) := by
  refine .bind (built_skip 1) fun _ => .bind (built_parenthesized _) fun _ => ?_
  refine .bind (built_require _ _) fun _ => .bind built_steps fun _ => ?_
  exact .bind (built_switchCases hd _) fun _ => built_close (built_spanned start _)

theorem built_synchronizedStatement : Built L (synchronizedStatement deeper start) :=
  .bind (built_skip 1) fun _ => .bind (built_parenthesized _) fun _ => .bind hd.block fun _ =>
    built_spanned start _

theorem built_labeledStatement : Built L (labeledStatement deeper start) :=
  .bind built_identifier fun _ => .bind (built_skip 1) fun _ => .bind hd.statement fun _ =>
    built_spanned start _

omit start in
theorem built_anyStatement : Built L (anyStatement deeper) := by
  refine built_byKinds fun k k' => ?_
  split
  · exact .bind built_here fun _ => .bind hd.block fun _ => .pure _
  · exact .bind built_here fun start => .bind (built_skip 1) fun _ => built_emptyBlock start
  · exact .bind built_here fun start => built_returnStatement start
  · exact .bind built_here fun start => built_ifStatement start hd
  · exact .bind built_here fun start => built_forStatement start hd
  · exact .bind built_here fun start => built_whileStatement start hd
  · exact .bind built_here fun start => built_doStatement start hd
  · exact .bind built_here fun start => .bind built_skipTryWithResources fun _ => built_emptyBlock start
  · exact .bind built_here fun start => built_tryStatement start hd
  · exact .bind built_here fun start => built_switchStatement start hd
  · exact .bind built_here fun start => built_throwStatement start
  · exact .bind built_here fun start => built_jumpStatement start _
  · exact .bind built_here fun start => built_jumpStatement start _
  · exact .bind built_here fun start => built_synchronizedStatement start hd
  · exact .bind built_here fun start => built_assertStatement start
  · exact .bind built_here fun start => built_labeledStatement start hd
  iterate 3 exact built_stopHere (fun _ => rfl) fun _ _ => .unsupported _
  iterate 5 exact .bind built_here fun _ => built_fail _
  exact .bind built_here fun start => built_plainStatement start

end Deeper

theorem built_tooDeep : Built L (tooDeep : Parser α) :=
  .read (fun _ _ => rfl) fun _ => built_stopHere (fun _ => rfl) fun _ _ => .limitExceeded _ _

theorem deeperBuilt (levels : Nat) :
    DeeperBuilt L ⟨statement levels, block levels, caseBody levels⟩ := by
  induction levels with
  | zero => exact ⟨built_tooDeep, built_tooDeep, built_tooDeep⟩
  | succ levels ih =>
    refine ⟨?_, ?_, ?_⟩
    · simp only [statement]
      exact built_anyStatement ih
    · simp only [block]
      exact built_braced ih.statement
    · simp only [caseBody]
      exact built_allStatements ih.statement true

theorem built_body : Built L body := .read (fun _ _ => rfl) fun _ => (deeperBuilt _).block

/-! ### Members -/

theorem built_parameter : Built L parameter := by
  refine .bind built_here fun start => .bind built_allQualifiers fun _ => .bind built_typeUse fun _ => ?_
  refine .bind (built_accept _) fun _ => .bind built_identifier fun _ => .bind built_brackets fun _ => ?_
  exact built_spanned start _

theorem built_parameterList (n : Nat) : Built L (parameterList n) := by
  induction n with
  | zero => exact .pure []
  | succ n ih =>
    refine .bind built_parameter fun _ => .bind (built_accept _) fun _ => built_ite ?_ (.pure _)
    exact .bind ih fun _ => .pure _

theorem built_parameters : Built L parameters := by
  refine .bind (built_require _ _) fun _ => .bind (built_check _) fun _ => ?_
  simp only [← bind_assoc]
  exact built_join (.pure []) (.bind built_steps fun _ => built_parameterList _) fun _ =>
    .bind (built_require _ _) fun _ => .pure _

theorem built_method (start : Location) (q : Qualifiers) (params : Option String) :
    Built L (method start q params) := by
  refine .bind built_returnType fun _ => .bind built_identifier fun _ => .bind built_parameters fun _ => ?_
  refine .bind (built_typesAfter _) fun _ => .bind (built_check _) fun _ => ?_
  simp only [← bind_assoc]
  exact built_join (.bind built_body fun _ => .pure _) (.bind (built_require _ _) fun _ => .pure none)
    fun _ => built_spanned start _

theorem built_constructor (start : Location) (typeName : String) (q : Qualifiers)
    (params : Option String) : Built L (constructor start typeName q params) := by
  refine .bind built_here fun _ => .bind built_identifier fun _ => ?_
  refine built_ite (.bind (.note _) fun _ => ?_) ?_
  all_goals
    exact .bind built_parameters fun _ => .bind (built_typesAfter _) fun _ => .bind built_body fun _ =>
      built_spanned start _

theorem built_plainMember (start : Location) (typeName : String) (q : Qualifiers) :
    Built L (plainMember start typeName q) := by
  refine .bind built_typeParameters fun params => .bind built_rest fun _ => built_ite ?_ ?_
  · exact .bind (built_constructor start typeName q params) fun _ => .pure _
  · refine .read (fun _ _ => rfl) fun c => built_ite ?_ (built_ite ?_ (built_fail _))
    · exact .bind (built_method start q params) fun _ => .pure _
    · exact .bind (built_fields start q) fun _ => .pure _

theorem built_member (typeName : String) : Built L (member typeName) := by
  refine .bind built_here fun start => .bind built_allQualifiers fun q => .bind built_rest fun _ => ?_
  refine built_ite ?_ (built_ite ?_ (built_ite ?_ (built_plainMember start typeName q)))
  · exact .bind (built_skipType _) fun _ => .pure []
  · exact .bind (built_skipType _) fun _ => .pure []
  · exact .bind built_body fun _ => built_spanned start _

theorem built_members (typeName : String) (cap : Nat) : Built L (members typeName cap) := by
  induction cap with
  | zero =>
    refine .bind built_kind fun _ => built_ite (.pure []) (.read (fun _ _ => rfl) fun c => ?_)
    refine built_reportHere (fun _ => rfl) (fun _ _ => .limitExceeded _ _) ?_
    exact .bind (built_skipBy _) fun _ => .pure []
  | succ cap ih =>
    refine .bind built_kind fun _ => built_ite (.pure []) (.bind (built_accept _) fun _ => ?_)
    refine built_ite ih (.bind built_steps fun _ => ?_)
    refine .bind (.recover (built_member typeName) ?_) fun _ => .bind ih fun _ => .pure _
    refine .bind built_steps fun _ => .read (fun _ _ => rfl) fun c => ?_
    exact .bind (built_skipBy _) fun _ => .pure []

theorem built_memberSection (typeName : String) : Built L (memberSection typeName) :=
  .read (fun _ _ => rfl) fun _ => .bind (built_members typeName _) fun _ => built_close (.pure _)

/-! ### Types -/

theorem built_classRest (start : Location) (q : Qualifiers) : Built L (classRest start q) := by
  refine .bind (built_skip 1) fun _ => .bind built_identifier fun name => ?_
  refine .bind built_typeParameters fun _ => .bind (built_accept _) fun _ => ?_
  simp only [← bind_assoc]
  refine built_join (.bind built_typeUse fun _ => .pure _) (.pure none) fun _ => ?_
  simp only [bind_assoc]
  refine .bind (built_typesAfter _) fun _ => .bind (built_require _ _) fun _ => ?_
  exact .bind (built_memberSection name) fun _ => built_spanned start _

theorem built_interfaceRest (start : Location) (q : Qualifiers) : Built L (interfaceRest start q) := by
  refine .bind (built_skip 1) fun _ => .bind built_identifier fun name => ?_
  refine .bind built_typeParameters fun _ => .bind (built_typesAfter _) fun _ => ?_
  refine .bind (built_require _ _) fun _ => .bind (built_memberSection name) fun _ => ?_
  exact built_spanned start _

theorem built_enumConstant : Built L enumConstant := by
  refine .bind built_here fun start => .bind built_steps fun _ => .bind (built_annotations _) fun _ => ?_
  refine .bind built_identifier fun _ => .bind (built_optionalArguments _) fun _ => ?_
  refine .bind (built_check _) fun _ => built_ite ?_ (built_spanned start _)
  have hbody := (leavesOut_skipBy (group 0) "enum constant body").built (L := L)
  simpa only [bind_assoc] using hbody.bind fun _ => built_spanned start _

theorem built_enumConstants (n : Nat) : Built L (enumConstants n) := by
  induction n with
  | zero => exact .pure []
  | succ n ih =>
    refine .bind built_kind fun _ => .bind (built_check _) fun _ => built_ite (.pure []) ?_
    refine .bind built_steps fun _ => .bind (.recover (built_enumConstant.map some) ?_) fun _ => ?_
    · exact .bind built_steps fun _ => .bind (built_skipBy _) fun _ => .pure none
    · exact .bind (built_accept _) fun _ => built_ite (.bind ih fun _ => .pure _) (.pure _)

theorem built_enumMembers (typeName : String) : Built L (enumMembers typeName) := by
  refine .bind (built_accept _) fun _ => built_ite (built_memberSection typeName) ?_
  refine .bind (built_accept _) fun _ => built_ite (built_reportUnexpected _ ?_) (.pure [])
  refine .read (fun _ _ => rfl) fun c => .bind (built_skipBy _) fun _ => ?_
  exact .bind (built_accept _) fun _ => .pure []

theorem built_enumRest (start : Location) (q : Qualifiers) : Built L (enumRest start q) := by
  refine .bind (built_skip 1) fun _ => .bind built_identifier fun name => ?_
  refine .bind (built_typesAfter _) fun _ => .bind (built_require _ _) fun _ => ?_
  refine .bind built_steps fun _ => .bind (built_enumConstants _) fun _ => ?_
  exact .bind (built_enumMembers name) fun _ => built_spanned start _

theorem built_typeDeclaration : Built L typeDeclaration := by
  refine .bind built_here fun start => .bind built_allQualifiers fun q => ?_
  refine .bind built_kind fun _ => .bind built_secondKind fun _ => ?_
  split
  · exact .bind (built_classRest start q) fun _ => .pure _
  · exact .bind (built_interfaceRest start q) fun _ => .pure _
  · exact .bind (built_enumRest start q) fun _ => .pure _
  · exact .bind (built_skipType _) fun _ => .pure none
  · exact built_fail _

/-! ### Clauses and types at the top of a text -/

theorem built_packageClause : Built L packageClause :=
  .bind built_here fun start => .bind (built_skip 1) fun _ => .bind built_qualifiedName fun _ =>
    .bind (built_require _ _) fun _ => built_spanned start _

theorem built_importClause : Built L importClause := by
  refine .bind built_here fun start => .bind (built_skip 1) fun _ => .bind (built_accept _) fun _ => ?_
  refine .bind built_qualifiedName fun _ => .bind (built_accept _) fun _ => ?_
  refine built_ite (.bind (built_require _ _) fun _ => ?_) ?_
  all_goals exact .bind (built_require _ _) fun _ => built_spanned start _

theorem built_skipClause : Built L (skipClause : Parser (Option α)) :=
  .bind (built_skipBy _) fun _ => .pure none

theorem built_optionalPackage : Built L optionalPackage :=
  .bind (built_check _) fun _ =>
    built_ite (.recover (built_packageClause.map some) built_skipClause) (.pure none)

/-- One import, or nothing if it is faulty. -/
theorem built_import : Built L (recover (some <$> importClause) skipClause) :=
  .recover (built_importClause.map some) built_skipClause

theorem built_topLevelType : Built L topLevelType := by
  refine .bind built_steps fun _ => .recover built_typeDeclaration ?_
  exact .bind built_steps fun _ => .bind (built_skipBy _) fun _ => .pure none

end Readers

/-- What follows an import that was attempted. -/
def behindImport (n : Nat) : Except Diagnostic (Option Import) → Parser (Outcome (List Import))
  | .error d => return ⟨[], some d⟩
  | .ok found => do
    let more ← imports n
    return { more with found := found.toList ++ more.found }

theorem imports_run_end (h : kindOf s.rest ≠ .keyword .import_) (n : Nat) :
    imports (n + 1) c s = .ok ⟨[], none⟩ s := by
  rw [imports, bind_run_ok (check_run _), decide_eq_false h]
  rfl

theorem imports_run_import (h : kindOf s.rest = .keyword .import_) (n : Nat) :
    imports (n + 1) c s =
      (attempt (recover (some <$> importClause) skipClause) >>= behindImport n) c s := by
  rw [imports, bind_run_ok (check_run _), decide_eq_true h, if_pos rfl]
  exact congrFun (congrFun (congrArg _ (funext fun r => by cases r <;> rfl)) c) s

/-- What follows a type that was attempted. -/
def behindType (start : Location) (span : Span) (n : Nat) :
    Except Diagnostic (Option TypeDeclaration) → Parser (Outcome (List TypeDeclaration × Span))
  | .error d => return ⟨([], span), some d⟩
  | .ok found => do
    let more ← types start (← spanFrom start) n
    return { more with found := (found.toList ++ more.found.1, more.found.2) }

theorem behindType_run (start : Location) (span : Span) (n : Nat) (found : Option TypeDeclaration) :
    behindType start span n (.ok found) c s = (types start (s.spanFrom c start) n >>= fun more =>
      pure ⟨(found.toList ++ more.found.1, more.found.2), more.stopped⟩) c s := by
  rw [behindType, bind_run_ok (spanFrom_run start)]

section Types

variable {start : Location} {span : Span} (n : Nat)

theorem types_run_end (h : kindOf s.rest = .endOfInput) :
    types start span (n + 1) c s = .ok ⟨([], span), none⟩ s := by
  rw [types, bind_run_ok atEnd_run, decide_eq_true h]
  rfl

theorem types_run_semicolon (h : kindOf s.rest = .mark .semicolon) :
    types start span (n + 1) c s = types start span n c (s.skip 1) := by
  have hend : kindOf s.rest ≠ .endOfInput := by
    rw [h]
    nofun
  rw [types, bind_run_ok atEnd_run, decide_eq_false hend, if_neg Bool.false_ne_true,
    bind_run_ok (by rw [accept_run, if_pos h]), if_pos rfl]

theorem types_run_type (hend : kindOf s.rest ≠ .endOfInput)
    (hsemicolon : kindOf s.rest ≠ .mark .semicolon) :
    types start span (n + 1) c s = (attempt topLevelType >>= behindType start span n) c s := by
  rw [types, bind_run_ok atEnd_run, decide_eq_false hend, if_neg Bool.false_ne_true,
    bind_run_ok (by rw [accept_run, if_neg hsemicolon]), if_neg Bool.false_ne_true]
  exact congrFun (congrFun (congrArg _ (funext fun r => by cases r <;> rfl)) c) s

end Types

/-! ### Runs -/

/-- Findings are only added. -/
theorem Built.grows {p : Parser α} (h : Built (fun _ => True) p) (c : Settings) : Grows c p := by
  induction h with
  | pure a => exact grows_pure a
  | look f hrun hbudget =>
    intro s
    rw [hrun]
    exact List.prefix_refl _
  | read hbudget hf ih =>
    intro s
    rw [bind_run_ok read_run]
    exact ih c s
  | skip n hrun =>
    intro s
    rw [hrun]
    exact List.prefix_refl _
  | note e => exact fun s => List.prefix_refl _
  | stop f hrun hgoes hplace hbudget =>
    intro s
    rw [hrun]
    exact List.prefix_refl _
  | report f n hrun hgoes hplace hbudget =>
    intro s
    rw [hrun]
    exact grows_report _ (s.skip (n s))
  | bind hp hf ihp ihf => exact grows_bind ihp ihf
  | recover hp hresume ihp ihresume => exact grows_recover ihp ihresume

end JavaTree.Parser
