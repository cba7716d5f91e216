import JavaTree.Proofs.Parser.Budget
import JavaTree.Proofs.Widening.Caps

/-!
Reading with wider caps.

A reader that comes to a cap reports it or stops with that finding; up to there it does what it does
with a wider cap. So a run with the narrow caps is the run with the wide ones, or it has found that a
cap was reached, and that finding stays. The look ahead is the exception: it gives up at the cap without
a word. The readers that look ahead do the same on tokens whose types fit, and reading goes on only to
tokens that come later in the text, whose types fit as well.

    wide caps      a  b  c  d  e
    narrow caps    a  b  c  d  e        no cap was reached
    narrow caps    a  b  limit  x       one was, and says so
-/

namespace JavaTree.Parser

variable {α β : Type} {c : Settings} {wide : Limits} {s : State}

/-! ### Two runs -/

/-- Settings with other limits. -/
def Settings.withLimits (c : Settings) (limits : Limits) : Settings := { c with limits }

/-- Tokens whose types are recognised with the limits of the settings if they are with wider ones. -/
def Fits (c : Settings) (wide : Limits) (ts : List Token) : Prop :=
  TypesFit c.limits.excerptTokens wide.excerptTokens ts

/-- A run that has found that a cap was reached. -/
def HitsCap (r : EStateM.Result Diagnostic State α) : Prop :=
  ∃ d ∈ (final r).diagnostics ++ stopping r, d.isLimit = true

/-- A run from a state and another one. The first one goes forward and keeps what has been found, and
it is the second one unless it has found that a cap was reached. -/
structure WidensAt (s : State) (r r' : EStateM.Result Diagnostic State α) : Prop where
  forward : (final r).rest <:+ s.rest
  grows : s.diagnostics <+: (final r).diagnostics
  same : HitsCap r ∨ r = r'

/-- The first reader does what the second one does with wider limits, or it comes to a cap. -/
def Widens (c : Settings) (wide : Limits) (p q : Parser α) : Prop :=
  ∀ s, Fits c wide s.rest → WidensAt s (p c s) (q (c.withLimits wide) s)

/-- What has been found stays. -/
theorem HitsCap.of_ok {a : α} {r : EStateM.Result Diagnostic State β} (h : HitsCap (.ok a s))
    (hgrows : s.diagnostics <+: (final r).diagnostics) : HitsCap r := by
  obtain ⟨d, hd, hlimit⟩ := h
  rw [stopping, List.append_nil] at hd
  exact ⟨d, List.mem_append_left _ (hgrows.subset hd), hlimit⟩

theorem Widens.bind {p q : Parser α} {f g : α → Parser β} (h : Widens c wide p q)
    (hf : ∀ a, Widens c wide (f a) (g a)) : Widens c wide (p >>= f) (q >>= g) := by
  intro s hs
  obtain ⟨hforward, hgrows, hsame⟩ := h s hs
  rw [bind_run, bind_run]
  cases hrun : p c s with
  | error d s' =>
    rw [hrun] at hforward hgrows hsame
    exact ⟨hforward, hgrows, hsame.imp_right fun heq => by rw [← heq]⟩
  | ok a s' =>
    rw [hrun] at hforward hgrows hsame
    obtain ⟨hforward', hgrows', hsame'⟩ := hf a s' (hs.of_suffix hforward)
    refine ⟨hforward'.trans hforward, hgrows.trans hgrows', ?_⟩
    rcases hsame with hcap | heq
    · exact .inl (hcap.of_ok hgrows')
    · rw [← heq]
      exact hsame'

theorem Widens.ite {b : Prop} [Decidable b] {p p' q q' : Parser α} (hp : Widens c wide p p')
    (hq : Widens c wide q q') : Widens c wide (if b then p else q) (if b then p' else q') := by
  split
  · exact hp
  · exact hq

/-- A choice between two readers with one continuation. -/
theorem Widens.join {b : Prop} [Decidable b] {p p' q q' : Parser α} {k k' : α → Parser β}
    (hp : Widens c wide p p') (hq : Widens c wide q q') (hk : ∀ a, Widens c wide (k a) (k' a)) :
    Widens c wide (if b then p >>= k else q >>= k) (if b then p' >>= k' else q' >>= k') :=
  .ite (hp.bind hk) (hq.bind hk)

/-- A reader for which the limits make no difference. -/
theorem Widens.same {p : Parser α} (hforward : Forward c p) (hgrows : Grows c p)
    (h : ∀ s, p c s = p (c.withLimits wide) s) : Widens c wide p p :=
  fun s _ => ⟨hforward s, hgrows s, .inr (h s)⟩

theorem Widens.of_built {p : Parser α} (hp : Built (fun _ => True) p)
    (h : ∀ s, p c s = p (c.withLimits wide) s) : Widens c wide p p :=
  .same hp.forward (hp.grows c) h

theorem widens_pure (a : α) : Widens c wide (pure a) (pure a) := .of_built (.pure a) fun _ => rfl

theorem Widens.map {p q : Parser α} (h : Widens c wide p q) (f : α → β) :
    Widens c wide (f <$> p) (f <$> q) := by
  rw [← bind_pure_comp, ← bind_pure_comp]
  exact h.bind fun a => widens_pure (f a)

/-- A reader that looks at the limits. -/
theorem Widens.read {f g : Settings → Parser α} (h : Widens c wide (f c) (g (c.withLimits wide))) :
    Widens c wide (read >>= f) (MonadReader.read >>= g) := by
  intro s hs
  rw [bind_run_ok read_run, bind_run_ok read_run]
  exact h s hs

/-- A reader that looks ahead. -/
theorem Widens.ahead {f g : List Token → Parser α}
    (h : ∀ ts, Fits c wide ts → Widens c wide (f ts) (g ts)) :
    Widens c wide (rest >>= f) (rest >>= g) := by
  intro s hs
  rw [bind_run_ok rest_run, bind_run_ok rest_run]
  exact h s.rest hs s hs

theorem widens_report (d : Diagnostic) : Widens c wide (report d) (report d) :=
  .same (Keeps.forward fun _ => keeps_report d) (grows_report d) fun _ => by
    rw [report_run, report_run]
    rfl

/-- That a cap was reached is on record when it has been reported. -/
theorem hitsCap_report {d : Diagnostic} (hd : d.isLimit = true) : HitsCap (report d c s) := by
  have hmem : d ∈ (s.noted d).diagnostics := List.mem_append_right _ List.mem_cons_self
  rw [report_run, if_pos (Diagnostic.isRecoverable_of_isLimit hd)]
  split <;> exact ⟨d, List.mem_append_left _ hmem, hd⟩

theorem hitsCap_bind {p : Parser α} {f : α → Parser β} (hcap : HitsCap (p c s))
    (hgrows : ∀ a s', p c s = .ok a s' → s'.diagnostics <+: (final (f a c s')).diagnostics) :
    HitsCap ((p >>= f) c s) := by
  rw [bind_run]
  cases hrun : p c s with
  | error d s' => rwa [hrun] at hcap
  | ok a s' =>
    rw [hrun] at hcap
    exact hcap.of_ok (hgrows a s' hrun)

theorem Widens.recover {p q resume resume' : Parser α} (h : Widens c wide p q)
    (hresume : Widens c wide resume resume') :
    Widens c wide (recover p resume) (Parser.recover q resume') := by
  intro s hs
  obtain ⟨hforward, hgrows, hsame⟩ := h s hs
  rw [recover_run, recover_run]
  cases hrun : p c s with
  | ok a s' =>
    rw [hrun] at hforward hgrows hsame
    exact ⟨hforward, hgrows, hsame.imp_right fun heq => by rw [← heq]⟩
  | error d s' =>
    rw [hrun] at hforward hgrows hsame
    have hs' : Fits c wide s'.rest := hs.of_suffix hforward
    obtain ⟨hforward', hgrows', hsame'⟩ := (widens_report d).bind (fun _ => hresume) s' hs'
    refine ⟨hforward'.trans hforward, hgrows.trans hgrows', ?_⟩
    rcases hsame with ⟨e, he, hlimit⟩ | heq
    · left
      rcases List.mem_append.mp he with he | he
      · exact ⟨e, List.mem_append_left _ (hgrows'.subset he), hlimit⟩
      · rw [stopping, List.mem_singleton] at he
        subst he
        refine hitsCap_bind (hitsCap_report hlimit) fun _ t hreport => (hresume t ?_).grows
        rwa [rest_of_report hreport]
    · rw [← heq]
      exact hsame'

/-- An attempt of a reader that no cap stops. -/
theorem Widens.attempt {p q : Parser α} (h : Widens c wide p q) (hp : Persists c p) :
    Widens c wide (attempt p) (Parser.attempt q) := by
  intro s hs
  obtain ⟨hforward, hgrows, hsame⟩ := h s hs
  rw [attempt_run, attempt_run]
  cases hrun : p c s with
  | ok a s' =>
    rw [hrun] at hforward hgrows hsame
    exact ⟨hforward, hgrows, hsame.imp_right fun heq => by rw [← heq]⟩
  | error d s' =>
    rw [hrun] at hforward hgrows hsame
    refine ⟨hforward, hgrows, ?_⟩
    rcases hsame with ⟨e, he, hlimit⟩ | heq
    · rcases List.mem_append.mp he with he | he
      · exact .inl ⟨e, List.mem_append_left _ he, hlimit⟩
      · rw [stopping, List.mem_singleton] at he
        subst he
        have hstops := hp s e s' hrun
        rw [Diagnostic.isRecoverable_of_isLimit hlimit] at hstops
        cases hstops
    · rw [← heq]
      exact .inr rfl

/-- A reader that has always found that a cap was reached. -/
theorem Widens.capped {p q : Parser α} (hp : Built (fun _ => True) p) (h : ∀ s, HitsCap (p c s)) :
    Widens c wide p q :=
  fun s _ => ⟨hp.forward s, hp.grows c s, .inl (h s)⟩

/-! ### Steps -/

theorem widens_rest : Widens c wide rest rest := .of_built built_rest fun _ => rfl

theorem widens_steps : Widens c wide steps steps := .of_built built_steps fun _ => rfl

theorem widens_kind : Widens c wide kind kind := .of_built built_kind fun _ => rfl

theorem widens_secondKind : Widens c wide secondKind secondKind := .of_built built_secondKind fun _ => rfl

theorem widens_check (k : Kind) : Widens c wide (check k) (check k) := .of_built (built_check k) fun _ => rfl

theorem widens_peek : Widens c wide peek peek :=
  .of_built built_peek fun _ => by
    rw [peek_run, peek_run]
    rfl

theorem widens_here : Widens c wide here here := by
  refine .of_built (.look (fun c s => (s.next c).location) (fun _ _ => here_run) fun _ _ _ => rfl) fun _ => ?_
  rw [here_run, here_run]
  rfl

theorem widens_spanFrom (start : Location) : Widens c wide (spanFrom start) (spanFrom start) :=
  .of_built (built_spanFrom start) fun _ => by
    rw [spanFrom_run, spanFrom_run]
    rfl

theorem widens_skip (n : Nat) : Widens c wide (skip n) (skip n) := .of_built (built_skip n) fun _ => rfl

theorem widens_skipBy (rule : List Token → Nat) : Widens c wide (skipBy rule) (skipBy rule) :=
  .of_built (built_skipBy rule) fun _ => rfl

theorem widens_note (e : Event) : Widens c wide (note e) (note e) := .of_built (.note e) fun _ => rfl

theorem widens_unexpected (expected : String) :
    Widens c wide (unexpected expected) (unexpected expected) := by
  refine .of_built (.look (fun c s => mismatch c.faults expected (s.next c))
    (fun _ _ => unexpected_run expected) fun _ _ _ => rfl) fun _ => ?_
  rw [unexpected_run, unexpected_run]
  rfl

theorem widens_throw (d : Diagnostic) : Widens c wide (throw d : Parser α) (throw d) :=
  .same (fun _ => List.suffix_refl _) (fun _ => List.prefix_refl _) fun _ => rfl

theorem widens_fail (expected : String) :
    Widens c wide (fail expected : Parser α) (fail expected) :=
  .bind (widens_unexpected expected) fun d => widens_throw d

theorem widens_accept (k : Kind) : Widens c wide (accept k) (accept k) :=
  .bind (widens_check k) fun _ => .ite (.bind (widens_skip 1) fun _ => widens_pure true) (widens_pure false)

theorem widens_require (k : Kind) (expected : String) :
    Widens c wide (require k expected) (require k expected) :=
  .bind (widens_check k) fun _ => .ite (widens_skip 1) (widens_fail expected)

/-- A missing closing brace is reported. -/
theorem widens_close {expected : String} {k k' : Parser α} (hk : Widens c wide k k') : Widens c wide (do
    if !(← accept Mark.closeBrace) then
      report (← unexpected expected)
    k) (do
    if !(← accept Mark.closeBrace) then
      report (← unexpected expected)
    k') :=
  .bind (widens_accept _) fun _ =>
    .ite (.bind (widens_unexpected _) fun d => .bind (widens_report d) fun _ => hk) hk

/-- The last step of a node, which gives it its span. -/
theorem widens_spanned (start : Location) (make : Span → α) :
    Widens c wide (do return make (← spanFrom start)) (do return make (← spanFrom start)) :=
  .bind (widens_spanFrom start) fun _ => widens_pure _

/-- The token that ends a node, and the span of the node. -/
theorem widens_ended {k : Kind} {expected : String} (start : Location) (make : Span → α) :
    Widens c wide (do return make (← (do require k expected; spanFrom start)))
      (do return make (← (do require k expected; spanFrom start))) :=
  .bind (.bind (widens_require _ _) fun _ => widens_spanFrom start) fun _ => widens_pure _

/-! ### Names and types -/

theorem widens_identifier : Widens c wide identifier identifier :=
  .bind widens_peek fun _ => .ite (.bind (widens_skip 1) fun _ => widens_pure _) (widens_fail _)

theorem widens_qualifiedName : Widens c wide qualifiedName qualifiedName :=
  .bind widens_identifier fun _ => .bind widens_rest fun _ => .bind (widens_skip _) fun _ => widens_pure _

theorem widens_brackets : Widens c wide brackets brackets :=
  .bind widens_rest fun _ => .bind (widens_skip _) fun _ => widens_pure _

/-- A capture that ends at the cap. -/
theorem widens_overLong (n : Nat) (what : String) (cap : Nat) (q : Parser α) : Widens c wide (do
    skip n
    throw (.limitExceeded what cap (← here))) q := by
  refine .capped (.bind (built_skip n) fun _ => .bind built_here fun _ => built_throw rfl trivial) fun s => ?_
  rw [bind_run_ok (skip_run n), bind_run_ok here_run, throw_run]
  exact ⟨_, List.mem_append_right _ List.mem_cons_self, rfl⟩

section Limited

variable (hle : c.limits.Within wide)

include hle

theorem widens_angleText : Widens c wide angleText angleText := by
  refine .read (.bind widens_rest fun ahead => ?_)
  dsimp only
  by_cases hlong : (angleExtent c.limits.excerptTokens 0 ahead).2 = .overLong
  · rw [hlong]
    exact widens_overLong _ _ _ _
  · have hsame : angleExtent (c.withLimits wide).limits.excerptTokens 0 ahead =
        angleExtent c.limits.excerptTokens 0 ahead := angleExtent_widen hle.excerptTokens hlong
    rw [hsame]
    refine .bind (widens_skip _) fun _ => ?_
    cases hend : (angleExtent c.limits.excerptTokens 0 ahead).2 with
    | complete => exact widens_pure _
    | overLong => exact absurd hend hlong
    | unclosed | mismatched | invalid => exact widens_fail _

theorem widens_excerpt (rule : CaptureRule) (what : String) :
    Widens c wide (excerpt rule what) (excerpt rule what) := by
  refine .read (.bind widens_rest fun ahead => ?_)
  dsimp only
  by_cases hlong : (extent rule c.limits.excerptTokens [] none ahead).2 = .overLong
  · rw [hlong]
    exact widens_overLong _ _ _ _
  · have hsame : extent rule (c.withLimits wide).limits.excerptTokens [] none ahead =
        extent rule c.limits.excerptTokens [] none ahead := extent_widen hle.excerptTokens hlong
    rw [hsame]
    refine .bind (widens_skip _) fun _ => ?_
    cases hend : (extent rule c.limits.excerptTokens [] none ahead).2 with
    | complete => exact .ite (widens_fail _) (widens_pure _)
    | overLong => exact absurd hend hlong
    | unclosed | mismatched | invalid => exact widens_fail _

theorem widens_typeParameters : Widens c wide typeParameters typeParameters :=
  .bind (widens_check _) fun _ =>
    .ite (.bind (widens_angleText hle) fun _ => widens_pure _) (widens_pure none)

theorem widens_typeName (known : String) (n : Nat) : Widens c wide (typeName known n) (typeName known n) := by
  induction n generalizing known with
  | zero => exact widens_pure known
  | succ n ih =>
    refine .bind (widens_check _) fun _ => ?_
    simp only [← bind_assoc]
    refine .join (.bind (widens_angleText hle) fun _ => widens_pure _) (widens_pure known) fun named => ?_
    refine .bind widens_rest fun _ => .ite ?_ (widens_pure named)
    exact .bind (.bind (widens_skip 1) fun _ => widens_identifier) fun _ => ih _

theorem widens_typeUse : Widens c wide typeUse typeUse := by
  have hend (start : Location) (name : String) : Widens c wide (do
      let n ← brackets
      return (⟨name, n, ← spanFrom start⟩ : TypeUse)) (do
      let n ← brackets
      return (⟨name, n, ← spanFrom start⟩ : TypeUse)) :=
    .bind widens_brackets fun _ => widens_spanned start _
  refine .bind widens_here fun start => .bind widens_peek fun first => ?_
  refine .ite ?_ (.ite ?_ ?_)
  · exact .bind (widens_skip 1) fun _ => hend start _
  · refine .bind widens_identifier fun _ => .bind widens_steps fun _ => ?_
    exact .bind (widens_typeName hle _ _) fun _ => hend start _
  · exact .bind (widens_fail _) fun _ => hend start _

theorem widens_moreTypes (n : Nat) : Widens c wide (moreTypes n) (moreTypes n) := by
  induction n with
  | zero => exact widens_pure []
  | succ n ih =>
    refine .bind (widens_accept _) fun _ => .ite ?_ (widens_pure [])
    exact .bind (widens_typeUse hle) fun _ => .bind ih fun _ => widens_pure _

theorem widens_typeList : Widens c wide typeList typeList :=
  .bind (widens_typeUse hle) fun _ => .bind widens_steps fun _ =>
    .bind (widens_moreTypes hle _) fun _ => widens_pure _

theorem widens_typesAfter (k : Keyword) : Widens c wide (typesAfter k) (typesAfter k) :=
  .bind (widens_accept _) fun _ => .ite (widens_typeList hle) (widens_pure [])

theorem widens_returnType : Widens c wide returnType returnType :=
  .bind widens_here fun _ => .bind (widens_accept _) fun _ => .ite (widens_pure _) (widens_typeUse hle)

/-! ### Excerpts, annotations and variables -/

theorem widens_someExcerpt (rule : CaptureRule) (what : String) :
    Widens c wide (do return some (← excerpt rule what)) (do return some (← excerpt rule what)) :=
  .bind (widens_excerpt hle _ _) fun _ => widens_pure _

theorem widens_parenthesized (what : String) : Widens c wide (parenthesized what) (parenthesized what) :=
  .bind (widens_require _ _) fun _ => .bind (widens_excerpt hle _ _) fun _ =>
    .bind (widens_require _ _) fun _ => widens_pure _

theorem widens_arguments (what : String) : Widens c wide (arguments what) (arguments what) := by
  refine .bind (widens_require _ _) fun _ => .bind (widens_check _) fun _ => ?_
  exact .join (widens_pure _) (widens_excerpt hle _ _) fun _ =>
    .bind (widens_require _ _) fun _ => widens_pure _

theorem widens_optionalArguments (what : String) :
    Widens c wide (optionalArguments what) (optionalArguments what) :=
  .bind (widens_check _) fun _ =>
    .ite (.bind (widens_arguments hle what) fun _ => widens_pure _) (widens_pure none)

theorem widens_annotationUse : Widens c wide annotationUse annotationUse :=
  .bind widens_here fun start => .bind (widens_require _ _) fun _ => .bind widens_qualifiedName fun _ =>
    .bind (widens_optionalArguments hle _) fun _ => widens_spanned start _

theorem widens_annotations (n : Nat) : Widens c wide (annotations n) (annotations n) := by
  induction n with
  | zero => exact widens_pure []
  | succ n ih =>
    refine .bind widens_rest fun _ => .ite ?_ (widens_pure [])
    exact .bind (widens_annotationUse hle) fun _ => .bind ih fun _ => widens_pure _

theorem widens_qualifiers (found : Qualifiers) (n : Nat) :
    Widens c wide (qualifiers found n) (qualifiers found n) := by
  induction n generalizing found with
  | zero => exact widens_pure found
  | succ n ih =>
    refine .bind widens_rest fun _ => .ite (.bind (widens_annotationUse hle) fun _ => ih _) ?_
    refine .bind widens_kind fun _ => ?_
    split
    · exact widens_pure found
    · refine .bind widens_secondKind fun _ => .ite (widens_pure found) ?_
      exact .bind (widens_skip 1) fun _ => ih _

theorem widens_allQualifiers : Widens c wide allQualifiers allQualifiers :=
  .bind widens_steps fun _ => widens_qualifiers hle _ _

theorem widens_declarator : Widens c wide declarator declarator := by
  refine .bind widens_here fun start => .bind widens_identifier fun _ => .bind widens_brackets fun _ => ?_
  refine .bind (widens_accept _) fun _ => ?_
  simp only [← bind_assoc]
  exact .join (widens_someExcerpt hle _ _) (widens_pure _) fun _ => widens_spanned start _

theorem widens_declaratorList (n : Nat) : Widens c wide (declaratorList n) (declaratorList n) := by
  induction n with
  | zero => exact widens_pure []
  | succ n ih =>
    refine .bind (widens_declarator hle) fun _ => .bind (widens_accept _) fun _ => .ite ?_ (widens_pure _)
    exact .bind ih fun _ => widens_pure _

theorem widens_declarators : Widens c wide declarators declarators :=
  .bind widens_steps fun _ => .bind (widens_declaratorList hle _) fun _ =>
    .bind (widens_require _ _) fun _ => widens_pure _

theorem widens_fields (start : Location) (q : Qualifiers) :
    Widens c wide (fields start q) (fields start q) :=
  .bind (widens_typeUse hle) fun _ => .bind (widens_declarators hle) fun _ =>
    .bind (widens_spanFrom start) fun _ => widens_pure _

/-! ### Constructs that are left out -/

omit hle in
theorem widens_skipType (construct : String) : Widens c wide (skipType construct) (skipType construct) :=
  .bind widens_here fun _ => .bind (widens_skipBy _) fun _ => widens_report _

omit hle in
theorem widens_skipGroup (opener : Mark) : Widens c wide (skipGroup opener) (skipGroup opener) :=
  .bind (widens_check _) fun _ => .ite (widens_skipBy _) (widens_pure _)

omit hle in
theorem widens_skipCatches (n : Nat) : Widens c wide (skipCatches n) (skipCatches n) := by
  induction n with
  | zero => exact widens_pure _
  | succ n ih =>
    refine .bind (widens_accept _) fun _ => .ite ?_ (widens_pure _)
    exact .bind (widens_skipGroup _) fun _ => .bind (widens_skipGroup _) fun _ => ih

omit hle in
theorem widens_skipTryWithResources : Widens c wide skipTryWithResources skipTryWithResources := by
  refine .bind widens_here fun _ => .bind (widens_skip 1) fun _ => .bind (widens_skipBy _) fun _ => ?_
  refine .bind (widens_skipGroup _) fun _ => .bind widens_steps fun _ => ?_
  refine .bind (widens_skipCatches _) fun _ => .bind (widens_accept _) fun _ => ?_
  exact .ite (.bind (widens_skipGroup _) fun _ => widens_report _) (widens_report _)

end Limited

end JavaTree.Parser
