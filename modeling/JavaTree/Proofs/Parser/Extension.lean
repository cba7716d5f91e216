import JavaTree.Proofs.Parser.Built
import JavaTree.Proofs.Parser.Fence
import JavaTree.Proofs.Parser.Loops

/-!
Reading a text that goes on.

A run without findings that ends before a fence is the same run when there are more tokens behind the
ones that it is given. Such a reader is `Steady`: whatever it looks at lies before the fence, and what
it would do at the end of the text plays no part. A reader that ends with a fence of its own is
`Sealed`, and needs no other one behind it. A reader that never has a result without a finding is
`Loud`; there is nothing to show of it.

    class A { int x ; }     class B ...
              steady  sealed
-/

namespace JavaTree.Parser

variable {α β : Type} {c : Settings} {s : State} {l : Location} {more : List Token}

/-- Reading goes forward. -/
theorem Built.forward {p : Parser α} (h : Built (fun _ => True) p) : Forward c p := by
  have hkeeps (ts : List Token) : Keeps ts c (fun _ => True) p := by
    induction h with
    | pure a => exact keeps_pure trivial
    | look f hrun hbudget =>
      intro s hs
      rw [hrun]
      exact ⟨hs, fun _ _ _ => trivial⟩
    | read hbudget hf ih => exact keeps_bind keeps_read fun c _ => ih c
    | skip n hrun =>
      intro s hs
      rw [hrun]
      exact ⟨(List.drop_suffix _ _).trans hs, fun _ _ _ => trivial⟩
    | note e => exact keeps_note e
    | stop f hrun hgoes hplace hbudget =>
      intro s hs
      rw [hrun]
      exact ⟨hs, nofun⟩
    | report f n hrun hgoes hplace hbudget =>
      intro s hs
      rw [hrun]
      exact keeps_report _ (s.skip (n s)) ((List.drop_suffix _ _).trans hs)
    | bind hp hf ihp ihf => exact keeps_bind ihp fun a _ => ihf a
    | recover hp hresume ihp ihresume => exact keeps_recover ihp ihresume
  exact Keeps.forward hkeeps

/-- The parts of a run without findings are without findings. -/
theorem Built.quiet_bind {p : Parser α} {f : α → Parser β} (hp : Built (fun _ => True) p)
    (hf : ∀ a, Built (fun _ => True) (f a)) {b : β} {s' : State} (hrun : (p >>= f) c s = .ok b s')
    (hquiet : s'.diagnostics = s.diagnostics) :
    ∃ a t, p c s = .ok a t ∧ t.diagnostics = s.diagnostics ∧ f a c t = .ok b s' ∧
      s'.diagnostics = t.diagnostics := by
  obtain ⟨a, t, hfirst, hsecond⟩ := bind_eq_ok.mp hrun
  have hleft := hp.grows c s
  have hright := (hf a).grows c t
  rw [hfirst] at hleft
  rw [hsecond] at hright
  have heq : t.diagnostics = s.diagnostics :=
    (hleft.eq_of_length_le ((hquiet ▸ hright).length_le)).symm
  exact ⟨a, t, hfirst, heq, hsecond, hquiet.trans heq.symm⟩

/-! ### Longer texts -/

/-- The settings for a text that ends at another place. -/
def Settings.endingAt (c : Settings) (l : Location) : Settings := { c with stop := l }

/-- A state with more tokens behind the ones that are left. -/
def State.followedBy (s : State) (more : List Token) : State := { s with rest := s.rest ++ more }

@[simp] theorem followedBy_rest : (s.followedBy more).rest = s.rest ++ more := rfl

theorem followedBy_next (h : s.rest ≠ []) (c' : Settings) : (s.followedBy more).next c' = s.next c := by
  rcases s with ⟨_ | ⟨t, ts⟩, last, ds, es⟩
  · exact absurd rfl h
  · rfl

theorem followedBy_skip {n : Nat} (h : n ≤ s.rest.length) :
    (s.followedBy more).skip n = (s.skip n).followedBy more := by
  simp only [State.skip, State.followedBy, List.drop_append_of_le_length h,
    List.take_append_of_le_length h]

theorem followedBy_spanFrom (h : Fenced s.rest) (c' : Settings) (start : Location) :
    (s.followedBy more).spanFrom c' start = s.spanFrom c start := by
  rw [State.spanFrom, State.spanFrom, followedBy_next (c := c) h.ne_nil c']
  rfl

theorem last_skip (h : s.rest ≠ []) : (s.skip 1).last.isSome = true := by
  rcases s with ⟨_ | ⟨t, ts⟩, last, ds, es⟩
  · exact absurd rfl h
  · rfl

/-! ### Readers with findings -/

/-- A reader that has no result without a finding. -/
structure Loud (c : Settings) (p : Parser α) : Prop where
  built : Built (fun _ => True) p
  loud : ∀ ⦃s a s'⦄, p c s = .ok a s' → s'.diagnostics ≠ s.diagnostics

theorem diagnostics_of_report {d : Diagnostic} {u : Unit} {s' : State} (h : report d c s = .ok u s') :
    s'.diagnostics = s.diagnostics ++ [d] := by
  rw [report_run] at h
  split at h
  · split at h <;> cases h
    rfl
  · cases h

theorem loud_report {d : Diagnostic} (hd : d.isRecoverable = true) : Loud c (report d) := by
  refine ⟨built_report hd trivial, fun s a s' hrun hquiet => ?_⟩
  rw [diagnostics_of_report hrun] at hquiet
  simp at hquiet

theorem Loud.bind {p : Parser α} {f : α → Parser β} (hp : Built (fun _ => True) p)
    (hf : ∀ a, Loud c (f a)) : Loud c (p >>= f) := by
  refine ⟨hp.bind fun a => (hf a).built, fun s b s' hrun hquiet => ?_⟩
  obtain ⟨a, t, -, -, hsecond, hquiet'⟩ := hp.quiet_bind (fun a => (hf a).built) hrun hquiet
  exact (hf a).loud hsecond hquiet'

theorem Loud.andThen {p : Parser α} {f : α → Parser β} (hp : Loud c p)
    (hf : ∀ a, Built (fun _ => True) (f a)) : Loud c (p >>= f) := by
  refine ⟨hp.built.bind hf, fun s b s' hrun hquiet => ?_⟩
  obtain ⟨a, t, hfirst, hquiet', -, -⟩ := hp.built.quiet_bind hf hrun hquiet
  exact hp.loud hfirst hquiet'

theorem loud_here {f : Location → Parser α} (h : ∀ l, Loud c (f l)) : Loud c (here >>= f) := by
  refine ⟨.bind built_here fun l => (h l).built, fun s a s' hrun => ?_⟩
  rw [bind_run_ok here_run] at hrun
  exact (h _).loud hrun

/-- The report of what was expected here. -/
theorem loud_reportUnexpected (expected : String) {f : Unit → Parser α}
    (hf : Built (fun _ => True) (f ())) :
    Loud c (unexpected expected >>= fun d => report d >>= f) := by
  refine ⟨built_reportUnexpected expected hf, fun s a s' hrun hquiet => ?_⟩
  rw [bind_run_ok (unexpected_run expected)] at hrun
  exact ((loud_report (isRecoverable_mismatch _ _ _)).andThen fun _ => hf).loud hrun hquiet

theorem LeavesOut.loud {construct : String} {p : Parser Unit} (h : LeavesOut construct p) : Loud c p := by
  refine ⟨h.built, fun s a s' hrun => ?_⟩
  obtain ⟨n, h⟩ := h
  rw [h] at hrun
  have hfound := (loud_report rfl).loud hrun
  rwa [skip_diagnostics] at hfound

theorem loud_skipType (construct : String) : Loud c (skipType construct) :=
  (leavesOut_skipType construct).loud

theorem loud_skipTryWithResources : Loud c skipTryWithResources :=
  leavesOut_skipTryWithResources.loud

/-! ### Steady readers -/

/-- A run of the first reader without findings that ends before a fence is a run of the second one on a
text that goes on. -/
def SteadyAt (c : Settings) (l : Location) (more : List Token) (s : State) (p q : Parser α) : Prop :=
  ∀ ⦃a s'⦄, p c s = .ok a s' → s'.diagnostics = s.diagnostics → Fenced s'.rest →
    q (c.endingAt l) (s.followedBy more) = .ok a (s'.followedBy more)

/-- Runs of the first reader are runs of the second one on a text that goes on. -/
structure Steady (c : Settings) (l : Location) (more : List Token) (p q : Parser α) : Prop where
  built : Built (fun _ => True) p
  same : ∀ ⦃s⦄, SteadyAt c l more s p q

theorem Loud.steady {p : Parser α} (h : Loud c p) (q : Parser α) : Steady c l more p q :=
  ⟨h.built, fun _ _ _ hrun hquiet => absurd hquiet (h.loud hrun)⟩

theorem steady_pure (a : α) : Steady c l more (pure a) (pure a) := by
  refine ⟨.pure a, fun s b s' hrun _ _ => ?_⟩
  cases hrun
  rfl

theorem steady_bind {p q : Parser α} {f g : α → Parser β} (hp : Steady c l more p q)
    (hf : ∀ a, Steady c l more (f a) (g a)) : Steady c l more (p >>= f) (q >>= g) := by
  refine ⟨hp.built.bind fun a => (hf a).built, fun s b s' hrun hquiet hfence => ?_⟩
  obtain ⟨a, t, hfirst, hquiet₁, hsecond, hquiet₂⟩ :=
    hp.built.quiet_bind (fun a => (hf a).built) hrun hquiet
  have ht : Fenced t.rest := hfence.of_suffix ((hf a).built.forward.suffix hsecond)
  rw [bind_run_ok (hp.same hfirst hquiet₁ ht)]
  exact (hf a).same hsecond hquiet₂ hfence

theorem steady_ite {b : Prop} [Decidable b] {p q p' q' : Parser α} (hp : Steady c l more p p')
    (hq : Steady c l more q q') : Steady c l more (if b then p else q) (if b then p' else q') := by
  split
  · exact hp
  · exact hq

/-- A choice between two readers with one continuation. -/
theorem steady_join {b : Prop} [Decidable b] {p q : Parser α} {k : α → Parser β}
    (hp : Steady c l more p p) (hq : Steady c l more q q) (hk : ∀ a, Steady c l more (k a) (k a)) :
    Steady c l more (if b then p >>= k else q >>= k) (if b then p >>= k else q >>= k) :=
  steady_ite (steady_bind hp hk) (steady_bind hq hk)

theorem steady_map {p q : Parser α} (hp : Steady c l more p q) (f : α → β) :
    Steady c l more (f <$> p) (f <$> q) := by
  rw [← bind_pure_comp, ← bind_pure_comp]
  exact steady_bind hp fun a => steady_pure (f a)

/-- A look at what lies before the fence. -/
theorem steady_look {p : Parser α} (f : Settings → State → α) (hbuilt : Built (fun _ => True) p)
    (hrun : ∀ c s, p c s = .ok (f c s) s)
    (hsame : ∀ s, Fenced s.rest → f (c.endingAt l) (s.followedBy more) = f c s) :
    Steady c l more p p := by
  refine ⟨hbuilt, fun s a s' h _ hfence => ?_⟩
  rw [hrun] at h
  cases h
  rw [hrun, hsame s hfence]

theorem steady_kind : Steady c l more kind kind :=
  steady_look (fun _ s => kindOf s.rest) built_kind (fun _ _ => kind_run) fun _ h => h.kindOf_append more

theorem steady_check (k : Kind) : Steady c l more (check k) (check k) :=
  steady_look (fun _ s => decide (kindOf s.rest = k)) (built_check k) (fun _ _ => check_run k)
    fun s h => by simp only [followedBy_rest, h.kindOf_append more]

theorem steady_peek : Steady c l more peek peek :=
  steady_look (fun c s => s.next c) built_peek (fun _ _ => peek_run) fun _ h => followedBy_next h.ne_nil _

theorem steady_spanFrom (start : Location) : Steady c l more (spanFrom start) (spanFrom start) :=
  steady_look (fun c s => s.spanFrom c start) (built_spanFrom start) (fun _ _ => spanFrom_run start)
    fun _ h => followedBy_spanFrom h _ start

theorem steady_here {f g : Location → Parser α} (h : ∀ l', Steady c l more (f l') (g l')) :
    Steady c l more (here >>= f) (here >>= g) := by
  refine ⟨.bind built_here fun l => (h l).built, fun s a s' hrun hquiet hfence => ?_⟩
  rw [bind_run_ok here_run] at hrun ⊢
  have hs : Fenced s.rest := hfence.of_suffix ((h _).built.forward.suffix hrun)
  rw [followedBy_next hs.ne_nil]
  exact (h _).same hrun hquiet hfence

/-- A look at the settings other than the place where the text ends. -/
theorem steady_read {f : Settings → Parser α} (hbudget : ∀ c b, f { c with budget := b } = f c)
    (hstop : f (c.endingAt l) = f c) (h : ∀ c', Steady c l more (f c') (f c')) :
    Steady c l more (read >>= f) (read >>= f) := by
  refine ⟨.read hbudget fun c => (h c).built, fun s a s' hrun hquiet hfence => ?_⟩
  rw [bind_run_ok read_run] at hrun ⊢
  rw [hstop]
  exact (h c).same hrun hquiet hfence

/-- A look ahead that is decided before the fence. -/
theorem steady_rest {f : List Token → Parser α} (h : ∀ ts, Steady c l more (f ts) (f ts))
    (hsame : ∀ ts, Fenced ts → f (ts ++ more) = f ts) :
    Steady c l more (rest >>= f) (rest >>= f) := by
  refine ⟨built_rest.bind fun ts => (h ts).built, fun s a s' hrun hquiet hfence => ?_⟩
  rw [bind_run_ok rest_run] at hrun ⊢
  have hs : Fenced s.rest := hfence.of_suffix ((h _).built.forward.suffix hrun)
  rw [followedBy_rest, hsame _ hs]
  exact (h _).same hrun hquiet hfence

/-- A test of the tokens ahead that is decided before the fence. -/
theorem steady_test {test : List Token → Bool} {p q : Parser α}
    (htest : ∀ ts, Fenced ts → test (ts ++ more) = test ts) (hp : Steady c l more p p)
    (hq : Steady c l more q q) :
    Steady c l more (rest >>= fun ts => if test ts then p else q)
      (rest >>= fun ts => if test ts then p else q) :=
  steady_rest (fun _ => steady_ite hp hq) fun ts hts => by rw [htest ts hts]

/-- A look at the kind of the next token, and what it leads to. -/
theorem steady_kindThen {f : Kind → Parser α} (hbuilt : ∀ k, Built (fun _ => True) (f k))
    (h : ∀ s, Fenced s.rest → SteadyAt c l more s (f (kindOf s.rest)) (f (kindOf s.rest))) :
    Steady c l more (kind >>= f) (kind >>= f) := by
  refine ⟨built_kind.bind hbuilt, fun s a s' hrun hquiet hfence => ?_⟩
  rw [bind_run_ok kind_run] at hrun ⊢
  have hs : Fenced s.rest := hfence.of_suffix ((hbuilt _).forward.suffix hrun)
  rw [followedBy_rest, hs.kindOf_append more]
  exact h s hs hrun hquiet hfence

/-- A look at the token behind one that is no fence. -/
theorem steadyAt_secondKind {f : Kind → Parser α} (h : ∀ k, Steady c l more (f k) (f k))
    (hs : Fenced s.rest) (hk : isFence (kindOf s.rest) = false) :
    SteadyAt c l more s (secondKind >>= f) (secondKind >>= f) := by
  intro a s' hrun hquiet hfence
  rw [bind_run_ok secondKind_run] at hrun ⊢
  rw [followedBy_rest, hs.kindOf_drop_append more hk]
  exact (h _).same hrun hquiet hfence

/-- Looks at the next two tokens. At a fence, the second one does not matter. -/
theorem steady_kinds {f : Kind → Kind → Parser α} (h : ∀ k k', Steady c l more (f k k') (f k k'))
    (hfence : ∀ k k₁ k₂, isFence k = true → f k k₁ = f k k₂) :
    Steady c l more (kind >>= fun k => secondKind >>= fun k' => f k k')
      (kind >>= fun k => secondKind >>= fun k' => f k k') := by
  refine steady_kindThen (fun k => built_secondKind.bind fun k' => (h k k').built) fun s hs => ?_
  cases hk : isFence (kindOf s.rest) with
  | false => exact steadyAt_secondKind (h _) hs hk
  | true =>
    intro a s' hrun hquiet hfenced
    rw [bind_run_ok secondKind_run] at hrun ⊢
    rw [hfence _ _ (kindOf (s.rest.drop 1)) hk]
    exact (h _ _).same hrun hquiet hfenced

theorem steady_skip (n : Nat) : Steady c l more (skip n) (skip n) := by
  refine ⟨built_skip n, fun s a s' hrun _ hfence => ?_⟩
  cases hrun
  rw [skip_run, followedBy_skip (Nat.le_of_lt hfence.lt_length)]

theorem steady_note (e : Event) : Steady c l more (note e) (note e) := by
  refine ⟨.note e, fun s a s' hrun _ _ => ?_⟩
  cases hrun
  rfl

theorem steady_fail (expected : String) (q : Parser α) : Steady c l more (fail expected) q := by
  refine ⟨built_fail expected, fun s a s' hrun => ?_⟩
  rw [fail_run] at hrun
  cases hrun

theorem steady_throw {d : Diagnostic} (hd : d.isRecoverable = true) (q : Parser α) :
    Steady c l more (throw d) q :=
  ⟨built_throw hd trivial, fun _ _ _ hrun => by cases hrun⟩

theorem steady_accept (k : Kind) : Steady c l more (accept k) (accept k) :=
  steady_bind (steady_check k) fun _ =>
    steady_ite (steady_bind (steady_skip 1) fun _ => steady_pure true) (steady_pure false)

theorem steady_require (k : Kind) (expected : String) :
    Steady c l more (require k expected) (require k expected) :=
  steady_bind (steady_check k) fun _ => steady_ite (steady_skip 1) (steady_fail expected _)

/-- A run without findings that recovers has nothing to recover from. -/
theorem quiet_recover {p resume : Parser α} (hp : Built (fun _ => True) p)
    (hresume : Built (fun _ => True) resume) {a : α} {s' : State}
    (hrun : recover p resume c s = .ok a s') (hquiet : s'.diagnostics = s.diagnostics) :
    p c s = .ok a s' := by
  rcases recover_eq_ok.mp hrun with hfirst | ⟨d, t, hstop, hlast⟩
  · exact hfirst
  · obtain ⟨_, u, hreport, hlast⟩ := bind_eq_ok.mp hlast
    have hbefore := hp.grows c s
    have hafter := hresume.grows c u
    rw [hstop] at hbefore
    rw [hlast, diagnostics_of_report hreport] at hafter
    have hlengths := hbefore.length_le.trans_lt
      ((Nat.lt_succ_self _).trans_le (List.length_append ▸ hafter.length_le))
    exact absurd (congrArg List.length hquiet) (Nat.ne_of_gt hlengths)

theorem steady_recover {p q resume : Parser α} (hp : Steady c l more p q)
    (hresume : Built (fun _ => True) resume) (resume' : Parser α) :
    Steady c l more (recover p resume) (recover q resume') := by
  refine ⟨.recover hp.built hresume, fun s a s' hrun hquiet hfence => ?_⟩
  rw [recover_run, hp.same (quiet_recover hp.built hresume hrun hquiet) hquiet hfence]

/-- A number of steps that is only compared with later ones. -/
theorem steady_before {f g : Nat → Parser α} (h : ∀ m n, Steady c l more (f m) (g n)) :
    Steady c l more (steps >>= f) (steps >>= g) := by
  refine ⟨built_steps.bind fun n => (h n n).built, fun s a s' hrun hquiet hfence => ?_⟩
  rw [bind_run_ok steps_run] at hrun ⊢
  exact (h _ _).same hrun hquiet hfence

/-- A number of steps for a loop that ends before they do. -/
theorem steady_steps {f : Nat → Parser α} (h : ∀ n, Steady c l more (f n) (f n))
    (hfuel : ∀ ⦃s : State⦄ ⦃m n⦄, s.rest.length < m → s.rest.length < n → f m c s = f n c s) :
    Steady c l more (steps >>= f) (steps >>= f) := by
  refine ⟨built_steps.bind fun n => (h n).built, fun s a s' hrun hquiet hfence => ?_⟩
  rw [bind_run_ok steps_run] at hrun ⊢
  have hlt : s.rest.length < (s.followedBy more).rest.length + 1 := by
    simp only [followedBy_rest, List.length_append]
    omega
  rw [hfuel (Nat.lt_succ_self _) hlt] at hrun
  exact (h _).same hrun hquiet hfence

/-- A loop and what follows it, with a number of steps that does not matter. -/
theorem steady_loop {ι : Type} {L : Loop ι α} (hL : L.Advances) (i : ι) {f : α → Parser β}
    (h : ∀ n, Steady c l more (L.run n i) (L.run n i)) (hf : ∀ a, Steady c l more (f a) (f a)) :
    Steady c l more (steps >>= fun n => L.run n i >>= f) (steps >>= fun n => L.run n i >>= f) :=
  steady_steps (fun n => steady_bind (h n) hf) fun s m n hm hn => by
    rw [bind_run, bind_run, hL.run_eq hm hn]

/-- The last step of a node, which gives it its span. -/
theorem steady_spanned (start : Location) (make : Span → α) :
    Steady c l more (do return make (← spanFrom start)) (do return make (← spanFrom start)) :=
  steady_bind (steady_spanFrom start) fun _ => steady_pure _

/-- The token that ends a node, and the span of the node. -/
theorem steady_ended {k : Kind} {expected : String} (start : Location) (make : Span → α) :
    Steady c l more (do return make (← (do require k expected; spanFrom start)))
      (do return make (← (do require k expected; spanFrom start))) :=
  steady_bind (steady_bind (steady_require _ _) fun _ => steady_spanFrom start) fun _ => steady_pure _

/-- A missing closing brace is reported. -/
theorem steady_close {expected : String} {k : Parser α} (hk : Steady c l more k k) :
    Steady c l more (do
      if !(← accept Mark.closeBrace) then
        report (← unexpected expected)
      k) (do
      if !(← accept Mark.closeBrace) then
        report (← unexpected expected)
      k) :=
  steady_bind (steady_accept _) fun _ =>
    steady_ite ((loud_reportUnexpected _ hk.built).steady _) hk

/-! ### Names and types -/

theorem steady_identifier : Steady c l more identifier identifier :=
  steady_bind steady_peek fun _ =>
    steady_ite (steady_bind (steady_skip 1) fun _ => steady_pure _) (steady_fail _ _)

theorem steady_qualifiedName : Steady c l more qualifiedName qualifiedName :=
  steady_bind steady_identifier fun _ => steady_rest
    (fun _ => steady_bind (steady_skip _) fun _ => steady_pure _)
    fun _ hts => by simp only [furtherNames_append more hts]

theorem steady_brackets : Steady c l more brackets brackets :=
  steady_rest (fun _ => steady_bind (steady_skip _) fun _ => steady_pure _)
    fun _ hts => by simp only [dimensions_append more hts]

theorem steady_angleText : Steady c l more angleText angleText := by
  refine ⟨built_angleText, fun s a s' hrun _ hfence => ?_⟩
  obtain ⟨n, hx, rfl, rfl⟩ := angleText_eq_ok hrun
  have hn : n ≤ s.rest.length := Nat.le_of_lt hfence.lt_length
  rw [angleText_run]
  simp only [followedBy_rest, Settings.endingAt, angleExtent_append more hx, followedBy_skip hn,
    List.take_append_of_le_length hn]

theorem steady_typeParameters : Steady c l more typeParameters typeParameters :=
  steady_bind (steady_check _) fun _ =>
    steady_ite (steady_bind steady_angleText fun _ => steady_pure _) (steady_pure none)

theorem steady_typeName (known : String) (n : Nat) :
    Steady c l more (typeName known n) (typeName known n) := by
  induction n generalizing known with
  | zero => exact steady_pure known
  | succ n ih =>
    refine steady_bind (steady_check _) fun _ => ?_
    simp only [← bind_assoc]
    refine steady_join (steady_bind steady_angleText fun _ => steady_pure _) (steady_pure known)
      fun named => ?_
    refine steady_test (fun _ hts => startsWith_append more hts rfl) ?_ (steady_pure named)
    exact steady_bind (steady_bind (steady_skip 1) fun _ => steady_identifier) fun _ => ih _

theorem steady_typeUse : Steady c l more typeUse typeUse := by
  have hend (start : Location) (name : String) : Steady c l more (do
      let n ← brackets
      return (⟨name, n, ← spanFrom start⟩ : TypeUse)) (do
      let n ← brackets
      return (⟨name, n, ← spanFrom start⟩ : TypeUse)) :=
    steady_bind steady_brackets fun _ => steady_spanned start _
  refine steady_here fun start => steady_bind steady_peek fun first => ?_
  refine steady_ite ?_ (steady_ite ?_ ?_)
  · exact steady_bind (steady_skip 1) fun _ => hend start _
  · refine steady_bind steady_identifier fun name => ?_
    exact steady_loop advances_typeName name (steady_typeName name) fun _ => hend start _
  · exact steady_bind (steady_fail _ _) fun _ => hend start _

theorem steady_moreTypes (n : Nat) : Steady c l more (moreTypes n) (moreTypes n) := by
  induction n with
  | zero => exact steady_pure []
  | succ n ih =>
    refine steady_bind (steady_accept _) fun _ => steady_ite ?_ (steady_pure [])
    exact steady_bind steady_typeUse fun _ => steady_bind ih fun _ => steady_pure _

theorem steady_typeList : Steady c l more typeList typeList :=
  steady_bind steady_typeUse fun _ =>
    steady_loop advances_typeList () steady_moreTypes fun _ => steady_pure _

theorem steady_typesAfter (k : Keyword) : Steady c l more (typesAfter k) (typesAfter k) :=
  steady_bind (steady_accept _) fun _ => steady_ite steady_typeList (steady_pure [])

theorem steady_returnType : Steady c l more returnType returnType :=
  steady_here fun _ => steady_bind (steady_accept _) fun _ => steady_ite (steady_pure _) steady_typeUse

/-! ### Excerpts and annotations -/

theorem steady_excerpt (rule : CaptureRule) (what : String) :
    Steady c l more (excerpt rule what) (excerpt rule what) := by
  refine ⟨built_excerpt rule what, fun s a s' hrun _ hfence => ?_⟩
  obtain ⟨n, hn, hx, rfl, rfl⟩ := excerpt_eq_ok.mp hrun
  have hle : n ≤ s.rest.length := Nat.le_of_lt hfence.lt_length
  refine excerpt_eq_ok.mpr ⟨n, hn, extent_append more hx hfence, ?_, (followedBy_skip hle).symm⟩
  rw [followedBy_rest, List.take_append_of_le_length hle]

theorem steady_parenthesized (what : String) :
    Steady c l more (parenthesized what) (parenthesized what) :=
  steady_bind (steady_require _ _) fun _ => steady_bind (steady_excerpt _ _) fun _ =>
    steady_bind (steady_require _ _) fun _ => steady_pure _

theorem steady_arguments (what : String) : Steady c l more (arguments what) (arguments what) := by
  refine steady_bind (steady_require _ _) fun _ => steady_bind (steady_check _) fun _ => ?_
  exact steady_join (steady_pure _) (steady_excerpt _ _) fun _ =>
    steady_bind (steady_require _ _) fun _ => steady_pure _

theorem steady_optionalArguments (what : String) :
    Steady c l more (optionalArguments what) (optionalArguments what) :=
  steady_bind (steady_check _) fun _ =>
    steady_ite (steady_bind (steady_arguments what) fun _ => steady_pure _) (steady_pure none)

theorem steady_annotationUse : Steady c l more annotationUse annotationUse :=
  steady_here fun start => steady_bind (steady_require _ _) fun _ =>
    steady_bind steady_qualifiedName fun _ =>
      steady_bind (steady_optionalArguments _) fun _ => steady_spanned start _

theorem steady_annotations (n : Nat) : Steady c l more (annotations n) (annotations n) := by
  induction n with
  | zero => exact steady_pure []
  | succ n ih =>
    refine steady_test (fun _ hts => looksAnnotated_append more hts) ?_ (steady_pure [])
    exact steady_bind steady_annotationUse fun _ => steady_bind ih fun _ => steady_pure _

theorem isFence_of_modifier {k : Kind} {m : Modifier} (h : k.modifier? = some m) :
    isFence k = false := by
  unfold isFence
  split
  · cases h
  · cases h
  · rfl

theorem steady_qualifiers (found : Qualifiers) (n : Nat) :
    Steady c l more (qualifiers found n) (qualifiers found n) := by
  induction n generalizing found with
  | zero => exact steady_pure found
  | succ n ih =>
    refine steady_test (fun _ hts => looksAnnotated_append more hts)
      (steady_bind steady_annotationUse fun _ => ih _) ?_
    have hword (m : Modifier) (k : Kind) : Steady c l more
        (if m = .synchronized_ && k = Mark.openParen then pure found
        else skip 1 >>= fun _ => qualifiers { found with
          modifiers := if m ∈ found.modifiers then found.modifiers else found.modifiers ++ [m] } n)
        (if m = .synchronized_ && k = Mark.openParen then pure found
        else skip 1 >>= fun _ => qualifiers { found with
          modifiers := if m ∈ found.modifiers then found.modifiers else found.modifiers ++ [m] } n) :=
      steady_ite (steady_pure found) (steady_bind (steady_skip 1) fun _ => ih _)
    refine steady_kindThen (fun k => ?_) fun s hs => ?_
    · split
      · exact .pure found
      · exact built_secondKind.bind fun k' => (hword _ k').built
    · cases hm : (kindOf s.rest).modifier? with
      | none => exact fun _ _ hrun => (steady_pure found).same hrun
      | some m => exact steadyAt_secondKind (hword m) hs (isFence_of_modifier hm)

theorem steady_allQualifiers : Steady c l more allQualifiers allQualifiers :=
  steady_steps (fun n => steady_qualifiers _ n) fun _ _ _ hm hn => advances_qualifier.run_eq hm hn _

/-! ### Variables -/

theorem steady_someExcerpt (rule : CaptureRule) (what : String) :
    Steady c l more (do return some (← excerpt rule what)) (do return some (← excerpt rule what)) :=
  steady_bind (steady_excerpt _ _) fun _ => steady_pure _

theorem steady_declarator : Steady c l more declarator declarator := by
  refine steady_here fun start => steady_bind steady_identifier fun _ => ?_
  refine steady_bind steady_brackets fun _ => steady_bind (steady_accept _) fun _ => ?_
  simp only [← bind_assoc]
  exact steady_join (steady_someExcerpt _ _) (steady_pure _) fun _ => steady_spanned start _

theorem steady_declaratorList (n : Nat) :
    Steady c l more (declaratorList n) (declaratorList n) := by
  induction n with
  | zero => exact steady_pure []
  | succ n ih =>
    refine steady_bind steady_declarator fun _ => steady_bind (steady_accept _) fun _ => ?_
    exact steady_ite (steady_bind ih fun _ => steady_pure _) (steady_pure _)

theorem steady_declarators : Steady c l more declarators declarators :=
  steady_loop advances_declarator () steady_declaratorList fun _ =>
    steady_bind (steady_require _ _) fun _ => steady_pure _

theorem steady_fields (start : Location) (q : Qualifiers) :
    Steady c l more (fields start q) (fields start q) :=
  steady_bind steady_typeUse fun _ => steady_bind steady_declarators fun _ =>
    steady_bind (steady_spanFrom start) fun _ => steady_pure _

/-! ### Statements -/

section Statements

variable {st : Parser Statement} (hst : Steady c l more st st)

include hst

theorem steady_blockStatement : Steady c l more (blockStatement st) (blockStatement st) := by
  refine steady_rest (fun ahead => steady_ite ?_ (steady_ite ?_ (steady_ite ?_ ?_))) fun ts hts => ?_
  · exact ((loud_skipType _).andThen fun _ => .pure []).steady _
  · exact (loud_skipTryWithResources.andThen fun _ => .pure []).steady _
  · refine steady_here fun start => steady_bind steady_allQualifiers fun q => ?_
    refine steady_bind steady_kind fun _ => steady_ite ?_ ?_
    · exact ((loud_skipType _).andThen fun _ => .pure []).steady _
    · exact steady_bind (steady_fields start q) fun _ => steady_pure _
  · exact steady_bind hst fun _ => steady_pure _
  · rw [hts.kindOf_append more, startsWith_append more hts rfl, looksLikeModified_append more hts]

theorem steady_statements (inSwitch : Bool) (cap : Nat) :
    Steady c l more (statements st inSwitch cap) (statements st inSwitch cap) := by
  induction cap with
  | zero =>
    refine steady_bind steady_kind fun _ => steady_ite (steady_pure []) ?_
    refine steady_read (fun _ _ => rfl) rfl fun _ => steady_here fun _ => ?_
    exact ((loud_report rfl).andThen fun _ => .bind (built_skipBy _) fun _ => .pure []).steady _
  | succ cap ih =>
    refine steady_bind steady_kind fun _ => steady_ite (steady_pure []) ?_
    refine steady_bind (steady_accept _) fun _ => steady_ite ih (steady_bind ?_ fun _ => ?_)
    · exact steady_recover (steady_blockStatement hst) (.bind (built_skipBy _) fun _ => .pure []) _
    · exact steady_bind ih fun _ => steady_pure _

theorem steady_allStatements (inSwitch : Bool) :
    Steady c l more (allStatements st inSwitch) (allStatements st inSwitch) :=
  steady_read (fun _ _ => rfl) rfl fun _ => steady_statements hst inSwitch _

theorem steady_braced : Steady c l more (braced st) (braced st) :=
  steady_here fun start => steady_bind (steady_require _ _) fun _ =>
    steady_bind (steady_allStatements hst false) fun _ => steady_close (steady_spanned start _)

end Statements

theorem steady_caseLabels (n : Nat) : Steady c l more (caseLabels n) (caseLabels n) := by
  induction n with
  | zero => exact steady_pure []
  | succ n ih =>
    refine steady_bind (steady_check _) fun _ => steady_bind (steady_check _) fun _ => ?_
    refine steady_ite (steady_bind (steady_accept _) fun _ => ?_) (steady_pure [])
    simp only [← bind_assoc]
    refine steady_join (steady_pure _) (steady_bind (steady_bind (steady_skip 1) fun _ =>
      steady_excerpt _ _) fun _ => steady_pure _) fun label => ?_
    refine steady_bind (steady_check _) fun _ => steady_ite (steady_pure _) ?_
    exact steady_bind (steady_bind (steady_require _ _) fun _ => ih) fun _ => steady_pure _

theorem steady_someCaseLabels : Steady c l more someCaseLabels someCaseLabels :=
  steady_loop advances_label () steady_caseLabels fun _ => steady_ite (steady_fail _ _) (steady_pure _)

/-- The readers for one level further in are steady. -/
structure DeeperSteady (c : Settings) (l : Location) (more : List Token) (deeper : Deeper) : Prop where
  statement : Steady c l more deeper.statement deeper.statement
  block : Steady c l more deeper.block deeper.block
  caseBody : Steady c l more deeper.caseBody deeper.caseBody

section Deeper

variable (start : Location)

theorem steady_emptyBlock : Steady c l more (emptyBlock start) (emptyBlock start) :=
  steady_spanned start _

theorem steady_returnStatement : Steady c l more (returnStatement start) (returnStatement start) := by
  refine steady_bind (steady_skip 1) fun _ => steady_bind (steady_check _) fun _ => ?_
  simp only [← bind_assoc]
  exact steady_join (steady_pure none) (steady_someExcerpt _ _) fun _ => steady_ended start _

theorem steady_throwStatement : Steady c l more (throwStatement start) (throwStatement start) :=
  steady_bind (steady_skip 1) fun _ => steady_bind (steady_excerpt _ _) fun _ =>
    steady_bind (steady_require _ _) fun _ => steady_spanned start _

theorem steady_jumpStatement (make : Option String → Span → Statement) :
    Steady c l more (jumpStatement make start) (jumpStatement make start) := by
  refine steady_bind (steady_skip 1) fun _ => steady_bind (steady_check _) fun _ => ?_
  simp only [← bind_assoc]
  exact steady_join (steady_bind steady_identifier fun _ => steady_pure _) (steady_pure none)
    fun _ => steady_ended start _

theorem steady_assertStatement : Steady c l more (assertStatement start) (assertStatement start) := by
  refine steady_bind (steady_skip 1) fun _ => steady_bind (steady_excerpt _ _) fun _ => ?_
  refine steady_bind (steady_accept _) fun _ => ?_
  simp only [← bind_assoc]
  exact steady_join (steady_someExcerpt _ _) (steady_pure none) fun _ => steady_ended start _

theorem steady_plainStatement : Steady c l more (plainStatement start) (plainStatement start) := by
  refine steady_read (fun _ _ => rfl) rfl fun c' => ?_
  refine steady_test (fun _ hts => looksLikeVariable_append more _ hts) ?_ ?_
  · exact steady_bind steady_typeUse fun _ => steady_bind steady_declarators fun _ =>
      steady_spanned start _
  · exact steady_bind (steady_excerpt _ _) fun _ => steady_bind (steady_require _ _) fun _ =>
      steady_spanned start _

variable {levels : Nat} (hd : DeeperSteady c l more (deeperAt levels))

include hd

theorem steady_catchClauses (n : Nat) :
    Steady c l more (catchClauses (deeperAt levels) n) (catchClauses (deeperAt levels) n) := by
  induction n with
  | zero => exact steady_pure []
  | succ n ih =>
    refine steady_here fun start => steady_bind (steady_accept _) fun _ => ?_
    refine steady_ite (steady_bind (steady_parenthesized _) fun _ => ?_) (steady_pure [])
    exact steady_bind hd.block fun _ => steady_bind (steady_spanFrom start) fun _ =>
      steady_bind ih fun _ => steady_pure _

theorem steady_switchCases (n : Nat) :
    Steady c l more (switchCases (deeperAt levels) n) (switchCases (deeperAt levels) n) := by
  induction n with
  | zero => exact steady_pure []
  | succ n ih =>
    refine steady_bind steady_kind fun _ => steady_ite (steady_pure []) (steady_here fun start => ?_)
    refine steady_bind (steady_recover (steady_map steady_someCaseLabels _)
      (.bind (built_skipBy _) fun _ => .pure none) _) fun labels => ?_
    rcases labels with _ | labels
    · exact ih
    refine steady_bind (steady_check _) fun _ => steady_ite ?_ ?_
    · refine (loud_here fun _ => ?_).steady _
      exact (loud_report rfl).andThen fun _ => .bind (built_skipBy _) fun _ => .pure []
    · refine steady_bind (steady_recover (steady_map hd.caseBody _)
        (.bind (built_skipBy _) fun _ => .pure none) _) fun inner => ?_
      rcases inner with _ | inner
      · exact steady_pure []
      · exact steady_bind (steady_spanFrom start) fun _ => steady_bind ih fun _ => steady_pure _

theorem steady_ifStatement :
    Steady c l more (ifStatement (deeperAt levels) start) (ifStatement (deeperAt levels) start) := by
  refine steady_bind (steady_skip 1) fun _ => steady_bind (steady_parenthesized _) fun _ => ?_
  refine steady_bind hd.statement fun _ => steady_bind (steady_accept _) fun _ => ?_
  simp only [← bind_assoc]
  exact steady_join (steady_bind hd.statement fun _ => steady_pure _) (steady_pure none)
    fun _ => steady_spanned start _

theorem steady_forStatement :
    Steady c l more (forStatement (deeperAt levels) start) (forStatement (deeperAt levels) start) :=
  steady_bind (steady_skip 1) fun _ => steady_bind (steady_parenthesized _) fun _ =>
    steady_bind hd.statement fun _ => steady_spanned start _

theorem steady_whileStatement :
    Steady c l more (whileStatement (deeperAt levels) start) (whileStatement (deeperAt levels) start) :=
  steady_bind (steady_skip 1) fun _ => steady_bind (steady_parenthesized _) fun _ =>
    steady_bind hd.statement fun _ => steady_spanned start _

theorem steady_doStatement :
    Steady c l more (doStatement (deeperAt levels) start) (doStatement (deeperAt levels) start) :=
  steady_bind (steady_skip 1) fun _ => steady_bind hd.statement fun _ =>
    steady_bind (steady_require _ _) fun _ => steady_bind (steady_parenthesized _) fun _ =>
      steady_bind (steady_require _ _) fun _ => steady_spanned start _

theorem steady_tryStatement :
    Steady c l more (tryStatement (deeperAt levels) start) (tryStatement (deeperAt levels) start) := by
  refine steady_bind (steady_skip 1) fun _ => steady_bind hd.block fun _ => ?_
  refine steady_loop (advances_catch levels) () (steady_catchClauses hd) fun _ => ?_
  refine steady_bind (steady_accept _) fun _ => ?_
  simp only [← bind_assoc]
  refine steady_join (steady_bind hd.block fun _ => steady_pure _) (steady_pure none) fun _ => ?_
  refine steady_ite ?_ (steady_spanned start _)
  exact steady_bind (steady_bind (steady_note _) fun _ => steady_spanFrom start) fun _ => steady_pure _

theorem steady_switchStatement :
    Steady c l more (switchStatement (deeperAt levels) start)
      (switchStatement (deeperAt levels) start) := by
  refine steady_bind (steady_skip 1) fun _ => steady_bind (steady_parenthesized _) fun _ => ?_
  refine steady_bind (steady_require _ _) fun _ => ?_
  exact steady_loop (advances_case levels) () (steady_switchCases hd) fun _ =>
    steady_close (steady_spanned start _)

theorem steady_synchronizedStatement :
    Steady c l more (synchronizedStatement (deeperAt levels) start)
      (synchronizedStatement (deeperAt levels) start) :=
  steady_bind (steady_skip 1) fun _ => steady_bind (steady_parenthesized _) fun _ =>
    steady_bind hd.block fun _ => steady_spanned start _

theorem steady_labeledStatement :
    Steady c l more (labeledStatement (deeperAt levels) start)
      (labeledStatement (deeperAt levels) start) :=
  steady_bind steady_identifier fun _ => steady_bind (steady_skip 1) fun _ =>
    steady_bind hd.statement fun _ => steady_spanned start _

omit start in
theorem steady_anyStatement :
    Steady c l more (anyStatement (deeperAt levels)) (anyStatement (deeperAt levels)) := by
  refine steady_here fun start => steady_kinds (fun _ _ => ?_) fun k k₁ k₂ hk => ?_
  · split
    · exact steady_bind hd.block fun _ => steady_pure _
    · exact steady_bind (steady_skip 1) fun _ => steady_emptyBlock start
    · exact steady_returnStatement start
    · exact steady_ifStatement start hd
    · exact steady_forStatement start hd
    · exact steady_whileStatement start hd
    · exact steady_doStatement start hd
    · exact (loud_skipTryWithResources.andThen fun _ => built_emptyBlock start).steady _
    · exact steady_tryStatement start hd
    · exact steady_switchStatement start hd
    · exact steady_throwStatement start
    · exact steady_jumpStatement start _
    · exact steady_jumpStatement start _
    · exact steady_synchronizedStatement start hd
    · exact steady_assertStatement start
    · exact steady_labeledStatement start hd
    iterate 3 exact steady_throw rfl _
    iterate 5 exact steady_fail _ _
    exact steady_plainStatement start
  · unfold isFence at hk
    split at hk
    · rfl
    · rfl
    · cases hk

end Deeper

theorem steady_tooDeep : Steady c l more (tooDeep : Parser α) tooDeep :=
  steady_read (fun _ _ => rfl) rfl fun _ => steady_here fun _ => steady_throw rfl _

theorem deeperSteady (levels : Nat) : DeeperSteady c l more (deeperAt levels) := by
  induction levels with
  | zero => exact ⟨steady_tooDeep, steady_tooDeep, steady_tooDeep⟩
  | succ levels ih =>
    refine ⟨?_, ?_, ?_⟩
    · simp only [deeperAt, statement]
      exact steady_anyStatement ih
    · simp only [deeperAt, block]
      exact steady_braced ih.statement
    · simp only [deeperAt, caseBody]
      exact steady_allStatements ih.statement true

theorem steady_body : Steady c l more body body :=
  steady_read (fun _ _ => rfl) rfl fun _ => (deeperSteady _).block

/-! ### Members -/

theorem steady_parameter : Steady c l more parameter parameter := by
  refine steady_here fun start => steady_bind steady_allQualifiers fun _ => ?_
  refine steady_bind steady_typeUse fun _ => steady_bind (steady_accept _) fun _ => ?_
  exact steady_bind steady_identifier fun _ => steady_bind steady_brackets fun _ =>
    steady_spanned start _

theorem steady_parameterList (n : Nat) : Steady c l more (parameterList n) (parameterList n) := by
  induction n with
  | zero => exact steady_pure []
  | succ n ih =>
    refine steady_bind steady_parameter fun _ => steady_bind (steady_accept _) fun _ => ?_
    exact steady_ite (steady_bind ih fun _ => steady_pure _) (steady_pure _)

theorem steady_parameters : Steady c l more parameters parameters := by
  refine steady_bind (steady_require _ _) fun _ => steady_bind (steady_check _) fun _ => ?_
  simp only [← bind_assoc]
  refine steady_join (steady_pure []) (steady_steps steady_parameterList fun _ _ _ hm hn => ?_)
    fun _ => steady_bind (steady_require _ _) fun _ => steady_pure _
  exact advances_parameter.run_eq hm hn ()

theorem steady_method (start : Location) (q : Qualifiers) (params : Option String) :
    Steady c l more (method start q params) (method start q params) := by
  refine steady_bind steady_returnType fun _ => steady_bind steady_identifier fun _ => ?_
  refine steady_bind steady_parameters fun _ => steady_bind (steady_typesAfter _) fun _ => ?_
  refine steady_bind (steady_check _) fun _ => ?_
  simp only [← bind_assoc]
  exact steady_join (steady_bind steady_body fun _ => steady_pure _)
    (steady_bind (steady_require _ _) fun _ => steady_pure none) fun _ => steady_spanned start _

theorem steady_constructor (start : Location) (typeName : String) (q : Qualifiers)
    (params : Option String) :
    Steady c l more (constructor start typeName q params) (constructor start typeName q params) := by
  refine steady_here fun _ => steady_bind steady_identifier fun _ => ?_
  refine steady_ite (steady_bind (steady_note _) fun _ => ?_) ?_
  all_goals
    exact steady_bind steady_parameters fun _ => steady_bind (steady_typesAfter _) fun _ =>
      steady_bind steady_body fun _ => steady_spanned start _

theorem steady_plainMember (start : Location) (typeName : String) (q : Qualifiers) :
    Steady c l more (plainMember start typeName q) (plainMember start typeName q) := by
  refine steady_bind steady_typeParameters fun params => ?_
  refine steady_rest (fun _ => steady_ite ?_ ?_) fun ts hts => ?_
  · exact steady_bind (steady_constructor start typeName q params) fun _ => steady_pure _
  · refine steady_read (fun _ _ => rfl) rfl fun c' => steady_ite ?_ (steady_ite ?_ (steady_fail _ _))
    · exact steady_bind (steady_method start q params) fun _ => steady_pure _
    · exact steady_bind (steady_fields start q) fun _ => steady_pure _
  · simp only [startsWith_append more hts (show isFence .identifier = false from rfl),
      hts.kindOf_append more, looksLikeMethod_append more _ hts]

theorem steady_member (typeName : String) : Steady c l more (member typeName) (member typeName) := by
  refine steady_here fun start => steady_bind steady_allQualifiers fun q => ?_
  refine steady_rest (fun _ => steady_ite ?_ (steady_ite ?_ (steady_ite ?_ ?_))) fun ts hts => ?_
  · exact ((loud_skipType _).andThen fun _ => .pure []).steady _
  · exact ((loud_skipType _).andThen fun _ => .pure []).steady _
  · exact steady_bind steady_body fun _ => steady_spanned start _
  · exact steady_plainMember start typeName q
  · rw [hts.kindOf_append more, startsWith_append more hts rfl]

theorem steady_members (typeName : String) (cap : Nat) :
    Steady c l more (members typeName cap) (members typeName cap) := by
  induction cap with
  | zero =>
    refine steady_bind steady_kind fun _ => steady_ite (steady_pure []) ?_
    refine steady_read (fun _ _ => rfl) rfl fun _ => steady_here fun _ => ?_
    exact ((loud_report rfl).andThen fun _ => .bind (built_skipBy _) fun _ => .pure []).steady _
  | succ cap ih =>
    refine steady_bind steady_kind fun _ => steady_ite (steady_pure []) ?_
    refine steady_bind (steady_accept _) fun _ => steady_ite ih (steady_before fun _ _ => ?_)
    refine steady_bind (steady_recover (steady_member typeName) ?_ _) fun _ =>
      steady_bind ih fun _ => steady_pure _
    refine .bind built_steps fun _ => .read (fun _ _ => rfl) fun c => ?_
    exact .bind (built_skipBy _) fun _ => .pure []

/-! ### Readers that end with a fence -/

/-- Runs of the first reader without findings pass over a fence at last, and are runs of the second one
on a text that goes on. -/
structure Sealed (c : Settings) (l : Location) (more : List Token) (p q : Parser α) : Prop where
  built : Built (fun _ => True) p
  same : ∀ ⦃s a s'⦄, p c s = .ok a s' → s'.diagnostics = s.diagnostics →
    Fenced s.rest ∧ s'.last.isSome = true ∧
      q (c.endingAt l) (s.followedBy more) = .ok a (s'.followedBy more)

theorem Loud.isSealed {p : Parser α} (h : Loud c p) (q : Parser α) : Sealed c l more p q :=
  ⟨h.built, fun _ _ _ hrun hquiet => absurd hquiet (h.loud hrun)⟩

theorem sealed_fail (expected : String) (q : Parser α) : Sealed c l more (fail expected) q := by
  refine ⟨built_fail expected, fun s a s' hrun => ?_⟩
  rw [fail_run] at hrun
  cases hrun

theorem sealed_bind {p q : Parser α} {f g : α → Parser β} (hp : Steady c l more p q)
    (hf : ∀ a, Sealed c l more (f a) (g a)) : Sealed c l more (p >>= f) (q >>= g) := by
  refine ⟨hp.built.bind fun a => (hf a).built, fun s b s' hrun hquiet => ?_⟩
  obtain ⟨a, t, hfirst, hquiet₁, hsecond, hquiet₂⟩ :=
    hp.built.quiet_bind (fun a => (hf a).built) hrun hquiet
  obtain ⟨ht, hlast, hsame⟩ := (hf a).same hsecond hquiet₂
  rw [bind_run_ok (hp.same hfirst hquiet₁ ht)]
  exact ⟨ht.of_suffix (hp.built.forward.suffix hfirst), hlast, hsame⟩

/-- A loop and what follows it, with a number of steps that does not matter. -/
theorem sealed_loop {ι : Type} {L : Loop ι α} (hL : L.Advances) (i : ι) {f : α → Parser β}
    (h : ∀ n, Steady c l more (L.run n i) (L.run n i)) (hf : ∀ a, Sealed c l more (f a) (f a)) :
    Sealed c l more (steps >>= fun n => L.run n i >>= f) (steps >>= fun n => L.run n i >>= f) := by
  simp only [← bind_assoc]
  exact sealed_bind (steady_steps h fun _ _ _ hm hn => hL.run_eq hm hn i) hf

theorem sealed_here {f g : Location → Parser α} (h : ∀ l', Sealed c l more (f l') (g l')) :
    Sealed c l more (here >>= f) (here >>= g) := by
  refine ⟨.bind built_here fun l => (h l).built, fun s a s' hrun hquiet => ?_⟩
  rw [bind_run_ok here_run] at hrun
  obtain ⟨hs, hlast, hsame⟩ := (h _).same hrun hquiet
  rw [bind_run_ok here_run, followedBy_next hs.ne_nil]
  exact ⟨hs, hlast, hsame⟩

theorem sealed_read {f : Settings → Parser α} (hbudget : ∀ c b, f { c with budget := b } = f c)
    (hstop : f (c.endingAt l) = f c) (h : ∀ c', Sealed c l more (f c') (f c')) :
    Sealed c l more (read >>= f) (read >>= f) := by
  refine ⟨.read hbudget fun c => (h c).built, fun s a s' hrun hquiet => ?_⟩
  rw [bind_run_ok read_run] at hrun ⊢
  rw [hstop]
  exact (h c).same hrun hquiet

theorem sealed_ite {b : Prop} [Decidable b] {p q p' q' : Parser α} (hp : Sealed c l more p p')
    (hq : Sealed c l more q q') : Sealed c l more (if b then p else q) (if b then p' else q') := by
  split
  · exact hp
  · exact hq

theorem sealed_recover {p q resume : Parser α} (hp : Sealed c l more p q)
    (hresume : Built (fun _ => True) resume) (resume' : Parser α) :
    Sealed c l more (recover p resume) (recover q resume') := by
  refine ⟨.recover hp.built hresume, fun s a s' hrun hquiet => ?_⟩
  obtain ⟨hs, hlast, hsame⟩ := hp.same (quiet_recover hp.built hresume hrun hquiet) hquiet
  rw [recover_run, hsame]
  exact ⟨hs, hlast, rfl⟩

/-- What is made of a sealed result, without another look. -/
theorem sealed_map {p q : Parser α} (hp : Sealed c l more p q) (f : α → β) :
    Sealed c l more (p >>= fun a => pure (f a)) (q >>= fun a => pure (f a)) := by
  refine ⟨hp.built.bind fun a => .pure _, fun s b s' hrun hquiet => ?_⟩
  obtain ⟨a, t, hfirst, hlast⟩ := bind_eq_ok.mp hrun
  cases hlast
  obtain ⟨hs, hlast, hsame⟩ := hp.same hfirst hquiet
  rw [bind_run_ok hsame]
  exact ⟨hs, hlast, rfl⟩

/-- A node that ends with a fence. -/
theorem sealed_spanned {p q : Parser α} (hp : Sealed c l more p q) (start : Location)
    (make : α → Span → β) :
    Sealed c l more (p >>= fun a => do return make a (← spanFrom start))
      (q >>= fun a => do return make a (← spanFrom start)) := by
  refine ⟨hp.built.bind fun a => built_spanned start _, fun s b s' hrun hquiet => ?_⟩
  obtain ⟨a, t, hfirst, hspan⟩ := bind_eq_ok.mp hrun
  rw [bind_run_ok (spanFrom_run start)] at hspan
  cases hspan
  obtain ⟨hs, hlast, hsame⟩ := hp.same hfirst hquiet
  refine ⟨hs, hlast, ?_⟩
  obtain ⟨last, hlast⟩ := Option.isSome_iff_exists.mp hlast
  have hspan : (s'.followedBy more).spanFrom (c.endingAt l) start = s'.spanFrom c start := by
    simp only [State.spanFrom, State.followedBy, hlast, Option.getD_some]
  rw [bind_run_ok hsame, bind_run_ok (spanFrom_run start), hspan]
  rfl

/-- The run of a reader that starts at a fence and passes over it. -/
theorem sealed_skip (more : List Token) (hk : isFence (kindOf s.rest) = true) :
    Fenced s.rest ∧ (s.skip 1).last.isSome = true ∧
      (s.followedBy more).skip 1 = (s.skip 1).followedBy more := by
  have hs := fenced_of_kindOf hk
  exact ⟨hs, last_skip hs.ne_nil, followedBy_skip (List.length_pos_iff.mpr hs.ne_nil)⟩

theorem sealed_require {k : Kind} (hk : isFence k = true) (expected : String) :
    Sealed c l more (require k expected) (require k expected) := by
  refine ⟨built_require k expected, fun s a s' hrun _ => ?_⟩
  rw [require_run] at hrun
  split at hrun
  · next hkind =>
    cases hrun
    obtain ⟨hs, hlast, hskip⟩ := @sealed_skip s more (hkind ▸ hk)
    rw [require_run, followedBy_rest, hs.kindOf_append more, if_pos hkind, hskip]
    exact ⟨hs, hlast, rfl⟩
  · cases hrun

/-- A closing brace, without which there is a finding. -/
theorem sealed_close {p : Parser α} (hp : Loud c p) (a : α) :
    Sealed c l more (accept Mark.closeBrace >>= fun found => if !found then p else pure a)
      (accept Mark.closeBrace >>= fun found => if !found then p else pure a) := by
  refine ⟨.bind (built_accept _) fun _ => built_ite hp.built (.pure a), fun s b s' hrun hquiet => ?_⟩
  rw [bind_run, accept_run] at hrun
  by_cases hclose : kindOf s.rest = .mark .closeBrace
  · rw [if_pos hclose] at hrun
    cases hrun
    obtain ⟨hs, hlast, hskip⟩ := @sealed_skip s more (by rw [hclose]; rfl)
    refine ⟨hs, hlast, ?_⟩
    rw [bind_run, accept_run, followedBy_rest, hs.kindOf_append more, if_pos hclose, hskip]
    rfl
  · rw [if_neg hclose] at hrun
    exact absurd hquiet (hp.loud hrun)

theorem sealed_memberSection (typeName : String) :
    Sealed c l more (memberSection typeName) (memberSection typeName) :=
  sealed_read (fun _ _ => rfl) rfl fun _ => sealed_bind (steady_members typeName _) fun found =>
    sealed_close (loud_reportUnexpected _ (f := fun _ => pure found) (.pure found)) found

/-! ### Types -/

theorem sealed_classRest (start : Location) (q : Qualifiers) :
    Sealed c l more (classRest start q) (classRest start q) := by
  refine sealed_bind (steady_skip 1) fun _ => sealed_bind steady_identifier fun name => ?_
  refine sealed_bind steady_typeParameters fun _ => sealed_bind (steady_accept _) fun _ => ?_
  have hrest (params : Option String) (superclass : Option TypeUse) : Sealed c l more (do
      let interfaces ← typesAfter .implements_
      require Mark.openBrace "'\x7b' after class declaration"
      let found ← memberSection name
      return (⟨q.modifiers, q.annotations, name, .class_ params superclass interfaces, found,
        ← spanFrom start⟩ : TypeDeclaration)) (do
      let interfaces ← typesAfter .implements_
      require Mark.openBrace "'\x7b' after class declaration"
      let found ← memberSection name
      return (⟨q.modifiers, q.annotations, name, .class_ params superclass interfaces, found,
        ← spanFrom start⟩ : TypeDeclaration)) :=
    sealed_bind (steady_typesAfter _) fun _ => sealed_bind (steady_require _ _) fun _ =>
      sealed_spanned (sealed_memberSection name) start _
  exact sealed_ite (sealed_bind steady_typeUse fun _ => hrest _ _) (hrest _ none)

theorem sealed_interfaceRest (start : Location) (q : Qualifiers) :
    Sealed c l more (interfaceRest start q) (interfaceRest start q) := by
  refine sealed_bind (steady_skip 1) fun _ => sealed_bind steady_identifier fun name => ?_
  refine sealed_bind steady_typeParameters fun _ => sealed_bind (steady_typesAfter _) fun _ => ?_
  refine sealed_bind (steady_require _ _) fun _ => ?_
  exact sealed_spanned (sealed_memberSection name) start _

theorem steady_enumConstant : Steady c l more enumConstant enumConstant := by
  refine steady_here fun start => ?_
  refine steady_loop advances_annotation () steady_annotations fun _ => ?_
  refine steady_bind steady_identifier fun _ => steady_bind (steady_optionalArguments _) fun _ => ?_
  refine steady_bind (steady_check _) fun _ => steady_ite ?_ (steady_spanned start _)
  refine (loud_here fun _ => .bind (built_skipBy _) fun _ => ?_).steady _
  exact (loud_report rfl).andThen fun _ => built_spanned start _

theorem steady_enumConstants (n : Nat) : Steady c l more (enumConstants n) (enumConstants n) := by
  induction n with
  | zero => exact steady_pure []
  | succ n ih =>
    refine steady_bind steady_kind fun _ => steady_bind (steady_check _) fun _ => ?_
    refine steady_ite (steady_pure []) (steady_before fun _ _ => ?_)
    refine steady_bind (steady_recover (steady_map steady_enumConstant _) ?_ _) fun _ => ?_
    · exact .bind built_steps fun _ => .bind (built_skipBy _) fun _ => .pure none
    · exact steady_bind (steady_accept _) fun _ =>
        steady_ite (steady_bind ih fun _ => steady_pure _) (steady_pure _)

/-- What follows the constants of an enum ends with its brace in either case. -/
theorem sealed_enumMembers (typeName : String) :
    Sealed c l more (enumMembers typeName) (enumMembers typeName) := by
  refine sealed_bind (steady_accept _) fun _ => sealed_ite (sealed_memberSection typeName) ?_
  refine sealed_close (loud_reportUnexpected _ ?_) _
  refine .read (fun _ _ => rfl) fun c => .bind (built_skipBy _) fun _ => ?_
  exact .bind (built_accept _) fun _ => .pure []

theorem sealed_enumRest (start : Location) (q : Qualifiers) :
    Sealed c l more (enumRest start q) (enumRest start q) := by
  refine sealed_bind (steady_skip 1) fun _ => sealed_bind steady_identifier fun name => ?_
  refine sealed_bind (steady_typesAfter _) fun _ => sealed_bind (steady_require _ _) fun _ => ?_
  refine sealed_loop advances_constant () steady_enumConstants fun _ => ?_
  exact sealed_spanned (sealed_enumMembers name) start _

/-- Looks at the next two tokens. At a fence, the second one does not matter. -/
theorem sealed_kinds {f : Kind → Kind → Parser α} (h : ∀ k k', Sealed c l more (f k k') (f k k'))
    (hfence : ∀ k k₁ k₂, isFence k = true → f k k₁ = f k k₂) :
    Sealed c l more (kind >>= fun k => secondKind >>= fun k' => f k k')
      (kind >>= fun k => secondKind >>= fun k' => f k k') := by
  refine ⟨built_kind.bind fun k => built_secondKind.bind fun k' => (h k k').built,
    fun s a s' hrun hquiet => ?_⟩
  rw [bind_run_ok kind_run, bind_run_ok secondKind_run] at hrun
  obtain ⟨hs, hlast, hsame⟩ := (h _ _).same hrun hquiet
  refine ⟨hs, hlast, ?_⟩
  rw [bind_run_ok kind_run, bind_run_ok secondKind_run, followedBy_rest, hs.kindOf_append more]
  cases hk : isFence (kindOf s.rest) with
  | false => rwa [hs.kindOf_drop_append more hk]
  | true => rwa [hfence _ _ (kindOf (s.rest.drop 1)) hk]

theorem sealed_typeDeclaration : Sealed c l more typeDeclaration typeDeclaration := by
  refine sealed_here fun start => sealed_bind steady_allQualifiers fun q => ?_
  refine sealed_kinds (fun _ _ => ?_) fun k k₁ k₂ hk => ?_
  · split
    · exact sealed_map (sealed_classRest start q) some
    · exact sealed_map (sealed_interfaceRest start q) some
    · exact sealed_map (sealed_enumRest start q) some
    · exact ((loud_skipType _).andThen fun _ => .pure none).isSealed _
    · exact sealed_fail _ _
  · unfold isFence at hk
    split at hk
    · rfl
    · rfl
    · cases hk

/-! ### Clauses and types at the top of a text -/

theorem sealed_packageClause : Sealed c l more packageClause packageClause :=
  sealed_here fun start => sealed_bind (steady_skip 1) fun _ =>
    sealed_bind steady_qualifiedName fun name =>
      sealed_spanned (sealed_require rfl _) start fun _ => PackageClause.mk name

theorem sealed_importClause : Sealed c l more importClause importClause := by
  refine sealed_here fun start => sealed_bind (steady_skip 1) fun _ => ?_
  refine sealed_bind (steady_accept _) fun isStatic => sealed_bind steady_qualifiedName fun name => ?_
  refine sealed_bind (steady_accept _) fun isWildcard => ?_
  have hend : Sealed c l more (do
      require Mark.semicolon "';' after import"
      return (⟨name, isStatic, isWildcard, ← spanFrom start⟩ : Import)) (do
      require Mark.semicolon "';' after import"
      return (⟨name, isStatic, isWildcard, ← spanFrom start⟩ : Import)) :=
    sealed_spanned (sealed_require rfl _) start _
  exact sealed_ite (sealed_bind (steady_require _ _) fun _ => hend) hend

theorem sealed_import : Sealed c l more (recover (some <$> importClause) skipClause)
    (recover (some <$> importClause) skipClause) := by
  simp only [← bind_pure_comp]
  exact sealed_recover (sealed_map sealed_importClause some) built_skipClause _

theorem sealed_topLevelType : Sealed c l more topLevelType topLevelType := by
  refine ⟨built_topLevelType, fun s a s' hrun hquiet => ?_⟩
  have hresume (before : Nat) : Built (fun _ => True) (do
      let atStart := (← steps) = before
      skipBy (typeRest atStart 0)
      return (none : Option TypeDeclaration)) :=
    .bind built_steps fun _ => .bind (built_skipBy _) fun _ => .pure none
  rw [topLevelType, bind_run_ok steps_run] at hrun ⊢
  exact (sealed_recover sealed_typeDeclaration (hresume _) _).same hrun hquiet

end JavaTree.Parser
