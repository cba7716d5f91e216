import JavaTree.Proofs.Bare
import JavaTree.Proofs.Parser.Run

/-!
Two runs side by side, on tokens that differ in their places alone.

Nothing that a reader decides depends on a place. Lookahead, captures and recovery go by kinds and
lexemes; the span of a node is not looked at again; and the fault that an invalid token stands for,
which is found by its place, is the same on either side. So if two states differ in places alone, the
same reader gives results that differ in places alone, and leaves such states. `Matches` says so, for
the part of the results that is to be the same, and it is kept by sequence, choice and recovery.

    state:    int x ;  }       int x          both:   int x ; }
                               ; }
    result:   int x, 1:1-6     int x, 1:1-2:1         int x, without the span
-/

namespace JavaTree.Parser

/-! ### Lookahead -/

section Lookahead

variable (ts : List Token)

@[simp] theorem kindOf_bare : kindOf (ts.map Token.bare) = kindOf ts := by
  cases ts <;> rfl

@[simp] theorem startsWith_bare (a b : Kind) :
    startsWith a b (ts.map Token.bare) = startsWith a b ts := by
  rcases ts with _ | ⟨t, _ | ⟨u, ts⟩⟩ <;> rfl

@[simp] theorem furtherNames_bare : furtherNames (ts.map Token.bare) = furtherNames ts := by
  induction ts using furtherNames.induct with
  | case1 d t ts h ih => simp [furtherNames, h, ih]
  | case2 d t ts h => simp [furtherNames, h]
  | case3 ts h =>
    rcases ts with _ | ⟨d, _ | ⟨t, ts⟩⟩
    · rfl
    · rfl
    · exact absurd rfl (h d t ts)

@[simp] theorem dimensions_bare : dimensions (ts.map Token.bare) = dimensions ts := by
  induction ts using dimensions.induct with
  | case1 d t ts h ih => simp [dimensions, h, ih]
  | case2 d t ts h => simp [dimensions, h]
  | case3 ts h =>
    rcases ts with _ | ⟨d, _ | ⟨t, ts⟩⟩
    · rfl
    · rfl
    · exact absurd rfl (h d t ts)

theorem afterAngle?_bare (cap : Nat) (depth : Int) :
    afterAngle? cap depth (ts.map Token.bare) = (afterAngle? cap depth ts).map (List.map Token.bare) := by
  induction ts generalizing cap depth with
  | nil => cases cap <;> rfl
  | cons t ts ih =>
    cases cap with
    | zero =>
      simp only [List.map_cons, afterAngle?, Token.kind_bare]
      split
      · split <;> rfl
      · rfl
    | succ room =>
      simp only [List.map_cons, afterAngle?, Token.kind_bare, ih]
      split
      · split <;> rfl
      · rfl

theorem afterArguments?_bare (cap : Nat) :
    afterArguments? cap (ts.map Token.bare) = (afterArguments? cap ts).map (List.map Token.bare) := by
  rw [afterArguments?, afterArguments?, kindOf_bare, afterAngle?_bare]
  split <;> rfl

theorem afterName?_bare (cap n : Nat) :
    afterName? cap n (ts.map Token.bare) = (afterName? cap n ts).map (List.map Token.bare) := by
  induction n generalizing ts with
  | zero => rfl
  | succ n ih =>
    rw [afterName?, afterName?, afterArguments?_bare]
    cases afterArguments? cap ts with
    | none => rfl
    | some more =>
      simp only [Option.map_some, Option.bind_some, startsWith_bare]
      split
      · rw [← List.map_drop, ih]
      · rfl

theorem afterType?_bare (cap : Nat) :
    afterType? cap (ts.map Token.bare) = (afterType? cap ts).map (List.map Token.bare) := by
  rcases ts with _ | ⟨t, ts⟩
  · rfl
  · simp only [List.map_cons, afterType?, Token.kind_bare, List.length_map, afterName?_bare]
    split
    · simp
    · split
      · simp [Function.comp_def]
      · rfl

@[simp] theorem looksLikeMethod_bare (cap : Nat) :
    looksLikeMethod cap (ts.map Token.bare) = looksLikeMethod cap ts := by
  rw [looksLikeMethod, looksLikeMethod, afterType?_bare]
  cases afterType? cap ts <;> simp

@[simp] theorem looksLikeVariable_bare (cap : Nat) :
    looksLikeVariable cap (ts.map Token.bare) = looksLikeVariable cap ts := by
  rw [looksLikeVariable, looksLikeVariable, afterType?_bare]
  cases afterType? cap ts <;> simp

theorem looksLikeMember_bare (cap : Nat) :
    looksLikeMember cap (ts.map Token.bare) = looksLikeMember cap ts := by
  rw [looksLikeMember, looksLikeMember, afterType?_bare, kindOf_bare, startsWith_bare]
  cases afterType? cap ts <;> simp

@[simp] theorem looksAnnotated_bare : looksAnnotated (ts.map Token.bare) = looksAnnotated ts := by
  rw [looksAnnotated, looksAnnotated, ← List.map_drop, kindOf_bare, kindOf_bare]

@[simp] theorem looksLikeModified_bare :
    looksLikeModified (ts.map Token.bare) = looksLikeModified ts := by
  rw [looksLikeModified, looksLikeModified, ← List.map_drop, kindOf_bare, kindOf_bare]

/-! ### Extents -/

@[simp] theorem extent_bare (rule : CaptureRule) (cap : Nat) (closers : List Mark)
    (previous : Option Kind) :
    extent rule cap closers previous (ts.map Token.bare) = extent rule cap closers previous ts := by
  induction ts generalizing cap closers previous with
  | nil => rfl
  | cons t ts ih => simp only [List.map_cons, extent, Token.kind_bare, kindOf_bare, ih]

@[simp] theorem angleExtent_bare (cap : Nat) (depth : Int) :
    angleExtent cap depth (ts.map Token.bare) = angleExtent cap depth ts := by
  induction ts generalizing cap depth with
  | nil => rfl
  | cons t ts ih => cases cap <;> simp only [List.map_cons, angleExtent, Token.kind_bare, ih]

@[simp] theorem typeText_bare (previous : Option Kind) :
    typeText previous (ts.map Token.bare) = typeText previous ts := by
  induction ts generalizing previous with
  | nil => rfl
  | cons t ts ih => simp only [List.map_cons, typeText, Token.kind_bare, Token.lexeme_bare, ih]

/-! ### What is passed over -/

@[simp] theorem group_bare (depth : Nat) : group depth (ts.map Token.bare) = group depth ts := by
  induction ts generalizing depth with
  | nil => rfl
  | cons t ts ih => simp only [List.map_cons, group, Token.kind_bare, ih]

@[simp] theorem blockRest_bare (depth : Nat) :
    blockRest depth (ts.map Token.bare) = blockRest depth ts := by
  induction ts generalizing depth with
  | nil => rfl
  | cons t ts ih => simp only [List.map_cons, blockRest, Token.kind_bare, ih]

@[simp] theorem typeBody_bare : typeBody (ts.map Token.bare) = typeBody ts := by
  simp only [typeBody, List.takeWhile_map, Function.comp_def, Token.kind_bare, List.length_map,
    ← List.map_drop, kindOf_bare, group_bare]

@[simp] theorem statementRest_bare (depth : Nat) :
    statementRest depth (ts.map Token.bare) = statementRest depth ts := by
  induction ts generalizing depth with
  | nil => rfl
  | cons t ts ih => simp only [List.map_cons, statementRest, Token.kind_bare, ih]

@[simp] theorem caseRest_bare (depth : Nat) : caseRest depth (ts.map Token.bare) = caseRest depth ts := by
  induction ts generalizing depth with
  | nil => rfl
  | cons t ts ih => simp only [List.map_cons, caseRest, Token.kind_bare, ih]

@[simp] theorem memberRest_bare (cap : Nat) (atStart : Bool) (depth : Nat) :
    memberRest cap atStart depth (ts.map Token.bare) = memberRest cap atStart depth ts := by
  induction ts generalizing atStart depth with
  | nil => rfl
  | cons t ts ih =>
    have hlooks := looksLikeMember_bare (t :: ts) cap
    rw [List.map_cons] at hlooks
    simp only [List.map_cons, memberRest, hlooks, Token.kind_bare, ih]

@[simp] theorem constantRest_bare (atStart : Bool) (depth : Nat) :
    constantRest atStart depth (ts.map Token.bare) = constantRest atStart depth ts := by
  induction ts generalizing atStart depth with
  | nil => rfl
  | cons t ts ih => simp only [List.map_cons, constantRest, Token.kind_bare, ih]

@[simp] theorem typeRest_bare (atStart : Bool) (depth : Nat) :
    typeRest atStart depth (ts.map Token.bare) = typeRest atStart depth ts := by
  induction ts generalizing atStart depth with
  | nil => rfl
  | cons t ts ih => simp only [List.map_cons, typeRest, Token.kind_bare, ih]

end Lookahead

/-- What does not see places is the same for tokens that differ in their places alone. -/
theorem eq_of_bare {α : Type} {f : List Token → α} (hf : ∀ ts, f (ts.map Token.bare) = f ts)
    {ts us : List Token} (h : ts.map Token.bare = us.map Token.bare) : f ts = f us := by
  rw [← hf ts, h, hf us]

/-! ### States -/

/-- What is reported of the fault that an invalid token stands for. -/
def Settings.faultKind? (c : Settings) (t : Token) : Option FaultKind :=
  if t.kind = .invalid then (c.faults.find? (·.location = t.location)).map Fault.kind else none

/-- What a reader can tell of a token, its place apart. -/
def Settings.sight (c : Settings) (t : Token) : Token × Option FaultKind := (t.bare, c.faultKind? t)

/-- The same limits and the same budget, and states that differ in places alone. -/
structure Abreast (c c' : Settings) (s s' : State) : Prop where
  limits : c.limits = c'.limits
  budget : c.budget = c'.budget
  ahead : s.rest.map c.sight = s'.rest.map c'.sight
  found : s.diagnostics.map Diagnostic.bare = s'.diagnostics.map Diagnostic.bare

variable {α β γ δ : Type} {c c' : Settings} {s s' : State}

theorem Abreast.rest (h : Abreast c c' s s') : s.rest.map Token.bare = s'.rest.map Token.bare := by
  have hmap := congrArg (List.map Prod.fst) h.ahead
  rwa [List.map_map, List.map_map] at hmap

theorem Abreast.kindOf (h : Abreast c c' s s') : kindOf s.rest = kindOf s'.rest :=
  eq_of_bare kindOf_bare h.rest

theorem Abreast.length (h : Abreast c c' s s') : s.rest.length = s'.rest.length := by
  simpa using congrArg List.length h.rest

theorem Abreast.next (h : Abreast c c' s s') : c.sight (s.next c) = c'.sight (s'.next c') := by
  have hahead := h.ahead
  rw [State.next, State.next]
  cases hrest : s.rest with
  | nil =>
    rw [hrest] at hahead
    rw [List.map_eq_nil_iff.mp hahead.symm]
    rfl
  | cons t ts =>
    rw [hrest, List.map_cons] at hahead
    obtain ⟨u, us, hus, hu, -⟩ := List.map_eq_cons_iff.mp hahead.symm
    rw [hus]
    exact hu.symm

theorem Abreast.skip (h : Abreast c c' s s') (n : Nat) : Abreast c c' (s.skip n) (s'.skip n) :=
  { h with ahead := by rw [skip_rest, skip_rest, List.map_drop, List.map_drop, h.ahead] }

theorem Abreast.noted (h : Abreast c c' s s') {d d' : Diagnostic} (hd : d.bare = d'.bare) :
    Abreast c c' (s.noted d) (s'.noted d') :=
  { h with
    found := by simp only [noted_diagnostics, List.map_append, List.map_singleton, h.found, hd] }

/-- The finding that something else was expected says the same but for its place. -/
theorem mismatch_bare {t t' : Token} (h : c.sight t = c'.sight t') (expected : String) :
    (mismatch c.faults expected t).bare = (mismatch c'.faults expected t').bare := by
  obtain ⟨hbare, hfault⟩ := Prod.mk.inj h
  obtain ⟨hkind, hlexeme⟩ := Token.bare_eq_iff.mp hbare
  rw [mismatch, mismatch, ← hkind, ← hlexeme]
  split
  · rfl
  · next hinvalid =>
    rw [Settings.faultKind?, Settings.faultKind?, if_pos hinvalid, if_pos (hkind ▸ hinvalid)] at hfault
    cases hf : c.faults.find? (·.location = t.location) <;>
      cases hf' : c'.faults.find? (·.location = t'.location) <;>
      rw [hf, hf'] at hfault
    · rfl
    · cases hfault
    · cases hfault
    · simp only [Option.map_some, Option.some.injEq] at hfault
      simp only [Diagnostic.bare, hfault]
  · rfl

/-! ### Runs -/

/-- Two runs that end alike: with results of which a part is the same, or with findings that say the
same, and in states that differ in places alone. -/
def SameRun (c c' : Settings) (v : α → γ) :
    EStateM.Result Diagnostic State α → EStateM.Result Diagnostic State α → Prop
  | .ok a s, .ok a' s' => v a = v a' ∧ Abreast c c' s s'
  | .error d s, .error d' s' => d.bare = d'.bare ∧ Abreast c c' s s'
  | _, _ => False

/-- Two readers that run alike on states that differ in places alone. -/
def Matches (c c' : Settings) (v : α → γ) (p p' : Parser α) : Prop :=
  ∀ s s', Abreast c c' s s' → SameRun c c' v (p c s) (p' c' s')

section Rules

variable {v : α → γ} {w : β → δ} {p p' : Parser α}

theorem matches_pure {a a' : α} (h : v a = v a') : Matches c c' v (pure a) (pure a') :=
  fun _ _ hs => ⟨h, hs⟩

theorem matches_throw {d d' : Diagnostic} (h : d.bare = d'.bare) :
    Matches c c' v (throw d) (throw d') := fun _ _ hs => ⟨h, hs⟩

/-- In a sequence, the second reader may depend on the part of the first result that is the same. -/
theorem Matches.bindOn {f f' : α → Parser β} (hp : Matches c c' v p p')
    (hf : ∀ a a', v a = v a' → Matches c c' w (f a) (f' a')) : Matches c c' w (p >>= f) (p' >>= f') := by
  intro s s' hs
  have hrun := hp s s' hs
  rw [bind_run, bind_run]
  cases hp : p c s <;> cases hp' : p' c' s' <;> rw [hp, hp'] at hrun
  · exact hf _ _ hrun.1 _ _ hrun.2
  · cases hrun
  · cases hrun
  · exact hrun

/-- The first result is the same. -/
theorem Matches.bind {f f' : α → Parser β} (hp : Matches c c' id p p')
    (hf : ∀ a, Matches c c' w (f a) (f' a)) : Matches c c' w (p >>= f) (p' >>= f') := by
  refine hp.bindOn ?_
  rintro a a' haa
  obtain rfl : a = a' := haa
  exact hf a

/-- The first result is a place. -/
theorem Matches.bindAny {f f' : α → Parser β} (hp : Matches c c' (fun _ => ()) p p')
    (hf : ∀ a a', Matches c c' w (f a) (f' a')) : Matches c c' w (p >>= f) (p' >>= f') :=
  hp.bindOn fun a a' _ => hf a a'

theorem matches_ite {b b' : Prop} [Decidable b] [Decidable b'] {q q' : Parser α} (hb : b ↔ b')
    (hp : Matches c c' v p p') (hq : Matches c c' v q q') :
    Matches c c' v (if b then p else q) (if b' then p' else q') := by
  by_cases h : b
  · rw [if_pos h, if_pos (hb.mp h)]
    exact hp
  · rw [if_neg h, if_neg (mt hb.mpr h)]
    exact hq

/-- A choice between two readers with one continuation. -/
theorem matches_join {b : Prop} [Decidable b] {q q' : Parser α} {k k' : α → Parser β}
    (hp : Matches c c' v p p') (hq : Matches c c' v q q')
    (hk : ∀ a a', v a = v a' → Matches c c' w (k a) (k' a')) :
    Matches c c' w (if b then p >>= k else q >>= k) (if b then p' >>= k' else q' >>= k') :=
  matches_ite Iff.rfl (hp.bindOn hk) (hq.bindOn hk)

theorem Matches.map {f : α → β} (hp : Matches c c' v p p') (hf : ∀ a a', v a = v a' → w (f a) = w (f a')) :
    Matches c c' w (f <$> p) (f <$> p') := by
  rw [← bind_pure_comp, ← bind_pure_comp]
  exact hp.bindOn fun a a' h => matches_pure (hf a a' h)

end Rules

/-! ### Steps -/

section Steps

variable {v : α → γ} {w : β → δ} {p p' : Parser α}

/-- A reader that only looks. -/
theorem matches_look (f : Settings → State → α) (hrun : ∀ c s, p c s = .ok (f c s) s)
    (h : ∀ s s', Abreast c c' s s' → v (f c s) = v (f c' s')) : Matches c c' v p p := by
  intro s s' hs
  rw [hrun, hrun]
  exact ⟨h s s' hs, hs⟩

theorem matches_rest : Matches c c' (List.map Token.bare) rest rest :=
  matches_look (fun _ s => s.rest) (fun _ _ => rest_run) fun _ _ hs => hs.rest

theorem matches_steps : Matches c c' id steps steps :=
  matches_look (fun _ s => s.rest.length + 1) (fun _ _ => steps_run) fun _ _ hs =>
    congrArg (· + 1) hs.length

theorem matches_kind : Matches c c' id kind kind :=
  matches_look (fun _ s => kindOf s.rest) (fun _ _ => kind_run) fun _ _ hs => hs.kindOf

theorem matches_secondKind : Matches c c' id secondKind secondKind :=
  matches_look (fun _ s => kindOf (s.rest.drop 1)) (fun _ _ => secondKind_run) fun _ _ hs =>
    (hs.skip 1).kindOf

theorem matches_check (k : Kind) : Matches c c' id (check k) (check k) :=
  matches_look (fun _ s => decide (kindOf s.rest = k)) (fun _ _ => check_run k) fun _ _ hs => by
    rw [hs.kindOf]

theorem matches_atEnd : Matches c c' id atEnd atEnd := matches_check .endOfInput

theorem matches_peek : Matches c c' Token.bare peek peek :=
  matches_look (fun c s => s.next c) (fun _ _ => peek_run) fun _ _ hs => congrArg Prod.fst hs.next

theorem matches_here : Matches c c' (fun _ => ()) here here :=
  matches_look (fun c s => (s.next c).location) (fun _ _ => here_run) fun _ _ _ => rfl

theorem matches_spanFrom (start start' : Location) :
    Matches c c' (fun _ => ()) (spanFrom start) (spanFrom start') := by
  intro s s' hs
  rw [spanFrom_run, spanFrom_run]
  exact ⟨rfl, hs⟩

/-- The settings are the same in all that a reader asks for. -/
theorem matches_read {f f' : Settings → Parser β}
    (hf : c.limits = c'.limits → Matches c c' w (f c) (f' c')) :
    Matches c c' w (read >>= f) (read >>= f') := by
  intro s s' hs
  rw [bind_run_ok read_run, bind_run_ok read_run]
  exact hf hs.limits s s' hs

theorem matches_skip (n : Nat) : Matches c c' id (skip n) (skip n) := fun _ _ hs => ⟨rfl, hs.skip n⟩

theorem matches_skipBy {rule : List Token → Nat} (h : ∀ ts, rule (ts.map Token.bare) = rule ts) :
    Matches c c' id (skipBy rule) (skipBy rule) := by
  intro s s' hs
  rw [skipBy_run, skipBy_run, eq_of_bare h hs.rest]
  exact ⟨rfl, hs.skip _⟩

theorem matches_note (e e' : Event) : Matches c c' id (note e) (note e') :=
  fun _ _ hs => ⟨rfl, { hs with }⟩

theorem matches_fail (expected : String) : Matches c c' v (fail expected) (fail expected) := by
  intro s s' hs
  rw [fail_run, fail_run]
  exact ⟨mismatch_bare hs.next expected, hs⟩

theorem isRecoverable_bare (d : Diagnostic) : d.bare.isRecoverable = d.isRecoverable := by
  cases d <;> rfl

theorem matches_report {d d' : Diagnostic} (hd : d.bare = d'.bare) :
    Matches c c' id (report d) (report d') := by
  intro s s' hs
  have hnoted := hs.noted hd
  have hlength : (s.noted d).diagnostics.length = (s'.noted d').diagnostics.length := by
    simpa using congrArg List.length hnoted.found
  have hgoes : d.isRecoverable = d'.isRecoverable := by
    rw [← isRecoverable_bare d, hd, isRecoverable_bare]
  have hallows : c.budget.allows (s.noted d).diagnostics = c'.budget.allows (s'.noted d').diagnostics := by
    rw [ErrorBudget.allows, ErrorBudget.allows, hs.budget, hlength]
  rw [report_run, report_run, ← hgoes, ← hallows]
  split
  · split
    · exact ⟨rfl, hnoted⟩
    · refine ⟨?_, hnoted⟩
      simp only [Diagnostic.bare, hlength]
  · exact ⟨hd, hs⟩

/-- The report of what was expected here. -/
theorem matches_reportUnexpected (expected : String) {f f' : Unit → Parser β}
    (hf : Matches c c' w (f ()) (f' ())) :
    Matches c c' w (unexpected expected >>= fun d => report d >>= f)
      (unexpected expected >>= fun d => report d >>= f') := by
  have hunexpected : Matches c c' Diagnostic.bare (unexpected expected) (unexpected expected) :=
    matches_look (fun c s => mismatch c.faults expected (s.next c)) (fun _ _ => unexpected_run expected)
      fun _ _ hs => mismatch_bare hs.next expected
  exact hunexpected.bindOn fun _ _ hd => (matches_report hd).bind fun _ => hf

theorem Matches.recover {resume resume' : Parser α} (hp : Matches c c' v p p')
    (hresume : Matches c c' v resume resume') :
    Matches c c' v (recover p resume) (recover p' resume') := by
  intro s s' hs
  have hrun := hp s s' hs
  rw [recover_run, recover_run]
  cases hp : p c s <;> cases hp' : p' c' s' <;> rw [hp, hp'] at hrun
  · exact hrun
  · cases hrun
  · cases hrun
  · exact (matches_report hrun.1).bind (fun _ => hresume) _ _ hrun.2

/-- A result, or what the finding that stopped a reader says. -/
def sightOf (v : α → γ) : Except Diagnostic α → Except Diagnostic γ
  | .ok a => .ok (v a)
  | .error d => .error d.bare

theorem Matches.attempt (hp : Matches c c' v p p') :
    Matches c c' (sightOf v) (attempt p) (attempt p') := by
  intro s s' hs
  have hrun := hp s s' hs
  rw [attempt_run, attempt_run]
  cases hp : p c s <;> cases hp' : p' c' s' <;> rw [hp, hp'] at hrun
  · exact ⟨congrArg Except.ok hrun.1, hrun.2⟩
  · cases hrun
  · cases hrun
  · exact ⟨congrArg Except.error hrun.1, hrun.2⟩

theorem matches_accept (k : Kind) : Matches c c' id (accept k) (accept k) :=
  (matches_check k).bind fun _ =>
    matches_ite Iff.rfl ((matches_skip 1).bind fun _ => matches_pure rfl) (matches_pure rfl)

theorem matches_require (k : Kind) (expected : String) :
    Matches c c' id (require k expected) (require k expected) :=
  (matches_check k).bind fun _ => matches_ite Iff.rfl (matches_skip 1) (matches_fail expected)

end Steps

end JavaTree.Parser
