import JavaTree.Proofs.Parser.Nesting

/-!
Readers that stay inside the brace group in which they start.

A run is `Contained` when it ends in the brace group in which it started, unless one of its findings
is of a sort that may lead out of it. There are three such sorts, the findings that `Strays` names:

    finding                          what has been passed over
    invalid token, too long          the start of an excerpt, perhaps with an open brace in it
    type that is left out            a header up to its `{` or `;`, perhaps behind a closing brace
    enum constants end badly         less than the rest of the enum

A finding of the first sort has the place at which the excerpt broke off, and not the place at which it
started, so it does not tell whether a brace was open there: it counts wherever it stands.

Runs that are contained make a contained run in sequence, and recovery from a contained run is
contained, so each reader is contained because its parts are.
-/

namespace JavaTree.Parser

open Excerpt

variable {α β : Type} {c : Settings} {s : State}

/-! ### Places inside a brace group -/

/-- A place in a brace group from which on all brackets are closed in order: those opened `since`
the group was entered, and those `around` it. -/
structure Enclosed (since around : List Mark) (ts : List Token) : Prop where
  braceless : Braceless since
  outside : Around around
  nested : openBrackets (since ++ around) ts = some []
  proper : ∀ t ∈ ts, t.kind ≠ .endOfInput

/-- The second place comes behind the first one, in the same brace group. -/
def Stays (ts us : List Token) : Prop :=
  ∃ pre, ts = pre ++ us ∧ ∀ since around, Enclosed since around ts →
    ∃ since', openBrackets since pre = some since' ∧ Enclosed since' around us

theorem Stays.refl (ts : List Token) : Stays ts ts := ⟨[], rfl, fun since _ h => ⟨since, rfl, h⟩⟩

theorem Stays.trans {ts us vs : List Token} (h : Stays ts us) (h' : Stays us vs) : Stays ts vs := by
  obtain ⟨pre, rfl, h⟩ := h
  obtain ⟨pre', rfl, h'⟩ := h'
  refine ⟨pre ++ pre', by rw [List.append_assoc], fun since around henc => ?_⟩
  obtain ⟨since', hpre, henc'⟩ := h since around henc
  obtain ⟨since'', hpre', henc''⟩ := h' since' around henc'
  exact ⟨since'', by rw [openBrackets_append, hpre]; exact hpre', henc''⟩

/-- What is passed over from an enclosed place leaves an enclosed place behind. -/
theorem Enclosed.after {since since' around : List Mark} {pre us : List Token}
    (h : Enclosed since around (pre ++ us)) (hpre : openBrackets since pre = some since')
    (hsince' : Braceless since') : Enclosed since' around us := by
  refine ⟨hsince', h.outside, ?_, fun t ht => h.proper t (List.mem_append_right _ ht)⟩
  have hnested := h.nested
  rw [openBrackets_append, openBrackets_weaken hpre around] at hnested
  exact hnested

theorem Remains.stays {ts : List Token} {n : Nat} (h : Remains ts n) : Stays ts (ts.drop n) := by
  refine ⟨ts.take n, (List.take_append_drop n ts).symm, fun since around henc => ?_⟩
  obtain ⟨since', hsince', hpre⟩ := h since around henc.braceless henc.outside henc.nested
  rw [← List.take_append_drop n ts] at henc
  exact ⟨since', hpre, henc.after hpre hsince'⟩

/-- Brackets that all have their counterparts are passed over from any place. -/
theorem stays_of_balanced {pre us : List Token} (h : openBrackets [] pre = some []) :
    Stays (pre ++ us) us := by
  refine ⟨pre, rfl, fun since around henc => ?_⟩
  have hpre : openBrackets since pre = some since := openBrackets_weaken h since
  exact ⟨since, hpre, henc.after hpre henc.braceless⟩

/-- Behind an opening brace a new group starts. -/
theorem Enclosed.opened {since around : List Mark} {o : Token} {us : List Token}
    (h : Enclosed since around (o :: us)) (ho : o.kind = .mark .openBrace) :
    Enclosed [] (.closeBrace :: (since ++ around)) us := by
  refine ⟨braceless_nil, by simp [Around], ?_, fun t ht => h.proper t (List.mem_cons_of_mem _ ht)⟩
  have hnested := h.nested
  rw [openBrackets, ho] at hnested
  exact hnested

/-- A closing brace closes the group, so that no bracket opened since is left open before it. -/
theorem Enclosed.eq_nil {since around : List Mark} {t : Token} {us : List Token}
    (h : Enclosed since around (t :: us)) (ht : t.kind = .mark .closeBrace) : since = [] := by
  rcases closes_or_steps h.outside h.nested with ⟨hnil, -⟩ | ⟨since', hstep, -⟩
  · exact hnil
  · obtain ⟨m, hm, rfl⟩ := eq_cons_of_closersAfter (by rw [ht]; rfl) hstep
    rw [ht, Kind.mark.injEq] at hm
    exact absurd h.braceless (by simp [Braceless, ← hm])

/-! ### Findings that may lead out of a brace group -/

/-- The header of a type that is left out: what lies before its body, or before a semicolon. -/
def header (ts : List Token) : List Token :=
  ts.takeWhile fun t => t.kind ≠ .mark .openBrace && t.kind ≠ .mark .semicolon

/-- The finding is about a token from which on the tokens have a property. -/
def IsAbout (ts : List Token) (l : Location) (P : List Token → Prop) : Prop :=
  ∃ t us, t :: us <:+ ts ∧ t.location = l ∧ P (t :: us)

/-- The findings after which a reader of the given tokens may have left a brace group: an invalid token or
an excerpt beyond the cap, wherever it stands; a type that was left out and whose header runs over a
closing brace; and enum constants of which what is left behind them does not reach up to their closing
brace. -/
def Strays (c : Settings) (ts : List Token) : Diagnostic → Prop
  | .lexical _ _ => True
  | .limitExceeded what _ _ => ∃ part, what = "tokens in " ++ part
  | .unsupported _ l => IsAbout ts l fun us =>
      (isTypeWord (kindOf us) = true ∨ kindOf us = .mark .atSign) ∧
        ∃ t ∈ header us, t.kind = .mark .closeBrace
  | .unexpectedToken expected _ l => expected = "',', ';' or '\x7d' after enum constants" ∧
      IsAbout ts l fun us =>
        kindOf (us.drop (memberRest c.limits.excerptTokens true 0 us)) ≠ .mark .closeBrace
  | .unexpectedEnd _ _ => False
  | .tooManyErrors _ _ => True

/-- No finding leads out of a brace group. -/
def Mild (c : Settings) (ts : List Token) (ds : List Diagnostic) : Prop := ∀ d ∈ ds, ¬ Strays c ts d

theorem IsAbout.of_suffix {ts us : List Token} {l : Location} {P : List Token → Prop}
    (h : IsAbout us l P) (hsuffix : us <:+ ts) : IsAbout ts l P := by
  obtain ⟨t, vs, hvs, hl, hP⟩ := h
  exact ⟨t, vs, hvs.trans hsuffix, hl, hP⟩

theorem Strays.of_suffix {ts us : List Token} {d : Diagnostic} (h : Strays c us d)
    (hsuffix : us <:+ ts) : Strays c ts d := by
  cases d with
  | unsupported construct l =>
    simp only [Strays] at h ⊢
    exact h.of_suffix hsuffix
  | unexpectedToken expected found l => exact ⟨h.1, h.2.of_suffix hsuffix⟩
  | lexical | limitExceeded | unexpectedEnd | tooManyErrors => exact h

theorem Mild.of_suffix {ts us : List Token} {ds : List Diagnostic} (h : Mild c ts ds)
    (hsuffix : us <:+ ts) : Mild c us ds :=
  fun d hd hs => h d hd (hs.of_suffix hsuffix)

theorem mild_append {ts : List Token} {ds es : List Diagnostic} :
    Mild c ts (ds ++ es) ↔ Mild c ts ds ∧ Mild c ts es := by
  simp [Mild, or_imp, forall_and]

theorem not_mild_tooManyErrors {ts : List Token} {n : Nat} {l : Location} {ds : List Diagnostic} :
    ¬ Mild c ts (ds ++ [.tooManyErrors n l]) :=
  fun h => h (.tooManyErrors n l) (by simp) trivial

/-! ### Contained runs -/

/-- Where a run ends. -/
def final : EStateM.Result Diagnostic State α → State
  | .ok _ s | .error _ s => s

/-- The finding that has stopped a run, if one did. -/
def stopping : EStateM.Result Diagnostic State α → List Diagnostic
  | .ok _ _ => []
  | .error d _ => [d]

/-- A run that starts in a state does not leave the brace group there, unless one of its findings
leads out of it. -/
def Contained (c : Settings) (s : State) (r : EStateM.Result Diagnostic State α) : Prop :=
  (final r).rest <:+ s.rest ∧ ∃ new, (final r).diagnostics = s.diagnostics ++ new ∧
    (Mild c s.rest (new ++ stopping r) → Stays s.rest (final r).rest)

/-- A run that neither moves nor records a finding. -/
theorem contained_still (r : EStateM.Result Diagnostic State α) (hrest : (final r).rest = s.rest)
    (hdiag : (final r).diagnostics = s.diagnostics) : Contained c s r :=
  ⟨hrest ▸ List.suffix_refl _, [], by simp [hdiag], fun _ => hrest ▸ .refl _⟩

theorem contained_ok (a : α) : Contained c s (.ok a s) := contained_still _ rfl rfl

theorem contained_error (d : Diagnostic) : Contained c s (.error d s : EStateM.Result _ _ α) :=
  contained_still _ rfl rfl

theorem contained_fail (expected : String) : Contained c s ((fail expected : Parser α) c s) := by
  rw [fail_run]
  exact contained_error _

/-- A sequence of contained runs is contained, also seen from a place before it. -/
theorem contained_bind {p : Parser α} {f : α → Parser β} {t : State} (hp : Contained c t (p c s))
    (hf : ∀ a s', p c s = .ok a s' → Contained c s' (f a c s')) : Contained c t ((p >>= f) c s) := by
  rw [bind_run]
  cases h : p c s with
  | error d s' =>
    rw [h] at hp
    exact hp
  | ok a s' =>
    obtain ⟨hsuffix, new, hnew, hstays⟩ := h ▸ hp
    obtain ⟨hsuffix', new', hnew', hstays'⟩ := hf a s' h
    refine ⟨hsuffix'.trans hsuffix, new ++ new', ?_, fun hmild => ?_⟩
    · rw [hnew', ← List.append_assoc]
      exact congrArg (· ++ new') hnew
    · rw [List.append_assoc, mild_append] at hmild
      exact (hstays (by simpa [stopping] using hmild.1)).trans (hstays' (hmild.2.of_suffix hsuffix))

theorem contained_map {p : Parser α} {f : α → β} (hp : Contained c s (p c s)) :
    Contained c s ((f <$> p) c s) := by
  rw [map_run]
  cases h : p c s with
  | ok a s' =>
    rw [h] at hp
    exact hp
  | error d s' =>
    rw [h] at hp
    exact hp

/-- Passing over tokens by a rule that does not leave the brace group. -/
theorem contained_skip {n : Nat} (h : Remains s.rest n) : Contained c s (skip n c s) :=
  ⟨List.drop_suffix n s.rest, [], by simp [final], fun _ => h.stays⟩

theorem contained_skipBy {rule : List Token → Nat} (h : Remains s.rest (rule s.rest)) :
    Contained c s (skipBy rule c s) := by
  rw [skipBy_run]
  exact contained_skip h

theorem contained_report (d : Diagnostic) : Contained c s (report d c s) := by
  rw [report_run]
  split
  · split <;> exact ⟨List.suffix_refl _, [d], rfl, fun _ => .refl _⟩
  · exact contained_error d

/-- A contained run that was stopped, with its finding recorded and another contained run behind it. -/
theorem contained_resumed {d : Diagnostic} {s' : State} {r : EStateM.Result Diagnostic State β}
    (hp : Contained c s (.error d s' : EStateM.Result Diagnostic State α))
    (hr : Contained c (s'.noted d) r) : Contained c s r := by
  obtain ⟨hsuffix, new, hnew, hstays⟩ := hp
  obtain ⟨hsuffix', new', hnew', hstays'⟩ := hr
  refine ⟨hsuffix'.trans hsuffix, new ++ [d] ++ new', ?_, fun hmild => ?_⟩
  · rw [hnew', noted_diagnostics, ← List.append_assoc, ← List.append_assoc]
    exact congrArg (· ++ [d] ++ new') hnew
  · rw [List.append_assoc, mild_append] at hmild
    exact (hstays hmild.1).trans (hstays' (hmild.2.of_suffix hsuffix))

/-- Recovery from a contained run is contained: the finding that stopped the run is recorded. -/
theorem contained_recover {p resume : Parser α} (hp : Contained c s (p c s))
    (hresume : ∀ s', Contained c s' (resume c s')) : Contained c s (recover p resume c s) := by
  rw [recover_run]
  cases h : p c s with
  | ok a s' =>
    rw [h] at hp
    exact hp
  | error d s' =>
    rw [h] at hp
    by_cases hd : d.isRecoverable = true
    · by_cases hbudget : c.budget.allows (s'.noted d).diagnostics = true
      · have hreport : report d c s' = .ok () (s'.noted d) := by
          rw [report_run, if_pos hd, if_pos hbudget]
        simp only [bind_run_ok hreport]
        exact contained_resumed hp (hresume _)
      · have hreport : report d c s' =
            .error (.tooManyErrors (s'.noted d).diagnostics.length d.location) (s'.noted d) := by
          rw [report_run, if_pos hd, if_neg hbudget]
        simp only [bind_run_error hreport]
        exact contained_resumed hp (contained_error _)
    · have hreport : report d c s' = .error d s' := by rw [report_run, if_neg hd]
      simp only [bind_run_error hreport]
      exact hp

/-! ### Readers that meet no brace -/

/-- A token that is no brace. -/
def isNoBrace (k : Kind) : Bool := k ≠ .mark .openBrace && k ≠ .mark .closeBrace

theorem isNoBrace_of_not_endsAngle {k : Kind} (h : ¬ endsAngle k = true) : isNoBrace k = true := by
  cases k with
  | mark m => cases m <;> first | rfl | exact absurd rfl h
  | _ => rfl

/-- A run that passes over no brace and records no finding. -/
def Skirts (s : State) (r : EStateM.Result Diagnostic State α) : Prop :=
  (final r).diagnostics = s.diagnostics ∧
    ∃ n, (final r).rest = s.rest.drop n ∧ ∀ t ∈ s.rest.take n, isNoBrace t.kind = true

theorem Skirts.contained {r : EStateM.Result Diagnostic State α} (h : Skirts s r) :
    Contained c s r := by
  obtain ⟨hdiag, n, hrest, hn⟩ := h
  refine ⟨by rw [hrest]; exact List.drop_suffix n s.rest, [], by simp [hdiag], fun _ => ?_⟩
  rw [hrest]
  exact (remains_of_braceless fun t ht => by simpa [isNoBrace] using hn t ht).stays

theorem skirts_still (r : EStateM.Result Diagnostic State α) (hrest : (final r).rest = s.rest)
    (hdiag : (final r).diagnostics = s.diagnostics) : Skirts s r :=
  ⟨hdiag, 0, by simp [hrest], by simp⟩

theorem skirts_ok (a : α) : Skirts s (.ok a s) := skirts_still _ rfl rfl

theorem skirts_fail (expected : String) : Skirts s ((fail expected : Parser α) c s) := by
  rw [fail_run]
  exact skirts_still _ rfl rfl

theorem skirts_bind {p : Parser α} {f : α → Parser β} (hp : Skirts s (p c s))
    (hf : ∀ a s', p c s = .ok a s' → Skirts s' (f a c s')) : Skirts s ((p >>= f) c s) := by
  rw [bind_run]
  cases h : p c s with
  | error d s' =>
    rw [h] at hp
    exact hp
  | ok a s' =>
    obtain ⟨hdiag, n, hrest, hn⟩ := h ▸ hp
    obtain ⟨hdiag', n', hrest', hn'⟩ := hf a s' h
    simp only [final] at hrest hdiag
    refine ⟨by rw [hdiag', hdiag], n + n', by rw [hrest', hrest, List.drop_drop], fun t ht => ?_⟩
    rw [List.take_add, List.mem_append] at ht
    rcases ht with ht | ht
    · exact hn t ht
    · exact hn' t (by rw [hrest]; exact ht)

/-- A run that passes over tokens, none of them a brace. -/
theorem skirts_moved {r : EStateM.Result Diagnostic State α} {n : Nat} (hr : final r = s.skip n)
    (h : ∀ t ∈ s.rest.take n, isNoBrace t.kind = true) : Skirts s r :=
  ⟨by rw [hr, skip_diagnostics], n, by rw [hr, skip_rest], h⟩

theorem skirts_moved_one {r : EStateM.Result Diagnostic State α} (hr : final r = s.skip 1)
    (h : isNoBrace (kindOf s.rest) = true) : Skirts s r := by
  refine skirts_moved hr fun t ht => ?_
  rcases hs : s.rest with _ | ⟨u, us⟩
  · simp [hs] at ht
  · simp only [hs, List.take_succ_cons, List.take_zero, List.mem_singleton] at ht h
    rw [ht]
    exact h

theorem skirts_skip_one (h : isNoBrace (kindOf s.rest) = true) : Skirts s (skip 1 c s) :=
  skirts_moved_one rfl h

theorem skirts_accept {k : Kind} (hk : isNoBrace k = true) : Skirts s (accept k c s) := by
  rw [accept_run]
  split
  · next h => exact skirts_moved_one rfl (by rw [h]; exact hk)
  · exact skirts_ok false

theorem skirts_require {k : Kind} (hk : isNoBrace k = true) (expected : String) :
    Skirts s (require k expected c s) := by
  rw [require_run]
  split
  · next h => exact skirts_moved_one rfl (by rw [h]; exact hk)
  · exact skirts_still _ rfl rfl

theorem skirts_identifier : Skirts s (identifier c s) := by
  rw [identifier_run]
  split
  · next h => exact skirts_moved_one rfl (by rw [h]; rfl)
  · exact skirts_still _ rfl rfl

theorem isNoBrace_furtherNames {ts : List Token} :
    ∀ t ∈ ts.take (2 * (furtherNames ts).length), isNoBrace t.kind = true := by
  fun_induction furtherNames ts with
  | case1 d t ts h ih =>
    intro u hu
    simp only [List.length_cons, Nat.mul_add, Nat.mul_one, List.take_succ_cons, List.mem_cons] at hu
    rcases hu with rfl | rfl | hu
    · rw [h.1]
      rfl
    · rw [h.2]
      rfl
    · exact ih u hu
  | case2 => simp
  | case3 => simp

theorem isNoBrace_dimensions {ts : List Token} :
    ∀ t ∈ ts.take (2 * dimensions ts), isNoBrace t.kind = true := by
  fun_induction dimensions ts with
  | case1 a b ts h ih =>
    intro u hu
    simp only [Nat.mul_add, Nat.mul_one, List.take_succ_cons, List.mem_cons] at hu
    rcases hu with rfl | rfl | hu
    · rw [h.1]
      rfl
    · rw [h.2]
      rfl
    · exact ih u hu
  | case2 => simp
  | case3 => simp

theorem isNoBrace_angleExtent {cap : Nat} {depth : Int} {ts : List Token} :
    ∀ t ∈ ts.take (angleExtent cap depth ts).1, isNoBrace t.kind = true := by
  fun_induction angleExtent cap depth ts with
  | case1 => simp
  | case2 => simp
  | case3 => simp
  | case4 depth t ts h room d hd =>
    intro u hu
    simp only [List.take_succ_cons, List.take_zero, List.mem_singleton] at hu
    rw [hu]
    exact isNoBrace_of_not_endsAngle h
  | case5 depth t ts h room d hd n e hrec ih =>
    intro u hu
    simp only [List.take_succ_cons, List.mem_cons] at hu
    rcases hu with rfl | hu
    · exact isNoBrace_of_not_endsAngle h
    · rw [hrec] at ih
      exact ih u hu

theorem skirts_qualifiedName : Skirts s (qualifiedName c s) := by
  refine skirts_bind skirts_identifier fun first s' _ => ?_
  simp only [bind_run, rest_run, skip_run, pure_run]
  exact skirts_moved rfl isNoBrace_furtherNames

theorem skirts_brackets : Skirts s (brackets c s) := by
  rw [brackets_run]
  exact skirts_moved rfl isNoBrace_dimensions

theorem skirts_angleText : Skirts s (angleText c s) := by
  have hn : ∀ t ∈ s.rest.take (angleExtent c.limits.excerptTokens 0 s.rest).1,
      isNoBrace t.kind = true := isNoBrace_angleExtent
  rw [angleText_run]
  cases (angleExtent c.limits.excerptTokens 0 s.rest).2 <;> exact skirts_moved rfl hn

theorem skirts_typeParameters : Skirts s (typeParameters c s) := by
  rw [typeParameters, bind_run_ok (check_run _), ite_run]
  split
  · exact skirts_bind skirts_angleText fun _ _ _ => skirts_ok _
  · exact skirts_ok _

/-- A choice between two readers with one continuation. -/
theorem skirts_join {b : Prop} [Decidable b] {p q : Parser α} {k : α → Parser β}
    (hp : b → Skirts s (p c s)) (hq : ¬ b → Skirts s (q c s))
    (hk : ∀ a s', Skirts s' (k a c s')) : Skirts s ((if b then p >>= k else q >>= k) c s) := by
  rw [ite_run]
  split
  · next h => exact skirts_bind (hp h) fun a s' _ => hk a s'
  · next h => exact skirts_bind (hq h) fun a s' _ => hk a s'

theorem kindOf_of_startsWith {a b : Kind} {ts : List Token} (h : startsWith a b ts = true) :
    kindOf ts = a := by
  rcases ts with _ | ⟨t, _ | ⟨u, us⟩⟩
  · cases h
  · cases h
  · simp only [startsWith, Bool.and_eq_true, decide_eq_true_eq] at h
    exact h.1

theorem skirts_typeName (known : String) (n : Nat) : Skirts s (typeName known n c s) := by
  induction n generalizing known s with
  | zero => exact skirts_ok known
  | succ n ih =>
    rw [typeName, bind_run_ok (check_run _)]
    simp only [← bind_assoc]
    refine skirts_join (fun _ => skirts_bind skirts_angleText fun _ _ _ => skirts_ok _)
      (fun _ => skirts_ok known) fun named s' => ?_
    rw [bind_run_ok rest_run, ite_run]
    split
    · next h =>
      refine skirts_bind (skirts_bind (skirts_skip_one ?_) fun _ _ _ => skirts_identifier) ?_
      · rw [kindOf_of_startsWith h]
        rfl
      · exact fun name _ _ => ih _
    · exact skirts_ok named

theorem skirts_typeUse : Skirts s (typeUse c s) := by
  rw [typeUse, bind_run_ok here_run, bind_run_ok peek_run]
  simp only [next_kind, ← bind_assoc]
  have hbrackets (name : String) (s' : State) : Skirts s' ((do
      let n ← brackets
      return ⟨name, n, ← Parser.spanFrom (s.next c).location⟩ : Parser TypeUse) c s') := by
    refine skirts_bind skirts_brackets fun n s'' _ => ?_
    rw [bind_run_ok (spanFrom_run _)]
    exact skirts_ok _
  rw [ite_run]
  split
  · next h =>
    have hk : isNoBrace (kindOf s.rest) = true := by
      revert h
      cases kindOf s.rest <;> simp [Kind.isPrimitive, isNoBrace]
    exact skirts_bind (skirts_bind (skirts_skip_one hk) fun _ _ _ => skirts_ok _) fun name s' _ =>
      hbrackets name s'
  · rw [ite_run]
    split
    · exact skirts_bind (skirts_bind skirts_identifier fun _ _ _ =>
        skirts_bind (skirts_ok _) fun _ _ _ => skirts_typeName _ _) fun name s' _ => hbrackets name s'
    · exact skirts_bind (skirts_fail _) fun name s' _ => hbrackets name s'

theorem skirts_moreTypes (n : Nat) : Skirts s (moreTypes n c s) := by
  induction n generalizing s with
  | zero => exact skirts_ok []
  | succ n ih =>
    refine skirts_bind (skirts_accept rfl) fun more s' _ => ?_
    rw [ite_run]
    split
    · exact skirts_bind skirts_typeUse fun _ _ _ => skirts_bind ih fun _ _ _ => skirts_ok _
    · exact skirts_ok []

theorem skirts_typeList : Skirts s (typeList c s) := by
  refine skirts_bind skirts_typeUse fun first s' _ => ?_
  rw [bind_run_ok steps_run]
  exact skirts_bind (skirts_moreTypes _) fun _ _ _ => skirts_ok _

theorem skirts_typesAfter (k : Keyword) : Skirts s (typesAfter k c s) := by
  refine skirts_bind (skirts_accept rfl) fun more s' _ => ?_
  rw [ite_run]
  split
  · exact skirts_typeList
  · exact skirts_ok []

/-! ### Excerpts -/

/-- What the end of a capture says about brackets, with the given ones open at its start. -/
def CaptureEnd.Tells (closers : List Mark) (ts : List Token) (n : Nat) : CaptureEnd → Prop
  | .complete => openBrackets closers (ts.take n) = some []
  | .unclosed => ∃ m ms, openBrackets closers ts = some (m :: ms)
  | .mismatched => ∀ outer, openBrackets (closers ++ outer) ts = none
  | .invalid => kindOf (ts.drop n) = .invalid
  | .overLong => True

/-- A bracket that closes another one than the innermost does so whatever is open around. -/
theorem closersAfter_mismatched {m : Mark} {ms : List Mark} {k : Kind}
    (h : closersAfter (m :: ms) k = none) (outer : List Mark) :
    closersAfter (m :: ms ++ outer) k = none := by
  refine Option.eq_none_iff_forall_ne_some.mpr fun ns hns => ?_
  have hno (ns' : List Mark) (hturns : Turns (m :: ms) k ns') : False := by
    rw [hturns.closersAfter] at h
    cases h
  cases turns_of_closersAfter hns with
  | opens hb => exact hno _ (.opens hb _)
  | closes hb => exact hno _ (.closes hb _)
  | passes ho hc => exact hno _ (.passes ho hc _)

theorem isCloser_of_closersAfter {k : Kind} (h : closersAfter [] k = none) : isCloser k = true := by
  cases hc : isCloser k with
  | true => rfl
  | false =>
    cases ho : isOpener k with
    | true =>
      obtain ⟨d, hstep⟩ := closersAfter_opener ho
      rw [hstep] at h
      cases h
    | false =>
      rw [closersAfter_neutral ho hc] at h
      cases h

theorem tells_extent (rule : CaptureRule) (cap : Nat) (closers : List Mark)
    (previous : Option Kind) (ts : List Token) :
    (extent rule cap closers previous ts).2.Tells closers ts
      (extent rule cap closers previous ts).1 := by
  fun_induction extent rule cap closers previous ts with
  | case1 cap closers previous =>
    rcases closers with _ | ⟨m, ms⟩
    · exact rfl
    · exact ⟨m, ms, rfl⟩
  | case2 cap closers previous t ts hk => exact hk
  | case3 cap closers previous t ts hk hends =>
    simp only [Bool.and_eq_true, List.isEmpty_iff] at hends
    rw [hends.1]
    exact rfl
  | case4 cap closers previous t ts hk hends hnone =>
    rcases closers with _ | ⟨m, ms⟩
    · -- outside of all brackets, a closing bracket ends the capture before it can be out of order
      have hcloser := isCloser_of_closersAfter hnone
      simp [endsBefore_eq, hcloser] at hends
    · intro outer
      rw [openBrackets, closersAfter_mismatched hnone]
      rfl
  | case5 closers previous t ts hk hends inner hinner => trivial
  | case6 closers previous t ts hk hends inner hinner room n e hrec ih =>
    rw [hrec] at ih
    cases e with
    | complete => simpa only [CaptureEnd.Tells, List.take_succ_cons, openBrackets, hinner,
        Option.bind_some] using ih
    | unclosed => simpa only [CaptureEnd.Tells, openBrackets, hinner, Option.bind_some] using ih
    | mismatched =>
      intro outer
      rw [openBrackets, closersAfter_append hinner]
      exact ih outer
    | invalid => exact ih
    | overLong => trivial

/-- A place before brackets that are not closed in order is in no brace group. -/
theorem stays_of_not_enclosed {ts : List Token} (n : Nat)
    (h : ∀ since around, ¬ Enclosed since around ts) : Stays ts (ts.drop n) :=
  ⟨ts.take n, (List.take_append_drop n ts).symm, fun since around henc => absurd henc (h since around)⟩

theorem contained_moved {r : EStateM.Result Diagnostic State α} {n : Nat} (hr : final r = s.skip n)
    (h : Mild c s.rest (stopping r) → Stays s.rest (s.rest.drop n)) : Contained c s r :=
  ⟨by rw [hr]; exact List.drop_suffix n s.rest, [], by rw [hr]; simp, by rw [hr]; exact h⟩

/-- Reading an excerpt is contained: brackets that are closed in order never end it badly. -/
theorem contained_excerpt (rule : CaptureRule) (what : String) :
    Contained c s (excerpt rule what c s) := by
  have htells := tells_extent rule c.limits.excerptTokens [] none s.rest
  rcases hx : extent rule c.limits.excerptTokens [] none s.rest with ⟨n, ending⟩
  rw [hx] at htells
  simp only [excerpt, bind_run, read_run, rest_run, hx, skip_run]
  cases ending with
  | complete =>
    have hstays : Stays s.rest (s.rest.drop n) := by
      have hbalanced := @stays_of_balanced _ (s.rest.drop n) htells
      rwa [List.take_append_drop] at hbalanced
    simp only [ite_run, fail_run, pure_run]
    split <;> exact contained_moved rfl fun _ => hstays
  | unclosed =>
    obtain ⟨m, ms, hopen⟩ := htells
    simp only [fail_run]
    refine contained_moved rfl fun _ => stays_of_not_enclosed n fun since around henc => ?_
    have hnested := openBrackets_weaken hopen (since ++ around)
    rw [List.nil_append, henc.nested] at hnested
    cases hnested
  | mismatched =>
    simp only [fail_run]
    refine contained_moved rfl fun _ => stays_of_not_enclosed n fun since around henc => ?_
    have hnested := htells (since ++ around)
    rw [List.nil_append, henc.nested] at hnested
    cases hnested
  | invalid =>
    simp only [fail_run]
    refine contained_moved rfl fun hmild => absurd ?_ (hmild _ List.mem_cons_self)
    rw [mismatch, next_kind, skip_rest, show kindOf (s.rest.drop n) = .invalid from htells]
    dsimp only
    split <;> trivial
  | overLong =>
    simp only [bind_run_ok here_run, throw_run]
    refine contained_moved rfl fun hmild => absurd ?_ (hmild _ List.mem_cons_self)
    exact ⟨what, rfl⟩

/-! ### Parts -/

/-- A choice between two readers with one continuation. -/
theorem contained_join {b : Prop} [Decidable b] {p q : Parser α} {k : α → Parser β}
    (hp : b → Contained c s (p c s)) (hq : ¬ b → Contained c s (q c s))
    (hk : ∀ a s', Contained c s' (k a c s')) :
    Contained c s ((if b then p >>= k else q >>= k) c s) := by
  rw [ite_run]
  split
  · next h => exact contained_bind (hp h) fun a s' _ => hk a s'
  · next h => exact contained_bind (hq h) fun a s' _ => hk a s'

theorem contained_spanFrom (start : Location) (f : Span → α) :
    Contained c s ((do return f (← Parser.spanFrom start) : Parser α) c s) := by
  rw [bind_run_ok (spanFrom_run start)]
  exact contained_ok _

theorem contained_parenthesized (what : String) : Contained c s (parenthesized what c s) := by
  refine contained_bind (skirts_require rfl _).contained fun _ _ _ => ?_
  refine contained_bind (contained_excerpt _ _) fun _ _ _ => ?_
  exact contained_bind (skirts_require rfl _).contained fun _ _ _ => contained_ok _

theorem contained_arguments (what : String) : Contained c s (arguments what c s) := by
  refine contained_bind (skirts_require rfl _).contained fun _ s' _ => ?_
  rw [bind_run_ok (check_run _)]
  refine contained_join (fun _ => contained_ok _) (fun _ => contained_excerpt _ _) fun _ _ => ?_
  exact contained_bind (skirts_require rfl _).contained fun _ _ _ => contained_ok _

theorem contained_optionalArguments (what : String) :
    Contained c s (optionalArguments what c s) := by
  rw [optionalArguments, bind_run_ok (check_run _), ite_run]
  split
  · exact contained_bind (contained_arguments what) fun _ _ _ => contained_ok _
  · exact contained_ok none

theorem contained_annotationUse : Contained c s (annotationUse c s) := by
  rw [annotationUse, bind_run_ok here_run]
  refine contained_bind (skirts_require rfl _).contained fun _ _ _ => ?_
  refine contained_bind skirts_qualifiedName.contained fun _ _ _ => ?_
  exact contained_bind (contained_optionalArguments _) fun _ _ _ => contained_spanFrom _ _

theorem contained_annotations (n : Nat) : Contained c s (annotations n c s) := by
  induction n generalizing s with
  | zero => exact contained_ok []
  | succ n ih =>
    rw [annotations, bind_run_ok rest_run, ite_run]
    split
    · exact contained_bind contained_annotationUse fun _ _ _ => contained_bind ih fun _ _ _ =>
        contained_ok _
    · exact contained_ok []

theorem contained_qualifiers (found : Qualifiers) (n : Nat) :
    Contained c s (qualifiers found n c s) := by
  induction n generalizing found s with
  | zero => exact contained_ok found
  | succ n ih =>
    rw [qualifiers, bind_run_ok rest_run, ite_run]
    split
    · exact contained_bind contained_annotationUse fun _ _ _ => ih _
    · rw [bind_run_ok kind_run]
      cases hm : (kindOf s.rest).modifier? with
      | none => exact contained_ok found
      | some m =>
        simp only [bind_run_ok secondKind_run, ite_run]
        split
        · exact contained_ok found
        · refine contained_bind (skirts_skip_one ?_).contained fun _ _ _ => ih _
          revert hm
          cases kindOf s.rest <;> simp [Kind.modifier?, isNoBrace]

theorem contained_allQualifiers : Contained c s (allQualifiers c s) := by
  rw [allQualifiers, bind_run_ok steps_run]
  exact contained_qualifiers _ _

theorem contained_declarator : Contained c s (declarator c s) := by
  rw [declarator, bind_run_ok here_run]
  refine contained_bind skirts_identifier.contained fun _ _ _ => ?_
  refine contained_bind skirts_brackets.contained fun _ _ _ => ?_
  refine contained_bind (skirts_accept rfl).contained fun _ _ _ => ?_
  simp only [← bind_assoc]
  refine contained_join (fun _ => ?_) (fun _ => contained_ok none) fun _ _ => contained_spanFrom _ _
  exact contained_bind (contained_excerpt _ _) fun _ _ _ => contained_ok _

theorem contained_declaratorList (n : Nat) : Contained c s (declaratorList n c s) := by
  induction n generalizing s with
  | zero => exact contained_ok []
  | succ n ih =>
    refine contained_bind contained_declarator fun d _ _ => ?_
    refine contained_bind (skirts_accept rfl).contained fun _ _ _ => ?_
    rw [ite_run]
    split
    · exact contained_bind ih fun _ _ _ => contained_ok _
    · exact contained_ok [d]

theorem contained_declarators : Contained c s (declarators c s) := by
  rw [declarators, bind_run_ok steps_run]
  refine contained_bind (contained_declaratorList _) fun _ _ _ => ?_
  exact contained_bind (skirts_require rfl _).contained fun _ _ _ => contained_ok _

theorem contained_fields (start : Location) (q : Qualifiers) :
    Contained c s (fields start q c s) := by
  refine contained_bind skirts_typeUse.contained fun _ _ _ => ?_
  exact contained_bind contained_declarators fun _ _ _ => contained_spanFrom _ _

/-! ### Types that are left out -/

theorem typeBody_eq (ts : List Token) :
    typeBody ts = (header ts).length +
      if kindOf (ts.drop (header ts).length) = .mark .openBrace then
        group 0 (ts.drop (header ts).length)
      else min 1 (ts.drop (header ts).length).length := rfl

/-- The header of a type ends before its body, before a semicolon, or with the input. -/
theorem header_ends (ts : List Token) :
    ts.take (header ts).length = header ts ∧ (∀ t ∈ header ts, t.kind ≠ .mark .openBrace) ∧
      (kindOf (ts.drop (header ts).length) = .mark .openBrace ∨
        kindOf (ts.drop (header ts).length) = .mark .semicolon ∨ ts.drop (header ts).length = []) := by
  induction ts with
  | nil => exact ⟨rfl, by simp [header], .inr (.inr rfl)⟩
  | cons t ts ih =>
    by_cases ho : t.kind = .mark .openBrace
    · rw [show header (t :: ts) = [] by simp [header, ho]]
      exact ⟨rfl, by simp, .inl ho⟩
    · by_cases hs : t.kind = .mark .semicolon
      · rw [show header (t :: ts) = [] by simp [header, hs]]
        exact ⟨rfl, by simp, .inr (.inl hs)⟩
      · rw [show header (t :: ts) = t :: header ts by simp [header, ho, hs]]
        obtain ⟨htake, hopen, hends⟩ := ih
        refine ⟨by simp [htake], fun u hu => ?_, hends⟩
        rcases List.mem_cons.mp hu with rfl | hu
        · exact ho
        · exact hopen u hu

/-- Behind the header of a type there is a body, a semicolon, or nothing. -/
theorem remains_behind_header (ts : List Token)
    (hts : kindOf ts = .mark .openBrace ∨ kindOf ts = .mark .semicolon ∨ ts = []) :
    Remains ts (if kindOf ts = .mark .openBrace then group 0 ts else min 1 ts.length) := by
  rcases ts with _ | ⟨t, ts⟩
  · exact remains_of_braceless (by simp)
  · split
    · next h => exact (walk_group (by rw [show t.kind = _ from h]; rfl) ts).remains
    · next h =>
      refine remains_of_braceless fun u hu => ?_
      have hsemi : t.kind = .mark .semicolon := (hts.resolve_left h).resolve_right (by simp)
      simp only [List.length_cons, Nat.min_eq_left (Nat.succ_le_succ (Nat.zero_le _)),
        List.take_succ_cons, List.take_zero, List.mem_singleton] at hu
      rw [hu, hsemi]
      exact ⟨nofun, nofun⟩

theorem stays_typeBody {ts : List Token} (h : ∀ t ∈ header ts, t.kind ≠ .mark .closeBrace) :
    Stays ts (ts.drop (typeBody ts)) := by
  obtain ⟨htake, hopen, hends⟩ := header_ends ts
  have hheader : Remains ts (header ts).length := by
    refine remains_of_braceless fun t ht => ?_
    rw [htake] at ht
    exact ⟨hopen t ht, h t ht⟩
  rw [typeBody_eq, ← List.drop_drop]
  exact hheader.stays.trans (remains_behind_header _ hends).stays

/-- Leaving out a type is contained: its finding tells whether its header runs over a brace. -/
theorem contained_skipType (construct : String)
    (h : isTypeWord (kindOf s.rest) = true ∨ kindOf s.rest = .mark .atSign) :
    Contained c s (skipType construct c s) := by
  rw [skipType, bind_run_ok here_run, bind_run_ok (skipBy_run _), report_run,
    if_pos (show Diagnostic.isRecoverable (.unsupported _ _) = true from rfl)]
  have hsuffix : s.rest.drop (typeBody s.rest) <:+ s.rest := List.drop_suffix _ _
  split
  · refine ⟨hsuffix, [.unsupported construct (s.next c).location], rfl, fun hmild => ?_⟩
    refine stays_typeBody fun t ht hclose => hmild _ List.mem_cons_self ?_
    rcases hs : s.rest with _ | ⟨u, us⟩
    · rw [hs] at ht
      cases ht
    · rw [hs] at h ht
      exact ⟨u, us, List.suffix_refl _, by simp [State.next, hs], h, t, ht, hclose⟩
  · exact ⟨hsuffix, [.unsupported construct (s.next c).location], rfl,
      fun hmild => absurd hmild not_mild_tooManyErrors⟩

end JavaTree.Parser
