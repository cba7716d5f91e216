import JavaTree.Proofs.Parser.Containment
import JavaTree.Proofs.Token.Spacing

/-!
Runs without findings.

A run without findings that has a result has passed over some tokens, and `Reads` says what these
tokens have to do with the result and with the tokens that are left. Findings are only ever added,
so the parts of a run without findings are such runs, too: there is one rule for sequences, one for
each way to look ahead, and recovery never takes part.

    p >>= f        reads us ++ vs     when p reads us, and f reads vs behind it
    recover p q    reads us           when p reads us
    report d       reads nothing      for there is no such run
-/

namespace JavaTree

/-- A token that a source text can have, or one in the place of a fault. -/
def Token.IsSound (t : Token) : Prop := t.kind = .invalid ∨ t.IsReadable

theorem Token.IsSound.isReadable {t : Token} (h : t.IsSound) (hk : t.kind ≠ .invalid) :
    t.IsReadable :=
  h.resolve_left hk

/-- A token that a source text can have is neither the end of the input nor invalid. -/
theorem Token.IsReadable.kind_ne {t : Token} (h : t.IsReadable) :
    t.kind ≠ .endOfInput ∧ t.kind ≠ .invalid := by
  cases h with
  | name _ hkind =>
    rcases Pattern.nameKind_cases t.lexeme.toList with ⟨k, hname⟩ | hname <;> rw [hkind, hname] <;>
      exact ⟨nofun, nofun⟩
  | number hkind => rcases hkind with hkind | hkind <;> rw [hkind] <;> exact ⟨nofun, nofun⟩
  | mark m hkind => rw [hkind]; exact ⟨nofun, nofun⟩
  | string v hkind => rw [hkind]; exact ⟨nofun, nofun⟩
  | character v hkind => rw [hkind]; exact ⟨nofun, nofun⟩

theorem Token.IsReadable.written_of_mark {t : Token} (h : t.IsReadable) {m : Mark} (hk : t.kind = .mark m) :
    t.written = .mark m := by
  cases h with
  | name _ hkind =>
    rcases Pattern.nameKind_cases t.lexeme.toList with ⟨k, hname⟩ | hname <;>
      cases (hk.symm.trans hkind).trans hname
  | number hkind => rcases hkind with hkind | hkind <;> exact absurd (hkind.symm.trans hk) nofun
  | mark m' hkind hlexeme =>
    obtain rfl : m' = m := by simpa using hkind.symm.trans hk
    obtain ⟨k, x, l⟩ := t
    subst hk
    subst hlexeme
    rfl
  | string v hkind => exact absurd (hkind.symm.trans hk) nofun
  | character v hkind => exact absurd (hkind.symm.trans hk) nofun

theorem Token.IsReadable.lexeme_of_keyword {t : Token} (h : t.IsReadable) {k : Keyword}
    (hk : t.kind = .keyword k) : t.lexeme = k.text := by
  cases h with
  | name _ hkind =>
    rw [hk, Pattern.nameKind, String.ofList_toList] at hkind
    split at hkind
    · next k' hfind =>
      cases hkind
      have htext := List.find?_some hfind
      exact (of_decide_eq_true htext).symm
    · cases hkind
  | number hkind => rcases hkind with hkind | hkind <;> cases hkind.symm.trans hk
  | mark m hkind => cases hkind.symm.trans hk
  | string v hkind => cases hkind.symm.trans hk
  | character v hkind => cases hkind.symm.trans hk

theorem Token.IsReadable.isIdentifier {t : Token} (h : t.IsReadable) (hk : t.kind = .identifier) :
    IsIdentifier t.lexeme := by
  cases h with
  | name hname hkind =>
    refine ⟨hname, ?_⟩
    rw [hk, Pattern.nameKind, String.ofList_toList] at hkind
    split at hkind
    · cases hkind
    · assumption
  | number hkind => rcases hkind with hkind | hkind <;> cases hkind.symm.trans hk
  | mark m hkind => cases hkind.symm.trans hk
  | string v hkind => cases hkind.symm.trans hk
  | character v hkind => cases hkind.symm.trans hk

namespace Parser

variable {α β : Type} {c : Settings}

/-! ### Findings are only added -/

/-- Runs of a reader keep the findings that there are. -/
def Grows (c : Settings) (p : Parser α) : Prop := ∀ s, s.diagnostics <+: (final (p c s)).diagnostics

theorem grows_pure (a : α) : Grows c (pure a) := fun _ => List.prefix_refl _

theorem grows_fail (expected : String) : Grows c (fail expected : Parser α) := by
  intro s
  rw [fail_run]
  exact List.prefix_refl _

theorem grows_skipBy (rule : List Token → Nat) : Grows c (skipBy rule) :=
  fun _ => List.prefix_refl _

theorem grows_bind {p : Parser α} {f : α → Parser β} (hp : Grows c p) (hf : ∀ a, Grows c (f a)) :
    Grows c (p >>= f) := by
  intro s
  have hs := hp s
  rw [bind_run]
  cases hrun : p c s with
  | error d s' => rwa [hrun] at hs
  | ok a s' =>
    rw [hrun] at hs
    exact hs.trans (hf a s')

/-- A run that is known to stay inside its brace group keeps the findings. -/
theorem grows_of_contained {p : Parser α} (h : ∀ s, Contained c s (p c s)) : Grows c p := by
  intro s
  obtain ⟨new, hnew, -⟩ := (h s).2
  exact ⟨new, hnew.symm⟩

theorem grows_report (d : Diagnostic) : Grows c (report d) := by
  intro s
  rw [report_run]
  split
  · split <;> exact List.prefix_append _ _
  · exact List.prefix_refl _

theorem grows_recover {p resume : Parser α} (hp : Grows c p) (hresume : Grows c resume) :
    Grows c (recover p resume) := by
  intro s
  have hs := hp s
  rw [recover_run]
  cases hrun : p c s with
  | ok a s' => rwa [hrun] at hs
  | error d s' =>
    rw [hrun] at hs
    exact hs.trans (grows_bind (grows_report d) (fun _ => hresume) s')

/-! ### Reading -/

/-- Every run without findings that has a result passes over tokens that, with those behind them,
have to do with the result as given. -/
structure Reads (c : Settings) (Q : α → List Token → List Token → Prop) (p : Parser α) : Prop where
  grows : Grows c p
  quiet : ∀ {s a s'}, p c s = .ok a s' → s'.diagnostics = s.diagnostics →
    (∀ t ∈ s.rest, t.IsSound) → ∃ us, s.rest = us ++ s'.rest ∧ Q a us s'.rest

variable {P Q : α → List Token → List Token → Prop} {R : β → List Token → List Token → Prop}

theorem Reads.mono {p : Parser α} (h : Reads c P p)
    (hPQ : ∀ a us after, P a us after → Q a us after) : Reads c Q p := by
  refine ⟨h.grows, fun hrun hdiag hsound => ?_⟩
  obtain ⟨us, hus, hP⟩ := h.quiet hrun hdiag hsound
  exact ⟨us, hus, hPQ _ _ _ hP⟩

/-- All tokens are sound, those that are left included. -/
theorem Reads.ofSound {p : Parser α}
    (h : Reads c (fun a us after => (∀ t ∈ us ++ after, t.IsSound) → Q a us after) p) :
    Reads c Q p := by
  refine ⟨h.grows, fun hrun hdiag hsound => ?_⟩
  obtain ⟨us, hus, hQ⟩ := h.quiet hrun hdiag hsound
  exact ⟨us, hus, hQ (hus ▸ hsound)⟩

theorem reads_pure {a : α} (h : ∀ after, Q a [] after) : Reads c Q (pure a) := by
  refine ⟨grows_pure a, fun hrun _ _ => ?_⟩
  cases hrun
  exact ⟨[], rfl, h _⟩

theorem reads_throw (d : Diagnostic) : Reads c Q (throw d) :=
  ⟨fun _ => List.prefix_refl _, nofun⟩

theorem reads_fail (expected : String) : Reads c Q (fail expected) := by
  refine ⟨grows_fail expected, fun hrun => ?_⟩
  rw [fail_run] at hrun
  cases hrun

/-- A sequence passes over what its parts pass over. What the first part reads is known when the
second one has ended, with what that one has passed over ahead. -/
theorem reads_bind {p : Parser α} {f : α → Parser β} (hp : Reads c P p)
    (hf : ∀ a us, Reads c (fun b vs after => P a us (vs ++ after) → R b (us ++ vs) after) (f a)) :
    Reads c R (p >>= f) := by
  refine ⟨grows_bind hp.grows fun a => (hf a []).grows, fun {s b s'} hrun hdiag hsound => ?_⟩
  obtain ⟨a, t, ha, hb⟩ := bind_eq_ok.mp hrun
  have hst := hp.grows s
  rw [ha] at hst
  have hts := (hf a []).grows t
  rw [hb] at hts
  have ht : t.diagnostics = s.diagnostics :=
    (hst.eq_of_length (Nat.le_antisymm hst.length_le (hdiag ▸ hts).length_le)).symm
  obtain ⟨us, hus, hP⟩ := hp.quiet ha ht hsound
  rw [hus] at hsound
  obtain ⟨vs, hvs, hR⟩ := (hf a us).quiet hb (hdiag.trans ht.symm)
    fun u hu => hsound u (List.mem_append_right _ hu)
  exact ⟨us ++ vs, by rw [hus, hvs, List.append_assoc], hR (hvs ▸ hP)⟩

theorem reads_map {p : Parser α} {f : α → β} (hp : Reads c P p)
    (hf : ∀ a us after, P a us after → R (f a) us after) : Reads c R (f <$> p) := by
  rw [← bind_pure_comp]
  refine reads_bind hp fun a us => reads_pure fun after hP => ?_
  rw [List.append_nil]
  exact hf a us after hP

theorem reads_ite {b : Prop} [Decidable b] {p q : Parser α} (hp : b → Reads c Q p)
    (hq : ¬ b → Reads c Q q) : Reads c Q (if b then p else q) := by
  split
  · exact hp ‹_›
  · exact hq ‹_›

/-! ### Looking -/

/-- A step that neither moves nor records a finding. -/
def Still (c : Settings) (p : Parser α) : Prop :=
  ∀ s, ∃ a s', p c s = .ok a s' ∧ s'.rest = s.rest ∧ s'.diagnostics = s.diagnostics

theorem Still.grows {p : Parser α} (h : Still c p) : Grows c p := by
  intro s
  obtain ⟨a, s', hrun, -, hdiag⟩ := h s
  rw [hrun]
  exact hdiag ▸ List.prefix_refl _

theorem Still.reads {p : Parser α} (h : Still c p) : Reads c (fun _ us _ => us = []) p := by
  refine ⟨h.grows, fun {s a s'} hrun _ _ => ?_⟩
  obtain ⟨b, t, hrun', hrest, -⟩ := h s
  rw [hrun] at hrun'
  cases hrun'
  exact ⟨[], hrest.symm, rfl⟩

theorem reads_still {p : Parser α} {f : α → Parser β} (h : Still c p) (hf : ∀ a, Reads c R (f a)) :
    Reads c R (p >>= f) := by
  refine reads_bind h.reads fun a us => (hf a).mono fun b vs after hR hus => ?_
  rw [hus]
  exact hR

theorem still_here : Still c here := fun s => ⟨_, s, here_run, rfl, rfl⟩

theorem still_read : Still c read := fun s => ⟨c, s, read_run, rfl, rfl⟩

theorem still_steps : Still c steps := fun s => ⟨_, s, steps_run, rfl, rfl⟩

theorem still_spanFrom (start : Location) : Still c (spanFrom start) :=
  fun s => ⟨_, s, spanFrom_run start, rfl, rfl⟩

theorem still_unexpected (expected : String) : Still c (unexpected expected) :=
  fun s => ⟨_, s, unexpected_run expected, rfl, rfl⟩

theorem still_note (e : Event) : Still c (note e) := fun _ => ⟨(), _, note_run e, rfl, rfl⟩

theorem reads_read {f : Settings → Parser β} (hf : Reads c R (f c)) : Reads c R (read >>= f) := by
  refine ⟨fun s => hf.grows s, fun {s b s'} hrun => ?_⟩
  exact hf.quiet (s := s) hrun

/-- A step that looks at the tokens that are left. -/
theorem reads_look {p : Parser α} (look : List Token → α) {f : α → Parser β}
    (hp : ∀ s, p c s = .ok (look s.rest) s)
    (hf : ∀ a, Reads c (fun b us after => a = look (us ++ after) → R b us after) (f a)) :
    Reads c R (p >>= f) := by
  refine ⟨grows_bind (fun s => ?_) fun a => (hf a).grows, fun {s b s'} hrun hdiag hsound => ?_⟩
  · rw [hp s]
    exact List.prefix_refl _
  · rw [bind_run_ok (hp s)] at hrun
    obtain ⟨us, hus, hR⟩ := (hf _).quiet hrun hdiag hsound
    exact ⟨us, hus, hR (by rw [hus])⟩

theorem reads_rest {f : List Token → Parser β}
    (hf : ∀ ts, Reads c (fun b us after => ts = us ++ after → R b us after) (f ts)) :
    Reads c R (rest >>= f) :=
  reads_look id (fun _ => rest_run) hf

theorem reads_peek {f : Token → Parser β}
    (hf : ∀ t, Reads c (fun b us after => t = (us ++ after).headD (.endAt c.stop) → R b us after)
      (f t)) :
    Reads c R (peek >>= f) :=
  reads_look (fun ts => ts.headD (.endAt c.stop)) (fun _ => peek_run) hf

theorem reads_steps {f : Nat → Parser β}
    (hf : ∀ n, Reads c (fun b us after => n = (us ++ after).length + 1 → R b us after) (f n)) :
    Reads c R (steps >>= f) :=
  reads_look (fun ts => ts.length + 1) (fun _ => steps_run) hf

theorem reads_kind {f : Kind → Parser β}
    (hf : ∀ k, Reads c (fun b us after => k = kindOf (us ++ after) → R b us after) (f k)) :
    Reads c R (kind >>= f) :=
  reads_look kindOf (fun _ => kind_run) hf

theorem reads_secondKind {f : Kind → Parser β}
    (hf : ∀ k, Reads c (fun b us after => k = kindOf ((us ++ after).drop 1) → R b us after) (f k)) :
    Reads c R (secondKind >>= f) :=
  reads_look (fun ts => kindOf (ts.drop 1)) (fun _ => secondKind_run) hf

theorem reads_check {k : Kind} {f : Bool → Parser β}
    (hf : ∀ b : Bool, Reads c (fun r us after => (b = true ↔ kindOf (us ++ after) = k) → R r us after)
      (f b)) :
    Reads c R (check k >>= f) := by
  refine reads_look (fun ts => decide (kindOf ts = k)) (fun _ => check_run k) fun b => ?_
  exact (hf b).mono fun r us after hR hb => hR (by rw [hb, decide_eq_true_iff])

/-- A choice by the next token. -/
theorem reads_checkIte {k : Kind} {p q : Parser α}
    (hp : Reads c (fun a us after => kindOf (us ++ after) = k → Q a us after) p)
    (hq : Reads c (fun a us after => kindOf (us ++ after) ≠ k → Q a us after) q) :
    Reads c Q (do if ← check k then p else q) := by
  refine reads_check fun b => ?_
  cases b with
  | true => exact hp.mono fun a us after hQ hb => hQ (hb.mp rfl)
  | false => exact hq.mono fun a us after hQ hb => hQ fun h => Bool.noConfusion (hb.mpr h)

/-- A choice by the next token, and one continuation. -/
theorem reads_checkJoin {k : Kind} {p q : Parser α} {f : α → Parser β}
    (hp : Reads c (fun a us after => kindOf (us ++ after) = k → P a us after) p)
    (hq : Reads c (fun a us after => kindOf (us ++ after) ≠ k → P a us after) q)
    (hf : ∀ a us, Reads c (fun b vs after => P a us (vs ++ after) → R b (us ++ vs) after) (f a)) :
    Reads c R (do if ← check k then p >>= f else q >>= f) := by
  refine reads_checkIte ?_ ?_
  · refine reads_bind hp fun a us => (hf a us).mono fun b vs after hR hP hk => hR (hP ?_)
    rwa [← List.append_assoc]
  · refine reads_bind hq fun a us => (hf a us).mono fun b vs after hR hP hk => hR (hP ?_)
    rwa [← List.append_assoc]

/-! ### Moving -/

/-- All tokens of a kind are written with one word. -/
structure Fixes (k : Kind) (w : Word) : Prop where
  proper : k ≠ .endOfInput
  written : ∀ t : Token, t.IsSound → t.kind = k → t.written = w

theorem fixes_mark (m : Mark) : Fixes (.mark m) (.mark m) := by
  refine ⟨nofun, fun t ht hk => ?_⟩
  exact (ht.isReadable (by rw [hk]; nofun)).written_of_mark hk

theorem fixes_keyword (k : Keyword) : Fixes (.keyword k) (.keyword k) := by
  refine ⟨nofun, fun t ht hk => ?_⟩
  have hlexeme := (ht.isReadable (by rw [hk]; nofun)).lexeme_of_keyword hk
  obtain ⟨k', x, l⟩ := t
  subst hk
  subst hlexeme
  rfl

variable {k : Kind} {w : Word}

/-- A token of a known kind that is next. -/
theorem eq_cons_of_kindOf {ts : List Token} (h : kindOf ts = k) (hk : k ≠ .endOfInput) :
    ∃ t us, ts = t :: us ∧ t.kind = k := by
  rcases ts with _ | ⟨t, us⟩
  · exact absurd h.symm hk
  · exact ⟨t, us, rfl, h⟩

/-- Passing over a number of tokens. -/
theorem reads_skipSome (n : Nat) :
    Reads c (fun _ us after => us = (us ++ after).take n ∧ ∀ t ∈ us, t.IsSound) (skip n) := by
  refine ⟨fun _ => List.prefix_refl _, fun {s a s'} hrun _ hsound => ?_⟩
  cases hrun
  refine ⟨s.rest.take n, (List.take_append_drop n s.rest).symm, ?_,
    fun t ht => hsound t (List.mem_of_mem_take ht)⟩
  rw [skip_rest, List.take_append_drop]

theorem reads_skipBy (rule : List Token → Nat) : Reads c (fun _ _ _ => True) (skipBy rule) :=
  reads_rest fun ts => (reads_skipSome (rule ts)).mono fun _ _ _ _ _ => trivial

/-- A run that is known to stay inside its brace group. -/
theorem reads_of_contained {p : Parser α} (h : ∀ s, Contained c s (p c s)) :
    Reads c (fun _ _ _ => True) p := by
  refine ⟨grows_of_contained h, fun {s a s'} hrun _ _ => ?_⟩
  obtain ⟨us, hus⟩ := (h s).1
  rw [hrun] at hus
  exact ⟨us, hus.symm, trivial⟩

/-- Passing over a token of a known kind. -/
theorem reads_skip (h : Fixes k w) :
    Reads c (fun _ us after => kindOf (us ++ after) = k → us.map Token.written = [w]) (skip 1) := by
  refine (reads_skipSome 1).mono fun _ us after ⟨hus, hsound⟩ hk => ?_
  obtain ⟨t, ts, hts, ht⟩ := eq_cons_of_kindOf hk h.proper
  rw [hts] at hus
  subst hus
  simpa using h.written t (hsound t (by simp)) ht

theorem reads_require (h : Fixes k w) (expected : String) :
    Reads c (fun _ us _ => us.map Token.written = [w]) (require k expected) := by
  refine reads_checkIte ?_ (reads_fail expected)
  exact reads_skip h

theorem reads_accept (h : Fixes k w) {f : Bool → Parser β}
    (hyes : ∀ us, Reads c (fun b vs after => us.map Token.written = [w] → R b (us ++ vs) after)
      (f true))
    (hno : Reads c (fun b vs after => kindOf (vs ++ after) ≠ k → R b vs after) (f false)) :
    Reads c R (accept k >>= f) := by
  unfold accept
  rw [bind_assoc]
  refine reads_check fun b => ?_
  cases b with
  | true =>
    rw [if_pos rfl, bind_assoc]
    refine reads_bind (reads_skip h) fun _ us => ?_
    rw [pure_bind]
    refine (hyes us).mono fun b vs after hR hskip hk => hR (hskip ?_)
    rw [← List.append_assoc]
    exact hk.mp rfl
  | false =>
    rw [if_neg nofun, pure_bind]
    exact hno.mono fun b vs after hR hk => hR fun heq => Bool.noConfusion (hk.mpr heq)

theorem grows_accept (k : Kind) : Grows c (accept k) := by
  intro s
  rw [accept_run]
  split <;> exact List.prefix_refl _

/-- A choice by the next token, which is passed over, and one continuation. -/
theorem reads_acceptJoin (h : Fixes k w) {p q : Parser α} {f : α → Parser β}
    (hp : ∀ ts, Reads c (fun a us after => ts.map Token.written = [w] → P a (ts ++ us) after) p)
    (hq : Reads c (fun a us after => kindOf (us ++ after) ≠ k → P a us after) q)
    (hf : ∀ a us, Reads c (fun b vs after => P a us (vs ++ after) → R b (us ++ vs) after) (f a)) :
    Reads c R (do if ← accept k then p >>= f else q >>= f) := by
  refine reads_accept h (fun ts => ?_) ?_
  · refine reads_bind (hp ts) fun a us => (hf a (ts ++ us)).mono fun b vs after hR hP hts => ?_
    rw [← List.append_assoc]
    exact hR (hP hts)
  · refine reads_bind hq fun a us => (hf a us).mono fun b vs after hR hP hk => hR (hP ?_)
    rwa [← List.append_assoc]

/-! ### Findings -/

/-- What goes on behind a report keeps the finding. -/
theorem length_lt_of_report {d : Diagnostic} {f : Unit → Parser β} {s s' : State} {b : β}
    (hf : Grows c (f ())) (h : (report d >>= f) c s = .ok b s') :
    s.diagnostics.length < s'.diagnostics.length := by
  obtain ⟨_, t, hreport, hrun⟩ := bind_eq_ok.mp h
  have hts := (hf t).length_le
  rw [hrun] at hts
  rw [report_run] at hreport
  split at hreport
  · split at hreport <;> cases hreport
    simp only [final, noted_diagnostics, List.length_append, List.length_cons,
      List.length_nil] at hts
    omega
  · cases hreport

/-- No run without findings reports one. -/
theorem reads_report (d : Diagnostic) {f : Unit → Parser β} (hf : Grows c (f ())) :
    Reads c R (report d >>= f) := by
  refine ⟨grows_bind (grows_report d) fun _ => hf, fun hrun hdiag _ => ?_⟩
  have hlt := length_lt_of_report hf hrun
  rw [hdiag] at hlt
  exact absurd hlt (Nat.lt_irrefl _)

theorem reads_recover {p resume : Parser α} (hp : Reads c Q p) (hresume : Grows c resume) :
    Reads c Q (recover p resume) := by
  refine ⟨grows_recover hp.grows hresume, fun {s a s'} hrun hdiag hsound => ?_⟩
  rcases recover_eq_ok.mp hrun with hok | ⟨d, t, hstop, hrun⟩
  · exact hp.quiet hok hdiag hsound
  · -- the finding that stopped the reader has been recorded
    have hst := (hp.grows s).length_le
    rw [hstop] at hst
    have hts := length_lt_of_report hresume hrun
    rw [hdiag] at hts
    exact absurd hst (Nat.not_le_of_lt hts)

theorem reads_attempt {p : Parser α} (hp : Reads c Q p)
    (hback : ∀ s, (final (p c s)).rest <:+ s.rest) :
    Reads c (fun r us after => ∀ a, r = .ok a → Q a us after) (attempt p) := by
  refine ⟨fun s => ?_, fun {s r s'} hrun hdiag hsound => ?_⟩
  · have hs := hp.grows s
    rw [attempt_run]
    cases hrun : p c s <;> rwa [hrun] at hs
  · rcases attempt_eq_ok.mp hrun with ⟨a, rfl, hok⟩ | ⟨d, rfl, hstop⟩
    · obtain ⟨us, hus, hQ⟩ := hp.quiet hok hdiag hsound
      refine ⟨us, hus, fun b hb => ?_⟩
      cases hb
      exact hQ
    · have hsuffix := hback s
      rw [hstop] at hsuffix
      obtain ⟨us, hus⟩ := hsuffix
      exact ⟨us, hus.symm, nofun⟩

/-- A closing brace that is reported when it is missing. -/
theorem reads_close {expected : String} {f : Parser β}
    (hf : ∀ us, Reads c (fun b vs after => us.map Token.written = [.mark .closeBrace] →
      R b (us ++ vs) after) f) :
    Reads c R (do
      if !(← accept Mark.closeBrace) then
        report (← unexpected expected)
      f) := by
  refine reads_accept (fixes_mark .closeBrace) hf ?_
  exact reads_still (still_unexpected _) fun d => reads_report d (hf []).grows

end Parser

end JavaTree
