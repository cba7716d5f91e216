import JavaTree.Proofs.Parser.Loops
import JavaTree.Proofs.Parser.Spans

/-!
What the span of a whole text covers.

The span starts as the first token alone. It grows up to the last token passed over each time that a
declaration at the top of the text has been read, or reported and left out. So it covers what is
declared from the first such declaration on. A package clause and imports with no declaration behind
them, or with one that spends the budget for findings, stay outside.

    package p ; import q ; class A { } ; class B {
    ├─────────────────────────────────             the span, with a budget of one finding
    package p ; import q ;
    ├─────                                         the span
-/

namespace JavaTree

instance (a b : Span) : Decidable (a.IsInside b) :=
  inferInstanceAs (Decidable (b.first ≤ a.first ∧ a.last ≤ b.last))

namespace CompilationUnit

/-- The spans of the package clause and of the imports. -/
def clauseSpans (u : CompilationUnit) : List Span := u.package.toList.map (·.span) ++ u.imports.map (·.span)

/-- The spans of all that is declared at the top of a text. -/
def declaredSpans (u : CompilationUnit) : List Span := u.clauseSpans ++ u.types.map (·.span)

end CompilationUnit

namespace Parser

variable {ts : List Token} {c : Settings} {s s' : State} {k m k' : Nat} {start : Location}

/-! ### Declarations at the top of a text -/

/-- How many semicolons a list starts with. -/
def semicolons (ts : List Token) : Nat := (ts.takeWhile (·.kind = .mark .semicolon)).length

/-- Behind semicolons, a declaration is read, or it is reported and left out and reading goes on. -/
def State.HasDeclaration (s : State) (c : Settings) : Prop :=
  let ahead := s.skip (semicolons s.rest)
  kindOf ahead.rest ≠ .endOfInput ∧ ∃ t s', topLevelType c ahead = .ok t s'

/-- Passes over the package clause and the imports. The result says whether reading goes on behind
them. -/
def clauses : Parser Bool := do
  match ← attempt optionalPackage with
  | .error _ => return false
  | .ok _ => return (← imports (← steps)).stopped.isNone

/-- Behind the package clause and the imports, there is a declaration. -/
def State.Declares (s : State) (c : Settings) : Prop :=
  ∃ s', clauses c s = .ok true s' ∧ s'.HasDeclaration c

theorem declares_iff {goesOn : Bool} (h : clauses c s = .ok goesOn s') :
    s.Declares c ↔ goesOn = true ∧ s'.HasDeclaration c := by
  constructor
  · rintro ⟨t, hrun, hhas⟩
    rw [h] at hrun
    cases hrun
    exact ⟨rfl, hhas⟩
  · rintro ⟨rfl, hhas⟩
    exact ⟨s', h, hhas⟩

theorem semicolons_eq_succ (h : kindOf ts = .mark .semicolon) :
    semicolons ts = 1 + semicolons (ts.drop 1) := by
  rcases ts with _ | ⟨t, ts⟩
  · cases h
  · rw [kindOf] at h
    simp [semicolons, h, Nat.add_comm]

theorem semicolons_eq_zero (h : kindOf ts ≠ .mark .semicolon) : semicolons ts = 0 := by
  rcases ts with _ | ⟨t, ts⟩
  · rfl
  · rw [kindOf] at h
    simp [semicolons, h]

/-- A semicolon in front makes no difference. -/
theorem hasDeclaration_semicolon (h : kindOf s.rest = .mark .semicolon) :
    s.HasDeclaration c ↔ (s.skip 1).HasDeclaration c := by
  simp only [State.HasDeclaration, semicolons_eq_succ h, skip_rest, skip_skip]

theorem hasDeclaration_iff (h : kindOf s.rest ≠ .mark .semicolon) : s.HasDeclaration c ↔
    kindOf s.rest ≠ .endOfInput ∧ ∃ t s', topLevelType c s = .ok t s' := by
  simp only [State.HasDeclaration, semicolons_eq_zero h, skip_zero]

/-! ### Spans of clauses -/

/-- A span from one token to a later one, both between two positions. -/
def Stretches (ts : List Token) (k k' : Nat) (span : Span) : Prop :=
  ∃ i j, k ≤ i ∧ i < j ∧ j < k' ∧ Covers ts i j span

theorem Stretches.mono {span : Span} (h : Stretches ts m k' span) {l l' : Nat} (hm : l ≤ m)
    (hk' : k' ≤ l') : Stretches ts l l' span := by
  obtain ⟨i, j, hi, hij, hj, hcovers⟩ := h
  exact ⟨i, j, hm.trans hi, hij, hj.trans_le hk', hcovers⟩

theorem lays_qualifiedName : Lays ts c k (fun k' _ => k < k') qualifiedName := by
  refine lays_bind lays_identifier fun _ m hm hlt => lays_step built_rest fun _ m₁ h₁ => ?_
  exact lays_step (built_skip _) fun _ k' h₂ => lays_pure (by omega)

theorem lays_require {w : Kind} (hw : w ≠ .endOfInput) (expected : String) :
    Lays ts c k (fun k' _ => k < k') (require w expected) :=
  lays_moved ((lays_built (built_require _ _)).mono fun _ _ _ _ h => h) fun _ => moves_require hw expected

section Sorted

variable (hsorted : ts.Pairwise fun a b => a.location < b.location)

include hsorted

/-- A clause that is ended by a semicolon. -/
theorem lays_clause (hstart : StandsAt ts m start) (hm : m < k) (expected : String) (make : Span → α)
    (spanOf : α → Span) (hmake : ∀ span, spanOf (make span) = span) :
    Lays ts c k (fun k' a => Stretches ts m k' (spanOf a)) (do
      require Mark.semicolon expected
      return make (← spanFrom start)) := by
  have hsemicolon : Kind.mark .semicolon ≠ .endOfInput := nofun
  refine lays_bind (lays_require hsemicolon expected) fun _ k' hk' hlt => ?_
  refine lays_spanned hsorted hstart fun span hspan => ?_
  rw [hmake]
  exact ⟨m, k' - 1, Nat.le_refl _, by omega, by omega, hspan (by omega)⟩

theorem lays_packageClause :
    Lays ts c k (fun k' p => Stretches ts k k' p.span) packageClause := by
  refine lays_here fun start hstart => lays_step (built_skip 1) fun _ m₁ h₁ => ?_
  refine lays_bind lays_qualifiedName fun name m₂ h₂ hlt => ?_
  exact lays_clause hsorted hstart (show k < m₂ by omega) _ (⟨name, ·⟩) PackageClause.span fun _ => rfl

theorem lays_importClause :
    Lays ts c k (fun k' i => Stretches ts k k' i.span) importClause := by
  refine lays_here fun start hstart => lays_step (built_skip 1) fun _ m₁ h₁ => ?_
  refine lays_step (built_accept _) fun isStatic m₂ h₂ => ?_
  refine lays_bind lays_qualifiedName fun name m₃ h₃ hlt => ?_
  refine lays_step (built_accept _) fun isWildcard m₄ h₄ => ?_
  have hend (m₅ : Nat) (h₅ : m₄ ≤ m₅) := lays_clause hsorted (c := c) hstart (show k < m₅ by omega)
    "';' after import" (⟨name, isStatic, isWildcard, ·⟩) Import.span fun _ => rfl
  refine lays_ite ?_ (hend m₄ (Nat.le_refl _))
  exact lays_step (built_require _ _) fun _ m₅ h₅ => hend m₅ h₅

theorem lays_optionalPackage :
    Lays ts c k (fun k' p => ∀ q ∈ p.toList, Stretches ts k k' q.span) optionalPackage := by
  refine lays_step (built_check _) fun _ m hm => lays_ite ?_ (lays_pure nofun)
  refine lays_recover (lays_map (lays_packageClause hsorted) fun k' q _ hq => ?_)
    (built_packageClause.map some) fun m' hm' => ?_
  · simpa using hq.mono hm (Nat.le_refl _)
  · exact lays_step (built_skipBy _) fun _ _ _ => lays_pure nofun

theorem lays_importSpans (n : Nat) :
    Lays ts c k (fun k' o => ∀ i ∈ o.found, Stretches ts k k' i.span) (imports n) := by
  induction n generalizing k with
  | zero => exact lays_pure nofun
  | succ n ih =>
    refine lays_step (built_check _) fun _ m hm => lays_ite ?_ (lays_pure nofun)
    have hone : Lays ts c m (fun k' i => ∀ j ∈ i.toList, Stretches ts m k' j.span)
        (recover (some <$> importClause) skipClause) := by
      refine lays_recover (lays_map (lays_importClause hsorted) fun k' i _ hi => ?_)
        (built_importClause.map some) fun m' hm' => ?_
      · simpa using hi
      · exact lays_step (built_skipBy _) fun _ _ _ => lays_pure nofun
    refine lays_bind (lays_attempt hone built_import) fun r m' hm' hr => ?_
    rcases r with d | found
    · exact lays_pure nofun
    · refine lays_bind ih fun more k' hk' hmore => lays_pure fun i hi => ?_
      rcases List.mem_append.mp hi with hi | hi
      · exact (hr found rfl i hi).mono hm hk'
      · exact (hmore i hi).mono (hm.trans hm') (Nat.le_refl _)

theorem stretches_clauses (hs : At ts 0 s) {package : Option PackageClause} {n : Nat}
    {is : Outcome (List Import)} {s₁ s₂ : State} (hpackage : optionalPackage c s = .ok package s₁)
    (himports : imports n c s₁ = .ok is s₂) :
    ∃ k, At ts k s₂ ∧
      ∀ d ∈ package.toList.map (·.span) ++ is.found.map (·.span), Stretches ts 0 k d := by
  obtain ⟨k₁, -, hs₁, hfirst⟩ := lays_optionalPackage hsorted hs hpackage
  obtain ⟨k₂, hk₂, hs₂, hmore⟩ := lays_importSpans hsorted _ hs₁ himports
  refine ⟨k₂, hs₂, fun d hd => ?_⟩
  rcases List.mem_append.mp hd with hd | hd
  · obtain ⟨p, hp, rfl⟩ := List.mem_map.mp hd
    exact (hfirst p hp).mono (Nat.le_refl 0) hk₂
  · obtain ⟨i, hi, rfl⟩ := List.mem_map.mp hd
    exact (hmore i hi).mono (Nat.zero_le k₁) (Nat.le_refl k₂)

/-! ### The span of a text -/

/-- Reading declarations at the top of a text gives a span that covers them, if there is one behind
semicolons. If there is none, no declaration is found and the span stays as it was. -/
theorem types_cases (hs : At ts k s) (hstart : StandsAt ts m start) (hm : m ≤ k) {span : Span} {n : Nat}
    (hn : s.rest.length < n) {o : Outcome (List TypeDeclaration × Span)}
    (hrun : types start span n c s = .ok o s') :
    (s.HasDeclaration c ∧ ∃ e, k < e ∧ Covers ts m (e - 1) o.found.2 ∧
        Row ts k e (o.found.1.map (·.spans))) ∨
      (¬ s.HasDeclaration c ∧ o.found = ([], span)) := by
  induction n generalizing s k span o with
  | zero => cases hn
  | succ n ih =>
    by_cases hend : kindOf s.rest = .endOfInput
    · rw [types_run_end n hend] at hrun
      cases hrun
      refine .inr ⟨fun h => ?_, rfl⟩
      exact ((hasDeclaration_iff (by simp [hend])).mp h).1 hend
    have hne : s.rest ≠ [] := rest_ne_nil_of_kindOf hend
    by_cases hsemicolon : kindOf s.rest = .mark .semicolon
    · -- a semicolon on its own is passed over
      rw [types_run_semicolon n hsemicolon] at hrun
      rw [hasDeclaration_semicolon hsemicolon]
      have hfuel : (s.skip 1).rest.length < n := by
        have hpos := List.length_pos_iff.mpr hne
        rw [skip_rest, List.length_drop]
        omega
      refine (ih (hs.skip_one hne) (hm.trans (Nat.le_succ k)) hfuel hrun).imp_left ?_
      rintro ⟨hhas, e, he, hcovers, hrow⟩
      exact ⟨hhas, e, by omega, hcovers, hrow.mono (Nat.le_succ k) (Nat.le_refl e)⟩
    rw [types_run_type n hend hsemicolon, bind_run, attempt_run] at hrun
    rw [hasDeclaration_iff hsemicolon]
    cases hfirst : topLevelType c s with
    | error d s₁ =>
      rw [hfirst] at hrun
      cases hrun
      exact .inr ⟨by simp, rfl⟩
    | ok found s₁ =>
      rw [hfirst] at hrun
      simp only [behindType_run] at hrun
      obtain ⟨more, s₂, hmore, hlast⟩ := bind_eq_ok.mp hrun
      cases hlast
      obtain ⟨k₁, hk₁, hs₁, hfound⟩ := lays_topLevelType hsorted hs hfirst
      have hshorter := (moves_topLevelType hne found s₁ hfirst).2
      have hlt : k < k₁ := hs.lt_of_length hs₁ hshorter
      refine .inl ⟨⟨hend, found, s₁, rfl⟩, ?_⟩
      dsimp only
      rw [List.map_append]
      rcases ih hs₁ (hm.trans hk₁) (by omega) hmore with ⟨-, e, he, hcovers, hrow⟩ | ⟨-, hnone⟩
      · exact ⟨e, hlt.trans he, hcovers, row_append hsorted hfound hrow hk₁ (Nat.le_of_lt he)⟩
      · -- this declaration is the last one, and the span ends with it
        rw [hnone, List.map_nil, List.append_nil]
        exact ⟨k₁, hlt, covers_spanFrom hsorted hs₁ hstart (Nat.lt_of_le_of_lt hm hlt), hfound⟩

/-! ### Whole texts -/

/-- What the span of a unit covers. When a declaration at the top is read, the span reaches from the
first token up to one that no declaration goes beyond. When there is none, it is the first token, and
the clauses go beyond that. -/
structure SpanCovers (ts : List Token) (start : Location) (has : Prop) (u : CompilationUnit) : Prop where
  covers : has → ∃ e, Covers ts 0 (e - 1) u.span ∧
    ∀ d ∈ u.declaredSpans, ∃ i j, i ≤ j ∧ j < e ∧ Covers ts i j d
  misses : ¬ has → u.types = [] ∧ u.span = .single start ∧ ∀ d ∈ u.clauseSpans, Stretches ts 0 ts.length d

omit hsorted in
theorem clauses_run_ok {package : Option PackageClause} {is : Outcome (List Import)} {s₁ s₂ : State}
    (hpackage : optionalPackage c s = .ok package s₁)
    (himports : imports (s₁.rest.length + 1) c s₁ = .ok is s₂) :
    clauses c s = .ok is.stopped.isNone s₂ := by
  rw [clauses, bind_run, attempt_run, hpackage]
  simp only [bind_run, steps_run, himports, pure_run]

omit hsorted in
theorem clauses_run_error {d : Diagnostic} {s₁ : State} (hpackage : optionalPackage c s = .error d s₁) :
    clauses c s = .ok false s₁ := by
  rw [clauses, bind_run, attempt_run, hpackage]
  rfl

theorem spanCovers_unit (hs : At ts 0 s) {o : Outcome CompilationUnit} (hrun : unit c s = .ok o s') :
    SpanCovers ts (s.next c).location (s.Declares c) o.found := by
  rw [unit_eq, bind_run_ok here_run, bind_run, attempt_run] at hrun
  cases hpackage : optionalPackage c s with
  | error d s₁ =>
    rw [hpackage] at hrun
    cases hrun
    rw [declares_iff (clauses_run_error hpackage)]
    exact ⟨nofun, fun _ => ⟨rfl, rfl, nofun⟩⟩
  | ok package s₁ =>
    rw [hpackage] at hrun
    simp only [behindPackage_run] at hrun
    obtain ⟨⟨is, stopped⟩, s₂, himports, hbehind⟩ := bind_eq_ok.mp hrun
    obtain ⟨k, hs₂, hclauses⟩ := stretches_clauses hsorted hs hpackage himports
    have hmisses := fun d hd => (hclauses d hd).mono (Nat.le_refl 0) hs₂.le
    rw [declares_iff (clauses_run_ok hpackage himports)]
    cases stopped with
    | some d =>
      cases hbehind
      exact ⟨nofun, fun _ => ⟨rfl, rfl, hmisses⟩⟩
    | none =>
      rw [behindImports_run] at hbehind
      obtain ⟨found, s₃, htypes, hlast⟩ := bind_eq_ok.mp hbehind
      cases hlast
      simp only [Option.isNone_none, true_and]
      rcases types_cases hsorted hs₂ hs.standsAt (Nat.zero_le k) (Nat.lt_succ_self _) htypes with
        ⟨hhas, e, he, hcovers, hrow⟩ | ⟨hhas, hnone⟩
      · refine ⟨fun _ => ⟨e, hcovers, fun d hd => ?_⟩, fun h => absurd hhas h⟩
        rcases List.mem_append.mp hd with hd | hd
        · obtain ⟨i, j, -, hij, hj, hd⟩ := hclauses d hd
          exact ⟨i, j, hij.le, hj.trans he, hd⟩
        · obtain ⟨t, ht, rfl⟩ := List.mem_map.mp hd
          obtain ⟨-, i, j, -, hij, hj, ht⟩ := hrow.lies _ (List.mem_map_of_mem ht)
          exact ⟨i, j, hij, hj, ht⟩
      · rw [hnone]
        exact ⟨fun h => absurd h hhas, fun _ => ⟨rfl, rfl, hmisses⟩⟩

variable {has : Prop} {u : CompilationUnit}

theorem SpanCovers.isInside (h : SpanCovers ts start has u) (hhas : has) :
    ∀ d ∈ u.declaredSpans, d.IsInside u.span := by
  obtain ⟨e, ⟨⟨t, ht, hfirst⟩, t', ht', hlast⟩, hdeclared⟩ := h.covers hhas
  intro d hd
  obtain ⟨i, j, hij, hj, ⟨v, hv, hfirst'⟩, v', hv', hlast'⟩ := hdeclared d hd
  rw [Span.IsInside, ← hfirst, ← hlast, ← hfirst', ← hlast']
  exact ⟨le_of_position hsorted (Nat.zero_le i) ht hv, le_of_position hsorted (by omega) hv' ht'⟩

theorem SpanCovers.not_isInside (h : SpanCovers ts start has u) (hhas : ¬ has)
    (hstart : StandsAt ts 0 start) : ∀ d ∈ u.clauseSpans, ¬ d.IsInside u.span := by
  obtain ⟨-, hspan, hclauses⟩ := h.misses hhas
  intro d hd hinside
  obtain ⟨i, j, -, hij, hj, -, v, hv, hlast⟩ := hclauses d hd
  have ht : ts[0]? = some ts[0] := List.getElem?_eq_getElem (Nat.zero_lt_of_lt hj)
  have hle : v.location ≤ ts[0].location := by
    rw [hlast, hstart _ ht]
    rw [hspan] at hinside
    exact hinside.2
  exact hle (lt_of_position hsorted (Nat.zero_lt_of_lt hij) ht hv)

end Sorted

end Parser

/-- For every source text, with all limits and budgets, the span of the unit covers its types. It
covers the package clause and the imports as well exactly when there are none, or when a declaration
behind them is read, or reported and left out with room for more findings. -/
theorem CompilationUnit.span_covers_iff (source : String) (options : ParseOptions) :
    let input := Parser.Input.ofSource source
    let u := (CompilationUnit.parse source options).unit
    (∀ t ∈ u.types, t.span.IsInside u.span) ∧
      ((∀ d ∈ u.declaredSpans, d.IsInside u.span) ↔
        (u.package = none ∧ u.imports = []) ∨ input.state.Declares (input.settings options)) := by
  intro input u
  obtain ⟨o, s, hrun, hparse, -⟩ := Parser.Input.parse_settled input options
  have hu : u = o.found := by
    rw [← Parser.ofOutcome_unit o s, ← hparse]
    rfl
  have hsorted := Parser.Input.pairwise_tokens source
  have hstart : Parser.At input.tokens 0 input.state := ⟨Nat.zero_le _, rfl, rfl⟩
  have hspan := Parser.spanCovers_unit hsorted hstart hrun
  rw [← hu] at hspan
  by_cases hhas : input.state.Declares (input.settings options)
  · have hinside := hspan.isInside hsorted hhas
    refine ⟨fun t ht => hinside _ (List.mem_append_right _ (List.mem_map_of_mem ht)), ?_⟩
    exact iff_of_true hinside (.inr hhas)
  · have htypes := (hspan.misses hhas).1
    rw [htypes]
    refine ⟨nofun, fun h => .inl ?_, fun h => ?_⟩
    · -- each clause that there is stands outside
      have hnone : u.clauseSpans = [] := List.eq_nil_iff_forall_not_mem.mpr fun d hd =>
        hspan.not_isInside hsorted hhas hstart.standsAt d hd (h d (List.mem_append_left _ hd))
      simpa [CompilationUnit.clauseSpans] using hnone
    · obtain ⟨hpackage, himports⟩ := h.resolve_right hhas
      simp [CompilationUnit.declaredSpans, CompilationUnit.clauseSpans, hpackage, himports, htypes]

/-- With a type behind them, the clauses are covered. -/
example :
    let u := (CompilationUnit.parse "package p; import q.R; class A \x7b \x7d" {}).unit
    u.declaredSpans.length = 3 ∧ ∀ d ∈ u.declaredSpans, d.IsInside u.span := by
  decide +kernel

/-- `package p;` ends outside of the span of its unit, which is the word `package`. -/
theorem CompilationUnit.span_misses_package :
    let u := (CompilationUnit.parse "package p;" {}).unit
    u.declaredSpans = [⟨⟨1, 1, 0⟩, ⟨1, 10, 9⟩⟩] ∧ u.span = ⟨⟨1, 1, 0⟩, ⟨1, 1, 0⟩⟩ ∧
      ¬ ∀ d ∈ u.declaredSpans, d.IsInside u.span := by
  decide +kernel

end JavaTree
