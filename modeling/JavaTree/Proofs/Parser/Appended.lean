import JavaTree.Proofs.Parser.Cutoff
import JavaTree.Proofs.Parser.Extension
import JavaTree.Proofs.Parser.Findings

/-!
What follows a clean text does not damage it.

Every clause and every type of a text without findings ends with a fence, and between them a reader
looks at nothing but the next token. So when a text goes on, all of its clauses and types are read as
before, and the reader comes to the first new token as if the text started there. What it finds from
there on, it finds among the new tokens.

    package p ; import q ; class A { }  |  import r ; } class B {
    as before                           |  more imports or types, and all findings
-/

namespace JavaTree.Parser

variable {α β : Type} {c : Settings} {s : State} {l : Location} {more : List Token}

/-! ### Findings about the rest of a text -/

section Places

variable {L : Location → Prop}

/-- The findings so far are about places with a property, and the tokens that are left stand at such
places. -/
structure Placed (L : Location → Prop) (s : State) : Prop where
  found : ∀ d ∈ s.diagnostics, L d.location
  ahead : ∀ t ∈ s.rest, L t.location

theorem Placed.next (hs : Placed L s) (hstop : L c.stop) : L (s.next c).location := by
  rw [State.next]
  cases hrest : s.rest with
  | nil => exact hstop
  | cons t ts => exact hs.ahead t (hrest ▸ List.mem_cons_self)

theorem Placed.skip (hs : Placed L s) (n : Nat) : Placed L (s.skip n) :=
  ⟨hs.found, fun t ht => hs.ahead t (List.mem_of_mem_drop ht)⟩

theorem Placed.noted (hs : Placed L s) {d : Diagnostic} (hd : L d.location) : Placed L (s.noted d) := by
  refine ⟨fun e he => ?_, hs.ahead⟩
  rcases List.mem_append.mp he with he | he
  · exact hs.found e he
  · rwa [List.mem_singleton.mp he]

/-- Findings are about places that reading comes to. -/
def places (hstop : L c.stop) : Invariant c where
  Holds := Placed L
  Pending d s := L d.location ∧ Placed L s
  skip := Placed.skip
  note hs _ := ⟨hs.found, hs.ahead⟩
  stop hs hd n := ⟨hd.location ▸ hs.next hstop, hs.skip n⟩
  record h := h.2.noted h.1
  spent h _ := ⟨h.1, h.2.noted h.1⟩

/-- A run whose findings, the one that stopped it included, are about places with a property. -/
def PlacedOutcome (L : Location → Prop) (r : EStateM.Result Diagnostic State (Outcome α)) : Prop :=
  ∀ o s', r = .ok o s' → Placed L s' ∧ ∀ d, o.stopped = some d → L d.location

theorem placedOutcome_of_kept {hstop : L c.stop} {r : EStateM.Result Diagnostic State (Outcome α)}
    (h : (places hstop).Outcome r) : PlacedOutcome L r := by
  intro o s' hrun
  have hsettled := h o s' hrun
  cases hstopped : o.stopped with
  | none =>
    rw [hstopped] at hsettled
    exact ⟨hsettled, nofun⟩
  | some e =>
    rw [hstopped] at hsettled
    exact ⟨hsettled.2, fun d hd => Option.some.inj hd ▸ hsettled.1⟩

theorem placedOutcome_imports (hstop : L c.stop) (n : Nat) (hs : Placed L s) :
    PlacedOutcome L (imports n c s) :=
  placedOutcome_of_kept (Invariant.outcome_imports (I := places hstop) n hs)

theorem placedOutcome_types (hstop : L c.stop) (start : Location) (span : Span) (n : Nat)
    (hs : Placed L s) : PlacedOutcome L (types start span n c s) :=
  placedOutcome_of_kept (Invariant.outcome_types (I := places hstop) start span n hs)

/-- All findings are about places in the text. -/
theorem placedOutcome_unit (hstop : L c.stop) (hs : Placed L s) : PlacedOutcome L (unit c s) :=
  placedOutcome_of_kept (Invariant.outcome_unit (I := places hstop) hs)

end Places

/-! ### Runs without findings -/

/-- A run that adds no finding adds none on its way. -/
theorem quiet_between {t u : State} (hbefore : s.diagnostics <+: t.diagnostics)
    (hafter : t.diagnostics <+: u.diagnostics) (hquiet : u.diagnostics = s.diagnostics) :
    t.diagnostics = s.diagnostics :=
  (hbefore.eq_of_length_le (hquiet ▸ hafter.length_le)).symm

/-- Without a finding, the budget that was left is not spent. -/
theorem InBudget.not_spent (hs : InBudget c s) {d : Diagnostic} {s' : State}
    (hquiet : s'.diagnostics = s.diagnostics) : ¬ Spent c d s' := by
  intro hspent
  have hfull := hspent.full
  rw [hquiet] at hfull
  exact absurd hs.room (by omega)

theorem InBudget.followedBy (hs : InBudget c s) : InBudget (c.endingAt l) (s.followedBy more) :=
  ⟨hs.goesOn, hs.room⟩

/-- An attempt without findings is a success. -/
theorem attempt_quiet {p : Parser α} {f : Except Diagnostic α → Parser (Outcome β)}
    (hp : Built (fun _ => True) p) (hpersists : Persists c p) (hs : InBudget c s)
    (hgrows : ∀ r, Grows c (f r)) {o : Outcome β} {s' : State}
    (hrun : (attempt p >>= f) c s = .ok o s') (hquiet : s'.diagnostics = s.diagnostics) :
    ∃ a t, p c s = .ok a t ∧ InBudget c t ∧ t.diagnostics = s.diagnostics ∧ f (.ok a) c t = .ok o s' := by
  obtain ⟨r, t, hfirst, hsecond⟩ := bind_eq_ok.mp hrun
  have hbefore := grows_attempt (hp.grows c) s
  have hafter := hgrows r t
  rw [hfirst] at hbefore
  rw [hsecond] at hafter
  have heq : t.diagnostics = s.diagnostics := quiet_between hbefore hafter hquiet
  obtain ⟨a, t', hok, ht⟩ | ⟨d, t', herror, hspent⟩ := attempt_cases hp hpersists hs
  · obtain ⟨rfl, rfl⟩ := EStateM.Result.ok.inj (hfirst.symm.trans hok)
    exact ⟨a, t, eq_ok_of_attempt hok, ht, heq, hsecond⟩
  · obtain ⟨rfl, rfl⟩ := EStateM.Result.ok.inj (hfirst.symm.trans herror)
    exact absurd hspent (hs.not_spent heq)

/-- Imports without findings do not stop. -/
theorem imports_quiet {n : Nat} (hs : InBudget c s) {o : Outcome (List Import)} {s' : State}
    (hrun : imports n c s = .ok o s') (hquiet : s'.diagnostics = s.diagnostics) :
    o.stopped = none ∧ InBudget c s' := by
  obtain ⟨o', t, hrun', hsettled⟩ := settles_imports n s hs
  obtain ⟨rfl, rfl⟩ := EStateM.Result.ok.inj (hrun'.symm.trans hrun)
  cases hstopped : o'.stopped with
  | some d =>
    rw [hstopped] at hsettled
    exact absurd hsettled (hs.not_spent hquiet)
  | none =>
    rw [hstopped] at hsettled
    exact ⟨rfl, hsettled⟩

/-! ### Clauses and types of a text that goes on -/

/-- After imports without findings, the reader goes on with what follows. -/
theorem imports_followedBy {n m : Nat} (hs : InBudget c s) (hn : s.rest.length < n)
    (hm : s.rest.length + more.length < m) {o : Outcome (List Import)} {s' : State}
    (hrun : imports n c s = .ok o s') (hquiet : s'.diagnostics = s.diagnostics) :
    s'.rest <:+ s.rest ∧ kindOf s'.rest ≠ .keyword .import_ ∧
      ∃ m', s'.rest.length + more.length < m' ∧
        imports m (c.endingAt l) (s.followedBy more) =
          (imports m' >>= fun o' => pure ⟨o.found ++ o'.found, o'.stopped⟩) (c.endingAt l)
            (s'.followedBy more) := by
  induction n generalizing m s o with
  | zero => exact absurd hn (Nat.not_lt_zero _)
  | succ n ih =>
    by_cases himport : kindOf s.rest = .keyword .import_
    · rw [imports_run_import himport] at hrun
      obtain ⟨found, t, hread, ht, hquiet₁, hrun⟩ := attempt_quiet built_import persists_import hs
        (grows_behindImport (grows_imports n)) hrun hquiet
      obtain ⟨o₁, t₁, hmore, hlast⟩ := bind_eq_ok.mp hrun
      cases hlast
      have hbehind : Behind t.rest s.rest := moves_recoveredImport himport _ _ hread
      have hshort := hbehind.2
      obtain ⟨m, rfl⟩ : ∃ k, m = k + 1 := ⟨m - 1, by omega⟩
      obtain ⟨hfence, -, hsame⟩ := (@sealed_import c l more).same hread hquiet₁
      obtain ⟨hsuffix, hkind, m', hm', hrest⟩ :=
        ih ht (by omega) (m := m) (by omega) hmore (hquiet.trans hquiet₁.symm)
      refine ⟨hsuffix.trans hbehind.1, hkind, m', hm', ?_⟩
      have hagain : kindOf (s.followedBy more).rest = .keyword .import_ := by
        rw [followedBy_rest, hfence.kindOf_append more, himport]
      rw [imports_run_import hagain, bind_run_ok (by rw [attempt_run, hsame]), behindImport, bind_run, hrest,
        ← bind_run, bind_assoc]
      simp only [pure_bind, List.append_assoc]
    · rw [imports_run_end himport] at hrun
      cases hrun
      exact ⟨List.suffix_refl _, himport, m, hm, by simp⟩

theorem rest_eq_nil (hkinds : ∀ t ∈ s.rest, t.kind ≠ .endOfInput) (hend : kindOf s.rest = .endOfInput) :
    s.rest = [] := by
  rcases hrest : s.rest with _ | ⟨t, ts⟩
  · rfl
  · rw [hrest, kindOf] at hend
    exact absurd hend (hkinds t (hrest ▸ List.mem_cons_self))

/-- After types without findings, the text has ended, and the reader goes on with what follows. -/
theorem types_followedBy {start : Location} {span : Span} {n m : Nat} (hs : InBudget c s)
    (hkinds : ∀ t ∈ s.rest, t.kind ≠ .endOfInput) (hn : s.rest.length < n)
    (hm : s.rest.length + more.length < m) {o : Outcome (List TypeDeclaration × Span)} {s' : State}
    (hrun : types start span n c s = .ok o s') (hquiet : s'.diagnostics = s.diagnostics) :
    s'.rest = [] ∧ ∃ m' span', types start span m (c.endingAt l) (s.followedBy more) =
      (types start span' m' >>= fun o' =>
        pure ⟨(o.found.1 ++ o'.found.1, o'.found.2), o'.stopped⟩) (c.endingAt l) (s'.followedBy more) := by
  induction n generalizing m s o span with
  | zero => exact absurd hn (Nat.not_lt_zero _)
  | succ n ih =>
    by_cases hend : kindOf s.rest = .endOfInput
    · rw [types_run_end n hend] at hrun
      cases hrun
      exact ⟨rest_eq_nil hkinds hend, m, span, by simp⟩
    have hne := rest_ne_nil_of_kindOf hend
    have hsame : kindOf (s.followedBy more).rest = kindOf s.rest := kindOf_append more hne
    obtain ⟨m, rfl⟩ : ∃ k, m = k + 1 := ⟨m - 1, by omega⟩
    by_cases hsemicolon : kindOf s.rest = .mark .semicolon
    · have hbehind : Behind (s.skip 1).rest s.rest := behind_drop hne Nat.one_pos
      have hshort := hbehind.2
      rw [types_run_semicolon n hsemicolon] at hrun
      rw [types_run_semicolon m (hsame.trans hsemicolon), followedBy_skip (List.length_pos_iff.mpr hne)]
      exact ih (s := s.skip 1) ⟨hs.goesOn, hs.room⟩ (fun t ht => hkinds t (hbehind.1.mem ht))
        (by omega) (by omega) hrun hquiet
    · rw [types_run_type n hend hsemicolon] at hrun
      obtain ⟨found, t, hread, ht, hquiet₁, hrun⟩ := attempt_quiet built_topLevelType persists_topLevelType
        hs (grows_behindType (fun span => grows_types start span n) span) hrun hquiet
      rw [behindType_run] at hrun
      obtain ⟨o₁, t₁, hmore, hlast⟩ := bind_eq_ok.mp hrun
      cases hlast
      have hbehind : Behind t.rest s.rest := moves_topLevelType hne _ _ hread
      have hshort := hbehind.2
      obtain ⟨hfence, hlast, hreadMore⟩ := (@sealed_topLevelType c l more).same hread hquiet₁
      obtain ⟨hnil, m', span', hrest⟩ :=
        ih ht (fun t ht => hkinds t (hbehind.1.mem ht)) (by omega) (m := m) (by omega) hmore
          (hquiet.trans hquiet₁.symm)
      refine ⟨hnil, m', span', ?_⟩
      obtain ⟨last, hlast⟩ := Option.isSome_iff_exists.mp hlast
      have hspan : (t.followedBy more).spanFrom (c.endingAt l) start = t.spanFrom c start := by
        simp only [State.spanFrom, State.followedBy, hlast, Option.getD_some]
      rw [types_run_type m (hsame ▸ hend) (hsame ▸ hsemicolon),
        bind_run_ok (by rw [attempt_run, hreadMore]), behindType_run, hspan, bind_run, hrest, ← bind_run,
        bind_assoc]
      simp only [pure_bind, List.append_assoc]

/-- At the end of a text there are no more types. -/
theorem types_at_end {start : Location} {span : Span} {n : Nat} (hnil : s.rest = [])
    {o : Outcome (List TypeDeclaration × Span)} {s' : State} (hrun : types start span n c s = .ok o s') :
    o.found.1 = [] := by
  cases n with
  | zero =>
    cases hrun
    rfl
  | succ n =>
    rw [types_run_end n (by rw [hnil]; rfl)] at hrun
    cases hrun
    rfl

/-! ### Whole texts -/

/-- A run that has all of a unit, and whose findings are about places with a property. -/
def GoesOn (L : Location → Prop) (u : CompilationUnit)
    (r : EStateM.Result Diagnostic State (Outcome CompilationUnit)) : Prop :=
  ∃ o s, r = .ok o s ∧ UnitPart u o.found ∧ Placed L s ∧ ∀ d, o.stopped = some d → L d.location

section WholeTexts

variable {L : Location → Prop}

/-- The types that follow what has been read of a unit. -/
theorem goesOn_types (hstop : L c.stop) {u : CompilationUnit} {start : Location} {span : Span} {n : Nat}
    (hs : InBudget c s) (hplaced : Placed L s) (g : List TypeDeclaration → List TypeDeclaration)
    (htypes : ∀ ts, u.types <+: g ts) {package : Option PackageClause} {is : List Import}
    (hpackage : u.package = package) (himports : u.imports <+: is) :
    GoesOn L u ((types start span n >>= fun ts =>
      pure ⟨⟨package, is, g ts.found.1, ts.found.2⟩, ts.stopped⟩) c s) := by
  obtain ⟨ts, t, hrun, -⟩ := settles_types start span n s hs
  obtain ⟨ht, hstopped⟩ := placedOutcome_types hstop start span n hplaced ts t hrun
  exact ⟨_, t, bind_run_ok hrun _, ⟨hpackage, himports, htypes _⟩, ht, hstopped⟩

/-- The imports and types that follow what has been read of a unit without types. -/
theorem goesOn_imports (hstop : L c.stop) {u : CompilationUnit} {start : Location} {n : Nat}
    (hs : InBudget c s) (hplaced : Placed L s) (htypes : u.types = []) :
    GoesOn L u ((imports n >>= fun is =>
      behindImports start u.package ⟨u.imports ++ is.found, is.stopped⟩) c s) := by
  obtain ⟨⟨is, stopped⟩, t, hrun, ht⟩ := settles_imports n s hs
  obtain ⟨hplaced', hstopped'⟩ := placedOutcome_imports hstop n hplaced _ t hrun
  rw [bind_run_ok hrun]
  cases stopped with
  | some d =>
    exact ⟨_, t, rfl, ⟨rfl, List.prefix_append _ _, htypes ▸ List.nil_prefix⟩, hplaced', hstopped'⟩
  | none =>
    rw [behindImports_run]
    exact goesOn_types hstop ht hplaced' (fun ts => ts) (fun _ => htypes ▸ List.nil_prefix) rfl
      (List.prefix_append _ _)

/-- At the end of a text without findings, what follows is all that is left. -/
theorem placed_followedBy (hmore : ∀ t ∈ more, L t.location) (hnil : s.rest = [])
    (hnew : s.diagnostics = []) : Placed L (s.followedBy more) := by
  refine ⟨fun d hd => ?_, fun u hu => hmore u ?_⟩
  · have hnone : (s.followedBy more).diagnostics = [] := hnew
    rw [hnone] at hd
    cases hd
  · rwa [followedBy_rest, hnil] at hu

/-- A text that goes on is read as before behind its package clause. -/
theorem goesOn_behindPackage (hstop : L l) (hmore : ∀ t ∈ more, L t.location) {start : Location}
    {package : Option PackageClause} (hs : InBudget c s) (hnew : s.diagnostics = [])
    (hkinds : ∀ t ∈ s.rest, t.kind ≠ .endOfInput) {o : Outcome CompilationUnit} {s' : State}
    (hrun : behindPackage start package c s = .ok o s') (hquiet : s'.diagnostics = s.diagnostics) :
    GoesOn L o.found (behindPackage start package (c.endingAt l) (s.followedBy more)) := by
  rw [behindPackage_run] at hrun ⊢
  obtain ⟨⟨is, stopped⟩, t, hread, hrun⟩ := bind_eq_ok.mp hrun
  have hbefore := grows_imports (c := c) (s.rest.length + 1) s
  have hafter := grows_behindImports (c := c) start package ⟨is, stopped⟩ t
  rw [hread] at hbefore
  rw [hrun] at hafter
  have hquiet₁ : t.diagnostics = s.diagnostics := quiet_between hbefore hafter hquiet
  obtain ⟨rfl, ht⟩ := imports_quiet hs hread hquiet₁
  rw [behindImports_run] at hrun
  obtain ⟨ts, t', htypes, hlast⟩ := bind_eq_ok.mp hrun
  cases hlast
  obtain ⟨hsuffix, hkind, m, hm, himports⟩ := @imports_followedBy c s l more _
    ((s.followedBy more).rest.length + 1) hs (Nat.lt_succ_self _) (by simp) _ _ hread hquiet₁
  rw [bind_run, himports, ← bind_run, bind_assoc]
  simp only [pure_bind]
  by_cases hnil : t.rest = []
  · -- the text has ended in its imports, and there may be more of them
    exact goesOn_imports (u := ⟨package, is, ts.found.1, ts.found.2⟩) hstop ht.followedBy
      (placed_followedBy hmore hnil (hquiet₁.trans hnew)) (types_at_end hnil htypes)
  · -- the imports have ended at a type, so they end there again
    obtain ⟨k, rfl⟩ : ∃ k, m = k + 1 := ⟨m - 1, by omega⟩
    have hend : kindOf (t.followedBy more).rest ≠ .keyword .import_ := by
      rwa [followedBy_rest, kindOf_append more hnil]
    rw [bind_run_ok (imports_run_end hend k), behindImports_run]
    obtain ⟨hnil', m', span', hgoesOn⟩ := @types_followedBy c t l more start (.single start) _
      ((t.followedBy more).rest.length + 1) ht (fun u hu => hkinds u (hsuffix.mem hu))
      (Nat.lt_succ_self _) (by simp) _ _ htypes (hquiet.trans hquiet₁.symm)
    rw [bind_run, hgoesOn, ← bind_run, bind_assoc]
    simp only [pure_bind]
    have hs' : InBudget c s' := ⟨fun d hd => hs.goesOn d (hquiet ▸ hd), hquiet ▸ hs.room⟩
    exact goesOn_types hstop hs'.followedBy (placed_followedBy hmore hnil' (hquiet.trans hnew))
      (ts.found.1 ++ ·) (fun _ => List.prefix_append _ _) rfl (List.prefix_append _ _)

theorem optionalPackage_followedBy (hne : s.rest ≠ []) {package : Option PackageClause} {s' : State}
    (hrun : optionalPackage c s = .ok package s') (hquiet : s'.diagnostics = s.diagnostics) :
    optionalPackage (c.endingAt l) (s.followedBy more) = .ok package (s'.followedBy more) := by
  rw [optionalPackage, bind_run_ok (check_run _), ite_run] at hrun ⊢
  rw [followedBy_rest, kindOf_append more hne]
  split at hrun
  · next hpackage =>
    rw [if_pos hpackage]
    have hsealed : Sealed c l more (recover (some <$> packageClause) skipClause)
        (recover (some <$> packageClause) skipClause) := by
      simp only [← bind_pure_comp]
      exact sealed_recover (sealed_map sealed_packageClause some) built_skipClause _
    exact (hsealed.same hrun hquiet).2.2
  · next hpackage =>
    cases hrun
    rw [if_neg hpackage]
    rfl

/-- A text that goes on is read as before, up to its end. -/
theorem goesOn_unit (hstop : L l) (hmore : ∀ t ∈ more, L t.location) (hs : InBudget c s)
    (hnew : s.diagnostics = []) (hne : s.rest ≠ []) (hkinds : ∀ t ∈ s.rest, t.kind ≠ .endOfInput)
    {o : Outcome CompilationUnit} {s' : State} (hrun : unit c s = .ok o s')
    (hquiet : s'.diagnostics = s.diagnostics) :
    GoesOn L o.found (unit (c.endingAt l) (s.followedBy more)) := by
  rw [unit_eq, bind_run_ok here_run] at hrun ⊢
  obtain ⟨package, t, hread, ht, hquiet₁, hrun⟩ :=
    attempt_quiet built_optionalPackage persists_optionalPackage hs (fun r => by
      rcases r with d | package
      · exact grows_pure _
      · exact grows_behindPackage _ package) hrun hquiet
  have hsuffix : t.rest <:+ s.rest := built_optionalPackage.forward.suffix hread
  rw [followedBy_next hne, bind_run_ok (by
    rw [attempt_run, optionalPackage_followedBy hne hread hquiet₁])]
  exact goesOn_behindPackage hstop hmore ht (hquiet₁.trans hnew) (fun u hu => hkinds u (hsuffix.mem hu))
    hrun (hquiet.trans hquiet₁.symm)

theorem PlacedOutcome.diagnostics {o : Outcome CompilationUnit} (h : PlacedOutcome L (.ok o s)) :
    ∀ d ∈ (Parsed.ofOutcome o s).diagnostics, L d.location := by
  obtain ⟨hs, hstopped⟩ := h o s rfl
  intro d hd
  rw [ofOutcome_diagnostics] at hd
  rcases List.mem_append.mp hd with hd | hd
  · exact hs.found d hd
  · exact hstopped d (Option.mem_toList.mp hd)

theorem GoesOn.outcome {u : CompilationUnit} {o : Outcome CompilationUnit} (h : GoesOn L u (.ok o s)) :
    UnitPart u o.found ∧ PlacedOutcome L (.ok o s) := by
  obtain ⟨o', s', hrun, hpart, hs, hstopped⟩ := h
  obtain ⟨rfl, rfl⟩ := EStateM.Result.ok.inj hrun
  refine ⟨hpart, fun o' s' hrun' => ?_⟩
  obtain ⟨rfl, rfl⟩ := EStateM.Result.ok.inj hrun'
  exact ⟨hs, hstopped⟩

end WholeTexts

namespace Input

theorem tokens_given_append {front : List Token} (hfront : ∀ t ∈ front, t.kind ≠ .endOfInput)
    (back : List Token) (faults : List Fault) :
    (given (front ++ back) faults).tokens = front ++ back.takeWhile (·.kind ≠ .endOfInput) :=
  List.takeWhile_append_of_pos fun t ht => decide_eq_true (hfront t ht)

/-- What follows a text without findings does not damage it: its package, its imports and its types
are read as before, and all findings are about what follows. -/
theorem parse_append (front back : List Token) (hfront : ∀ t ∈ front, t.kind ≠ .endOfInput)
    (faults : List Fault) (options : ParseOptions)
    (hclean : ((given front faults).parse options).diagnostics = []) :
    let before := (given front faults).parse options
    let after := (given (front ++ back) faults).parse options
    (∀ p, before.unit.package = some p → after.unit.package = some p) ∧
      before.unit.imports <+: after.unit.imports ∧ before.unit.types <+: after.unit.types ∧
      ∀ d ∈ after.diagnostics, (∃ t ∈ back, t.location = d.location) ∨
        d.location = (given (front ++ back) faults).stop := by
  intro before after
  let L (l : Location) : Prop := (∃ t ∈ back, t.location = l) ∨ l = (given (front ++ back) faults).stop
  let more := back.takeWhile (·.kind ≠ .endOfInput)
  have hmore : ∀ t ∈ more, L t.location := fun t ht => .inl ⟨t, List.takeWhile_subset _ ht, rfl⟩
  have hfirst : (given front faults).state.rest = front := by
    have hfirst := tokens_given_append hfront [] faults
    rwa [List.append_nil, List.takeWhile_nil, List.append_nil] at hfirst
  have hstate : (given (front ++ back) faults).state = (given front faults).state.followedBy more := by
    simp only [State.followedBy, hfirst]
    simp only [state, tokens_given_append hfront back faults]
    rfl
  obtain ⟨o, s, hrun, hbefore, -⟩ := parse_settled (given front faults) options
  obtain ⟨o', s', hrun', hafter, -⟩ := parse_settled (given (front ++ back) faults) options
  have hunit : before.unit = o.found := (congrArg Parsed.unit hbefore).trans (ofOutcome_unit o s)
  have hunit' : after.unit = o'.found := (congrArg Parsed.unit hafter).trans (ofOutcome_unit o' s')
  have hplaces : after.diagnostics = (Parsed.ofOutcome o' s').diagnostics :=
    congrArg Parsed.diagnostics hafter
  rw [hunit, hunit', hplaces]
  rcases front with _ | ⟨t, front⟩
  · -- nothing has been read before
    cases hrun
    have hplaced : Placed L (given ([] ++ back) faults).state :=
      ⟨fun _ hd => absurd hd List.not_mem_nil, fun t ht => hmore t (by rwa [hstate] at ht)⟩
    have hall := placedOutcome_unit (c := (given ([] ++ back) faults).settings options) (.inr rfl) hplaced
    rw [hrun'] at hall
    exact ⟨by rintro p ⟨⟩, List.nil_prefix, List.nil_prefix, hall.diagnostics⟩
  · have hquiet : s.diagnostics = [] := by
      have hnone := (congrArg Parsed.diagnostics hbefore).symm.trans hclean
      rw [ofOutcome_diagnostics] at hnone
      exact (List.append_eq_nil_iff.mp hnone).1
    have hgoesOn : GoesOn L o.found (.ok o' s') := by
      rw [← hrun', hstate]
      refine goesOn_unit (.inr rfl) hmore ⟨fun _ hd => absurd hd List.not_mem_nil, ?_⟩ rfl ?_ ?_ hrun hquiet
      · exact Nat.lt_of_lt_of_le Nat.one_pos (le_max_right _ _)
      · rw [hfirst]
        exact List.cons_ne_nil t front
      · rwa [hfirst]
    obtain ⟨⟨hpackage, himports, htypes⟩, hall⟩ := hgoesOn.outcome
    exact ⟨fun p hp => hpackage ▸ hp, himports, htypes, hall.diagnostics⟩

/-- `class A { } | ) class B { }`: the second text is read behind a finding about its first token. -/
theorem parse_append_secondText :
    let front := tokensOf [.keyword .class_, .identifier, .mark .openBrace, .mark .closeBrace]
    let back := tokensOf [.mark .closeParen, .keyword .class_, .identifier, .mark .openBrace,
      .mark .closeBrace]
    let before := (given front []).parse {}
    let after := (given (front ++ back) []).parse {}
    before.unit.types.length = 1 ∧ after.unit.types.length = 2 ∧ after.diagnostics.length = 1 ∧
      before.unit.types <+: after.unit.types := by
  intro front back
  obtain ⟨-, -, htypes, -⟩ := parse_append front back (by decide) [] {} (by decide +kernel)
  dsimp only
  exact ⟨by decide +kernel, by decide +kernel, by decide +kernel, htypes⟩

end Input

end JavaTree.Parser
