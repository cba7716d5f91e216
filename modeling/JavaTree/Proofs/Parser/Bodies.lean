import JavaTree.Proofs.Parser.Blocks

/-!
Bodies of types end with the brace that closes them, and so do blocks.

Faults, constructs that are left out and caps inside of a body do not change where it ends, except
for the findings that `Strays` names. These do, as the runs behind the main statement show.
-/

namespace JavaTree.Parser

open Excerpt

variable {α β : Type} {c : Settings} {s : State}

/-! ### Members -/

theorem contained_body : Contained c s (body c s) := by
  rw [body, bind_run_ok read_run]
  exact (deeperContained c _).block s

theorem contained_parameter : Contained c s (parameter c s) := by
  rw [parameter, bind_run_ok here_run]
  refine contained_bind contained_allQualifiers fun _ _ _ => ?_
  refine contained_bind skirts_typeUse.contained fun _ _ _ => ?_
  refine contained_bind (skirts_accept rfl).contained fun _ _ _ => ?_
  refine contained_bind skirts_identifier.contained fun _ _ _ => ?_
  exact contained_bind skirts_brackets.contained fun _ _ _ => contained_spanFrom _ _

theorem contained_parameterList (n : Nat) : Contained c s (parameterList n c s) := by
  induction n generalizing s with
  | zero => exact contained_ok []
  | succ n ih =>
    refine contained_bind contained_parameter fun p _ _ => ?_
    refine contained_bind (skirts_accept rfl).contained fun _ _ _ => ?_
    rw [ite_run]
    split
    · exact contained_bind ih fun _ _ _ => contained_ok _
    · exact contained_ok [p]

theorem contained_parameters : Contained c s (parameters c s) := by
  refine contained_bind (skirts_require rfl _).contained fun _ _ _ => ?_
  rw [bind_run_ok (check_run _)]
  simp only [← bind_assoc]
  refine contained_join (fun _ => contained_ok []) (fun _ => ?_) fun _ _ => ?_
  · rw [bind_run_ok steps_run]
    exact contained_parameterList _
  · exact contained_bind (skirts_require rfl _).contained fun _ _ _ => contained_ok _

theorem skirts_returnType : Skirts s (returnType c s) := by
  rw [returnType, bind_run_ok here_run]
  refine skirts_bind (skirts_accept rfl) fun _ _ _ => ?_
  rw [ite_run]
  split
  · exact skirts_ok _
  · exact skirts_typeUse

theorem contained_method (start : Location) (q : Qualifiers) (params : Option String) :
    Contained c s (method start q params c s) := by
  refine contained_bind skirts_returnType.contained fun _ _ _ => ?_
  refine contained_bind skirts_identifier.contained fun _ _ _ => ?_
  refine contained_bind contained_parameters fun _ _ _ => ?_
  refine contained_bind (skirts_typesAfter _).contained fun _ _ _ => ?_
  rw [bind_run_ok (check_run _)]
  simp only [← bind_assoc]
  refine contained_join (fun _ => ?_) (fun _ => ?_) fun _ _ => contained_spanFrom _ _
  · exact contained_bind contained_body fun _ _ _ => contained_ok _
  · exact contained_bind (skirts_require rfl _).contained fun _ _ _ => contained_ok none

theorem contained_constructor (start : Location) (typeName : String) (q : Qualifiers)
    (params : Option String) : Contained c s (constructor start typeName q params c s) := by
  have hrest (name : String) (s' : State) : Contained c s' ((do
      let ps ← parameters
      let throws ← typesAfter .throws_
      let inner ← body
      return ({
        modifiers := q.modifiers
        annotations := q.annotations
        typeParameters := params
        name
        parameters := ps
        throws
        body := inner
        span := ← Parser.spanFrom start } : Constructor) : Parser Constructor) c s') := by
    refine contained_bind contained_parameters fun _ _ _ => ?_
    refine contained_bind (skirts_typesAfter _).contained fun _ _ _ => ?_
    exact contained_bind contained_body fun _ _ _ => contained_spanFrom _ _
  rw [constructor, bind_run_ok here_run]
  refine contained_bind skirts_identifier.contained fun name _ _ => ?_
  simp only [ite_run]
  split
  · exact contained_bind (contained_still _ rfl rfl) fun _ _ _ => hrest name _
  · exact hrest name _

theorem contained_plainMember (start : Location) (typeName : String) (q : Qualifiers) :
    Contained c s (plainMember start typeName q c s) := by
  refine contained_bind skirts_typeParameters.contained fun _ _ _ => ?_
  rw [bind_run_ok rest_run, ite_run]
  split
  · exact contained_bind (contained_constructor _ _ _ _) fun _ _ _ => contained_ok _
  · rw [bind_run_ok read_run, ite_run]
    split
    · exact contained_bind (contained_method _ _ _) fun _ _ _ => contained_ok _
    · rw [ite_run]
      split
      · exact contained_bind (contained_fields _ _) fun _ _ _ => contained_ok _
      · exact contained_fail _

theorem contained_member (typeName : String) : Contained c s (member typeName c s) := by
  rw [member, bind_run_ok here_run]
  refine contained_bind contained_allQualifiers fun _ _ _ => ?_
  rw [bind_run_ok rest_run, ite_run]
  split
  · next h => exact contained_bind (contained_skipType _ (.inl h)) fun _ _ _ => contained_ok []
  · rw [ite_run]
    split
    · next h =>
      exact contained_bind (contained_skipType _ (.inr (kindOf_of_startsWith h))) fun _ _ _ =>
        contained_ok []
    · rw [ite_run]
      split
      · refine contained_bind contained_body fun _ _ _ => ?_
        rw [bind_run_ok (spanFrom_run _)]
        exact contained_ok _
      · exact contained_plainMember _ _ _

/-- A row of members goes on behind each fault, up to the end of the type. -/
theorem fills_members (typeName : String) (cap : Nat) :
    Fills (endsStatements false) c s (members typeName cap c s) := by
  induction cap generalizing s with
  | zero =>
    rw [members, bind_run_ok kind_run, ite_run]
    split
    · next h => exact fills_ok [] h
    · rw [bind_run_ok read_run, bind_run_ok here_run]
      exact fills_bind (contained_report _) (unstopped_report _) fun _ _ _ => fills_blockRest []
  | succ cap ih =>
    rw [members, bind_run_ok kind_run, ite_run]
    split
    · next h => exact fills_ok [] h
    · refine fills_bind (skirts_accept rfl).contained (unstopped_accept _) fun _ _ _ => ?_
      rw [ite_run]
      split
      · exact ih
      · rw [bind_run_ok steps_run]
        refine fills_bind (contained_recover (contained_member _) fun s' => ?_)
          (unstopped_recover fun s' => ?_) fun _ _ _ => ih.map
        · rw [bind_run_ok steps_run, bind_run_ok read_run]
          exact contained_bind (contained_skipBy (walk_memberRest _ _ 0 _).remains) fun _ _ _ =>
            contained_ok []
        · rw [bind_run_ok steps_run, bind_run_ok read_run]
          exact unstopped_bind nofun fun _ _ _ => unstopped_ok []

/-- The members of a type are read up to the brace that closes its body. -/
theorem seals_memberSection (typeName : String) : Seals c s (memberSection typeName c s) := by
  rw [memberSection, bind_run_ok read_run]
  have hfills : Fills (endsStatements false) c s (members typeName c.limits.typeMembers c s) :=
    fills_members typeName _
  refine seals_bind hfills.contained hfills.unstopped fun found s' h => ?_
  exact seals_close (fun _ => ⟨_, rfl⟩) (hfills.ended _ _ h)

/-! ### Constants of an enum -/

theorem contained_enumConstant : Contained c s (enumConstant c s) := by
  rw [enumConstant, bind_run_ok here_run, bind_run_ok steps_run]
  refine contained_bind (contained_annotations _) fun _ _ _ => ?_
  refine contained_bind skirts_identifier.contained fun _ _ _ => ?_
  refine contained_bind (contained_optionalArguments _) fun _ s' _ => ?_
  rw [bind_run_ok (check_run _), ite_run]
  split
  · next h =>
    rw [bind_run_ok here_run]
    refine contained_bind (contained_group (by rw [of_decide_eq_true h]; rfl)) fun _ _ _ => ?_
    exact contained_bind (contained_report _) fun _ _ _ => contained_spanFrom _ _
  · exact contained_spanFrom _ _

theorem contained_enumConstants (n : Nat) :
    Contained c s (enumConstants n c s) ∧ Unstopped (enumConstants n c s) := by
  induction n generalizing s with
  | zero => exact ⟨contained_ok [], unstopped_ok []⟩
  | succ n ih =>
    rw [enumConstants, bind_run_ok kind_run, bind_run_ok (check_run _), ite_run]
    split
    · exact ⟨contained_ok [], unstopped_ok []⟩
    · rw [bind_run_ok steps_run]
      constructor
      · refine contained_bind (contained_recover (contained_map contained_enumConstant) fun s' => ?_)
          fun _ _ _ => ?_
        · rw [bind_run_ok steps_run]
          exact contained_bind (contained_skipBy (walk_constantRest _ 0 _).remains) fun _ _ _ =>
            contained_ok none
        · refine contained_bind (skirts_accept rfl).contained fun _ _ _ => ?_
          rw [ite_run]
          split
          · exact contained_bind ih.1 fun _ _ _ => contained_ok _
          · exact contained_ok _
      · refine unstopped_bind (unstopped_recover fun s' => ?_) fun _ _ _ => ?_
        · rw [bind_run_ok steps_run]
          exact unstopped_bind nofun fun _ _ _ => unstopped_ok none
        · refine unstopped_bind (unstopped_accept _) fun _ _ _ => ?_
          rw [ite_run]
          split
          · exact unstopped_bind ih.2 fun _ _ _ => unstopped_ok _
          · exact unstopped_ok _

/-- Inside a brace group, the finding that the constants of an enum end badly leads out of it unless
what is left reaches up to a closing brace. -/
theorem Enclosed.eq_closeBrace_of_mismatch {since around : List Mark}
    (henc : Enclosed since (.closeBrace :: around) s.rest)
    (h : ¬ Strays c s.rest
      (mismatch c.faults "',', ';' or '\x7d' after enum constants" (s.next c))) :
    kindOf (s.rest.drop (memberRest c.limits.excerptTokens true 0 s.rest)) = .mark .closeBrace := by
  rcases hs : s.rest with _ | ⟨t, ts⟩
  · rw [hs] at henc
    have hnested := henc.nested
    simp [openBrackets] at hnested
  · rw [hs] at henc h
    have hnext : s.next c = t := by simp [State.next, hs]
    rw [hnext, mismatch] at h
    split at h
    · next hk => exact absurd hk (henc.proper t List.mem_cons_self)
    · split at h <;> exact absurd trivial h
    · by_cases hend : kindOf ((t :: ts).drop (memberRest c.limits.excerptTokens true 0 (t :: ts))) =
          .mark .closeBrace
      · exact hend
      · exact absurd ⟨rfl, t, ts, List.suffix_refl _, rfl, hend⟩ h

/-- What is left of an enum whose constants are not followed by `,`, `;` or `}` is passed over, with
the closing brace if that is next. -/
theorem seals_enumRemainder {k : Parser α} (hk : ∀ s', ∃ b, k c s' = .ok b s') :
    Seals c s ((do
      report (← unexpected "',', ';' or '\x7d' after enum constants")
      skipBy (memberRest (← read).limits.excerptTokens true 0)
      let _ ← accept Mark.closeBrace
      k : Parser α) c s) := by
  rw [bind_run_ok (unexpected_run _)]
  by_cases hbrace : kindOf (s.rest.drop (memberRest c.limits.excerptTokens true 0 s.rest)) =
      .mark .closeBrace
  · refine seals_bind (contained_report _) (unstopped_report _) fun _ s' hs' => ?_
    rw [bind_run_ok read_run]
    refine seals_bind (contained_skipBy (walk_memberRest _ _ 0 _).remains) nofun fun _ s'' hs'' => ?_
    cases hs''
    rw [← rest_of_report hs'] at hbrace
    obtain ⟨b, hb⟩ := hk ((s'.skip (memberRest c.limits.excerptTokens true 0 s'.rest)).skip 1)
    have haccept := accept_run (c := c) (s := s'.skip (memberRest c.limits.excerptTokens true 0 s'.rest))
      Mark.closeBrace
    rw [skip_rest, if_pos hbrace] at haccept
    rw [bind_run_ok haccept, hb]
    exact seals_brace hbrace
  · -- the finding leads out of the group, and what is passed over does not matter
    generalize hd : mismatch c.faults "',', ';' or '\x7d' after enum constants" (s.next c) = d
    have hrec : d.isRecoverable = true := by
      rw [← hd]
      exact isRecoverable_mismatch _ _ _
    have hopen (since around : List Mark) (henc : Enclosed since (.closeBrace :: around) s.rest) :
        Strays c s.rest d := by
      by_cases hstrays : Strays c s.rest d
      · exact hstrays
      · exact absurd (henc.eq_closeBrace_of_mismatch (by rw [hd]; exact hstrays)) hbrace
    by_cases hallowed : c.budget.allows (s.noted d).diagnostics = true
    · have hreport : report d c s = .ok () (s.noted d) := by
        rw [report_run, if_pos hrec, if_pos hallowed]
      obtain ⟨b, hb⟩ := hk ((s.noted d).skip (memberRest c.limits.excerptTokens true 0 s.rest))
      have haccept := accept_run (c := c)
        (s := (s.noted d).skip (memberRest c.limits.excerptTokens true 0 s.rest)) Mark.closeBrace
      rw [skip_rest, noted_rest, if_neg hbrace] at haccept
      rw [bind_run_ok hreport, bind_run_ok read_run, bind_run_ok (skipBy_run _), noted_rest,
        bind_run_ok haccept, hb]
      exact ⟨List.drop_suffix _ _, [d], rfl, fun hmild since around henc =>
        absurd (hopen since around henc) (hmild d List.mem_cons_self)⟩
    · have hreport : report d c s =
          .error (.tooManyErrors (s.noted d).diagnostics.length d.location) (s.noted d) := by
        rw [report_run, if_pos hrec, if_neg hallowed]
      rw [bind_run_error hreport]
      exact ⟨List.suffix_refl _, [d], rfl, fun hmild => absurd hmild not_mild_tooManyErrors⟩

theorem seals_enumMembers (typeName : String) : Seals c s (enumMembers typeName c s) := by
  refine seals_bind (skirts_accept rfl).contained (unstopped_accept _) fun _ s' _ => ?_
  rw [ite_run]
  split
  · exact seals_memberSection typeName
  · by_cases hbrace : kindOf s'.rest = .mark .closeBrace
    · have hrun : accept Mark.closeBrace c s' = .ok true (s'.skip 1) := by
        rw [accept_run, if_pos hbrace]
      rw [bind_run_ok hrun]
      exact seals_brace hbrace
    · have hrun : accept Mark.closeBrace c s' = .ok false s' := by rw [accept_run, if_neg hbrace]
      rw [bind_run_ok hrun]
      exact seals_enumRemainder fun _ => ⟨[], rfl⟩

/-! ### Bodies -/

/-- The second place is right behind the brace that closes the first brace group from the first
place on. -/
def ClosesBody (ts us : List Token) : Prop :=
  ∃ header o inner t, ts = header ++ o :: inner ++ t :: us ∧
    (∀ u ∈ header, isNoBrace u.kind = true) ∧ o.kind = .mark .openBrace ∧
      t.kind = .mark .closeBrace ∧ openBrackets [] inner = some []

/-- A run that ends right behind the first body, unless one of its findings leads out of it. -/
def Closes (c : Settings) (s : State) (r : EStateM.Result Diagnostic State α) : Prop :=
  ∃ new, (final r).diagnostics = s.diagnostics ++ new ∧
    ∀ a s', r = .ok a s' → Mild c s.rest new → ∀ since around, Enclosed since around s.rest →
      ClosesBody s.rest s'.rest

theorem closes_bind {p : Parser α} {f : α → Parser β} (hp : Skirts s (p c s))
    (hf : ∀ a s', p c s = .ok a s' → Closes c s' (f a c s')) : Closes c s ((p >>= f) c s) := by
  rw [bind_run]
  cases h : p c s with
  | error d s' =>
    rw [h] at hp
    exact ⟨[], by simpa [final] using hp.1, nofun⟩
  | ok a s' =>
    obtain ⟨hdiag, n, hrest, hn⟩ := h ▸ hp
    obtain ⟨new, hnew, hcloses⟩ := hf a s' h
    simp only [final] at hdiag hrest
    refine ⟨new, by rw [hnew, hdiag], fun b s'' hrun hmild since around henc => ?_⟩
    have hremains : Remains s.rest n := remains_of_braceless fun t ht => by
      simpa [isNoBrace] using hn t ht
    obtain ⟨_, -, hinside⟩ := hremains.stays
    obtain ⟨since', -, henc'⟩ := hinside since around henc
    rw [hrest] at hcloses
    obtain ⟨header, o, inner, t, hts, hheader, hbody⟩ :=
      hcloses b s'' hrun (hmild.of_suffix (List.drop_suffix n s.rest)) since' around henc'
    refine ⟨s.rest.take n ++ header, o, inner, t, ?_, fun u hu => ?_, hbody⟩
    · conv => lhs; rw [← List.take_append_drop n s.rest, hts]
      simp
    · rcases List.mem_append.mp hu with hu | hu
      · exact hn u hu
      · exact hheader u hu

/-- Behind an opening brace, a run that closes its group closes the body. -/
theorem Seals.closes {r : EStateM.Result Diagnostic State α} (ho : kindOf s.rest = .mark .openBrace)
    (h : Seals c (s.skip 1) r) : Closes c s r := by
  obtain ⟨-, new, hnew, hseals⟩ := h
  refine ⟨new, hnew, fun a s' hrun hmild since around henc => ?_⟩
  rcases hs : s.rest with _ | ⟨o, ts⟩
  · rw [hs] at ho
    cases ho
  · rw [hs] at ho henc hmild
    rw [skip_rest, hs, hrun] at hseals
    obtain ⟨inner, t, hts, ht, hinner⟩ := hseals
      (by simpa [stopping] using hmild.of_suffix (List.suffix_cons o ts)) [] _ (henc.opened ho)
    refine ⟨[], o, inner, t, ?_, by simp, ho, ht, hinner⟩
    simpa [final] using hts

theorem closes_require {expected : String} {k : Unit → Parser α}
    (hk : ∀ s, Seals c s (k () c s)) : Closes c s ((require Mark.openBrace expected >>= k) c s) := by
  by_cases ho : kindOf s.rest = .mark .openBrace
  · have hrun : require Mark.openBrace expected c s = .ok () (s.skip 1) := by
      rw [require_run, if_pos ho]
    rw [bind_run_ok hrun]
    exact (hk _).closes ho
  · have hrun : require Mark.openBrace expected c s =
        .error (mismatch c.faults expected (s.next c)) s := by rw [require_run, if_neg ho]
    rw [bind_run_error hrun]
    exact ⟨[], by simp [final], by simp⟩

theorem closes_classRest (start : Location) (q : Qualifiers) (hk : isNoBrace (kindOf s.rest) = true) :
    Closes c s (classRest start q c s) := by
  refine closes_bind (skirts_skip_one hk) fun _ _ _ => ?_
  refine closes_bind skirts_identifier fun name _ _ => ?_
  refine closes_bind skirts_typeParameters fun params _ _ => ?_
  refine closes_bind (skirts_accept rfl) fun extended s' _ => ?_
  have hrest (superclass : Option TypeUse) (s'' : State) : Closes c s'' ((do
      let interfaces ← typesAfter .implements_
      require Mark.openBrace "'\x7b' after class declaration"
      let found ← memberSection name
      return ⟨q.modifiers, q.annotations, name, .class_ params superclass interfaces, found,
        ← Parser.spanFrom start⟩ : Parser TypeDeclaration) c s'') := by
    refine closes_bind (skirts_typesAfter _) fun _ _ _ => closes_require fun _ => ?_
    exact (seals_memberSection _).map fun _ _ => ⟨_, by rw [bind_run_ok (spanFrom_run _)]; rfl⟩
  rw [ite_run]
  split
  · exact closes_bind skirts_typeUse fun superclass _ _ => hrest (some superclass) _
  · exact hrest none s'

theorem closes_interfaceRest (start : Location) (q : Qualifiers)
    (hk : isNoBrace (kindOf s.rest) = true) : Closes c s (interfaceRest start q c s) := by
  refine closes_bind (skirts_skip_one hk) fun _ _ _ => ?_
  refine closes_bind skirts_identifier fun _ _ _ => ?_
  refine closes_bind skirts_typeParameters fun _ _ _ => ?_
  refine closes_bind (skirts_typesAfter _) fun _ _ _ => closes_require fun _ => ?_
  exact (seals_memberSection _).map fun _ _ => ⟨_, by rw [bind_run_ok (spanFrom_run _)]; rfl⟩

theorem closes_enumRest (start : Location) (q : Qualifiers) (hk : isNoBrace (kindOf s.rest) = true) :
    Closes c s (enumRest start q c s) := by
  refine closes_bind (skirts_skip_one hk) fun _ _ _ => ?_
  refine closes_bind skirts_identifier fun _ _ _ => ?_
  refine closes_bind (skirts_typesAfter _) fun _ _ _ => closes_require fun _ => ?_
  rw [bind_run_ok steps_run]
  refine seals_bind (contained_enumConstants _).1 (contained_enumConstants _).2 fun _ _ _ => ?_
  exact (seals_enumMembers _).map fun _ _ => ⟨_, by rw [bind_run_ok (spanFrom_run _)]; rfl⟩

theorem closes_block (levels : Nat) : Closes c s (block levels c s) := by
  cases levels with
  | zero =>
    rw [block, tooDeep, bind_run_ok read_run, bind_run_ok here_run]
    exact ⟨[], by simp [final], by simp⟩
  | succ levels =>
    rw [block]
    by_cases ho : kindOf s.rest = .mark .openBrace
    · exact (seals_braced (deeperContained c levels).statement ho).closes ho
    · have hrun : require Mark.openBrace "'\x7b'" c s =
          .error (mismatch c.faults "'\x7b'" (s.next c)) s := by rw [require_run, if_neg ho]
      rw [braced, bind_run_ok here_run, bind_run_error hrun]
      exact ⟨[], by simp [final], by simp⟩

/-! ### Where bodies end -/

/-- The readers of a block, and of a type from its first word on. -/
inductive ReadsBody : Kind → {α : Type} → Parser α → Prop
  | block (k : Kind) (levels : Nat) : ReadsBody k (block levels)
  | class_ (start : Location) (q : Qualifiers) : ReadsBody (.keyword .class_) (classRest start q)
  | interface_ (start : Location) (q : Qualifiers) :
      ReadsBody (.keyword .interface_) (interfaceRest start q)
  | enum_ (start : Location) (q : Qualifiers) : ReadsBody (.keyword .enum_) (enumRest start q)

/-- What is left of a text in which all brackets are closed in order. -/
def Nested (ts : List Token) : Prop :=
  (∀ t ∈ ts, t.kind ≠ .endOfInput) ∧ ∃ outer, openBrackets outer ts = some []

theorem ReadsBody.closes {k : Kind} {p : Parser α} (hp : ReadsBody k p) (hk : kindOf s.rest = k) :
    Closes c s (p c s) := by
  cases hp with
  | block k levels => exact closes_block levels
  | class_ start q => exact closes_classRest start q (by rw [hk]; rfl)
  | interface_ start q => exact closes_interfaceRest start q (by rw [hk]; rfl)
  | enum_ start q => exact closes_enumRest start q (by rw [hk]; rfl)

/-- In a text with nested brackets, a block or type that is read ends right behind the brace that
closes it, whatever findings there are inside, unless one of them leads out of a brace group. -/
theorem closesBody_of_eq_ok {k : Kind} {p : Parser α} (hp : ReadsBody k p) (hk : kindOf s.rest = k)
    {a : α} {s' : State} (hrun : p c s = .ok a s') (hnested : Nested s.rest)
    {new : List Diagnostic} (hnew : s'.diagnostics = s.diagnostics ++ new)
    (hmild : Mild c s.rest new) : ClosesBody s.rest s'.rest := by
  obtain ⟨hproper, outer, houter⟩ := hnested
  obtain ⟨since, around, rfl, hsince, haround⟩ := exists_braceless_append outer
  obtain ⟨found, hfound, hcloses⟩ := hp.closes (c := c) hk
  rw [hrun] at hfound
  simp only [final, hnew, List.append_cancel_left_eq] at hfound
  subst hfound
  exact hcloses a s' hrun hmild since around ⟨hsince, haround, houter, hproper⟩

/-- Tokens of the given kinds. -/
def tokensOf (kinds : List Kind) : List Token := kinds.map (⟨·, "", .start⟩)

/-- A parser that stands on tokens of the given kinds. -/
def onTokens (kinds : List Kind) : State := ⟨tokensOf kinds, none, [], []⟩

/-- `{ case (;) {} throw; } x }`: a block with two faults in it, and more behind it. -/
def faultyBlock : List Kind :=
  [.mark .openBrace, .keyword .case_, .mark .openParen, .mark .semicolon, .mark .closeParen,
   .mark .openBrace, .mark .closeBrace, .keyword .throw_, .mark .semicolon, .mark .closeBrace,
   .identifier, .mark .closeBrace]

theorem closesBody_faultyBlock :
    ∃ b s', block 3 plainSettings (onTokens faultyBlock) = .ok b s' ∧ s'.diagnostics.length = 2 ∧
      ClosesBody (onTokens faultyBlock).rest s'.rest := by
  obtain ⟨b, s', hrun, hnew⟩ : ∃ b s', block 3 plainSettings (onTokens faultyBlock) = .ok b s' ∧
      s'.diagnostics = [.unexpectedToken "statement" "''" .start,
        .unexpectedToken "thrown expression" "''" .start] := ⟨_, _, rfl, rfl⟩
  have hnested : Nested (onTokens faultyBlock).rest := ⟨by decide, [.closeBrace], by decide⟩
  refine ⟨b, s', hrun, by rw [hnew]; rfl, ?_⟩
  exact closesBody_of_eq_ok (.block (.mark .openBrace) 3) rfl hrun hnested hnew
    (by simp [Mild, Strays])

/-- A body that is closed leaves no bracket open from its first brace on. -/
theorem ClosesBody.openBrackets_eq {pre us : List Token} (h : ClosesBody (pre ++ us) us) :
    openBrackets [] (pre.dropWhile (isNoBrace ·.kind)) = some [] := by
  obtain ⟨header, o, inner, t, hts, hheader, ho, ht, hinner⟩ := h
  have hpre : pre = header ++ (o :: inner ++ [t]) := by
    refine List.append_cancel_right (hts.trans ?_)
    simp
  rw [hpre, List.dropWhile_append_of_pos hheader, List.cons_append,
    List.dropWhile_cons_of_neg (by simp [isNoBrace, ho])]
  exact openBrackets_group ho ht hinner

/-- A reader that has a result on nested tokens, but does not end where the body does. -/
def Escapes (p : Parser α) (c : Settings) (kinds : List Kind) : Prop :=
  Nested (onTokens kinds).rest ∧ ∃ a s', p c (onTokens kinds) = .ok a s' ∧
    ¬ ClosesBody (onTokens kinds).rest s'.rest

theorem escapes_of_eq_ok {p : Parser α} {kinds : List Kind} {a : α} {s' : State}
    (hnested : Nested (onTokens kinds).rest) (hrun : p c (onTokens kinds) = .ok a s') (n : Nat)
    (hrest : s'.rest = (onTokens kinds).rest.drop n)
    (hopen : openBrackets [] (((onTokens kinds).rest.take n).dropWhile (isNoBrace ·.kind)) ≠ some []) :
    Escapes p c kinds := by
  refine ⟨hnested, a, s', hrun, fun hcloses => hopen ?_⟩
  have hsplit : (onTokens kinds).rest = (onTokens kinds).rest.take n ++ s'.rest := by
    rw [hrest, List.take_append_drop]
  rw [hsplit] at hcloses
  exact hcloses.openBrackets_eq

/-- Each sort of finding that `Strays` names can lead out of a brace group: an invalid token in an
excerpt, an excerpt that is too long, a local type without a body, and constants of an enum with no
comma between them. -/
theorem escapes_of_strays :
    Escapes (block 3) plainSettings
      [.mark .openBrace, .identifier, .mark .openParen, .mark .openBrace, .invalid, .mark .closeBrace,
       .mark .closeParen, .mark .semicolon, .mark .closeBrace] ∧
    Escapes (block 3) { plainSettings with limits := { excerptTokens := 3 } }
      [.mark .openBrace, .identifier, .mark .openParen, .mark .openBrace, .identifier,
       .mark .closeBrace, .mark .closeParen, .mark .semicolon, .mark .closeBrace] ∧
    Escapes (block 3) plainSettings
      [.mark .openBrace, .keyword .class_, .identifier, .mark .closeBrace, .identifier,
       .mark .semicolon, .mark .closeBrace] ∧
    Escapes (enumRest .start ⟨[], []⟩) plainSettings
      [.keyword .enum_, .identifier, .mark .openBrace, .identifier, .identifier, .mark .semicolon,
       .identifier, .identifier, .mark .semicolon, .mark .closeBrace] := by
  refine ⟨?_, ?_, ?_, ?_⟩
  · exact escapes_of_eq_ok ⟨by decide, [], by decide⟩ rfl 6 rfl (by decide)
  · exact escapes_of_eq_ok ⟨by decide, [], by decide⟩ rfl 6 rfl (by decide)
  · exact escapes_of_eq_ok ⟨by decide, [.closeBrace], by decide⟩ rfl 7 rfl (by decide)
  · exact escapes_of_eq_ok ⟨by decide, [], by decide⟩ rfl 6 rfl (by decide)

end JavaTree.Parser
