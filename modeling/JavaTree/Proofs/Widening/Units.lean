import JavaTree.Proofs.Widening.Statements

/-!
Members, types and whole texts with wider caps.

At the top of a text, what stops the reader of an import or of a type is only that the budget is spent.
That a cap was reached is on record there, so it is among the findings in the end, and a text without
such a finding is read the same way with wider caps.
-/

namespace JavaTree.Parser

variable {α β : Type} {c : Settings} {wide : Limits} {s : State}

section Limited

variable (hle : c.limits.Within wide)

include hle

/-! ### Members -/

theorem widens_parameter : Widens c wide parameter parameter := by
  refine .bind widens_here fun start => .bind (widens_allQualifiers hle) fun _ => ?_
  refine .bind (widens_typeUse hle) fun _ => .bind (widens_accept _) fun _ => ?_
  exact .bind widens_identifier fun _ => .bind widens_brackets fun _ => widens_spanned start _

theorem widens_parameterList (n : Nat) : Widens c wide (parameterList n) (parameterList n) := by
  induction n with
  | zero => exact widens_pure []
  | succ n ih =>
    refine .bind (widens_parameter hle) fun _ => .bind (widens_accept _) fun _ => .ite ?_ (widens_pure _)
    exact .bind ih fun _ => widens_pure _

theorem widens_parameters : Widens c wide parameters parameters := by
  refine .bind (widens_require _ _) fun _ => .bind (widens_check _) fun _ => ?_
  simp only [← bind_assoc]
  exact .join (widens_pure []) (.bind widens_steps fun _ => widens_parameterList hle _) fun _ =>
    .bind (widens_require _ _) fun _ => widens_pure _

theorem widens_method (start : Location) (q : Qualifiers) (params : Option String) :
    Widens c wide (method start q params) (method start q params) := by
  refine .bind (widens_returnType hle) fun _ => .bind widens_identifier fun _ => ?_
  refine .bind (widens_parameters hle) fun _ => .bind (widens_typesAfter hle _) fun _ => ?_
  refine .bind (widens_check _) fun _ => ?_
  simp only [← bind_assoc]
  refine .join (.bind (widens_body hle) fun _ => widens_pure _) ?_ fun _ => widens_spanned start _
  exact .bind (widens_require _ _) fun _ => widens_pure none

theorem widens_constructor (start : Location) (typeName : String) (q : Qualifiers)
    (params : Option String) :
    Widens c wide (constructor start typeName q params) (constructor start typeName q params) := by
  refine .bind widens_here fun _ => .bind widens_identifier fun _ => ?_
  refine .ite (.bind (widens_note _) fun _ => ?_) ?_
  all_goals
    exact .bind (widens_parameters hle) fun _ => .bind (widens_typesAfter hle _) fun _ =>
      .bind (widens_body hle) fun _ => widens_spanned start _

theorem widens_plainMember (start : Location) (typeName : String) (q : Qualifiers) :
    Widens c wide (plainMember start typeName q) (plainMember start typeName q) := by
  refine .bind (widens_typeParameters hle) fun params => .ahead fun ts hts => .ite ?_ ?_
  · exact .bind (widens_constructor hle start typeName q params) fun _ => widens_pure _
  refine .read ?_
  have hlooks : looksLikeMethod (c.withLimits wide).limits.excerptTokens ts =
      looksLikeMethod c.limits.excerptTokens ts := (hts.looksLikeMethod hle.excerptTokens).symm
  rw [hlooks]
  refine .ite ?_ (.ite ?_ (widens_fail _))
  · exact .bind (widens_method hle start q params) fun _ => widens_pure _
  · exact .bind (widens_fields hle start q) fun _ => widens_pure _

theorem widens_member (typeName : String) : Widens c wide (member typeName) (member typeName) := by
  refine .bind widens_here fun start => .bind (widens_allQualifiers hle) fun q => ?_
  refine .bind widens_rest fun _ => ?_
  refine .ite ?_ (.ite ?_ (.ite ?_ (widens_plainMember hle start typeName q)))
  · exact .bind (widens_skipType _) fun _ => widens_pure []
  · exact .bind (widens_skipType _) fun _ => widens_pure []
  · exact .bind (widens_body hle) fun _ => widens_spanned start _

/-- What is left of a faulty member. -/
theorem widens_skipMember (atStart : Bool) :
    Widens c wide (skipBy (memberRest c.limits.excerptTokens atStart 0))
      (skipBy (memberRest wide.excerptTokens atStart 0)) := by
  refine .ahead fun ts hts => ?_
  rw [hts.memberRest hle.excerptTokens]
  exact widens_skip _

theorem widens_members (typeName : String) {cap cap' : Nat} (hcap : cap ≤ cap') :
    Widens c wide (members typeName cap) (members typeName cap') := by
  induction cap generalizing cap' with
  | zero =>
    cases cap' with
    | zero | succ _ =>
      exact .bind widens_kind fun _ => .ite (widens_pure []) (widens_overfull _ Limits.typeMembers [] _)
  | succ cap ih =>
    obtain ⟨cap', rfl⟩ : ∃ n, cap' = n + 1 := ⟨cap' - 1, by omega⟩
    have hmore := ih (Nat.le_of_succ_le_succ hcap)
    refine .bind widens_kind fun _ => .ite (widens_pure []) (.bind (widens_accept _) fun _ => .ite hmore ?_)
    refine .bind widens_steps fun before => ?_
    refine .bind (.recover (widens_member hle typeName) ?_) fun _ => .bind hmore fun _ => widens_pure _
    exact .bind widens_steps fun _ => .read (.bind (widens_skipMember hle _) fun _ => widens_pure [])

theorem widens_memberSection (typeName : String) :
    Widens c wide (memberSection typeName) (memberSection typeName) :=
  .read (.bind (widens_members hle typeName hle.typeMembers) fun _ => widens_close (widens_pure _))

/-! ### Types -/

theorem widens_classRest (start : Location) (q : Qualifiers) :
    Widens c wide (classRest start q) (classRest start q) := by
  refine .bind (widens_skip 1) fun _ => .bind widens_identifier fun name => ?_
  refine .bind (widens_typeParameters hle) fun _ => .bind (widens_accept _) fun _ => ?_
  simp only [← bind_assoc]
  refine .join (.bind (widens_typeUse hle) fun _ => widens_pure _) (widens_pure none) fun _ => ?_
  simp only [bind_assoc]
  refine .bind (widens_typesAfter hle _) fun _ => .bind (widens_require _ _) fun _ => ?_
  exact .bind (widens_memberSection hle name) fun _ => widens_spanned start _

theorem widens_interfaceRest (start : Location) (q : Qualifiers) :
    Widens c wide (interfaceRest start q) (interfaceRest start q) := by
  refine .bind (widens_skip 1) fun _ => .bind widens_identifier fun name => ?_
  refine .bind (widens_typeParameters hle) fun _ => .bind (widens_typesAfter hle _) fun _ => ?_
  refine .bind (widens_require _ _) fun _ => .bind (widens_memberSection hle name) fun _ => ?_
  exact widens_spanned start _

theorem widens_enumConstant : Widens c wide enumConstant enumConstant := by
  refine .bind widens_here fun start => .bind widens_steps fun _ => ?_
  refine .bind (widens_annotations hle _) fun _ => ?_
  refine .bind widens_identifier fun _ => .bind (widens_optionalArguments hle _) fun _ => ?_
  refine .bind (widens_check _) fun _ => .ite ?_ (widens_spanned start _)
  refine .bind widens_here fun _ => .bind (widens_skipBy _) fun _ => ?_
  exact .bind (widens_report _) fun _ => widens_spanned start _

theorem widens_enumConstants (n : Nat) : Widens c wide (enumConstants n) (enumConstants n) := by
  induction n with
  | zero => exact widens_pure []
  | succ n ih =>
    refine .bind widens_kind fun _ => .bind (widens_check _) fun _ => .ite (widens_pure []) ?_
    refine .bind widens_steps fun _ => .bind (.recover ((widens_enumConstant hle).map some) ?_) fun _ => ?_
    · exact .bind widens_steps fun _ => .bind (widens_skipBy _) fun _ => widens_pure none
    · exact .bind (widens_accept _) fun _ => .ite (.bind ih fun _ => widens_pure _) (widens_pure _)

theorem widens_enumMembers (typeName : String) :
    Widens c wide (enumMembers typeName) (enumMembers typeName) := by
  refine .bind (widens_accept _) fun _ => .ite (widens_memberSection hle typeName) ?_
  refine .bind (widens_accept _) fun _ => .ite ?_ (widens_pure [])
  refine .bind (widens_unexpected _) fun d => .bind (widens_report d) fun _ => .read ?_
  exact .bind (widens_skipMember hle true) fun _ => .bind (widens_accept _) fun _ => widens_pure []

theorem widens_enumRest (start : Location) (q : Qualifiers) :
    Widens c wide (enumRest start q) (enumRest start q) := by
  refine .bind (widens_skip 1) fun _ => .bind widens_identifier fun name => ?_
  refine .bind (widens_typesAfter hle _) fun _ => .bind (widens_require _ _) fun _ => ?_
  refine .bind widens_steps fun _ => .bind (widens_enumConstants hle _) fun _ => ?_
  exact .bind (widens_enumMembers hle name) fun _ => widens_spanned start _

theorem widens_typeDeclaration : Widens c wide typeDeclaration typeDeclaration := by
  refine .bind widens_here fun start => .bind (widens_allQualifiers hle) fun q => ?_
  refine .bind widens_kind fun _ => .bind widens_secondKind fun _ => ?_
  split
  · exact .bind (widens_classRest hle start q) fun _ => widens_pure _
  · exact .bind (widens_interfaceRest hle start q) fun _ => widens_pure _
  · exact .bind (widens_enumRest hle start q) fun _ => widens_pure _
  · exact .bind (widens_skipType _) fun _ => widens_pure none
  · exact widens_fail _

/-! ### Whole texts -/

omit hle in
theorem widens_packageClause : Widens c wide packageClause packageClause :=
  .bind widens_here fun start => .bind (widens_skip 1) fun _ => .bind widens_qualifiedName fun _ =>
    .bind (widens_require _ _) fun _ => widens_spanned start _

omit hle in
theorem widens_importClause : Widens c wide importClause importClause := by
  refine .bind widens_here fun start => .bind (widens_skip 1) fun _ => .bind (widens_accept _) fun _ => ?_
  refine .bind widens_qualifiedName fun _ => .bind (widens_accept _) fun _ => ?_
  refine .ite (.bind (widens_require _ _) fun _ => ?_) ?_
  all_goals exact .bind (widens_require _ _) fun _ => widens_spanned start _

omit hle in
theorem widens_skipClause : Widens c wide (skipClause : Parser (Option α)) skipClause :=
  .bind (widens_skipBy _) fun _ => widens_pure none

omit hle in
/-- One import, or nothing if it is faulty. -/
theorem widens_import : Widens c wide (recover (some <$> importClause) skipClause)
    (recover (some <$> importClause) skipClause) :=
  .recover (widens_importClause.map some) widens_skipClause

omit hle in
theorem widens_optionalPackage : Widens c wide optionalPackage optionalPackage :=
  .bind (widens_check _) fun _ =>
    .ite (.recover (widens_packageClause.map some) widens_skipClause) (widens_pure none)

theorem widens_topLevelType : Widens c wide topLevelType topLevelType := by
  refine .bind widens_steps fun _ => .recover (widens_typeDeclaration hle) ?_
  exact .bind widens_steps fun _ => .bind (widens_skipBy _) fun _ => widens_pure none

omit hle in
theorem widens_imports (n : Nat) : Widens c wide (imports n) (imports n) := by
  induction n with
  | zero => exact widens_pure _
  | succ n ih =>
    refine .bind (widens_check _) fun _ => .ite ?_ (widens_pure _)
    refine .bind (widens_import.attempt persists_import) fun r => ?_
    rcases r with d | found
    · exact widens_pure _
    · exact .bind ih fun _ => widens_pure _

theorem widens_types (start : Location) (span : Span) (n : Nat) :
    Widens c wide (types start span n) (types start span n) := by
  induction n generalizing span with
  | zero => exact widens_pure _
  | succ n ih =>
    refine .bind (widens_check _) fun _ => .ite (widens_pure _) ?_
    refine .bind (widens_accept _) fun _ => .ite (ih span) ?_
    refine .bind (.attempt (widens_topLevelType hle) persists_topLevelType) fun r => ?_
    rcases r with d | found
    · exact widens_pure _
    · exact .bind (widens_spanFrom start) fun _ => .bind (ih _) fun _ => widens_pure _

theorem widens_unit : Widens c wide unit unit := by
  refine .bind widens_here fun start => ?_
  refine .bind (.attempt widens_optionalPackage persists_optionalPackage) fun r => ?_
  rcases r with d | package
  · exact widens_pure _
  refine .bind widens_steps fun _ => .bind (widens_imports _) fun is => ?_
  split
  · exact widens_pure _
  · exact .bind widens_steps fun _ => .bind (widens_types hle _ _ _) fun _ => widens_pure _

end Limited

namespace Input

/-- Wider limits make no difference to a text in which no finding says that a cap was reached, if each
type in it is recognised with the narrow cap when it is with the wide one. -/
theorem parse_widened (input : Input) (budget : ErrorBudget) {narrow wide : Limits}
    (hle : narrow.Within wide)
    (hfits : TypesFit narrow.excerptTokens wide.excerptTokens input.tokens)
    (hcaps : ∀ d ∈ (input.parse ⟨narrow, budget⟩).diagnostics, d.isLimit = false) :
    input.parse ⟨wide, budget⟩ = input.parse ⟨narrow, budget⟩ := by
  obtain ⟨o, s, hrun, hparse, -⟩ := parse_settled input ⟨narrow, budget⟩
  rcases (@widens_unit (input.settings ⟨narrow, budget⟩) wide hle input.state hfits).same with hcap | heq
  · rw [hrun] at hcap
    obtain ⟨d, hd, hlimit⟩ := hcap
    rw [stopping, List.append_nil] at hd
    have hmem : d ∈ (Parsed.ofOutcome o s).diagnostics := by
      rw [ofOutcome_diagnostics]
      exact List.mem_append_left _ hd
    rw [← hparse] at hmem
    rw [hcaps d hmem] at hlimit
    cases hlimit
  · rw [parse_eq, parse_eq, heq]
    rfl

/-- A faulty member, and behind it a list of three tokens with a cap of three. -/
theorem parse_widened_tight :
    let input := ofSource "class A \x7b = Map<K> m; \x7d"
    let narrow : Limits := ⟨0, 3, 2, 0⟩
    narrow.Within {} ∧ TypesFit 3 200000 input.tokens ∧
      (input.parse ⟨narrow, .standard⟩).diagnostics.map (·.isLimit) = [false] ∧
      input.parse ⟨{}, .standard⟩ = input.parse ⟨narrow, .standard⟩ := by
  intro input narrow
  have hle : narrow.Within {} := ⟨by decide, by decide, by decide, by decide⟩
  have hfits : TypesFit 3 200000 input.tokens := by decide +kernel
  have hfindings : (input.parse ⟨narrow, .standard⟩).diagnostics.map (·.isLimit) = [false] := by
    decide +kernel
  refine ⟨hle, hfits, hfindings, parse_widened input .standard hle hfits fun d hd => ?_⟩
  have hmem := List.mem_map_of_mem hd (f := Diagnostic.isLimit)
  rw [hfindings] at hmem
  exact List.mem_singleton.mp hmem

/-- The list of type arguments is too long for the look ahead, so the statement is read as an
expression. What is reported then is not that a cap was reached. -/
theorem parse_not_widened_longList :
    let source := "class A \x7b void f() \x7b List<A B, C> x; \x7d \x7d"
    let narrow : Limits := { excerptTokens := 3 }
    let cut := CompilationUnit.parse source ⟨narrow, .standard⟩
    let full := CompilationUnit.parse source ⟨{}, .standard⟩
    narrow.Within {} ∧ cut.diagnostics.map (·.isLimit) = [false] ∧ full.diagnostics = [] := by
  intro source narrow cut full
  exact ⟨⟨by decide, by decide, by decide, by decide⟩, by decide +kernel, by decide +kernel⟩

end Input

end JavaTree.Parser
