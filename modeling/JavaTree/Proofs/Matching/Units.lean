import JavaTree.Parser.Unit
import JavaTree.Proofs.Matching.Statements

/-!
The readers of members, types and whole texts match themselves.
-/

namespace JavaTree.Parser

variable {α γ : Type} {c c' : Settings}

/-! ### Members -/

theorem matches_parameter : Matches c c' Parameter.bare parameter parameter := by
  apply matches_here.bindAny
  intro start start'
  apply matches_allQualifiers.bindOn
  intro q q' hq
  apply matches_typeUse.bindOn
  intro t t' ht
  apply (matches_accept _).bind
  intro _
  apply matches_identifier.bind
  intro _
  apply matches_brackets.bind
  intro _
  apply matches_spanned start start'
  intro _ _
  obtain ⟨hannotations, hmodifiers⟩ := Qualifiers.bare_eq_iff.mp hq
  obtain ⟨htype, hinner⟩ : t.name = t'.name ∧ t.dimensions = t'.dimensions := by
    simpa [TypeUse.bare] using ht
  simp only [Parameter.bare, TypeUse.bare, hannotations, hmodifiers, htype, hinner]

theorem matches_parameterList (n : Nat) :
    Matches c c' (List.map Parameter.bare) (parameterList n) (parameterList n) := by
  induction n with
  | zero => exact matches_pure rfl
  | succ n ih =>
    apply matches_parameter.bindOn
    intro p p' hp
    apply (matches_accept _).bind
    intro _
    refine matches_ite Iff.rfl (ih.bindOn fun ps ps' hps => matches_pure ?_) (matches_pure ?_)
    · rw [List.map_cons, List.map_cons, hp, hps]
    · rw [List.map_singleton, List.map_singleton, hp]

theorem matches_parameters : Matches c c' (List.map Parameter.bare) parameters parameters := by
  apply (matches_require _ _).bind
  intro _
  apply (matches_check _).bind
  intro _
  simp only [← bind_assoc]
  exact matches_join (matches_pure rfl) (matches_steps.bind fun _ => matches_parameterList _) fun _ _ h =>
    (matches_require _ _).bind fun _ => matches_pure h

section Members

variable {q q' : Qualifiers} (hq : q.bare = q'.bare) (start start' : Location)

include hq

theorem matches_method (params : Option String) :
    Matches c c' Method.bare (method start q params) (method start' q' params) := by
  obtain ⟨hannotations, hmodifiers⟩ := Qualifiers.bare_eq_iff.mp hq
  apply matches_returnType.bindOn
  intro t t' ht
  apply matches_identifier.bind
  intro _
  apply matches_parameters.bindOn
  intro ps ps' hps
  apply (matches_typesAfter _).bindOn
  intro ts ts' hts
  apply (matches_check _).bind
  intro _
  simp only [← bind_assoc]
  refine matches_join (v := Option.map Block.bare)
    (matches_body.bindOn fun _ _ h => matches_pure (congrArg some h))
    ((matches_require _ _).bind fun _ => matches_pure rfl) fun b b' hb => ?_
  apply matches_spanned start start'
  intro _ _
  simp only [Method.bare, hannotations, hmodifiers, ht, hps, hts, hb]

theorem matches_constructor (typeName : String) (params : Option String) :
    Matches c c' Constructor.bare (constructor start typeName q params)
      (constructor start' typeName q' params) := by
  obtain ⟨hannotations, hmodifiers⟩ := Qualifiers.bare_eq_iff.mp hq
  apply matches_here.bindAny
  intro l l'
  apply matches_identifier.bind
  intro name
  have hrest : Matches c c' Constructor.bare
      (do
        let ps ← parameters
        let throws ← typesAfter .throws_
        let inner ← body
        return ⟨q.modifiers, q.annotations, params, name, ps, throws, inner, ← spanFrom start⟩)
      (do
        let ps ← parameters
        let throws ← typesAfter .throws_
        let inner ← body
        return ⟨q'.modifiers, q'.annotations, params, name, ps, throws, inner, ← spanFrom start'⟩) := by
    apply matches_parameters.bindOn
    intro ps ps' hps
    apply (matches_typesAfter _).bindOn
    intro ts ts' hts
    apply matches_body.bindOn
    intro b b' hb
    apply matches_spanned start start'
    intro _ _
    simp only [Constructor.bare, hannotations, hmodifiers, hps, hts, hb]
  exact matches_ite Iff.rfl ((matches_note _ _).bind fun _ => hrest) hrest

theorem matches_plainMember (typeName : String) :
    Matches c c' (List.map Member.bare) (plainMember start typeName q)
      (plainMember start' typeName q') := by
  apply matches_typeParameters.bind
  intro params
  apply matches_rest.bindOn
  intro ts us h
  simp only [eq_of_bare (startsWith_bare · .identifier Mark.openParen) h, eq_of_bare kindOf_bare h]
  apply matches_ite Iff.rfl
  · apply (matches_constructor hq start start' typeName params).bindOn
    intro m m' hm
    apply matches_pure
    simp only [List.map_singleton, Member.bare, hm]
  · apply matches_read
    intro hlimits
    simp only [hlimits, eq_of_bare (looksLikeMethod_bare · c'.limits.excerptTokens) h]
    refine matches_ite Iff.rfl ?_ (matches_ite Iff.rfl ?_ (matches_fail _))
    · apply (matches_method hq start start' params).bindOn
      intro m m' hm
      apply matches_pure
      simp only [List.map_singleton, Member.bare, hm]
    · apply (matches_fields hq start start').bindOn
      intro fs fs' hfs
      apply matches_pure
      exact map_eq_map hfs fun f f' hf => by rw [Member.bare, Member.bare, hf]

end Members

theorem matches_member (typeName : String) :
    Matches c c' (List.map Member.bare) (member typeName) (member typeName) := by
  apply matches_here.bindAny
  intro start start'
  apply matches_allQualifiers.bindOn
  intro q q' hq
  apply matches_rest.bindOn
  intro ts us h
  simp only [eq_of_bare (startsWith_bare · Mark.atSign Keyword.interface_) h, eq_of_bare kindOf_bare h]
  refine matches_ite Iff.rfl ?_ (matches_ite Iff.rfl ?_ (matches_ite Iff.rfl ?_ ?_))
  · exact (matches_skipType _).bind fun _ => matches_pure rfl
  · exact (matches_skipType _).bind fun _ => matches_pure rfl
  · apply matches_body.bindOn
    intro b b' hb
    apply matches_spanned start start'
    intro _ _
    simp only [List.map_singleton, Member.bare, Initializer.bare, (Qualifiers.bare_eq_iff.mp hq).2, hb]
  · exact matches_plainMember hq start start' typeName

theorem matches_members (typeName : String) (cap : Nat) :
    Matches c c' (List.map Member.bare) (members typeName cap) (members typeName cap) := by
  induction cap with
  | zero =>
    apply matches_kind.bind
    intro _
    refine matches_ite Iff.rfl (matches_pure rfl) ?_
    apply matches_read
    intro hlimits
    apply matches_here.bindAny
    intro _ _
    refine (matches_report (by simp only [hlimits, Diagnostic.bare])).bind fun _ => ?_
    exact (matches_skipBy (blockRest_bare · 0)).bind fun _ => matches_pure rfl
  | succ cap ih =>
    apply matches_kind.bind
    intro _
    refine matches_ite Iff.rfl (matches_pure rfl) ?_
    apply (matches_accept _).bind
    intro _
    refine matches_ite Iff.rfl ih (matches_steps.bind fun _ => ?_)
    refine ((matches_member typeName).recover ?_).bindOn fun ms ms' hms => ?_
    · apply matches_steps.bind
      intro _
      apply matches_read
      intro hlimits
      rw [hlimits]
      exact (matches_skipBy (memberRest_bare · _ _ 0)).bind fun _ => matches_pure rfl
    · apply ih.bindOn
      intro more more' hmore
      apply matches_pure
      rw [List.map_append, List.map_append, hms, hmore]

theorem matches_memberSection (typeName : String) :
    Matches c c' (List.map Member.bare) (memberSection typeName) (memberSection typeName) := by
  apply matches_read
  intro hlimits
  rw [hlimits]
  exact (matches_members typeName _).bindOn fun ms ms' hms => matches_close (matches_pure hms)

/-! ### Types -/

theorem matches_enumConstant : Matches c c' EnumConstant.bare enumConstant enumConstant := by
  apply matches_here.bindAny
  intro start start'
  apply matches_steps.bind
  intro _
  apply (matches_annotations _).bindOn
  intro as as' has
  apply matches_identifier.bind
  intro name
  apply (matches_optionalArguments _).bindOn
  intro e e' he
  apply (matches_check _).bind
  intro _
  have hnode (a a' : Span) :
      (⟨as, name, e, a⟩ : EnumConstant).bare = (⟨as', name, e', a'⟩ : EnumConstant).bare := by
    simp only [EnumConstant.bare, has, he]
  refine matches_ite Iff.rfl ?_ (matches_spanned start start' hnode)
  apply matches_here.bindAny
  intro _ _
  apply (matches_skipBy (group_bare · 0)).bind
  intro _
  exact (matches_report (by rfl)).bind fun _ => matches_spanned start start' hnode

theorem matches_enumConstants (n : Nat) :
    Matches c c' (List.map EnumConstant.bare) (enumConstants n) (enumConstants n) := by
  induction n with
  | zero => exact matches_pure rfl
  | succ n ih =>
    apply matches_kind.bind
    intro _
    apply (matches_check _).bind
    intro _
    refine matches_ite Iff.rfl (matches_pure rfl) (matches_steps.bind fun _ => ?_)
    have hconstant : Matches c c' (Option.map EnumConstant.bare) (some <$> enumConstant)
        (some <$> enumConstant) := matches_enumConstant.map fun _ _ => congrArg some
    refine (hconstant.recover ?_).bindOn fun k k' hk => ?_
    · apply matches_steps.bind
      intro _
      exact (matches_skipBy (constantRest_bare · _ 0)).bind fun _ => matches_pure rfl
    have hlist : k.toList.map EnumConstant.bare = k'.toList.map EnumConstant.bare := by
      rw [← Option.toList_map, hk, Option.toList_map]
    apply (matches_accept _).bind
    intro _
    refine matches_ite Iff.rfl ?_ (matches_pure hlist)
    apply ih.bindOn
    intro more more' hmore
    apply matches_pure
    rw [List.map_append, List.map_append, hlist, hmore]

theorem matches_enumMembers (typeName : String) :
    Matches c c' (List.map Member.bare) (enumMembers typeName) (enumMembers typeName) := by
  apply (matches_accept _).bind
  intro _
  refine matches_ite Iff.rfl (matches_memberSection typeName) ?_
  apply (matches_accept _).bind
  intro _
  refine matches_ite Iff.rfl (matches_reportUnexpected _ ?_) (matches_pure rfl)
  apply matches_read
  intro hlimits
  rw [hlimits]
  apply (matches_skipBy (memberRest_bare · _ _ 0)).bind
  intro _
  exact (matches_accept _).bind fun _ => matches_pure rfl

section Types

variable {q q' : Qualifiers} (hq : q.bare = q'.bare) (start start' : Location)

include hq

theorem matches_classRest :
    Matches c c' TypeDeclaration.bare (classRest start q) (classRest start' q') := by
  obtain ⟨hannotations, hmodifiers⟩ := Qualifiers.bare_eq_iff.mp hq
  apply (matches_skip 1).bind
  intro _
  apply matches_identifier.bind
  intro name
  apply matches_typeParameters.bind
  intro params
  apply (matches_accept _).bind
  intro _
  simp only [← bind_assoc]
  refine matches_join (v := Option.map TypeUse.bare)
    (matches_typeUse.bindOn fun _ _ h => matches_pure (congrArg some h)) (matches_pure rfl) fun t t' ht => ?_
  simp only [bind_assoc]
  apply (matches_typesAfter _).bindOn
  intro ts ts' hts
  apply (matches_require _ _).bind
  intro _
  apply (matches_memberSection name).bindOn
  intro ms ms' hms
  apply matches_spanned start start'
  intro _ _
  simp only [TypeDeclaration.bare, TypeHeader.bare, hannotations, hmodifiers, ht, hts, hms]

theorem matches_interfaceRest :
    Matches c c' TypeDeclaration.bare (interfaceRest start q) (interfaceRest start' q') := by
  obtain ⟨hannotations, hmodifiers⟩ := Qualifiers.bare_eq_iff.mp hq
  apply (matches_skip 1).bind
  intro _
  apply matches_identifier.bind
  intro name
  apply matches_typeParameters.bind
  intro params
  apply (matches_typesAfter _).bindOn
  intro ts ts' hts
  apply (matches_require _ _).bind
  intro _
  apply (matches_memberSection name).bindOn
  intro ms ms' hms
  apply matches_spanned start start'
  intro _ _
  simp only [TypeDeclaration.bare, TypeHeader.bare, hannotations, hmodifiers, hts, hms]

theorem matches_enumRest :
    Matches c c' TypeDeclaration.bare (enumRest start q) (enumRest start' q') := by
  obtain ⟨hannotations, hmodifiers⟩ := Qualifiers.bare_eq_iff.mp hq
  apply (matches_skip 1).bind
  intro _
  apply matches_identifier.bind
  intro name
  apply (matches_typesAfter _).bindOn
  intro ts ts' hts
  apply (matches_require _ _).bind
  intro _
  apply matches_steps.bind
  intro _
  apply (matches_enumConstants _).bindOn
  intro ks ks' hks
  apply (matches_enumMembers name).bindOn
  intro ms ms' hms
  apply matches_spanned start start'
  intro _ _
  simp only [TypeDeclaration.bare, TypeHeader.bare, hannotations, hmodifiers, hts, hks, hms]

end Types

theorem matches_typeDeclaration :
    Matches c c' (Option.map TypeDeclaration.bare) typeDeclaration typeDeclaration := by
  apply matches_here.bindAny
  intro start start'
  apply matches_allQualifiers.bindOn
  intro q q' hq
  apply matches_kind.bind
  intro _
  apply matches_secondKind.bind
  intro _
  split
  · exact (matches_classRest hq start start').bindOn fun _ _ h => matches_pure (congrArg some h)
  · exact (matches_interfaceRest hq start start').bindOn fun _ _ h => matches_pure (congrArg some h)
  · exact (matches_enumRest hq start start').bindOn fun _ _ h => matches_pure (congrArg some h)
  · exact (matches_skipType _).bind fun _ => matches_pure rfl
  · exact matches_fail _

/-! ### Whole texts -/

theorem matches_packageClause : Matches c c' PackageClause.bare packageClause packageClause := by
  apply matches_here.bindAny
  intro start start'
  apply (matches_skip 1).bind
  intro _
  apply matches_qualifiedName.bind
  intro _
  apply (matches_require _ _).bind
  intro _
  exact matches_spanned start start' fun _ _ => rfl

theorem matches_importClause : Matches c c' Import.bare importClause importClause := by
  apply matches_here.bindAny
  intro start start'
  apply (matches_skip 1).bind
  intro _
  apply (matches_accept _).bind
  intro _
  apply matches_qualifiedName.bind
  intro _
  apply (matches_accept _).bind
  intro _
  refine matches_ite Iff.rfl ((matches_require _ _).bind fun _ => ?_) ?_
  all_goals exact (matches_require _ _).bind fun _ => matches_spanned start start' fun _ _ => rfl

theorem matches_skipClause {v : α → γ} :
    Matches c c' (Option.map v) (skipClause : Parser (Option α)) skipClause :=
  (matches_skipBy (statementRest_bare · 0)).bind fun _ => matches_pure rfl

theorem matches_optionalPackage :
    Matches c c' (Option.map PackageClause.bare) optionalPackage optionalPackage := by
  have hclause : Matches c c' (Option.map PackageClause.bare) (some <$> packageClause)
      (some <$> packageClause) := matches_packageClause.map fun _ _ => congrArg some
  exact (matches_check _).bind fun _ =>
    matches_ite Iff.rfl (hclause.recover matches_skipClause) (matches_pure rfl)

/-- What an outcome says but for places, given what to look at in what was found. -/
def Outcome.sight (v : α → γ) (o : Outcome α) : γ × Option Diagnostic :=
  (v o.found, o.stopped.map Diagnostic.bare)

theorem matches_imports (n : Nat) :
    Matches c c' (Outcome.sight (List.map Import.bare)) (imports n) (imports n) := by
  induction n with
  | zero => exact matches_pure rfl
  | succ n ih =>
    apply (matches_check _).bind
    intro _
    refine matches_ite Iff.rfl ?_ (matches_pure rfl)
    have hclause : Matches c c' (Option.map Import.bare) (some <$> importClause) (some <$> importClause) :=
      matches_importClause.map fun _ _ => congrArg some
    apply (hclause.recover matches_skipClause).attempt.bindOn
    intro r r' hr
    rcases r with d | i <;> rcases r' with d' | i'
    · exact matches_pure (by simpa [Outcome.sight, sightOf] using hr)
    · cases hr
    · cases hr
    · apply ih.bindOn
      intro more more' hmore
      apply matches_pure
      obtain ⟨hfound, hstopped⟩ := Prod.mk.inj hmore
      have hlist : i.toList.map Import.bare = i'.toList.map Import.bare := by
        rw [← Option.toList_map, Except.ok.inj hr, Option.toList_map]
      simp only [Outcome.sight, List.map_append, hlist, hfound, hstopped]

theorem matches_topLevelType :
    Matches c c' (Option.map TypeDeclaration.bare) topLevelType topLevelType := by
  apply matches_steps.bind
  intro _
  refine matches_typeDeclaration.recover ?_
  apply matches_steps.bind
  intro _
  exact (matches_skipBy (typeRest_bare · _ 0)).bind fun _ => matches_pure rfl

theorem matches_types (start start' : Location) (span span' : Span) (n : Nat) :
    Matches c c' (Outcome.sight fun found => found.1.map TypeDeclaration.bare) (types start span n)
      (types start' span' n) := by
  induction n generalizing span span' with
  | zero => exact matches_pure rfl
  | succ n ih =>
    apply matches_atEnd.bind
    intro _
    refine matches_ite Iff.rfl (matches_pure rfl) ?_
    apply (matches_accept _).bind
    intro _
    refine matches_ite Iff.rfl (ih _ _) ?_
    apply matches_topLevelType.attempt.bindOn
    intro r r' hr
    rcases r with d | t <;> rcases r' with d' | t'
    · exact matches_pure (by simpa [Outcome.sight, sightOf] using hr)
    · cases hr
    · cases hr
    · apply (matches_spanFrom start start').bindAny
      intro _ _
      apply (ih _ _).bindOn
      intro more more' hmore
      obtain ⟨hfound, hstopped⟩ := Prod.mk.inj hmore
      have hlist : t.toList.map TypeDeclaration.bare = t'.toList.map TypeDeclaration.bare := by
        rw [← Option.toList_map, Except.ok.inj hr, Option.toList_map]
      refine matches_pure ?_
      simp only [Outcome.sight, List.map_append, hlist, hfound, hstopped]

theorem matches_unit : Matches c c' (Outcome.sight CompilationUnit.bare) unit unit := by
  apply matches_here.bindAny
  intro start start'
  apply matches_optionalPackage.attempt.bindOn
  intro r r' hr
  rcases r with d | p <;> rcases r' with d' | p'
  · refine matches_pure ?_
    simpa [Outcome.sight, sightOf, CompilationUnit.bare] using hr
  · cases hr
  · cases hr
  have hp : p.map PackageClause.bare = p'.map PackageClause.bare := Except.ok.inj hr
  apply matches_steps.bind
  intro _
  apply (matches_imports _).bindOn
  intro is is' his
  obtain ⟨hfound, hstopped⟩ := Prod.mk.inj his
  cases hd : is.stopped <;> cases hd' : is'.stopped <;> rw [hd, hd'] at hstopped
  · apply matches_steps.bind
    intro _
    apply (matches_types start start' _ _ _).bindOn
    intro ts ts' hts
    obtain ⟨htypes, hend⟩ := Prod.mk.inj hts
    refine matches_pure ?_
    simp only [Outcome.sight, CompilationUnit.bare, hp, hfound, htypes, hend]
  · cases hstopped
  · cases hstopped
  · refine matches_pure ?_
    simp only [Outcome.sight, CompilationUnit.bare, hp, hfound, hstopped]

end JavaTree.Parser
