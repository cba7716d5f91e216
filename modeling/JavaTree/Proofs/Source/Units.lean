import JavaTree.Proofs.Source.Statements

/-!
Members, types and whole texts are read from their passages.

The main statement is about whole texts: when nothing about a text is reported, all of its tokens
have been passed over, and they are written as a passage of the unit that has been read.
-/

namespace JavaTree.Parser

variable {α β : Type} {c : Settings}

/-! ### Members -/

theorem reads_parameter : Reads c (fun p us _ => Spelled (ParameterFrom p) us) parameter := by
  refine reads_still still_here fun start => reads_bind reads_allQualifiers fun q us => ?_
  refine reads_bind reads_typeUse fun t vs => ?_
  have hrest (isVariadic : Bool) (es : List Token) : Reads c (fun p ws _ =>
      es.map Token.written = (if isVariadic then [.mark .ellipsis] else []) →
      Spelled (TypeFrom t) vs → QualifiersFrom ⟨[], []⟩ q (us.map Token.written) →
      Spelled (ParameterFrom p) (us ++ (vs ++ (es ++ ws)))) (do
        let name ← identifier
        let n ← brackets
        return {
          annotations := q.annotations
          isFinal := q.modifiers.contains .final_
          type := { t with dimensions := t.dimensions + n }
          name
          isVariadic
          span := ← spanFrom start }) := by
    refine reads_bind reads_identifier fun x xs => reads_bind reads_brackets fun n ns => ?_
    refine reads_spanned start fun span after hn hx hes ⟨p, hp, hpw⟩ hq => ?_
    exact ⟨_, .mk hq hp hx.1, by simp [hpw, hx.2, hn, hes]⟩
  refine reads_accept (fixes_mark .ellipsis) (fun es => ?_) ?_
  · exact (hrest true es).mono fun p ws _ h hes => h hes
  · exact (hrest false []).mono fun p ws _ h _ => h rfl

theorem reads_parameterList (n : Nat) :
    Reads c (fun ps us after => (us ++ after).length < n → Spelled (CommaFrom ParameterFrom ps) us)
      (parameterList n) := by
  induction n with
  | zero => exact reads_pure fun _ => nofun
  | succ n ih =>
    refine reads_bind reads_parameter fun p us => ?_
    refine reads_accept (fixes_mark .comma) (fun ts => ?_) ?_
    · refine reads_bind ih fun ps vs => reads_pure fun after hps hts ⟨q, hq, hqw⟩ hlen => ?_
      -- every parameter but the last one has a comma behind it, so the count does not run out
      have hcomma := congrArg List.length hts
      obtain ⟨r, hr, hrw⟩ := hps (by simp_all; omega)
      exact ⟨_, .cons hq hr, by simp [hqw, hrw, hts]⟩
    · exact reads_pure fun _ _ ⟨q, hq, hqw⟩ _ => ⟨q, .one hq, by simpa using hqw⟩

theorem reads_parameters : Reads c (fun ps us _ => Spelled (ParameterListFrom ps) us) parameters := by
  refine reads_bind (reads_require (fixes_mark _) _) fun _ us => ?_
  simp only [← bind_assoc]
  refine reads_checkJoin (P := fun ps vs _ => (ps = [] ∧ vs = []) ∨
    Spelled (CommaFrom ParameterFrom ps) vs) (reads_pure fun _ _ => .inl ⟨rfl, rfl⟩) ?_ fun ps vs => ?_
  · refine reads_steps fun n => (reads_parameterList n).mono fun ps vs after hps hn _ => .inr (hps ?_)
    omega
  · refine reads_bind (reads_require (fixes_mark _) _) fun _ ts => reads_pure fun _ hts hps hus => ?_
    rcases hps with ⟨rfl, rfl⟩ | ⟨p, hp, hpw⟩
    · exact ⟨_, .nil, by simp [hus, hts]⟩
    · exact ⟨_, .some hp, by simp [hus, hpw, hts]⟩

theorem reads_returnType : Reads c (fun t us _ => Spelled (ReturnFrom t) us) returnType := by
  refine reads_still still_here fun start => ?_
  refine reads_accept (fixes_keyword .void_) (fun us => ?_) ?_
  · exact reads_pure fun _ hus => ⟨_, .void, by simp [hus]⟩
  · exact reads_typeUse.mono fun t us _ ⟨p, hp, hpw⟩ _ => ⟨p, .type hp, hpw⟩

section Levels

variable {start : Location} {q : Qualifiers} {g : Option String}

theorem reads_method :
    Reads c (fun m us _ => (m.annotations = q.annotations ∧ m.modifiers = q.modifiers ∧
      m.typeParameters = g) ∧ Spelled (MethodFrom c.limits.nesting m) us) (method start q g) := by
  refine reads_bind reads_returnType fun t us => reads_bind reads_identifier fun x xs => ?_
  refine reads_bind reads_parameters fun ps vs => reads_bind (reads_typesAfter _) fun ts ws => ?_
  simp only [← bind_assoc]
  refine reads_checkJoin (P := fun b bs _ => Spelled (MethodBodyFrom c.limits.nesting b) bs)
    ?_ ?_ fun b bs => ?_
  · refine reads_bind reads_body fun b bs => reads_pure fun _ ⟨p, hp, hpw⟩ _ => ?_
    exact ⟨p, .some hp, by simpa using hpw⟩
  · refine reads_bind (reads_require (fixes_mark _) _) fun _ bs => reads_pure fun _ hbs _ => ?_
    exact ⟨_, .none, by simp [hbs]⟩
  · refine reads_spanned start ?_
    intro span after ⟨bp, hb, hbw⟩ ⟨tp, htp, htw⟩ ⟨pp, hpp, hppw⟩ hx ⟨rp, hr, hrw⟩
    refine ⟨⟨rfl, rfl, rfl⟩, _, ⟨rp, pp, tp, bp, hr, hx.1, hpp, htp, hb, rfl⟩, ?_⟩
    simp [hrw, hx.2, hppw, htw, hbw]

theorem reads_constructor (typeName : String) :
    Reads c (fun k us _ => (k.annotations = q.annotations ∧ k.modifiers = q.modifiers ∧
      k.typeParameters = g) ∧ Spelled (ConstructorFrom c.limits.nesting k) us)
      (constructor start typeName q g) := by
  refine reads_still still_here fun l => reads_bind reads_identifier fun x xs => ?_
  have hrest : Reads c (fun k us _ => IsIdentifier x ∧ xs.map Token.written = [.name x] →
      (k.annotations = q.annotations ∧ k.modifiers = q.modifiers ∧ k.typeParameters = g) ∧
        Spelled (ConstructorFrom c.limits.nesting k) (xs ++ us)) (do
      let ps ← parameters
      let throws ← typesAfter .throws_
      let inner ← body
      return ⟨q.modifiers, q.annotations, g, x, ps, throws, inner, ← spanFrom start⟩) := by
    refine reads_bind reads_parameters fun ps vs => reads_bind (reads_typesAfter _) fun ts ws => ?_
    refine reads_bind reads_body fun b bs => reads_spanned start ?_
    intro span after ⟨bp, hb, hbw⟩ ⟨tp, htp, htw⟩ ⟨pp, hpp, hppw⟩ hx
    refine ⟨⟨rfl, rfl, rfl⟩, _, ⟨pp, tp, bp, hx.1, hpp, htp, hb, rfl⟩, ?_⟩
    simp [hx.2, hppw, htw, hbw]
  exact reads_ite (fun _ => reads_still (still_note _) fun _ => hrest) fun _ => hrest

/-- What one declaration contributes, behind its qualifiers. -/
theorem reads_plainMember (typeName : String) :
    Reads c (fun ms us _ => ∀ qs : List Token, QualifiersFrom ⟨[], []⟩ q (qs.map Token.written) →
      Spelled (MemberFrom c.limits.nesting ms) (qs ++ us)) (plainMember start typeName q) := by
  refine reads_bind reads_typeParameters fun g gs => reads_rest fun ts => ?_
  refine reads_ite (fun _ => ?_) fun _ => reads_read (reads_ite (fun _ => ?_) fun _ => ?_)
  · refine reads_bind (reads_constructor typeName) fun k us => ?_
    refine reads_pure fun _ ⟨⟨has, hms, hg⟩, p, hp, hpw⟩ _ ⟨gp, hgp, hgw⟩ qs hq => ?_
    exact ⟨_, .constructor (by rwa [has, hms]) (by rwa [hg]) hp, by simp [hgw, hpw]⟩
  · refine reads_bind reads_method fun m us => ?_
    refine reads_pure fun _ ⟨⟨has, hms, hg⟩, p, hp, hpw⟩ _ ⟨gp, hgp, hgw⟩ qs hq => ?_
    exact ⟨_, .method (by rwa [has, hms]) (by rwa [hg]) hp, by simp [hgw, hpw]⟩
  · refine reads_ite (fun _ => ?_) fun _ => reads_fail _
    refine reads_bind (reads_fields start q) fun fs us => ?_
    refine reads_pure fun _ ⟨p, hp, hpw⟩ _ ⟨gp, hgp, hgw⟩ qs hq => ?_
    exact ⟨_, .fields hq hgp hp, by simp [hgw, hpw]⟩

end Levels

theorem reads_member (typeName : String) :
    Reads c (fun ms us _ => Spelled (MemberFrom c.limits.nesting ms) us) (member typeName) := by
  refine reads_still still_here fun start => reads_bind reads_allQualifiers fun q qs => ?_
  refine reads_rest fun ts => reads_ite (fun _ => reads_skipType _ (grows_pure _)) fun _ => ?_
  refine reads_ite (fun _ => reads_skipType _ (grows_pure _)) fun _ => reads_ite (fun _ => ?_) fun _ => ?_
  · refine reads_bind reads_body fun b us => ?_
    refine reads_still (still_spanFrom start) fun span => reads_pure fun _ ⟨p, hp, hpw⟩ _ hq => ?_
    exact ⟨_, .initializer hq hp, by simp [hpw]⟩
  · exact (reads_plainMember typeName).mono fun ms us _ h _ hq => h qs hq

theorem reads_members (typeName : String) (cap : Nat) :
    Reads c (fun ms us _ => Spelled (MembersFrom c.limits.nesting ms) us) (members typeName cap) := by
  induction cap with
  | zero =>
    refine reads_kind fun k => reads_ite (fun _ => reads_pure fun _ _ => ⟨_, .nil, rfl⟩) fun _ => ?_
    refine reads_read (reads_still still_here fun l => reads_report _ ?_)
    exact grows_bind (grows_skipBy _) fun _ => grows_pure _
  | succ cap ih =>
    refine reads_kind fun k => reads_ite (fun _ => reads_pure fun _ _ => ⟨_, .nil, rfl⟩) fun _ => ?_
    refine reads_accept (fixes_mark .semicolon) (fun us => ?_) ?_
    · refine ih.mono fun ms vs _ ⟨p, hp, hpw⟩ hus _ => ⟨_, .empty hp, ?_⟩
      simp [hpw, hus]
    · refine reads_still still_steps fun n => ?_
      refine reads_bind (reads_recover (reads_member typeName) ?_) fun found us => ?_
      · refine grows_bind still_steps.grows fun _ => grows_bind still_read.grows fun _ => ?_
        exact grows_bind (grows_skipBy _) fun _ => grows_pure _
      · refine reads_bind ih fun ms vs => reads_pure fun _ ⟨q, hq, hqw⟩ ⟨p, hp, hpw⟩ _ _ => ?_
        exact ⟨_, .cons hp hq, by simp [hpw, hqw]⟩

theorem reads_memberSection (typeName : String) :
    Reads c (fun ms us _ => ∃ vs ts, us = vs ++ ts ∧ Spelled (MembersFrom c.limits.nesting ms) vs ∧
      ts.map Token.written = [.mark .closeBrace]) (memberSection typeName) := by
  refine reads_read (reads_bind (reads_members typeName _) fun ms us => reads_close fun ts => ?_)
  exact reads_pure fun _ hts hms => ⟨us, ts, by simp, hms, hts⟩

/-! ### Types -/

section Types

variable {start : Location} {q : Qualifiers}

/-- A type that has been read behind its qualifiers. -/
def ReadsType (c : Settings) (q : Qualifiers) (t : TypeDeclaration) (us : List Token) : Prop :=
  t.annotations = q.annotations ∧ t.modifiers = q.modifiers ∧ IsIdentifier t.name ∧
    Spelled (HeaderFrom c.limits.nesting t.name t.members t.header) us

theorem reads_classRest :
    Reads c (fun t us after => kindOf (us ++ after) = .keyword .class_ → ReadsType c q t us)
      (classRest start q) := by
  refine reads_bind (reads_skip (fixes_keyword .class_)) fun _ us => ?_
  refine reads_bind reads_identifier fun x xs => reads_bind reads_typeParameters fun g gs => ?_
  simp only [← bind_assoc]
  refine reads_acceptJoin (fixes_keyword .extends_) (P := fun t ts _ =>
    Spelled (ClauseFrom .extends_ t.toList) ts) (fun ks => ?_)
    (reads_pure fun _ _ => ⟨_, .nil, rfl⟩) fun t ts => ?_
  · refine reads_bind reads_typeUse fun t ts => reads_pure fun _ ⟨p, hp, hpw⟩ hks => ?_
    exact ⟨_, .some (.one hp), by simp [hks, hpw]⟩
  · simp only [bind_assoc]
    refine reads_bind (reads_typesAfter _) fun is vs => ?_
    refine reads_bind (reads_require (fixes_mark _) _) fun _ os => ?_
    refine reads_bind (reads_memberSection x) fun ms bs => reads_spanned start ?_
    rintro span after ⟨ws, cs, rfl, ⟨mp, hm, hmw⟩, hcs⟩ hos ⟨ip, hi, hiw⟩ ⟨ep, he, hew⟩ ⟨gp, hg, hgw⟩ hx
      hus hk
    have hus := hus (by simpa using hk)
    refine ⟨rfl, rfl, hx.1, _, .class_ hg he hi hm, ?_⟩
    simp [hus, hx.2, hgw, hew, hiw, hos, hmw, hcs]

theorem reads_interfaceRest :
    Reads c (fun t us after => kindOf (us ++ after) = .keyword .interface_ → ReadsType c q t us)
      (interfaceRest start q) := by
  refine reads_bind (reads_skip (fixes_keyword .interface_)) fun _ us => ?_
  refine reads_bind reads_identifier fun x xs => reads_bind reads_typeParameters fun g gs => ?_
  refine reads_bind (reads_typesAfter _) fun is vs => ?_
  refine reads_bind (reads_require (fixes_mark _) _) fun _ os => ?_
  refine reads_bind (reads_memberSection x) fun ms bs => reads_spanned start ?_
  rintro span after ⟨ws, cs, rfl, ⟨mp, hm, hmw⟩, hcs⟩ hos ⟨ip, hi, hiw⟩ ⟨gp, hg, hgw⟩ hx hus hk
  have hus := hus (by simpa using hk)
  refine ⟨rfl, rfl, hx.1, _, .interface_ hg hi hm, ?_⟩
  simp [hus, hx.2, hgw, hiw, hos, hmw, hcs]

theorem reads_enumConstant :
    Reads c (fun e us _ => ConstantFrom e (us.map Token.written)) enumConstant := by
  refine reads_still still_here fun start => reads_still still_steps fun n => ?_
  refine reads_bind (reads_annotations n) fun as us => reads_bind reads_identifier fun x xs => ?_
  refine reads_bind (reads_optionalArguments _) fun args vs => ?_
  have hlast : Reads c (fun e ws _ => OptionWords ArgumentsFrom args (vs.map Token.written) →
      IsIdentifier x ∧ xs.map Token.written = [.name x] →
      EachWords AnnotationFrom as (us.map Token.written) →
      ConstantFrom e ((us ++ (xs ++ (vs ++ ws))).map Token.written))
      (do return ⟨as, x, args, ← spanFrom start⟩) := by
    refine reads_spanned start fun span after hargs hx has => ⟨_, _, has, hx.1, hargs, ?_⟩
    simp [hx.2]
  refine reads_checkIte ?_ (hlast.mono fun _ _ _ h _ => h)
  refine reads_still still_here fun l => reads_bind (reads_skipBy _) fun _ _ => ?_
  exact reads_report _ hlast.grows

theorem reads_enumConstants (n : Nat) :
    Reads c (fun es us _ => ConstantsFrom es (us.map Token.written)) (enumConstants n) := by
  induction n with
  | zero => exact reads_pure fun _ => .nil
  | succ n ih =>
    refine reads_kind fun k => reads_check fun _ => ?_
    refine reads_ite (fun _ => reads_pure fun _ _ _ => .nil) fun _ => reads_still still_steps fun m => ?_
    refine reads_bind (P := fun o us _ => ∃ e, o = some e ∧ ConstantFrom e (us.map Token.written))
      (reads_recover (reads_map reads_enumConstant fun e _ _ he => ⟨e, rfl, he⟩) ?_) fun found us => ?_
    · refine grows_bind still_steps.grows fun _ => ?_
      exact grows_bind (grows_skipBy _) fun _ => grows_pure _
    refine reads_accept (fixes_mark .comma) (fun ts => ?_) ?_
    · refine reads_bind ih fun es vs => reads_pure ?_
      rintro _ hes hts ⟨e, rfl, he⟩ _ _
      simpa [hts] using ConstantsFrom.cons he hes
    · refine reads_pure ?_
      rintro _ _ ⟨e, rfl, he⟩ _ _
      simpa using ConstantsFrom.last he

theorem reads_enumMembers (typeName : String) :
    Reads c (fun ms us _ => ∃ vs ts, us = vs ++ ts ∧ Spelled (EnumMembersFrom c.limits.nesting ms) vs ∧
      ts.map Token.written = [.mark .closeBrace]) (enumMembers typeName) := by
  refine reads_accept (fixes_mark .semicolon) (fun us => ?_) ?_
  · refine (reads_memberSection typeName).mono ?_
    rintro ms _ _ ⟨vs, ts, rfl, ⟨p, hp, hpw⟩, hts⟩ hus
    exact ⟨us ++ vs, ts, by simp, ⟨_, .some hp, by simp [hus, hpw]⟩, hts⟩
  · refine reads_accept (fixes_mark .closeBrace) (fun ts => ?_) ?_
    · exact reads_pure fun _ hts _ => ⟨[], ts, by simp, ⟨_, .none, rfl⟩, hts⟩
    · refine reads_still (still_unexpected _) fun d => reads_report d ?_
      refine grows_bind still_read.grows fun _ => grows_bind (grows_skipBy _) fun _ => ?_
      exact grows_bind (grows_accept _) fun _ => grows_pure _

theorem reads_enumRest :
    Reads c (fun t us after => kindOf (us ++ after) = .keyword .enum_ → ReadsType c q t us)
      (enumRest start q) := by
  refine reads_bind (reads_skip (fixes_keyword .enum_)) fun _ us => ?_
  refine reads_bind reads_identifier fun x xs => reads_bind (reads_typesAfter _) fun is vs => ?_
  refine reads_bind (reads_require (fixes_mark _) _) fun _ os => reads_still still_steps fun n => ?_
  refine reads_bind (reads_enumConstants n) fun es cs => ?_
  refine reads_bind (reads_enumMembers x) fun ms bs => reads_spanned start ?_
  rintro span after ⟨ws, ds, rfl, ⟨mp, hm, hmw⟩, hds⟩ hes hos ⟨ip, hi, hiw⟩ hx hus hk
  have hus := hus (by simpa using hk)
  refine ⟨rfl, rfl, hx.1, _, .enum_ hi hes hm, ?_⟩
  simp [hus, hx.2, hiw, hos, hmw, hds]

end Types

theorem reads_typeDeclaration :
    Reads c (fun o us _ => ∃ t, o = some t ∧ Spelled (DeclarationFrom c.limits.nesting t) us)
      typeDeclaration := by
  refine reads_still still_here fun start => reads_bind reads_allQualifiers fun q qs => ?_
  refine reads_kind fun k => reads_secondKind fun k' => ?_
  have hall {k : Kind} {p : Parser TypeDeclaration}
      (hp : Reads c (fun t us after => kindOf (us ++ after) = k → ReadsType c q t us) p) :
      Reads c (fun o us after => k' = kindOf ((us ++ after).drop 1) → k = kindOf (us ++ after) →
        QualifiersFrom ⟨[], []⟩ q (qs.map Token.written) →
        ∃ t, o = some t ∧ Spelled (DeclarationFrom c.limits.nesting t) (qs ++ us))
        (do return some (← p)) := by
    refine reads_bind hp fun t us => reads_pure fun after ht _ hk hq => ⟨t, rfl, ?_⟩
    obtain ⟨has, hms, hx, p, hp, hpw⟩ := ht (by simpa using hk.symm)
    exact ⟨_, ⟨_, p, by rwa [has, hms], hx, hp, rfl⟩, by simp [hpw]⟩
  split
  · exact hall reads_classRest
  · exact hall reads_interfaceRest
  · exact hall reads_enumRest
  · exact reads_skipType _ (grows_pure _)
  · exact reads_fail _

/-! ### Whole texts -/

theorem reads_packageClause :
    Reads c (fun p us after => kindOf (us ++ after) = .keyword .package_ →
      PackageWords p (us.map Token.written)) packageClause := by
  refine reads_still still_here fun start => ?_
  refine reads_bind (reads_skip (fixes_keyword .package_)) fun _ us => ?_
  refine reads_bind reads_qualifiedName fun x xs => ?_
  refine reads_bind (reads_require (fixes_mark _) _) fun _ ts => reads_spanned start ?_
  intro span after hts hx hus hk
  have hus := hus (by simpa using hk)
  exact ⟨_, hx, by simp [hus, hts]⟩

theorem reads_importClause :
    Reads c (fun i us after => kindOf (us ++ after) = .keyword .import_ →
      ImportWords i (us.map Token.written)) importClause := by
  refine reads_still still_here fun start => ?_
  refine reads_bind (reads_skip (fixes_keyword .import_)) fun _ us => ?_
  have hlast (isStatic isWildcard : Bool) (x : String) (vs : List Token) : Reads c (fun i ws _ =>
      vs.map Token.written = .keyword .import_ ::
        (if isStatic then [.keyword (.modifier .static_)] else []) →
      ∀ xs, QualifiedWords x (xs.map Token.written) →
      ∀ ds, ds.map Token.written = (if isWildcard then [.mark .dot, .mark .star] else []) →
      ImportWords i ((vs ++ (xs ++ (ds ++ ws))).map Token.written)) (do
        require Mark.semicolon "';' after import"
        return ⟨x, isStatic, isWildcard, ← spanFrom start⟩) := by
    refine reads_bind (reads_require (fixes_mark _) _) fun _ ts => reads_spanned start ?_
    intro span after hts hvs xs hx ds hds
    exact ⟨_, hx, by simp [hvs, hds, hts]⟩
  have hrest (isStatic : Bool) (vs : List Token) : Reads c (fun i ws _ =>
      vs.map Token.written = .keyword .import_ ::
        (if isStatic then [.keyword (.modifier .static_)] else []) →
      ImportWords i ((vs ++ ws).map Token.written)) (do
        let name ← qualifiedName
        let isWildcard ← accept Mark.dot
        if isWildcard then
          require Mark.star "'*' after '.' in import"
        require Mark.semicolon "';' after import"
        return ⟨name, isStatic, isWildcard, ← spanFrom start⟩) := by
    refine reads_bind reads_qualifiedName fun x xs => ?_
    refine reads_accept (fixes_mark .dot) (fun ds => ?_) ?_
    · refine reads_bind (reads_require (fixes_mark _) _) fun _ es => ?_
      refine (hlast isStatic true x vs).mono fun i ws _ h hes hds hx hvs => ?_
      simpa using h hvs xs hx (ds ++ es) (by simp [hds, hes])
    · refine (hlast isStatic false x vs).mono fun i ws _ h _ hx hvs => ?_
      simpa using h hvs xs hx [] rfl
  refine reads_accept (fixes_keyword _) (fun ss => ?_) ?_
  · refine (hrest true (us ++ ss)).mono fun i ws after h hss hus hk => ?_
    have hus := hus (by simpa using hk)
    simpa using h (by simp [hus, hss])
  · refine (hrest false us).mono fun i ws after h _ hus hk => ?_
    exact h (hus (by simpa using hk))

theorem grows_skipClause : Grows c (skipClause : Parser (Option α)) :=
  grows_bind (grows_skipBy _) fun _ => grows_pure _

theorem reads_optionalPackage :
    Reads c (fun o us _ => OptionWords PackageWords o (us.map Token.written)) optionalPackage := by
  refine reads_checkIte ?_ (reads_pure fun _ _ => .none)
  refine reads_recover (reads_map reads_packageClause fun p us _ hp hk => ?_) grows_skipClause
  exact .some (hp hk)

theorem reads_imports (n : Nat) :
    Reads c (fun o us _ => o.stopped = none → EachWords ImportWords o.found (us.map Token.written))
      (imports n) := by
  induction n with
  | zero => exact reads_pure fun _ _ => .nil
  | succ n ih =>
    refine reads_checkIte ?_ (reads_pure fun _ _ _ => .nil)
    refine reads_bind (P := fun r us after => ∀ o, r = .ok o → kindOf (us ++ after) = .keyword .import_ →
      ∃ i, o = some i ∧ ImportWords i (us.map Token.written)) (reads_attempt (reads_recover
        (reads_map reads_importClause fun i us _ hi hk => ⟨i, rfl, hi hk⟩) grows_skipClause) ?_)
      fun r us => ?_
    · intro s
      exact (keeps_recover (keeps_map keeps_importClause fun _ _ => trivial) keeps_skipClause s
        (List.suffix_refl _)).1
    rcases r with d | found
    · exact reads_pure fun _ _ _ => nofun
    · refine reads_bind ih fun o vs => reads_pure fun after ho hfound hk hstopped => ?_
      obtain ⟨i, rfl, hi⟩ := hfound found rfl (by simpa using hk)
      simpa using EachWords.cons hi (ho hstopped)

theorem declarationFrom_ne_nil {n : Nat} {t : TypeDeclaration} {p : Passage}
    (h : DeclarationFrom n t p) : p.words ≠ [] := by
  obtain ⟨qw, hp, -, -, hheader, rfl⟩ := h
  generalize t.header = header at hheader
  cases hheader <;> simp

theorem reads_topLevelType :
    Reads c (fun o us _ => ∃ t, o = some t ∧ Spelled (DeclarationFrom c.limits.nesting t) us)
      topLevelType := by
  refine reads_still still_steps fun n => reads_recover reads_typeDeclaration ?_
  refine grows_bind still_steps.grows fun _ => ?_
  exact grows_bind (grows_skipBy _) fun _ => grows_pure _

theorem reads_types (start : Location) (span : Span) (n : Nat) :
    Reads c (fun o us after => o.stopped = none → (us ++ after).length < n →
      Spelled (TypesFrom c.limits.nesting o.found.1) us ∧ after = []) (types start span n) := by
  induction n generalizing span with
  | zero => exact reads_pure fun _ _ => nofun
  | succ n ih =>
    refine .ofSound (reads_checkIte (reads_pure fun after hend hsound _ _ => ⟨⟨_, .nil, rfl⟩, ?_⟩) ?_)
    · rcases after with _ | ⟨t, ts⟩
      · rfl
      · rcases hsound t (by simp) with hinvalid | hreadable
        · exact absurd (hinvalid.symm.trans hend) nofun
        · exact absurd hend hreadable.kind_ne.1
    refine reads_accept (fixes_mark .semicolon) (fun us => ?_) ?_
    · refine (ih span).mono fun o vs after ho hus _ _ hstopped hlen => ?_
      have hone := congrArg List.length hus
      obtain ⟨⟨p, hp, hpw⟩, hafter⟩ := ho hstopped (by simp_all; omega)
      exact ⟨⟨_, .empty hp, by simp [hus, hpw]⟩, hafter⟩
    refine reads_bind (reads_attempt reads_topLevelType fun s =>
      (keeps_topLevelType s (List.suffix_refl _)).1) fun r us => ?_
    rcases r with d | found
    · exact reads_pure fun _ _ _ _ _ => nofun
    · refine reads_still (still_spanFrom _) fun span' => reads_bind (ih span') fun o vs => ?_
      refine reads_pure fun after ho hfound _ _ _ hstopped hlen => ?_
      obtain ⟨t, rfl, p, hp, hpw⟩ := hfound found rfl
      -- a type has at least one token, so the count does not run out
      have hpos : 0 < us.length := by
        have hne := declarationFrom_ne_nil hp
        rw [hpw] at hne
        exact List.length_pos_iff.mpr fun hnil => hne (by rw [hnil]; rfl)
      obtain ⟨⟨q, hq, hqw⟩, hafter⟩ := ho hstopped (by simp_all; omega)
      exact ⟨⟨_, .cons hp hq, by simp [hpw, hqw]⟩, hafter⟩

theorem reads_unit :
    Reads c (fun o us after => o.stopped = none →
      Spelled (UnitFrom c.limits.nesting o.found) us ∧ after = []) unit := by
  refine reads_still still_here fun start => ?_
  refine reads_bind (reads_attempt reads_optionalPackage fun s =>
    (keeps_optionalPackage s (List.suffix_refl _)).1) fun r us => ?_
  rcases r with d | package
  · exact reads_pure fun _ _ => nofun
  refine reads_still still_steps fun n => reads_bind (reads_imports n) fun is vs => ?_
  split
  · exact reads_pure fun _ _ _ hnone => by cases hnone
  · next hstopped =>
    refine reads_steps fun m => reads_bind (reads_types start _ m) fun ts ws => ?_
    refine reads_pure fun after hts hm his hpackage hstop => ?_
    obtain ⟨⟨p, hp, hpw⟩, hafter⟩ := hts hstop (by simp_all)
    refine ⟨⟨_, ⟨_, _, p, hpackage package rfl, his hstopped, hp, rfl⟩, by simp [hpw]⟩, ?_⟩
    simpa using hafter

end JavaTree.Parser
