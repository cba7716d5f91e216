import JavaTree.Parser.Unit
import JavaTree.Proofs.Reread.Members

/-!
Types and whole source texts are read back from their words.

A source text whose words are those of a unit is read without a finding, as a unit that is written
and summarized alike.
-/

namespace JavaTree.Parser

variable {α β : Type} {c : Settings} {s : State} {ts rest mid : List Token} {w : Word}
  {ws vs : List Word} {R : α → Prop} {n : Nat}

/-! ### Members of a type -/

/-- Members that are written and summarized alike. -/
def AlikeMembers (ms ks : List Member) : Prop := ms.map memberFace = ks.map memberFace

theorem AlikeMembers.lines {ms ks : List Member} (h : AlikeMembers ms ks) (style : BraceStyle) :
    Member.allLines style ms = Member.allLines style ks := by
  rw [Member.allLines, Member.allLines]
  induction ms generalizing ks with
  | nil => rw [List.map_eq_nil_iff.mp h.symm]
  | cons m ms ih =>
    obtain ⟨k, ks, rfl, hk, hks⟩ := List.map_eq_cons_iff.mp h.symm
    simp only [memberFace, Prod.mk.injEq] at hk
    have hlines : k.lines style = m.lines style := congrFun hk.1 style
    have hrest := ih hks.symm
    rcases ms with _ | ⟨m', ms⟩
    · rw [List.map_eq_nil_iff.mp hks]
      simp only [spacedLines, hlines]
    · obtain ⟨k', ks, rfl, hk', -⟩ := List.map_eq_cons_iff.mp hks
      simp only [memberFace, Prod.mk.injEq] at hk'
      simp only [spacedLines, hlines, hk.2.2, hk'.2.2, hrest]

theorem AlikeMembers.summary {ms ks : List Member} (h : AlikeMembers ms ks) :
    ms.filterMap Member.summary? = ks.filterMap Member.summary? := by
  induction ms generalizing ks with
  | nil => rw [List.map_eq_nil_iff.mp h.symm]
  | cons m ms ih =>
    obtain ⟨k, ks, rfl, hk, hks⟩ := List.map_eq_cons_iff.mp h.symm
    simp only [memberFace, Prod.mk.injEq] at hk
    rw [List.filterMap_cons, List.filterMap_cons, hk.2.1, ih hks.symm]

theorem AlikeMembers.isEmpty {ms ks : List Member} (h : AlikeMembers ms ks) :
    ms.isEmpty = ks.isEmpty := by
  have hlen := congrArg List.length h
  rw [List.length_map, List.length_map] at hlen
  cases ms <;> cases ks <;> first | rfl | cases hlen

/-- The words start with one at which a member can start. -/
def StartsMember (ws : List Word) : Prop :=
  ∃ w vs, ws = w :: vs ∧ endsStatements false w.kind = false ∧ w.kind ≠ .mark .semicolon

theorem StartsMember.behind_qualifiers {as : List AnnotationUse} {ms : List Modifier}
    (hvs : StartsMember vs) (h : QualifierWords as ms ws) : StartsMember (ws ++ vs) := by
  obtain ⟨has, -⟩ := h
  cases has with
  | cons ha _ =>
    obtain ⟨nw, aw, -, -, rfl⟩ := ha
    exact ⟨_, _, rfl, rfl, nofun⟩
  | nil =>
    cases ms with
    | nil => exact hvs
    | cons m ms => exact ⟨.keyword (.modifier m), _, rfl, by cases m <;> rfl, nofun⟩

theorem StartsMember.behind_parameters {g : Option String} (hvs : StartsMember vs)
    (h : OptionWords (ParametersWords True) g ws) : StartsMember (ws ++ vs) := by
  cases h with
  | none => exact hvs
  | some h =>
    obtain ⟨h, -⟩ := h
    obtain ⟨us, rfl⟩ := List.head?_eq_some_iff.mp h.written.opens
    exact ⟨_, _, rfl, rfl, nofun⟩

theorem startsMember_type {t : TypeUse} (h : TypeWords (Angle.MayStand True) t ws) (vs : List Word) :
    StartsMember (ws ++ vs) := by
  obtain ⟨w, us, rfl, hw⟩ := typeWords_head h
  refine ⟨w, us ++ vs, rfl, ?_⟩
  rcases isTypeStart_cases hw with hk | ⟨p, hk⟩ <;> rw [hk] <;> exact ⟨rfl, nofun⟩

theorem startsMember {m : Member} (h : MemberWords True n m ws) : StartsMember ws := by
  cases h with
  | field h =>
    obtain ⟨qw, tw, iw, hq, ht, -, -, rfl⟩ := h
    simp only [List.append_assoc]
    exact (startsMember_type ht _).behind_qualifiers hq
  | method h =>
    obtain ⟨qw, gw, tyw, pw, tw, bw, hq, hg, hr, -, -, -, -, rfl⟩ := h
    simp only [List.append_assoc]
    refine .behind_qualifiers (.behind_parameters ?_ hg) hq
    generalize Method.returnType _ = t at hr
    cases hr with
    | void hname hdim => exact ⟨_, _, rfl, rfl, nofun⟩
    | type ht => exact startsMember_type ht _
  | constructor h =>
    obtain ⟨qw, gw, pw, tw, bw, hq, hg, -, -, -, -, rfl⟩ := h
    simp only [List.append_assoc]
    exact .behind_qualifiers (.behind_parameters ⟨_, _, rfl, rfl, nofun⟩ hg) hq
  | @initializer i _ h =>
    obtain ⟨bw, hb, rfl⟩ := h
    obtain ⟨us, rfl⟩ := bodyWords_head hb
    cases i.isStatic <;> exact ⟨_, _, rfl, rfl, nofun⟩

theorem yields_members {ms : List Member} (h : EachWords (MemberWords True n) ms ws)
    (hs : Begins s.rest ws rest) (hrest : kindOf rest = .mark .closeBrace) (typeName : String)
    (hn : n ≤ c.limits.nesting) {cap : Nat} (hcap : ms.length ≤ cap) :
    Yields c s (members typeName cap) rest (AlikeMembers · ms) := by
  induction h generalizing s cap with
  | nil =>
    have hs : s.rest = rest := begins_nil.mp hs
    have hends : endsStatements false (kindOf s.rest) = true := by
      rw [hs, hrest]
      rfl
    cases cap with
    | zero =>
      rw [members, yields_kind, if_pos hends]
      exact yields_pure hs rfl
    | succ cap =>
      rw [members, yields_kind, if_pos hends]
      exact yields_pure hs rfl
  | @cons m ms mw vs hm hms ih =>
    obtain ⟨cap, rfl⟩ : ∃ k, cap = k + 1 := ⟨cap - 1, by simp only [List.length_cons] at hcap; omega⟩
    have hstart : endsStatements false (kindOf s.rest) = false ∧ kindOf s.rest ≠ .mark .semicolon := by
      obtain ⟨w, us, rfl, hw⟩ := startsMember hm
      rw [Begins.kindOf hs]
      exact hw
    rw [members, yields_kind, if_neg (by rw [hstart.1]; exact nofun), yields_accept_none hstart.2,
      if_neg nofun, yields_steps]
    refine Yields.then hs (fun mid hmid _ => (yields_member hm hmid typeName hn).recover _)
      fun ks s₁ hs₁ hks => ?_
    obtain ⟨k, rfl, hk⟩ := hks
    refine (ih hs₁ ?_).bind fun ks s₂ hs₂ hks => yields_pure hs₂ ?_
    · simp only [List.length_cons] at hcap
      omega
    · rw [AlikeMembers, List.singleton_append, List.map_cons, List.map_cons, hk, hks]

theorem yields_memberSection {ms : List Member} (h : EachWords (MemberWords True n) ms ws)
    (hs : Begins s.rest (ws ++ [.mark .closeBrace]) rest) (typeName : String)
    (hn : n ≤ c.limits.nesting) : Yields c s (memberSection typeName) rest (AlikeMembers · ms) := by
  refine yields_of_roomy fun hroom => ?_
  rw [memberSection, yields_read]
  refine Yields.then hs (fun mid hmid hbehind => yields_members h hmid hbehind.kindOf typeName hn ?_)
    fun ks s₁ hs₁ hks => ?_
  · have hle := length_le_of_eachWords h fun m ws hm => by
      obtain ⟨w, vs, rfl, -⟩ := startsMember hm
      exact nofun
    have hlen := hs.length_eq
    have hroom := hroom.members
    rw [List.length_append] at hlen
    omega
  · refine yields_accept hs₁ rfl fun s₂ hs₂ => ?_
    rw [if_neg nofun]
    exact yields_pure (begins_nil.mp hs₂) hks

/-! ### Types -/

/-- How a type is written, and its summary. -/
def typeFace (t : TypeDeclaration) : (BraceStyle → List Line) × TypeSummary :=
  (fun style => t.lines style, t.summary)

/-- A clause behind a keyword starts with it, and is missing otherwise. -/
theorem kindOf_clause {k : Keyword} {us : List TypeUse} (h : ClauseWords True k us ws)
    (hs : Begins ts (ws ++ vs) rest) : kindOf ts = .keyword k ∨ Begins ts vs rest := by
  cases h with
  | nil => exact .inr hs
  | some _ => exact .inl (Begins.kindOf hs)

/-- What may follow a type in the header of a type. -/
def inHeader (k : Kind) : Bool :=
  k = .keyword .extends_ || k = .keyword .implements_ || k = .mark .openBrace

theorem endsType_inHeader {k : Kind} (h : inHeader k = true) :
    EndsType k ∧ k ≠ .mark .comma ∧ k ≠ .mark .less := by
  simp only [inHeader, Bool.or_eq_true, decide_eq_true_eq] at h
  rcases h with (h | h) | h <;> rw [h] <;> exact ⟨⟨⟨nofun, nofun⟩, nofun⟩, nofun, nofun⟩

/-- The one type that a class extends. -/
theorem yields_superclass {t : Option TypeUse} (h : ClauseWords True .extends_ t.toList ws)
    (hs : Begins s.rest (ws ++ vs) rest)
    (hmid : ∀ ts, Begins ts vs rest → inHeader (kindOf ts) = true ∧ kindOf ts ≠ .keyword .extends_)
    {f : Option TypeUse → Parser α} (hf : ∀ u s', Begins s'.rest vs rest →
      AlikeTypes u.toList t.toList → Yields c s' (f u) rest R) :
    Yields c s (do
      if ← accept Keyword.extends_ then f (← pure (some (← typeUse)))
      else f (← pure none)) rest R := by
  rcases t with _ | t
  · cases h with
    | some h => cases h
    | nil =>
      rw [yields_accept_none (hmid _ hs).2, if_neg nofun, pure_bind]
      exact hf none s hs rfl
  · cases h with
    | some h =>
      cases h with
      | cons _ h => cases h
      | one ht =>
        refine yields_accept hs rfl fun s₁ hs₁ => ?_
        rw [if_pos rfl]
        refine Yields.then hs₁ (fun mid hws hvs =>
          yields_typeUse (ht.lists trivial) hws (endsType_inHeader (hmid mid hvs).1).1) fun u s₂ hs₂ hu => ?_
        rw [pure_bind]
        refine hf (some u) s₂ hs₂ ?_
        rw [AlikeTypes, Option.toList_some, Option.toList_some, List.map_singleton,
          List.map_singleton, render_eq hu]

/-- Where a clause is behind a header, or the brace that ends it. -/
theorem inHeader_of_clause {k : Keyword} {us : List TypeUse} (h : ClauseWords True k us ws)
    (hk : inHeader (.keyword k) = true)
    (hvs : ∀ ts, Begins ts vs rest → inHeader (kindOf ts) = true) (ts : List Token)
    (hs : Begins ts (ws ++ vs) rest) : inHeader (kindOf ts) = true := by
  rcases kindOf_clause h hs with hkind | hs
  · rwa [hkind]
  · exact hvs ts hs

theorem yields_classRest {x : String} {ms : List Member} {g : Option String} {t : Option TypeUse}
    {is : List TypeUse} {gw ew iw mw : List Word} (hg : OptionWords (ParametersWords True) g gw)
    (ht : ClauseWords True .extends_ t.toList ew) (his : ClauseWords True .implements_ is iw)
    (hms : EachWords (MemberWords True n) ms mw)
    (hs : Begins s.rest (.keyword .class_ :: .name x :: gw ++ ew ++ iw ++ .mark .openBrace :: mw ++
      [.mark .closeBrace]) rest) (l : Location) {q : Qualifiers} {as : List AnnotationUse}
    {mods : List Modifier} (hq : AlikeQualifiers q as mods) (hn : n ≤ c.limits.nesting) (sp : Span) :
    Yields c s (classRest l q) rest
      fun d => typeFace d = typeFace ⟨mods, as, x, .class_ g t is, ms, sp⟩ := by
  simp only [List.append_assoc, List.cons_append] at hs
  refine yields_skip_one hs fun s₁ hs₁ => yields_identifier hs₁ fun s₂ hs₂ => ?_
  have hbrace (ts : List Token) (hts : Begins ts (.mark .openBrace :: (mw ++ [.mark .closeBrace])) rest) :
      inHeader (kindOf ts) = true := by
    rw [hts.kindOf]
    rfl
  have hclause := inHeader_of_clause his rfl hbrace
  refine Yields.then hs₂ (fun mid hmid hb => yields_typeParameters hg hmid
    (endsType_inHeader (inHeader_of_clause ht rfl hclause mid hb)).2.2) fun g' s₃ hs₃ hg' => ?_
  subst hg'
  refine yields_superclass ht hs₃ (fun ts hts => ⟨hclause ts hts, ?_⟩) fun t' s₄ hs₄ ht' => ?_
  · rcases kindOf_clause his hts with hk | hts
    · rw [hk]
      exact nofun
    · rw [hts.kindOf]
      exact nofun
  refine Yields.then (P := (AlikeTypes · is)) hs₄ (fun mid hmid hb => ?_) fun is' s₅ hs₅ his' => ?_
  · obtain ⟨hends, hcomma, -⟩ := endsType_inHeader (hbrace mid hb)
    exact yields_typesAfter his hmid hends hcomma (by rw [hb.kindOf]; exact nofun)
  refine yields_require hs₅ rfl _ fun s₆ hs₆ => ?_
  refine (yields_memberSection hms hs₆ x hn).bind fun ms' s₇ hs₇ hms' => ?_
  rw [yields_spanFrom]
  refine yields_pure hs₇ ?_
  rw [AlikeTypes] at ht' his'
  simp only [typeFace, TypeDeclaration.lines, TypeDeclaration.summary, hq.modifiers,
    annotationLines_congr hq.annotations, hms'.lines, hms'.summary, ht', his']

theorem yields_interfaceRest {x : String} {ms : List Member} {g : Option String}
    {ps : List TypeUse} {gw ew mw : List Word} (hg : OptionWords (ParametersWords True) g gw)
    (hps : ClauseWords True .extends_ ps ew) (hms : EachWords (MemberWords True n) ms mw)
    (hs : Begins s.rest (.keyword .interface_ :: .name x :: gw ++ ew ++ .mark .openBrace :: mw ++
      [.mark .closeBrace]) rest) (l : Location) {q : Qualifiers} {as : List AnnotationUse}
    {mods : List Modifier} (hq : AlikeQualifiers q as mods) (hn : n ≤ c.limits.nesting) (sp : Span) :
    Yields c s (interfaceRest l q) rest
      fun d => typeFace d = typeFace ⟨mods, as, x, .interface_ g ps, ms, sp⟩ := by
  simp only [List.append_assoc, List.cons_append] at hs
  refine yields_skip_one hs fun s₁ hs₁ => yields_identifier hs₁ fun s₂ hs₂ => ?_
  have hbrace (ts : List Token) (hts : Begins ts (.mark .openBrace :: (mw ++ [.mark .closeBrace])) rest) :
      inHeader (kindOf ts) = true := by
    rw [hts.kindOf]
    rfl
  refine Yields.then hs₂ (fun mid hmid hb => yields_typeParameters hg hmid
    (endsType_inHeader (inHeader_of_clause hps rfl hbrace mid hb)).2.2) fun g' s₃ hs₃ hg' => ?_
  subst hg'
  refine Yields.then (P := (AlikeTypes · ps)) hs₃ (fun mid hmid hb => ?_) fun ps' s₄ hs₄ hps' => ?_
  · obtain ⟨hends, hcomma, -⟩ := endsType_inHeader (hbrace mid hb)
    exact yields_typesAfter hps hmid hends hcomma (by rw [hb.kindOf]; exact nofun)
  refine yields_require hs₄ rfl _ fun s₅ hs₅ => ?_
  refine (yields_memberSection hms hs₅ x hn).bind fun ms' s₆ hs₆ hms' => ?_
  rw [yields_spanFrom]
  refine yields_pure hs₆ ?_
  rw [AlikeTypes] at hps'
  simp only [typeFace, TypeDeclaration.lines, TypeDeclaration.summary, hq.modifiers,
    annotationLines_congr hq.annotations, hms'.lines, hms'.summary, hps']

/-! ### Enums -/

/-- What is written of a constant, and its name. -/
def constantFace (k : EnumConstant) : String × String := (k.render, k.name)

/-- Constants that are written alike. -/
def AlikeConstants (ks js : List EnumConstant) : Prop := ks.map constantFace = js.map constantFace

theorem AlikeConstants.render {ks js : List EnumConstant} (h : AlikeConstants ks js) :
    ks.map EnumConstant.render = js.map EnumConstant.render := by
  have hmap := congrArg (List.map Prod.fst) h
  rwa [List.map_map, List.map_map] at hmap

theorem AlikeConstants.name {ks js : List EnumConstant} (h : AlikeConstants ks js) :
    ks.map EnumConstant.name = js.map EnumConstant.name := by
  have hmap := congrArg (List.map Prod.snd) h
  rwa [List.map_map, List.map_map] at hmap

/-- What may follow a constant of an enum. -/
def EndsConstant (k : Kind) : Prop := k = .mark .comma ∨ k = .mark .semicolon ∨ k = .mark .closeBrace

theorem constantFace_congr {k : EnumConstant} {as : List AnnotationUse} {args : Option Excerpt}
    {sp : Span} (has : AlikeAnnotations as k.annotations) (hargs : AlikeArguments args k.arguments) :
    constantFace ⟨as, k.name, args, sp⟩ = constantFace k := by
  obtain ⟨as', x, args', sp'⟩ := k
  rw [AlikeArguments] at hargs
  simp only [constantFace, EnumConstant.render, annotationLead_congr has]
  rcases args with _ | e <;> rcases args' with _ | e'
  · rfl
  · cases hargs
  · cases hargs
  · simp only [Option.map_some, Option.some.injEq] at hargs
    simp only [hargs]

theorem yields_enumConstant {k : EnumConstant} (h : ConstantWords k ws) (hs : Begins s.rest ws rest)
    (hrest : EndsConstant (kindOf rest)) :
    Yields c s enumConstant rest fun k' => constantFace k' = constantFace k := by
  obtain ⟨nw, aw, has, hname, hargs, rfl⟩ := h
  have hparen : kindOf rest ≠ .mark .openParen ∧ kindOf rest ≠ .mark .openBrace := by
    rcases hrest with h | h | h <;> rw [h] <;> exact ⟨nofun, nofun⟩
  rw [enumConstant, yields_here, yields_steps]
  refine Yields.then hs (fun mid hmid hb => yields_annotations has hmid ?_ ?_ ?_)
    fun as s₁ hs₁ has' => ?_
  · rw [hb.kindOf]
    exact ⟨nofun, nofun⟩
  · rw [looksAnnotated, hb.kindOf]
    rfl
  · have hle := length_le_of_eachWords has fun _ _ => annotationWords_ne_nil
    have hlen := hmid.length_eq
    omega
  refine yields_identifier hs₁ fun s₂ hs₂ => ?_
  refine (yields_optionalArguments hargs hs₂ hparen.1 _).bind fun args s₃ hs₃ hargs' => ?_
  rw [yields_check, if_neg (by simpa [hs₃] using hparen.2), yields_spanFrom]
  exact yields_pure hs₃ (constantFace_congr has' hargs')

theorem constantWords_head {k : EnumConstant} (h : ConstantWords k ws) :
    ∃ w vs, ws = w :: vs ∧ endsStatements false w.kind = false ∧ w.kind ≠ .mark .semicolon := by
  obtain ⟨nw, aw, has, -, -, rfl⟩ := h
  generalize k.annotations = as at has
  cases has with
  | nil => exact ⟨_, _, rfl, rfl, nofun⟩
  | cons ha _ =>
    obtain ⟨nw, aw, -, -, rfl⟩ := ha
    exact ⟨_, _, rfl, rfl, nofun⟩

/-- One constant, read where more may be behind it. -/
theorem yields_enumConstants_step {k : EnumConstant} (h : ConstantWords k ws)
    (hs : Begins s.rest (ws ++ vs) rest)
    (hvs : ∀ ts, Begins ts vs rest → EndsConstant (kindOf ts)) {R : List EnumConstant → Prop}
    (hf : ∀ k' s', Begins s'.rest vs rest → constantFace k' = constantFace k →
      Yields c s' (do
        if ← accept Mark.comma then return (some k').toList ++ (← enumConstants n)
        else return (some k').toList) rest R) :
    Yields c s (enumConstants (n + 1)) rest R := by
  have hstart : ¬ (endsStatements false (kindOf s.rest) ||
      decide (kindOf s.rest = .mark .semicolon)) = true := by
    obtain ⟨w, us, rfl, hends, hsemi⟩ := constantWords_head h
    rw [Begins.kindOf hs, hends]
    simpa using hsemi
  rw [enumConstants, yields_kind, yields_check, if_neg hstart, yields_steps]
  refine Yields.then hs (fun mid hmid hb =>
    ((yields_enumConstant h hmid (hvs mid hb)).map (R := fun o => ∃ k', o = some k' ∧
      constantFace k' = constantFace k) fun k' hk' => ⟨k', rfl, hk'⟩).recover _)
    fun o s₁ hs₁ ho => ?_
  obtain ⟨k', rfl, hk'⟩ := ho
  exact hf k' s₁ hs₁ hk'

theorem yields_enumConstants {ks : List EnumConstant} (h : CommaWords ConstantWords ks ws)
    (hs : Begins s.rest ws rest)
    (hrest : kindOf rest = .mark .semicolon ∨ kindOf rest = .mark .closeBrace)
    (hn : ks.length ≤ n) : Yields c s (enumConstants n) rest (AlikeConstants · ks) := by
  induction h generalizing s n with
  | @one k ws hk =>
    obtain ⟨n, rfl⟩ : ∃ m, n = m + 1 := ⟨n - 1, by simp only [List.length_cons] at hn; omega⟩
    rw [← List.append_nil ws] at hs
    refine yields_enumConstants_step hk hs (fun ts hts => ?_) fun k' s₁ hs₁ hk' => ?_
    · rw [begins_nil.mp hts]
      exact .inr hrest
    have hs₁ := begins_nil.mp hs₁
    rw [yields_accept_none, if_neg nofun]
    · exact yields_pure hs₁ (by rw [AlikeConstants, Option.toList_some, List.map_singleton,
        List.map_singleton, hk'])
    · rw [hs₁]
      rcases hrest with h | h <;> rw [h] <;> exact nofun
  | @cons k ks kw vs hk hks ih =>
    obtain ⟨n, rfl⟩ : ∃ m, n = m + 1 := ⟨n - 1, by simp only [List.length_cons] at hn; omega⟩
    refine yields_enumConstants_step hk hs (fun ts hts => .inl hts.kindOf) fun k' s₁ hs₁ hk' => ?_
    refine yields_accept hs₁ rfl fun s₂ hs₂ => ?_
    rw [if_pos rfl]
    refine (ih hs₂ ?_).bind fun ks' s₃ hs₃ hks' => yields_pure hs₃ ?_
    · simp only [List.length_cons] at hn
      omega
    · rw [AlikeConstants, Option.toList_some, List.singleton_append, List.map_cons, List.map_cons,
        hk', hks']

/-- Constants, none of them included. -/
theorem yields_constants {ks : List EnumConstant} (h : ConstantsWords ks ws)
    (hs : Begins s.rest ws rest)
    (hrest : kindOf rest = .mark .semicolon ∨ kindOf rest = .mark .closeBrace)
    (hn : ws.length + 1 ≤ n) : Yields c s (enumConstants n) rest (AlikeConstants · ks) := by
  cases h with
  | nil =>
    have hs : s.rest = rest := begins_nil.mp hs
    obtain ⟨n, rfl⟩ : ∃ m, n = m + 1 := ⟨n - 1, by simp only [List.length_nil] at hn; omega⟩
    rw [enumConstants, yields_kind, yields_check, if_pos]
    · exact yields_pure hs rfl
    · rw [hs]
      rcases hrest with h | h <;> rw [h] <;> rfl
  | some h => exact yields_enumConstants h hs hrest (Nat.le_trans (length_le_of_commaWords h) hn)

/-- The members of an enum stand behind a semicolon, which is missing if there are none. -/
theorem yields_enumMembers {ms : List Member} {mw : List Word} (h : EachWords (MemberWords True n) ms mw)
    (hs : Begins s.rest ((if ms.isEmpty then [] else .mark .semicolon :: mw) ++
      [.mark .closeBrace]) rest) (typeName : String) (hn : n ≤ c.limits.nesting) :
    Yields c s (enumMembers typeName) rest (AlikeMembers · ms) := by
  rw [enumMembers]
  cases ms with
  | nil =>
    rw [yields_accept_none (by rw [Begins.kindOf hs]; exact nofun), if_neg nofun]
    refine yields_accept hs rfl fun s₁ hs₁ => ?_
    rw [if_neg nofun]
    exact yields_pure (begins_nil.mp hs₁) rfl
  | cons m ms =>
    refine yields_accept hs rfl fun s₁ hs₁ => ?_
    rw [if_pos rfl]
    exact yields_memberSection h hs₁ typeName hn

theorem yields_enumRest {x : String} {ms : List Member} {is : List TypeUse} {ks : List EnumConstant}
    {iw kw mw : List Word} (his : ClauseWords True .implements_ is iw) (hks : ConstantsWords ks kw)
    (hms : EachWords (MemberWords True n) ms mw)
    (hs : Begins s.rest (.keyword .enum_ :: .name x :: iw ++ .mark .openBrace :: kw ++
      (if ms.isEmpty then [] else .mark .semicolon :: mw) ++ [.mark .closeBrace]) rest)
    (l : Location) {q : Qualifiers} {as : List AnnotationUse} {mods : List Modifier}
    (hq : AlikeQualifiers q as mods) (hn : n ≤ c.limits.nesting) (sp : Span) :
    Yields c s (enumRest l q) rest
      fun d => typeFace d = typeFace ⟨mods, as, x, .enum_ is ks, ms, sp⟩ := by
  simp only [List.append_assoc, List.cons_append] at hs
  refine yields_skip_one hs fun s₁ hs₁ => yields_identifier hs₁ fun s₂ hs₂ => ?_
  refine Yields.then (P := (AlikeTypes · is)) hs₂ (fun mid hmid hb => ?_) fun is' s₃ hs₃ his' => ?_
  · have hkind : kindOf mid = .mark .openBrace := hb.kindOf
    obtain ⟨hends, hcomma, -⟩ := endsType_inHeader (k := kindOf mid) (by rw [hkind]; rfl)
    exact yields_typesAfter his hmid hends hcomma (by rw [hkind]; exact nofun)
  refine yields_require hs₃ rfl _ fun s₄ hs₄ => ?_
  rw [yields_steps]
  refine Yields.then hs₄ (fun mid hmid hb => yields_constants hks hmid ?_ ?_) fun ks' s₅ hs₅ hks' => ?_
  · cases ms with
    | nil => exact .inr (Begins.kindOf hb)
    | cons m ms => exact .inl (Begins.kindOf hb)
  · have hlen := hmid.length_eq
    omega
  refine (yields_enumMembers hms hs₅ x hn).bind fun ms' s₆ hs₆ hms' => ?_
  rw [yields_spanFrom]
  refine yields_pure hs₆ ?_
  rw [AlikeTypes] at his'
  simp only [typeFace, TypeDeclaration.lines, TypeDeclaration.summary, hq.modifiers,
    annotationLines_congr hq.annotations, hms'.lines, hms'.summary, hms'.isEmpty, his',
    hks'.render, hks'.name]

/-! ### Any type -/

/-- The first word of a type behind its qualifiers. -/
theorem headerWords_head {x : String} {ms : List Member} {h : TypeHeader} (hh : HeaderWords True n x ms h ws) :
    ∃ w vs, ws = w :: vs ∧ isTypeWord w.kind = true := by
  cases hh <;> exact ⟨_, _, rfl, rfl⟩

theorem endsQualifiers_of_isTypeWord (h : isTypeWord (kindOf ts) = true) : EndsQualifiers ts := by
  rcases isTypeWord_cases h with h | h | h <;>
    exact ⟨by simp [h, EndsAnnotated], by rw [looksAnnotated, h]; rfl, by rw [h]; rfl⟩

theorem yields_typeDeclaration {t : TypeDeclaration} (h : DeclarationWords True n t ws)
    (hs : Begins s.rest ws rest) (hn : n ≤ c.limits.nesting) :
    Yields c s typeDeclaration rest fun o => ∃ t', o = some t' ∧ typeFace t' = typeFace t := by
  obtain ⟨qw, hw, hq, hname, hh, rfl⟩ := h
  obtain ⟨mods, as, x, header, ms, sp⟩ := t
  rw [typeDeclaration, yields_here]
  refine Yields.then hs (fun mid hmid hb => yields_allQualifiers hq hmid ?_) fun q s₁ hs₁ hq => ?_
  · obtain ⟨w, vs, rfl, hw⟩ := headerWords_head hh
    refine endsQualifiers_of_isTypeWord ?_
    rwa [hb.kindOf]
  rw [yields_kind, yields_secondKind]
  cases hh with
  | class_ hg ht his hms =>
    have hkind : kindOf s₁.rest = .keyword .class_ := Begins.kindOf hs₁
    simp only [hkind]
    exact (yields_classRest hg ht his hms hs₁ _ hq hn sp).bind fun t' s₂ hs₂ ht' =>
      yields_pure hs₂ ⟨t', rfl, ht'⟩
  | interface_ hg hts hms =>
    have hkind : kindOf s₁.rest = .keyword .interface_ := Begins.kindOf hs₁
    simp only [hkind]
    exact (yields_interfaceRest hg hts hms hs₁ _ hq hn sp).bind fun t' s₂ hs₂ ht' =>
      yields_pure hs₂ ⟨t', rfl, ht'⟩
  | enum_ his hcs hms =>
    have hkind : kindOf s₁.rest = .keyword .enum_ := Begins.kindOf hs₁
    simp only [hkind]
    exact (yields_enumRest his hcs hms hs₁ _ hq hn sp).bind fun t' s₂ hs₂ ht' =>
      yields_pure hs₂ ⟨t', rfl, ht'⟩

/-! ### Whole texts -/

theorem Yields.attempt {p : Parser α} (h : Yields c s p rest R) :
    Yields c s (attempt p) rest fun r => ∃ a, r = .ok a ∧ R a := by
  intro hroom
  obtain ⟨a, s', ha, hrest, hdiag, hroom', hR⟩ := h hroom
  exact ⟨.ok a, s', by rw [attempt_run, ha], hrest, hdiag, hroom', a, rfl, hR⟩

theorem yields_packageClause {p : PackageClause} (h : PackageWords p ws) (hs : Begins s.rest ws rest) :
    Yields c s packageClause rest fun p' => p'.name = p.name := by
  obtain ⟨nw, hname, rfl⟩ := h
  rw [packageClause, yields_here]
  refine yields_skip_one hs fun s₁ hs₁ => ?_
  refine Yields.then hs₁ (fun mid hmid hb => yields_qualifiedName hname hmid
    (startsWith_eq_false (by rw [hb.kindOf]; exact nofun))) fun x s₂ hs₂ hx => ?_
  refine yields_require hs₂ rfl _ fun s₃ hs₃ => ?_
  rw [yields_spanFrom]
  exact yields_pure (begins_nil.mp hs₃) hx

theorem yields_optionalPackage {p : Option PackageClause} (h : OptionWords PackageWords p ws)
    (hs : Begins s.rest ws rest) (hrest : kindOf rest ≠ .keyword .package_) :
    Yields c s optionalPackage rest fun p' =>
      p'.map PackageClause.name = p.map PackageClause.name := by
  rw [optionalPackage, yields_check]
  cases h with
  | none =>
    have hs : s.rest = rest := begins_nil.mp hs
    rw [if_neg (by simpa [hs] using hrest)]
    exact yields_pure hs rfl
  | some h =>
    have hkind : kindOf s.rest = .keyword .package_ := by
      obtain ⟨nw, -, rfl⟩ := h
      exact Begins.kindOf hs
    rw [if_pos (by simpa using hkind)]
    refine ((yields_packageClause h hs).map fun p' hp' => ?_).recover _
    rw [Option.map_some, Option.map_some, hp']

/-- What is written of an import. -/
def importFace (i : Import) : String × Bool × Bool := (i.name, i.isStatic, i.isWildcard)

/-- What stands behind the name of an import. -/
def importTail (isWildcard : Bool) : List Word :=
  (if isWildcard then [.mark .dot, .mark .star] else []) ++ [.mark .semicolon]

theorem startsWith_importTail {isWildcard : Bool} (h : Begins ts (importTail isWildcard) rest) :
    startsWith Mark.dot .identifier ts = false := by
  cases isWildcard with
  | true =>
    rw [Begins.startsWith h]
    rfl
  | false => exact startsWith_eq_false (by rw [Begins.kindOf h]; exact nofun)

theorem yields_importTail {isWildcard : Bool} (hs : Begins s.rest (importTail isWildcard) rest)
    {f : Bool → Parser α} (hf : ∀ s', s'.rest = rest → Yields c s' (f isWildcard) rest R) :
    Yields c s (do
      let w ← accept Mark.dot
      if w then
        require Mark.star "'*' after '.' in import"
      require Mark.semicolon "';' after import"
      f w) rest R := by
  cases isWildcard with
  | true =>
    refine yields_accept hs rfl fun s₁ hs₁ => ?_
    rw [if_pos rfl]
    refine yields_require hs₁ rfl _ fun s₂ hs₂ => yields_require hs₂ rfl _ fun s₃ hs₃ => ?_
    exact hf s₃ (begins_nil.mp hs₃)
  | false =>
    rw [yields_accept_none (by rw [Begins.kindOf hs]; exact nofun), if_neg nofun]
    exact yields_require hs rfl _ fun s₁ hs₁ => hf s₁ (begins_nil.mp hs₁)

theorem yields_importClause {i : Import} (h : ImportWords i ws) (hs : Begins s.rest ws rest) :
    Yields c s importClause rest fun i' => importFace i' = importFace i := by
  obtain ⟨nw, hname, rfl⟩ := h
  obtain ⟨x, isStatic, isWildcard, sp⟩ := i
  rw [List.append_assoc] at hs
  rw [importClause, yields_here]
  refine yields_skip_one hs fun s₁ hs₁ => ?_
  -- whether or not `static` was there
  have hnamed (l : Location) (s' : State)
      (hs' : Begins s'.rest (nw ++ importTail isWildcard) rest) :
      Yields c s' (do
        let name ← qualifiedName
        let w ← accept Mark.dot
        if w then
          require Mark.star "'*' after '.' in import"
        require Mark.semicolon "';' after import"
        return ⟨name, isStatic, w, ← Parser.spanFrom l⟩ : Parser Import) rest
        fun i' => importFace i' = (x, isStatic, isWildcard) := by
    refine Yields.then hs' (fun mid hmid hb =>
      yields_qualifiedName hname hmid (startsWith_importTail hb)) fun x' s₂ hs₂ hx' => ?_
    refine yields_importTail hs₂ fun s₃ hs₃ => ?_
    rw [yields_spanFrom]
    exact yields_pure hs₃ (by rw [importFace, hx'])
  cases isStatic with
  | true => exact yields_accept hs₁ rfl fun s₂ hs₂ => hnamed _ s₂ hs₂
  | false =>
    have hkind : kindOf s₁.rest ≠ .keyword (.modifier .static_) := by
      obtain ⟨-, -, -⟩ := hname
      rw [Begins.kindOf hs₁]
      exact nofun
    rw [yields_accept_none hkind]
    exact hnamed _ s₁ hs₁

theorem importWords_head {i : Import} (h : ImportWords i ws) :
    ∃ vs, ws = .keyword .import_ :: vs := by
  obtain ⟨nw, -, rfl⟩ := h
  exact ⟨_, rfl⟩

theorem yields_imports {is : List Import} (h : EachWords ImportWords is ws)
    (hs : Begins s.rest ws rest) (hrest : kindOf rest ≠ .keyword .import_) (hn : is.length < n) :
    Yields c s (imports n) rest
      fun o => o.stopped = none ∧ o.found.map importFace = is.map importFace := by
  induction h generalizing s n with
  | nil =>
    have hs : s.rest = rest := begins_nil.mp hs
    obtain ⟨n, rfl⟩ : ∃ m, n = m + 1 := ⟨n - 1, by omega⟩
    rw [imports, yields_check, if_neg (by simpa [hs] using hrest)]
    exact yields_pure hs ⟨rfl, rfl⟩
  | @cons i is iw vs hi his ih =>
    obtain ⟨n, rfl⟩ : ∃ m, n = m + 1 := ⟨n - 1, by omega⟩
    have hkind : kindOf s.rest = .keyword .import_ := by
      obtain ⟨us, rfl⟩ := importWords_head hi
      exact Begins.kindOf hs
    rw [imports, yields_check, if_pos (by simpa using hkind)]
    refine Yields.then (P := fun r => ∃ i', r = Except.ok (some i') ∧ importFace i' = importFace i) hs
      (fun mid hmid _ => ?_) fun r s₁ hs₁ hr => ?_
    · have hclause : Yields c s (some <$> importClause) mid
          fun o => ∃ i', o = some i' ∧ importFace i' = importFace i :=
        (yields_importClause hi hmid).map fun i' hi' => ⟨i', rfl, hi'⟩
      refine (hclause.recover skipClause).attempt.mono fun r hr => ?_
      obtain ⟨_, rfl, i', rfl, hi'⟩ := hr
      exact ⟨i', rfl, hi'⟩
    obtain ⟨i', rfl, hi'⟩ := hr
    refine (ih hs₁ ?_).bind fun more s₂ hs₂ hmore => yields_pure hs₂ ⟨hmore.1, ?_⟩
    · simp only [List.length_cons] at hn
      omega
    · rw [Option.toList_some, List.singleton_append, List.map_cons, List.map_cons, hi', hmore.2]

/-- The first word of a type. -/
theorem declarationWords_head {t : TypeDeclaration} (h : DeclarationWords True n t ws) :
    ∃ w vs, ws = w :: vs ∧ (isTypeWord w.kind = true ∨ w.kind = .mark .atSign ∨
      ∃ m, w.kind = .keyword (.modifier m)) := by
  obtain ⟨qw, hw, ⟨has, -⟩, -, hh, rfl⟩ := h
  obtain ⟨w, vs, rfl, hw⟩ := headerWords_head hh
  generalize t.annotations = as at has
  generalize t.modifiers = ms
  cases has with
  | cons ha _ =>
    obtain ⟨nw, aw, -, -, rfl⟩ := ha
    exact ⟨_, _, rfl, .inr (.inl rfl)⟩
  | nil =>
    cases ms with
    | nil => exact ⟨w, vs, rfl, .inl hw⟩
    | cons m ms => exact ⟨.keyword (.modifier m), _, rfl, .inr (.inr ⟨m, rfl⟩)⟩

/-- Where types are, no clause of another sort is ahead, and no semicolon. -/
theorem kindOf_types {us : List TypeDeclaration} (h : EachWords (DeclarationWords True n) us ws)
    (hs : Begins ts ws []) : kindOf ts ≠ .keyword .package_ ∧ kindOf ts ≠ .keyword .import_ ∧
      kindOf ts ≠ .mark .semicolon ∧ (us ≠ [] → kindOf ts ≠ .endOfInput) := by
  cases h with
  | nil =>
    rw [begins_nil.mp hs]
    exact ⟨nofun, nofun, nofun, fun hne => absurd rfl hne⟩
  | cons ht _ =>
    obtain ⟨w, vs, rfl, hw⟩ := declarationWords_head ht
    rw [Begins.kindOf hs]
    rcases hw with hw | hw | ⟨m, hw⟩
    · refine ⟨?_, ?_, ?_, fun _ => ?_⟩ <;> intro hk <;> rw [hk] at hw <;> cases hw
    · rw [hw]
      exact ⟨nofun, nofun, nofun, fun _ => nofun⟩
    · rw [hw]
      exact ⟨nofun, nofun, nofun, fun _ => nofun⟩

theorem yields_types {us : List TypeDeclaration} {k : Nat} (h : EachWords (DeclarationWords True n) us ws)
    (hs : Begins s.rest ws []) (hn : n ≤ c.limits.nesting) (hk : us.length < k) (l : Location)
    (sp : Span) : Yields c s (types l sp k) []
      fun o => o.stopped = none ∧ o.found.1.map typeFace = us.map typeFace := by
  induction h generalizing s k sp with
  | nil =>
    have hs : s.rest = [] := begins_nil.mp hs
    obtain ⟨k, rfl⟩ : ∃ m, k = m + 1 := ⟨k - 1, by omega⟩
    rw [types, yields_look atEnd_run, if_pos (by rw [hs]; rfl)]
    exact yields_pure hs ⟨rfl, rfl⟩
  | @cons t us tw vs ht hts ih =>
    obtain ⟨k, rfl⟩ : ∃ m, k = m + 1 := ⟨k - 1, by omega⟩
    obtain ⟨-, -, hsemi, hend⟩ := kindOf_types (.cons ht hts) hs
    rw [types, yields_look atEnd_run, if_neg (by simpa using hend nofun),
      yields_accept_none hsemi, if_neg nofun]
    refine Yields.then (P := fun r => ∃ t', r = Except.ok (some t') ∧ typeFace t' = typeFace t) hs
      (fun mid hmid _ => ?_) fun r s₁ hs₁ hr => ?_
    · refine Yields.mono (R := fun r => ∃ o, r = .ok o ∧ ∃ t', o = some t' ∧ typeFace t' = typeFace t)
        (Yields.attempt ?_) fun r hr => ?_
      · rw [topLevelType, yields_steps]
        exact (yields_typeDeclaration ht hmid hn).recover _
      · obtain ⟨_, rfl, t', rfl, ht'⟩ := hr
        exact ⟨t', rfl, ht'⟩
    obtain ⟨t', rfl, ht'⟩ := hr
    simp only [yields_spanFrom]
    refine (ih hs₁ ?_ _).bind fun more s₂ hs₂ hmore => yields_pure hs₂ ⟨hmore.1, ?_⟩
    · simp only [List.length_cons] at hk
      omega
    · rw [Option.toList_some, List.singleton_append, List.map_cons, List.map_cons, ht', hmore.2]

/-- Units that are written and summarized alike. -/
structure AlikeUnits (u v : CompilationUnit) : Prop where
  lines : ∀ style, u.lines style = v.lines style
  summary : u.summary = v.summary

theorem alikeUnits_of_faces {u v : CompilationUnit}
    (hp : u.package.map PackageClause.name = v.package.map PackageClause.name)
    (hi : u.imports.map importFace = v.imports.map importFace)
    (ht : u.types.map typeFace = v.types.map typeFace) : AlikeUnits u v := by
  have hmap {γ : Type} (f : (String × Bool × Bool) → γ) :
      u.imports.map (fun i => f (importFace i)) = v.imports.map fun i => f (importFace i) := by
    have h := congrArg (List.map f) hi
    rwa [List.map_map, List.map_map] at h
  have hpack {γ : Type} (f : String → γ) :
      u.package.map (fun p => f p.name) = v.package.map fun p => f p.name := by
    have h := congrArg (Option.map f) hp
    rwa [Option.map_map, Option.map_map] at h
  have htypes {γ : Type} (f : (BraceStyle → List Line) × TypeSummary → γ) :
      u.types.map (fun t => f (typeFace t)) = v.types.map fun t => f (typeFace t) := by
    have h := congrArg (List.map f) ht
    rwa [List.map_map, List.map_map] at h
  constructor
  · intro style
    have h1 := hpack packageLine
    have h2 := hmap fun i => Line.plain (importText i.1 i.2.1 i.2.2)
    have h3 := htypes fun t => t.1 style
    simp only [importFace, typeFace] at h2 h3
    simp only [CompilationUnit.lines, Import.line, h1, h2, h3]
  · have h2 := hmap fun i => ImportSummary.mk i.1 i.2.1 i.2.2
    have h3 := htypes fun t => t.2
    simp only [importFace, typeFace] at h2 h3
    simp only [CompilationUnit.summary, hp, h2, h3]

theorem yields_unit {u : CompilationUnit} (h : UnitWords True n u ws) (hs : Begins s.rest ws [])
    (hn : n ≤ c.limits.nesting) :
    Yields c s unit [] fun o => o.stopped = none ∧ AlikeUnits o.found u := by
  obtain ⟨pw, iw, tw, hp, his, hts, rfl⟩ := h
  simp only [List.append_assoc] at hs
  rw [unit, yields_here]
  have hclause (ts : List Token) (hts' : Begins ts (iw ++ tw) []) : kindOf ts ≠ .keyword .package_ := by
    generalize u.imports = is at his
    cases his with
    | nil => exact (kindOf_types hts hts').1
    | cons hi _ =>
      obtain ⟨vs, rfl⟩ := importWords_head hi
      rw [Begins.kindOf hts']
      decide
  refine Yields.then hs (fun mid hmid hb => (yields_optionalPackage hp hmid (hclause mid hb)).attempt)
    fun r s₁ hs₁ hr => ?_
  obtain ⟨p', rfl, hp'⟩ := hr
  simp only [yields_steps]
  refine Yields.then hs₁ (fun mid hmid hb => yields_imports his hmid (kindOf_types hts hb).2.1 ?_)
    fun is' s₂ hs₂ his' => ?_
  · have hle := length_le_of_eachWords his fun i ws hi => by
      obtain ⟨vs, rfl⟩ := importWords_head hi
      exact List.cons_ne_nil _ vs
    have hlen := hmid.length_eq
    omega
  rw [his'.1]
  simp only [yields_steps]
  refine (yields_types hts hs₂ hn ?_ _ _).bind fun ts' s₃ hs₃ hts' =>
    yields_pure hs₃ ⟨hts'.1, alikeUnits_of_faces hp' his'.2 hts'.2⟩
  have hle := length_le_of_eachWords hts fun t ws ht => by
    obtain ⟨w, vs, rfl, -⟩ := declarationWords_head ht
    exact List.cons_ne_nil w vs
  have hlen := hs₂.length_eq
  omega

end Parser

open JavaTree.Parser

/-- Caps that leave room for a number of tokens. -/
structure Limits.LeaveRoom (limits : Limits) (n : Nat) : Prop where
  statements : n ≤ limits.blockStatements
  tokens : n ≤ limits.excerptTokens
  members : n ≤ limits.typeMembers

/-- The caps do not come into play: a text is read as it is with caps that leave room for a number of
levels and for all of its tokens. -/
def ParseOptions.Suffice (options : ParseOptions) (source : String) (levels : Nat) : Prop :=
  ∃ limits : Limits, levels ≤ limits.nesting ∧
    limits.LeaveRoom (Input.ofSource source).tokens.length ∧
    CompilationUnit.parse source { options with limits } = CompilationUnit.parse source options

/-- The words of a source text are what its tokens are, and nothing else is in it. -/
theorem ofSource_eq {source : String} {ws : List Word} (h : Spells source.toList ws) :
    (Input.ofSource source).faults = [] ∧ (Input.ofSource source).tokens.map Token.word = ws := by
  obtain ⟨hfaults, ts, hts, hword⟩ := Lexer.recover_eq h
  refine ⟨hfaults, ?_⟩
  have hall : ∀ t ∈ ts, (decide (t.kind ≠ .endOfInput)) = true := by
    intro t ht
    have hmem : t.word ∈ ws := hword ▸ List.mem_map_of_mem ht
    exact decide_eq_true (h.kind _ hmem).1
  have hend : (Lexer.endToken source).kind = .endOfInput := rfl
  show ((Lexer.recover source).takeWhile _).map Token.word = ws
  rw [hts, List.takeWhile_append_of_pos hall, List.takeWhile_cons_of_neg (by simp [hend]),
    List.append_nil, hword]

/-- A source text that spells the words of a unit is read without a finding, as a unit that is
written and summarized alike. -/
theorem parse_of_spells {source : String} {ws : List Word} {u : CompilationUnit} {n : Nat}
    {options : ParseOptions} (h : Spells source.toList ws) (hu : UnitWords True n u ws)
    (hcaps : options.Suffice source n) :
    (CompilationUnit.parse source options).diagnostics = [] ∧
      AlikeUnits (CompilationUnit.parse source options).unit u := by
  obtain ⟨limits, hn, hroom, hsame⟩ := hcaps
  obtain ⟨hfaults, hword⟩ := ofSource_eq h
  rw [← hsame, CompilationUnit.parse, Input.parse]
  generalize Input.ofSource source = input at hfaults hword hroom
  have hyields := yields_unit (c := ⟨limits, options.budget, input.faults, input.stop⟩)
    (s := ⟨input.tokens, none, [], input.faults.map .deferred⟩) hu
    ⟨input.tokens, (List.append_nil _).symm, hword⟩ hn
  obtain ⟨o, s', hrun, -, hdiag, -, hstopped, halike⟩ :=
    hyields ⟨hroom.statements, hroom.tokens, hroom.members⟩
  have hrun : (unit.run ⟨limits, options.budget, input.faults, input.stop⟩).run
      ⟨input.tokens, none, [], input.faults.map .deferred⟩ = .ok o s' := hrun
  simp only [hrun, Parsed.ofOutcome, hstopped]
  exact ⟨hdiag, halike⟩

end JavaTree
