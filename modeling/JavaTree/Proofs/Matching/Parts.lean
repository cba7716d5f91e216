import JavaTree.Proofs.Parser.Abreast

/-!
The readers of parts match themselves.

On two states that differ in places alone, each of them gives results that differ in places alone.
Where a reader is told a place or a part of a node, it may be told another one that differs in places
alone.
-/

namespace JavaTree.Parser

variable {α β γ δ : Type} {c c' : Settings}

/-- Lists of which a part is the same, entry by entry, under functions that keep it. -/
theorem map_eq_map {v : α → γ} {w : β → δ} {f g : α → β} {as as' : List α} (h : as.map v = as'.map v)
    (hfg : ∀ a a', v a = v a' → w (f a) = w (g a')) : (as.map f).map w = (as'.map g).map w := by
  induction as generalizing as' with
  | nil =>
    rw [List.map_eq_nil_iff.mp h.symm]
    rfl
  | cons a as ih =>
    obtain ⟨a', as', rfl, ha, has⟩ := List.map_eq_cons_iff.mp h.symm
    simp only [List.map_cons, hfg a a' ha.symm, ih has.symm]

/-! ### Ends of nodes -/

section Ends

variable {v : α → γ}

/-- The last step of a node, which gives it its span. -/
theorem matches_spanned {make make' : Span → α} (start start' : Location)
    (h : ∀ a a', v (make a) = v (make' a')) :
    Matches c c' v (do return make (← spanFrom start)) (do return make' (← spanFrom start')) :=
  (matches_spanFrom start start').bindAny fun a a' => matches_pure (h a a')

/-- The token that ends a node, and the span of the node. -/
theorem matches_ended {k : Kind} {expected : String} {make make' : Span → α} (start start' : Location)
    (h : ∀ a a', v (make a) = v (make' a')) :
    Matches c c' v (do return make (← (do require k expected; spanFrom start)))
      (do return make' (← (do require k expected; spanFrom start'))) :=
  ((matches_require _ _).bind fun _ => matches_spanFrom start start').bindAny fun a a' =>
    matches_pure (h a a')

/-- A missing closing brace is reported. -/
theorem matches_close {expected : String} {k k' : Parser α} (hk : Matches c c' v k k') :
    Matches c c' v (do
      if !(← accept Mark.closeBrace) then
        report (← unexpected expected)
      k) (do
      if !(← accept Mark.closeBrace) then
        report (← unexpected expected)
      k') :=
  (matches_accept _).bind fun _ => matches_ite Iff.rfl (matches_reportUnexpected _ hk) hk

end Ends

/-! ### Names and types -/

theorem matches_identifier : Matches c c' id identifier identifier := by
  apply matches_peek.bindOn
  intro t u h
  obtain ⟨hkind, hlexeme⟩ := Token.bare_eq_iff.mp h
  refine matches_ite (by rw [hkind]) ?_ (matches_fail _)
  exact (matches_skip 1).bind fun _ => matches_pure hlexeme

theorem matches_qualifiedName : Matches c c' id qualifiedName qualifiedName := by
  apply matches_identifier.bind
  intro first
  apply matches_rest.bindOn
  intro ts us h
  simp only [eq_of_bare furtherNames_bare h]
  exact (matches_skip _).bind fun _ => matches_pure rfl

theorem matches_angleText : Matches c c' id angleText angleText := by
  apply matches_read
  intro hlimits
  apply matches_rest.bindOn
  intro ts us h
  simp only [hlimits, eq_of_bare (angleExtent_bare · c'.limits.excerptTokens 0) h]
  apply (matches_skip _).bind
  intro _
  split
  · refine matches_pure (eq_of_bare (typeText_bare · none) ?_)
    rw [List.map_take, List.map_take, h]
  · exact matches_here.bindAny fun l l' => matches_throw rfl
  · exact matches_fail _

theorem matches_typeParameters : Matches c c' id typeParameters typeParameters :=
  (matches_check _).bind fun _ => matches_ite Iff.rfl
    (matches_angleText.bind fun _ => matches_pure rfl) (matches_pure rfl)

theorem matches_typeName (known : String) (n : Nat) :
    Matches c c' id (typeName known n) (typeName known n) := by
  induction n generalizing known with
  | zero => exact matches_pure rfl
  | succ n ih =>
    apply (matches_check _).bind
    intro _
    simp only [← bind_assoc]
    refine matches_join (matches_angleText.bind fun _ => matches_pure (v := id) rfl)
      (matches_pure (v := id) rfl) ?_
    rintro named _ rfl
    apply matches_rest.bindOn
    intro ts us h
    simp only [eq_of_bare (startsWith_bare · Mark.dot .identifier) h]
    refine matches_ite Iff.rfl ?_ (matches_pure rfl)
    exact ((matches_skip 1).bind fun _ => matches_identifier).bind fun _ => ih _

theorem matches_brackets : Matches c c' id brackets brackets := by
  apply matches_rest.bindOn
  intro ts us h
  simp only [eq_of_bare dimensions_bare h]
  exact (matches_skip _).bind fun _ => matches_pure rfl

theorem matches_typeUse : Matches c c' TypeUse.bare typeUse typeUse := by
  have hend (start start' : Location) (name : String) : Matches c c' TypeUse.bare
      (do
        let n ← brackets
        return ⟨name, n, ← spanFrom start⟩)
      (do
        let n ← brackets
        return ⟨name, n, ← spanFrom start'⟩) :=
    matches_brackets.bind fun n => matches_spanned start start' fun _ _ => rfl
  apply matches_here.bindAny
  intro start start'
  apply matches_peek.bindOn
  intro t u h
  obtain ⟨hkind, hlexeme⟩ := Token.bare_eq_iff.mp h
  simp only [hkind, hlexeme]
  refine matches_ite Iff.rfl ?_ (matches_ite Iff.rfl ?_ ?_)
  · exact (matches_skip 1).bind fun _ => hend start start' _
  · apply matches_identifier.bind
    intro _
    apply matches_steps.bind
    intro _
    exact (matches_typeName _ _).bind fun _ => hend start start' _
  · exact (matches_fail (v := id) _).bind fun _ => hend start start' _

theorem matches_moreTypes (n : Nat) :
    Matches c c' (List.map TypeUse.bare) (moreTypes n) (moreTypes n) := by
  induction n with
  | zero => exact matches_pure rfl
  | succ n ih =>
    apply (matches_accept _).bind
    intro _
    refine matches_ite Iff.rfl ?_ (matches_pure rfl)
    apply matches_typeUse.bindOn
    intro t t' ht
    apply ih.bindOn
    intro ts ts' hts
    apply matches_pure
    rw [List.map_cons, List.map_cons, ht, hts]

theorem matches_typeList : Matches c c' (List.map TypeUse.bare) typeList typeList := by
  apply matches_typeUse.bindOn
  intro t t' ht
  apply matches_steps.bind
  intro _
  apply (matches_moreTypes _).bindOn
  intro ts ts' hts
  apply matches_pure
  rw [List.map_cons, List.map_cons, ht, hts]

theorem matches_typesAfter (k : Keyword) :
    Matches c c' (List.map TypeUse.bare) (typesAfter k) (typesAfter k) :=
  (matches_accept _).bind fun _ => matches_ite Iff.rfl matches_typeList (matches_pure rfl)

theorem matches_returnType : Matches c c' TypeUse.bare returnType returnType :=
  matches_here.bindAny fun _ _ => (matches_accept _).bind fun _ =>
    matches_ite Iff.rfl (matches_pure rfl) matches_typeUse

/-! ### Excerpts and annotations -/

theorem matches_excerpt (rule : CaptureRule) (what : String) :
    Matches c c' Excerpt.bare (excerpt rule what) (excerpt rule what) := by
  apply matches_read
  intro hlimits
  apply matches_rest.bindOn
  intro ts us h
  simp only [hlimits, eq_of_bare (extent_bare · rule c'.limits.excerptTokens [] none) h]
  apply (matches_skip _).bind
  intro _
  split
  · refine matches_ite Iff.rfl (matches_fail _) (matches_pure ?_)
    rw [Excerpt.bare, Excerpt.bare, List.map_take, List.map_take, h]
  · exact matches_fail _
  · exact matches_fail _
  · exact matches_fail _
  · exact matches_here.bindAny fun _ _ => matches_throw rfl

theorem matches_parenthesized (what : String) :
    Matches c c' Excerpt.bare (parenthesized what) (parenthesized what) :=
  (matches_require _ _).bind fun _ => (matches_excerpt _ _).bindOn fun _ _ h =>
    (matches_require _ _).bind fun _ => matches_pure h

theorem matches_arguments (what : String) :
    Matches c c' Excerpt.bare (arguments what) (arguments what) := by
  apply (matches_require _ _).bind
  intro _
  apply (matches_check _).bind
  intro _
  exact matches_join (matches_pure rfl) (matches_excerpt _ _) fun _ _ h =>
    (matches_require _ _).bind fun _ => matches_pure h

theorem matches_optionalArguments (what : String) :
    Matches c c' (Option.map Excerpt.bare) (optionalArguments what) (optionalArguments what) :=
  (matches_check _).bind fun _ => matches_ite Iff.rfl
    ((matches_arguments what).bindOn fun _ _ h => matches_pure (congrArg some h)) (matches_pure rfl)

theorem matches_annotationUse : Matches c c' AnnotationUse.bare annotationUse annotationUse := by
  apply matches_here.bindAny
  intro start start'
  apply (matches_require _ _).bind
  intro _
  apply matches_qualifiedName.bind
  intro name
  apply (matches_optionalArguments _).bindOn
  intro a a' ha
  apply matches_spanned start start'
  intro _ _
  rw [AnnotationUse.bare, AnnotationUse.bare, ha]

theorem matches_annotations (n : Nat) :
    Matches c c' (List.map AnnotationUse.bare) (annotations n) (annotations n) := by
  induction n with
  | zero => exact matches_pure rfl
  | succ n ih =>
    apply matches_rest.bindOn
    intro ts us h
    simp only [eq_of_bare looksAnnotated_bare h]
    refine matches_ite Iff.rfl ?_ (matches_pure rfl)
    apply matches_annotationUse.bindOn
    intro a a' ha
    apply ih.bindOn
    intro as as' has
    apply matches_pure
    rw [List.map_cons, List.map_cons, ha, has]

def Qualifiers.bare (q : Qualifiers) : Qualifiers := ⟨q.annotations.map AnnotationUse.bare, q.modifiers⟩

theorem Qualifiers.bare_eq_iff {q q' : Qualifiers} : q.bare = q'.bare ↔
    q.annotations.map AnnotationUse.bare = q'.annotations.map AnnotationUse.bare ∧
      q.modifiers = q'.modifiers := by
  simp [Qualifiers.bare]

theorem matches_qualifiers {found found' : Qualifiers} (hfound : found.bare = found'.bare) (n : Nat) :
    Matches c c' Qualifiers.bare (qualifiers found n) (qualifiers found' n) := by
  induction n generalizing found found' with
  | zero => exact matches_pure hfound
  | succ n ih =>
    obtain ⟨hannotations, hmodifiers⟩ := Qualifiers.bare_eq_iff.mp hfound
    apply matches_rest.bindOn
    intro ts us h
    simp only [eq_of_bare looksAnnotated_bare h]
    refine matches_ite Iff.rfl (matches_annotationUse.bindOn fun a a' ha => ih ?_) ?_
    · refine Qualifiers.bare_eq_iff.mpr ⟨?_, hmodifiers⟩
      simp only [List.map_append, List.map_singleton, hannotations, ha]
    · apply matches_kind.bind
      intro _
      split
      · exact matches_pure hfound
      · apply matches_secondKind.bind
        intro _
        refine matches_ite Iff.rfl (matches_pure hfound) ?_
        apply (matches_skip 1).bind
        intro _
        refine ih (Qualifiers.bare_eq_iff.mpr ⟨hannotations, ?_⟩)
        simp only [hmodifiers]

theorem matches_allQualifiers : Matches c c' Qualifiers.bare allQualifiers allQualifiers :=
  matches_steps.bind fun _ => matches_qualifiers rfl _

/-! ### Variables -/

theorem matches_someExcerpt (rule : CaptureRule) (what : String) :
    Matches c c' (Option.map Excerpt.bare) (do return some (← excerpt rule what))
      (do return some (← excerpt rule what)) :=
  (matches_excerpt _ _).bindOn fun _ _ h => matches_pure (congrArg some h)

theorem matches_declarator : Matches c c' Declarator.bare declarator declarator := by
  apply matches_here.bindAny
  intro start start'
  apply matches_identifier.bind
  intro _
  apply matches_brackets.bind
  intro _
  apply (matches_accept _).bind
  intro _
  simp only [← bind_assoc]
  refine matches_join (matches_someExcerpt _ _) (matches_pure rfl) fun e e' he => ?_
  apply matches_spanned start start'
  intro _ _
  rw [Declarator.bare, Declarator.bare, he]

theorem matches_declaratorList (n : Nat) :
    Matches c c' (List.map Declarator.bare) (declaratorList n) (declaratorList n) := by
  induction n with
  | zero => exact matches_pure rfl
  | succ n ih =>
    apply matches_declarator.bindOn
    intro d d' hd
    apply (matches_accept _).bind
    intro _
    refine matches_ite Iff.rfl (ih.bindOn fun ds ds' hds => matches_pure ?_) (matches_pure ?_)
    · rw [List.map_cons, List.map_cons, hd, hds]
    · rw [List.map_singleton, List.map_singleton, hd]

theorem matches_declarators : Matches c c' (List.map Declarator.bare) declarators declarators :=
  matches_steps.bind fun _ => (matches_declaratorList _).bindOn fun _ _ h =>
    (matches_require _ _).bind fun _ => matches_pure h

theorem matches_fields {q q' : Qualifiers} (hq : q.bare = q'.bare) (start start' : Location) :
    Matches c c' (List.map Field.bare) (fields start q) (fields start' q') := by
  obtain ⟨hannotations, hmodifiers⟩ := Qualifiers.bare_eq_iff.mp hq
  apply matches_typeUse.bindOn
  intro t t' ht
  apply matches_declarators.bindOn
  intro ds ds' hds
  apply (matches_spanFrom start start').bindAny
  intro _ _
  apply matches_pure
  refine map_eq_map hds fun d d' hd => ?_
  obtain ⟨hname, hdimensions, hinitializer⟩ : d.name = d'.name ∧ d.dimensions = d'.dimensions ∧
      d.initializer.map Excerpt.bare = d'.initializer.map Excerpt.bare := by
    simpa [Declarator.bare] using hd
  obtain ⟨htype, hinner⟩ : t.name = t'.name ∧ t.dimensions = t'.dimensions := by
    simpa [TypeUse.bare] using ht
  simp only [Field.bare, TypeUse.bare, hannotations, hmodifiers, hname, hdimensions, hinitializer,
    htype, hinner]

/-! ### Constructs that are left out -/

theorem matches_skipType (construct : String) :
    Matches c c' id (skipType construct) (skipType construct) :=
  matches_here.bindAny fun _ _ => (matches_skipBy typeBody_bare).bind fun _ => matches_report rfl

theorem matches_skipGroup (opener : Mark) : Matches c c' id (skipGroup opener) (skipGroup opener) :=
  (matches_check _).bind fun _ =>
    matches_ite Iff.rfl (matches_skipBy (group_bare · 0)) (matches_pure rfl)

theorem matches_skipCatches (n : Nat) : Matches c c' id (skipCatches n) (skipCatches n) := by
  induction n with
  | zero => exact matches_pure rfl
  | succ n ih =>
    apply (matches_accept _).bind
    intro _
    refine matches_ite Iff.rfl ?_ (matches_pure rfl)
    exact (matches_skipGroup _).bind fun _ => (matches_skipGroup _).bind fun _ => ih

theorem matches_skipTryWithResources :
    Matches c c' id skipTryWithResources skipTryWithResources := by
  apply matches_here.bindAny
  intro l l'
  apply (matches_skip 1).bind
  intro _
  apply (matches_skipBy (group_bare · 0)).bind
  intro _
  apply (matches_skipGroup _).bind
  intro _
  apply matches_steps.bind
  intro _
  apply (matches_skipCatches _).bind
  intro _
  apply (matches_accept _).bind
  intro _
  refine matches_ite Iff.rfl ?_ (matches_report rfl)
  exact (matches_skipGroup _).bind fun _ => matches_report rfl

end JavaTree.Parser
