import JavaTree.Proofs.Written.Statements

/-!
The text of a unit spells its words, whatever the layout.
-/

namespace JavaTree

variable {α : Type} {layout : Layout} {ws vs : List Word} {rereads : Prop} {n : Nat}

/-! ### Rows of lines -/

/-- Blank lines between things in a row spell nothing. -/
theorem linesWrite_spaced {P : α → List Word → Prop} {lines : α → List Line}
    (hP : ∀ a ws, P a ws → LinesWrite layout (lines a) ws) (isField : α → Bool) {as : List α}
    (h : EachWords P as ws) : LinesWrite layout (spacedLines isField lines as) ws := by
  induction h with
  | nil => exact .nil
  | @cons a as ws vs ha has ih =>
    cases has with
    | nil =>
      rw [List.append_nil]
      exact hP a ws ha
    | @cons b bs _ _ hb hbs =>
      rw [spacedLines, List.append_assoc]
      refine (hP a ws ha).append ?_
      split
      · exact ih
      · exact .blank ih

theorem linesWrite_separated {groups : List (List Line)}
    (h : EachWords (LinesWrite layout) groups ws) : LinesWrite layout (Line.separated groups) ws := by
  rw [Line.separated]
  induction h with
  | nil => exact .nil
  | @cons g gs ws vs hg hgs ih =>
    cases hgs with
    | nil =>
      rw [List.intercalate_singleton, List.append_nil]
      exact hg
    | cons hg' hgs' =>
      rw [List.intercalate_cons_cons, List.append_assoc]
      exact hg.append (.blank ih)

theorem linesWrite_each {P : α → List Word → Prop} {f : α → String}
    (hlayout : layout.problem? = none)
    (hP : ∀ a ws, P a ws → Writes (f a) ws Separated ∧ f a ≠ "") {as : List α}
    (h : EachWords P as ws) : LinesWrite layout (as.map fun a => .plain (f a)) ws := by
  induction h with
  | nil => exact .nil
  | cons ha _ ih =>
    obtain ⟨hline, hne⟩ := hP _ _ ha
    exact .plain_cons hlayout hline hne ih

theorem annotationRender_ne_empty (a : AnnotationUse) : a.render ≠ "" := by
  obtain ⟨x, _ | e, sp⟩ := a
  · exact fun h => absurd (String.append_eq_empty_iff.mp h).1 (by decide)
  · exact append_ne_empty (by decide)

theorem linesWrite_annotations (hlayout : layout.problem? = none) {as : List AnnotationUse}
    (h : EachWords AnnotationWords as ws) : LinesWrite layout (AnnotationUse.lines as) ws :=
  linesWrite_each hlayout (fun a _ ha => ⟨writes_annotationUse ha, annotationRender_ne_empty a⟩) h

/-! ### Members -/

theorem linesWrite_field (hlayout : layout.problem? = none) {f : Field} (h : FieldWords rereads f ws) :
    LinesWrite layout f.lines ws := by
  obtain ⟨qw, tw, iw, ⟨has, -⟩, ht, hname, hinit, rfl⟩ := h
  have hline := LinesWrite.single hlayout (writes_field ht hname hinit).semicolon_behind
    (append_ne_empty (by decide))
  have hlines := (linesWrite_annotations hlayout has).append hline
  rw [Field.lines]
  simp only [List.append_assoc, List.cons_append] at hlines ⊢
  exact hlines

theorem linesWrite_method (hlayout : layout.problem? = none) {m : Method} (h : MethodWords rereads n m ws)
    (style : BraceStyle) : LinesWrite layout (m.lines style) ws := by
  obtain ⟨qw, gw, tyw, pw, tw, bw, ⟨has, -⟩, hg, hr, hname, hps, hts, hb, rfl⟩ := h
  have hheader := writes_callableHeader m.modifiers hg (.some hr) hname hps hts
  have hlines (ls : List Line) (hls : LinesWrite layout ls
      (modifierWords m.modifiers ++ gw ++ tyw ++ .name m.name :: pw ++ tw ++ bw)) :
      LinesWrite layout (AnnotationUse.lines m.annotations ++ ls) (_ ++ _) :=
    (linesWrite_annotations hlayout has).append hls
  simp only [List.append_assoc, List.cons_append] at hlines ⊢
  rw [Method.lines]
  generalize m.body = body at hb
  refine hlines _ ?_
  cases hb with
  | none =>
    have hline := LinesWrite.single hlayout hheader.semicolon_behind (append_ne_empty (by decide))
    simp only [List.append_assoc, List.cons_append] at hline
    exact hline
  | some hb =>
    have hbody := linesWrite_body hlayout hheader hb style
    simp only [List.append_assoc, List.cons_append] at hbody
    exact hbody

theorem linesWrite_constructor (hlayout : layout.problem? = none) {c : Constructor}
    (h : ConstructorWords rereads n c ws) (style : BraceStyle) : LinesWrite layout (c.lines style) ws := by
  obtain ⟨qw, gw, pw, tw, bw, ⟨has, -⟩, hg, hname, hps, hts, hb, rfl⟩ := h
  have hheader := writes_callableHeader c.modifiers hg .none hname hps hts
  have hlines := (linesWrite_annotations hlayout has).append (linesWrite_body hlayout hheader hb style)
  rw [Constructor.lines]
  simp only [List.append_assoc, List.cons_append, List.nil_append] at hlines ⊢
  exact hlines

theorem linesWrite_initializer (hlayout : layout.problem? = none) {i : Initializer}
    (h : InitializerBlockWords rereads n i ws) (style : BraceStyle) : LinesWrite layout (i.lines style) ws := by
  obtain ⟨bw, hb, rfl⟩ := h
  have hheader : Writes (if i.isStatic then "static" else "")
      (if i.isStatic then [.keyword (.modifier .static_)] else []) Separated := by
    cases i.isStatic with
    | true => exact writes_keyword (.modifier .static_)
    | false => exact Writes.nil _
  exact linesWrite_body hlayout hheader hb style

theorem linesWrite_member (hlayout : layout.problem? = none) (style : BraceStyle) {m : Member}
    (h : MemberWords rereads n m ws) : LinesWrite layout (m.lines style) ws := by
  cases h with
  | field h => exact linesWrite_field hlayout h
  | method h => exact linesWrite_method hlayout h style
  | constructor h => exact linesWrite_constructor hlayout h style
  | initializer h => exact linesWrite_initializer hlayout h style

theorem linesWrite_members (hlayout : layout.problem? = none) {ms : List Member}
    (h : EachWords (MemberWords rereads n) ms ws) (style : BraceStyle) :
    LinesWrite layout (Member.allLines style ms) ws :=
  linesWrite_spaced (fun _ _ hm => linesWrite_member hlayout style hm) Member.isField h

/-! ### Types -/

theorem constantRender_ne_empty {k : EnumConstant} (h : ConstantWords k ws) : k.render ≠ "" := by
  obtain ⟨nw, aw, -, hname, -, -⟩ := h
  have hne : k.name ≠ "" := by
    intro hempty
    have hisName := hname.1
    rw [hempty] at hisName
    cases hisName
  intro hempty
  exact hne (String.append_eq_empty_iff.mp (String.append_eq_empty_iff.mp hempty).1).2

/-- The constants of an enum, with something behind the last one. -/
theorem linesWrite_constants (hlayout : layout.problem? = none) {last : String} {lw : List Word}
    (hlast : Writes last lw Separated) (happart : Separated last.toList) {cs : List EnumConstant}
    (h : CommaWords ConstantWords cs ws) :
    LinesWrite layout (constantLines last (cs.map EnumConstant.render)) (ws ++ lw) := by
  induction h with
  | @one c ws hc =>
    exact .single hlayout ((writes_constant hc).apart hlast happart) fun h =>
      constantRender_ne_empty hc (String.append_eq_empty_iff.mp h).1
  | @cons c cs ws vs hc hcs ih =>
    have hcomma : Writes (c.render ++ ",") (ws ++ [.mark .comma]) Separated :=
      (writes_constant hc).apart (Writes.comma.mono fun _ _ => trivial) (separated_cons rfl _)
    have hlines := LinesWrite.plain_cons hlayout hcomma (append_ne_empty (by decide)) ih
    rw [List.map_cons, constantLines]
    · simp only [List.append_assoc, List.cons_append, List.nil_append] at hlines ⊢
      exact hlines
    · cases hcs <;> exact nofun

theorem linesWrite_enum (hlayout : layout.problem? = none) {cs : List EnumConstant}
    {cw mw : List Word} (h : ConstantsWords cs cw) {members : List Line}
    (hms : LinesWrite layout members mw) (isEmpty : Bool) :
    LinesWrite layout (enumLines (cs.map EnumConstant.render) members !isEmpty)
      (cw ++ if isEmpty then [] else .mark .semicolon :: mw) := by
  have hsemicolon : Writes ";" [.mark .semicolon] Separated := Writes.semicolon.mono fun _ _ => trivial
  cases isEmpty with
  | true =>
    cases h with
    | nil => exact .nil
    | some h => exact linesWrite_constants hlayout (Writes.nil _) separated_nil h
  | false =>
    have hconstants : LinesWrite layout (if (cs.map EnumConstant.render).isEmpty then [.plain ";"]
        else constantLines ";" (cs.map EnumConstant.render)) (cw ++ [.mark .semicolon]) := by
      cases h with
      | nil => exact .single hlayout hsemicolon (by decide)
      | some h =>
        rw [if_neg (by cases h <;> exact nofun)]
        exact linesWrite_constants hlayout hsemicolon (separated_cons rfl _) h
    have hlines := hconstants.append (LinesWrite.blank hms)
    rw [List.append_assoc] at hlines
    exact hlines

theorem linesWrite_type (hlayout : layout.problem? = none) (style : BraceStyle) {t : TypeDeclaration}
    (h : DeclarationWords rereads n t ws) : LinesWrite layout (t.lines style) ws := by
  obtain ⟨qw, hw, ⟨has, -⟩, hname, hh, rfl⟩ := h
  obtain ⟨mods, as, x, header, ms, sp⟩ := t
  have hannotated {ls : List Line} {vs : List Word} (hls : LinesWrite layout ls vs) :=
    (linesWrite_annotations hlayout has).append hls
  rw [TypeDeclaration.lines]
  cases hh with
  | class_ hg ht his hms =>
    have hlines := hannotated (LinesWrite.braced hlayout
      (writes_typeHeader (k := .class_) mods hname hg ht his) (linesWrite_members hlayout hms style) style)
    simp only [List.append_assoc, List.cons_append] at hlines ⊢
    exact hlines
  | interface_ hg hts hms =>
    have hlines := hannotated (LinesWrite.braced hlayout
      (writes_typeHeader (k := .interface_) mods hname hg hts .nil)
      (linesWrite_members hlayout hms style) style)
    simp only [List.append_assoc, List.cons_append, List.nil_append] at hlines ⊢
    exact hlines
  | enum_ his hcs hms =>
    have hlines := hannotated (LinesWrite.braced hlayout
      (writes_typeHeader (k := .enum_) mods hname .none .nil his)
      (linesWrite_enum hlayout hcs (linesWrite_members hlayout hms style) ms.isEmpty) style)
    simp only [List.append_assoc, List.cons_append, List.nil_append] at hlines ⊢
    exact hlines

/-! ### Units -/

theorem eachWords_map {β : Type} {P : α → List Word → Prop} {Q : β → List Word → Prop} {f : α → β}
    (hP : ∀ a ws, P a ws → Q (f a) ws) {as : List α} (h : EachWords P as ws) :
    EachWords Q (as.map f) ws := by
  induction h with
  | nil => exact .nil
  | cons ha _ ih => exact .cons (hP _ _ ha) ih

/-- The sections of a source text. -/
theorem linesWrite_unitLines (hlayout : layout.problem? = none) {p : Option PackageClause}
    {is : List Import} {types : List (List Line)} {pw iw tw : List Word}
    (hp : OptionWords PackageWords p pw) (his : EachWords ImportWords is iw)
    (hts : EachWords (LinesWrite layout) types tw) :
    LinesWrite layout (unitLines (p.map fun p => packageLine p.name) (is.map Import.line) types)
      (pw ++ iw ++ tw) := by
  have hpackage : EachWords (LinesWrite layout)
      ((p.map fun p => packageLine p.name).toList.map ([·])) pw := by
    cases hp with
    | none => exact .nil
    | some hp =>
      have hline := LinesWrite.single hlayout ((writes_package hp).mono fun _ _ => trivial)
        (append_ne_empty (by decide : (";" : String) ≠ ""))
      have heach := EachWords.cons (P := LinesWrite layout) hline .nil
      rwa [List.append_nil] at heach
  have himports : EachWords (LinesWrite layout)
      (if (is.map Import.line).isEmpty then [] else [is.map Import.line]) iw := by
    have hne (i : Import) : importText i.name i.isStatic i.isWildcard ≠ "" := by
      rw [importText]
      exact append_ne_empty (by decide)
    have hlines : LinesWrite layout (is.map Import.line) iw :=
      linesWrite_each (P := ImportWords) (f := fun i => importText i.name i.isStatic i.isWildcard)
        hlayout (fun i _ hi => ⟨(writes_import hi).mono fun _ _ => trivial, hne i⟩) his
    cases his with
    | nil => exact .nil
    | cons hi his =>
      have heach := EachWords.cons (P := LinesWrite layout) hlines .nil
      rwa [List.append_nil] at heach
  exact linesWrite_separated ((hpackage.append himports).append hts)

theorem linesWrite_unit (hlayout : layout.problem? = none) {u : CompilationUnit}
    (h : UnitWords rereads n u ws) (style : BraceStyle) : LinesWrite layout (u.lines style) ws := by
  obtain ⟨pw, iw, tw, hp, his, hts, rfl⟩ := h
  exact linesWrite_unitLines hlayout hp his
    (eachWords_map (fun _ _ ht => linesWrite_type hlayout style ht) hts)

/-- The text of a unit spells its words. -/
theorem spells_unit (hlayout : layout.problem? = none) {u : CompilationUnit} (h : UnitWords rereads n u ws) :
    Spells (u.render layout).toList ws :=
  Page.spells_render hlayout (linesWrite_unit hlayout h layout.braceStyle)

end JavaTree
