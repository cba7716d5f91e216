import JavaTree.Proofs.Reread.Units
import JavaTree.Proofs.Source.Regular
import JavaTree.Proofs.Summary.TypeText
import JavaTree.Proofs.Token.Pieces
import JavaTree.Proofs.Written.Units
import JavaTree.Summary.Skeleton

/-!
Skeletons are read back as the summaries they are written from.

A summary is well formed when its names are names, its texts of types are texts of types, and each
declaration has what its kind needs and nothing else. Then there is a tree with that summary and with
stubs for bodies, and the skeleton spells the words of that tree. The stub of a body is a comment,
which spells nothing, and the value that the method returns.

    summary:   method f, type int[]
    skeleton:  int[] f() { // stub: body not available in summary
                   return null;
               }
    words:     int [ ] f ( ) { return null ; }
-/

namespace JavaTree

open JavaTree.Parser

/-! ### Well-formed summaries -/

/-- Identifiers with dots between them. -/
def IsQualifiedName (x : String) : Prop :=
  ∃ first further, IsIdentifier first ∧ (∀ n ∈ further, IsIdentifier n) ∧
    x = ".".intercalate (first :: further)

structure ParameterSummary.IsWellFormed (p : ParameterSummary) : Prop where
  name : IsIdentifier p.name
  type : IsTypeText p.typeName

namespace MemberSummary

/-- What a member of each kind has. -/
def FitsKind (m : MemberSummary) : Prop :=
  match m.kind with
  | .field => (∃ x, m.typeName = some x ∧ IsTypeText x) ∧ m.typeParameters = none ∧
      m.parameters = [] ∧ m.throws = []
  | .method => ∃ x, m.typeName = some x ∧ (x = "void" ∨ IsTypeText x)
  | .constructor => m.typeName = none
  | .unknown => False

structure IsWellFormed (m : MemberSummary) : Prop where
  name : IsIdentifier m.name
  modifiers : m.modifiers.Nodup
  typeParameters : ∀ g ∈ m.typeParameters, IsTypeParameters g
  parameters : ∀ p ∈ m.parameters, p.IsWellFormed
  throws : ∀ x ∈ m.throws, IsTypeText x
  kind : m.FitsKind

end MemberSummary

namespace TypeSummary

/-- What a type of each kind has. -/
def FitsKind (t : TypeSummary) : Prop :=
  match t.kind with
  | .class_ => t.parents.length ≤ 1 ∧ t.constants = []
  | .interface_ => t.interfaces = [] ∧ t.constants = []
  | .enum_ => t.parents = [] ∧ t.typeParameters = none
  | .unknown => False

structure IsWellFormed (t : TypeSummary) : Prop where
  name : IsIdentifier t.name
  modifiers : t.modifiers.Nodup
  typeParameters : ∀ g ∈ t.typeParameters, IsTypeParameters g
  parents : ∀ x ∈ t.parents, IsTypeText x
  interfaces : ∀ x ∈ t.interfaces, IsTypeText x
  constants : ∀ n ∈ t.constants, IsIdentifier n
  members : ∀ m ∈ t.members, m.IsWellFormed
  kind : t.FitsKind

end TypeSummary

structure UnitSummary.IsWellFormed (u : UnitSummary) : Prop where
  package : ∀ x ∈ u.package, IsQualifiedName x
  imports : ∀ i ∈ u.imports, IsQualifiedName i.name
  types : ∀ t ∈ u.types, t.IsWellFormed

variable {α β : Type} {layout : Layout} {ws vs : List Word}

/-! ### Things in a row -/

/-- Where each of some things has a counterpart with the same words, so have all of them in a row. -/
theorem exists_row {γ : Type} {f : β → γ} {g : α → γ} {P : β → List Word → Prop}
    {Q : α → List Word → Prop} {as : List α}
    (h : ∀ a ∈ as, ∃ b ws, f b = g a ∧ P b ws ∧ Q a ws) :
    ∃ bs ws, bs.map f = as.map g ∧ EachWords P bs ws ∧ EachWords Q as ws := by
  induction as with
  | nil => exact ⟨[], [], rfl, .nil, .nil⟩
  | cons a as ih =>
    obtain ⟨b, ws, hb, hP, hQ⟩ := h a List.mem_cons_self
    obtain ⟨bs, vs, hbs, hPs, hQs⟩ := ih fun c hc => h c (List.mem_cons_of_mem _ hc)
    exact ⟨b :: bs, _, by rw [List.map_cons, List.map_cons, hb, hbs], .cons hP hPs, .cons hQ hQs⟩

theorem exists_commaWords {P : α → List Word → Prop} {a : α} {as : List α}
    (h : ∀ b ∈ a :: as, ∃ ws, P b ws) : ∃ ws, CommaWords P (a :: as) ws := by
  induction as generalizing a with
  | nil =>
    obtain ⟨ws, hws⟩ := h a List.mem_cons_self
    exact ⟨ws, .one hws⟩
  | cons b as ih =>
    obtain ⟨ws, hws⟩ := h a List.mem_cons_self
    obtain ⟨vs, hvs⟩ := ih fun c hc => h c (List.mem_cons_of_mem _ hc)
    exact ⟨_, .cons hws hvs⟩

/-! ### Types and parameters -/

theorem IsTypeText.exists_type {x : String} (h : IsTypeText x) :
    ∃ t : TypeUse, (∃ ws, TypeWords (Angle.MayStand True) t ws) ∧ t.render = x := by
  obtain ⟨t, _, htext⟩ := h.exists_typeText
  obtain ⟨ws, hws⟩ := htext.words
  exact ⟨t, ⟨ws, hws.imp fun _ hl => hl.mayStand⟩, htext.render⟩

theorem exists_clause (k : Keyword) {xs : List String} (h : ∀ x ∈ xs, IsTypeText x) :
    ∃ ts ws, ClauseWords True k ts ws ∧ ts.map TypeUse.render = xs := by
  obtain ⟨ts, hts, rfl⟩ := exists_map_eq fun x hx => (h x hx).exists_type
  rcases ts with _ | ⟨t, ts⟩
  · exact ⟨[], [], .nil, rfl⟩
  · obtain ⟨ws, hws⟩ := exists_commaWords hts
    exact ⟨_, _, .some hws, rfl⟩

theorem exists_typeParameters {g : Option String} (h : ∀ x ∈ g, IsTypeParameters x) :
    ∃ ws, OptionWords (ParametersWords True) g ws := by
  cases g with
  | none => exact ⟨[], .none⟩
  | some x =>
    obtain ⟨ws, hws⟩ := (h x rfl).exists_words
    exact ⟨ws, .some hws⟩

theorem ParameterSummary.IsWellFormed.exists_parameter {p : ParameterSummary} (h : p.IsWellFormed) :
    ∃ q : Parameter, ((∃ ws, ParameterWords True q ws) ∧ q.annotations = []) ∧ q.summary = p := by
  obtain ⟨t, ⟨tw, htw⟩, htext⟩ := h.type.exists_type
  refine ⟨⟨[], p.isFinal, t, p.name, p.isVariadic, .single .start⟩,
    ⟨⟨_, _, _, ⟨.nil, ?_⟩, htw, h.name, rfl⟩, rfl⟩, ?_⟩
  · dsimp only
    split <;> simp
  · simp [Parameter.summary, htext]

theorem Parameter.render_summary {q : Parameter} (h : q.annotations = []) :
    q.summary.render = q.render := by
  simp only [Parameter.render, ParameterSummary.render, Parameter.summary, h, AnnotationUse.lead,
    List.map_nil, String.join_nil, String.empty_append]
  rfl

theorem exists_parameterList {ps : List ParameterSummary} (h : ∀ p ∈ ps, p.IsWellFormed) :
    ∃ qs ws, ParameterListWords True qs ws ∧ qs.map Parameter.summary = ps ∧
      ps.map ParameterSummary.render = qs.map Parameter.render := by
  obtain ⟨qs, hqs, rfl⟩ := exists_map_eq fun p hp => (h p hp).exists_parameter
  have hrender : (qs.map Parameter.summary).map ParameterSummary.render = qs.map Parameter.render := by
    rw [List.map_map]
    exact List.map_congr_left fun q hq => Parameter.render_summary (hqs q hq).2
  rcases qs with _ | ⟨q, qs⟩
  · exact ⟨[], _, .nil, rfl, hrender⟩
  · obtain ⟨ws, hws⟩ := exists_commaWords fun r hr => (hqs r hr).1
    exact ⟨_, _, .some hws, rfl, hrender⟩

/-! ### Stubs -/

/-- A literal on its own is read as it is written. -/
theorem excerptWords_literal {t : Token} (ht : t.IsReadable) (hliteral : t.kind.isLiteral = true) :
    ExcerptWords (expressionRule [Mark.semicolon]) ⟨[t]⟩ [t.written] := by
  have hkind : Excerpt.closersAfter [] t.kind = some [] ∧ t.kind ≠ .invalid ∧ ∀ next,
      (expressionRule [Mark.semicolon]).endsBefore none t.kind next = false := by
    generalize t.kind = k at hliteral
    cases k with
    | keyword k => cases k <;> first | (cases hliteral; done) | exact ⟨rfl, nofun, fun _ => rfl⟩
    | string | character | integer | float => exact ⟨rfl, nofun, fun _ => rfl⟩
    | _ => cases hliteral
  obtain ⟨hclosers, hvalid, hends⟩ := hkind
  refine ⟨⟨nofun, ?_, by simpa using hvalid, fun after _ => ?_⟩, Excerpt.isLegible (by simpa using ht) ?_, rfl⟩
  · show (Excerpt.closersAfter [] t.kind).bind _ = _
    rw [hclosers]
    rfl
  · rintro (_ | ⟨u, front⟩) v back hts -
    · cases hts
      exact hends _
    · simp at hts
  · exact fun _ _ _ hsub => absurd hsub.length_le (by simp [Excerpt.words])

/-- The values that stubs return. -/
theorem defaultReturn?_cases {x v : String} (h : defaultReturn? x = some v) :
    v ∈ ["null", "false", "0", "0.0", "'\\0'"] := by
  unfold defaultReturn? at h
  dsimp only at h
  split_ifs at h
  · cases h
    decide
  · split at h <;> cases h <;> decide

/-- The value that a stub returns is a literal. -/
theorem exists_value {x v : String} (h : defaultReturn? x = some v) :
    ∃ e : Excerpt, (∃ ws, ExcerptWords (expressionRule [Mark.semicolon]) e ws) ∧ e.render = v := by
  have hliteral (t : Token) (ht : t.IsReadable) (hk : t.kind.isLiteral = true)
      (hrender : Excerpt.render ⟨[t]⟩ = v) :
      ∃ e : Excerpt, (∃ ws, ExcerptWords (expressionRule [Mark.semicolon]) e ws) ∧ e.render = v :=
    ⟨_, ⟨_, excerptWords_literal ht hk⟩, hrender⟩
  have hcases := defaultReturn?_cases h
  simp only [List.mem_cons, List.not_mem_nil, or_false] at hcases
  obtain rfl | rfl | rfl | rfl | rfl := hcases
  · exact hliteral ⟨.keyword .null_, "null", .start⟩ (.name rfl rfl) rfl rfl
  · exact hliteral ⟨.keyword .false_, "false", .start⟩ (.name rfl rfl) rfl rfl
  · exact hliteral ⟨.integer, "0", .start⟩ (.number (.inl rfl) rfl ⟨_, _, rfl, .inl rfl⟩) rfl rfl
  · exact hliteral ⟨.float, "0.0", .start⟩ (.number (.inr rfl) rfl ⟨_, _, rfl, .inl rfl⟩) rfl rfl
  · exact hliteral ⟨.character '\x00', "'\\0'", .start⟩ (.character _ rfl) rfl rfl

/-- A comment spells nothing, if the newline behind it ends it. -/
theorem lineWrites_stubMarker (hlayout : layout.problem? = none) (hnewline : layout.newline ≠ "\r") :
    LineWrites layout stubMarker [] := by
  refine ⟨by decide, fun r vs hr => ?_, fun hlast => absurd hlast (by decide)⟩
  obtain ⟨text, hmarker, hfree⟩ : ∃ text, stubMarker.toList = '/' :: '/' :: text ∧ '\n' ∉ text :=
    ⟨_, rfl, by decide⟩
  have hline : Spells ('\n' :: r) vs := .blank rfl hr
  rcases newline_cases hlayout with h | h | h
  · rw [h, hmarker]
    exact .comment hfree hline
  · have hcomment : Spells ('/' :: '/' :: ((text ++ ['\r']) ++ '\n' :: r)) vs :=
      .comment (by simpa using hfree) hline
    rw [h, hmarker]
    simpa using hcomment
  · exact absurd h hnewline

/-- The stub of a body: a comment, and the value that is returned if there is one. -/
theorem exists_body (hlayout : layout.problem? = none) (hnewline : layout.newline ≠ "\r")
    {value : Option String} (h : ∀ v ∈ value, ∃ x, defaultReturn? x = some v) :
    ∃ (b : Block) (ws : List Word),
      BodyWords True 2 b (.mark .openBrace :: ws ++ [.mark .closeBrace]) ∧
        LinesWrite layout
          (.plain stubMarker :: value.toList.map fun v => .plain ("return " ++ v ++ ";")) ws := by
  have hmarker := LinesWrite.plain (lineWrites_stubMarker hlayout hnewline)
  cases value with
  | none => exact ⟨⟨[], .single .start⟩, [], ⟨[], .nil, rfl⟩, hmarker⟩
  | some v =>
    obtain ⟨x, hx⟩ := h v rfl
    obtain ⟨e, ⟨ws, hws⟩, rfl⟩ := exists_value hx
    have hreturn : (wordsAt True 1).RowStatementWords (.return_ (some e) (.single .start))
        (.keyword .return_ :: ws ++ [.mark .semicolon]) := .statement (.return_ (.some hws))
    have htext : Writes (Keyword.text .return_ ++ " " ++ e.render) (.keyword .return_ :: ws) Separated :=
      (writes_keyword .return_).spaced (writes_excerpt hws)
    have hline := LinesWrite.single hlayout htext.semicolon_behind (append_ne_empty (by decide))
    refine ⟨⟨[_], .single .start⟩, _, ⟨_, .cons hreturn .nil, rfl⟩, ?_⟩
    rw [List.append_nil]
    exact hmarker.append hline

/-! ### Members -/

section Members

variable (hlayout : layout.problem? = none) (hnewline : layout.newline ≠ "\r")
include hlayout hnewline

/-- A method or a constructor without its return type: its parameters, what it throws, and its stub
or the semicolon in its place. -/
theorem exists_callable {m : MemberSummary} (h : m.IsWellFormed) (style : BraceStyle)
    (inInterface : Bool) {t : Option TypeUse} {tyw : List Word} (ht : OptionWords (ReturnWords True) t tyw) :
    ∃ qs ts body gw pw tw bw, OptionWords (ParametersWords True) m.typeParameters gw ∧
      ParameterListWords True qs pw ∧ ClauseWords True .throws_ ts tw ∧ MethodBodyWords True 2 body bw ∧
      qs.map Parameter.summary = m.parameters ∧ ts.map TypeUse.render = m.throws ∧
      (m.kind ≠ .method → body.isSome = true) ∧
      LinesWrite layout (m.callableLines style inInterface (t.map TypeUse.render))
        (modifierWords m.modifiers ++ gw ++ tyw ++ .name m.name :: pw ++ tw ++ bw) := by
  obtain ⟨gw, hg⟩ := exists_typeParameters h.typeParameters
  obtain ⟨qs, pw, hps, hparameters, hrender⟩ := exists_parameterList h.parameters
  obtain ⟨ts, tw, hts, hthrows⟩ := exists_clause .throws_ h.throws
  have hheader := writes_callableHeader m.modifiers hg ht h.name hps hts
  rw [hthrows, ← hrender] at hheader
  by_cases hsignature : m.isSignatureOnly inInterface = true
  · have hline := LinesWrite.single hlayout hheader.semicolon_behind (append_ne_empty (by decide))
    refine ⟨qs, ts, none, gw, pw, tw, _, hg, hps, hts, .none, hparameters, hthrows, fun hkind => ?_, ?_⟩
    · simp [MemberSummary.isSignatureOnly, hkind] at hsignature
    · simp only [MemberSummary.callableLines, hsignature, if_true]
      exact hline
  · have hvalue : ∀ v ∈ (t.map TypeUse.render).bind defaultReturn?, ∃ x, defaultReturn? x = some v := by
      intro v hv
      obtain ⟨x, -, hx⟩ := Option.bind_eq_some_iff.mp hv
      exact ⟨x, hx⟩
    obtain ⟨b, bw, hb, hlines⟩ := exists_body hlayout hnewline hvalue
    have hbraced := LinesWrite.braced hlayout hheader hlines style
    refine ⟨qs, ts, some b, gw, pw, tw, _, hg, hps, hts, .some hb, hparameters, hthrows, fun _ => rfl, ?_⟩
    simp only [MemberSummary.callableLines, hsignature]
    simp only [List.append_assoc, List.cons_append] at hbraced ⊢
    exact hbraced

theorem MemberSummary.IsWellFormed.exists_member {m : MemberSummary} (h : m.IsWellFormed)
    (style : BraceStyle) (inInterface : Bool) :
    ∃ d ws, Member.summary? d = some m ∧ MemberWords True 2 d ws ∧
      LinesWrite layout (m.lines style inInterface) ws := by
  have hkind := h.kind
  obtain ⟨kind, name, modifiers, typeName, typeParameters, parameters, throws⟩ := m
  have hqualifiers : QualifierWords [] modifiers ([] ++ modifierWords modifiers) := .mk .nil h.modifiers
  cases kind with
  | field =>
    obtain ⟨⟨x, rfl, hx⟩, rfl, rfl, rfl⟩ := hkind
    obtain ⟨t, ⟨tw, htw⟩, rfl⟩ := hx.exists_type
    have hfield : FieldWords True ⟨modifiers, [], t, name, none, .single .start⟩ _ :=
      ⟨_, _, _, hqualifiers, htw, h.name, .none, rfl⟩
    refine ⟨.field _, _, rfl, .field hfield, ?_⟩
    have hlines := linesWrite_field hlayout hfield
    simp only [Field.lines, Field.render, AnnotationUse.lines, List.map_nil, initializerText,
      String.append_empty] at hlines
    exact hlines
  | method =>
    obtain ⟨x, rfl, hx⟩ := hkind
    obtain ⟨t, tyw, ht, rfl⟩ : ∃ (t : TypeUse) (tyw : List Word),
        ReturnWords True t tyw ∧ t.render = x := by
      obtain rfl | hx := hx
      · exact ⟨.void (.single .start), _, .void rfl rfl, rfl⟩
      · obtain ⟨t, ⟨tw, htw⟩, rfl⟩ := hx.exists_type
        exact ⟨t, tw, .type htw, rfl⟩
    obtain ⟨qs, ts, body, gw, pw, tw, bw, hg, hps, hts, hb, rfl, rfl, -, hlines⟩ :=
      exists_callable hlayout hnewline h style inInterface (.some ht)
    exact ⟨.method ⟨modifiers, [], typeParameters, t, name, qs, ts, body, .single .start⟩, _, rfl,
      .method ⟨_, _, _, _, _, _, hqualifiers, hg, ht, h.name, hps, hts, hb, rfl⟩, hlines⟩
  | constructor =>
    obtain rfl : typeName = none := hkind
    obtain ⟨qs, ts, body, gw, pw, tw, bw, hg, hps, hts, hb, rfl, rfl, hbody, hlines⟩ :=
      exists_callable hlayout hnewline h style inInterface .none
    obtain ⟨b, rfl⟩ := Option.isSome_iff_exists.mp (hbody (by simp))
    cases hb with
    | some hb =>
      rw [List.append_nil] at hlines
      exact ⟨.constructor ⟨modifiers, [], typeParameters, name, qs, ts, b, .single .start⟩, _, rfl,
        .constructor ⟨_, _, _, _, _, hqualifiers, hg, h.name, hps, hts, hb, rfl⟩, hlines⟩
  | unknown => exact absurd hkind id

theorem exists_members {ms : List MemberSummary} (h : ∀ m ∈ ms, m.IsWellFormed) (style : BraceStyle)
    (inInterface : Bool) :
    ∃ ds mw, ds.filterMap Member.summary? = ms ∧ ds.isEmpty = ms.isEmpty ∧
      EachWords (MemberWords True 2) ds mw ∧
      LinesWrite layout (MemberSummary.allLines style inInterface ms) mw := by
  obtain ⟨ds, mw, hsummary, hds, hlines⟩ := exists_row fun m hm =>
    (h m hm).exists_member hlayout hnewline style inInterface
  refine ⟨ds, mw, ?_, ?_, hds, linesWrite_spaced (fun _ _ h => h) _ hlines⟩
  · have hfilter := congrArg (List.filterMap id) hsummary
    simpa [List.filterMap_map] using hfilter
  · have hlength := congrArg List.length hsummary
    simp only [List.length_map] at hlength
    cases ds <;> cases ms <;> first | rfl | cases hlength

end Members

/-! ### Types and units -/

theorem exists_constants {ns : List String} (h : ∀ n ∈ ns, IsIdentifier n) :
    ∃ cs cw, ConstantsWords cs cw ∧ cs.map EnumConstant.name = ns ∧ cs.map EnumConstant.render = ns := by
  have hone (n : String) (hn : n ∈ ns) : ∃ k : EnumConstant,
      ((∃ ws, ConstantWords k ws) ∧ k.render = k.name) ∧ k.name = n := by
    refine ⟨⟨[], n, none, .single .start⟩, ⟨⟨_, _, _, .nil, h n hn, .none, rfl⟩, ?_⟩, rfl⟩
    simp [EnumConstant.render, AnnotationUse.lead]
  obtain ⟨cs, hcs, rfl⟩ := exists_map_eq hone
  have hrender : cs.map EnumConstant.render = cs.map EnumConstant.name :=
    List.map_congr_left fun k hk => (hcs k hk).2
  rcases cs with _ | ⟨k, cs⟩
  · exact ⟨[], [], .nil, rfl, hrender⟩
  · obtain ⟨ws, hws⟩ := exists_commaWords fun k hk => (hcs k hk).1
    exact ⟨_, _, .some hws, rfl, hrender⟩

theorem IsQualifiedName.exists_words {x : String} (h : IsQualifiedName x) : ∃ ws, QualifiedWords x ws := by
  obtain ⟨first, further, hfirst, hfurther, hx⟩ := h
  exact ⟨_, .mk hfirst hfurther hx⟩

theorem exists_package {p : Option String} (h : ∀ x ∈ p, IsQualifiedName x) :
    ∃ (q : Option PackageClause) (ws : List Word), OptionWords PackageWords q ws ∧
      q.map PackageClause.name = p := by
  cases p with
  | none => exact ⟨none, [], .none, rfl⟩
  | some x =>
    obtain ⟨nw, hnw⟩ := (h x rfl).exists_words
    exact ⟨some ⟨x, .single .start⟩, _, .some ⟨nw, hnw, rfl⟩, rfl⟩

theorem exists_imports {is : List ImportSummary} (h : ∀ i ∈ is, IsQualifiedName i.name) :
    ∃ (js : List Import) (ws : List Word), EachWords ImportWords js ws ∧
      js.map (fun j => ⟨j.name, j.isStatic, j.isWildcard⟩) = is := by
  induction is with
  | nil => exact ⟨[], [], .nil, rfl⟩
  | cons i is ih =>
    obtain ⟨nw, hnw⟩ := (h i List.mem_cons_self).exists_words
    obtain ⟨js, ws, hjs, rfl⟩ := ih fun j hj => h j (List.mem_cons_of_mem _ hj)
    exact ⟨⟨i.name, i.isStatic, i.isWildcard, .single .start⟩ :: js, _, .cons ⟨nw, hnw, rfl⟩ hjs, rfl⟩

section Types

variable (hlayout : layout.problem? = none) (hnewline : layout.newline ≠ "\r")
include hlayout hnewline

theorem TypeSummary.IsWellFormed.exists_type {t : TypeSummary} (h : t.IsWellFormed)
    (style : BraceStyle) :
    ∃ (d : TypeDeclaration) (ws : List Word), d.summary = t ∧ DeclarationWords True 2 d ws ∧
      LinesWrite layout (t.lines style) ws := by
  have hkind := h.kind
  obtain ⟨gw, hg⟩ := exists_typeParameters h.typeParameters
  obtain ⟨ps, ew, hps, hparents⟩ := exists_clause .extends_ h.parents
  obtain ⟨is, iw, his, hinterfaces⟩ := exists_clause .implements_ h.interfaces
  obtain ⟨ds, mw, hmembers, hempty, hds, hlines⟩ :=
    exists_members hlayout hnewline h.members style (t.kind = .interface_)
  obtain ⟨kind, name, modifiers, typeParameters, parents, interfaces, constants, members⟩ := t
  obtain rfl : ds.filterMap Member.summary? = members := hmembers
  obtain rfl : ps.map TypeUse.render = parents := hparents
  obtain rfl : is.map TypeUse.render = interfaces := hinterfaces
  have hqualifiers : QualifierWords [] modifiers ([] ++ modifierWords modifiers) := .mk .nil h.modifiers
  cases kind with
  | class_ =>
    obtain ⟨hone, rfl⟩ := hkind
    obtain ⟨p, rfl⟩ : ∃ p : Option TypeUse, p.toList = ps := by
      rcases ps with _ | ⟨p, _ | ⟨q, ps⟩⟩
      · exact ⟨none, rfl⟩
      · exact ⟨some p, rfl⟩
      · simp at hone
    have hbraced := LinesWrite.braced hlayout
      (writes_typeHeader (k := .class_) modifiers h.name hg hps his) hlines style
    refine ⟨⟨modifiers, [], name, .class_ typeParameters p is, ds, .single .start⟩, _, rfl,
      ⟨_, _, hqualifiers, h.name, .class_ hg hps his hds, rfl⟩, ?_⟩
    simp only [List.append_assoc, List.cons_append, List.nil_append] at hbraced ⊢
    exact hbraced
  | interface_ =>
    obtain ⟨hnone, rfl⟩ := hkind
    obtain rfl : is = [] := List.map_eq_nil_iff.mp hnone
    have hbraced := LinesWrite.braced hlayout
      (writes_typeHeader (k := .interface_) modifiers h.name hg hps .nil) hlines style
    refine ⟨⟨modifiers, [], name, .interface_ typeParameters ps, ds, .single .start⟩, _, rfl,
      ⟨_, _, hqualifiers, h.name, .interface_ hg hps hds, rfl⟩, ?_⟩
    simp only [List.append_assoc, List.cons_append, List.nil_append] at hbraced ⊢
    exact hbraced
  | enum_ =>
    obtain ⟨hnone, rfl⟩ := hkind
    obtain rfl : ps = [] := List.map_eq_nil_iff.mp hnone
    obtain ⟨cs, cw, hcs, hnames, hrender⟩ := exists_constants h.constants
    obtain rfl : cs.map EnumConstant.name = constants := hnames
    have hbraced := LinesWrite.braced hlayout
      (writes_typeHeader (k := .enum_) modifiers h.name .none .nil his)
      (linesWrite_enum hlayout hcs hlines ds.isEmpty) style
    refine ⟨⟨modifiers, [], name, .enum_ is cs, ds, .single .start⟩, _, rfl,
      ⟨_, _, hqualifiers, h.name, .enum_ his hcs hds, rfl⟩, ?_⟩
    rw [hrender, hempty] at hbraced
    rw [hempty]
    simp only [List.append_assoc, List.cons_append, List.nil_append] at hbraced ⊢
    exact hbraced
  | unknown => exact absurd hkind id

/-- There is a tree with a well-formed summary, and the skeleton spells its words. -/
theorem UnitSummary.IsWellFormed.exists_unit {u : UnitSummary} (h : u.IsWellFormed) :
    ∃ (c : CompilationUnit) (ws : List Word), c.summary = u ∧ UnitWords True 2 c ws ∧
      Spells (u.skeleton layout).text.toList ws := by
  obtain ⟨p, pw, hp, hpackage⟩ := exists_package h.package
  obtain ⟨is, iw, his, himports⟩ := exists_imports h.imports
  obtain ⟨ts, tw, htypes, hts, hlines⟩ := exists_row fun t ht =>
    (h.types t ht).exists_type hlayout hnewline layout.braceStyle
  obtain ⟨package, imports, types⟩ := u
  obtain rfl : p.map PackageClause.name = package := hpackage
  obtain rfl : is.map (fun i => ⟨i.name, i.isStatic, i.isWildcard⟩) = imports := himports
  obtain rfl : ts.map TypeDeclaration.summary = types := htypes.trans (List.map_id _)
  refine ⟨⟨p, is, ts, .single .start⟩, _, rfl, ⟨pw, iw, tw, hp, his, hts, rfl⟩, ?_⟩
  have heach : EachWords (LinesWrite layout)
      ((ts.map TypeDeclaration.summary).map (TypeSummary.lines layout.braceStyle)) tw :=
    eachWords_map (f := TypeSummary.lines layout.braceStyle) (fun _ _ h => h) hlines
  refine Page.spells_render hlayout ?_
  simp only [UnitSummary.lines, Option.map_map, List.map_map] at heach ⊢
  exact linesWrite_unitLines hlayout hp his heach

end Types

/-! ### Skeletons -/

/-- The skeleton of a well-formed summary is read without a finding, as a unit with that summary. The
caps do not come into play; a stub needs two levels. -/
theorem UnitSummary.parse_skeleton {u : UnitSummary} {layout : Layout} {options : ParseOptions}
    (h : u.IsWellFormed) (hlayout : layout.problem? = none) (hnewline : layout.newline ≠ "\r")
    (hcaps : options.Suffice (u.skeleton layout).text 2) :
    (CompilationUnit.parse (u.skeleton layout).text options).diagnostics = [] ∧
      (CompilationUnit.parse (u.skeleton layout).text options).unit.summary = u := by
  obtain ⟨c, ws, rfl, hws, hspells⟩ := h.exists_unit hlayout hnewline
  obtain ⟨hquiet, halike⟩ := parse_of_spells hspells hws hcaps
  exact ⟨hquiet, halike.summary⟩

/-- Brackets that close several lists at once, a return type with dimensions and a signature next to
a stub are written and read again. -/
theorem UnitSummary.parse_skeleton_interface :
    let find : MemberSummary := ⟨.method, "find", [.default_], some "Map<K, List<T>>[]", some "<K>",
      [⟨"keys", "K", true, true⟩], ["p.E"]⟩
    let close : MemberSummary := ⟨.method, "close", [], some "void", none, [], []⟩
    let u : UnitSummary := ⟨some "p.q", [⟨"java.util", false, true⟩],
      [⟨.interface_, "A", [.public_], some "<T extends List<? super T>>", ["B<int[], ?>"], [], [],
        [find, close]⟩]⟩
    u.IsWellFormed ∧ (CompilationUnit.parse (u.skeleton {}).text {}).diagnostics = [] ∧
      (CompilationUnit.parse (u.skeleton {}).text {}).unit.summary = u := by
  intro find close u
  have hname {x : String} (hx : IsIdentifier x) : IsTypeText x :=
    .named (List.cons_ne_nil x []) (by simpa using .plain hx) 0 (by simp [bracketText])
  have hlist {x : String} (name : String) (arguments : List String) (n : Nat) (hname : IsIdentifier name)
      (harguments : ∀ s ∈ arguments, IsTypeArgument s)
      (hx : x = name ++ ("<" ++ ", ".intercalate arguments ++ ">") ++ bracketText n) : IsTypeText x :=
    .named (List.cons_ne_nil (name ++ ("<" ++ ", ".intercalate arguments ++ ">")) [])
      (by simpa using .generic hname harguments rfl) n (by simpa using hx)
  have hT : IsTypeText "T" := hname (by decide)
  have hmap : IsTypeText "Map<K, List<T>>[]" := by
    have hinner : IsTypeText "List<T>" :=
      hlist "List" ["T"] 0 (by decide) (by simpa using .type hT) (by decide)
    refine hlist "Map" ["K", "List<T>"] 1 (by decide) ?_ (by decide)
    simpa using ⟨.type (hname (by decide)), .type hinner⟩
  have hparent : IsTypeText "B<int[], ?>" := by
    refine hlist "B" ["int[]", "?"] 0 (by decide) ?_ (by decide)
    simpa using ⟨.type (.primitive .int 1 (by decide)), .any⟩
  have hbounded : IsTypeParameter "T extends List<? super T>" := by
    have hbound : IsTypeText "List<? super T>" :=
      hlist "List" ["? super T"] 0 (by decide) (by simpa using .super_ hT (by decide)) (by decide)
    exact @IsTypeParameter.bounded _ "T" ["List<? super T>"] (by decide) (by simp) (by simpa using hbound)
      (by decide)
  have herror : IsTypeText "p.E" := by
    refine @IsTypeText.named _ ["p", "E"] (by simp) ?_ 0 (by decide)
    simpa using ⟨.plain (by decide), .plain (by decide)⟩
  have hfind : find.IsWellFormed := by
    refine ⟨by decide, by decide, ?_, ?_, by simpa [find] using herror, _, rfl, .inr hmap⟩
    · simpa [find] using @IsTypeParameters.mk _ ["K"] (by simpa using .plain (by decide)) (by decide)
    · simpa [find] using ⟨by decide, hname (by decide)⟩
  have hclose : close.IsWellFormed :=
    ⟨by decide, by decide, by simp [close], by simp [close], by simp [close], _, rfl, .inl rfl⟩
  have htypes : ∀ t ∈ u.types, t.IsWellFormed := by
    simp only [u, List.mem_singleton, forall_eq]
    refine ⟨by decide, by decide, ?_, by simpa using hparent, by simp, by simp, ?_, rfl, rfl⟩
    · simpa using @IsTypeParameters.mk _ ["T extends List<? super T>"] (by simpa using hbounded) (by decide)
    · simpa using ⟨hfind, hclose⟩
  have hu : u.IsWellFormed := by
    refine ⟨?_, ?_, htypes⟩
    · simpa [u] using ⟨"p", ["q"], by decide, by decide, by decide⟩
    · simpa [u] using ⟨"java", ["util"], by decide, by decide, by decide⟩
  have hcaps : ParseOptions.Suffice {} (u.skeleton {}).text 2 := by
    have hroom : (Input.ofSource (u.skeleton {}).text).tokens.length ≤ 100000 := by
      refine (Input.length_tokens_le _).trans ?_
      rw [UnitSummary.skeleton, Page.render, Page.text, String.toList_ofList]
      decide +kernel
    exact ⟨{}, by decide, ⟨hroom, hroom.trans (by decide), hroom⟩, rfl⟩
  exact ⟨hu, parse_skeleton hu rfl (by decide) hcaps⟩

end JavaTree
