import JavaTree.Proofs.Grammar
import JavaTree.Proofs.Lines

/-!
The parts of a line spell their words.

Each part may have a separator behind it. Most parts are put together from pieces with a space or a
bracket between them; what may follow a piece only matters for names, for the angle brackets of a
type, and for excerpts.
-/

namespace JavaTree

variable {α : Type} {ws vs : List Word} {rereads : Prop}

/-! ### Separators -/

theorem separated_nil : Separated [] := nofun

theorem separated_cons {c : Char} (hc : Pattern.isSeparator c = true) (r : List Char) :
    Separated (c :: r) := by
  rintro d hd
  cases hd
  exact hc

/-- A text that starts with a separator. -/
theorem separated_text {s t : String} (h : s.toList.head?.any Pattern.isSeparator = true) :
    Separated (s ++ t).toList := by
  rw [String.toList_append]
  rcases hs : s.toList with _ | ⟨c, cs⟩ <;> rw [hs] at h
  · cases h
  · exact separated_cons h _

theorem Separated.append {r : List Char} {t : List Char} (ht : Separated t) (hr : Separated r) :
    Separated (t ++ r) := by
  rcases t with _ | ⟨c, t⟩
  · exact hr
  · exact separated_cons (ht c rfl) _

theorem Separated.typeEnds {r : List Char} (h : Separated r) : Angle.TypeEnds r := by
  refine ⟨fun c hc => (Pattern.stops_separator (h c hc) []).name c rfl, fun c hc => ?_⟩
  exact of_decide_eq_true (Pattern.of_isSeparator (p := fun c => c ≠ '>' ∧ c ≠ '=') (by decide) (h c hc))

theorem Separated.nameEnds {r : List Char} (h : Separated r) : NameEnds r := h.typeEnds.name

theorem Separated.ends {r : List Char} (h : Separated r) (e : Excerpt) : e.Ends r :=
  fun c hc => .inl (h c hc)

namespace Writes

/-- A piece that may have a separator behind it, and one that starts with a separator, if at all. -/
theorem apart {s t : String} (hs : Writes s ws Separated) (ht : Writes t vs Separated)
    (h : Separated t.toList) : Writes (s ++ t) (ws ++ vs) Separated :=
  hs.append ht fun _ hr => h.append hr

theorem openParen : Writes "(" [.mark .openParen] Anything := alone (m := .openParen) rfl

theorem closeParen : Writes ")" [.mark .closeParen] Anything := alone (m := .closeParen) rfl

theorem openBrace : Writes "\x7b" [.mark .openBrace] Anything := alone (m := .openBrace) rfl

theorem closeBrace : Writes "\x7d" [.mark .closeBrace] Anything := alone (m := .closeBrace) rfl

theorem semicolon : Writes ";" [.mark .semicolon] Anything := alone (m := .semicolon) rfl

theorem comma : Writes "," [.mark .comma] Anything := alone (m := .comma) rfl

theorem atSign : Writes "@" [.mark .atSign] Anything := alone (m := .atSign) rfl

end Writes

/-! ### Names -/

theorem writes_identifier {x : String} (h : IsIdentifier x) : Writes x [.name x] Separated :=
  (Writes.identifier h).mono fun _ hr => hr.nameEnds

/-- What may be behind a dot. -/
def DotEnds (r : List Char) : Prop := ∃ c cs, r = c :: cs ∧ c ≠ '.' ∧ Pattern.isDigit c = false

theorem Writes.dot : Writes "." [.mark .dot] DotEnds := by
  refine Writes.of_read (by decide) rfl ?_
  rintro r ⟨c, cs, rfl, hdot, hdigit⟩
  exact Angle.read_dot hdot hdigit cs

theorem dotEnds_of_isName {s : String} (h : Pattern.isName s.toList = true) (r : List Char) :
    DotEnds (s.toList ++ r) := by
  rcases hs : s.toList with _ | ⟨c, cs⟩
  · rw [hs] at h
    cases h
  · rw [hs] at h
    simp only [Pattern.isName, Bool.and_eq_true] at h
    exact ⟨c, cs ++ r, rfl, Pattern.ne_of_isNameStart h.1 (by decide), Pattern.isDigit_eq_false h.1⟩

theorem typeEnds_dot (r : List Char) : Angle.TypeEnds ('.' :: r) := by
  refine ⟨?_, ?_⟩ <;> rintro c hc <;> cases hc <;> decide

theorem intercalate_dot (first : String) (further : List String) :
    ".".intercalate (first :: further) = first ++ String.join (further.map ("." ++ ·)) := by
  induction further generalizing first with
  | nil => simp
  | cons n further ih =>
    rw [String.intercalate_cons_cons, ih n, List.map_cons, String.join_cons]
    simp only [String.append_assoc]

/-- Texts behind a dot each, none of which starts with a dot or a digit. -/
theorem writes_dotted {f : α → String} {g : α → List Word} {further : List α}
    (h : ∀ a ∈ further, Writes (f a) (g a) Angle.TypeEnds ∧ ∀ r, DotEnds ((f a).toList ++ r)) :
    Writes (String.join (further.map fun a => "." ++ f a)) (further.flatMap fun a => .mark .dot :: g a)
      Angle.TypeEnds ∧ ∀ r, Angle.TypeEnds r →
      Angle.TypeEnds ((String.join (further.map fun a => "." ++ f a)).toList ++ r) := by
  induction further with
  | nil => exact ⟨Writes.nil _, fun r hr => hr⟩
  | cons a further ih =>
    obtain ⟨ha, hdot⟩ := h a List.mem_cons_self
    obtain ⟨hrest, hends⟩ := ih fun b hb => h b (List.mem_cons_of_mem a hb)
    constructor
    · rw [List.map_cons, String.join_cons, List.flatMap_cons]
      refine Writes.append (Writes.append Writes.dot ha fun r _ => hdot r) hrest hends
    · intro r _
      rw [List.map_cons, String.join_cons, String.toList_append, String.toList_append]
      exact typeEnds_dot _

theorem writes_qualified {x : String} (h : QualifiedWords x ws) : Writes x ws Angle.TypeEnds := by
  obtain ⟨hfirst, hfurther, rfl⟩ := h
  rw [intercalate_dot]
  obtain ⟨hrest, hends⟩ := writes_dotted (f := id) (g := fun n => [.name n]) fun n hn =>
    ⟨(Writes.identifier (hfurther n hn)).mono fun r hr => hr.name,
      dotEnds_of_isName (hfurther n hn).1⟩
  exact (Writes.identifier hfirst).append hrest fun r hr => (hends r hr).name

/-! ### Types -/

theorem writes_brackets (n : Nat) :
    Writes (String.join (List.replicate n "[]")) (bracketWords n) Anything := by
  induction n with
  | zero => exact Writes.nil _
  | succ n ih =>
    have hopen : Writes "[" [.mark .openBracket] Anything := Writes.alone (m := .openBracket) rfl
    have hclose : Writes "]" [.mark .closeBracket] Anything := Writes.alone (m := .closeBracket) rfl
    have hpair : Writes "[]" [.mark .openBracket, .mark .closeBracket] Anything :=
      hopen.append_anything hclose
    rw [List.replicate_succ, String.join_cons]
    exact hpair.append_anything ih

theorem brackets_separated (n : Nat) : Separated (String.join (List.replicate n "[]")).toList := by
  cases n with
  | zero => exact separated_nil
  | succ n =>
    rw [List.replicate_succ, String.join_cons, String.toList_append]
    exact separated_cons rfl _

theorem head_listText {us : List Word} (h : Angle.IsWritten us) :
    ∃ cs, (Angle.text none us).toList = '<' :: cs := by
  obtain ⟨vs, rfl⟩ := List.head?_eq_some_iff.mp h.opens
  refine ⟨(Angle.text (some (.mark .less)) vs).toList, ?_⟩
  rw [Angle.text_cons]
  simp [Angle.isApart, Angle.hasSpace, Word.mark, Mark.chars]

theorem writes_segment {g : Segment} (h : g.Holds Angle.IsWritten) :
    Writes g.text g.words Angle.TypeEnds := by
  obtain ⟨x, _ | us⟩ := g
  · simp only [Segment.text, Segment.words, Segment.listWords, Option.map_none, Option.getD_none,
      String.append_empty]
    exact (Writes.identifier h.name).mono fun r hr => hr.name
  · have hus : Angle.IsWritten us := h.list us rfl
    refine (Writes.identifier h.name).append (hus.writes.mono fun r hr => hr.greater) fun r _ => ?_
    obtain ⟨cs, hcs⟩ := head_listText hus
    intro c hc
    simp only [Option.map_some, Option.getD_some, hcs] at hc
    cases hc
    decide

theorem dotEnds_segment {L : List Word → Prop} {g : Segment} (h : g.Holds L) (r : List Char) :
    DotEnds (g.text.toList ++ r) := by
  rw [Segment.text, String.toList_append, List.append_assoc]
  exact dotEnds_of_isName h.name.1 _

theorem writes_typeName {x : String} (h : TypeNameWords Angle.IsWritten x ws) :
    Writes x ws Angle.TypeEnds := by
  cases h with
  | primitive p hx =>
    rw [hx]
    exact (Writes.keyword (.primitive p)).mono fun r hr => hr.name
  | named hfirst hfurther hx =>
    obtain ⟨hrest, hends⟩ := writes_dotted (f := Segment.text) (g := Segment.words) fun g hg =>
      ⟨writes_segment (hfurther g hg), dotEnds_segment (hfurther g hg)⟩
    rw [hx]
    exact (writes_segment hfirst).append hrest hends

theorem writes_type {t : TypeUse} (h : TypeWords Angle.IsWritten t ws) :
    Writes t.render ws Angle.TypeEnds := by
  obtain ⟨vs, hname, rfl⟩ := h
  refine (writes_typeName hname).append ((writes_brackets _).mono fun _ _ => trivial) fun r hr => ?_
  cases t.dimensions with
  | zero => exact hr
  | succ n =>
    rw [List.replicate_succ, String.join_cons, String.toList_append]
    exact (separated_cons rfl _).typeEnds

theorem writes_typeUse {t : TypeUse} (h : TypeWords (Angle.MayStand rereads) t ws) :
    Writes t.render ws Separated :=
  (writes_type h.written).mono fun _ hr => hr.typeEnds

theorem writes_return {t : TypeUse} (h : ReturnWords rereads t ws) :
    Writes t.render ws Angle.TypeEnds := by
  cases h with
  | void hname hdim =>
    rw [TypeUse.render, hname, hdim]
    exact (Writes.keyword .void_).mono fun r hr => hr.name
  | type h => exact writes_type h.written

theorem writes_parameters {x : String} (h : ParametersWords rereads x ws) :
    Writes x ws Angle.TypeEnds := by
  obtain ⟨hus, rfl⟩ := h
  exact hus.written.writes.mono fun r hr => hr.greater

/-! ### Lists -/

theorem writes_commaList {P : α → List Word → Prop} {f : α → String}
    (hP : ∀ a ws, P a ws → Writes (f a) ws Separated) {as : List α} (h : CommaWords P as ws) :
    Writes (commaList (as.map f)) ws Separated := by
  induction h with
  | one ha =>
    rw [List.map_singleton, commaList, String.intercalate_singleton]
    exact hP _ _ ha
  | @cons a as ws vs ha has ih =>
    obtain ⟨b, bs, rfl⟩ : ∃ b bs, as = b :: bs := by cases has <;> exact ⟨_, _, rfl⟩
    have hcomma : Writes ", " [.mark .comma] Anything :=
      Writes.comma.append_anything (Writes.space Anything)
    rw [List.map_cons, List.map_cons, commaList, String.intercalate_cons_cons, String.append_assoc]
    exact (hP a ws ha).apart (hcomma.append_anything ih) (separated_text rfl)

theorem writes_clause {k : Keyword} {ts : List TypeUse} (h : ClauseWords rereads k ts ws) :
    Writes (clause k.text (ts.map TypeUse.render)) ws Separated := by
  cases h with
  | nil => exact Writes.nil _
  | some h =>
    have hne : (ts.map TypeUse.render).isEmpty = false := by cases h <;> rfl
    have htypes := writes_commaList (P := TypeWords (Angle.MayStand rereads)) (f := TypeUse.render)
      (fun _ _ => writes_typeUse) h
    have hword : Writes (" " ++ k.text) [.keyword k] Separated :=
      (Writes.space Anything).append_anything ((Writes.keyword k).mono fun r hr => hr.nameEnds)
    rw [clause, hne, if_neg nofun, String.append_assoc]
    exact hword.apart ((Writes.space Anything).append_anything htypes) (separated_text rfl)

theorem clause_separated (word : String) (texts : List String) :
    Separated (clause word texts).toList := by
  unfold clause
  split
  · exact separated_nil
  · rw [String.append_assoc, String.append_assoc]
    exact separated_text rfl

theorem writes_modifiers (ms : List Modifier) :
    Writes (Modifier.lead ms) (modifierWords ms) Anything := by
  induction ms with
  | nil => exact Writes.nil _
  | cons m ms ih =>
    have hword : Writes (m.text ++ " ") [.keyword (.modifier m)] Anything := by
      refine (Writes.keyword (.modifier m)).append (Writes.space Anything) fun r _ => ?_
      exact (separated_cons rfl r).nameEnds
    rw [Modifier.lead, List.map_cons, String.join_cons]
    exact hword.append_anything ih

/-! ### Excerpts and annotations -/

theorem writes_excerpt {rule : Parser.CaptureRule} {e : Excerpt} (h : ExcerptWords rule e ws) :
    Writes e.render ws Separated := by
  rw [h.words]
  exact h.legible.mono fun r hr => hr.ends e

theorem writes_paren {e : Excerpt} (h : ParenWords e ws) :
    Writes ("(" ++ e.render ++ ")") ws Anything := by
  obtain ⟨vs, he, rfl⟩ := h
  refine Writes.append (Writes.openParen.append_anything (writes_excerpt he)) Writes.closeParen ?_
  exact fun r _ => separated_cons rfl r

theorem writes_arguments {e : Excerpt} (h : ArgumentsWords e ws) :
    Writes ("(" ++ e.render ++ ")") ws Anything := by
  cases h with
  | empty => exact Writes.openParen.append_anything Writes.closeParen
  | some h => exact writes_paren h

theorem writes_annotationUse {a : AnnotationUse} (h : AnnotationWords a ws) :
    Writes a.render ws Separated := by
  obtain ⟨nw, aw, hname, hargs, rfl⟩ := h
  obtain ⟨x, args, sp⟩ := a
  have hat : Writes ("@" ++ x) (.mark .atSign :: nw) Separated :=
    Writes.atSign.append_anything ((writes_qualified hname).mono fun r hr => hr.typeEnds)
  cases hargs with
  | none =>
    rw [List.append_nil]
    exact hat
  | some h =>
    rw [AnnotationUse.render]
    simp only [String.append_assoc] at hat ⊢
    rw [← String.append_assoc]
    have hparen := writes_arguments h
    rw [String.append_assoc] at hparen
    exact hat.apart (hparen.mono fun _ _ => trivial) (separated_text rfl)

theorem writes_annotations {as : List AnnotationUse} (h : EachWords AnnotationWords as ws) :
    Writes (AnnotationUse.lead as) ws Anything := by
  induction h with
  | nil => exact Writes.nil _
  | cons ha _ ih =>
    have hspaced := (writes_annotationUse ha).append (Writes.space Anything)
      fun r _ => separated_cons rfl r
    rw [List.append_nil] at hspaced
    rw [AnnotationUse.lead, List.map_cons, String.join_cons]
    exact hspaced.append_anything ih

/-! ### Declarations -/

theorem writes_initializer {e : Option Excerpt} (h : OptionWords InitializerWords e ws) :
    Writes (initializerText e) ws Separated ∧ Separated (initializerText e).toList := by
  cases h with
  | none => exact ⟨Writes.nil _, separated_nil⟩
  | some h =>
    obtain ⟨vs, he, rfl⟩ := h
    have hassign : Writes (" " ++ "=") [.mark .assign] Separated :=
      (Writes.space Anything).append_anything (Writes.mark .assign)
    refine ⟨?_, separated_text rfl⟩
    show Writes ((" " ++ "=") ++ " " ++ _) _ _
    rw [String.append_assoc]
    exact hassign.apart ((Writes.space Anything).append_anything (writes_excerpt he))
      (separated_text rfl)

/-- Two texts that may have a separator behind them, with a space between. -/
theorem Writes.spaced {s t : String} (hs : Writes s ws Separated) (ht : Writes t vs Separated) :
    Writes (s ++ " " ++ t) (ws ++ vs) Separated := by
  rw [String.append_assoc]
  exact hs.apart ((Writes.space Anything).append_anything ht) (separated_text rfl)

theorem writes_declarator {d : Declarator} (h : DeclaratorWords d ws) :
    Writes d.render ws Separated := by
  obtain ⟨iw, hname, hinit, rfl⟩ := h
  obtain ⟨hinit, happart⟩ := writes_initializer hinit
  refine Writes.apart ?_ hinit happart
  exact (writes_identifier hname).apart ((writes_brackets _).mono fun _ _ => trivial)
    (brackets_separated _)

/-- A field without what stands before its type. -/
theorem writes_variable {t : TypeUse} {x : String} {e : Option Excerpt} {tw iw : List Word}
    (ht : TypeWords (Angle.MayStand rereads) t tw) (hname : IsIdentifier x)
    (hinit : OptionWords InitializerWords e iw) :
    Writes (t.render ++ " " ++ x ++ initializerText e) (tw ++ .name x :: iw) Separated := by
  obtain ⟨hinit, happart⟩ := writes_initializer hinit
  have hnamed := ((writes_typeUse ht).spaced (writes_identifier hname)).apart hinit happart
  rwa [List.append_assoc] at hnamed

theorem writes_field {f : Field} {tw iw : List Word} (ht : TypeWords (Angle.MayStand rereads) f.type tw)
    (hname : IsIdentifier f.name) (hinit : OptionWords InitializerWords f.initializer iw) :
    Writes f.render (modifierWords f.modifiers ++ (tw ++ .name f.name :: iw)) Separated := by
  have h := (writes_modifiers f.modifiers).append_anything (writes_variable ht hname hinit)
  rw [Field.render]
  simp only [String.append_assoc] at h ⊢
  exact h

/-- The ellipsis behind the type of the last parameter. -/
theorem writes_variadic {s : String} (hs : Writes s ws Angle.TypeEnds) (isVariadic : Bool) :
    Writes (s ++ if isVariadic then "..." else "")
      (ws ++ if isVariadic then [.mark .ellipsis] else []) Separated := by
  cases isVariadic with
  | true => exact hs.append (Writes.mark .ellipsis) fun _ _ => typeEnds_dot _
  | false =>
    simp only [Bool.false_eq_true, if_false, String.append_empty, List.append_nil]
    exact hs.mono fun _ hr => hr.typeEnds

theorem lead_final (isFinal : Bool) :
    (if isFinal then "final " else "") = Modifier.lead (if isFinal then [.final_] else []) := by
  cases isFinal <;> rfl

theorem writes_parameter {p : Parameter} (h : ParameterWords rereads p ws) :
    Writes p.render ws Separated := by
  obtain ⟨qw, tw, ⟨has, -⟩, ht, hname, rfl⟩ := h
  have hvariable := (writes_variadic (writes_type ht.written) p.isVariadic).spaced (writes_identifier hname)
  have hparameter := ((writes_annotations has).append_anything
    (writes_modifiers (if p.isFinal then [.final_] else []))).append_anything hvariable
  rw [Parameter.render, lead_final]
  simp only [String.append_assoc, List.append_assoc] at hparameter ⊢
  exact hparameter

theorem writes_constant {k : EnumConstant} (h : ConstantWords k ws) : Writes k.render ws Separated := by
  obtain ⟨nw, aw, has, hname, hargs, rfl⟩ := h
  obtain ⟨as, x, args, sp⟩ := k
  have hnamed := (writes_annotations has).append_anything (writes_identifier hname)
  cases hargs with
  | none =>
    simp only [EnumConstant.render, String.append_empty]
    exact hnamed
  | some h =>
    have harguments := hnamed.apart ((writes_arguments h).mono fun _ _ => trivial)
      (by rw [String.append_assoc]; exact separated_text rfl)
    rw [List.append_assoc] at harguments
    exact harguments

/-! ### Headers -/

/-- A text that may be missing. -/
theorem writes_option {P : String → List Word → Prop} {o : Option String} (h : OptionWords P o ws)
    {behind : List Char → Prop} (hP : ∀ x ws, P x ws → Writes x ws behind) :
    Writes (o.getD "") ws behind := by
  cases h with
  | none => exact Writes.nil _
  | some h => exact hP _ _ h

theorem nameEnds_parameters {g : Option String} (h : OptionWords (ParametersWords rereads) g ws)
    {r : List Char} (hr : NameEnds r) : NameEnds ((g.getD "").toList ++ r) := by
  cases h with
  | none => exact hr
  | some h =>
    obtain ⟨hus, rfl⟩ := h
    obtain ⟨cs, hcs⟩ := head_listText hus.written
    rintro c hc
    simp only [Option.getD_some, hcs] at hc
    cases hc
    decide

/-- The header of a type. -/
theorem writes_typeHeader {k : Keyword} {x : String} {g : Option String} {ps is : List TypeUse}
    {gw ew iw : List Word} (ms : List Modifier) (hname : IsIdentifier x)
    (hg : OptionWords (ParametersWords rereads) g gw) (hps : ClauseWords rereads .extends_ ps ew)
    (his : ClauseWords rereads .implements_ is iw) :
    Writes (typeHeader k.text ms x g (ps.map TypeUse.render) (is.map TypeUse.render))
      (modifierWords ms ++ .keyword k :: .name x :: gw ++ ew ++ iw) Separated := by
  have hnamed : Writes (x ++ g.getD "") (.name x :: gw) Separated := by
    refine (Writes.identifier hname).append
      (writes_option hg fun _ _ hx => (writes_parameters hx).mono fun _ hr => hr.typeEnds) fun r hr => ?_
    exact nameEnds_parameters hg hr.nameEnds
  have hword : Writes k.text [.keyword k] Separated :=
    (Writes.keyword k).mono fun _ hr => hr.nameEnds
  have hclauses := ((hword.spaced hnamed).apart (writes_clause hps) (clause_separated _ _)).apart
    (writes_clause his) (clause_separated _ _)
  have hheader := (writes_modifiers ms).append_anything hclauses
  rw [typeHeader]
  simp only [String.append_assoc, List.append_assoc, List.cons_append, List.nil_append] at hheader ⊢
  exact hheader

theorem writes_parameterList {ps : List Parameter} (h : ParameterListWords rereads ps ws) :
    Writes ("(" ++ commaList (ps.map Parameter.render) ++ ")") ws Anything := by
  cases h with
  | nil => exact Writes.openParen.append_anything Writes.closeParen
  | some h =>
    have hlist := writes_commaList (P := ParameterWords rereads) (f := Parameter.render)
      (fun _ _ => writes_parameter) h
    exact (Writes.openParen.append_anything hlist).append Writes.closeParen
      fun r _ => separated_cons rfl r

/-- A text with a space behind it. -/
theorem Writes.before_space {s : String} (h : Writes s ws Separated) : Writes (s ++ " ") ws Anything := by
  have hspaced := h.append (Writes.space Anything) fun r _ => separated_cons rfl r
  rwa [List.append_nil] at hspaced

/-- A text with a space behind it, or nothing. -/
theorem writes_beforeSpace {P : String → List Word → Prop} {o : Option String}
    (hP : ∀ s ws, P s ws → Writes s ws Separated) : OptionWords P o ws →
    Writes (match o with
      | some s => s ++ " "
      | none => "") ws Anything := by
  intro h
  cases h with
  | none => exact Writes.nil _
  | some h => exact (hP _ _ h).before_space

/-- The header of a method, or of a constructor if there is no return type. -/
theorem writes_callableHeader {g : Option String} {t : Option TypeUse} {x : String}
    {ps : List Parameter} {ts : List TypeUse} {gw tyw pw tw : List Word} (ms : List Modifier)
    (hg : OptionWords (ParametersWords rereads) g gw) (ht : OptionWords (ReturnWords rereads) t tyw)
    (hname : IsIdentifier x) (hps : ParameterListWords rereads ps pw)
    (hts : ClauseWords rereads .throws_ ts tw) :
    Writes (callableHeader ms g (t.map TypeUse.render) x (ps.map Parameter.render)
      (ts.map TypeUse.render)) (modifierWords ms ++ gw ++ tyw ++ .name x :: pw ++ tw) Separated := by
  have hlist := writes_parameterList hps
  rw [String.append_assoc] at hlist
  have hnamed := ((writes_identifier hname).apart (hlist.mono fun _ _ => trivial)
    (separated_text rfl)).apart (writes_clause hts) (clause_separated _ _)
  have htype : OptionWords (fun s ws => ∃ u : TypeUse, ReturnWords rereads u ws ∧ s = u.render)
      (t.map TypeUse.render) tyw := by
    cases ht with
    | none => exact .none
    | some h => exact .some ⟨_, h, rfl⟩
  have htyped := writes_beforeSpace (fun s ws hs => by
    obtain ⟨u, hu, rfl⟩ := hs
    exact (writes_return hu).mono fun _ hr => hr.typeEnds) htype
  have hparameters := writes_beforeSpace (fun s ws hs =>
    (writes_parameters hs).mono fun _ hr => hr.typeEnds) hg
  have hheader := (writes_modifiers ms).append_anything
    (hparameters.append_anything (htyped.append_anything hnamed))
  rw [callableHeader]
  simp only [String.append_assoc, List.append_assoc, List.cons_append, List.nil_append] at hheader ⊢
  exact hheader

/-! ### Clauses of a unit -/

theorem writes_import {i : Import} (h : ImportWords i ws) :
    Writes (importText i.name i.isStatic i.isWildcard) ws Anything := by
  obtain ⟨nw, hname, rfl⟩ := h
  have hword : Writes "import " [.keyword .import_] Anything :=
    ((Writes.keyword .import_).mono fun _ hr => hr.nameEnds).before_space
  have hstatic : Writes (if i.isStatic then "static " else "")
      (if i.isStatic then [.keyword (.modifier .static_)] else []) Anything := by
    cases i.isStatic with
    | true => exact ((Writes.keyword (.modifier .static_)).mono fun _ hr => hr.nameEnds).before_space
    | false => exact Writes.nil _
  have hnamed : Writes (i.name ++ if i.isWildcard then ".*" else "")
      (nw ++ if i.isWildcard then [.mark .dot, .mark .star] else []) Separated := by
    cases i.isWildcard with
    | true =>
      have hstar : Writes ("." ++ "*") [.mark .dot, .mark .star] Separated :=
        Writes.dot.append (Writes.mark .star) fun r _ => ⟨'*', r, rfl, by decide, by decide⟩
      exact (writes_qualified hname).append hstar fun _ _ => typeEnds_dot _
    | false =>
      simp only [Bool.false_eq_true, if_false, String.append_empty, List.append_nil]
      exact (writes_qualified hname).mono fun _ hr => hr.typeEnds
  have himport := (hword.append_anything hstatic).append_anything
    (hnamed.append Writes.semicolon fun r _ => separated_cons rfl r)
  rw [importText]
  simp only [String.append_assoc, List.append_assoc, List.cons_append, List.nil_append] at himport ⊢
  exact himport

theorem writes_package {p : PackageClause} (h : PackageWords p ws) :
    Writes ("package " ++ p.name ++ ";") ws Anything := by
  obtain ⟨nw, hname, rfl⟩ := h
  have hword : Writes "package " [.keyword .package_] Anything :=
    ((Writes.keyword .package_).mono fun _ hr => hr.nameEnds).before_space
  have hnamed : Writes p.name nw Separated := (writes_qualified hname).mono fun _ hr => hr.typeEnds
  exact (hword.append_anything hnamed).append Writes.semicolon fun r _ => separated_cons rfl r

end JavaTree
