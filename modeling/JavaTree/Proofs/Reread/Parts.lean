import JavaTree.Proofs.Reread.Types

/-!
Excerpts, annotations, modifiers and variables are read back from their words.

What is read is written like what the words were taken from: the places in it are other ones, and
literals are spelled as they are written.
-/

namespace JavaTree.Parser

variable {α β : Type} {c : Settings} {s : State} {ts rest mid : List Token} {w : Word}
  {ws vs : List Word} {R : α → Prop}

/-! ### Excerpts -/

/-- Kinds of tokens before which an excerpt ends. -/
def EndsExcerpt (rule : CaptureRule) (k : Kind) : Prop :=
  rule.stops.contains k = true ∧ k ≠ .mark .dot ∧ k ≠ .invalid

instance (rule : CaptureRule) (k : Kind) : Decidable (EndsExcerpt rule k) :=
  inferInstanceAs (Decidable (_ ∧ _ ∧ _))

theorem extent_of_endsExcerpt {rule : CaptureRule} (hrest : EndsExcerpt rule (kindOf rest))
    (cap : Nat) (previous : Option Kind) : extent rule cap [] previous rest = (0, .complete) := by
  rcases rest with _ | ⟨t, ts⟩
  · simp [extent]
  · obtain ⟨hstop, -, hvalid⟩ := hrest
    have hends : rule.endsBefore previous t.kind (kindOf ts) = true := by
      rw [endsBefore_eq]
      simp only [Bool.or_eq_true]
      exact .inl (.inl hstop)
    have hvalid : ¬ t.kind = .invalid := hvalid
    simp only [extent, hvalid, if_false, List.isEmpty_nil, hends, Bool.and_self, if_true]

theorem yields_excerpt {rule : CaptureRule} {e : Excerpt} (h : ExcerptWords rule e ws)
    (hs : Begins s.rest ws rest) (hrest : EndsExcerpt rule (kindOf rest)) (what : String) :
    Yields c s (excerpt rule what) rest fun e' => e'.render = e.render := by
  intro hroom
  obtain ⟨⟨hne, hbalanced, hvalid, hpasses⟩, -, rfl⟩ := h
  obtain ⟨us, hus, hword⟩ := hs
  have halike : Alike us e.tokens := alike_of_word hword
  have hkinds := halike.sameKinds
  have hlen : us.length ≠ 0 := by
    rw [hkinds.length_eq]
    exact fun h0 => hne (List.length_eq_zero_iff.mp h0)
  have hle : us.length ≤ c.limits.excerptTokens := by
    have hroom := hroom.tokens
    rw [hus, List.length_append] at hroom
    omega
  have hvalid' : ∀ t ∈ us, t.kind ≠ .invalid := by
    intro t ht
    have hmem : t.kind ∈ e.tokens.map Token.kind := by
      rw [← show us.map Token.kind = _ from hkinds]
      exact List.mem_map_of_mem ht
    obtain ⟨u, hu, huk⟩ := List.mem_map.mp hmem
    rw [← huk]
    exact hvalid u hu
  have hextent : extent rule c.limits.excerptTokens [] none s.rest = (us.length, .complete) := by
    rw [hus]
    refine extent_eq_complete ?_ hvalid' ((hpasses rest hrest.2.1).congr hkinds) hle fun cap => ?_
    · rw [Excerpt.openBrackets_congr hkinds]
      exact hbalanced
    · exact extent_of_endsExcerpt hrest cap _
  have htake : s.rest.take us.length = us := by
    rw [hus, List.take_left]
  refine ⟨⟨us⟩, s.skip us.length, ?_, ?_, rfl, hroom.of_le ?_, Spacing.render_congr halike⟩
  · rw [excerpt_eq_ok]
    exact ⟨us.length, hlen, hextent, by rw [htake], rfl⟩
  · rw [skip_rest, hus, List.drop_left]
  · rw [hus, List.length_append]
    omega

/-- An excerpt does not start with what ends it, nor with a closing bracket. -/
theorem kindOf_of_excerptWords {rule : CaptureRule} {e : Excerpt} (h : ExcerptWords rule e ws)
    (hs : Begins ts (ws ++ vs) rest) {k : Kind}
    (hk : rule.stops.contains k = true ∨ isCloser k = true) : kindOf ts ≠ k := by
  rintro rfl
  obtain ⟨⟨hne, -, -, hpasses⟩, -, rfl⟩ := h
  obtain ⟨t, us, hts⟩ := List.exists_cons_of_ne_nil hne
  have hkind : kindOf ts = t.kind := by
    rw [Excerpt.words, hts] at hs
    exact Begins.kindOf hs
  have hpass := hpasses [] (by decide) [] t us hts rfl
  rw [endsBefore_eq] at hpass
  simp only [Bool.or_eq_false_iff] at hpass
  rw [hkind, hpass.1.1, hpass.1.2] at hk
  rcases hk with hk | hk <;> cases hk

theorem yields_parenthesized {e : Excerpt} (h : ParenWords e ws) (hs : Begins s.rest ws rest)
    (what : String) : Yields c s (parenthesized what) rest fun e' => e'.render = e.render := by
  obtain ⟨vs, he, rfl⟩ := h
  refine yields_require hs rfl _ fun s₁ hs₁ => ?_
  refine Yields.then hs₁ (fun mid hmid hbehind => yields_excerpt he hmid ?_ what)
    fun e' s₂ hs₂ he' => ?_
  · rw [hbehind.kindOf]
    decide
  · refine yields_require hs₂ rfl _ fun s₃ hs₃ => ?_
    exact yields_pure (begins_nil.mp hs₃) he'

theorem yields_arguments {e : Excerpt} (h : ArgumentsWords e ws) (hs : Begins s.rest ws rest)
    (what : String) : Yields c s (arguments what) rest fun e' => e'.render = e.render := by
  cases h with
  | empty =>
    refine yields_require hs rfl _ fun s₁ hs₁ => ?_
    have hkind : kindOf s₁.rest = .mark .closeParen := hs₁.kindOf
    rw [yields_check, if_pos (by simpa using hkind), pure_bind]
    refine yields_require hs₁ rfl _ fun s₂ hs₂ => ?_
    exact yields_pure (begins_nil.mp hs₂) rfl
  | some h =>
    obtain ⟨vs, he, rfl⟩ := h
    refine yields_require hs rfl _ fun s₁ hs₁ => ?_
    have hkind : kindOf s₁.rest ≠ .mark .closeParen := kindOf_of_excerptWords he hs₁ (.inr rfl)
    rw [yields_check, if_neg (by simpa using hkind)]
    refine Yields.then hs₁ (fun mid hmid hbehind => yields_excerpt he hmid ?_ what)
      fun e' s₂ hs₂ he' => ?_
    · rw [hbehind.kindOf]
      decide
    · refine yields_require hs₂ rfl _ fun s₃ hs₃ => ?_
      exact yields_pure (begins_nil.mp hs₃) he'

/-- Arguments that are written alike. -/
def AlikeArguments (a b : Option Excerpt) : Prop := a.map Excerpt.render = b.map Excerpt.render

theorem yields_optionalArguments {e : Option Excerpt} (h : OptionWords ArgumentsWords e ws)
    (hs : Begins s.rest ws rest) (hrest : kindOf rest ≠ .mark .openParen) (what : String) :
    Yields c s (optionalArguments what) rest (AlikeArguments · e) := by
  rw [optionalArguments, yields_check]
  cases h with
  | none =>
    have hs : s.rest = rest := begins_nil.mp hs
    rw [if_neg (by simpa [hs] using hrest)]
    exact yields_pure hs rfl
  | some h =>
    obtain ⟨vs, rfl⟩ := h.head
    have hkind : kindOf s.rest = .mark .openParen := hs.kindOf
    rw [if_pos (by simpa using hkind)]
    refine (yields_arguments h hs what).bind fun e' s₁ hs₁ he' => yields_pure hs₁ ?_
    rw [AlikeArguments, Option.map_some, Option.map_some, he']

/-! ### Annotations and modifiers -/

/-- What may follow an annotation. -/
def EndsAnnotated (k : Kind) : Prop := k ≠ .mark .dot ∧ k ≠ .mark .openParen

instance (k : Kind) : Decidable (EndsAnnotated k) := inferInstanceAs (Decidable (_ ∧ _))

theorem annotationRender_congr {a b : AnnotationUse} (hname : a.name = b.name)
    (h : AlikeArguments a.arguments b.arguments) : a.render = b.render := by
  obtain ⟨x, args, l⟩ := a
  obtain ⟨y, args', l'⟩ := b
  obtain rfl : x = y := hname
  rw [AlikeArguments] at h
  rcases args with _ | e <;> rcases args' with _ | e'
  · rfl
  · cases h
  · cases h
  · have hrender : e.render = e'.render := by simpa using h
    simp only [AnnotationUse.render, hrender]

theorem yields_annotationUse {a : AnnotationUse} (h : AnnotationWords a ws)
    (hs : Begins s.rest ws rest) (hrest : EndsAnnotated (kindOf rest)) :
    Yields c s annotationUse rest fun b => b.render = a.render := by
  obtain ⟨nw, aw, hname, hargs, rfl⟩ := h
  rw [annotationUse, yields_here]
  refine yields_require hs rfl _ fun s₁ hs₁ => ?_
  refine Yields.then hs₁ (fun mid hmid hbehind => yields_qualifiedName hname hmid ?_)
    fun x s₂ hs₂ hx => ?_
  · refine startsWith_eq_false ?_
    generalize a.arguments = args at hargs
    cases hargs with
    | none =>
      rw [begins_nil.mp hbehind]
      exact hrest.1
    | some h =>
      obtain ⟨vs, rfl⟩ := h.head
      rw [hbehind.kindOf]
      exact nofun
  · refine (yields_optionalArguments hargs hs₂ hrest.2 _).bind fun args s₃ hs₃ halike => ?_
    rw [yields_spanFrom]
    exact yields_pure hs₃ (annotationRender_congr hx halike)

/-- Annotations that are written alike. -/
def AlikeAnnotations (as bs : List AnnotationUse) : Prop :=
  as.map AnnotationUse.render = bs.map AnnotationUse.render

theorem annotationLead_congr {as bs : List AnnotationUse} (h : AlikeAnnotations as bs) :
    AnnotationUse.lead as = AnnotationUse.lead bs := by
  have hmap (as : List AnnotationUse) : as.map (fun a => a.render ++ " ") =
      (as.map AnnotationUse.render).map (· ++ " ") := by
    rw [List.map_map]
    rfl
  rw [AnnotationUse.lead, AnnotationUse.lead, hmap, hmap, h]

theorem annotationLines_congr {as bs : List AnnotationUse} (h : AlikeAnnotations as bs) :
    AnnotationUse.lines as = AnnotationUse.lines bs := by
  have hmap (as : List AnnotationUse) : as.map (fun a => Line.plain a.render) =
      (as.map AnnotationUse.render).map Line.plain := by
    rw [List.map_map]
    rfl
  rw [AnnotationUse.lines, AnnotationUse.lines, hmap, hmap, h]

theorem looksAnnotated_of_words {a : AnnotationUse} (h : AnnotationWords a ws)
    (hs : Begins ts (ws ++ vs) rest) : looksAnnotated ts = true ∧ kindOf ts = .mark .atSign := by
  obtain ⟨nw, aw, hname, -, rfl⟩ := h
  obtain ⟨-, -, -⟩ := hname
  have hfirst : kindOf ts = .mark .atSign := Begins.kindOf hs
  have hsecond : kindOf (ts.drop 1) = .identifier := Begins.kindOf (Begins.tail hs)
  refine ⟨?_, hfirst⟩
  rw [looksAnnotated, hfirst, hsecond]
  rfl

/-- Annotations in a row are read one by one, whatever their reader does with them. -/
theorem annotationsWords_cases {as : List AnnotationUse} (h : EachWords AnnotationWords as ws)
    (hs : Begins ts ws rest) (hrest : EndsAnnotated (kindOf rest)) :
    EndsAnnotated (kindOf ts) := by
  cases h with
  | nil =>
    rw [begins_nil.mp hs]
    exact hrest
  | cons ha _ =>
    rw [(looksAnnotated_of_words ha hs).2]
    decide

theorem yields_annotations {as : List AnnotationUse} (h : EachWords AnnotationWords as ws)
    (hs : Begins s.rest ws rest) (hrest : EndsAnnotated (kindOf rest))
    (hno : looksAnnotated rest = false) {n : Nat} (hn : as.length ≤ n) :
    Yields c s (annotations n) rest (AlikeAnnotations · as) := by
  induction h generalizing s n with
  | nil =>
    have hs : s.rest = rest := begins_nil.mp hs
    cases n with
    | zero => exact yields_pure hs rfl
    | succ n =>
      rw [annotations, yields_rest, hs, if_neg (by rw [hno]; exact nofun)]
      exact yields_pure hs rfl
  | @cons a as aw vs ha has ih =>
    obtain ⟨n, rfl⟩ : ∃ m, n = m + 1 := ⟨n - 1, by simp only [List.length_cons] at hn; omega⟩
    rw [annotations, yields_rest, if_pos (looksAnnotated_of_words ha hs).1]
    refine Yields.then hs (fun mid hmid hbehind => yields_annotationUse ha hmid ?_)
      fun b s₁ hs₁ hb => ?_
    · exact annotationsWords_cases has hbehind hrest
    · refine (ih hs₁ ?_).bind fun bs s₂ hs₂ hbs => yields_pure hs₂ ?_
      · simp only [List.length_cons] at hn
        omega
      · rw [AlikeAnnotations, List.map_cons, List.map_cons, hb, hbs]

/-- What may follow annotations and modifiers. -/
structure EndsQualifiers (ts : List Token) : Prop where
  annotation : EndsAnnotated (kindOf ts)
  noAnnotation : looksAnnotated ts = false
  noModifier : (kindOf ts).modifier? = none

theorem yields_modifiers {ms : List Modifier} (hs : Begins s.rest (modifierWords ms) rest)
    (hrest : EndsQualifiers rest) (found : Qualifiers) (hnodup : (found.modifiers ++ ms).Nodup)
    {n : Nat} (hn : ms.length ≤ n) :
    Yields c s (qualifiers found n) rest
      (· = { found with modifiers := found.modifiers ++ ms }) := by
  induction ms generalizing s found n with
  | nil =>
    have hs : s.rest = rest := begins_nil.mp hs
    have hfound : found = { found with modifiers := found.modifiers ++ [] } := by
      rw [List.append_nil]
    cases n with
    | zero => exact yields_pure hs hfound
    | succ n =>
      rw [qualifiers, yields_rest, hs, if_neg (by rw [hrest.noAnnotation]; exact nofun), yields_kind,
        hs, hrest.noModifier]
      exact yields_pure hs hfound
  | cons m ms ih =>
    obtain ⟨n, rfl⟩ : ∃ k, n = k + 1 := ⟨n - 1, by simp only [List.length_cons] at hn; omega⟩
    have hkind : kindOf s.rest = .keyword (.modifier m) := Begins.kindOf hs
    have hno : ¬ looksAnnotated s.rest = true := by
      simp [looksAnnotated, hkind]
    have hparen : kindOf (s.rest.drop 1) ≠ .mark .openParen := by
      have htail := Begins.tail hs
      rcases ms with _ | ⟨m', ms⟩
      · rw [begins_nil.mp htail]
        exact hrest.annotation.2
      · rw [Begins.kindOf htail]
        exact nofun
    have hmem : m ∉ found.modifiers := by
      intro hm
      rw [List.nodup_append] at hnodup
      exact hnodup.2.2 m hm m List.mem_cons_self rfl
    rw [qualifiers, yields_rest, if_neg hno, yields_kind, hkind]
    simp only [Kind.modifier?]
    rw [yields_secondKind, if_neg (by
      simp only [Bool.and_eq_true, decide_eq_true_eq]
      exact fun h => hparen h.2)]
    refine yields_skip_one hs fun s₁ hs₁ => ?_
    rw [if_neg hmem]
    have hrec := ih hs₁ { found with modifiers := found.modifiers ++ [m] } (n := n)
      (by simpa using hnodup) (by simp only [List.length_cons] at hn; omega)
    simpa using hrec

/-- Qualifiers that are written alike. -/
structure AlikeQualifiers (q : Qualifiers) (as : List AnnotationUse) (ms : List Modifier) :
    Prop where
  annotations : AlikeAnnotations q.annotations as
  modifiers : q.modifiers = ms

theorem yields_qualifiers {as : List AnnotationUse} {ms : List Modifier} {aw : List Word}
    (has : EachWords AnnotationWords as aw) (hms : ms.Nodup)
    (hs : Begins s.rest (aw ++ modifierWords ms) rest) (hrest : EndsQualifiers rest)
    (found : List AnnotationUse) {n : Nat} (hn : as.length + ms.length ≤ n) :
    Yields c s (qualifiers ⟨found, []⟩ n) rest fun q =>
      AlikeAnnotations q.annotations (found ++ as) ∧ q.modifiers = ms := by
  induction has generalizing s found n with
  | nil =>
    refine (yields_modifiers hs hrest ⟨found, []⟩ hms (by simpa using hn)).mono ?_
    rintro q rfl
    exact ⟨by rw [List.append_nil]; rfl, rfl⟩
  | @cons a as aw vs ha has ih =>
    obtain ⟨n, rfl⟩ : ∃ k, n = k + 1 := ⟨n - 1, by simp only [List.length_cons] at hn; omega⟩
    rw [List.append_assoc] at hs
    rw [qualifiers, yields_rest, if_pos (looksAnnotated_of_words ha hs).1]
    refine Yields.then hs (fun mid hmid hbehind => yields_annotationUse ha hmid ?_)
      fun b s₁ hs₁ hb => ?_
    · obtain ⟨mid', has', hms'⟩ := begins_append.mp hbehind
      refine annotationsWords_cases has has' ?_
      rcases ms with _ | ⟨m, ms⟩
      · rw [begins_nil.mp hms']
        exact hrest.annotation
      · rw [Begins.kindOf hms']
        exact ⟨nofun, nofun⟩
    · refine (ih hs₁ (found ++ [b]) (n := n) ?_).mono ?_
      · simp only [List.length_cons] at hn
        omega
      · rintro q ⟨hq, hq'⟩
        refine ⟨?_, hq'⟩
        rw [AlikeAnnotations] at hq ⊢
        rw [hq]
        simp [hb]

theorem length_le_of_eachWords {P : α → List Word → Prop} {as : List α} (h : EachWords P as ws)
    (hP : ∀ a ws, P a ws → ws ≠ []) : as.length ≤ ws.length := by
  induction h with
  | nil => exact Nat.le_refl _
  | @cons a as ws vs ha _ ih =>
    have hpos := List.length_pos_iff.mpr (hP a ws ha)
    simp only [List.length_cons, List.length_append]
    omega

theorem annotationWords_ne_nil {a : AnnotationUse} (h : AnnotationWords a ws) : ws ≠ [] := by
  obtain ⟨nw, aw, -, -, rfl⟩ := h
  exact nofun

theorem yields_allQualifiers {as : List AnnotationUse} {ms : List Modifier}
    (h : QualifierWords as ms ws) (hs : Begins s.rest ws rest) (hrest : EndsQualifiers rest) :
    Yields c s allQualifiers rest (AlikeQualifiers · as ms) := by
  obtain ⟨has, hms⟩ := h
  rw [allQualifiers, yields_steps]
  refine (yields_qualifiers has hms hs hrest [] ?_).mono fun q hq => ⟨hq.1, hq.2⟩
  have hle := length_le_of_eachWords has fun _ _ => annotationWords_ne_nil
  have hlen := hs.length_eq
  simp only [List.length_append, modifierWords, List.length_map] at hlen
  omega

/-! ### Variables -/

/-- What is written of a variable. -/
def face (d : Declarator) : String × Nat × Option String :=
  (d.name, d.dimensions, d.initializer.map Excerpt.render)

theorem initializerText_congr {a b : Option Excerpt} (h : AlikeArguments a b) :
    initializerText a = initializerText b := by
  rw [AlikeArguments] at h
  rcases a with _ | x <;> rcases b with _ | y
  · rfl
  · cases h
  · cases h
  · have hrender : x.render = y.render := by simpa using h
    simp only [initializerText, hrender]

theorem declaratorRender_congr {d e : Declarator} (h : face d = face e) : d.render = e.render := by
  simp only [face, Prod.mk.injEq] at h
  obtain ⟨hname, hdim, hinit⟩ := h
  rw [Declarator.render, Declarator.render, hname, hdim, initializerText_congr hinit]

/-- What may follow a variable. -/
def EndsDeclarator (k : Kind) : Prop := k = .mark .comma ∨ k = .mark .semicolon

theorem yields_initializer {e : Option Excerpt} (h : OptionWords InitializerWords e ws)
    (hs : Begins s.rest ws rest) (hrest : EndsDeclarator (kindOf rest))
    {f : Option Excerpt → Parser α}
    (hf : ∀ e' s', s'.rest = rest → AlikeArguments e' e → Yields c s' (f e') rest R) :
    Yields c s (do
      if ← accept Mark.assign then
        f (← pure (some (← expression [Mark.comma, Mark.semicolon] "initializer")))
      else f (← pure none)) rest R := by
  cases h with
  | none =>
    have hs : s.rest = rest := begins_nil.mp hs
    have hassign : kindOf s.rest ≠ .mark .assign := by
      rw [hs]
      rcases hrest with h | h <;> rw [h] <;> exact nofun
    rw [yields_accept_none hassign, if_neg nofun, pure_bind]
    exact hf none s hs rfl
  | some h =>
    obtain ⟨vs, he, rfl⟩ := h
    refine yields_accept hs rfl fun s₁ hs₁ => ?_
    rw [if_pos rfl]
    refine (yields_excerpt he hs₁ ?_ _).bind fun e' s₂ hs₂ he' => ?_
    · rcases hrest with h | h <;> rw [h] <;> decide
    · rw [pure_bind]
      exact hf (some e') s₂ hs₂ (by rw [AlikeArguments, Option.map_some, Option.map_some, he'])

theorem kindOf_behind_brackets {e : Option Excerpt} (h : OptionWords InitializerWords e ws)
    (hs : Begins mid ws rest) (hrest : EndsDeclarator (kindOf rest)) :
    kindOf mid ≠ .mark .openBracket := by
  cases h with
  | none =>
    rw [begins_nil.mp hs]
    rcases hrest with h | h <;> rw [h] <;> exact nofun
  | some h =>
    obtain ⟨vs, -, rfl⟩ := h
    rw [hs.kindOf]
    exact nofun

theorem yields_declarator {d : Declarator} (h : DeclaratorWords d ws) (hs : Begins s.rest ws rest)
    (hrest : EndsDeclarator (kindOf rest)) :
    Yields c s declarator rest fun d' => face d' = face d := by
  obtain ⟨iw, hname, hinit, rfl⟩ := h
  rw [declarator, yields_here]
  refine yields_identifier hs fun s₁ hs₁ => ?_
  refine yields_brackets hs₁ (fun mid hmid => kindOf_behind_brackets hinit hmid hrest)
    fun s₂ hs₂ => ?_
  refine yields_initializer hinit hs₂ hrest fun e s₃ hs₃ he => ?_
  rw [yields_spanFrom]
  refine yields_pure hs₃ ?_
  rw [face, show Option.map _ _ = _ from he]
  rfl

/-- Variables that are written alike. -/
def AlikeDeclarators (ds es : List Declarator) : Prop := ds.map face = es.map face

theorem AlikeDeclarators.render {ds es : List Declarator} (h : AlikeDeclarators ds es) :
    ds.map Declarator.render = es.map Declarator.render := by
  induction ds generalizing es with
  | nil => rw [List.map_eq_nil_iff.mp h.symm]
  | cons d ds ih =>
    obtain ⟨e, es, rfl, he, hes⟩ := List.map_eq_cons_iff.mp h.symm
    rw [List.map_cons, List.map_cons, declaratorRender_congr he.symm, ih hes.symm]

theorem yields_declaratorList {ds : List Declarator} (h : CommaWords DeclaratorWords ds ws)
    (hs : Begins s.rest ws rest) (hrest : kindOf rest = .mark .semicolon) {n : Nat}
    (hn : ds.length ≤ n) : Yields c s (declaratorList n) rest (AlikeDeclarators · ds) := by
  induction h generalizing s n with
  | @one d ws hd =>
    obtain ⟨n, rfl⟩ : ∃ m, n = m + 1 := ⟨n - 1, by simp only [List.length_cons] at hn; omega⟩
    refine (yields_declarator hd hs (.inr hrest)).bind fun d' s₁ hs₁ hd' => ?_
    rw [yields_accept_none (by rw [hs₁, hrest]; exact nofun), if_neg nofun]
    exact yields_pure hs₁ (by rw [AlikeDeclarators, List.map_singleton, List.map_singleton, hd'])
  | @cons d ds dw vs hd hds ih =>
    obtain ⟨n, rfl⟩ : ∃ m, n = m + 1 := ⟨n - 1, by simp only [List.length_cons] at hn; omega⟩
    refine Yields.then hs (fun mid hmid hbehind => yields_declarator hd hmid ?_)
      fun d' s₁ hs₁ hd' => ?_
    · exact .inl hbehind.kindOf
    · refine yields_accept hs₁ rfl fun s₂ hs₂ => ?_
      rw [if_pos rfl]
      refine (ih hs₂ ?_).bind fun ds' s₃ hs₃ hds' => yields_pure hs₃ ?_
      · simp only [List.length_cons] at hn
        omega
      · rw [AlikeDeclarators, List.map_cons, List.map_cons, hd', hds']

theorem yields_declarators {ds : List Declarator} (h : CommaWords DeclaratorWords ds ws)
    (hs : Begins s.rest (ws ++ [.mark .semicolon]) rest) :
    Yields c s declarators rest (AlikeDeclarators · ds) := by
  rw [declarators, yields_steps]
  refine Yields.then hs (fun mid hmid hbehind => yields_declaratorList h hmid ?_ ?_)
    fun ds' s₁ hs₁ hds' => ?_
  · exact hbehind.kindOf
  · have hle := length_le_of_commaWords h
    have hlen := hmid.length_eq
    omega
  · refine yields_require hs₁ rfl _ fun s₂ hs₂ => ?_
    exact yields_pure (begins_nil.mp hs₂) hds'

/-- Fields that are written alike. -/
structure AlikeField (f g : Field) : Prop where
  annotations : AlikeAnnotations f.annotations g.annotations
  modifiers : f.modifiers = g.modifiers
  type : f.type.render = g.type.render
  name : f.name = g.name
  initializer : AlikeArguments f.initializer g.initializer

/-- A field behind its qualifiers is read as the only one of its declaration. -/
theorem yields_fields {f : Field} {tw iw : List Word} (ht : TypeWords Angle.IsList f.type tw)
    (hname : IsIdentifier f.name) (hinit : OptionWords InitializerWords f.initializer iw)
    (hs : Begins s.rest (tw ++ .name f.name :: iw ++ [.mark .semicolon]) rest) (l : Location)
    {q : Qualifiers} (hq : AlikeQualifiers q f.annotations f.modifiers) :
    Yields c s (fields l q) rest fun fs => ∃ g, fs = [g] ∧ AlikeField g f := by
  rw [List.append_assoc] at hs
  refine Yields.then hs (fun mid hmid hbehind => yields_typeUse ht hmid ?_) fun t s₁ hs₁ ht => ?_
  · rw [Begins.kindOf hbehind]
    exact ⟨⟨nofun, nofun⟩, nofun⟩
  have hd : CommaWords DeclaratorWords [⟨f.name, 0, f.initializer, .empty⟩] (.name f.name :: iw) :=
    .one ⟨iw, hname, hinit, rfl⟩
  refine (yields_declarators hd hs₁).bind fun ds s₂ hs₂ hds => ?_
  rw [yields_spanFrom]
  refine yields_pure hs₂ ?_
  obtain ⟨d, ds, rfl, hd, hnil⟩ := List.map_eq_cons_iff.mp hds
  obtain rfl : ds = [] := List.map_eq_nil_iff.mp hnil
  simp only [face, Prod.mk.injEq] at hd
  refine ⟨_, rfl, hq.annotations, hq.modifiers, render_eq ⟨ht.1, ?_⟩, hd.1, hd.2.2⟩
  show t.dimensions + d.dimensions = f.type.dimensions
  rw [hd.2.1]
  exact ht.2

end JavaTree.Parser
