import JavaTree.Parser.Declaration
import JavaTree.Proofs.Reread.Statements
import JavaTree.Summary

/-!
Members are read back from their words.

What starts a member decides which reader takes it, by looking ahead: a name and a parenthesis start
a constructor, a type, a name and a parenthesis a method, and any other type a field.
-/

namespace JavaTree.Parser

variable {α β : Type} {c : Settings} {s : State} {ts rest mid : List Token} {w : Word}
  {ws vs : List Word} {R : α → Prop} {n : Nat}

/-! ### Parameters -/

/-- What is written of a parameter, and its summary. -/
def parameterFace (p : Parameter) : String × ParameterSummary := (p.render, p.summary)

/-- Parameters that are written and summarized alike. -/
def AlikeParameters (ps qs : List Parameter) : Prop :=
  ps.map parameterFace = qs.map parameterFace

theorem AlikeParameters.render {ps qs : List Parameter} (h : AlikeParameters ps qs) :
    ps.map Parameter.render = qs.map Parameter.render := by
  have hmap := congrArg (List.map Prod.fst) h
  rwa [List.map_map, List.map_map] at hmap

theorem AlikeParameters.summary {ps qs : List Parameter} (h : AlikeParameters ps qs) :
    ps.map Parameter.summary = qs.map Parameter.summary := by
  have hmap := congrArg (List.map Prod.snd) h
  rwa [List.map_map, List.map_map] at hmap

theorem yields_parameter {p : Parameter} (h : ParameterWords True p ws) (hs : Begins s.rest ws rest)
    (hrest : kindOf rest ≠ .mark .openBracket) :
    Yields c s parameter rest fun q => parameterFace q = parameterFace p := by
  obtain ⟨qw, tw, hq, ht, hname, rfl⟩ := h
  obtain ⟨w, us, rfl, hw⟩ := typeWords_head ht
  simp only [List.append_assoc, List.cons_append] at hs
  rw [parameter, yields_here]
  refine Yields.then hs (fun mid hmid hbehind => yields_allQualifiers hq hmid ?_) fun q s₁ hs₁ hq => ?_
  · refine endsQualifiers_of_isTypeStart ?_
    rw [hbehind.kindOf]
    exact hw
  rw [← List.cons_append] at hs₁
  refine Yields.then hs₁ (fun mid hmid hbehind => yields_typeUse (ht.lists trivial) hmid ?_)
    fun t s₂ hs₂ ht => ?_
  · cases hv : p.isVariadic <;> rw [hv] at hbehind <;> rw [Begins.kindOf hbehind] <;>
      exact ⟨⟨nofun, nofun⟩, nofun⟩
  have hfinal : q.modifiers.contains .final_ = p.isFinal := by
    rw [hq.modifiers]
    cases p.isFinal <;> rfl
  -- behind the type and the ellipsis
  have hend (s' : State) (hs' : Begins s'.rest [.name p.name] rest) (l : Location) :
      Yields c s' (do
        let name ← identifier
        let n ← brackets
        return {
          annotations := q.annotations
          isFinal := q.modifiers.contains .final_
          type := { t with dimensions := t.dimensions + n }
          name
          isVariadic := p.isVariadic
          span := ← Parser.spanFrom l } : Parser Parameter) rest
        fun q => parameterFace q = parameterFace p := by
    refine yields_identifier hs' fun s₁ hs₁ => ?_
    refine yields_brackets (n := 0) hs₁ (fun mid hmid => ?_) fun s₂ hs₂ => ?_
    · rwa [begins_nil.mp hmid]
    · rw [yields_spanFrom]
      refine yields_pure (begins_nil.mp hs₂) ?_
      have hrender : TypeUse.render { t with dimensions := t.dimensions + 0 } = p.type.render :=
        render_eq ht
      simp only [parameterFace, Parameter.render, Parameter.summary, hfinal, hrender,
        annotationLead_congr hq.annotations]
  cases hv : p.isVariadic with
  | true =>
    rw [hv] at hs₂ hend
    refine yields_accept hs₂ rfl fun s₃ hs₃ => ?_
    exact hend s₃ hs₃ _
  | false =>
    rw [hv] at hs₂ hend
    rw [yields_accept_none (by rw [Begins.kindOf hs₂]; exact nofun)]
    exact hend s₂ hs₂ _

theorem yields_parameterList {ps : List Parameter} (h : CommaWords (ParameterWords True) ps ws)
    (hs : Begins s.rest ws rest) (hrest : kindOf rest = .mark .closeParen) (hn : ps.length ≤ n) :
    Yields c s (parameterList n) rest (AlikeParameters · ps) := by
  induction h generalizing s n with
  | @one p ws hp =>
    obtain ⟨n, rfl⟩ : ∃ m, n = m + 1 := ⟨n - 1, by simp only [List.length_cons] at hn; omega⟩
    refine (yields_parameter hp hs (by rw [hrest]; exact nofun)).bind fun q s₁ hs₁ hq => ?_
    rw [yields_accept_none (by rw [hs₁, hrest]; exact nofun), if_neg nofun]
    exact yields_pure hs₁ (by rw [AlikeParameters, List.map_singleton, List.map_singleton, hq])
  | @cons p ps pw vs hp hps ih =>
    obtain ⟨n, rfl⟩ : ∃ m, n = m + 1 := ⟨n - 1, by simp only [List.length_cons] at hn; omega⟩
    refine Yields.then hs (fun mid hmid hbehind => yields_parameter hp hmid ?_) fun q s₁ hs₁ hq => ?_
    · rw [hbehind.kindOf]
      exact nofun
    · refine yields_accept hs₁ rfl fun s₂ hs₂ => ?_
      rw [if_pos rfl]
      refine (ih hs₂ ?_).bind fun qs s₃ hs₃ hqs => yields_pure hs₃ ?_
      · simp only [List.length_cons] at hn
        omega
      · rw [AlikeParameters, List.map_cons, List.map_cons, hq, hqs]

/-- The first word of a parameter starts it. -/
theorem parameterWords_head {p : Parameter} (h : ParameterWords True p ws) :
    ∃ w vs, ws = w :: vs ∧ w.kind ≠ .mark .closeParen := by
  obtain ⟨qw, tw, ⟨has, -⟩, ht, -, rfl⟩ := h
  generalize p.annotations = as at has
  cases has with
  | cons ha _ =>
    obtain ⟨nw, aw, -, -, rfl⟩ := ha
    exact ⟨_, _, rfl, nofun⟩
  | nil =>
    cases p.isFinal with
    | true => exact ⟨_, _, rfl, nofun⟩
    | false =>
      obtain ⟨w, us, rfl, hw⟩ := typeWords_head ht
      refine ⟨w, _, rfl, fun hk => ?_⟩
      rw [hk] at hw
      cases hw

theorem commaWords_head {P : α → List Word → Prop} {as : List α} (h : CommaWords P as ws)
    {Q : Word → Prop} (hP : ∀ a ws, P a ws → ∃ w vs, ws = w :: vs ∧ Q w) :
    ∃ w vs, ws = w :: vs ∧ Q w := by
  cases h with
  | one ha => exact hP _ _ ha
  | cons ha _ =>
    obtain ⟨w, vs, rfl, hw⟩ := hP _ _ ha
    exact ⟨w, _, rfl, hw⟩

theorem yields_parameters {ps : List Parameter} (h : ParameterListWords True ps ws)
    (hs : Begins s.rest ws rest) : Yields c s parameters rest (AlikeParameters · ps) := by
  cases h with
  | nil =>
    refine yields_require hs rfl _ fun s₁ hs₁ => ?_
    have hkind : kindOf s₁.rest = .mark .closeParen := hs₁.kindOf
    rw [yields_check, if_pos (by simpa using hkind), pure_bind]
    refine yields_require hs₁ rfl _ fun s₂ hs₂ => ?_
    exact yields_pure (begins_nil.mp hs₂) rfl
  | @some ps ws h =>
    refine yields_require hs rfl _ fun s₁ hs₁ => ?_
    have hkind : kindOf s₁.rest ≠ .mark .closeParen := by
      obtain ⟨w, vs, rfl, hw⟩ := commaWords_head h fun _ _ => parameterWords_head
      rw [Begins.kindOf hs₁]
      exact hw
    rw [yields_check, if_neg (by simpa using hkind), yields_steps]
    refine Yields.then hs₁ (fun mid hmid hbehind => yields_parameterList h hmid hbehind.kindOf ?_)
      fun qs s₂ hs₂ hqs => ?_
    · have hle := length_le_of_commaWords h
      have hlen := hmid.length_eq
      omega
    · refine yields_require hs₂ rfl _ fun s₃ hs₃ => ?_
      exact yields_pure (begins_nil.mp hs₃) hqs

theorem parameterListWords_head {ps : List Parameter} (h : ParameterListWords True ps ws) :
    ∃ vs, ws = .mark .openParen :: vs := by
  cases h with
  | nil => exact ⟨_, rfl⟩
  | some h => exact ⟨_, rfl⟩

/-! ### Methods and constructors -/

/-- What is written of a member, its summary, and whether it is a field. -/
def memberFace (m : Member) : (BraceStyle → List Line) × Option MemberSummary × Bool :=
  (fun style => m.lines style, m.summary?, m.isField)

theorem bodyWords_head {b : Block} (h : BodyWords True n b ws) : ∃ vs, ws = .mark .openBrace :: vs := by
  obtain ⟨vs, -, rfl⟩ := h
  exact ⟨_, rfl⟩

theorem yields_returnType {t : TypeUse} (h : ReturnWords True t ws) (hs : Begins s.rest ws rest)
    (hrest : EndsType (kindOf rest)) :
    Yields c s returnType rest fun u => u.render = t.render := by
  rw [returnType, yields_here]
  cases h with
  | void hname hdim =>
    refine yields_accept hs rfl fun s₁ hs₁ => ?_
    rw [if_pos rfl]
    exact yields_pure (begins_nil.mp hs₁) (render_eq ⟨hname.symm, hdim.symm⟩)
  | type h =>
    have hkind : kindOf s.rest ≠ .keyword .void_ := by
      obtain ⟨w, vs, rfl, hw⟩ := typeWords_head h
      rw [Begins.kindOf hs]
      intro hk
      rw [hk] at hw
      cases hw
    rw [yields_accept_none hkind, if_neg nofun]
    exact (yields_typeUse (h.lists trivial) hs hrest).mono fun u hu => render_eq hu

/-- What may follow the parameters of a method or a constructor. -/
theorem endsType_behind_parameters {k : Kind} (h : k = .mark .openBrace ∨ k = .mark .semicolon) :
    EndsType k ∧ k ≠ .mark .comma ∧ k ≠ .keyword .throws_ := by
  rcases h with rfl | rfl <;> decide

theorem methodLines_congr {m m' : Method} (has : AlikeAnnotations m.annotations m'.annotations)
    (hms : m.modifiers = m'.modifiers) (hg : m.typeParameters = m'.typeParameters)
    (hr : m.returnType.render = m'.returnType.render) (hname : m.name = m'.name)
    (hps : AlikeParameters m.parameters m'.parameters) (hts : AlikeTypes m.throws m'.throws)
    (hb : ∀ style, m.body.map (Block.lines style) = m'.body.map (Block.lines style)) :
    memberFace (.method m) = memberFace (.method m') := by
  have hlines : (fun style => (Member.method m).lines style) =
      fun style => (Member.method m').lines style := by
    funext style
    have hb := hb style
    rw [AlikeTypes] at hts
    simp only [Member.lines, Method.lines, annotationLines_congr has, hms, hg, hr, hname, hps.render,
      hts]
    rcases hbody : m.body with _ | b <;> rcases hbody' : m'.body with _ | b' <;>
      rw [hbody, hbody'] at hb
    · cases hb
    · cases hb
    · simp only [Option.map_some, Option.some.injEq] at hb
      simp only [hb]
  rw [AlikeTypes] at hts
  simp only [memberFace, hlines, Member.summary?, hms, hg, hr, hname, hps.summary, hts,
    Member.isField]

theorem kindOf_methodBody {b : Option Block} (h : MethodBodyWords True n b ws)
    (hs : Begins ts ws rest) : kindOf ts = .mark .openBrace ∨ kindOf ts = .mark .semicolon := by
  cases h with
  | none => exact .inr hs.kindOf
  | some h =>
    obtain ⟨us, rfl⟩ := bodyWords_head h
    exact .inl hs.kindOf

/-- A method behind its qualifiers and type parameters. -/
theorem yields_method {m : Method} {tyw pw tw bw : List Word} (hr : ReturnWords True m.returnType tyw)
    (hps : ParameterListWords True m.parameters pw) (hts : ClauseWords True .throws_ m.throws tw)
    (hb : MethodBodyWords True n m.body bw) (hs : Begins s.rest (tyw ++ .name m.name :: pw ++ tw ++ bw) rest)
    (l : Location) {q : Qualifiers} (hq : AlikeQualifiers q m.annotations m.modifiers)
    (hn : n ≤ c.limits.nesting) :
    Yields c s (method l q m.typeParameters) rest
      fun m' => memberFace (.method m') = memberFace (.method m) := by
  simp only [List.append_assoc, List.cons_append] at hs
  refine Yields.then hs (fun mid hmid hbehind => yields_returnType hr hmid ?_) fun t s₁ hs₁ ht => ?_
  · rw [hbehind.kindOf]
    exact ⟨⟨nofun, nofun⟩, nofun⟩
  refine yields_identifier hs₁ fun s₂ hs₂ => ?_
  refine Yields.then hs₂ (fun mid hmid _ => yields_parameters hps hmid) fun ps s₃ hs₃ hps' => ?_
  refine Yields.then (P := (AlikeTypes · m.throws)) hs₃ (fun mid hmid hbehind => ?_)
    fun ths s₄ hs₄ hths => ?_
  · obtain ⟨h1, h2, h3⟩ := endsType_behind_parameters (kindOf_methodBody hb hbehind)
    exact yields_typesAfter hts hmid h1 h2 h3
  have hface (b : Option Block) (sp : Span)
      (hb : ∀ style, b.map (Block.lines style) = m.body.map (Block.lines style)) :
      memberFace (.method ⟨q.modifiers, q.annotations, m.typeParameters, t, m.name, ps, ths, b, sp⟩) =
        memberFace (.method m) :=
    methodLines_congr hq.annotations hq.modifiers rfl ht rfl hps' hths hb
  rw [yields_check]
  generalize m.body = body at hb hface
  cases hb with
  | none =>
    have hkind : kindOf s₄.rest = .mark .semicolon := hs₄.kindOf
    rw [if_neg (by rw [hkind]; decide)]
    refine yields_require hs₄ rfl _ fun s₅ hs₅ => ?_
    rw [pure_bind, yields_spanFrom]
    exact yields_pure (begins_nil.mp hs₅) (hface none _ fun _ => rfl)
  | some hb =>
    have hkind : kindOf s₄.rest = .mark .openBrace := by
      obtain ⟨us, rfl⟩ := bodyWords_head hb
      exact hs₄.kindOf
    rw [if_pos (by rw [hkind]; decide)]
    refine (yields_body hb hs₄ hn).bind fun b' s₅ hs₅ hb' => ?_
    rw [pure_bind, yields_spanFrom]
    refine yields_pure hs₅ (hface (some b') _ fun style => ?_)
    rw [Option.map_some, Option.map_some, hb' style]

/-- A constructor behind its qualifiers and type parameters; its name does not matter. -/
theorem yields_constructor {k : Constructor} {pw tw bw : List Word}
    (hps : ParameterListWords True k.parameters pw) (hts : ClauseWords True .throws_ k.throws tw)
    (hb : BodyWords True n k.body bw) (hs : Begins s.rest (.name k.name :: pw ++ tw ++ bw) rest)
    (l : Location) (typeName : String) {q : Qualifiers}
    (hq : AlikeQualifiers q k.annotations k.modifiers) (hn : n ≤ c.limits.nesting) :
    Yields c s (constructor l typeName q k.typeParameters) rest
      fun k' => memberFace (.constructor k') = memberFace (.constructor k) := by
  simp only [List.append_assoc, List.cons_append] at hs
  have hrest (l : Location) (s' : State) (hs' : Begins s'.rest (pw ++ (tw ++ bw)) rest) :
      Yields c s' (do
        let ps ← parameters
        let throws ← typesAfter .throws_
        let inner ← body
        return {
          modifiers := q.modifiers
          annotations := q.annotations
          typeParameters := k.typeParameters
          name := k.name
          parameters := ps
          throws
          body := inner
          span := ← Parser.spanFrom l } : Parser Constructor) rest
        fun k' => memberFace (.constructor k') = memberFace (.constructor k) := by
    refine Yields.then hs' (fun mid hmid _ => yields_parameters hps hmid) fun ps s₁ hs₁ hps' => ?_
    refine Yields.then (P := (AlikeTypes · k.throws)) hs₁ (fun mid hmid hbehind => ?_)
      fun ths s₂ hs₂ hths => ?_
    · obtain ⟨us, rfl⟩ := bodyWords_head hb
      obtain ⟨h1, h2, h3⟩ := endsType_behind_parameters (.inl hbehind.kindOf)
      exact yields_typesAfter hts hmid h1 h2 h3
    refine (yields_body hb hs₂ hn).bind fun b' s₃ hs₃ hb' => ?_
    rw [yields_spanFrom]
    refine yields_pure hs₃ ?_
    rw [AlikeTypes] at hths
    have hb' : ∀ style, Block.lines style b' = Block.lines style k.body := hb'
    simp only [memberFace, Member.lines, Constructor.lines, Member.summary?, Member.isField,
      annotationLines_congr hq.annotations, hq.modifiers, hps'.render, hps'.summary, hths, hb']
  rw [constructor, yields_here]
  refine yields_identifier hs fun s₁ hs₁ => ?_
  rw [ite_not]
  split
  · exact hrest l s₁ hs₁
  · exact yields_note _ fun s₂ hs₂ => hrest l s₂ (hs₂ ▸ hs₁)

/-! ### Any member -/

theorem fieldFace_congr {f g : Field} (h : AlikeField f g) :
    memberFace (.field f) = memberFace (.field g) := by
  obtain ⟨has, hms, htype, hname, hinit⟩ := h
  simp only [memberFace, Member.lines, Field.lines, Field.render, Member.summary?, Member.isField,
    annotationLines_congr has, hms, htype, hname, initializerText_congr hinit]

/-- What starts a member behind its qualifiers, other than a block. -/
def startsPlainMember (k : Kind) : Bool :=
  isTypeStart k || k = .keyword .void_ || k = .mark .less

/-- What the start of a member is not. -/
structure OnPlainMember (ts : List Token) : Prop where
  ends : EndsQualifiers ts
  typeWord : isTypeWord (kindOf ts) = false
  openBrace : kindOf ts ≠ .mark .openBrace
  atSign : kindOf ts ≠ .mark .atSign

theorem onPlainMember (h : startsPlainMember (kindOf ts) = true) : OnPlainMember ts := by
  have hfacts (k : Kind) (h : startsPlainMember k = true) : EndsAnnotated k ∧
      k.modifier? = none ∧ isTypeWord k = false ∧ k ≠ .mark .openBrace ∧ k ≠ .mark .atSign := by
    simp only [startsPlainMember, Bool.or_eq_true, decide_eq_true_eq] at h
    rcases h with (h | rfl) | rfl
    · rcases isTypeStart_cases h with rfl | ⟨p, rfl⟩ <;>
        exact ⟨⟨nofun, nofun⟩, rfl, rfl, nofun, nofun⟩
    · exact ⟨⟨nofun, nofun⟩, rfl, rfl, nofun, nofun⟩
    · exact ⟨⟨nofun, nofun⟩, rfl, rfl, nofun, nofun⟩
  obtain ⟨hann, hmod, htype, hbrace, hat⟩ := hfacts _ h
  exact ⟨⟨hann, by simp [looksAnnotated, hat], hmod⟩, htype, hbrace, hat⟩

theorem not_startsConstructor {t : TypeUse} {tw : List Word} {x : String}
    (ht : TypeWords Angle.IsWritten t tw) (hs : Begins ts (tw ++ .name x :: ws) rest) :
    startsWith .identifier Mark.openParen ts = false := by
  obtain ⟨w, v, us, heq, -, hv⟩ := typeWords_second ht x ws
  rw [heq] at hs
  rw [Begins.startsWith hs, Bool.and_eq_false_iff]
  refine .inr (decide_eq_false fun hparen => ?_)
  rw [hparen] at hv
  cases hv

/-- A type with a name and something else than a parenthesis behind it does not look like a method,
nor like a constructor. -/
theorem not_looksLikeMethod {t : TypeUse} {tw : List Word} {x : String} {v : Word}
    (ht : TypeWords Angle.IsList t tw) (hs : Begins ts (tw ++ .name x :: v :: ws) rest)
    (hv : v.kind ≠ .mark .openParen) {cap : Nat} (hcap : ts.length ≤ cap) :
    looksLikeMethod cap ts = false ∧ startsWith .identifier Mark.openParen ts = false := by
  obtain ⟨mid, htw, hbehind⟩ := begins_append.mp hs
  have hends : EndsType (kindOf mid) := by
    rw [hbehind.kindOf]
    exact ⟨⟨nofun, nofun⟩, nofun⟩
  constructor
  · simp [looksLikeMethod, afterType?_eq ht htw hends hcap, hbehind.startsWith, hv]
  · exact not_startsConstructor (ht.imp fun _ hl => hl.isWhole.toIsWritten) hs

/-- A type with a name and a parenthesis behind it looks like a method. -/
theorem looksLikeMethod_of_words {t : TypeUse} {tw : List Word} {x : String} {v : Word}
    (ht : TypeWords Angle.IsList t tw) (hs : Begins ts (tw ++ .name x :: v :: ws) rest)
    (hv : v.kind = .mark .openParen) {cap : Nat} (hcap : ts.length ≤ cap) :
    looksLikeMethod cap ts = true := by
  obtain ⟨mid, htw, hbehind⟩ := begins_append.mp hs
  have hends : EndsType (kindOf mid) := by
    rw [hbehind.kindOf]
    exact ⟨⟨nofun, nofun⟩, nofun⟩
  simp [looksLikeMethod, afterType?_eq ht htw hends hcap, hbehind.startsWith, hv, Word.name]

/-- A member behind its qualifiers starts with its type parameters, or with what is behind them. -/
theorem startsPlainMember_of_parameters {g : Option String} {gw : List Word}
    (hg : OptionWords (ParametersWords True) g gw) (hs : Begins ts (gw ++ ws) rest)
    (h : ∀ ts, Begins ts ws rest → startsPlainMember (kindOf ts) = true) :
    startsPlainMember (kindOf ts) = true := by
  cases hg with
  | none => exact h ts hs
  | some hg =>
    obtain ⟨hus, -⟩ := hg
    obtain ⟨us, rfl⟩ := List.head?_eq_some_iff.mp hus.written.opens
    rw [Begins.kindOf hs]
    rfl

/-- A member that is no block is read behind its qualifiers. -/
theorem yields_member_plain {as : List AnnotationUse} {ms : List Modifier} {qw : List Word}
    {typeName : String} {R : List Member → Prop} (hq : QualifierWords as ms qw)
    (hs : Begins s.rest (qw ++ ws) rest)
    (hstart : ∀ ts, Begins ts ws rest → startsPlainMember (kindOf ts) = true)
    (h : ∀ l q s', AlikeQualifiers q as ms → Begins s'.rest ws rest →
      Yields c s' (plainMember l typeName q) rest R) :
    Yields c s (member typeName) rest R := by
  rw [member, yields_here]
  refine Yields.then hs (fun mid hmid hbehind =>
    yields_allQualifiers hq hmid (onPlainMember (hstart mid hbehind)).ends) fun q s₁ hs₁ hq => ?_
  have hplain := onPlainMember (hstart _ hs₁)
  rw [yields_rest, if_neg (by rw [hplain.typeWord]; exact nofun),
    if_neg (by rw [startsWith_eq_false hplain.atSign]; exact nofun), if_neg hplain.openBrace]
  exact h _ q s₁ hq hs₁

theorem yields_fieldMember {f : Field} (h : FieldWords True f ws) (hs : Begins s.rest ws rest)
    (typeName : String) :
    Yields c s (member typeName) rest fun ms => ∃ m, ms = [m] ∧ memberFace m = memberFace (.field f) := by
  obtain ⟨qw, tw, iw, hq, ht, hname, hinit, rfl⟩ := h
  replace ht := ht.lists trivial
  obtain ⟨v, us, hv, hparen⟩ : ∃ v us, iw ++ [Word.mark .semicolon] = v :: us ∧
      v.kind ≠ .mark .openParen := by
    generalize f.initializer = e at hinit
    cases hinit with
    | none => exact ⟨_, _, rfl, nofun⟩
    | some hinit =>
      obtain ⟨us, -, rfl⟩ := hinit
      exact ⟨_, _, rfl, nofun⟩
  simp only [List.append_assoc, List.cons_append, hv] at hs
  obtain ⟨w, us', rfl, hw⟩ := typeWords_head ht
  refine yields_member_plain hq hs (fun ts hts => ?_) fun l q s₁ hq hs₁ => ?_
  · rw [Begins.kindOf hts, startsPlainMember, hw]
    rfl
  refine yields_of_roomy fun hroom => ?_
  have hkind : kindOf s₁.rest = w.kind := Begins.kindOf hs₁
  have hless : ¬ kindOf s₁.rest = .mark .less := by
    rw [hkind]
    intro hk
    rw [hk] at hw
    cases hw
  have hvoid : ¬ kindOf s₁.rest = .keyword .void_ := by
    rw [hkind]
    intro hk
    rw [hk] at hw
    cases hw
  obtain ⟨hmethod, hconstructor⟩ := not_looksLikeMethod ht hs₁ hparen hroom.tokens
  have hparams : Yields c s₁ typeParameters s₁.rest (· = none) :=
    yields_typeParameters .none (begins_nil.mpr rfl) hless
  refine hparams.bind fun g s₂ hs₂ hg => ?_
  rw [yields_rest, hs₂, if_neg (by rw [hconstructor]; exact nofun), yields_read,
    if_neg (by simp [hvoid, hmethod]), if_pos (by rw [hkind]; exact hw)]
  have hs₂' : Begins s₂.rest (w :: us' ++ .name f.name :: iw ++ [.mark .semicolon]) rest := by
    simpa only [hs₂, List.append_assoc, List.cons_append, hv] using hs₁
  refine (yields_fields ht hname hinit hs₂' l hq).bind fun fs s₃ hs₃ hfs => ?_
  obtain ⟨g, rfl, hg⟩ := hfs
  exact yields_pure hs₃ ⟨.field g, rfl, fieldFace_congr hg⟩

theorem yields_methodMember {m : Method} (h : MethodWords True n m ws) (hs : Begins s.rest ws rest)
    (typeName : String) (hn : n ≤ c.limits.nesting) :
    Yields c s (member typeName) rest fun ms =>
      ∃ m', ms = [m'] ∧ memberFace m' = memberFace (.method m) := by
  obtain ⟨qw, gw, tyw, pw, tw, bw, hq, hg, hr, hname, hps, hts, hb, rfl⟩ := h
  obtain ⟨us, hpw⟩ := parameterListWords_head hps
  simp only [List.append_assoc, List.cons_append] at hs
  have hstart (ts : List Token)
      (hts : Begins ts (tyw ++ .name m.name :: (pw ++ (tw ++ bw))) rest) :
      startsPlainMember (kindOf ts) = true ∧ kindOf ts ≠ .mark .less := by
    generalize m.returnType = t at hr
    cases hr with
    | void hname hdim =>
      rw [Begins.kindOf hts]
      exact ⟨rfl, nofun⟩
    | type ht =>
      obtain ⟨w, vs, rfl, hw⟩ := typeWords_head ht
      rw [Begins.kindOf hts, startsPlainMember, hw]
      refine ⟨rfl, fun hk => ?_⟩
      rw [hk] at hw
      cases hw
  refine yields_member_plain hq hs (fun ts hts =>
    startsPlainMember_of_parameters hg hts fun us hus => (hstart us hus).1) fun l q s₁ hq hs₁ => ?_
  refine Yields.then hs₁ (fun mid hmid hbehind =>
    yields_typeParameters hg hmid (hstart mid hbehind).2) fun g s₂ hs₂ hg' => ?_
  subst hg'
  refine yields_of_roomy fun hroom => ?_
  -- the return type, the name and the parenthesis tell a method from the other members
  have hlooks : startsWith .identifier Mark.openParen s₂.rest = false ∧
      (kindOf s₂.rest = .keyword .void_ ∨
        looksLikeMethod c.limits.excerptTokens s₂.rest = true) := by
    generalize m.returnType = t at hr
    cases hr with
    | void hname hdim =>
      have hkind : kindOf s₂.rest = .keyword .void_ := Begins.kindOf hs₂
      exact ⟨startsWith_eq_false (by rw [hkind]; exact nofun), .inl hkind⟩
    | type ht =>
      rw [hpw] at hs₂
      exact ⟨not_startsConstructor ht.written hs₂,
        .inr (looksLikeMethod_of_words (ht.lists trivial) hs₂ rfl hroom.tokens)⟩
  rw [yields_rest, if_neg (by rw [hlooks.1]; exact nofun), yields_read,
    if_pos (by simpa using hlooks.2)]
  have hs₂' : Begins s₂.rest (tyw ++ .name m.name :: pw ++ tw ++ bw) rest := by
    simpa only [List.append_assoc, List.cons_append] using hs₂
  refine (yields_method hr hps hts hb hs₂' l hq hn).bind fun m' s₃ hs₃ hm' => ?_
  exact yields_pure hs₃ ⟨.method m', rfl, hm'⟩

theorem yields_constructorMember {k : Constructor} (h : ConstructorWords True n k ws)
    (hs : Begins s.rest ws rest) (typeName : String) (hn : n ≤ c.limits.nesting) :
    Yields c s (member typeName) rest fun ms =>
      ∃ m', ms = [m'] ∧ memberFace m' = memberFace (.constructor k) := by
  obtain ⟨qw, gw, pw, tw, bw, hq, hg, hname, hps, hts, hb, rfl⟩ := h
  obtain ⟨us, hpw⟩ := parameterListWords_head hps
  simp only [List.append_assoc, List.cons_append] at hs
  refine yields_member_plain hq hs (fun ts hts =>
    startsPlainMember_of_parameters hg hts fun us hus => ?_) fun l q s₁ hq hs₁ => ?_
  · rw [Begins.kindOf hus]
    rfl
  refine Yields.then hs₁ (fun mid hmid hbehind => yields_typeParameters hg hmid ?_)
    fun g s₂ hs₂ hg' => ?_
  · rw [Begins.kindOf hbehind]
    exact nofun
  subst hg'
  have hstarts : startsWith .identifier Mark.openParen s₂.rest = true := by
    rw [hpw] at hs₂
    rw [Begins.startsWith hs₂]
    rfl
  rw [yields_rest, if_pos hstarts]
  have hs₂' : Begins s₂.rest (.name k.name :: pw ++ tw ++ bw) rest := by
    simpa only [List.append_assoc, List.cons_append] using hs₂
  refine (yields_constructor hps hts hb hs₂' l typeName hq hn).bind fun k' s₃ hs₃ hk' => ?_
  exact yields_pure hs₃ ⟨.constructor k', rfl, hk'⟩

theorem yields_initializerMember {i : Initializer} (h : InitializerBlockWords True n i ws)
    (hs : Begins s.rest ws rest) (typeName : String) (hn : n ≤ c.limits.nesting) :
    Yields c s (member typeName) rest fun ms =>
      ∃ m', ms = [m'] ∧ memberFace m' = memberFace (.initializer i) := by
  obtain ⟨bw, hb, rfl⟩ := h
  obtain ⟨us, hbw⟩ := bodyWords_head hb
  have hq : QualifierWords [] (if i.isStatic then [.static_] else [])
      (if i.isStatic then [.keyword (.modifier .static_)] else []) := by
    cases i.isStatic with
    | true => exact .mk .nil (by decide)
    | false => exact .mk .nil .nil
  have hkind (ts : List Token) (hts : Begins ts bw rest) : kindOf ts = .mark .openBrace := by
    rw [hbw] at hts
    exact hts.kindOf
  rw [member, yields_here]
  refine Yields.then hs (fun mid hmid hbehind => yields_allQualifiers hq hmid ?_) fun q s₁ hs₁ hq => ?_
  · have hkind := hkind mid hbehind
    exact ⟨by rw [hkind]; decide, by rw [looksAnnotated, hkind]; rfl, by rw [hkind]; rfl⟩
  have hkind := hkind _ hs₁
  rw [yields_rest, if_neg (by rw [hkind]; exact Bool.false_ne_true),
    if_neg (by rw [startsWith_eq_false (by simp [hkind])]; exact Bool.false_ne_true), if_pos hkind]
  refine (yields_body hb hs₁ hn).bind fun b' s₂ hs₂ hb' => ?_
  rw [yields_spanFrom]
  refine yields_pure hs₂ ⟨_, rfl, ?_⟩
  have hstatic : q.modifiers.contains .static_ = i.isStatic := by
    rw [hq.modifiers]
    cases i.isStatic <;> rfl
  have hb' : ∀ style, Block.lines style b' = Block.lines style i.body := hb'
  simp only [memberFace, Member.lines, Initializer.lines, Member.summary?, Member.isField, hstatic, hb']

theorem yields_member {m : Member} (h : MemberWords True n m ws) (hs : Begins s.rest ws rest)
    (typeName : String) (hn : n ≤ c.limits.nesting) :
    Yields c s (member typeName) rest fun ms => ∃ m', ms = [m'] ∧ memberFace m' = memberFace m := by
  cases h with
  | field h => exact yields_fieldMember h hs typeName
  | method h => exact yields_methodMember h hs typeName hn
  | constructor h => exact yields_constructorMember h hs typeName hn
  | initializer h => exact yields_initializerMember h hs typeName hn

end JavaTree.Parser
