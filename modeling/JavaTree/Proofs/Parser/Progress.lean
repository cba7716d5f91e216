import JavaTree.Proofs.Parser.Excerpts

/-!
Readers that move on.

A reader never goes back, and most readers that have a result have passed over a token: they `Move`.
What a faulty run has not passed over, the rule for what is left of it does, so a step of recovery
moves on as well.
-/

namespace JavaTree.Parser

variable {α β : Type} {c : Settings} {s : State}

/-! ### Places -/

/-- The first place lies behind the second one, with tokens between them. -/
def Behind (us ts : List Token) : Prop := us <:+ ts ∧ us.length < ts.length

theorem Behind.of_suffix {ts us vs : List Token} (h : Behind us ts) (h' : vs <:+ us) :
    Behind vs ts :=
  ⟨h'.trans h.1, Nat.lt_of_le_of_lt h'.length_le h.2⟩

theorem Behind.from_suffix {ts us vs : List Token} (h : Behind vs us) (h' : us <:+ ts) :
    Behind vs ts :=
  ⟨h.1.trans h', Nat.lt_of_lt_of_le h.2 h'.length_le⟩

theorem behind_drop {ts : List Token} {n : Nat} (hts : ts ≠ []) (hn : 0 < n) :
    Behind (ts.drop n) ts := by
  refine ⟨List.drop_suffix n ts, ?_⟩
  have hpos := List.length_pos_iff.mpr hts
  rw [List.length_drop]
  omega

/-- From a place that is not before another one, a rule that moves on from the latter leads behind
it. -/
theorem behind_of_rule {rule : List Token → Nat} {ts us : List Token} (hus : us <:+ ts)
    (hts : ts ≠ []) (hrule : us = ts → 0 < rule us) : Behind (us.drop (rule us)) ts := by
  by_cases h : us = ts
  · have hpos := hrule h
    subst h
    exact behind_drop hts hpos
  · have hlt : us.length < ts.length :=
      Nat.lt_of_le_of_ne hus.length_le fun hlen => h (hus.eq_of_length hlen)
    exact Behind.of_suffix ⟨hus, hlt⟩ (List.drop_suffix _ us)

theorem rest_ne_nil_of_kindOf {ts : List Token} (h : kindOf ts ≠ .endOfInput) : ts ≠ [] := by
  rintro rfl
  exact h rfl

/-! ### Moving readers -/

/-- A reader that never goes back. -/
def Forward (c : Settings) (p : Parser α) : Prop := ∀ s, (final (p c s)).rest <:+ s.rest

theorem Forward.suffix {p : Parser α} (h : Forward c p) {a : α} {s' : State}
    (hrun : p c s = .ok a s') : s'.rest <:+ s.rest := by
  have hsuffix := h s
  rwa [hrun] at hsuffix

theorem Keeps.forward {Q : List Token → α → Prop} {p : Parser α}
    (h : ∀ ts, Keeps ts c (Q ts) p) : Forward c p :=
  fun s => (h s.rest s (List.suffix_refl _)).1

/-- A run that has passed over a token if it has a result. -/
def Moves (s : State) (r : EStateM.Result Diagnostic State α) : Prop :=
  ∀ a s', r = .ok a s' → Behind s'.rest s.rest

theorem moves_error (d : Diagnostic) (s' : State) :
    Moves s (.error d s' : EStateM.Result _ _ α) := nofun

theorem moves_bind {p : Parser α} {f : α → Parser β} (hp : Moves s (p c s))
    (hf : ∀ a, Forward c (f a)) : Moves s ((p >>= f) c s) := by
  intro b s' hrun
  obtain ⟨a, s₁, hfirst, hrun⟩ := bind_eq_ok.mp hrun
  exact (hp a s₁ hfirst).of_suffix ((hf a).suffix hrun)

/-- A sequence moves if its second part does. -/
theorem moves_behind {p : Parser α} {f : α → Parser β} (hp : Forward c p)
    (hf : ∀ a s', p c s = .ok a s' → Moves s' (f a c s')) : Moves s ((p >>= f) c s) := by
  intro b s' hrun
  obtain ⟨a, s₁, hfirst, hrun⟩ := bind_eq_ok.mp hrun
  exact (hf a s₁ hfirst b s' hrun).from_suffix (hp.suffix hfirst)

theorem moves_skip (hs : s.rest ≠ []) : Moves s (skip 1 c s) := by
  intro a s' hrun
  cases hrun
  exact behind_drop hs Nat.one_pos

theorem moves_require {k : Kind} (hk : k ≠ .endOfInput) (expected : String) :
    Moves s (require k expected c s) := by
  intro a s' hrun
  obtain ⟨t, -, hrest⟩ := eq_cons_of_require hrun hk
  rw [hrest]
  exact behind_drop (List.cons_ne_nil t s'.rest) Nat.one_pos

theorem behind_of_accept {k : Kind} {s' : State} (hrun : accept k c s = .ok true s')
    (hk : k ≠ .endOfInput) : Behind s'.rest s.rest := by
  rw [accept_run] at hrun
  split at hrun
  · next h =>
    cases hrun
    exact behind_drop (rest_ne_nil h hk) Nat.one_pos
  · cases hrun

theorem moves_identifier : Moves s (identifier c s) := by
  rw [identifier_run]
  split
  · next h =>
    intro a s' hrun
    cases hrun
    exact behind_drop (rest_ne_nil h nofun) Nat.one_pos
  · exact moves_error _ _

theorem moves_excerpt (rule : CaptureRule) (what : String) : Moves s (excerpt rule what c s) := by
  intro e s' hrun
  obtain ⟨hlies, hrest⟩ := liesIn_of_excerpt hrun (List.suffix_refl s.rest)
  have hpos : 0 < e.tokens.length := List.length_pos_iff.mpr hlies.written
  exact ⟨⟨e.tokens, hrest.symm⟩, by rw [hrest, List.length_append]; omega⟩

theorem forward_bind {p : Parser α} {f : α → Parser β} (hp : Forward c p)
    (hf : ∀ a, Forward c (f a)) : Forward c (p >>= f) := by
  intro s
  rw [bind_run]
  cases hrun : p c s with
  | error d s' =>
    have hsuffix := hp s
    rwa [hrun] at hsuffix
  | ok a s' => exact (hf a s').trans (hp.suffix hrun)

theorem forward_of_skirts {p : Parser α} (h : ∀ s, Skirts s (p c s)) : Forward c p :=
  fun s => ((h s).contained (c := c)).1

theorem forward_pure (a : α) : Forward c (pure a) := fun _ => List.suffix_refl _

theorem forward_spanned (start : Location) (make : Span → α) :
    Forward c (do return make (← Parser.spanFrom start)) :=
  Keeps.forward (Q := fun _ _ => True) fun _ => keeps_spanned start fun _ => trivial

theorem moves_typeUse : Moves s (typeUse c s) := by
  rw [typeUse, bind_run_ok here_run, bind_run_ok peek_run]
  simp only [next_kind, ← bind_assoc]
  have hbrackets (start : Location) (name : String) : Forward c (do
      let n ← brackets
      return (⟨name, n, ← Parser.spanFrom start⟩ : TypeUse)) :=
    forward_bind (forward_of_skirts fun _ => skirts_brackets) fun _ => forward_spanned _ _
  rw [ite_run]
  split
  · next h =>
    refine moves_bind (moves_bind (moves_skip ?_) fun _ => forward_pure _) fun _ => hbrackets _ _
    exact rest_ne_nil_of_kindOf fun hend => by simp [hend, Kind.isPrimitive] at h
  · rw [ite_run]
    split
    · refine moves_bind (moves_bind moves_identifier fun _ => ?_) fun _ => hbrackets _ _
      exact forward_bind (Keeps.forward fun _ => keeps_steps) fun _ =>
        forward_of_skirts fun _ => skirts_typeName _ _
    · rw [bind_run, fail_run]
      exact moves_error _ _

/-- A run that passes over its first token without a look at its text has moved on, wherever it ends:
it would end there as well if the text were another one, and the two lists of tokens have nothing in
common before what follows that token. -/
theorem behind_of_blind {p : Parser α} (hp : Forward c p) {t : Token} {us : List Token}
    (hs : s.rest = t :: us)
    (hblind : ∀ text, p c { s with rest := { t with lexeme := text } :: us } = p c s) :
    Behind (final (p c s)).rest s.rest := by
  have hsuffix : (final (p c s)).rest <:+ t :: us := hs ▸ hp s
  have hsuffix' := hp { s with rest := { t with lexeme := t.lexeme ++ "x" } :: us }
  rw [hblind] at hsuffix'
  have htail : (final (p c s)).rest <:+ us := by
    rcases List.suffix_cons_iff.mp hsuffix with heq | htail
    · rcases List.suffix_cons_iff.mp hsuffix' with heq' | htail
      · have htext := congrArg String.length (congrArg Token.lexeme (List.cons.inj (heq.symm.trans heq')).1)
        simp at htext
      · exact htail
    · exact htail
  rw [hs]
  exact Behind.of_suffix ⟨List.suffix_cons t us, Nat.lt_succ_self _⟩ htail

/-- A reader that starts with `skip 1` passes over its first token without a look at it. -/
theorem behind_of_skip {k : Unit → Parser α} (hp : Forward c (skip 1 >>= k)) (hs : s.rest ≠ []) :
    Behind (final ((skip 1 >>= k) c s)).rest s.rest := by
  obtain ⟨t, us, hrest⟩ := List.exists_cons_of_ne_nil hs
  refine behind_of_blind hp hrest fun text => ?_
  rcases s with ⟨_, l, ds, es⟩
  cases hrest
  rfl

theorem moves_of_behind {r : EStateM.Result Diagnostic State α} (h : Behind (final r).rest s.rest) :
    Moves s r := by
  rintro a s' rfl
  exact h

/-- A reader that starts with a token of a given kind. -/
theorem moves_of_require {k : Kind} {expected : String} {f : Location → Unit → Parser α}
    (hp : Forward c (do f (← here) (← require k expected))) (hk : k ≠ .endOfInput) :
    Moves s ((do f (← here) (← require k expected)) c s) := by
  by_cases h : kindOf s.rest = k
  · obtain ⟨t, us, hrest⟩ := List.exists_cons_of_ne_nil (rest_ne_nil h hk)
    refine moves_of_behind (behind_of_blind hp hrest fun text => ?_)
    rcases s with ⟨_, l, ds, es⟩
    cases hrest
    have hkind : t.kind = k := h
    simp only [bind_run, here_run, require_run, kindOf, hkind, if_true]
    rfl
  · rw [bind_run_ok here_run, bind_run, require_run, if_neg h]
    exact moves_error _ _

theorem moves_annotationUse : Moves s (annotationUse c s) := by
  have hp : Forward c annotationUse := Keeps.forward fun _ => keeps_annotationUse
  unfold annotationUse at hp ⊢
  exact moves_of_require hp nofun

theorem moves_declarator : Moves s (declarator c s) := by
  rw [declarator, bind_run_ok here_run]
  refine moves_bind moves_identifier fun _ => Keeps.forward (Q := fun _ _ => True) fun _ => ?_
  refine keeps_bind (keeps_of_skirts fun _ => skirts_brackets) fun _ _ => ?_
  refine keeps_bind (keeps_accept _) fun _ _ => ?_
  simp only [← bind_assoc]
  exact keeps_join (keeps_someExcerpt _ _) (keeps_pure kept_nil) fun _ _ =>
    keeps_spanned _ fun _ => trivial

theorem moves_parameter : Moves s (parameter c s) := by
  rw [parameter, bind_run_ok here_run]
  refine moves_behind (Keeps.forward fun _ => keeps_allQualifiers) fun _ _ _ => ?_
  refine moves_bind moves_typeUse fun _ => Keeps.forward (Q := fun _ _ => True) fun _ => ?_
  refine keeps_bind (keeps_accept _) fun _ _ => ?_
  refine keeps_bind (keeps_of_skirts fun _ => skirts_identifier) fun _ _ => ?_
  exact keeps_bind (keeps_of_skirts fun _ => skirts_brackets) fun _ _ =>
    keeps_spanned _ fun _ => trivial

theorem moves_fields (start : Location) (q : Qualifiers) : Moves s (fields start q c s) := by
  refine moves_bind moves_typeUse fun _ => Keeps.forward (Q := fun _ _ => True) fun _ => ?_
  exact keeps_bind keeps_declarators fun _ _ => keeps_spanned _ fun _ => trivial

/-! ### Rules for what is left out -/

theorem typeBody_pos {ts : List Token} (hts : ts ≠ []) : 0 < typeBody ts := by
  obtain ⟨t, us, rfl⟩ := List.exists_cons_of_ne_nil hts
  by_cases hopen : t.kind = .mark .openBrace
  · simp only [typeBody, List.takeWhile_cons, hopen, kindOf]
    simp [group, hopen, isOpener, Mark.closer?]
  · by_cases hsemi : t.kind = .mark .semicolon
    · simp [typeBody, kindOf, hsemi]
    · have hheader : header (t :: us) = t :: header us :=
        List.takeWhile_cons_of_pos (by simp [hopen, hsemi])
      rw [typeBody_eq, hheader, List.length_cons]
      omega

theorem statementRest_pos {t : Token} {ts : List Token} (h : t.kind ≠ .mark .closeBrace) :
    0 < statementRest 0 (t :: ts) := by
  rw [statementRest]
  split
  · exact Nat.one_pos
  · repeat' split
    all_goals exact Nat.succ_pos _

theorem memberRest_pos (cap : Nat) {t : Token} {ts : List Token} (h : t.kind ≠ .mark .closeBrace) :
    0 < memberRest cap true 0 (t :: ts) := by
  rw [memberRest]
  split
  · exact Nat.one_pos
  · rw [if_neg fun hclose => h hclose.1, if_neg (by simp)]
    repeat' split
    all_goals exact Nat.succ_pos _

theorem typeRest_pos (t : Token) (ts : List Token) : 0 < typeRest true 0 (t :: ts) := by
  rw [typeRest, if_neg (by simp)]
  repeat' split
  all_goals exact Nat.succ_pos _

theorem moves_skipType (construct : String) (hs : s.rest ≠ []) :
    Moves s (skipType construct c s) := by
  rw [skipType, bind_run_ok here_run, bind_run_ok (skipBy_run _)]
  intro a s' hrun
  rw [rest_of_report hrun]
  exact behind_drop hs (typeBody_pos hs)

theorem moves_skipTryWithResources (hs : s.rest ≠ []) : Moves s (skipTryWithResources c s) := by
  have hp : Forward c skipTryWithResources := Keeps.forward fun _ => keeps_skipTryWithResources
  obtain ⟨t, us, hrest⟩ := List.exists_cons_of_ne_nil hs
  refine moves_of_behind (behind_of_blind hp hrest fun text => ?_)
  rcases s with ⟨_, l, ds, es⟩
  cases hrest
  rfl

/-- What is read or, if that fails, left out from a place moves on from there. -/
theorem moves_recover {p : Parser α} {a : α} {skipRest : Parser Unit} (hp : Moves s (p c s))
    (hforward : Forward c p)
    (hskip : ∀ s' s'', s'.rest <:+ s.rest → skipRest c s' = .ok () s'' → Behind s''.rest s.rest) :
    Moves s (recover p (do skipRest; return a) c s) := by
  intro b s' hrun
  rcases recover_eq_ok.mp hrun with hfirst | ⟨d, s₁, hstop, hrun⟩
  · exact hp b s' hfirst
  · obtain ⟨_, s₂, hreport, hrun⟩ := bind_eq_ok.mp hrun
    obtain ⟨_, s₃, hskipped, hlast⟩ := bind_eq_ok.mp hrun
    cases hlast
    have hsuffix := hforward s
    rw [hstop] at hsuffix
    refine hskip s₂ s' ?_ hskipped
    rw [rest_of_report hreport]
    exact hsuffix

/-! ### Statements, members and types -/

/-- The readers for a number of levels. -/
def deeperAt (levels : Nat) : Deeper := ⟨statement levels, block levels, caseBody levels⟩

theorem moves_plainStatement (start : Location) : Moves s (plainStatement start c s) := by
  rw [plainStatement, bind_run_ok read_run, bind_run_ok rest_run, ite_run]
  split
  · refine moves_bind moves_typeUse fun _ => Keeps.forward (Q := fun _ _ => True) fun _ => ?_
    exact keeps_bind keeps_declarators fun _ _ => keeps_spanned _ fun _ => trivial
  · refine moves_bind (moves_excerpt _ _) fun _ => Keeps.forward (Q := fun _ _ => True) fun _ => ?_
    exact keeps_bind (keeps_require _ _) fun _ _ => keeps_spanned _ fun _ => trivial

theorem moves_labeledStatement {deeper : Deeper} (hd : ∀ ts, DeeperKeeps ts c deeper)
    (start : Location) : Moves s (labeledStatement deeper start c s) := by
  refine moves_bind moves_identifier fun _ => Keeps.forward (Q := fun _ _ => True) fun ts => ?_
  refine keeps_bind (keeps_skip 1) fun _ _ => keeps_bind (hd ts).statement fun _ _ => ?_
  exact keeps_spanned _ fun _ => trivial

/-- A statement of any form has at least one token. -/
theorem moves_anyStatement {deeper : Deeper} (hd : ∀ ts, DeeperKeeps ts c deeper)
    (hblock : ∀ s, Moves s (deeper.block c s)) : Moves s (anyStatement deeper c s) := by
  rw [anyStatement, bind_run_ok here_run, bind_run_ok kind_run, bind_run_ok secondKind_run]
  generalize hk : kindOf s.rest = k
  generalize kindOf (s.rest.drop 1) = k'
  have hword {p : Location → Parser Statement} (w : Keyword) (h : k = .keyword w)
      (hp : ∀ ts start, Keeps ts c (fun a => Kept c ts a.leaves) (p start))
      {f : Location → Unit → Parser Statement} (hf : ∀ start, p start = skip 1 >>= f start)
      (start : Location) : Moves s (p start c s) := by
    have hforward : Forward c (skip 1 >>= f start) := hf start ▸ Keeps.forward fun ts => hp ts start
    rw [hf]
    exact moves_of_behind (behind_of_skip hforward (rest_ne_nil (hk.trans h) (by simp)))
  split
  · exact moves_bind (hblock s) fun _ => forward_pure _
  · exact moves_bind (moves_skip (rest_ne_nil hk (by simp))) fun _ => forward_spanned _ _
  · exact hword _ rfl (fun _ => keeps_returnStatement) (fun _ => rfl) _
  · exact hword _ rfl (fun ts => keeps_ifStatement (hd ts)) (fun _ => rfl) _
  · exact hword _ rfl (fun ts => keeps_forStatement (hd ts)) (fun _ => rfl) _
  · exact hword _ rfl (fun ts => keeps_whileStatement (hd ts)) (fun _ => rfl) _
  · exact hword _ rfl (fun ts => keeps_doStatement (hd ts)) (fun _ => rfl) _
  · exact moves_bind (moves_skipTryWithResources (rest_ne_nil hk (by simp))) fun _ => forward_spanned _ _
  · exact hword _ rfl (fun ts => keeps_tryStatement (hd ts)) (fun _ => rfl) _
  · exact hword _ rfl (fun ts => keeps_switchStatement (hd ts)) (fun _ => rfl) _
  · exact hword _ rfl (fun _ => keeps_throwStatement) (fun _ => rfl) _
  · exact hword _ rfl (fun _ start => keeps_jumpStatement start fun _ _ => rfl) (fun _ => rfl) _
  · exact hword _ rfl (fun _ start => keeps_jumpStatement start fun _ _ => rfl) (fun _ => rfl) _
  · exact hword _ rfl (fun ts => keeps_synchronizedStatement (hd ts)) (fun _ => rfl) _
  · exact hword _ rfl (fun _ => keeps_assertStatement) (fun _ => rfl) _
  · exact moves_labeledStatement hd _
  iterate 3 exact moves_error _ _
  iterate 5 rw [fail_run]; exact moves_error _ _
  exact moves_plainStatement _

theorem moves_tooDeep : Moves s ((tooDeep : Parser α) c s) := by
  rw [tooDeep, bind_run_ok read_run, bind_run_ok here_run]
  exact moves_error _ _

theorem moves_block (levels : Nat) : Moves s (block levels c s) := by
  cases levels with
  | zero =>
    rw [block]
    exact moves_tooDeep
  | succ levels =>
    have hp : Forward c (braced (statement levels)) :=
      Keeps.forward fun _ => keeps_braced (deeperKeeps levels).statement
    rw [block]
    unfold braced at hp ⊢
    exact moves_of_require hp (by simp)

theorem moves_statement (levels : Nat) : Moves s (statement levels c s) := by
  cases levels with
  | zero =>
    rw [statement]
    exact moves_tooDeep
  | succ levels =>
    rw [statement]
    exact moves_anyStatement (fun _ => deeperKeeps levels) fun _ => moves_block levels

theorem moves_blockStatement (levels : Nat) (hs : s.rest ≠ []) :
    Moves s (blockStatement (statement levels) c s) := by
  rw [blockStatement, bind_run_ok rest_run, ite_run]
  split
  · exact moves_bind (moves_skipType _ hs) fun _ => forward_pure _
  rw [ite_run]
  split
  · exact moves_bind (moves_skipTryWithResources hs) fun _ => forward_pure _
  rw [ite_run]
  split
  · rw [bind_run_ok here_run]
    refine moves_behind (Keeps.forward fun _ => keeps_allQualifiers) fun q s' _ => ?_
    rw [bind_run_ok kind_run, ite_run]
    split
    · next h =>
      refine moves_bind (moves_skipType _ ?_) fun _ => forward_pure _
      exact rest_ne_nil_of_kindOf fun hend => by simp [hend, isTypeWord] at h
    · exact moves_bind (moves_fields _ _) fun _ => forward_pure _
  · exact moves_bind (moves_statement levels) fun _ => forward_pure _

theorem moves_body : Moves s (body c s) := by
  rw [body, bind_run_ok read_run]
  exact moves_block _

theorem moves_returnType : Moves s (returnType c s) := by
  rw [returnType, bind_run_ok here_run]
  intro a s' hrun
  obtain ⟨isVoid, s₁, haccept, hrun⟩ := bind_eq_ok.mp hrun
  cases isVoid with
  | true =>
    cases hrun
    exact behind_of_accept haccept (by simp)
  | false =>
    have hs₁ : s₁ = s := by
      rw [accept_run] at haccept
      split at haccept <;> cases haccept
      rfl
    subst hs₁
    exact moves_typeUse a s' hrun

theorem moves_method (start : Location) (q : Qualifiers) (params : Option String) :
    Moves s (method start q params c s) := by
  refine moves_bind moves_returnType fun _ => Keeps.forward (Q := fun _ _ => True) fun _ => ?_
  refine keeps_bind (keeps_of_skirts fun _ => skirts_identifier) fun _ _ => ?_
  refine keeps_bind keeps_parameters fun _ _ => ?_
  refine keeps_bind (keeps_of_skirts fun _ => skirts_typesAfter _) fun _ _ => ?_
  refine keeps_bind (keeps_check _) fun _ _ => ?_
  simp only [← bind_assoc]
  exact keeps_join (P := fun _ => True) (keeps_bind keeps_body fun _ _ => keeps_pure trivial)
    (keeps_bind (keeps_require _ _) fun _ _ => keeps_pure trivial) fun _ _ =>
      keeps_spanned _ fun _ => trivial

theorem moves_constructor (start : Location) (typeName : String) (q : Qualifiers)
    (params : Option String) : Moves s (constructor start typeName q params c s) := by
  rw [constructor, bind_run_ok here_run]
  refine moves_bind moves_identifier fun name => Keeps.forward (Q := fun _ _ => True) fun ts => ?_
  have hrest : Keeps ts c (fun _ => True) (do
      let ps ← parameters
      let throws ← typesAfter .throws_
      let inner ← body
      return (⟨q.modifiers, q.annotations, params, name, ps, throws, inner, ← spanFrom start⟩ :
        Constructor)) := by
    refine keeps_bind keeps_parameters fun _ _ => ?_
    refine keeps_bind (keeps_of_skirts fun _ => skirts_typesAfter _) fun _ _ => ?_
    exact keeps_bind keeps_body fun _ _ => keeps_spanned _ fun _ => trivial
  exact keeps_ite (keeps_bind (keeps_note _) fun _ _ => hrest) hrest

theorem moves_plainMember (start : Location) (typeName : String) (q : Qualifiers) :
    Moves s (plainMember start typeName q c s) := by
  refine moves_behind (forward_of_skirts fun _ => skirts_typeParameters) fun _ s' _ => ?_
  rw [bind_run_ok rest_run, ite_run]
  split
  · exact moves_bind (moves_constructor _ _ _ _) fun _ => forward_pure _
  rw [bind_run_ok read_run, ite_run]
  split
  · exact moves_bind (moves_method _ _ _) fun _ => forward_pure _
  rw [ite_run]
  split
  · exact moves_bind (moves_fields _ _) fun _ => forward_pure _
  · rw [fail_run]
    exact moves_error _ _

theorem moves_member (typeName : String) : Moves s (member typeName c s) := by
  rw [member, bind_run_ok here_run]
  refine moves_behind (Keeps.forward fun _ => keeps_allQualifiers) fun q s' _ => ?_
  rw [bind_run_ok rest_run, ite_run]
  split
  · next h =>
    refine moves_bind (moves_skipType _ ?_) fun _ => forward_pure _
    exact rest_ne_nil_of_kindOf fun hend => by simp [hend, isTypeWord] at h
  rw [ite_run]
  split
  · next h =>
    refine moves_bind (moves_skipType _ ?_) fun _ => forward_pure _
    exact rest_ne_nil (kindOf_of_startsWith h) (by simp)
  rw [ite_run]
  split
  · exact moves_bind moves_body fun _ => forward_spanned _ _
  · exact moves_plainMember _ _ _

theorem moves_typeDeclaration : Moves s (typeDeclaration c s) := by
  rw [typeDeclaration, bind_run_ok here_run]
  refine moves_behind (Keeps.forward fun _ => keeps_allQualifiers) fun q s' _ => ?_
  rw [bind_run_ok kind_run, bind_run_ok secondKind_run]
  generalize hk : kindOf s'.rest = k
  generalize kindOf (s'.rest.drop 1) = k'
  split
  · refine moves_bind (moves_of_behind ?_) fun _ => forward_pure _
    exact behind_of_skip (Keeps.forward fun _ => keeps_classRest) (rest_ne_nil hk nofun)
  · refine moves_bind (moves_of_behind ?_) fun _ => forward_pure _
    exact behind_of_skip (Keeps.forward fun _ => keeps_interfaceRest) (rest_ne_nil hk nofun)
  · refine moves_bind (moves_of_behind ?_) fun _ => forward_pure _
    exact behind_of_skip (Keeps.forward fun _ => keeps_enumRest) (rest_ne_nil hk nofun)
  · exact moves_bind (moves_skipType _ (rest_ne_nil hk nofun)) fun _ => forward_pure _
  · rw [fail_run]
    exact moves_error _ _

end JavaTree.Parser
