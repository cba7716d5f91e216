import JavaTree.Proofs.Parser.Excerpts
import JavaTree.Proofs.Parser.Quiet
import JavaTree.Proofs.Source.Passage

/-!
Names, types, excerpts and variables are read from their passages.

Each reader of a part passes over a passage of that part, if it has no findings. Excerpts are cut out
of the text as they are; what ends one is not part of it, so no excerpt ends before a dot.
-/

namespace JavaTree

open Excerpt

/-- Tokens that are written as a passage of the given sort. -/
def Spelled (R : Passage → Prop) (us : List Token) : Prop :=
  ∃ p, R p ∧ p.words = us.map Token.written

/-- The word of a name in a text. -/
theorem Token.IsSound.name {t : Token} (h : t.IsSound) (hk : t.kind = .identifier) :
    IsIdentifier t.lexeme ∧ t.written = .name t.lexeme := by
  refine ⟨(h.isReadable (by rw [hk]; nofun)).isIdentifier hk, ?_⟩
  obtain ⟨k, x, l⟩ := t
  subst hk
  rfl

namespace Parser

variable {α β : Type} {c : Settings}

/-! ### Names -/

theorem reads_identifier :
    Reads c (fun x us _ => IsIdentifier x ∧ us.map Token.written = [.name x]) identifier := by
  refine ⟨fun s => ?_, fun {s x s'} hrun _ hsound => ?_⟩
  · rw [identifier_run]
    split <;> exact List.prefix_refl _
  · rw [identifier_run] at hrun
    split at hrun
    · next hk =>
      cases hrun
      obtain ⟨t, us, hts, ht⟩ := eq_cons_of_kindOf hk nofun
      rw [hts] at hsound
      obtain ⟨hname, hwritten⟩ := (hsound t List.mem_cons_self).name ht
      refine ⟨[t], by simp [hts], ?_, ?_⟩
      · rwa [State.next, hts]
      · rw [State.next, hts]
        simpa using hwritten
    · cases hrun

/-- The words of further names. -/
theorem written_furtherNames {ts : List Token} (hsound : ∀ t ∈ ts, t.IsSound) :
    (∀ x ∈ furtherNames ts, IsIdentifier x) ∧ (ts.take (2 * (furtherNames ts).length)).map Token.written =
      (furtherNames ts).flatMap fun x => [.mark .dot, .name x] := by
  fun_induction furtherNames ts with
  | case1 d t ts h ih =>
    obtain ⟨hd, ht⟩ := h
    obtain ⟨hx, hwritten⟩ := (hsound t (by simp)).name ht
    have hdot := (fixes_mark .dot).written d (hsound d (by simp)) hd
    obtain ⟨hxs, hws⟩ := ih fun u hu => hsound u (by simp [hu])
    refine ⟨by simpa using ⟨hx, hxs⟩, ?_⟩
    simp [Nat.mul_add, hdot, hwritten, hws]
  | case2 | case3 => simp

theorem reads_qualifiedName :
    Reads c (fun x us _ => QualifiedWords x (us.map Token.written)) qualifiedName := by
  refine .ofSound (reads_bind reads_identifier fun first us => reads_rest fun ts => ?_)
  refine reads_bind (reads_skipSome _) fun _ vs => reads_pure fun after ⟨hvs, _⟩ hts hus hsound => ?_
  simp only [List.append_nil, List.nil_append] at hts hvs hsound ⊢
  rw [List.append_assoc, ← hts] at hsound
  rw [← hts] at hvs
  obtain ⟨hnames, hwords⟩ := written_furtherNames fun t ht => hsound t (List.mem_append_right _ ht)
  rw [List.map_append, hus.2, hvs, hwords]
  exact .mk hus.1 hnames rfl

/-- The pairs of brackets in front, where the words of marks are these marks. -/
theorem map_dimensions {f : Token → Word} {ts : List Token}
    (hf : ∀ t ∈ ts, ∀ m, t.kind = .mark m → f t = .mark m) :
    (ts.take (2 * dimensions ts)).map f = bracketWords (dimensions ts) := by
  fun_induction dimensions ts with
  | case1 a b ts h ih =>
    have ha := hf a (by simp) _ h.1
    have hb := hf b (by simp) _ h.2
    have hts := ih fun u hu => hf u (by simp [hu])
    simp [Nat.mul_add, bracketWords, ha, hb, hts]
  | case2 | case3 => simp [bracketWords]

theorem reads_brackets :
    Reads c (fun n us _ => us.map Token.written = bracketWords n) brackets := by
  refine .ofSound (reads_rest fun ts => ?_)
  refine reads_bind (reads_skipSome _) fun _ vs => reads_pure fun after ⟨hvs, _⟩ hts hsound => ?_
  simp only [List.append_nil, List.nil_append] at hts hvs hsound ⊢
  rw [← hts] at hvs hsound
  rw [hvs]
  exact map_dimensions fun t ht m hm => (fixes_mark m).written t (hsound t ht) hm

/-! ### Excerpts -/

/-- What a complete capture passes by. -/
theorem passesBy_of_extent {rule : CaptureRule} {cap n : Nat} {closers : List Mark}
    {previous : Option Kind} {ts : List Token}
    (h : extent rule cap closers previous ts = (n, .complete)) :
    PassesBy rule closers previous (ts.take n) (ts.drop n) := by
  fun_induction extent rule cap closers previous ts generalizing n with
  | case6 closers previous t ts hk hends inner hinner room m e hrec ih =>
    obtain ⟨rfl, rfl⟩ : m + 1 = n ∧ e = .complete := by simpa using h
    rintro front u back hts hopen
    rcases front with _ | ⟨v, front⟩
    · obtain ⟨rfl, rfl⟩ : t = u ∧ ts.take m = back := by simpa using hts
      simp only [openBrackets, Option.some.injEq] at hopen
      subst hopen
      simpa using hends
    · obtain ⟨rfl, hback⟩ : t = v ∧ ts.take m = front ++ u :: back := by simpa using hts
      rw [openBrackets, hinner, Option.bind_some] at hopen
      exact ih hrec front u back hback hopen
  | case1 | case2 | case3 | case4 | case5 =>
    obtain rfl : 0 = n := congrArg Prod.fst h
    rintro front u back hts
    simp at hts

/-- A complete capture ends before a token that ends it. -/
theorem extent_ends {rule : CaptureRule} {cap n : Nat} {closers : List Mark} {previous : Option Kind}
    {ts : List Token} (h : extent rule cap closers previous ts = (n, .complete)) :
    ts.drop n = [] ∨ ∃ p next, rule.endsBefore p (kindOf (ts.drop n)) next = true := by
  fun_induction extent rule cap closers previous ts generalizing n with
  | case1 closers => exact .inl (by simp)
  | case3 _ closers previous t ts hk hends =>
    obtain rfl : 0 = n := congrArg Prod.fst h
    rw [Bool.and_eq_true] at hends
    exact .inr ⟨_, _, hends.2⟩
  | case6 closers previous t ts hk hends inner hinner room m e hrec ih =>
    obtain ⟨rfl, rfl⟩ : m + 1 = n ∧ e = .complete := by simpa using h
    simpa using ih hrec
  | case2 | case4 | case5 => simp at h

theorem endsBefore_dot {rule : CaptureRule} (h : rule.stops.contains (.mark .dot) = false)
    (p : Option Kind) (next : Kind) : rule.endsBefore p (.mark .dot) next = false := by
  rw [endsBefore_eq, h]
  simp [isCloser, isBoundary, isTypeStart, Mark.isCloser, Kind.isPrimitive]

theorem endsBefore_next {rule : CaptureRule} {p : Option Kind} {k next next' : Kind}
    (h : next ≠ .mark .dot) (h' : next' ≠ .mark .dot) :
    rule.endsBefore p k next = rule.endsBefore p k next' := by
  rw [endsBefore_eq, endsBefore_eq]
  refine congrArg _ (congrArg _ ?_)
  unfold isBoundary
  split <;> simp [h, h']

/-- What is cut out of a text is an excerpt that a capture takes as a whole. -/
theorem captured_of_extent {rule : CaptureRule} {cap n : Nat} {ts : List Token} (hn : n ≠ 0)
    (h : extent rule cap [] none ts = (n, .complete))
    (hdot : rule.stops.contains (.mark .dot) = false) : Captured rule ⟨ts.take n⟩ := by
  have hends : kindOf (ts.drop n) ≠ .mark .dot := by
    rcases extent_ends h with hnil | ⟨p, next, hend⟩
    · rw [hnil]
      nofun
    · intro hk
      rw [hk, endsBefore_dot hdot] at hend
      cases hend
  have hbalanced := tells_extent rule cap [] none ts
  have hvalid := extent_valid rule cap [] none ts
  have hnil : ts ≠ [] := by
    rintro rfl
    rw [extent] at h
    exact hn (congrArg Prod.fst h).symm
  rw [h] at hbalanced hvalid
  refine ⟨by simp [hn, hnil], hbalanced, hvalid, fun after hafter front t back hts hopen => ?_⟩
  have hpass := passesBy_of_extent h front t back hts hopen
  rcases back with _ | ⟨u, back⟩
  · exact (endsBefore_next hafter hends).trans hpass
  · exact hpass

theorem reads_excerpt {rule : CaptureRule} (hdot : rule.stops.contains (.mark .dot) = false)
    (what : String) :
    Reads c (fun e us _ => ExcerptFrom rule e (us.map Token.written) ∧ us = e.tokens ∧
      us.length ≤ c.limits.excerptTokens) (excerpt rule what) := by
  refine ⟨grows_of_contained fun _ => contained_excerpt rule what, fun {s e s'} hrun _ hsound => ?_⟩
  obtain ⟨n, hn, hx, rfl, rfl⟩ := excerpt_eq_ok.mp hrun
  have hcaptured := captured_of_extent hn hx hdot
  have hshort := extent_short rule c.limits.excerptTokens [] none s.rest
  rw [hx] at hshort
  refine ⟨s.rest.take n, (List.take_append_drop n s.rest).symm, ⟨hcaptured, ?_, rfl⟩, rfl,
    Nat.le_trans (List.length_take_le n s.rest) hshort⟩
  exact fun t ht => (hsound t (List.mem_of_mem_take ht)).isReadable (hcaptured.valid t ht)

theorem reads_parenthesized (what : String) :
    Reads c (fun e us _ => ParenFrom e (us.map Token.written)) (parenthesized what) := by
  refine reads_bind (reads_require (fixes_mark _) _) fun _ us => ?_
  refine reads_bind (reads_excerpt rfl what) fun e vs => ?_
  refine reads_bind (reads_require (fixes_mark _) _) fun _ ts => reads_pure fun _ hts hvs hus => ?_
  exact ⟨_, hvs.1, by simp [hus, hts]⟩

theorem reads_arguments (what : String) :
    Reads c (fun e us _ => ArgumentsFrom e (us.map Token.written)) (arguments what) := by
  refine reads_bind (reads_require (fixes_mark _) _) fun _ us => ?_
  refine reads_checkJoin (P := fun e vs _ => (e = ⟨[]⟩ ∧ vs = []) ∨
      ExcerptFrom parenRule e (vs.map Token.written)) ?_ ?_ fun e vs => ?_
  · exact reads_pure fun _ _ => .inl ⟨rfl, rfl⟩
  · exact (reads_excerpt rfl what).mono fun _ _ _ he _ => .inr he.1
  · refine reads_bind (reads_require (fixes_mark _) _) fun _ ts => reads_pure fun _ hts hvs hus => ?_
    rcases hvs with ⟨rfl, rfl⟩ | he
    · simpa [hus, hts] using ArgumentsFrom.empty
    · exact .some ⟨_, he, by simp [hus, hts]⟩

theorem reads_optionalArguments (what : String) :
    Reads c (fun e us _ => OptionWords ArgumentsFrom e (us.map Token.written))
      (optionalArguments what) := by
  refine reads_checkIte ?_ (reads_pure fun _ _ => .none)
  refine reads_bind (reads_arguments what) fun e us => reads_pure fun _ he _ => ?_
  simpa using OptionWords.some he

/-! ### Types -/

theorem not_endsAngle_of_angleExtent (cap : Nat) (depth : Int) (ts : List Token) :
    ∀ t ∈ ts.take (angleExtent cap depth ts).1, endsAngle t.kind = false := by
  fun_induction angleExtent cap depth ts with
  | case1 | case2 | case3 => simp
  | case4 depth t ts hends room d hd => simpa using hends
  | case5 depth t ts hends room d hd n e hrec ih =>
    rw [hrec] at ih
    simpa using And.intro (Bool.eq_false_iff.mpr hends) ih

/-- A list that is read whole ends where its brackets are closed, however its tokens are taken as words. -/
theorem upToClosing_of_angleExtent {f : Token → Word} (hf : ∀ t, (f t).kind = t.kind) {cap : Nat}
    {depth : Int} {ts : List Token} (h : (angleExtent cap depth ts).2 = .complete) :
    Angle.upToClosing depth ((ts.take (angleExtent cap depth ts).1).map f) =
      some ((ts.take (angleExtent cap depth ts).1).map f) := by
  induction ts generalizing cap depth with
  | nil => simp [angleExtent] at h
  | cons t ts ih =>
    rw [angleExtent.eq_def] at h ⊢
    by_cases hends : endsAngle t.kind = true
    · simp [hends] at h
    simp only [if_neg hends] at h ⊢
    rcases cap with _ | room
    · cases h
    · by_cases hd : depth + Angle.weight t.kind ≤ 0
      · simp only [if_pos hd]
        exact if_pos (by rwa [hf])
      · simp only [if_neg hd] at h ⊢
        rw [List.take_succ_cons, List.map_cons, Angle.upToClosing, hf]
        exact (if_neg hd).trans (congrArg (Option.map (f t :: ·)) (ih h))

theorem reads_angleText : Reads c (fun x us after => kindOf (us ++ after) = .mark .less →
    Spelled (ListFrom x) us) angleText := by
  refine ⟨grows_of_contained fun _ => skirts_angleText.contained, fun {s x s'} hrun _ hsound => ?_⟩
  obtain ⟨n, hx, rfl, rfl⟩ := angleText_eq_ok hrun
  have hangle := not_endsAngle_of_angleExtent c.limits.excerptTokens 0 s.rest
  rw [hx] at hangle
  have hreadable : ∀ t ∈ s.rest.take n, t.IsReadable ∧ endsAngle t.kind = false := by
    intro t ht
    refine ⟨(hsound t (List.mem_of_mem_take ht)).isReadable fun hk => ?_, hangle t ht⟩
    have hends := hangle t ht
    rw [hk] at hends
    cases hends
  have hclosing := upToClosing_of_angleExtent (f := Token.written) (fun _ => rfl) (congrArg Prod.snd hx)
  rw [hx] at hclosing
  refine ⟨s.rest.take n, (List.take_append_drop n s.rest).symm, fun hless => ⟨_, .mk hreadable ?_, rfl⟩⟩
  rcases hts : s.rest.take n with _ | ⟨t, ts⟩
  · rw [hts] at hclosing
    cases hclosing
  · rw [hts] at hless hclosing
    rw [List.map_cons, Angle.list?]
    exact (if_pos hless).trans hclosing

theorem spelled_some {R : α → Passage → Prop} {a : α} {us : List Token} (h : Spelled (R a) us) :
    Spelled (OptionFrom R (some a)) us := by
  obtain ⟨p, hp, hwords⟩ := h
  exact ⟨p, .some hp, hwords⟩

theorem spelled_none {R : α → Passage → Prop} : Spelled (OptionFrom R none) [] := ⟨_, .none, rfl⟩

theorem reads_typeParameters :
    Reads c (fun o us _ => Spelled (OptionFrom ListFrom o) us) typeParameters := by
  refine reads_checkIte ?_ (reads_pure fun _ _ => spelled_none)
  refine reads_bind reads_angleText fun x us => reads_pure fun _ hx hless => ?_
  simpa using spelled_some (hx (by simpa using hless))

theorem reads_typeName (known : String) (n : Nat) :
    Reads c (fun name us _ => Spelled (TypeRestFrom known name) us) (typeName known n) := by
  induction n generalizing known with
  | zero =>
    refine reads_pure fun _ => ⟨.plain [], ?_, rfl⟩
    simpa using @TypeRestFrom.done known _ _ .none
  | succ n ih =>
    rw [typeName]
    simp only [← bind_assoc]
    refine reads_checkJoin (P := fun named us _ => ∃ list, named = known ++ list.getD "" ∧
      Spelled (OptionFrom ListFrom list) us) ?_ ?_ fun named us => ?_
    · refine reads_bind reads_angleText fun x us => reads_pure fun _ hx hless => ?_
      exact ⟨some x, rfl, by simpa using spelled_some (hx (by simpa using hless))⟩
    · exact reads_pure fun _ _ => ⟨none, by simp, spelled_none⟩
    refine reads_rest fun ts => ?_
    by_cases hdot : startsWith (.mark .dot) .identifier ts = true
    · rw [if_pos hdot, bind_assoc]
      refine reads_bind (reads_skip (fixes_mark .dot)) fun _ ds => ?_
      refine reads_bind reads_identifier fun x xs => (ih _).mono fun name vs after hvs hx hds hts hus => ?_
      obtain ⟨q, hq, hqw⟩ := hvs
      obtain ⟨list, rfl, p, hp, hpw⟩ := hus
      refine ⟨_, .dot hp hx.1 hq, ?_⟩
      have hds := hds (by
        have hk := kindOf_of_startsWith hdot
        rw [hts] at hk
        simpa using hk)
      simp [hpw, hqw, hx.2, hds]
    · rw [if_neg hdot]
      refine reads_pure fun _ _ hus => ?_
      obtain ⟨list, hnamed, p, hp, hpw⟩ := hus
      rw [hnamed]
      exact ⟨p, .done hp, by simpa using hpw⟩

/-- A built-in type that is next. -/
theorem reads_primitive {first : Token} (h : first.kind.isPrimitive = true) :
    Reads c (fun _ us after => first = (us ++ after).headD (.endAt c.stop) →
      Spelled (TypeNameFrom first.lexeme) us) (skip 1) := by
  refine (reads_skipSome 1).mono fun _ us after ⟨hus, hsound⟩ hfirst => ?_
  obtain ⟨p, hk⟩ := eq_primitive h
  rcases hall : us ++ after with _ | ⟨t, ts⟩
  · rw [hall] at hfirst
    rw [hfirst] at hk
    cases hk
  · rw [hall] at hfirst hus
    obtain rfl : first = t := hfirst
    subst hus
    have hwritten := (fixes_keyword (.primitive p)).written first (hsound first (by simp)) hk
    have hlexeme := (hsound first (by simp)).isReadable (by rw [hk]; nofun) |>.lexeme_of_keyword hk
    exact ⟨_, by rw [hlexeme]; exact .primitive p, by simp [hwritten]⟩

theorem reads_typeUse : Reads c (fun t us _ => Spelled (TypeFrom t) us) typeUse := by
  refine reads_still still_here fun start => reads_peek fun first => ?_
  have hbrackets (name : String) (us : List Token) : Reads c
      (fun t vs _ => Spelled (TypeNameFrom name) us → Spelled (TypeFrom t) (us ++ vs)) (do
        let n ← brackets
        return ⟨name, n, ← spanFrom start⟩) := by
    refine reads_bind reads_brackets fun n vs => reads_still (still_spanFrom _) fun span => ?_
    refine reads_pure fun _ hvs ⟨q, hq, hqw⟩ => ⟨_, ⟨q, hq, rfl⟩, ?_⟩
    simp [hqw, hvs]
  refine reads_ite (fun h => ?_) fun _ => reads_ite (fun hk => ?_) fun _ => ?_
  · refine reads_bind (reads_primitive h) fun _ us => ?_
    rw [pure_bind]
    refine (hbrackets _ us).mono fun t vs after ht hus hfirst => ht (hus ?_)
    rwa [← List.append_assoc]
  · refine reads_bind reads_identifier fun x us => reads_still still_steps fun n => ?_
    refine reads_bind (reads_typeName x n) fun name vs => ?_
    refine (hbrackets name (us ++ vs)).mono fun t ts after ht hvs hus hfirst => ?_
    obtain ⟨p, hp, hpw⟩ := hvs
    rw [← List.append_assoc]
    exact ht ⟨_, .named hus.1 hp, by simp [hus.2, hpw]⟩
  · refine reads_bind (P := fun _ _ _ => False) (reads_fail _) fun name us => ?_
    exact (hbrackets name us).mono fun _ _ _ _ => nofun

theorem reads_moreTypes (n : Nat) :
    Reads c (fun ts us _ => ∀ t p, TypeFrom t p → ∃ q, CommaFrom TypeFrom (t :: ts) q ∧
      q.words = p.words ++ us.map Token.written) (moreTypes n) := by
  induction n with
  | zero => exact reads_pure fun _ t p ht => ⟨p, .one ht, by simp⟩
  | succ n ih =>
    refine reads_accept (fixes_mark .comma) (fun us => ?_) ?_
    · refine reads_bind reads_typeUse fun t vs => reads_bind ih fun ts ws => ?_
      refine reads_pure fun _ hts ⟨p, hp, hpw⟩ hus t' p' ht' => ?_
      obtain ⟨q, hq, hqw⟩ := hts t p hp
      exact ⟨_, .cons ht' hq, by simp [hqw, hpw, hus]⟩
    · exact reads_pure fun _ _ t p ht => ⟨p, .one ht, by simp⟩

theorem reads_typeList : Reads c (fun ts us _ => Spelled (CommaFrom TypeFrom ts) us) typeList := by
  refine reads_bind reads_typeUse fun t us => reads_still still_steps fun n => ?_
  refine reads_bind (reads_moreTypes n) fun ts vs => reads_pure fun _ hts ⟨p, hp, hpw⟩ => ?_
  obtain ⟨q, hq, hqw⟩ := hts t p hp
  exact ⟨q, hq, by simp [hqw, hpw]⟩

theorem reads_typesAfter (k : Keyword) :
    Reads c (fun ts us _ => Spelled (ClauseFrom k ts) us) (typesAfter k) := by
  refine reads_accept (fixes_keyword k) (fun us => ?_) (reads_pure fun _ _ => ⟨_, .nil, rfl⟩)
  refine reads_typeList.mono fun ts vs _ ⟨p, hp, hpw⟩ hus => ⟨_, .some hp, ?_⟩
  simp [hpw, hus]

/-! ### Parts of declarations -/

theorem reads_annotationUse :
    Reads c (fun a us _ => AnnotationFrom a (us.map Token.written)) annotationUse := by
  refine reads_still still_here fun start => reads_bind (reads_require (fixes_mark _) _) fun _ us => ?_
  refine reads_bind reads_qualifiedName fun x vs => ?_
  refine reads_bind (reads_optionalArguments _) fun args ws => ?_
  refine reads_still (still_spanFrom _) fun span => reads_pure fun _ hargs hx hus => ?_
  exact ⟨_, _, hx, hargs, by simp [hus]⟩

theorem reads_annotations (n : Nat) :
    Reads c (fun as us _ => EachWords AnnotationFrom as (us.map Token.written)) (annotations n) := by
  induction n with
  | zero => exact reads_pure fun _ => .nil
  | succ n ih =>
    refine reads_rest fun ts => reads_ite (fun _ => ?_) fun _ => reads_pure fun _ _ => .nil
    refine reads_bind reads_annotationUse fun a us => reads_bind ih fun as vs => ?_
    refine reads_pure fun _ has ha _ => ?_
    simpa using EachWords.cons ha has

theorem reads_qualifiers (found : Qualifiers) (n : Nat) :
    Reads c (fun q us _ => QualifiersFrom found q (us.map Token.written)) (qualifiers found n) := by
  induction n generalizing found with
  | zero => exact reads_pure fun _ => .done
  | succ n ih =>
    refine reads_rest fun ts => reads_ite (fun _ => ?_) fun _ => reads_kind fun k => ?_
    · refine reads_bind reads_annotationUse fun a us => (ih _).mono fun q vs _ hq ha _ => ?_
      simpa using QualifiersFrom.annotation ha hq
    · split
      · exact reads_pure fun _ _ _ => .done
      · next m hm =>
        refine reads_secondKind fun k' => reads_ite (fun _ => reads_pure fun _ _ _ _ => .done) fun _ => ?_
        refine reads_bind (reads_skip (fixes_keyword (.modifier m))) fun _ us => ?_
        refine (ih _).mono fun q vs after hq hus _ hk _ => ?_
        have hus := hus (by
          rw [← List.append_assoc, ← hk]
          revert hm
          fun_cases Kind.modifier? k with
          | case1 m' => exact fun h => by cases h; rfl
          | case2 => nofun)
        simpa [hus] using QualifiersFrom.modifier hq

theorem reads_allQualifiers :
    Reads c (fun q us _ => QualifiersFrom ⟨[], []⟩ q (us.map Token.written)) allQualifiers :=
  reads_still still_steps fun n => reads_qualifiers _ n

theorem reads_declarator :
    Reads c (fun d us _ => DeclaratorFrom d (us.map Token.written)) declarator := by
  refine reads_still still_here fun start => reads_bind reads_identifier fun x us => ?_
  refine reads_bind reads_brackets fun n vs => ?_
  simp only [← bind_assoc]
  refine reads_acceptJoin (fixes_mark .assign) (P := fun e ws _ =>
    OptionWords InitializerFrom e (ws.map Token.written)) (fun as => ?_) ?_ fun e ws => ?_
  · refine reads_bind (reads_excerpt rfl _) fun e ws => reads_pure fun _ he has => ?_
    exact .some ⟨_, he.1, by simp [has]⟩
  · exact reads_pure fun _ _ => .none
  · refine reads_still (still_spanFrom _) fun span => reads_pure fun _ he hn hx => ?_
    exact ⟨_, hx.1, he, by simp [hx.2, hn]⟩

theorem reads_declaratorList (n : Nat) :
    Reads c (fun ds us after => (us ++ after).length < n →
      CommaWords DeclaratorFrom ds (us.map Token.written)) (declaratorList n) := by
  induction n with
  | zero => exact reads_pure fun _ => nofun
  | succ n ih =>
    refine reads_bind reads_declarator fun d us => ?_
    refine reads_accept (fixes_mark .comma) (fun ts => ?_) ?_
    · refine reads_bind ih fun ds vs => reads_pure fun after hds hts hd hlen => ?_
      -- every variable but the last one takes a token, so the count does not run out
      have hcomma := congrArg List.length hts
      have hds := hds (by simp_all; omega)
      simpa [hts] using CommaWords.cons hd hds
    · exact reads_pure fun _ _ hd _ => by simpa using CommaWords.one hd

theorem reads_declarators :
    Reads c (fun ds us _ => ∃ dw, CommaWords DeclaratorFrom ds dw ∧
      us.map Token.written = dw ++ [.mark .semicolon]) declarators := by
  refine reads_steps fun n => reads_bind (reads_declaratorList n) fun ds us => ?_
  refine reads_bind (reads_require (fixes_mark _) _) fun _ vs => ?_
  refine reads_pure fun after hvs hds hn => ⟨_, hds ?_, by simp [hvs]⟩
  simp_all

theorem reads_fields (start : Location) (q : Qualifiers) :
    Reads c (fun fs us _ => Spelled (FieldsFrom q fs) us) (fields start q) := by
  refine reads_bind reads_typeUse fun t us => reads_bind reads_declarators fun ds vs => ?_
  refine reads_still (still_spanFrom _) fun span => ?_
  refine reads_pure fun _ ⟨dw, hds, hdw⟩ ⟨p, hp, hpw⟩ => ⟨_, .mk hp hds, ?_⟩
  simp [hpw, hdw]

/-- No run without findings leaves out a type. -/
theorem reads_skipType (construct : String) {R : β → List Token → List Token → Prop}
    {f : Unit → Parser β} (hf : Grows c (f ())) : Reads c R (skipType construct >>= f) := by
  unfold skipType
  simp only [bind_assoc]
  refine reads_still still_here fun l => reads_bind (reads_skipBy _) fun _ _ => ?_
  exact (reads_report (R := fun _ _ _ => False) _ hf).mono fun _ _ _ h => h.elim

end Parser

end JavaTree
