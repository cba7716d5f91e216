import Mathlib.Data.List.TakeWhile
import JavaTree.Parser.Unit
import JavaTree.Proofs.Leaves
import JavaTree.Proofs.Parser.Keeps

/-!
The leaves of a tree that has been read.

Whatever the tokens and the limits are, and whatever faults have been met and passed over, each excerpt
of a tree is a run of the tokens with all its brackets closed in order, and none is longer than the cap.
Only what is written between the parentheses of an annotation or of an enum constant may be empty. Each
type of a tree, and each list of type parameters, is what is read at some place among the tokens. Every
reader keeps the leaves of what it reads, so recovery has nothing to undo.
-/

namespace JavaTree

/-! ### Where a leaf was read -/

namespace Capture

/-- A capture that was cut out of the given tokens. One without tokens was written `()`. -/
structure LiesIn (cap : Nat) (ts : List Token) (x : Capture) : Prop where
  balanced : x.excerpt.isBalanced = true
  valid : ∀ t ∈ x.excerpt.tokens, t.kind ≠ .invalid
  short : x.excerpt.tokens.length ≤ cap
  within : x.excerpt.tokens <:+: ts
  written : match x with
    | expression e => e.tokens ≠ []
    | arguments e => ∃ o d, o.kind = .mark .openParen ∧ d.kind = .mark .closeParen ∧
        o :: e.tokens ++ [d] <:+: ts

theorem LiesIn.mono {cap : Nat} {ts us : List Token} {x : Capture} (h : x.LiesIn cap ts)
    (hts : ts <:+: us) : x.LiesIn cap us where
  balanced := h.balanced
  valid := h.valid
  short := h.short
  within := h.within.trans hts
  written := by
    cases x with
    | expression e => exact h.written
    | arguments e =>
      obtain ⟨o, d, ho, hd, hall⟩ := h.written
      exact ⟨o, d, ho, hd, hall.trans hts⟩

end Capture

namespace StoredText

/-- At the given tokens, reading a type gives one of that name, or reading a list gives that text. -/
def ReadAt (cap : Nat) (ts : List Token) : StoredText → Prop
  | use t => ∃ (c : Parser.Settings) (s : Parser.State) (u : TypeUse) (s' : Parser.State),
      c.limits.excerptTokens = cap ∧ s.rest = ts ∧ Parser.typeUse c s = .ok u s' ∧ u.name = t.name
  | parameters x => Parser.kindOf ts = .mark .less ∧
      ∃ (c : Parser.Settings) (s s' : Parser.State), c.limits.excerptTokens = cap ∧ s.rest = ts ∧
        Parser.angleText c s = .ok x s'

/-- A text that was read somewhere among the given tokens. -/
def LiesIn (cap : Nat) (ts : List Token) (x : StoredText) : Prop := ∃ us, us <:+ ts ∧ x.ReadAt cap us

end StoredText

namespace Leaf

/-- A leaf that was read among the given tokens, or says that a method returns nothing. -/
def LiesIn (cap : Nat) (ts : List Token) : Leaf → Prop
  | capture x => x.LiesIn cap ts
  | typeText x => x.isVoid = true ∨ x.LiesIn cap ts

variable {cap : Nat} {ts : List Token}

@[simp] theorem liesIn_expression {e : Excerpt} :
    (expression e).LiesIn cap ts ↔ (Capture.expression e).LiesIn cap ts := Iff.rfl

@[simp] theorem liesIn_arguments {e : Excerpt} :
    (arguments e).LiesIn cap ts ↔ (Capture.arguments e).LiesIn cap ts := Iff.rfl

@[simp] theorem liesIn_type {t : TypeUse} :
    (type t).LiesIn cap ts ↔ t.isVoid = true ∨ (StoredText.use t).LiesIn cap ts := Iff.rfl

@[simp] theorem liesIn_parameters {x : String} :
    (parameters x).LiesIn cap ts ↔ (StoredText.parameters x).LiesIn cap ts := by
  simp [parameters, LiesIn, StoredText.isVoid]

end Leaf

namespace Parser

open Excerpt

variable {α β : Type} {c : Settings} {ts : List Token}

/-! ### Parts -/

/-- All of some leaves lie in the given tokens. -/
def Kept (c : Settings) (ts : List Token) (xs : List Leaf) : Prop :=
  ∀ x ∈ xs, x.LiesIn c.limits.excerptTokens ts

@[simp] theorem kept_nil : Kept c ts [] := nofun

@[simp] theorem kept_cons {x : Leaf} {xs : List Leaf} :
    Kept c ts (x :: xs) ↔ x.LiesIn c.limits.excerptTokens ts ∧ Kept c ts xs := by
  simp [Kept]

@[simp] theorem kept_append {xs ys : List Leaf} :
    Kept c ts (xs ++ ys) ↔ Kept c ts xs ∧ Kept c ts ys := by
  simp [Kept, or_imp, forall_and]

theorem extent_valid (rule : CaptureRule) (cap : Nat) (closers : List Mark)
    (previous : Option Kind) (ts : List Token) :
    ∀ t ∈ ts.take (extent rule cap closers previous ts).1, t.kind ≠ .invalid := by
  fun_induction extent rule cap closers previous ts with
  | case6 closers previous t ts hk hends inner hinner room n e hrec ih =>
    rw [hrec] at ih
    simpa using ⟨hk, ih⟩
  | case1 | case2 | case3 | case4 | case5 => simp

theorem extent_short (rule : CaptureRule) (cap : Nat) (closers : List Mark)
    (previous : Option Kind) (ts : List Token) : (extent rule cap closers previous ts).1 ≤ cap := by
  fun_induction extent rule cap closers previous ts with
  | case6 closers previous t ts hk hends inner hinner room n e hrec ih =>
    rw [hrec] at ih
    exact Nat.succ_le_succ ih
  | case1 | case2 | case3 | case4 | case5 => exact Nat.zero_le _

/-- What a complete capture takes is balanced, valid and short. -/
theorem liesIn_of_excerpt {rule : CaptureRule} {what : String} {s s' : State} {e : Excerpt}
    (h : excerpt rule what c s = .ok e s') (hs : s.rest <:+ ts) :
    (Capture.expression e).LiesIn c.limits.excerptTokens ts ∧ s.rest = e.tokens ++ s'.rest := by
  obtain ⟨n, hn, hx, rfl, rfl⟩ := excerpt_eq_ok.mp h
  have htells := tells_extent rule c.limits.excerptTokens [] none s.rest
  have hvalid := extent_valid rule c.limits.excerptTokens [] none s.rest
  have hshort := extent_short rule c.limits.excerptTokens [] none s.rest
  have hends : s.rest ≠ [] := by
    intro hnil
    rw [hnil, extent] at hx
    exact hn (congrArg Prod.fst hx).symm
  rw [hx] at htells hvalid hshort
  refine ⟨⟨isBalanced_iff.mpr htells, hvalid, ?_, ?_, ?_⟩, (List.take_append_drop n s.rest).symm⟩
  · exact Nat.le_trans (List.length_take_le n s.rest) hshort
  · exact (List.take_prefix n s.rest).isInfix.trans hs.isInfix
  · simpa [Capture.excerpt] using ⟨hn, hends⟩

theorem keeps_excerpt (rule : CaptureRule) (what : String) :
    Keeps ts c (fun e => (Capture.expression e).LiesIn c.limits.excerptTokens ts)
      (excerpt rule what) :=
  fun _ hs => ⟨(contained_excerpt rule what).1.trans hs, fun _ _ hrun => (liesIn_of_excerpt hrun hs).1⟩

/-- An expression that may be left out. -/
theorem keeps_someExcerpt (rule : CaptureRule) (what : String) :
    Keeps ts c (fun e => Kept c ts (e.toList.map .expression))
      (do return some (← excerpt rule what)) :=
  keeps_bind (keeps_excerpt rule what) fun e he => keeps_pure (by simpa using he)

theorem keeps_parenthesized (what : String) :
    Keeps ts c (fun e => (Capture.expression e).LiesIn c.limits.excerptTokens ts)
      (parenthesized what) := by
  refine keeps_bind (keeps_require _ _) fun _ _ => keeps_bind (keeps_excerpt _ _) fun _ he => ?_
  exact keeps_bind (keeps_require _ _) fun _ _ => keeps_pure he

theorem eq_cons_of_require {k : Kind} {expected : String} {u : Unit} {s s' : State}
    (h : require k expected c s = .ok u s') (hk : k ≠ .endOfInput) :
    ∃ t, t.kind = k ∧ s.rest = t :: s'.rest := by
  rw [require_run] at h
  split at h
  · next hkind =>
    cases h
    rcases hs : s.rest with _ | ⟨t, us⟩
    · rw [hs] at hkind
      exact absurd hkind.symm hk
    · rw [hs] at hkind
      exact ⟨t, hkind, by simp [hs]⟩
  · cases h

/-- Arguments lie between their parentheses, and there may be none. -/
theorem keeps_arguments (what : String) :
    Keeps ts c (fun e => (Capture.arguments e).LiesIn c.limits.excerptTokens ts)
      (arguments what) := by
  refine fun s hs => ⟨(contained_arguments what).1.trans hs, fun e s' hrun => ?_⟩
  obtain ⟨_, s₁, hopen, hrun⟩ := bind_eq_ok.mp hrun
  obtain ⟨o, ho, hrest⟩ := eq_cons_of_require hopen nofun
  have hs₁ : s₁.rest <:+ ts := (List.suffix_cons o s₁.rest).trans (hrest ▸ hs)
  rw [bind_run_ok (check_run _)] at hrun
  -- in either case the arguments are a capture up to the closing parenthesis
  obtain ⟨s₂, hmid, hbalanced, hvalid, hshort, hclose⟩ : ∃ s₂, s₁.rest = e.tokens ++ s₂.rest ∧
      e.isBalanced = true ∧ (∀ t ∈ e.tokens, t.kind ≠ .invalid) ∧
      e.tokens.length ≤ c.limits.excerptTokens ∧
      (require Mark.closeParen ("')' after " ++ what) >>= fun _ => pure e) c s₂ = .ok e s' := by
    rw [ite_run] at hrun
    split at hrun
    · rw [bind_run_ok (pure_run _)] at hrun
      obtain ⟨_, s₃, hclose, he⟩ := bind_eq_ok.mp hrun
      cases he
      refine ⟨s₁, rfl, rfl, nofun, Nat.zero_le _, ?_⟩
      rw [bind_run_ok hclose]
      rfl
    · obtain ⟨e', s₂, hexcerpt, hrun⟩ := bind_eq_ok.mp hrun
      obtain ⟨hlies, hmid⟩ := liesIn_of_excerpt hexcerpt hs₁
      obtain ⟨_, s₃, hclose, he⟩ := bind_eq_ok.mp hrun
      cases he
      refine ⟨s₂, hmid, hlies.balanced, hlies.valid, hlies.short, ?_⟩
      rw [bind_run_ok hclose]
      rfl
  obtain ⟨_, s₃, hclose, he⟩ := bind_eq_ok.mp hclose
  obtain ⟨d, hd, hrest'⟩ := eq_cons_of_require hclose nofun
  have hall : o :: e.tokens ++ [d] <:+: ts := by
    refine List.IsInfix.trans ⟨[], s₃.rest, ?_⟩ hs.isInfix
    rw [hrest, hmid, hrest']
    simp
  exact ⟨hbalanced, hvalid, hshort, List.IsInfix.trans ⟨[o], [d], rfl⟩ hall, o, d, ho, hd, hall⟩

theorem keeps_optionalArguments (what : String) :
    Keeps ts c (fun e => Kept c ts (e.toList.map .arguments)) (optionalArguments what) := by
  refine keeps_bind (keeps_check _) fun _ _ => keeps_ite ?_ (keeps_pure kept_nil)
  exact keeps_bind (keeps_arguments what) fun e he => keeps_pure (by simpa using he)

theorem keeps_annotationUse : Keeps ts c (fun a => Kept c ts a.leaves) annotationUse := by
  refine keeps_bind keeps_here fun _ _ => keeps_bind (keeps_require _ _) fun _ _ => ?_
  refine keeps_bind (keeps_of_skirts fun _ => skirts_qualifiedName) fun _ _ => ?_
  refine keeps_bind (keeps_optionalArguments _) fun _ he => ?_
  exact keeps_bind (keeps_spanFrom _) fun _ _ => keeps_pure he

theorem keeps_annotations (n : Nat) :
    Keeps ts c (fun as => Kept c ts (as.flatMap (·.leaves))) (annotations n) := by
  induction n with
  | zero => exact keeps_pure kept_nil
  | succ n ih =>
    refine keeps_bind keeps_rest fun _ _ => keeps_ite ?_ (keeps_pure kept_nil)
    refine keeps_bind keeps_annotationUse fun a ha => keeps_bind ih fun as has => keeps_pure ?_
    simpa using ⟨ha, has⟩

theorem keeps_qualifiers {found : Qualifiers} (h : Kept c ts (found.annotations.flatMap (·.leaves)))
    (n : Nat) :
    Keeps ts c (fun q => Kept c ts (q.annotations.flatMap (·.leaves))) (qualifiers found n) := by
  induction n generalizing found with
  | zero => exact keeps_pure h
  | succ n ih =>
    refine keeps_bind keeps_rest fun _ _ => keeps_ite ?_ ?_
    · exact keeps_bind keeps_annotationUse fun a ha => ih (by simpa using ⟨h, ha⟩)
    · refine keeps_bind keeps_kind fun k _ => ?_
      split
      · exact keeps_pure h
      · refine keeps_bind keeps_secondKind fun _ _ => keeps_ite (keeps_pure h) ?_
        exact keeps_bind (keeps_skip 1) fun _ _ => ih h

theorem keeps_allQualifiers :
    Keeps ts c (fun q => Kept c ts (q.annotations.flatMap (·.leaves))) allQualifiers :=
  keeps_bind keeps_steps fun _ _ => keeps_qualifiers kept_nil _

theorem keeps_declarator : Keeps ts c (fun d => Kept c ts d.leaves) declarator := by
  refine keeps_bind keeps_here fun _ _ => ?_
  refine keeps_bind (keeps_of_skirts fun _ => skirts_identifier) fun _ _ => ?_
  refine keeps_bind (keeps_of_skirts fun _ => skirts_brackets) fun _ _ => ?_
  refine keeps_bind (keeps_accept _) fun _ _ => ?_
  simp only [← bind_assoc]
  refine keeps_join (keeps_someExcerpt _ _) (keeps_pure kept_nil) fun _ he => ?_
  exact keeps_bind (keeps_spanFrom _) fun _ _ => keeps_pure he

theorem keeps_declaratorList (n : Nat) :
    Keeps ts c (fun ds => Kept c ts (ds.flatMap (·.leaves))) (declaratorList n) := by
  induction n with
  | zero => exact keeps_pure kept_nil
  | succ n ih =>
    refine keeps_bind keeps_declarator fun d hd => keeps_bind (keeps_accept _) fun _ _ => ?_
    refine keeps_ite (keeps_bind ih fun ds hds => keeps_pure ?_) (keeps_pure ?_)
    · simpa using ⟨hd, hds⟩
    · simpa using hd

theorem keeps_declarators :
    Keeps ts c (fun ds => Kept c ts (ds.flatMap (·.leaves))) declarators := by
  refine keeps_bind keeps_steps fun _ _ => keeps_bind (keeps_declaratorList _) fun _ hds => ?_
  exact keeps_bind (keeps_require _ _) fun _ _ => keeps_pure hds

theorem keeps_typeUse :
    Keeps ts c (fun t => (StoredText.use t).LiesIn c.limits.excerptTokens ts) typeUse :=
  fun s hs => ⟨(keeps_of_skirts (fun _ => skirts_typeUse) s hs).1, fun t s' hrun =>
    ⟨s.rest, hs, c, s, t, s', rfl, rfl, hrun, rfl⟩⟩

theorem keeps_moreTypes (n : Nat) : Keeps ts c (fun us => Kept c ts (us.map .type)) (moreTypes n) := by
  induction n with
  | zero => exact keeps_pure kept_nil
  | succ n ih =>
    refine keeps_bind (keeps_accept _) fun _ _ => keeps_ite ?_ (keeps_pure kept_nil)
    refine keeps_bind keeps_typeUse fun u hu => keeps_bind ih fun us hus => keeps_pure ?_
    simpa using ⟨.inr hu, hus⟩

theorem keeps_typesAfter (k : Keyword) :
    Keeps ts c (fun us => Kept c ts (us.map .type)) (typesAfter k) := by
  refine keeps_bind (keeps_accept _) fun _ _ => keeps_ite ?_ (keeps_pure kept_nil)
  refine keeps_bind keeps_typeUse fun u hu => keeps_bind keeps_steps fun _ _ => ?_
  refine keeps_bind (keeps_moreTypes _) fun us hus => keeps_pure ?_
  simpa using ⟨.inr hu, hus⟩

theorem keeps_typeParameters :
    Keeps ts c (fun o => Kept c ts (o.toList.map .parameters)) typeParameters := by
  refine fun s hs => ⟨(keeps_of_skirts (fun _ => skirts_typeParameters) s hs).1, fun o s' hrun => ?_⟩
  rw [typeParameters, bind_run_ok (check_run _), ite_run] at hrun
  split at hrun
  · next hless =>
    obtain ⟨x, s₁, hangle, hx⟩ := bind_eq_ok.mp hrun
    cases hx
    simpa using ⟨s.rest, hs, by simpa using hless, c, s, _, rfl, rfl, hangle⟩
  · cases hrun
    exact kept_nil

theorem kept_fields {q : Qualifiers} {t : TypeUse} {ds : List Declarator} {span : Span}
    (hq : Kept c ts (q.annotations.flatMap (·.leaves)))
    (ht : (StoredText.use t).LiesIn c.limits.excerptTokens ts) (hds : Kept c ts (ds.flatMap (·.leaves))) :
    Kept c ts ((ds.map fun v => (⟨q.modifiers, q.annotations,
      { t with dimensions := t.dimensions + v.dimensions }, v.name, v.initializer, span⟩ :
      Field)).flatMap (·.leaves)) := by
  induction ds with
  | nil => exact kept_nil
  | cons d ds ih =>
    simp only [List.flatMap_cons, kept_append] at hds
    simp only [List.map_cons, List.flatMap_cons, kept_append, kept_cons, Leaf.liesIn_type, Field.leaves]
    exact ⟨⟨hq, .inr ht, hds.1⟩, ih hds.2⟩

theorem keeps_fields {start : Location} {q : Qualifiers}
    (hq : Kept c ts (q.annotations.flatMap (·.leaves))) :
    Keeps ts c (fun fs => Kept c ts (fs.flatMap (·.leaves))) (fields start q) := by
  refine keeps_bind keeps_typeUse fun type ht => keeps_bind keeps_declarators fun ds hds => ?_
  exact keeps_bind (keeps_spanFrom _) fun _ _ => keeps_pure (kept_fields hq ht hds)

theorem keeps_skipType (construct : String) : Keeps ts c (fun _ => True) (skipType construct) :=
  keeps_bind keeps_here fun _ _ => keeps_bind (keeps_skipBy _) fun _ _ => keeps_report _

/-! ### Statements -/

theorem keeps_skipGroup (opener : Mark) : Keeps ts c (fun _ => True) (skipGroup opener) :=
  keeps_bind (keeps_check _) fun _ _ => keeps_ite (keeps_skipBy _) (keeps_pure trivial)

theorem keeps_skipCatches (n : Nat) : Keeps ts c (fun _ => True) (skipCatches n) :=
  keeps_of_contained fun _ => contained_skipCatches n

theorem keeps_skipTryWithResources : Keeps ts c (fun _ => True) skipTryWithResources := by
  refine keeps_bind keeps_here fun _ _ => keeps_bind (keeps_skip 1) fun _ _ => ?_
  refine keeps_bind (keeps_skipBy _) fun _ _ => keeps_bind (keeps_skipGroup _) fun _ _ => ?_
  refine keeps_bind keeps_steps fun _ _ => keeps_bind (keeps_skipCatches _) fun _ _ => ?_
  refine keeps_bind (keeps_accept _) fun _ _ => keeps_ite ?_ (keeps_report _)
  exact keeps_bind (keeps_skipGroup _) fun _ _ => keeps_report _

section Statements

variable {st : Parser Statement}

/-- The leaves of statements in a row are kept. -/
def KeptAll (c : Settings) (ts : List Token) (ss : List Statement) : Prop :=
  Kept c ts (Statement.allLeaves ss)

theorem keptAll_fields {fs : List Field} (h : Kept c ts (fs.flatMap (·.leaves))) :
    KeptAll c ts (fs.map .field) := by
  induction fs with
  | nil => exact kept_nil
  | cons f fs ih =>
    simp only [List.flatMap_cons, kept_append] at h
    simp only [KeptAll, List.map_cons, Statement.allLeaves, Statement.leaves, kept_append]
    exact ⟨h.1, ih h.2⟩

variable (hst : Keeps ts c (fun s => Kept c ts s.leaves) st)

include hst

theorem keeps_blockStatement : Keeps ts c (KeptAll c ts) (blockStatement st) := by
  refine keeps_bind keeps_rest fun _ _ => keeps_ite ?_ (keeps_ite ?_ (keeps_ite ?_ ?_))
  · exact keeps_bind (keeps_skipType _) fun _ _ => keeps_pure kept_nil
  · exact keeps_bind keeps_skipTryWithResources fun _ _ => keeps_pure kept_nil
  · refine keeps_bind keeps_here fun _ _ => keeps_bind keeps_allQualifiers fun q hq => ?_
    refine keeps_bind keeps_kind fun _ _ => keeps_ite ?_ ?_
    · exact keeps_bind (keeps_skipType _) fun _ _ => keeps_pure kept_nil
    · exact keeps_bind (keeps_fields hq) fun fs hfs => keeps_pure (keptAll_fields hfs)
  · refine keeps_bind hst fun s hs => keeps_pure ?_
    simpa [KeptAll, Statement.allLeaves] using hs

theorem keeps_statements (inSwitch : Bool) (cap : Nat) :
    Keeps ts c (KeptAll c ts) (statements st inSwitch cap) := by
  induction cap with
  | zero =>
    refine keeps_bind keeps_kind fun _ _ => keeps_ite (keeps_pure kept_nil) ?_
    refine keeps_bind keeps_read fun _ _ => keeps_bind keeps_here fun _ _ => ?_
    refine keeps_bind (keeps_report _) fun _ _ => keeps_bind (keeps_skipBy _) fun _ _ => ?_
    exact keeps_pure kept_nil
  | succ cap ih =>
    refine keeps_bind keeps_kind fun _ _ => keeps_ite (keeps_pure kept_nil) ?_
    refine keeps_bind (keeps_accept _) fun _ _ => keeps_ite ih ?_
    refine keeps_bind (keeps_recover (keeps_blockStatement hst) ?_) fun ss hss => ?_
    · exact keeps_bind (keeps_skipBy _) fun _ _ => keeps_pure kept_nil
    · refine keeps_bind ih fun ss' hss' => keeps_pure ?_
      rw [KeptAll, Statement.allLeaves_append, kept_append]
      exact ⟨hss, hss'⟩

theorem keeps_allStatements (inSwitch : Bool) :
    Keeps ts c (KeptAll c ts) (allStatements st inSwitch) :=
  keeps_bind keeps_read fun _ _ => keeps_statements hst inSwitch _

theorem keeps_braced : Keeps ts c (fun b => Kept c ts b.leaves) (braced st) := by
  refine keeps_bind keeps_here fun _ _ => keeps_bind (keeps_require _ _) fun _ _ => ?_
  refine keeps_bind (keeps_allStatements hst false) fun ss hss => keeps_close ?_
  exact keeps_bind (keeps_spanFrom _) fun _ _ => keeps_pure hss

end Statements

/-- The readers for one level further in keep the leaves of what they read. -/
structure DeeperKeeps (ts : List Token) (c : Settings) (deeper : Deeper) : Prop where
  statement : Keeps ts c (fun s => Kept c ts s.leaves) deeper.statement
  block : Keeps ts c (fun b => Kept c ts b.leaves) deeper.block
  caseBody : Keeps ts c (KeptAll c ts) deeper.caseBody

theorem keeps_caseLabels (n : Nat) :
    Keeps ts c (fun ls => Kept c ts (ls.flatMap (·.leaves))) (caseLabels n) := by
  induction n with
  | zero => exact keeps_pure kept_nil
  | succ n ih =>
    refine keeps_bind (keeps_check _) fun _ _ => keeps_bind (keeps_check _) fun _ _ => ?_
    refine keeps_ite ?_ (keeps_pure kept_nil)
    refine keeps_bind (keeps_accept _) fun _ _ => ?_
    simp only [← bind_assoc]
    refine keeps_join (P := fun l => Kept c ts l.leaves) (keeps_pure kept_nil)
      (keeps_bind (keeps_bind (keeps_skip 1) fun _ _ => keeps_excerpt _ _) fun _ he =>
        keeps_pure (by simpa [CaseLabel.leaves] using he))
      fun l hl => ?_
    refine keeps_bind (keeps_check _) fun _ _ => keeps_ite (keeps_pure (by simpa using hl)) ?_
    refine keeps_bind (keeps_bind (keeps_require _ _) fun _ _ => ih) fun ls hls => keeps_pure ?_
    simpa using ⟨hl, hls⟩

theorem keeps_someCaseLabels :
    Keeps ts c (fun ls => Kept c ts (ls.flatMap (·.leaves))) someCaseLabels := by
  refine keeps_bind keeps_steps fun _ _ => keeps_bind (keeps_caseLabels _) fun ls hls => ?_
  exact keeps_ite (keeps_fail _) (keeps_pure hls)

section Deeper

variable {deeper : Deeper} (hd : DeeperKeeps ts c deeper)

include hd

theorem keeps_catchClauses (n : Nat) :
    Keeps ts c (fun cs => Kept c ts (CatchClause.allLeaves cs)) (catchClauses deeper n) := by
  induction n with
  | zero => exact keeps_pure kept_nil
  | succ n ih =>
    refine keeps_bind keeps_here fun _ _ => keeps_bind (keeps_accept _) fun _ _ => ?_
    refine keeps_ite ?_ (keeps_pure kept_nil)
    refine keeps_bind (keeps_parenthesized _) fun e he => keeps_bind hd.block fun b hb => ?_
    refine keeps_bind (keeps_spanFrom _) fun _ _ => keeps_bind ih fun cs hcs => keeps_pure ?_
    simpa [CatchClause.allLeaves] using ⟨he, hb, hcs⟩

theorem keeps_switchCases (n : Nat) :
    Keeps ts c (fun cs => Kept c ts (SwitchCase.allLeaves cs)) (switchCases deeper n) := by
  induction n with
  | zero => exact keeps_pure kept_nil
  | succ n ih =>
    refine keeps_bind keeps_kind fun _ _ => keeps_ite (keeps_pure kept_nil) ?_
    refine keeps_bind keeps_here fun _ _ => ?_
    refine keeps_bind (keeps_recover (Q := fun ls => ∀ l, ls = some l →
      Kept c ts (l.flatMap (·.leaves))) (keeps_map keeps_someCaseLabels ?_) ?_) fun labels hls => ?_
    · rintro ls hls l ⟨⟩
      exact hls
    · exact keeps_bind (keeps_skipBy _) fun _ _ => keeps_pure nofun
    rcases labels with _ | labels
    · exact ih
    refine keeps_bind (keeps_check _) fun _ _ => keeps_ite ?_ ?_
    · refine keeps_bind keeps_here fun _ _ => keeps_bind (keeps_report _) fun _ _ => ?_
      exact keeps_bind (keeps_skipBy _) fun _ _ => keeps_pure kept_nil
    · refine keeps_bind (keeps_recover (Q := fun ss => ∀ l, ss = some l → KeptAll c ts l)
        (keeps_map hd.caseBody ?_) ?_) fun inner hinner => ?_
      · rintro ss hss l ⟨⟩
        exact hss
      · exact keeps_bind (keeps_skipBy _) fun _ _ => keeps_pure nofun
      rcases inner with _ | inner
      · exact keeps_pure kept_nil
      refine keeps_bind (keeps_spanFrom _) fun _ _ => keeps_bind ih fun cs hcs => keeps_pure ?_
      simpa [SwitchCase.allLeaves] using ⟨hls labels rfl, hinner inner rfl, hcs⟩

omit hd in
/-- The last step of a statement, which gives it its span. -/
theorem keeps_spanned {Q : α → Prop} (start : Location) {make : Span → α} (h : ∀ span, Q (make span)) :
    Keeps ts c Q (do return make (← Parser.spanFrom start)) :=
  keeps_bind (keeps_spanFrom start) fun span _ => keeps_pure (h span)

omit hd in
/-- The token that ends a statement, and the span of the statement. -/
theorem keeps_ended {Q : α → Prop} {k : Kind} {expected : String} (start : Location)
    {make : Span → α} (h : ∀ span, Q (make span)) :
    Keeps ts c Q (do return make (← (do require k expected; Parser.spanFrom start))) :=
  keeps_bind (keeps_bind (keeps_require _ _) fun _ _ => keeps_spanFrom start) fun span _ =>
    keeps_pure (h span)

variable (start : Location)

omit hd

theorem keeps_emptyBlock : Keeps ts c (fun s => Kept c ts s.leaves) (emptyBlock start) :=
  keeps_spanned start fun _ => kept_nil

theorem keeps_returnStatement :
    Keeps ts c (fun s => Kept c ts s.leaves) (returnStatement start) := by
  refine keeps_bind (keeps_skip 1) fun _ _ => keeps_bind (keeps_check _) fun _ _ => ?_
  simp only [← bind_assoc]
  exact keeps_join (keeps_pure kept_nil) (keeps_someExcerpt _ _) fun e he =>
    keeps_ended start fun _ => he

theorem keeps_throwStatement :
    Keeps ts c (fun s => Kept c ts s.leaves) (throwStatement start) := by
  refine keeps_bind (keeps_skip 1) fun _ _ => keeps_bind (keeps_excerpt _ _) fun e he => ?_
  exact keeps_bind (keeps_require _ _) fun _ _ => keeps_spanned start fun _ => by
    simpa [Statement.leaves] using he

theorem keeps_jumpStatement {make : Option String → Span → Statement}
    (hmake : ∀ label span, (make label span).leaves = []) :
    Keeps ts c (fun s => Kept c ts s.leaves) (jumpStatement make start) := by
  refine keeps_bind (keeps_skip 1) fun _ _ => keeps_bind (keeps_check _) fun _ _ => ?_
  simp only [← bind_assoc]
  refine keeps_join (P := fun _ => True) (keeps_bind (keeps_of_skirts fun _ => skirts_identifier)
    fun _ _ => keeps_pure trivial) (keeps_pure trivial) fun _ _ => keeps_ended start fun _ => ?_
  rw [hmake]
  exact kept_nil

theorem keeps_assertStatement :
    Keeps ts c (fun s => Kept c ts s.leaves) (assertStatement start) := by
  refine keeps_bind (keeps_skip 1) fun _ _ => keeps_bind (keeps_excerpt _ _) fun e he => ?_
  refine keeps_bind (keeps_accept _) fun _ _ => ?_
  simp only [← bind_assoc]
  refine keeps_join (keeps_someExcerpt _ _) (keeps_pure kept_nil) fun m hm => ?_
  refine keeps_ended start fun _ => ?_
  simpa [Statement.leaves] using ⟨he, hm⟩

theorem keeps_plainStatement :
    Keeps ts c (fun s => Kept c ts s.leaves) (plainStatement start) := by
  refine keeps_bind keeps_read fun _ _ => keeps_bind keeps_rest fun _ _ => keeps_ite ?_ ?_
  · refine keeps_bind keeps_typeUse fun t ht => keeps_bind keeps_declarators fun ds hds => ?_
    exact keeps_spanned start fun _ => by simpa [Statement.leaves] using ⟨.inr ht, hds⟩
  · refine keeps_bind (keeps_excerpt _ _) fun e he => keeps_bind (keeps_require _ _) fun _ _ => ?_
    exact keeps_spanned start fun _ => by simpa [Statement.leaves] using he

include hd

theorem keeps_ifStatement :
    Keeps ts c (fun s => Kept c ts s.leaves) (ifStatement deeper start) := by
  refine keeps_bind (keeps_skip 1) fun _ _ => keeps_bind (keeps_parenthesized _) fun e he => ?_
  refine keeps_bind hd.statement fun s hs => keeps_bind (keeps_accept _) fun _ _ => ?_
  simp only [← bind_assoc]
  refine keeps_join (P := fun o => Kept c ts (Statement.elseLeaves o))
    (keeps_bind hd.statement fun _ hs => keeps_pure hs) (keeps_pure kept_nil) fun o ho => ?_
  refine keeps_spanned start fun _ => ?_
  simpa [Statement.leaves] using ⟨he, hs, ho⟩

theorem keeps_forStatement :
    Keeps ts c (fun s => Kept c ts s.leaves) (forStatement deeper start) := by
  refine keeps_bind (keeps_skip 1) fun _ _ => keeps_bind (keeps_parenthesized _) fun e he => ?_
  refine keeps_bind hd.statement fun s hs => keeps_spanned start fun _ => ?_
  simpa [Statement.leaves] using ⟨he, hs⟩

theorem keeps_whileStatement :
    Keeps ts c (fun s => Kept c ts s.leaves) (whileStatement deeper start) := by
  refine keeps_bind (keeps_skip 1) fun _ _ => keeps_bind (keeps_parenthesized _) fun e he => ?_
  refine keeps_bind hd.statement fun s hs => keeps_spanned start fun _ => ?_
  simpa [Statement.leaves] using ⟨he, hs⟩

theorem keeps_doStatement :
    Keeps ts c (fun s => Kept c ts s.leaves) (doStatement deeper start) := by
  refine keeps_bind (keeps_skip 1) fun _ _ => keeps_bind hd.statement fun s hs => ?_
  refine keeps_bind (keeps_require _ _) fun _ _ => keeps_bind (keeps_parenthesized _) fun e he => ?_
  refine keeps_bind (keeps_require _ _) fun _ _ => keeps_spanned start fun _ => ?_
  simpa [Statement.leaves] using ⟨he, hs⟩

theorem keeps_tryStatement :
    Keeps ts c (fun s => Kept c ts s.leaves) (tryStatement deeper start) := by
  refine keeps_bind (keeps_skip 1) fun _ _ => keeps_bind hd.block fun b hb => ?_
  refine keeps_bind keeps_steps fun _ _ => keeps_bind (keeps_catchClauses hd _) fun cs hcs => ?_
  refine keeps_bind (keeps_accept _) fun _ _ => ?_
  simp only [← bind_assoc]
  refine keeps_join (P := fun b => Kept c ts (Block.finallyLeaves b))
    (keeps_bind hd.block fun _ hb => keeps_pure hb) (keeps_pure kept_nil) fun f hf => ?_
  have hall (span : Span) : Kept c ts (Statement.try_ b cs f span).leaves := by
    simpa [Statement.leaves] using ⟨hb, hcs, hf⟩
  refine keeps_ite (keeps_bind (P := fun _ => True) ?_ fun _ _ => keeps_pure (hall _))
    (keeps_spanned start hall)
  exact keeps_bind (keeps_note _) fun _ _ => keeps_spanFrom _

theorem keeps_switchStatement :
    Keeps ts c (fun s => Kept c ts s.leaves) (switchStatement deeper start) := by
  refine keeps_bind (keeps_skip 1) fun _ _ => keeps_bind (keeps_parenthesized _) fun e he => ?_
  refine keeps_bind (keeps_require _ _) fun _ _ => keeps_bind keeps_steps fun _ _ => ?_
  refine keeps_bind (keeps_switchCases hd _) fun cs hcs => keeps_close ?_
  exact keeps_spanned start fun _ => by simpa [Statement.leaves] using ⟨he, hcs⟩

theorem keeps_synchronizedStatement :
    Keeps ts c (fun s => Kept c ts s.leaves) (synchronizedStatement deeper start) := by
  refine keeps_bind (keeps_skip 1) fun _ _ => keeps_bind (keeps_parenthesized _) fun e he => ?_
  refine keeps_bind hd.block fun b hb => keeps_spanned start fun _ => ?_
  simpa [Statement.leaves] using ⟨he, hb⟩

theorem keeps_labeledStatement :
    Keeps ts c (fun s => Kept c ts s.leaves) (labeledStatement deeper start) := by
  refine keeps_bind (keeps_of_skirts fun _ => skirts_identifier) fun _ _ => ?_
  refine keeps_bind (keeps_skip 1) fun _ _ => keeps_bind hd.statement fun s hs => ?_
  exact keeps_spanned start fun _ => hs

omit start in
theorem keeps_anyStatement :
    Keeps ts c (fun s => Kept c ts s.leaves) (anyStatement deeper) := by
  refine keeps_bind keeps_here fun start _ => ?_
  refine keeps_bind keeps_kind fun k _ => keeps_bind keeps_secondKind fun k' _ => ?_
  split
  · exact keeps_bind hd.block fun b hb => keeps_pure hb
  · exact keeps_bind (keeps_skip 1) fun _ _ => keeps_emptyBlock start
  · exact keeps_returnStatement start
  · exact keeps_ifStatement hd start
  · exact keeps_forStatement hd start
  · exact keeps_whileStatement hd start
  · exact keeps_doStatement hd start
  · exact keeps_bind keeps_skipTryWithResources fun _ _ => keeps_emptyBlock start
  · exact keeps_tryStatement hd start
  · exact keeps_switchStatement hd start
  · exact keeps_throwStatement start
  · exact keeps_jumpStatement start fun _ _ => rfl
  · exact keeps_jumpStatement start fun _ _ => rfl
  · exact keeps_synchronizedStatement hd start
  · exact keeps_assertStatement start
  · exact keeps_labeledStatement hd start
  iterate 3 exact keeps_throw _
  iterate 5 exact keeps_fail _
  exact keeps_plainStatement start

end Deeper

theorem keeps_tooDeep {Q : α → Prop} : Keeps ts c Q tooDeep :=
  keeps_bind keeps_read fun _ _ => keeps_bind keeps_here fun _ _ => keeps_throw _

theorem deeperKeeps (levels : Nat) :
    DeeperKeeps ts c ⟨statement levels, block levels, caseBody levels⟩ := by
  induction levels with
  | zero => exact ⟨keeps_tooDeep, keeps_tooDeep, keeps_tooDeep⟩
  | succ levels ih =>
    refine ⟨?_, ?_, ?_⟩
    · simp only [statement]
      exact keeps_anyStatement ih
    · simp only [block]
      exact keeps_braced ih.statement
    · simp only [caseBody]
      exact keeps_allStatements ih.statement true

theorem keeps_body : Keeps ts c (fun b => Kept c ts b.leaves) body :=
  keeps_bind keeps_read fun _ _ => (deeperKeeps _).block

/-! ### Members and types -/

theorem keeps_parameter : Keeps ts c (fun p => Kept c ts p.leaves) parameter := by
  refine keeps_bind keeps_here fun start _ => keeps_bind keeps_allQualifiers fun q hq => ?_
  refine keeps_bind keeps_typeUse fun t ht => keeps_bind (keeps_accept _) fun _ _ => ?_
  refine keeps_bind (keeps_of_skirts fun _ => skirts_identifier) fun _ _ => ?_
  refine keeps_bind (keeps_of_skirts fun _ => skirts_brackets) fun _ _ => ?_
  exact keeps_spanned start fun _ => by simpa [Parameter.leaves] using ⟨hq, .inr ht⟩

theorem keeps_parameterList (n : Nat) :
    Keeps ts c (fun ps => Kept c ts (ps.flatMap (·.leaves))) (parameterList n) := by
  induction n with
  | zero => exact keeps_pure kept_nil
  | succ n ih =>
    refine keeps_bind keeps_parameter fun p hp => keeps_bind (keeps_accept _) fun _ _ => ?_
    refine keeps_ite (keeps_bind ih fun ps hps => keeps_pure ?_) (keeps_pure ?_)
    · simpa using ⟨hp, hps⟩
    · simpa using hp

theorem keeps_parameters :
    Keeps ts c (fun ps => Kept c ts (ps.flatMap (·.leaves))) parameters := by
  refine keeps_bind (keeps_require _ _) fun _ _ => keeps_bind (keeps_check _) fun _ _ => ?_
  simp only [← bind_assoc]
  refine keeps_join (keeps_pure kept_nil)
    (keeps_bind keeps_steps fun _ _ => keeps_parameterList _) fun ps hps => ?_
  exact keeps_bind (keeps_require _ _) fun _ _ => keeps_pure hps

theorem keeps_returnType : Keeps ts c (fun t => (Leaf.type t).LiesIn c.limits.excerptTokens ts) returnType := by
  refine keeps_bind keeps_here fun _ _ => keeps_bind (keeps_accept _) fun _ _ => ?_
  exact keeps_ite (keeps_pure (.inl rfl)) (keeps_typeUse.mono fun _ => .inr)

theorem keeps_method {start : Location} {q : Qualifiers} {params : Option String}
    (hq : Kept c ts (q.annotations.flatMap (·.leaves)))
    (hparams : Kept c ts (params.toList.map .parameters)) :
    Keeps ts c (fun m => Kept c ts (Member.method m).leaves) (method start q params) := by
  refine keeps_bind keeps_returnType fun t ht => ?_
  refine keeps_bind (keeps_of_skirts fun _ => skirts_identifier) fun _ _ => ?_
  refine keeps_bind keeps_parameters fun ps hps => ?_
  refine keeps_bind (keeps_typesAfter _) fun us hus => ?_
  refine keeps_bind (keeps_check _) fun _ _ => ?_
  simp only [← bind_assoc]
  refine keeps_join (P := fun o => Kept c ts (o.toList.flatMap (·.leaves)))
    (keeps_bind keeps_body fun b hb => keeps_pure (by simpa using hb))
    (keeps_bind (keeps_require _ _) fun _ _ => keeps_pure kept_nil) fun o ho => ?_
  refine keeps_spanned start fun _ => ?_
  simpa [Member.leaves] using ⟨hq, hparams, ht, hps, hus, ho⟩

theorem keeps_constructor {start : Location} {typeName : String} {q : Qualifiers}
    {params : Option String} (hq : Kept c ts (q.annotations.flatMap (·.leaves)))
    (hparams : Kept c ts (params.toList.map .parameters)) :
    Keeps ts c (fun m => Kept c ts (Member.constructor m).leaves)
      (constructor start typeName q params) := by
  have hrest (name : String) : Keeps ts c (fun m => Kept c ts (Member.constructor m).leaves) (do
      let ps ← parameters
      let throws ← typesAfter .throws_
      let inner ← body
      return ⟨q.modifiers, q.annotations, params, name, ps, throws, inner, ← spanFrom start⟩) := by
    refine keeps_bind keeps_parameters fun ps hps => ?_
    refine keeps_bind (keeps_typesAfter _) fun us hus => ?_
    refine keeps_bind keeps_body fun b hb => keeps_spanned start fun _ => ?_
    simpa [Member.leaves] using ⟨hq, hparams, hps, hus, hb⟩
  refine keeps_bind keeps_here fun _ _ => ?_
  refine keeps_bind (keeps_of_skirts fun _ => skirts_identifier) fun name _ => ?_
  exact keeps_ite (keeps_bind (keeps_note _) fun _ _ => hrest name) (hrest name)

theorem kept_allFields {fs : List Field} (h : Kept c ts (fs.flatMap (·.leaves))) :
    Kept c ts ((fs.map Member.field).flatMap (·.leaves)) := by
  rw [List.flatMap_map]
  exact h

theorem keeps_plainMember {start : Location} {typeName : String} {q : Qualifiers}
    (hq : Kept c ts (q.annotations.flatMap (·.leaves))) :
    Keeps ts c (fun ms => Kept c ts (ms.flatMap (·.leaves))) (plainMember start typeName q) := by
  refine keeps_bind keeps_typeParameters fun params hparams => ?_
  refine keeps_bind keeps_rest fun _ _ => keeps_ite ?_ (keeps_bind keeps_read fun _ _ => ?_)
  · exact keeps_bind (keeps_constructor hq hparams) fun m hm => keeps_pure (by simpa using hm)
  · refine keeps_ite ?_ (keeps_ite ?_ (keeps_fail _))
    · exact keeps_bind (keeps_method hq hparams) fun m hm => keeps_pure (by simpa using hm)
    · exact keeps_bind (keeps_fields hq) fun fs hfs => keeps_pure (kept_allFields hfs)

theorem keeps_member (typeName : String) :
    Keeps ts c (fun ms => Kept c ts (ms.flatMap (·.leaves))) (member typeName) := by
  refine keeps_bind keeps_here fun start _ => keeps_bind keeps_allQualifiers fun q hq => ?_
  refine keeps_bind keeps_rest fun _ _ => keeps_ite ?_ (keeps_ite ?_ (keeps_ite ?_ ?_))
  · exact keeps_bind (keeps_skipType _) fun _ _ => keeps_pure kept_nil
  · exact keeps_bind (keeps_skipType _) fun _ _ => keeps_pure kept_nil
  · refine keeps_bind keeps_body fun b hb => keeps_spanned start fun _ => ?_
    simpa [Member.leaves] using hb
  · exact keeps_plainMember hq

theorem keeps_members (typeName : String) (cap : Nat) :
    Keeps ts c (fun ms => Kept c ts (ms.flatMap (·.leaves))) (members typeName cap) := by
  induction cap with
  | zero =>
    refine keeps_bind keeps_kind fun _ _ => keeps_ite (keeps_pure kept_nil) ?_
    refine keeps_bind keeps_read fun _ _ => keeps_bind keeps_here fun _ _ => ?_
    refine keeps_bind (keeps_report _) fun _ _ => keeps_bind (keeps_skipBy _) fun _ _ => ?_
    exact keeps_pure kept_nil
  | succ cap ih =>
    refine keeps_bind keeps_kind fun _ _ => keeps_ite (keeps_pure kept_nil) ?_
    refine keeps_bind (keeps_accept _) fun _ _ => keeps_ite ih ?_
    refine keeps_bind keeps_steps fun _ _ => ?_
    refine keeps_bind (keeps_recover (keeps_member typeName) ?_) fun ms hms => ?_
    · refine keeps_bind keeps_steps fun _ _ => keeps_bind keeps_read fun _ _ => ?_
      exact keeps_bind (keeps_skipBy _) fun _ _ => keeps_pure kept_nil
    · refine keeps_bind ih fun ms' hms' => keeps_pure ?_
      simpa using ⟨hms, hms'⟩

theorem keeps_memberSection (typeName : String) :
    Keeps ts c (fun ms => Kept c ts (ms.flatMap (·.leaves))) (memberSection typeName) := by
  refine keeps_bind keeps_read fun _ _ => keeps_bind (keeps_members typeName _) fun ms hms => ?_
  exact keeps_close (keeps_pure hms)

theorem keeps_enumConstant : Keeps ts c (fun e => Kept c ts e.leaves) enumConstant := by
  refine keeps_bind keeps_here fun start _ => keeps_bind keeps_steps fun _ _ => ?_
  refine keeps_bind (keeps_annotations _) fun as has => ?_
  refine keeps_bind (keeps_of_skirts fun _ => skirts_identifier) fun name _ => ?_
  refine keeps_bind (keeps_optionalArguments _) fun e he => keeps_bind (keeps_check _) fun _ _ => ?_
  have hlast : Keeps ts c (fun e => Kept c ts e.leaves)
      (do return (⟨as, name, e, ← spanFrom start⟩ : EnumConstant)) :=
    keeps_spanned start fun _ => by simpa [EnumConstant.leaves] using ⟨has, he⟩
  refine keeps_ite ?_ hlast
  refine keeps_bind keeps_here fun _ _ => keeps_bind (keeps_skipBy _) fun _ _ => ?_
  exact keeps_bind (keeps_report _) fun _ _ => hlast

theorem keeps_enumConstants (n : Nat) :
    Keeps ts c (fun es => Kept c ts (es.flatMap (·.leaves))) (enumConstants n) := by
  induction n with
  | zero => exact keeps_pure kept_nil
  | succ n ih =>
    refine keeps_bind keeps_kind fun _ _ => keeps_bind (keeps_check _) fun _ _ => ?_
    refine keeps_ite (keeps_pure kept_nil) (keeps_bind keeps_steps fun _ _ => ?_)
    refine keeps_bind (keeps_recover (Q := fun o => Kept c ts (o.toList.flatMap (·.leaves)))
      (keeps_map keeps_enumConstant fun e he => by simpa using he) ?_) fun o ho => ?_
    · refine keeps_bind keeps_steps fun _ _ => ?_
      exact keeps_bind (keeps_skipBy _) fun _ _ => keeps_pure kept_nil
    · refine keeps_bind (keeps_accept _) fun _ _ => keeps_ite ?_ (keeps_pure ho)
      exact keeps_bind ih fun es hes => keeps_pure (by simpa using ⟨ho, hes⟩)

theorem keeps_enumMembers (typeName : String) :
    Keeps ts c (fun ms => Kept c ts (ms.flatMap (·.leaves))) (enumMembers typeName) := by
  refine keeps_bind (keeps_accept _) fun _ _ => keeps_ite (keeps_memberSection typeName) ?_
  refine keeps_bind (keeps_accept _) fun _ _ => keeps_ite ?_ (keeps_pure kept_nil)
  refine keeps_bind (keeps_unexpected _) fun _ _ => keeps_bind (keeps_report _) fun _ _ => ?_
  refine keeps_bind keeps_read fun _ _ => keeps_bind (keeps_skipBy _) fun _ _ => ?_
  exact keeps_bind (keeps_accept _) fun _ _ => keeps_pure kept_nil

section Types

variable {start : Location} {q : Qualifiers}

/-- The leaves of a type are kept if those of the annotations before it are. -/
def KeptBehind (c : Settings) (ts : List Token) (q : Qualifiers) (t : TypeDeclaration) : Prop :=
  Kept c ts (q.annotations.flatMap (·.leaves)) → Kept c ts t.leaves

theorem keeps_classRest : Keeps ts c (KeptBehind c ts q) (classRest start q) := by
  refine keeps_bind (keeps_skip 1) fun _ _ => ?_
  refine keeps_bind (keeps_of_skirts fun _ => skirts_identifier) fun name _ => ?_
  refine keeps_bind keeps_typeParameters fun params hparams => ?_
  refine keeps_bind (keeps_accept _) fun _ _ => ?_
  simp only [← bind_assoc]
  refine keeps_join (P := fun o => Kept c ts (o.toList.map .type)) (keeps_bind keeps_typeUse
    fun t ht => keeps_pure (by simpa using .inr ht)) (keeps_pure kept_nil) fun o ho => ?_
  simp only [bind_assoc]
  refine keeps_bind (keeps_typesAfter _) fun us hus => ?_
  refine keeps_bind (keeps_require _ _) fun _ _ => ?_
  refine keeps_bind (keeps_memberSection name) fun ms hms => keeps_spanned start fun _ hq => ?_
  simpa [TypeDeclaration.leaves, TypeHeader.leaves] using ⟨hq, hparams, ho, hus, hms⟩

theorem keeps_interfaceRest : Keeps ts c (KeptBehind c ts q) (interfaceRest start q) := by
  refine keeps_bind (keeps_skip 1) fun _ _ => ?_
  refine keeps_bind (keeps_of_skirts fun _ => skirts_identifier) fun name _ => ?_
  refine keeps_bind keeps_typeParameters fun params hparams => ?_
  refine keeps_bind (keeps_typesAfter _) fun us hus => ?_
  refine keeps_bind (keeps_require _ _) fun _ _ => ?_
  refine keeps_bind (keeps_memberSection name) fun ms hms => keeps_spanned start fun _ hq => ?_
  simpa [TypeDeclaration.leaves, TypeHeader.leaves] using ⟨hq, hparams, hus, hms⟩

theorem keeps_enumRest : Keeps ts c (KeptBehind c ts q) (enumRest start q) := by
  refine keeps_bind (keeps_skip 1) fun _ _ => ?_
  refine keeps_bind (keeps_of_skirts fun _ => skirts_identifier) fun name _ => ?_
  refine keeps_bind (keeps_typesAfter _) fun us hus => ?_
  refine keeps_bind (keeps_require _ _) fun _ _ => keeps_bind keeps_steps fun _ _ => ?_
  refine keeps_bind (keeps_enumConstants _) fun es hes => ?_
  refine keeps_bind (keeps_enumMembers name) fun ms hms => keeps_spanned start fun _ hq => ?_
  simpa [TypeDeclaration.leaves, TypeHeader.leaves] using ⟨hq, hus, hes, hms⟩

end Types

theorem keeps_typeDeclaration :
    Keeps ts c (fun o => Kept c ts (o.toList.flatMap (·.leaves))) typeDeclaration := by
  refine keeps_bind keeps_here fun start _ => keeps_bind keeps_allQualifiers fun q hq => ?_
  refine keeps_bind keeps_kind fun _ _ => keeps_bind keeps_secondKind fun _ _ => ?_
  split
  · exact keeps_bind keeps_classRest fun t ht => keeps_pure (by simpa using ht hq)
  · exact keeps_bind keeps_interfaceRest fun t ht => keeps_pure (by simpa using ht hq)
  · exact keeps_bind keeps_enumRest fun t ht => keeps_pure (by simpa using ht hq)
  · exact keeps_bind (keeps_skipType _) fun _ _ => keeps_pure kept_nil
  · exact keeps_fail _

/-! ### Whole texts -/

theorem keeps_packageClause : Keeps ts c (fun _ => True) packageClause := by
  refine keeps_bind keeps_here fun _ _ => keeps_bind (keeps_skip 1) fun _ _ => ?_
  refine keeps_bind (keeps_of_skirts fun _ => skirts_qualifiedName) fun _ _ => ?_
  exact keeps_bind (keeps_require _ _) fun _ _ => keeps_spanned _ fun _ => trivial

theorem keeps_importClause : Keeps ts c (fun _ => True) importClause := by
  refine keeps_bind keeps_here fun start _ => keeps_bind (keeps_skip 1) fun _ _ => ?_
  refine keeps_bind (keeps_accept _) fun _ _ => ?_
  refine keeps_bind (keeps_of_skirts fun _ => skirts_qualifiedName) fun _ _ => ?_
  refine keeps_bind (keeps_accept _) fun _ _ => ?_
  have hlast {make : Span → Import} : Keeps ts c (fun _ => True) (do
      require Mark.semicolon "';' after import"
      return make (← spanFrom start)) :=
    keeps_bind (keeps_require _ _) fun _ _ => keeps_spanned start fun _ => trivial
  exact keeps_ite (keeps_bind (keeps_require _ _) fun _ _ => hlast) hlast

theorem keeps_skipClause : Keeps ts c (fun _ => True) (skipClause : Parser (Option α)) :=
  keeps_bind (keeps_skipBy _) fun _ _ => keeps_pure trivial

theorem keeps_optionalPackage : Keeps ts c (fun _ => True) optionalPackage := by
  refine keeps_bind (keeps_check _) fun _ _ => keeps_ite ?_ (keeps_pure trivial)
  exact keeps_recover (keeps_map keeps_packageClause fun _ _ => trivial) keeps_skipClause

theorem keeps_imports (n : Nat) : Keeps ts c (fun _ => True) (imports n) := by
  induction n with
  | zero => exact keeps_pure trivial
  | succ n ih =>
    refine keeps_bind (keeps_check _) fun _ _ => keeps_ite ?_ (keeps_pure trivial)
    refine keeps_bind (keeps_attempt (keeps_recover (keeps_map keeps_importClause fun _ _ => trivial)
      keeps_skipClause)) fun r _ => ?_
    rcases r with d | found
    · exact keeps_pure trivial
    · exact keeps_bind ih fun _ _ => keeps_pure trivial

theorem keeps_topLevelType :
    Keeps ts c (fun o => Kept c ts (o.toList.flatMap (·.leaves))) topLevelType := by
  refine keeps_bind keeps_steps fun _ _ => keeps_recover keeps_typeDeclaration ?_
  refine keeps_bind keeps_steps fun _ _ => ?_
  exact keeps_bind (keeps_skipBy _) fun _ _ => keeps_pure kept_nil

theorem keeps_types (start : Location) (span : Span) (n : Nat) :
    Keeps ts c (fun o => Kept c ts (o.found.1.flatMap (·.leaves))) (types start span n) := by
  induction n generalizing span with
  | zero => exact keeps_pure kept_nil
  | succ n ih =>
    refine keeps_bind (keeps_check _) fun _ _ => keeps_ite (keeps_pure kept_nil) ?_
    refine keeps_bind (keeps_accept _) fun _ _ => keeps_ite (ih span) ?_
    refine keeps_bind (keeps_attempt keeps_topLevelType) fun r hr => ?_
    rcases r with d | found
    · exact keeps_pure kept_nil
    · refine keeps_bind (keeps_spanFrom _) fun _ _ => keeps_bind (ih _) fun o ho => keeps_pure ?_
      simpa using ⟨hr found rfl, ho⟩

theorem keeps_unit : Keeps ts c (fun o => Kept c ts o.found.leaves) unit := by
  refine keeps_bind keeps_here fun start _ => ?_
  refine keeps_bind (keeps_attempt keeps_optionalPackage) fun r _ => ?_
  rcases r with d | package
  · exact keeps_pure kept_nil
  refine keeps_bind keeps_steps fun _ _ => keeps_bind (keeps_imports _) fun is _ => ?_
  split
  · exact keeps_pure kept_nil
  · refine keeps_bind keeps_steps fun _ _ => keeps_bind (keeps_types _ _ _) fun o ho => ?_
    exact keeps_pure ho

namespace Input

/-- The settings with which a text is read. -/
def settings (input : Input) (options : ParseOptions) : Settings :=
  ⟨options.limits, options.budget, input.faults, input.stop⟩

/-- The state in which reading starts. -/
def state (input : Input) : State := ⟨input.tokens, none, [], input.faults.map .deferred⟩

theorem parse_eq (input : Input) (options : ParseOptions) :
    input.parse options = match unit (input.settings options) input.state with
      | .ok outcome s => .ofOutcome outcome s
      | .error d s => .ofOutcome ⟨⟨none, [], [], .single input.stop⟩, some d⟩ s := rfl

/-- A list of tokens to be read, with the faults that are known of it. -/
def given (ts : List Token) (faults : List Fault) : Input := { ofTokens ts with faults }

/-- Every leaf of what is read was read among the tokens. -/
theorem liesIn_of_mem_leaves {input : Input} {options : ParseOptions} {x : Leaf}
    (hx : x ∈ (input.parse options).unit.leaves) : x.LiesIn options.limits.excerptTokens input.tokens := by
  rw [parse_eq] at hx
  split at hx
  · next o s' hrun =>
    refine (keeps_unit _ (List.suffix_refl _)).2 o s' hrun x ?_
    unfold Parsed.ofOutcome at hx
    split at hx <;> exact hx
  · cases hx

/-- Whatever is read and however it ends, every excerpt of the tree is a run of the tokens with its
brackets closed in order, no longer than the cap, and holds neither an invalid token nor an end of
input. It is empty only if it stands for parentheses with nothing between them. -/
theorem liesIn_of_mem_captures (ts : List Token) (faults : List Fault) (options : ParseOptions)
    {x : Capture} (hx : x ∈ ((given ts faults).parse options).unit.captures) :
    x.LiesIn options.limits.excerptTokens ts ∧ ∀ t ∈ x.excerpt.tokens, t.kind ≠ .endOfInput := by
  have hlies : x.LiesIn options.limits.excerptTokens (given ts faults).tokens := by
    obtain ⟨l, hl, hlx⟩ := List.mem_filterMap.mp hx
    have hread := liesIn_of_mem_leaves hl
    cases l with
    | capture y =>
      cases hlx
      exact hread
    | typeText y => cases hlx
  refine ⟨hlies.mono (List.takeWhile_prefix _).isInfix, fun t ht => ?_⟩
  simpa using List.mem_takeWhile_imp (hlies.within.subset ht)

/-- `class A { @B() int x = y(1); # int }`: a field with two excerpts, and a fault behind it. -/
def annotatedField : List Kind :=
  [.keyword .class_, .identifier, .mark .openBrace, .mark .atSign, .identifier, .mark .openParen,
   .mark .closeParen, .keyword (.primitive .int), .identifier, .mark .assign, .identifier,
   .mark .openParen, .integer, .mark .closeParen, .mark .semicolon, .invalid,
   .keyword (.primitive .int), .mark .closeBrace]

theorem liesIn_annotatedField :
    ∃ x y, ((given (tokensOf annotatedField) []).parse {}).unit.captures = [.arguments x, .expression y] ∧
      x.tokens = [] ∧ y.tokens.length = 4 ∧
      (Capture.arguments x).LiesIn 200000 (tokensOf annotatedField) ∧
      (Capture.expression y).LiesIn 200000 (tokensOf annotatedField) := by
  obtain ⟨x, y, hxs, hx, hy⟩ : ∃ x y, ((given (tokensOf annotatedField) []).parse {}).unit.captures =
      [.arguments x, .expression y] ∧ x.tokens = [] ∧ y.tokens.length = 4 := ⟨_, _, rfl, rfl, rfl⟩
  refine ⟨x, y, hxs, hx, hy, ?_, ?_⟩
  · exact (liesIn_of_mem_captures (tokensOf annotatedField) [] {} (by rw [hxs]; simp)).1
  · exact (liesIn_of_mem_captures (tokensOf annotatedField) [] {} (by rw [hxs]; simp)).1

end Input

end Parser

end JavaTree
