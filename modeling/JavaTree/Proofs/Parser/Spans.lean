import JavaTree.Proofs.Parser.Positions
import JavaTree.Proofs.Parser.Budget

/-!
Source spans nest and are ordered.

Each reader gives nodes that lie between the position where it starts and the one where it ends: one
node, or a row of them.
-/

namespace JavaTree.Parser

variable {α β : Type} {ts : List Token} {c : Settings} {s : State} {k m k' : Nat}

section Nodes

variable (hsorted : ts.Pairwise fun a b => a.location < b.location)

include hsorted

/-! ### Types, excerpts and annotations -/

theorem lays_excerpt (rule : CaptureRule) (what : String) :
    Lays ts c k (fun k' e => Row ts k k' e.spans) (excerpt rule what) := by
  intro s hs e s' hrun
  obtain ⟨k', hk', hs', -⟩ := lays_built (built_excerpt rule what) hs hrun
  obtain ⟨hlies, hrest⟩ := liesIn_of_excerpt hrun (List.suffix_refl _)
  have hne : e.tokens ≠ [] := hlies.written
  obtain ⟨hlt, hspan⟩ := covers_excerpt hne hs.le hs'.le (by rw [← hs.rest, hrest, hs'.rest])
  have hspans : e.spans = [.node e.span false []] := if_neg hne
  refine ⟨k', hk', hs', ?_⟩
  simp only [hspans]
  exact row_single (lies_node hsorted hspan hlt nofun)

/-- An excerpt that may be left out. -/
theorem lays_someExcerpt (rule : CaptureRule) (what : String) :
    Lays ts c k (fun k' e => Row ts k k' (e.toList.flatMap (·.spans)))
      (do return some (← excerpt rule what)) :=
  lays_bind (lays_excerpt hsorted rule what) fun e m _ he => lays_pure (by simpa using he)

theorem lays_parenthesized (what : String) :
    Lays ts c k (fun k' e => Row ts k k' e.spans) (parenthesized what) := by
  refine lays_step (built_require _ _) fun _ m hm => ?_
  refine lays_bind (lays_excerpt hsorted _ _) fun e m' hm' he => ?_
  exact lays_step (built_require _ _) fun _ k' hk' => lays_pure (he.mono hm hk')

theorem lays_arguments (what : String) :
    Lays ts c k (fun k' e => Row ts k k' e.spans) (arguments what) := by
  refine lays_step (built_require _ _) fun _ m hm => lays_step (built_check _) fun _ m' hm' => ?_
  refine lays_join (P := fun k' e => Row ts m' k' e.spans) (lays_pure ?_) (lays_excerpt hsorted _ _)
    fun e k₁ hk₁ he => lays_step (built_require _ _) fun _ k' hk' => lays_pure (he.mono (by omega) hk')
  exact row_nil

theorem lays_optionalArguments (what : String) :
    Lays ts c k (fun k' e => Row ts k k' (e.toList.flatMap (·.spans))) (optionalArguments what) := by
  refine lays_step (built_check _) fun _ m hm => lays_ite ?_ (lays_pure row_nil)
  refine lays_bind (lays_arguments hsorted what) fun e k' _ he => lays_pure ?_
  simpa using he.mono hm (Nat.le_refl _)

theorem lays_annotationUse : Lays ts c k (fun k' a => Lies ts k k' a.spans) annotationUse := by
  refine lays_moved (lays_here fun start hstart => ?_) fun s => moves_annotationUse
  refine lays_step (built_require _ _) fun _ m₁ h₁ => lays_step built_qualifiedName fun _ m₂ h₂ => ?_
  refine lays_bind (lays_optionalArguments hsorted _) fun args k' h₃ hargs => ?_
  refine lays_spanned hsorted hstart fun span hspan hlt => lies_node hsorted (hspan hlt) hlt ?_
  simpa using hargs.mono (h₁.trans h₂) (Nat.le_refl _)

theorem lays_annotations (n : Nat) :
    Lays ts c k (fun k' as => Row ts k k' (as.map (·.spans))) (annotations n) := by
  induction n generalizing k with
  | zero => exact lays_pure row_nil
  | succ n ih =>
    refine lays_step built_rest fun _ m hm => lays_ite ?_ (lays_pure row_nil)
    refine lays_bind (lays_annotationUse hsorted) fun a m' hm' ha => ?_
    refine lays_bind ih fun as k' hk' has => lays_pure ?_
    exact row_cons hsorted (ha.mono hm (Nat.le_refl _)) has (hm.trans hm') hk'

/-- The annotations that have been found before are read, too. -/
theorem lays_qualifiers {found : Qualifiers} (hm : m ≤ k)
    (hfound : Row ts m k (found.annotations.map (·.spans))) (n : Nat) :
    Lays ts c k (fun k' q => Row ts m k' (q.annotations.map (·.spans))) (qualifiers found n) := by
  induction n generalizing k found with
  | zero => exact lays_pure hfound
  | succ n ih =>
    refine lays_step built_rest fun _ k₁ h₁ => lays_ite ?_ ?_
    · refine lays_bind (lays_annotationUse hsorted) fun a k₂ h₂ ha => ih (by omega) ?_
      simp only [List.map_append, List.map_singleton]
      exact row_append hsorted (hfound.mono (Nat.le_refl _) h₁) (row_single ha) (hm.trans h₁) h₂
    · refine lays_step built_kind fun kind k₂ h₂ => ?_
      have hfound₂ := hfound.mono (Nat.le_refl m) (h₁.trans h₂)
      cases kind.modifier? with
      | none => exact lays_pure hfound₂
      | some w =>
        refine lays_step built_secondKind fun _ k₃ h₃ => lays_ite (lays_pure ?_) ?_
        · exact hfound₂.mono (Nat.le_refl _) h₃
        · refine lays_step (built_skip 1) fun _ k₄ h₄ => ih (by omega) ?_
          exact hfound₂.mono (Nat.le_refl _) (h₃.trans h₄)

theorem lays_allQualifiers :
    Lays ts c k (fun k' q => Row ts k k' (q.annotations.map (·.spans))) allQualifiers :=
  lays_step built_steps fun _ _ hm => lays_qualifiers hsorted hm row_nil _

theorem lays_typeUse : Lays ts c k (fun k' t => Lies ts k k' t.spans) typeUse := by
  refine lays_moved (lays_here fun start hstart => ?_) fun s => moves_typeUse
  have hend (name : String) (m : Nat) (hm : k ≤ m) :
      Lays ts c m (fun k' t => k < k' → Lies ts k k' t.spans) (do
        let n ← brackets
        return (⟨name, n, ← spanFrom start⟩ : TypeUse)) :=
    lays_step built_brackets fun _ k' hk' => lays_spanned hsorted hstart fun span hspan hlt =>
      lies_node hsorted (hspan hlt) hlt nofun
  refine lays_step built_peek fun _ m₁ h₁ => lays_ite ?_ (lays_ite ?_ ?_)
  · exact lays_step (built_skip 1) fun _ m₂ h₂ => hend _ _ (h₁.trans h₂)
  · refine lays_step built_identifier fun _ m₂ h₂ => lays_step built_steps fun _ m₃ h₃ => ?_
    exact lays_step (built_typeName _ _) fun _ m₄ h₄ => hend _ _ (by omega)
  · exact lays_step (built_fail _) fun _ m₂ h₂ => hend _ _ (h₁.trans h₂)

theorem lays_moreTypes (n : Nat) :
    Lays ts c k (fun k' us => Row ts k k' (us.map (·.spans))) (moreTypes n) := by
  induction n generalizing k with
  | zero => exact lays_pure row_nil
  | succ n ih =>
    refine lays_step (built_accept _) fun _ m hm => lays_ite ?_ (lays_pure row_nil)
    refine lays_bind (lays_typeUse hsorted) fun t m' hm' ht => lays_bind ih fun us k' hk' hus => ?_
    exact lays_pure (row_cons hsorted (ht.mono hm (Nat.le_refl _)) hus (hm.trans hm') hk')

theorem lays_typeList : Lays ts c k (fun k' us => Row ts k k' (us.map (·.spans))) typeList := by
  refine lays_bind (lays_typeUse hsorted) fun t m hm ht => lays_step built_steps fun _ m' hm' => ?_
  refine lays_bind (lays_moreTypes hsorted _) fun us k' hk' hus => lays_pure ?_
  exact row_cons hsorted (ht.mono (Nat.le_refl _) hm') hus (hm.trans hm') hk'

theorem lays_typesAfter (w : Keyword) :
    Lays ts c k (fun k' us => Row ts k k' (us.map (·.spans))) (typesAfter w) := by
  refine lays_step (built_accept _) fun _ m hm => lays_ite ?_ (lays_pure row_nil)
  exact (lays_typeList hsorted).mono fun k' us _ hus => hus.mono hm (Nat.le_refl _)

theorem lays_returnType : Lays ts c k (fun k' t => Lies ts k k' t.spans) returnType := by
  refine lays_moved (lays_here fun start hstart => lays_step (built_accept _) fun _ m hm => ?_)
    fun s => moves_returnType
  refine lays_ite (lays_le (lays_pure fun hle hlt => ?_)) ((lays_typeUse hsorted).mono ?_)
  · -- the word is one token, and its span is taken before it is passed over
    obtain ⟨t, ht⟩ : ∃ t, ts[k]? = some t := ⟨_, List.getElem?_eq_getElem (by omega)⟩
    have hspan : Covers ts k (k + 1 - 1) (.single start) := ⟨⟨t, ht, hstart t ht⟩, t, ht, hstart t ht⟩
    have hnode : Lies ts k (k + 1) (TypeUse.void (.single start)).spans :=
      lies_node hsorted hspan (Nat.lt_succ_self _) nofun
    exact hnode.mono (Nat.le_refl _) hlt
  · exact fun k' t _ ht _ => ht.mono hm (Nat.le_refl _)

/-! ### Variables -/

/-- A variable, and its initializer. -/
theorem lays_declarator : Lays ts c k (fun k' d => Lies ts k k' d.spans ∧
    Row ts k k' (d.initializer.toList.flatMap (·.spans))) declarator := by
  refine lays_moved (lays_here fun start hstart => ?_) fun s => moves_declarator
  refine lays_step built_identifier fun _ m₁ h₁ => lays_step built_brackets fun _ m₂ h₂ => ?_
  refine lays_step (built_accept _) fun _ m₃ h₃ => ?_
  simp only [← bind_assoc]
  refine lays_join (lays_someExcerpt hsorted _ _) (lays_pure row_nil) fun e m₄ h₄ he => ?_
  have hrow : Row ts k m₄ (e.toList.flatMap (·.spans)) := he.mono (by omega) (Nat.le_refl _)
  refine lays_spanned hsorted hstart fun span hspan hlt => ⟨lies_node hsorted (hspan hlt) hlt ?_, hrow⟩
  simpa using hrow

theorem lays_declaratorList (n : Nat) : Lays ts c k (fun k' ds => Row ts k k' (ds.map (·.spans)) ∧
    ∀ d ∈ ds, Row ts k k' (d.initializer.toList.flatMap (·.spans))) (declaratorList n) := by
  induction n generalizing k with
  | zero => exact lays_pure ⟨row_nil, nofun⟩
  | succ n ih =>
    refine lays_bind (lays_declarator hsorted) fun d m hm hd => ?_
    refine lays_step (built_accept _) fun _ m' hm' => lays_ite ?_ (lays_pure ?_)
    · refine lays_bind ih fun ds k' hk' hds => lays_pure ⟨?_, ?_⟩
      · exact row_cons hsorted (hd.1.mono (Nat.le_refl _) hm') hds.1 (hm.trans hm') hk'
      · intro e he
        rcases List.mem_cons.mp he with rfl | he
        · exact hd.2.mono (Nat.le_refl _) (hm'.trans hk')
        · exact (hds.2 e he).mono (hm.trans hm') (Nat.le_refl _)
    · refine ⟨row_single (hd.1.mono (Nat.le_refl _) hm'), fun e he => ?_⟩
      obtain rfl := List.mem_singleton.mp he
      exact hd.2.mono (Nat.le_refl _) hm'

theorem lays_declarators : Lays ts c k (fun k' ds => Row ts k k' (ds.map (·.spans)) ∧
    ∀ d ∈ ds, Row ts k k' (d.initializer.toList.flatMap (·.spans))) declarators := by
  refine lays_step built_steps fun _ m hm => ?_
  refine lays_bind (lays_declaratorList hsorted _) fun ds m' hm' hds => ?_
  refine lays_step (built_require _ _) fun _ k' hk' => lays_pure ⟨hds.1.mono hm hk', fun d hd => ?_⟩
  exact (hds.2 d hd).mono hm hk'

/-- The fields of one declaration have one span. -/
theorem lays_fields {start : Location} {q : Qualifiers} (hstart : StandsAt ts m start) (hm : m ≤ k)
    (hq : Row ts m k (q.annotations.map (·.spans))) :
    Lays ts c k (fun k' fs => Row ts m k' (fs.map (·.spans))) (fields start q) := by
  refine lays_moved ?_ fun s => moves_fields start q
  refine lays_bind (lays_typeUse hsorted) fun type m₁ h₁ htype => ?_
  refine lays_bind (lays_declarators hsorted) fun ds m₂ h₂ hds => ?_
  refine lays_spanned hsorted hstart fun span hspan hlt => ⟨fun t ht => ?_, ?_⟩
  · obtain ⟨f, hf, rfl⟩ := List.mem_map.mp ht
    obtain ⟨d, hd, rfl⟩ := List.mem_map.mp hf
    refine lies_node hsorted (hspan (by omega)) (by omega) fun row hrow => ?_
    simp only [List.mem_cons, List.not_mem_nil, or_false] at hrow
    rcases hrow with rfl | rfl | rfl
    · exact hq.mono (Nat.le_refl _) (by omega)
    · exact row_single (Lies.mono htype hm h₂)
    · exact (hds.2 d hd).mono (by omega) (Nat.le_refl _)
  · -- all of them have the span of the declaration
    rw [List.map_map, List.pairwise_map]
    exact List.pairwise_of_forall fun _ _ => .inr ⟨rfl, rfl, rfl⟩

/-! ### Statements in a row -/

section Statements

variable {st : Parser Statement} (hbuilt : Built (fun _ => True) st)
  (hst : ∀ k, Lays ts c k (fun k' a => Lies ts k k' a.spans) st)

include hst

theorem lays_blockStatement :
    Lays ts c k (fun k' ss => Row ts k k' (ss.map (·.spans))) (blockStatement st) := by
  refine lays_step built_rest fun _ m hm => lays_ite ?_ (lays_ite ?_ (lays_ite ?_ ?_))
  · exact lays_step (built_skipType _) fun _ _ _ => lays_pure row_nil
  · exact lays_step built_skipTryWithResources fun _ _ _ => lays_pure row_nil
  · refine lays_here fun start hstart => lays_bind (lays_allQualifiers hsorted) fun q m₁ h₁ hq => ?_
    refine lays_step built_kind fun _ m₂ h₂ => lays_ite ?_ ?_
    · exact lays_step (built_skipType _) fun _ _ _ => lays_pure row_nil
    · refine lays_bind (lays_fields hsorted hstart (h₁.trans h₂) (hq.mono (Nat.le_refl _) h₂))
        fun fs k' _ hfs => lays_pure ?_
      rw [List.map_map]
      exact hfs.mono hm (Nat.le_refl _)
  · exact lays_bind (hst _) fun a k' _ ha => lays_pure (row_single (Lies.mono ha hm (Nat.le_refl _)))

include hbuilt

theorem lays_statements (inSwitch : Bool) (cap : Nat) :
    Lays ts c k (fun k' ss => Row ts k k' (ss.map (·.spans))) (statements st inSwitch cap) := by
  induction cap generalizing k with
  | zero =>
    refine lays_step built_kind fun _ m _ => lays_ite (lays_pure row_nil) (lays_read fun c' => ?_)
    refine lays_here fun _ _ => lays_step (built_report rfl trivial) fun _ m' _ => ?_
    exact lays_step (built_skipBy _) fun _ _ _ => lays_pure row_nil
  | succ cap ih =>
    refine lays_step built_kind fun _ m hm => lays_ite (lays_pure row_nil) ?_
    refine lays_step (built_accept _) fun _ m₁ h₁ => lays_ite ?_ ?_
    · exact ih.mono fun k' ss _ hss => hss.mono (hm.trans h₁) (Nat.le_refl _)
    · refine lays_bind (lays_recover (P := fun k' ss => Row ts k k' (ss.map (·.spans))) ?_
        (built_blockStatement hbuilt) fun m₂ h₂ => ?_) fun found m₃ h₃ hfound => ?_
      · exact (lays_blockStatement hsorted hst).mono fun k' ss _ hss =>
          hss.mono (hm.trans h₁) (Nat.le_refl _)
      · exact lays_step (built_skipBy _) fun _ _ _ => lays_pure row_nil
      · refine lays_bind ih fun more k' hk' hmore => lays_pure ?_
        rw [List.map_append]
        exact row_append hsorted hfound hmore (by omega) hk'

theorem lays_allStatements (inSwitch : Bool) :
    Lays ts c k (fun k' ss => Row ts k k' (ss.map (·.spans))) (allStatements st inSwitch) :=
  lays_read fun _ => lays_statements hsorted hbuilt hst inSwitch _

theorem lays_braced : Lays ts c k (fun k' b => k < k' → Lies ts k k' b.spans) (braced st) := by
  refine lays_here fun start hstart => lays_step (built_require _ _) fun _ m₁ h₁ => ?_
  refine lays_bind (lays_allStatements hsorted hbuilt hst false) fun ss m₂ h₂ hss => ?_
  refine lays_close fun m₃ h₃ => lays_spanned hsorted hstart fun span hspan hlt => ?_
  rw [Block.spans, Statement.allSpans_eq_map]
  refine lies_node hsorted (hspan hlt) hlt fun row hrow => ?_
  obtain rfl := List.mem_singleton.mp hrow
  exact hss.mono h₁ h₃

end Statements

theorem lays_caseLabels (n : Nat) :
    Lays ts c k (fun k' ls => Row ts k k' (ls.flatMap (·.spans))) (caseLabels n) := by
  induction n generalizing k with
  | zero => exact lays_pure row_nil
  | succ n ih =>
    refine lays_step (built_check _) fun _ m₁ h₁ => lays_step (built_check _) fun _ m₂ h₂ => ?_
    refine lays_ite (lays_step (built_accept _) fun _ m₃ h₃ => ?_) (lays_pure row_nil)
    simp only [← bind_assoc]
    refine lays_join (P := fun k' l => Row ts m₃ k' l.spans) (lays_pure row_nil) ?_ fun l m₄ h₄ hl => ?_
    · rw [bind_assoc]
      refine lays_step (built_skip 1) fun _ m₄ h₄ => ?_
      exact lays_bind (lays_excerpt hsorted _ _) fun e k' _ he => lays_pure (he.mono h₄ (Nat.le_refl _))
    have hrow : Row ts k m₄ l.spans := hl.mono (by omega) (Nat.le_refl _)
    refine lays_step (built_check _) fun _ m₅ h₅ => lays_ite (lays_pure ?_) ?_
    · simpa using hrow.mono (Nat.le_refl _) h₅
    · rw [bind_assoc]
      refine lays_step (built_require _ _) fun _ m₆ h₆ => lays_bind ih fun ls k' hk' hls => ?_
      refine lays_pure ?_
      rw [List.flatMap_cons]
      exact row_append hsorted (hrow.mono (Nat.le_refl _) (h₅.trans h₆)) hls (by omega) hk'

theorem lays_someCaseLabels :
    Lays ts c k (fun k' ls => k < k' ∧ Row ts k k' (ls.flatMap (·.spans))) someCaseLabels := by
  refine lays_shorter ?_ fun s ls s' hrun => ?_
  · refine lays_step built_steps fun _ m hm => ?_
    refine lays_bind (lays_caseLabels hsorted _) fun ls k' _ hls => lays_ite (lays_fail _) (lays_pure ?_)
    exact fun hlt => ⟨hlt, hls.mono hm (Nat.le_refl _)⟩
  · rcases @someCaseLabels_moves c s with hlt | ⟨-, -, d, hd⟩
    · rwa [hrun] at hlt
    · simp [hrun] at hd

/-- The readers for one level further in read nodes. -/
structure DeeperLays (ts : List Token) (c : Settings) (deeper : Deeper) : Prop where
  built : DeeperBuilt (fun _ => True) deeper
  statement : ∀ k, Lays ts c k (fun k' a => Lies ts k k' a.spans) deeper.statement
  block : ∀ k, Lays ts c k (fun k' b => Lies ts k k' b.spans) deeper.block
  caseBody : ∀ k, Lays ts c k (fun k' ss => Row ts k k' (ss.map (·.spans))) deeper.caseBody

/-! ### Single statements -/

section Deeper

variable {start : Location} (hstart : StandsAt ts k start)

include hstart

theorem lays_emptyBlock :
    Lays ts c m (fun k' a => k < k' → Lies ts k k' a.spans) (emptyBlock start) :=
  lays_spanned hsorted hstart fun span hspan hlt => by
    have hblock : Lies ts k m (Block.spans ⟨[], span⟩) := by
      refine lies_node hsorted (hspan hlt) hlt fun row hrow => ?_
      obtain rfl := List.mem_singleton.mp hrow
      exact row_nil
    exact lies_wrap hsorted hblock

theorem lays_returnStatement :
    Lays ts c k (fun k' a => k < k' → Lies ts k k' a.spans) (returnStatement start) := by
  refine lays_step (built_skip 1) fun _ m₁ h₁ => lays_step (built_check _) fun _ m₂ h₂ => ?_
  simp only [← bind_assoc]
  refine lays_join (lays_pure row_nil) (lays_someExcerpt hsorted _ _) fun e m₃ h₃ he => ?_
  simp only [bind_assoc]
  refine lays_step (built_require _ _) fun _ k' hk' => ?_
  refine lays_spanned hsorted hstart fun span hspan hlt => lies_node hsorted (hspan hlt) hlt ?_
  simpa using he.mono (by omega) hk'

theorem lays_throwStatement :
    Lays ts c k (fun k' a => k < k' → Lies ts k k' a.spans) (throwStatement start) := by
  refine lays_step (built_skip 1) fun _ m₁ h₁ => ?_
  refine lays_bind (lays_excerpt hsorted _ _) fun e m₂ h₂ he => ?_
  refine lays_step (built_require _ _) fun _ k' hk' => ?_
  refine lays_spanned hsorted hstart fun span hspan hlt => lies_node hsorted (hspan hlt) hlt ?_
  simpa using he.mono h₁ hk'

theorem lays_jumpStatement {make : Option String → Span → Statement}
    (hmake : ∀ label span, (make label span).spans = .node span false []) :
    Lays ts c k (fun k' a => k < k' → Lies ts k k' a.spans) (jumpStatement make start) := by
  refine lays_step (built_skip 1) fun _ m₁ h₁ => lays_step (built_check _) fun _ m₂ h₂ => ?_
  simp only [← bind_assoc]
  refine lays_join (P := fun _ _ => True) ?_ (lays_pure trivial) fun label m₃ h₃ _ => ?_
  · exact lays_built (.bind built_identifier fun _ => .pure _)
  simp only [bind_assoc]
  refine lays_step (built_require _ _) fun _ k' hk' => ?_
  refine lays_spanned hsorted hstart fun span hspan hlt => ?_
  rw [hmake]
  exact lies_node hsorted (hspan hlt) hlt nofun

theorem lays_assertStatement :
    Lays ts c k (fun k' a => k < k' → Lies ts k k' a.spans) (assertStatement start) := by
  refine lays_step (built_skip 1) fun _ m₁ h₁ => ?_
  refine lays_bind (lays_excerpt hsorted _ _) fun condition m₂ h₂ hcondition => ?_
  refine lays_step (built_accept _) fun _ m₃ h₃ => ?_
  simp only [← bind_assoc]
  refine lays_join (lays_someExcerpt hsorted _ _) (lays_pure row_nil) fun message m₄ h₄ hmessage => ?_
  simp only [bind_assoc]
  refine lays_step (built_require _ _) fun _ k' hk' => ?_
  refine lays_spanned hsorted hstart fun span hspan hlt => lies_node hsorted (hspan hlt) hlt ?_
  simpa using ⟨hcondition.mono h₁ (by omega), hmessage.mono (by omega) hk'⟩

theorem lays_plainStatement :
    Lays ts c k (fun k' a => k < k' → Lies ts k k' a.spans) (plainStatement start) := by
  refine lays_read fun c' => lays_step built_rest fun _ m hm => lays_ite ?_ ?_
  · refine lays_bind (lays_typeUse hsorted) fun type m₁ h₁ htype => ?_
    refine lays_bind (lays_declarators hsorted) fun ds k' hk' hds => ?_
    refine lays_spanned hsorted hstart fun span hspan hlt => lies_node hsorted (hspan hlt) hlt ?_
    simpa using ⟨row_single (htype.mono hm hk'), hds.1.mono (hm.trans h₁) (Nat.le_refl _)⟩
  · refine lays_bind (lays_excerpt hsorted _ _) fun e m₁ h₁ he => ?_
    refine lays_step (built_require _ _) fun _ k' hk' => ?_
    refine lays_spanned hsorted hstart fun span hspan hlt => lies_node hsorted (hspan hlt) hlt ?_
    simpa using he.mono hm hk'

variable {deeper : Deeper} (hd : DeeperLays ts c deeper)

include hd

omit hstart in
theorem lays_catchClauses (n : Nat) :
    Lays ts c k (fun k' cs => Row ts k k' (CatchClause.allSpans cs)) (catchClauses deeper n) := by
  induction n generalizing k with
  | zero => exact lays_pure row_nil
  | succ n ih =>
    refine lays_here fun start hstart => lays_bind (lays_accept nofun) fun found m₁ h₁ hfound => ?_
    cases found with
    | false => exact lays_pure row_nil
    | true =>
      have hlt : k < m₁ := hfound rfl
      refine lays_bind (lays_parenthesized hsorted _) fun parameter m₂ h₂ hparameter => ?_
      refine lays_bind (hd.block _) fun body m₃ h₃ hbody => ?_
      refine lays_spannedThen hsorted hstart fun span hspan => ?_
      have hclause : Lies ts k m₃ (.node span false [parameter.spans, [body.spans]]) := by
        refine lies_node hsorted (hspan (by omega)) (by omega) ?_
        simpa using ⟨hparameter.mono h₁ h₃, row_single (hbody.mono (h₁.trans h₂) (Nat.le_refl _))⟩
      exact lays_bind ih fun cs k' hk' hcs => lays_pure (row_cons hsorted hclause hcs (by omega) hk')

theorem lays_ifStatement :
    Lays ts c k (fun k' a => k < k' → Lies ts k k' a.spans) (ifStatement deeper start) := by
  refine lays_step (built_skip 1) fun _ m₁ h₁ => ?_
  refine lays_bind (lays_parenthesized hsorted _) fun condition m₂ h₂ hcondition => ?_
  refine lays_bind (hd.statement _) fun thenBranch m₃ h₃ hthen => ?_
  refine lays_step (built_accept _) fun _ m₄ h₄ => ?_
  simp only [← bind_assoc]
  refine lays_join (P := fun k' s => Row ts m₄ k' (Statement.elseSpans s)) ?_ (lays_pure row_nil)
    fun elseBranch k' h₅ helse => ?_
  · exact lays_bind (hd.statement _) fun a _ _ ha => lays_pure (row_single ha)
  refine lays_spanned hsorted hstart fun span hspan hlt => lies_node hsorted (hspan hlt) hlt ?_
  simpa using ⟨hcondition.mono h₁ (by omega), row_single (hthen.mono (by omega) (by omega)),
    helse.mono (by omega) (Nat.le_refl _)⟩

theorem lays_forStatement :
    Lays ts c k (fun k' a => k < k' → Lies ts k k' a.spans) (forStatement deeper start) := by
  refine lays_step (built_skip 1) fun _ m₁ h₁ => ?_
  refine lays_bind (lays_parenthesized hsorted _) fun header m₂ h₂ hheader => ?_
  refine lays_bind (hd.statement _) fun body k' h₃ hbody => ?_
  refine lays_spanned hsorted hstart fun span hspan hlt => lies_node hsorted (hspan hlt) hlt ?_
  simpa using ⟨hheader.mono h₁ h₃, row_single (hbody.mono (h₁.trans h₂) (Nat.le_refl _))⟩

theorem lays_whileStatement :
    Lays ts c k (fun k' a => k < k' → Lies ts k k' a.spans) (whileStatement deeper start) := by
  refine lays_step (built_skip 1) fun _ m₁ h₁ => ?_
  refine lays_bind (lays_parenthesized hsorted _) fun condition m₂ h₂ hcondition => ?_
  refine lays_bind (hd.statement _) fun body k' h₃ hbody => ?_
  refine lays_spanned hsorted hstart fun span hspan hlt => lies_node hsorted (hspan hlt) hlt ?_
  simpa using ⟨hcondition.mono h₁ h₃, row_single (hbody.mono (h₁.trans h₂) (Nat.le_refl _))⟩

theorem lays_doStatement :
    Lays ts c k (fun k' a => k < k' → Lies ts k k' a.spans) (doStatement deeper start) := by
  refine lays_step (built_skip 1) fun _ m₁ h₁ => ?_
  refine lays_bind (hd.statement _) fun body m₂ h₂ hbody => ?_
  refine lays_step (built_require _ _) fun _ m₃ h₃ => ?_
  refine lays_bind (lays_parenthesized hsorted _) fun condition m₄ h₄ hcondition => ?_
  refine lays_step (built_require _ _) fun _ k' h₅ => ?_
  refine lays_spanned hsorted hstart fun span hspan hlt => lies_node hsorted (hspan hlt) hlt ?_
  simpa using ⟨hcondition.mono (by omega) h₅, row_single (hbody.mono h₁ (by omega))⟩

theorem lays_tryStatement :
    Lays ts c k (fun k' a => k < k' → Lies ts k k' a.spans) (tryStatement deeper start) := by
  refine lays_step (built_skip 1) fun _ m₁ h₁ => ?_
  refine lays_bind (hd.block _) fun body m₂ h₂ hbody => lays_step built_steps fun _ m₃ h₃ => ?_
  refine lays_bind (lays_catchClauses hsorted hd _) fun catches m₄ h₄ hcatches => ?_
  refine lays_step (built_accept _) fun _ m₅ h₅ => ?_
  simp only [← bind_assoc]
  refine lays_join (P := fun k' b => Row ts m₅ k' (Block.finallySpans b)) ?_ (lays_pure row_nil)
    fun finallyBlock m₆ h₆ hfinally => ?_
  · exact lays_bind (hd.block _) fun b _ _ hb => lays_pure (row_single hb)
  have hend (m : Nat) (h₇ : m₆ ≤ m) :
      Lays ts c m (fun k' (a : Statement) => k < k' → Lies ts k k' a.spans)
        (do return Statement.try_ body catches finallyBlock (← spanFrom start)) := by
    refine lays_spanned hsorted hstart fun span hspan hlt => lies_node hsorted (hspan hlt) hlt ?_
    simpa using ⟨row_single (hbody.mono h₁ (by omega)), hcatches.mono (by omega) (by omega),
      hfinally.mono (by omega) h₇⟩
  refine lays_ite ?_ (hend _ (Nat.le_refl _))
  simp only [bind_assoc]
  exact lays_step (.note _) fun _ k' h₇ => hend k' h₇

omit hstart in
theorem lays_switchCases (n : Nat) :
    Lays ts c k (fun k' cs => Row ts k k' (SwitchCase.allSpans cs)) (switchCases deeper n) := by
  induction n generalizing k with
  | zero => exact lays_pure row_nil
  | succ n ih =>
    refine lays_step built_kind fun _ m hm => lays_ite (lays_pure row_nil) ?_
    refine lays_here fun start hstart => ?_
    refine lays_bind (lays_recover (P := fun k' found => ∀ ls ∈ found, m < k' ∧
        Row ts m k' (ls.flatMap (·.spans))) ?_ (built_someCaseLabels.map some) fun m' h' => ?_)
      fun labels m₁ h₁ hlabels => ?_
    · exact lays_map (lays_someCaseLabels hsorted) fun k' ls _ hls => by simpa using hls
    · exact lays_step (built_skipBy _) fun _ _ _ => lays_pure nofun
    -- labels that stop leave no case, and the cases behind them follow
    rcases labels with _ | labels
    · exact ih.mono fun k' cs _ hcs => hcs.mono (hm.trans h₁) (Nat.le_refl _)
    obtain ⟨hlt, hlabels⟩ := hlabels labels rfl
    refine lays_step (built_check _) fun _ m₂ h₂ => lays_ite ?_ ?_
    · exact lays_here fun _ _ => lays_step (built_report rfl trivial) fun _ _ _ =>
        lays_step (built_skipBy _) fun _ _ _ => lays_pure row_nil
    refine lays_bind (lays_recover (P := fun k' found => ∀ ss ∈ found,
        Row ts m₂ k' (ss.map (·.spans))) ?_ (hd.built.caseBody.map some) fun m' h' => ?_)
      fun inner m₃ h₃ hinner => ?_
    · exact lays_map (hd.caseBody _) fun k' ss _ hss => by simpa using hss
    · exact lays_step (built_skipBy _) fun _ _ _ => lays_pure nofun
    rcases inner with _ | inner
    · exact lays_pure row_nil
    refine lays_spannedThen hsorted hstart fun span hspan => ?_
    have hcase : Lies ts m m₃
        (.node span false [labels.flatMap (·.spans), Statement.allSpans inner]) := by
      rw [Statement.allSpans_eq_map]
      refine lies_node hsorted (hspan (by omega)) (by omega) ?_
      simpa using ⟨hlabels.mono (Nat.le_refl _) (by omega), (hinner inner rfl).mono (by omega) (Nat.le_refl _)⟩
    refine lays_bind ih fun cs k' hk' hcs => lays_pure ?_
    exact row_cons hsorted (hcase.mono hm (Nat.le_refl _)) hcs (by omega) hk'

theorem lays_switchStatement :
    Lays ts c k (fun k' a => k < k' → Lies ts k k' a.spans) (switchStatement deeper start) := by
  refine lays_step (built_skip 1) fun _ m₁ h₁ => ?_
  refine lays_bind (lays_parenthesized hsorted _) fun selector m₂ h₂ hselector => ?_
  refine lays_step (built_require _ _) fun _ m₃ h₃ => lays_step built_steps fun _ m₄ h₄ => ?_
  refine lays_bind (lays_switchCases hsorted hd _) fun cases m₅ h₅ hcases => lays_close fun k' h₆ => ?_
  refine lays_spanned hsorted hstart fun span hspan hlt => lies_node hsorted (hspan hlt) hlt ?_
  simpa using ⟨hselector.mono h₁ (by omega), hcases.mono (by omega) h₆⟩

theorem lays_synchronizedStatement :
    Lays ts c k (fun k' a => k < k' → Lies ts k k' a.spans) (synchronizedStatement deeper start) := by
  refine lays_step (built_skip 1) fun _ m₁ h₁ => ?_
  refine lays_bind (lays_parenthesized hsorted _) fun lock m₂ h₂ hlock => ?_
  refine lays_bind (hd.block _) fun body k' h₃ hbody => ?_
  refine lays_spanned hsorted hstart fun span hspan hlt => lies_node hsorted (hspan hlt) hlt ?_
  simpa using ⟨hlock.mono h₁ h₃, row_single (hbody.mono (h₁.trans h₂) (Nat.le_refl _))⟩

theorem lays_labeledStatement :
    Lays ts c k (fun k' a => k < k' → Lies ts k k' a.spans) (labeledStatement deeper start) := by
  refine lays_step built_identifier fun _ m₁ h₁ => lays_step (built_skip 1) fun _ m₂ h₂ => ?_
  refine lays_bind (hd.statement _) fun body k' h₃ hbody => ?_
  refine lays_spanned hsorted hstart fun span hspan hlt => lies_node hsorted (hspan hlt) hlt ?_
  simpa using row_single (hbody.mono (h₁.trans h₂) (Nat.le_refl _))

omit hstart in
theorem lays_anyStatement :
    Lays ts c k (fun k' a => k < k' → Lies ts k k' a.spans) (anyStatement deeper) := by
  refine lays_here fun start hstart => lays_look (fun _ => kind_run) fun k₁ => ?_
  refine lays_look (fun _ => secondKind_run) fun k₂ => ?_
  split
  · exact lays_bind (hd.block _) fun b k' _ hb => lays_pure fun _ => lies_wrap hsorted hb
  · exact lays_step (built_skip 1) fun _ _ _ => lays_emptyBlock hsorted hstart
  · exact lays_returnStatement hsorted hstart
  · exact lays_ifStatement hsorted hstart hd
  · exact lays_forStatement hsorted hstart hd
  · exact lays_whileStatement hsorted hstart hd
  · exact lays_doStatement hsorted hstart hd
  · exact lays_step built_skipTryWithResources fun _ _ _ => lays_emptyBlock hsorted hstart
  · exact lays_tryStatement hsorted hstart hd
  · exact lays_switchStatement hsorted hstart hd
  · exact lays_throwStatement hsorted hstart
  · exact lays_jumpStatement hsorted hstart fun _ _ => rfl
  · exact lays_jumpStatement hsorted hstart fun _ _ => rfl
  · exact lays_synchronizedStatement hsorted hstart hd
  · exact lays_assertStatement hsorted hstart
  · exact lays_labeledStatement hsorted hstart hd
  iterate 3 exact lays_throw _
  iterate 5 exact lays_fail _
  exact lays_plainStatement hsorted hstart

end Deeper

omit hsorted in
theorem lays_tooDeep {P : Nat → α → Prop} : Lays ts c k P (tooDeep : Parser α) :=
  lays_read fun _ => lays_here fun _ _ => lays_throw _

theorem deeperLays (levels : Nat) :
    DeeperLays ts c ⟨statement levels, block levels, caseBody levels⟩ := by
  induction levels with
  | zero =>
    exact ⟨deeperBuilt 0, fun _ => lays_tooDeep, fun _ => lays_tooDeep, fun _ => lays_tooDeep⟩
  | succ levels ih =>
    refine ⟨deeperBuilt _, fun k => lays_moved ?_ fun s => moves_statement _,
      fun k => lays_moved ?_ fun s => moves_block _, fun k => ?_⟩
    · simp only [statement]
      exact lays_anyStatement hsorted ih
    · simp only [block]
      exact lays_braced hsorted ih.built.statement ih.statement
    · simp only [caseBody]
      exact lays_allStatements hsorted ih.built.statement ih.statement true

theorem lays_body : Lays ts c k (fun k' b => Lies ts k k' b.spans) body :=
  lays_read fun _ => (deeperLays hsorted _).block k

/-! ### Members -/

theorem lays_parameter : Lays ts c k (fun k' p => Lies ts k k' p.spans) parameter := by
  refine lays_here fun start hstart => lays_bind (lays_allQualifiers hsorted) fun q m₁ h₁ hq => ?_
  refine lays_bind (lays_typeUse hsorted) fun type m₂ h₂ htype => ?_
  refine lays_step (built_accept _) fun _ m₃ h₃ => lays_step built_identifier fun _ m₄ h₄ => ?_
  refine lays_step built_brackets fun _ k' h₅ => lays_spanned hsorted hstart fun span hspan => ?_
  have hlt := htype.lt
  refine lies_node hsorted (hspan (by omega)) (by omega) ?_
  simpa using ⟨hq.mono (Nat.le_refl _) (by omega), row_single (htype.mono h₁ (by omega))⟩

theorem lays_parameterList (n : Nat) :
    Lays ts c k (fun k' ps => Row ts k k' (ps.map (·.spans))) (parameterList n) := by
  induction n generalizing k with
  | zero => exact lays_pure row_nil
  | succ n ih =>
    refine lays_bind (lays_parameter hsorted) fun p m hm hp => ?_
    refine lays_step (built_accept _) fun _ m' hm' => lays_ite ?_ (lays_pure ?_)
    · refine lays_bind ih fun ps k' hk' hps => lays_pure ?_
      exact row_cons hsorted (hp.mono (Nat.le_refl _) hm') hps (hm.trans hm') hk'
    · exact row_single (hp.mono (Nat.le_refl _) hm')

theorem lays_parameters : Lays ts c k (fun k' ps => Row ts k k' (ps.map (·.spans))) parameters := by
  refine lays_step (built_require _ _) fun _ m₁ h₁ => lays_step (built_check _) fun _ m₂ h₂ => ?_
  simp only [← bind_assoc]
  refine lays_join (P := fun k' ps => Row ts m₂ k' (ps.map (·.spans))) (lays_pure row_nil) ?_
    fun ps m₃ h₃ hps => ?_
  · exact lays_step built_steps fun _ m hm => (lays_parameterList hsorted _).mono fun k' ps _ hps =>
      hps.mono hm (Nat.le_refl _)
  · exact lays_step (built_require _ _) fun _ k' hk' => lays_pure (hps.mono (h₁.trans h₂) hk')

section Member

variable {start : Location} {q : Qualifiers} (hstart : StandsAt ts m start) (hm : m ≤ k)
  (hq : Row ts m k (q.annotations.map (·.spans)))

include hstart hm hq

theorem lays_method (params : Option String) :
    Lays ts c k (fun k' a => Lies ts m k' a.spans) (method start q params) := by
  refine lays_bind (lays_returnType hsorted) fun type m₁ h₁ htype => ?_
  refine lays_step built_identifier fun _ m₂ h₂ => ?_
  refine lays_bind (lays_parameters hsorted) fun ps m₃ h₃ hps => ?_
  refine lays_bind (lays_typesAfter hsorted _) fun thrown m₄ h₄ hthrown => ?_
  refine lays_step (built_check _) fun _ m₅ h₅ => ?_
  simp only [← bind_assoc]
  refine lays_join (P := fun k' b => Row ts m₅ k' (b.toList.map (·.spans))) ?_ ?_ fun inner k' h₆ hinner => ?_
  · exact lays_bind (lays_body hsorted) fun b _ _ hb => lays_pure (row_single hb)
  · exact lays_step (built_require _ _) fun _ _ _ => lays_pure row_nil
  refine lays_spanned hsorted hstart fun span hspan => ?_
  have hlt := htype.lt
  refine lies_node hsorted (hspan (by omega)) (by omega) ?_
  simpa using ⟨hq.mono (Nat.le_refl _) (by omega), row_single (htype.mono hm (by omega)),
    hps.mono (by omega) (by omega), hthrown.mono (by omega) (by omega),
    hinner.mono (by omega) (Nat.le_refl _)⟩

theorem lays_constructor (typeName : String) (params : Option String) :
    Lays ts c k (fun k' a => Lies ts m k' a.spans) (constructor start typeName q params) := by
  refine lays_here fun _ _ => lays_step built_identifier fun name m₁ h₁ => ?_
  have hend (m₂ : Nat) (h₂ : m₁ ≤ m₂) : Lays ts c m₂ (fun k' a => Lies ts m k' a.spans) (do
      let ps ← parameters
      let throws ← typesAfter .throws_
      let inner ← body
      return ({
        modifiers := q.modifiers
        annotations := q.annotations
        typeParameters := params
        name
        parameters := ps
        throws
        body := inner
        span := ← spanFrom start } : Constructor)) := by
    refine lays_bind (lays_parameters hsorted) fun ps m₃ h₃ hps => ?_
    refine lays_bind (lays_typesAfter hsorted _) fun thrown m₄ h₄ hthrown => ?_
    refine lays_bind (lays_body hsorted) fun inner k' h₅ hinner => ?_
    refine lays_spanned hsorted hstart fun span hspan => ?_
    have hlt := hinner.lt
    refine lies_node hsorted (hspan (by omega)) (by omega) ?_
    simpa using ⟨hq.mono (Nat.le_refl _) (by omega), hps.mono (by omega) (by omega),
      hthrown.mono (by omega) h₅, row_single (hinner.mono (by omega) (Nat.le_refl _))⟩
  refine lays_ite ?_ (hend _ (Nat.le_refl _))
  exact lays_step (.note _) fun _ m₂ h₂ => hend m₂ h₂

theorem lays_plainMember (typeName : String) :
    Lays ts c k (fun k' ms => Row ts m k' (ms.map (·.spans))) (plainMember start typeName q) := by
  refine lays_step built_typeParameters fun params m₁ h₁ => lays_look (fun _ => rest_run) fun _ => ?_
  have hm₁ : m ≤ m₁ := hm.trans h₁
  have hq₁ : Row ts m m₁ (q.annotations.map (·.spans)) := hq.mono (Nat.le_refl _) h₁
  refine lays_ite ?_ (lays_read fun c' => lays_ite ?_ (lays_ite ?_ (lays_fail _)))
  · exact lays_bind (lays_constructor hsorted hstart hm₁ hq₁ typeName params) fun a _ _ ha =>
      lays_pure (row_single ha)
  · exact lays_bind (lays_method hsorted hstart hm₁ hq₁ params) fun a _ _ ha => lays_pure (row_single ha)
  · refine lays_bind (lays_fields hsorted hstart hm₁ hq₁) fun fs _ _ hfs => lays_pure ?_
    rw [List.map_map]
    exact hfs

end Member

theorem lays_member (typeName : String) :
    Lays ts c k (fun k' ms => Row ts k k' (ms.map (·.spans))) (member typeName) := by
  refine lays_here fun start hstart => lays_bind (lays_allQualifiers hsorted) fun q m₁ h₁ hq => ?_
  refine lays_look (fun _ => rest_run) fun _ => lays_ite ?_ (lays_ite ?_ (lays_ite ?_ ?_))
  · exact lays_step (built_skipType _) fun _ _ _ => lays_pure row_nil
  · exact lays_step (built_skipType _) fun _ _ _ => lays_pure row_nil
  · refine lays_bind (lays_body hsorted) fun inner k' h₂ hinner => ?_
    refine lays_spanned hsorted hstart fun span hspan => row_single ?_
    have hlt := hinner.lt
    refine lies_node hsorted (hspan (by omega)) (by omega) ?_
    simpa using row_single (hinner.mono h₁ (Nat.le_refl _))
  · exact lays_plainMember hsorted hstart h₁ hq typeName

theorem lays_members (typeName : String) (cap : Nat) :
    Lays ts c k (fun k' ms => Row ts k k' (ms.map (·.spans))) (members typeName cap) := by
  induction cap generalizing k with
  | zero =>
    refine lays_step built_kind fun _ m _ => lays_ite (lays_pure row_nil) (lays_read fun c' => ?_)
    refine lays_here fun _ _ => lays_step (built_report rfl trivial) fun _ m' _ => ?_
    exact lays_step (built_skipBy _) fun _ _ _ => lays_pure row_nil
  | succ cap ih =>
    refine lays_step built_kind fun _ m hm => lays_ite (lays_pure row_nil) ?_
    refine lays_step (built_accept _) fun _ m₁ h₁ => lays_ite ?_ ?_
    · exact ih.mono fun k' ms _ hms => hms.mono (hm.trans h₁) (Nat.le_refl _)
    · refine lays_step built_steps fun _ m₂ h₂ => ?_
      refine lays_bind (lays_recover (lays_member hsorted typeName) (built_member typeName)
        fun m' h' => ?_) fun found m₃ h₃ hfound => ?_
      · refine lays_step built_steps fun _ _ _ => lays_read fun c' => ?_
        exact lays_step (built_skipBy _) fun _ _ _ => lays_pure row_nil
      · refine lays_bind ih fun more k' hk' hmore => lays_pure ?_
        rw [List.map_append]
        exact row_append hsorted (hfound.mono (by omega) (Nat.le_refl _)) hmore (by omega) hk'

theorem lays_memberSection (typeName : String) :
    Lays ts c k (fun k' ms => Row ts k k' (ms.map (·.spans))) (memberSection typeName) := by
  refine lays_read fun _ => lays_bind (lays_members hsorted typeName _) fun ms m _ hms => ?_
  exact lays_close fun k' hk' => lays_pure (hms.mono (Nat.le_refl _) hk')

/-! ### Types -/

section Header

variable {start : Location} {q : Qualifiers} (hstart : StandsAt ts m start) (hm : m ≤ k)
  (hq : Row ts m k (q.annotations.map (·.spans)))

include hstart hm hq

theorem lays_classRest : Lays ts c k (fun k' t => Lies ts m k' t.spans) (classRest start q) := by
  refine lays_step (built_skip 1) fun _ m₁ h₁ => lays_bind lays_identifier fun name m₂ h₂ hlt => ?_
  refine lays_step built_typeParameters fun _ m₃ h₃ => lays_step (built_accept _) fun _ m₄ h₄ => ?_
  simp only [← bind_assoc]
  refine lays_join (P := fun k' t => Row ts m₄ k' (t.toList.map (·.spans))) ?_ (lays_pure row_nil)
    fun superclass m₅ h₅ hsuperclass => ?_
  · exact lays_bind (lays_typeUse hsorted) fun t _ _ ht => lays_pure (row_single ht)
  simp only [bind_assoc]
  refine lays_bind (lays_typesAfter hsorted _) fun interfaces m₆ h₆ hinterfaces => ?_
  refine lays_step (built_require _ _) fun _ m₇ h₇ => ?_
  refine lays_bind (lays_memberSection hsorted name) fun found k' h₈ hfound => ?_
  refine lays_spanned hsorted hstart fun span hspan => ?_
  refine lies_node hsorted (hspan (by omega)) (by omega) ?_
  simpa [TypeHeader.spans] using ⟨hq.mono (Nat.le_refl _) (by omega),
    hsuperclass.mono (by omega) (by omega), hinterfaces.mono (by omega) (by omega),
    hfound.mono (by omega) (Nat.le_refl _)⟩

theorem lays_interfaceRest : Lays ts c k (fun k' t => Lies ts m k' t.spans) (interfaceRest start q) := by
  refine lays_step (built_skip 1) fun _ m₁ h₁ => lays_bind lays_identifier fun name m₂ h₂ hlt => ?_
  refine lays_step built_typeParameters fun _ m₃ h₃ => ?_
  refine lays_bind (lays_typesAfter hsorted _) fun parents m₄ h₄ hparents => ?_
  refine lays_step (built_require _ _) fun _ m₅ h₅ => ?_
  refine lays_bind (lays_memberSection hsorted name) fun found k' h₆ hfound => ?_
  refine lays_spanned hsorted hstart fun span hspan => ?_
  refine lies_node hsorted (hspan (by omega)) (by omega) ?_
  simpa [TypeHeader.spans] using ⟨hq.mono (Nat.le_refl _) (by omega), hparents.mono (by omega) (by omega),
    hfound.mono (by omega) (Nat.le_refl _)⟩

omit hstart hm hq in
theorem lays_enumConstant : Lays ts c k (fun k' a => Lies ts k k' a.spans) enumConstant := by
  refine lays_here fun start hstart => lays_step built_steps fun _ m₁ h₁ => ?_
  refine lays_bind (lays_annotations hsorted _) fun found m₂ h₂ hfound => ?_
  refine lays_bind lays_identifier fun name m₃ h₃ hlt => ?_
  refine lays_bind (lays_optionalArguments hsorted _) fun args m₄ h₄ hargs => ?_
  have hend (k' : Nat) (h₅ : m₄ ≤ k') : Lays ts c k' (fun k' a => Lies ts k k' a.spans)
      (do return (⟨found, name, args, ← spanFrom start⟩ : EnumConstant)) := by
    refine lays_spanned hsorted hstart fun span hspan => ?_
    refine lies_node hsorted (hspan (by omega)) (by omega) ?_
    simpa using ⟨hfound.mono h₁ (by omega), hargs.mono (by omega) h₅⟩
  refine lays_step (built_check _) fun _ m₅ h₅ => lays_ite ?_ (hend m₅ h₅)
  refine lays_here fun _ _ => lays_step (built_skipBy _) fun _ m₆ h₆ => ?_
  exact lays_step (built_report rfl trivial) fun _ m₇ h₇ => hend m₇ (by omega)

omit hstart hm hq in
theorem lays_enumConstants (n : Nat) :
    Lays ts c k (fun k' as => Row ts k k' (as.map (·.spans))) (enumConstants n) := by
  induction n generalizing k with
  | zero => exact lays_pure row_nil
  | succ n ih =>
    refine lays_step built_kind fun _ m₁ h₁ => lays_step (built_check _) fun _ m₂ h₂ => ?_
    refine lays_ite (lays_pure row_nil) (lays_step built_steps fun _ m₃ h₃ => ?_)
    refine lays_bind (lays_recover (P := fun k' a => Row ts m₃ k' (a.toList.map (·.spans))) ?_
      (built_enumConstant.map some) fun m' h' => ?_) fun found m₄ h₄ hfound => ?_
    · exact lays_map (lays_enumConstant hsorted) fun _ a _ ha => row_single ha
    · exact lays_step built_steps fun _ _ _ => lays_step (built_skipBy _) fun _ _ _ => lays_pure row_nil
    have hrow : Row ts k m₄ (found.toList.map (·.spans)) := hfound.mono (by omega) (Nat.le_refl _)
    refine lays_step (built_accept _) fun _ m₅ h₅ => lays_ite ?_ (lays_pure (hrow.mono (Nat.le_refl _) h₅))
    refine lays_bind ih fun more k' hk' hmore => lays_pure ?_
    rw [List.map_append]
    exact row_append hsorted (hrow.mono (Nat.le_refl _) h₅) hmore (by omega) hk'

omit hstart hm hq in
theorem lays_enumMembers (typeName : String) :
    Lays ts c k (fun k' ms => Row ts k k' (ms.map (·.spans))) (enumMembers typeName) := by
  refine lays_step (built_accept _) fun _ m hm => lays_ite ?_ ?_
  · exact (lays_memberSection hsorted typeName).mono fun k' ms _ hms => hms.mono hm (Nat.le_refl _)
  · refine lays_step (built_accept _) fun _ _ _ => lays_ite ?_ (lays_pure row_nil)
    refine lays_reportUnexpected fun _ _ => lays_read fun _ => ?_
    exact lays_step (built_skipBy _) fun _ _ _ => lays_step (built_accept _) fun _ _ _ => lays_pure row_nil

theorem lays_enumRest : Lays ts c k (fun k' t => Lies ts m k' t.spans) (enumRest start q) := by
  refine lays_step (built_skip 1) fun _ m₁ h₁ => lays_bind lays_identifier fun name m₂ h₂ hlt => ?_
  refine lays_bind (lays_typesAfter hsorted _) fun interfaces m₃ h₃ hinterfaces => ?_
  refine lays_step (built_require _ _) fun _ m₄ h₄ => lays_step built_steps fun _ m₅ h₅ => ?_
  refine lays_bind (lays_enumConstants hsorted _) fun constants m₆ h₆ hconstants => ?_
  refine lays_bind (lays_enumMembers hsorted name) fun found k' h₇ hfound => ?_
  refine lays_spanned hsorted hstart fun span hspan => ?_
  refine lies_node hsorted (hspan (by omega)) (by omega) ?_
  simpa [TypeHeader.spans] using ⟨hq.mono (Nat.le_refl _) (by omega),
    hinterfaces.mono (by omega) (by omega), hconstants.mono (by omega) h₇,
    hfound.mono (by omega) (Nat.le_refl _)⟩

end Header

theorem lays_typeDeclaration :
    Lays ts c k (fun k' t => Row ts k k' (t.toList.map (·.spans))) typeDeclaration := by
  refine lays_here fun start hstart => lays_bind (lays_allQualifiers hsorted) fun q m hm hq => ?_
  refine lays_look (fun _ => kind_run) fun _ => lays_look (fun _ => secondKind_run) fun _ => ?_
  split
  · exact lays_bind (lays_classRest hsorted hstart hm hq) fun t _ _ ht => lays_pure (row_single ht)
  · exact lays_bind (lays_interfaceRest hsorted hstart hm hq) fun t _ _ ht => lays_pure (row_single ht)
  · exact lays_bind (lays_enumRest hsorted hstart hm hq) fun t _ _ ht => lays_pure (row_single ht)
  · exact lays_step (built_skipType _) fun _ _ _ => lays_pure row_nil
  · exact lays_fail _

/-! ### Whole texts -/

theorem lays_topLevelType :
    Lays ts c k (fun k' t => Row ts k k' (t.toList.map (·.spans))) topLevelType := by
  refine lays_step built_steps fun _ m hm => ?_
  refine (lays_recover (lays_typeDeclaration hsorted) built_typeDeclaration fun m' h' => ?_).mono
    fun k' t _ ht => ht.mono hm (Nat.le_refl _)
  exact lays_step built_steps fun _ _ _ => lays_step (built_skipBy _) fun _ _ _ => lays_pure row_nil

theorem lays_types (start : Location) (span : Span) (n : Nat) :
    Lays ts c k (fun k' o => Row ts k k' (o.found.1.map (·.spans))) (types start span n) := by
  induction n generalizing k span with
  | zero => exact lays_pure row_nil
  | succ n ih =>
    refine lays_look (fun _ => atEnd_run) fun _ => lays_ite (lays_pure row_nil) ?_
    refine lays_step (built_accept _) fun _ m₁ h₁ => lays_ite ?_ ?_
    · exact (ih span).mono fun k' o _ ho => ho.mono h₁ (Nat.le_refl _)
    refine lays_bind (lays_attempt (lays_topLevelType hsorted) built_topLevelType) fun r m₂ h₂ hr => ?_
    rcases r with d | found
    · exact lays_pure row_nil
    refine lays_step (built_spanFrom start) fun span' m₃ h₃ => ?_
    refine lays_bind (ih span') fun more k' hk' hmore => lays_pure ?_
    rw [List.map_append]
    exact row_append hsorted ((hr found rfl).mono h₁ h₃) hmore (by omega) hk'

omit hsorted in
theorem lays_imports (n : Nat) : Lays ts c k (fun _ _ => True) (imports n) := by
  induction n generalizing k with
  | zero => exact lays_pure trivial
  | succ n ih =>
    refine lays_step (built_check _) fun _ _ _ => lays_ite ?_ (lays_pure trivial)
    refine lays_bind (lays_attempt (lays_built built_import) built_import) fun r _ _ _ => ?_
    rcases r with d | found
    · exact lays_pure trivial
    · exact lays_bind ih fun _ _ _ _ => lays_pure trivial

theorem lays_behindPackage (start : Location) (package : Option PackageClause) :
    Lays ts c k (fun k' o => Row ts k k' (o.found.types.map (·.spans)))
      (behindPackage start package) := by
  refine lays_step built_steps fun _ m₁ h₁ => lays_bind (lays_imports _) fun is m₂ h₂ _ => ?_
  split
  · exact lays_pure row_nil
  · refine lays_step built_steps fun _ m₃ h₃ => lays_bind (lays_types hsorted _ _ _) fun o k' _ ho => ?_
    exact lays_pure (ho.mono (by omega) (Nat.le_refl _))

theorem lays_unit : Lays ts c k (fun k' o => Row ts k k' (o.found.types.map (·.spans))) unit := by
  rw [unit_eq]
  refine lays_here fun start _ => ?_
  refine lays_bind (lays_attempt (lays_built built_optionalPackage) built_optionalPackage)
    fun r m hm _ => ?_
  rcases r with d | package
  · exact lays_pure row_nil
  · exact (lays_behindPackage hsorted start package).mono fun _ _ _ ho => ho.mono hm (Nat.le_refl _)

end Nodes

end JavaTree.Parser

namespace JavaTree

/-- In the types of every source text, with all limits and budgets, each span reaches from a token of
the text to one that is not before it, and lies inside of the span of the node around it. Of the nodes
in a row, the first one ends before the next one starts, except for fields of one declaration, which
have the same span. -/
theorem CompilationUnit.spans_nest (source : String) (options : ParseOptions) :
    let types := (CompilationUnit.parse source options).unit.types
    (types.map (·.spans)).Pairwise SpanTree.Before ∧
      ∀ t ∈ types, t.spans.Nests (Parser.Input.ofSource source).tokens := by
  intro types
  let input := Parser.Input.ofSource source
  obtain ⟨o, s, hrun, hparse, -⟩ := Parser.Input.parse_settled input options
  have hstart : Parser.At input.tokens 0 input.state := ⟨Nat.zero_le _, rfl, rfl⟩
  obtain ⟨k', -, -, hrow⟩ := Parser.lays_unit (Parser.Input.pairwise_tokens source) hstart hrun
  have htypes : types = o.found.types := by
    have hunit : (CompilationUnit.parse source options).unit = o.found := by
      rw [← Parser.ofOutcome_unit o s, ← hparse]
      rfl
    exact congrArg CompilationUnit.types hunit
  rw [htypes]
  exact ⟨hrow.inOrder, fun t ht => (hrow.lies _ (List.mem_map_of_mem ht)).1⟩

/-- Two fields of one declaration have one span. -/
example :
    let types := (CompilationUnit.parse "class A \x7b int x, y; \x7d" {}).unit.types
    types.flatMap (·.members.map (·.spans.span)) =
      [⟨⟨1, 11, 10⟩, ⟨1, 19, 18⟩⟩, ⟨⟨1, 11, 10⟩, ⟨1, 19, 18⟩⟩] := by
  decide +kernel

end JavaTree
