import JavaTree.Proofs.Reread.Statements
import JavaTree.Proofs.Source.Regular

/-!
The tree of a regular text is written again.

Statements are taken level by level. A tree may lie deeper than the text it is read from, as a lone
semicolon becomes a block, so the levels of the words are those of the tree: `depth` counts them.
Where a case is to be read again, its statements must not start with an arrow. In the text they do
not; but with a semicolon before the arrow, which is left out, they would.
-/

namespace JavaTree

open JavaTree.Parser Passage

/-! ### Depth -/

mutual

/-- How many levels of statements and blocks there are, from a statement on. -/
def Statement.depth : Statement → Nat
  | .if_ _ thenBranch elseBranch _ => max thenBranch.depth (Statement.elseDepth elseBranch) + 1
  | .for_ _ body _ | .while_ _ body _ | .doWhile body _ _ | .labeled _ body _ => body.depth + 1
  | .try_ body catches finallyBlock _ =>
    max body.depth (max (CatchClause.depths catches) (Block.optionalDepth finallyBlock)) + 1
  | .block b => b.depth + 1
  | .switch _ cases _ => SwitchCase.depths cases + 1
  | .synchronized _ body _ => body.depth + 1
  | .field _ => 0
  | .declaration _ _ _ | .expression _ _ | .return_ _ _ | .break_ _ _ | .continue_ _ _ | .throw_ _ _
  | .assert _ _ _ => 1

def Statement.elseDepth : Option Statement → Nat
  | none => 0
  | some s => s.depth

def Statement.depths : List Statement → Nat
  | [] => 0
  | s :: ss => max s.depth (Statement.depths ss)

def Block.depth : Block → Nat
  | ⟨statements, _⟩ => Statement.depths statements + 1

def Block.optionalDepth : Option Block → Nat
  | none => 0
  | some b => b.depth

def CatchClause.depths : List CatchClause → Nat
  | [] => 0
  | ⟨_, body, _⟩ :: cs => max body.depth (CatchClause.depths cs)

def SwitchCase.depths : List SwitchCase → Nat
  | [] => 0
  | ⟨_, statements, _⟩ :: cs => max (Statement.depths statements + 1) (SwitchCase.depths cs)

end

theorem Statement.depths_append (ss us : List Statement) :
    depths (ss ++ us) = max (depths ss) (depths us) := by
  induction ss with
  | nil => simp [depths]
  | cons s ss ih => simp [depths, ih, Nat.max_assoc]

theorem CatchClause.le_depths {c : CatchClause} {cs : List CatchClause} (h : c ∈ cs) :
    c.body.depth ≤ depths cs := by
  induction cs with
  | nil => cases h
  | cons k ks ih =>
    obtain ⟨x, b, s⟩ := k
    rw [depths]
    rcases List.mem_cons.mp h with rfl | h
    · exact Nat.le_max_left _ _
    · exact Nat.le_trans (ih h) (Nat.le_max_right _ _)

theorem SwitchCase.le_depths {c : SwitchCase} {cs : List SwitchCase} (h : c ∈ cs) :
    Statement.depths c.statements + 1 ≤ depths cs := by
  induction cs with
  | nil => cases h
  | cons k ks ih =>
    obtain ⟨ls, ss, s⟩ := k
    rw [depths]
    rcases List.mem_cons.mp h with rfl | h
    · exact Nat.le_max_left _ _
    · exact Nat.le_trans (ih h) (Nat.le_max_right _ _)

/-! ### Arrows -/

/-- If written words start with an arrow, so does what they were read from. -/
def KeepsArrow (ws vs : List Word) : Prop :=
  ∀ v ∈ ws.head?, v.kind = .mark .arrow → StartsArrow (vs.map Word.kind)

theorem keepsArrow_cons {v : Word} (hv : v.kind ≠ .mark .arrow) (ws vs : List Word) :
    KeepsArrow (v :: ws) vs := by
  rintro u hu harrow
  cases hu
  exact absurd harrow hv

theorem keepsArrow_type {L : List Word → Prop} {t : TypeUse} {tw : List Word} (h : TypeWords L t tw)
    (ws vs : List Word) : KeepsArrow (tw ++ ws) vs := by
  obtain ⟨v, us, rfl, hv⟩ := typeWords_head h
  refine keepsArrow_cons (fun harrow => ?_) _ _
  rw [harrow] at hv
  cases hv

theorem KeepsArrow.append {ws vs us : List Word} (h : KeepsArrow ws vs) (hne : ws ≠ []) (xs : List Word) :
    KeepsArrow (ws ++ xs) (vs ++ us) := by
  obtain ⟨w, ws, rfl⟩ := List.exists_cons_of_ne_nil hne
  intro v hv harrow
  rw [List.map_append]
  exact (h v hv harrow).append _

theorem fieldWords_head {f : Field} {ws : List Word} (h : FieldWords rereads f ws) :
    ∃ v vs, ws = v :: vs ∧ v.kind ≠ .mark .arrow := by
  obtain ⟨qw, tw, iw, hq, ht, -, -, rfl⟩ := h
  generalize f.annotations = as, f.modifiers = ms at hq
  obtain ⟨has, -⟩ := hq
  cases has with
  | cons ha _ =>
    obtain ⟨nw, aw, -, -, rfl⟩ := ha
    exact ⟨_, _, rfl, nofun⟩
  | nil =>
    rcases ms with _ | ⟨m, ms⟩
    · obtain ⟨v, vs, rfl, hv⟩ := typeWords_head ht
      refine ⟨v, _, rfl, fun harrow => ?_⟩
      rw [harrow] at hv
      cases hv
    · exact ⟨_, _, rfl, nofun⟩

/-- The last word of labels is a colon. -/
theorem labels_eq_append {ls : List CaseLabel} {lw : List Word} (h : EachWords LabelFrom ls lw)
    (hne : ls ≠ []) : ∃ us, lw = us ++ [.mark .colon] := by
  induction h with
  | nil => exact absurd rfl hne
  | @cons l ls ws vs hl hls ih =>
    cases hls with
    | nil =>
      rw [List.append_nil]
      cases hl with
      | value h => exact ⟨_, rfl⟩
      | default => exact ⟨[_], rfl⟩
    | cons h h' =>
      obtain ⟨us, hus⟩ := ih (List.cons_ne_nil _ _)
      exact ⟨ws ++ us, by rw [hus, List.append_assoc]⟩

/-- Where no arrow is hidden, what stands behind labels starts with an arrow only if its first word is
one. -/
theorem not_startsArrow_behind {ls : List CaseLabel} {lw : List Word} (h : EachWords LabelFrom ls lw)
    (hne : ls ≠ []) {ws : List Word} (hfirst : ∀ w ∈ ws.head?, w.kind ≠ .mark .arrow)
    (hhidden : NoHiddenArrow ((lw ++ ws).map Word.kind)) : ¬ StartsArrow (ws.map Word.kind) := by
  obtain ⟨us, rfl⟩ := labels_eq_append h hne
  rw [List.append_assoc, List.map_append] at hhidden
  refine fun hstarts => hhidden.right _ ((List.mem_tails _ _).mpr (List.suffix_refl _))
    (hidesArrow_of_starts hstarts fun k hk => ?_)
  rw [List.head?_map] at hk
  obtain ⟨w, hw, rfl⟩ := Option.map_eq_some_iff.mp hk
  exact hfirst w hw

/-! ### Statements -/

variable {rereads : Prop}

/-- All fields of one declaration have its qualifiers, and there is at least one. -/
theorem FieldsFrom.qualifiers {q : Qualifiers} {fs : List Field} {p : Passage} (h : FieldsFrom q fs p) :
    fs ≠ [] ∧ ∀ f ∈ fs, f.annotations = q.annotations ∧ f.modifiers = q.modifiers := by
  obtain ⟨-, hds⟩ := h
  refine ⟨?_, fun f hf => ?_⟩
  · cases hds <;> simp
  · obtain ⟨d, -, rfl⟩ := List.mem_map.mp hf
    exact ⟨rfl, rfl⟩

/-- Qualifiers that do not start with `default` are written so, too. -/
theorem QualifiersFrom.leads {q : Qualifiers} {ws : List Word} (h : QualifiersFrom ⟨[], []⟩ q ws)
    (hlead : ∃ v ∈ ws.head?, Within.startsModified v.kind = true) :
    q.annotations ≠ [] ∨ ∃ m ∈ q.modifiers.head?, m ≠ .default_ := by
  obtain ⟨v, hv, hstart⟩ := hlead
  cases h with
  | done => cases hv
  | annotation _ h =>
    refine .inl fun hnil => ?_
    have hprefix := h.prefix.1
    rw [hnil] at hprefix
    cases List.prefix_nil.mp hprefix
  | @modifier _ _ m _ h =>
    cases hv
    obtain ⟨ms, hms⟩ := h.prefix.2
    refine .inr ⟨m, by rw [← hms]; rfl, of_decide_eq_true hstart⟩

/-- Fields in a row of statements. -/
theorem eachWords_rowFields {inner : Inner} {fs : List Field} {ws : List Word}
    (h : EachWords (FieldWords inner.rereads) fs ws)
    (hlead : ∀ f ∈ fs, f.annotations ≠ [] ∨ ∃ m ∈ f.modifiers.head?, m ≠ .default_) :
    inner.RowWords (fs.map .field) ws := by
  induction h with
  | nil => exact .nil
  | cons hf _ ih =>
    exact .cons (.field hf (hlead _ List.mem_cons_self))
      (ih fun f hf => hlead f (List.mem_cons_of_mem _ hf))

/-- The words of a statement or of statements in a row, for what they were read from. -/
def Kept (P : List Word → Prop) (p : Passage) : Prop :=
  Rewritten (fun ws => P ws ∧ KeepsArrow ws p.words) p

/-- Statements one level further in are written again, on as many levels as their trees have. -/
structure Within.AreRewritten (rereads : Prop) (within : Within) : Prop where
  statement : ∀ {s p m}, within.statement s p → p.IsRegular rereads → s.depth ≤ m →
    Kept (fun ws => (wordsAt rereads m).statement s ws ∧ ws ≠ []) p
  block : ∀ {b p m}, within.block b p → p.IsRegular rereads → b.depth ≤ m →
    Rewritten ((wordsAt rereads m).block b) p
  caseBody : ∀ {ss p m}, within.caseBody ss p → p.IsRegular rereads → Statement.depths ss + 1 ≤ m →
    Kept ((wordsAt rereads m).caseBody ss) p

theorem keepsArrow_refl (ws : List Word) : KeepsArrow ws ws := by
  rcases ws with _ | ⟨w, ws⟩
  · exact nofun
  · rintro v hv hk
    cases hv
    exact .inl hk

/-- Words that start with something else than an arrow. -/
theorem kept_of_head {P : List Word → Prop} {p : Passage} {ws : List Word} (h : P ws) (hkeeps : p.KeptBy ws)
    (hhead : ∃ v vs, ws = v :: vs ∧ v.kind ≠ .mark .arrow) : Kept (fun ws => P ws ∧ ws ≠ []) p := by
  obtain ⟨v, vs, rfl, hv⟩ := hhead
  exact ⟨v :: vs, ⟨⟨h, nofun⟩, keepsArrow_cons hv _ _⟩, hkeeps⟩

/-- A statement with a passage of its own takes up a level. -/
theorem Within.StatementFrom.depth_pos {within : Within} {s : Statement} {p : Passage}
    (h : within.StatementFrom s p) : 0 < s.depth := by
  cases h <;> simp [Statement.depth]

namespace Within.AreRewritten

variable {within : Within} (hw : within.AreRewritten rereads) {m : Nat}
include hw

theorem braced {b : Block} {p : Passage} (h : within.BracedFrom b p) (hp : p.IsRegular rereads)
    (hm : b.depth ≤ m) : Rewritten ((wordsAt rereads m).BracedWords b) p := by
  obtain ⟨q, hq, rfl⟩ := h
  obtain ⟨ws, hws, hkeeps⟩ := hw.block hq hp.left.right hm
  exact ⟨_, ⟨ws, hws, rfl⟩, keptBy_between [.mark .openBrace] hkeeps _⟩

theorem catch_ {k : CatchClause} {p : Passage} (h : within.CatchFrom k p) (hp : p.IsRegular rereads)
    (hm : k.body.depth ≤ m) : Rewritten ((wordsAt rereads m).CatchWords k) p := by
  obtain ⟨ew, bp, he, hb, rfl⟩ := h
  obtain ⟨bw, hbw, hkeeps⟩ := hw.braced hb hp.right hm
  exact ⟨_, ⟨ew, bw, he.parenWords hp.left.points.tail, hbw, rfl⟩, keptBy_append (keptBy_plain _) hkeeps⟩

theorem finally_ {b : Block} {p : Passage} (h : within.FinallyFrom b p) (hp : p.IsRegular rereads)
    (hm : b.depth ≤ m) : Rewritten ((wordsAt rereads m).FinallyWords b) p := by
  obtain ⟨bp, hb, rfl⟩ := h
  obtain ⟨bw, hbw, hkeeps⟩ := hw.braced hb hp.right hm
  exact ⟨_, ⟨bw, hbw, rfl⟩, keptBy_append (keptBy_plain [.keyword .finally_]) hkeeps⟩

theorem case {k : SwitchCase} {p : Passage} (h : within.CaseFrom k p) (hp : p.IsRegular rereads)
    (hm : Statement.depths k.statements + 1 ≤ m) : Rewritten ((wordsAt rereads m).CaseWords k) p := by
  obtain ⟨lw, bp, hne, hl, hb, harrow, rfl⟩ := h
  obtain ⟨bw, ⟨hbw, hfirst⟩, hkeeps⟩ := hw.caseBody hb hp.right hm
  have hstart : (wordsAt rereads m).rereads → ∀ v ∈ bw.head?, v.kind ≠ .mark .arrow := by
    intro hr v hv hk
    rw [wordsAt_rereads] at hr
    exact not_startsArrow_behind hl hne harrow (hp.arrows hr) (hfirst v hv hk)
  exact ⟨_, ⟨lw, bw, hne, hl.imp (fun _ _ h => h.labelWords) hp.left.points, hbw, hstart, rfl⟩,
    keptBy_append (keptBy_plain _) hkeeps⟩

theorem statementFrom {s : Statement} {p : Passage} (h : within.StatementFrom s p)
    (hp : p.IsRegular rereads) (hm : s.depth ≤ m + 1) :
    Kept (fun ws => (wordsAt rereads m).StatementWords s ws ∧ ws ≠ []) p := by
  have hexcerpt {rule : CaptureRule} {e : Excerpt} {ws : List Word} (h : ExcerptFrom rule e ws) :
      NoPoints ws → ExcerptWords rule e ws := h.excerptWords
  cases h with
  | empty =>
    -- a lone semicolon becomes a block, one level further in
    obtain ⟨m, rfl⟩ : ∃ k, m = k + 1 := ⟨m - 1, by simp only [Statement.depth, Block.depth] at hm; omega⟩
    exact kept_of_head (.block ⟨[], .nil, rfl⟩) (fun w => by simp) ⟨_, _, rfl, nofun⟩
  | @declaration t ds sp q dw ht hds =>
    rw [← wordsAt_rereads rereads m] at hp
    obtain ⟨tw, htw, hkeeps⟩ := ht.rewritten hp.left
    have hdw := hds.imp (fun _ _ h => h.declaratorWords) hp.right.points.left
    refine ⟨_, ⟨⟨.declaration htw hdw, by simp⟩, ?_⟩, ?_⟩ <;> rw [List.append_assoc]
    · exact keepsArrow_type htw _ _
    · exact keptBy_append hkeeps (keptBy_plain _)
  | expression he hplain =>
    exact ⟨_, ⟨⟨.expression (he.excerptWords hp.points.left) hplain, by simp⟩, keepsArrow_refl _⟩,
      keptBy_plain _⟩
  | return_ he =>
    exact kept_of_head (.return_ (he.imp (fun _ _ => hexcerpt) hp.points.left.tail)) (keptBy_plain _)
      ⟨_, _, rfl, nofun⟩
  | if_ hc ht =>
    simp only [Statement.depth] at hm
    obtain ⟨tw, ⟨⟨htw, -⟩, -⟩, hkeeps⟩ := hw.statement ht hp.right (m := m) (by omega)
    exact kept_of_head (.if_ (hc.parenWords hp.left.points.tail) htw) (keptBy_append (keptBy_plain _) hkeeps)
      ⟨_, _, rfl, nofun⟩
  | ifElse hc ht hopen he =>
    simp only [Statement.depth, Statement.elseDepth] at hm
    obtain ⟨tw, ⟨⟨htw, -⟩, -⟩, hkeeps⟩ := hw.statement ht hp.left.left.right (m := m) (by omega)
    obtain ⟨ew, ⟨⟨hew, -⟩, -⟩, hkeeps'⟩ := hw.statement he hp.right (m := m) (by omega)
    exact kept_of_head (.ifElse (hc.parenWords hp.left.left.left.points.tail) htw hopen hew)
      (keptBy_joined (keptBy_append (keptBy_plain _) hkeeps) (.keyword .else_) hkeeps') ⟨_, _, rfl, nofun⟩
  | for_ hc hb =>
    simp only [Statement.depth] at hm
    obtain ⟨bw, ⟨⟨hbw, -⟩, -⟩, hkeeps⟩ := hw.statement hb hp.right (m := m) (by omega)
    exact kept_of_head (.for_ (hc.parenWords hp.left.points.tail) hbw) (keptBy_append (keptBy_plain _) hkeeps)
      ⟨_, _, rfl, nofun⟩
  | while_ hc hb =>
    simp only [Statement.depth] at hm
    obtain ⟨bw, ⟨⟨hbw, -⟩, -⟩, hkeeps⟩ := hw.statement hb hp.right (m := m) (by omega)
    exact kept_of_head (.while_ (hc.parenWords hp.left.points.tail) hbw)
      (keptBy_append (keptBy_plain _) hkeeps) ⟨_, _, rfl, nofun⟩
  | @doWhile _ _ _ cw _ hc hb =>
    simp only [Statement.depth] at hm
    obtain ⟨bw, ⟨⟨hbw, -⟩, -⟩, hkeeps⟩ := hw.statement hb hp.left.right (m := m) (by omega)
    have hkept := keptBy_between [.keyword .do_] hkeeps (.keyword .while_ :: cw ++ [.mark .semicolon])
    rw [← List.append_assoc] at hkept
    exact kept_of_head (.doWhile (hc.parenWords hp.right.points.tail.left) hbw) hkept ⟨_, _, rfl, nofun⟩
  | try_ hb hcs hf =>
    simp only [Statement.depth] at hm
    obtain ⟨bw, hbw, hkeeps⟩ := hw.braced hb hp.left.left.right (m := m) (by omega)
    obtain ⟨cw, hcw, hkeeps'⟩ := hcs.rewritten (Q := (wordsAt rereads m).CatchWords) hp.left.right
      fun k hk p hkp hp => hw.catch_ hkp hp (by have := CatchClause.le_depths hk; omega)
    obtain ⟨fw, hfw, hkeeps''⟩ := hf.rewritten (Q := (wordsAt rereads m).FinallyWords) hp.right
      fun b hb p hbp hp => hw.finally_ hbp hp (by cases hb; simp only [Block.optionalDepth] at hm; omega)
    have hkept := keptBy_append (keptBy_append (keptBy_append (keptBy_plain [.keyword .try_]) hkeeps) hkeeps')
      hkeeps''
    exact kept_of_head (.try_ hbw hcw hfw) hkept ⟨_, _, rfl, nofun⟩
  | block hb =>
    simp only [Statement.depth] at hm
    obtain ⟨bw, hbw, hkeeps⟩ := hw.braced hb hp (m := m) (by omega)
    have hstatement := Inner.StatementWords.block hbw
    obtain ⟨vs, -, rfl⟩ := hbw
    exact kept_of_head hstatement hkeeps ⟨_, _, rfl, nofun⟩
  | break_ hl => exact kept_of_head (.break_ hl) (keptBy_plain _) ⟨_, _, rfl, nofun⟩
  | continue_ hl => exact kept_of_head (.continue_ hl) (keptBy_plain _) ⟨_, _, rfl, nofun⟩
  | throw_ he =>
    exact kept_of_head (.throw_ (he.excerptWords hp.points.left.tail)) (keptBy_plain _) ⟨_, _, rfl, nofun⟩
  | @switch _ _ _ ew _ he hcs =>
    simp only [Statement.depth] at hm
    obtain ⟨cw, hcw, hkeeps⟩ := hcs.rewritten (Q := (wordsAt rereads m).CaseWords) hp.left.right
      fun k hk p hkp hp => hw.case hkp hp (by have := SwitchCase.le_depths hk; omega)
    have hkept := keptBy_between (.keyword .switch_ :: ew ++ [.mark .openBrace]) hkeeps [.mark .closeBrace]
    rw [List.append_assoc (.keyword .switch_ :: ew)] at hkept
    exact kept_of_head (.switch (he.parenWords hp.left.left.points.left.tail) hcw) hkept ⟨_, _, rfl, nofun⟩
  | synchronized he hb =>
    simp only [Statement.depth] at hm
    obtain ⟨bw, hbw, hkeeps⟩ := hw.braced hb hp.right (m := m) (by omega)
    exact kept_of_head (.synchronized (he.parenWords hp.left.points.tail) hbw)
      (keptBy_append (keptBy_plain _) hkeeps) ⟨_, _, rfl, nofun⟩
  | labeled hl hb =>
    simp only [Statement.depth] at hm
    obtain ⟨bw, ⟨⟨hbw, -⟩, -⟩, hkeeps⟩ := hw.statement hb hp.right (m := m) (by omega)
    exact kept_of_head (.labeled hl hbw) (keptBy_append (keptBy_plain [_, _]) hkeeps) ⟨_, _, rfl, nofun⟩
  | assert hc hmsg =>
    exact kept_of_head (.assert (hc.excerptWords hp.points.left.left.tail)
      (hmsg.imp (fun _ _ h => h.messageWords) hp.points.left.right)) (keptBy_plain _) ⟨_, _, rfl, nofun⟩

theorem rowFrom {ss : List Statement} {p : Passage} (h : within.RowFrom ss p)
    (hp : p.IsRegular rereads) (hm : Statement.depths ss ≤ m) :
    Kept ((wordsAt rereads m).RowWords ss) p := by
  induction h with
  | nil => exact ⟨[], ⟨.nil, nofun⟩, fun _ => Nat.le_refl _⟩
  | empty _ ih =>
    obtain ⟨ws, ⟨hws, harrow⟩, hkeeps⟩ := ih hp.right hm
    exact ⟨ws, ⟨hws, fun v hv hk => .inr ⟨rfl, harrow v hv hk⟩⟩, keptBy_behind_mark .semicolon hkeeps⟩
  | statement hs _ ih =>
    simp only [Statement.depths] at hm
    obtain ⟨ws, ⟨⟨hws, hne⟩, harrow⟩, hkeeps⟩ := hw.statement hs hp.left (m := m) (by omega)
    obtain ⟨vs, ⟨hvs, -⟩, hkeeps'⟩ := ih hp.right (by omega)
    exact ⟨_, ⟨.cons (.statement hws) hvs, harrow.append hne vs⟩, keptBy_append hkeeps hkeeps'⟩
  | @fields q fs ss qw p q' hq hf hlead _ ih =>
    rw [Statement.depths_append] at hm
    have hfields := hp.left.right
    rw [← wordsAt_rereads rereads m] at hfields
    obtain ⟨ws, hws, hkeeps⟩ := hf.rewritten hq hp.left.left.points hfields
    obtain ⟨vs, ⟨hvs, -⟩, hkeeps'⟩ := ih hp.right (by omega)
    obtain ⟨hne, hquals⟩ := hf.qualifiers
    have hrow : (wordsAt rereads m).RowWords (fs.map .field) ws := by
      refine eachWords_rowFields hws fun f hf => ?_
      rw [(hquals f hf).1, (hquals f hf).2]
      exact hq.leads hlead
    refine ⟨_, ⟨hrow.append hvs, ?_⟩, keptBy_append hkeeps hkeeps'⟩
    cases hws with
    | nil => exact absurd rfl hne
    | cons hfield _ =>
      obtain ⟨v, us, rfl, hv⟩ := fieldWords_head hfield
      exact keepsArrow_cons hv _ _

end Within.AreRewritten

theorem areRewritten (n : Nat) : (passagesAt n).AreRewritten rereads := by
  induction n with
  | zero => exact ⟨fun h => absurd h id, fun h => absurd h id, fun h => absurd h id⟩
  | succ n ih =>
    refine ⟨fun {s p m} h hp hm => ?_, fun {b p m} h hp hm => ?_, fun {ss p m} h hp hm => ?_⟩
    · obtain ⟨m, rfl⟩ : ∃ k, m = k + 1 := ⟨m - 1, by have := Within.StatementFrom.depth_pos h; omega⟩
      exact ih.statementFrom h hp hm
    · obtain ⟨ss, sp⟩ := b
      rw [Block.depth] at hm
      obtain ⟨m, rfl⟩ : ∃ k, m = k + 1 := ⟨m - 1, by omega⟩
      exact (ih.rowFrom h hp (Nat.le_of_succ_le_succ hm)).imp fun _ h => h.1
    · obtain ⟨m, rfl⟩ : ∃ k, m = k + 1 := ⟨m - 1, by omega⟩
      exact ih.rowFrom h hp (Nat.le_of_succ_le_succ hm)

/-! ### Members -/

/-- How many levels of statements and blocks there are in a member. -/
def Member.depth : Member → Nat
  | field _ => 0
  | method m => Block.optionalDepth m.body
  | constructor c => c.body.depth
  | initializer i => i.body.depth

/-- How many levels of statements and blocks there are in a type. -/
def TypeDeclaration.depth (t : TypeDeclaration) : Nat := (t.members.map Member.depth).foldr max 0

/-- How many levels of statements and blocks there are in all. -/
def CompilationUnit.depth (u : CompilationUnit) : Nat := (u.types.map TypeDeclaration.depth).foldr max 0

theorem le_foldr_max {n : Nat} {ns : List Nat} (h : n ∈ ns) : n ≤ ns.foldr max 0 := by
  induction ns with
  | nil => cases h
  | cons k ns ih =>
    rcases List.mem_cons.mp h with rfl | h
    · exact Nat.le_max_left _ _
    · exact Nat.le_trans (ih h) (Nat.le_max_right _ _)

section Levels

variable {n m : Nat}

theorem BodyFrom.rewritten {b : Block} {p : Passage} (h : BodyFrom n b p) (hp : p.IsRegular rereads)
    (hm : b.depth ≤ m) : Rewritten (BodyWords rereads m b) p :=
  (areRewritten n).braced h hp hm

theorem MethodBodyFrom.rewritten {b : Option Block} {p : Passage} (h : MethodBodyFrom n b p)
    (hp : p.IsRegular rereads) (hm : Block.optionalDepth b ≤ m) :
    Rewritten (MethodBodyWords rereads m b) p := by
  cases h with
  | none => exact rewritten_plain .none
  | some h => exact (h.rewritten hp hm).imp fun _ => .some

theorem eachWords_map_field {fs : List Field} {ws : List Word} (h : EachWords (FieldWords rereads) fs ws) :
    EachWords (MemberWords rereads m) (fs.map .field) ws := by
  induction h with
  | nil => exact .nil
  | cons hf _ ih => exact .cons (.field hf) ih

theorem MemberFrom.rewritten {found : List Member} {p : Passage} (h : MemberFrom n found p)
    (hp : p.IsRegular rereads) (hm : ∀ x ∈ found, x.depth ≤ m) :
    Rewritten (EachWords (MemberWords rereads m) found) p := by
  cases h with
  | @initializer q b sp qw bp hq hb =>
    obtain ⟨bw, hbw, hkeeps⟩ := hb.rewritten hp.right (hm _ List.mem_cons_self)
    refine ⟨_, .cons (.initializer ⟨bw, hbw, rfl⟩) .nil, ?_⟩
    rw [List.append_nil]
    exact keptBy_append (keptBy_dropped _ _) hkeeps
  | fields hq hg hf =>
    obtain ⟨ws, hws, hkeeps⟩ := hf.rewritten hq hp.left.left.points hp.right
    refine ⟨_, eachWords_map_field hws, fun w => ?_⟩
    have hw := hkeeps w
    simp at hw ⊢
    omega
  | @method x qw gp mp hq hg hx =>
    obtain ⟨rp, pp, tp, bp, hr, hname, hps, hts, hb, rfl⟩ := hx
    have hmp := hp.right
    obtain ⟨vs, hvs, hk₀⟩ := hq.rewritten hp.left.left.points
    obtain ⟨gw, hgw, hk₁⟩ := parameters_rewritten hg hp.left.right
    obtain ⟨rw, hrw, hk₂⟩ := hr.rewritten hmp.left.left.left.left
    obtain ⟨pw, hpw, hk₃⟩ := hps.rewritten hmp.left.left.right
    obtain ⟨tw, htw, hk₄⟩ := hts.rewritten hmp.left.right
    obtain ⟨bw, hbw, hk₅⟩ := hb.rewritten hmp.right (hm _ List.mem_cons_self)
    have hbehind := keptBy_append (keptBy_append (keptBy_joined hk₂ (.name x.name) hk₃) hk₄) hk₅
    have hkept := keptBy_append (keptBy_append (keptBy_of_le hk₀) hk₁) hbehind
    exact ⟨_, .cons (.method ⟨vs, gw, rw, pw, tw, bw, hvs, hgw, hrw, hname, hpw, htw, hbw, rfl⟩) .nil,
      keptBy_congr hkept (by simp)⟩
  | @constructor k qw gp mp hq hg hx =>
    obtain ⟨pp, tp, bp, hname, hps, hts, hb, rfl⟩ := hx
    have hmp := hp.right
    obtain ⟨vs, hvs, hk₀⟩ := hq.rewritten hp.left.left.points
    obtain ⟨gw, hgw, hk₁⟩ := parameters_rewritten hg hp.left.right
    obtain ⟨pw, hpw, hk₂⟩ := hps.rewritten hmp.left.left.right
    obtain ⟨tw, htw, hk₃⟩ := hts.rewritten hmp.left.right
    obtain ⟨bw, hbw, hk₄⟩ := hb.rewritten hmp.right (hm _ List.mem_cons_self)
    have hbehind := keptBy_append (keptBy_append (keptBy_append (keptBy_plain [.name k.name]) hk₂) hk₃) hk₄
    have hkept := keptBy_append (keptBy_append (keptBy_of_le hk₀) hk₁) hbehind
    exact ⟨_, .cons (.constructor ⟨vs, gw, pw, tw, bw, hvs, hgw, hname, hpw, htw, hbw, rfl⟩) .nil,
      keptBy_congr hkept (by simp)⟩

theorem MembersFrom.rewritten {ms : List Member} {p : Passage} (h : MembersFrom n ms p)
    (hp : p.IsRegular rereads) (hm : ∀ x ∈ ms, x.depth ≤ m) :
    Rewritten (EachWords (MemberWords rereads m) ms) p := by
  induction h with
  | nil => exact rewritten_plain .nil
  | empty _ ih =>
    obtain ⟨ws, hws, hkeeps⟩ := ih hp.right hm
    exact ⟨ws, hws, keptBy_behind_mark .semicolon hkeeps⟩
  | cons hfound _ ih =>
    obtain ⟨ws, hws, hkeeps⟩ := hfound.rewritten hp.left fun x hx => hm x (List.mem_append_left _ hx)
    obtain ⟨vs, hvs, hkeeps'⟩ := ih hp.right fun x hx => hm x (List.mem_append_right _ hx)
    exact ⟨_, hws.append hvs, keptBy_append hkeeps hkeeps'⟩

/-! ### Types and units -/

theorem ConstantsFrom.rewritten {cs : List EnumConstant} {ws : List Word} (h : ConstantsFrom cs ws)
    (hpoints : NoPoints ws) : ∃ vs, ConstantsWords cs vs ∧ ∀ w, tally w ws = tally w vs := by
  induction h with
  | nil => exact ⟨[], .nil, fun _ => rfl⟩
  | last hc => exact ⟨_, .some (.one (hc.constantWords hpoints)), fun _ => rfl⟩
  | cons hc _ ih =>
    have hone := hc.constantWords hpoints.left
    obtain ⟨vs, hvs, hkeeps⟩ := ih hpoints.right.tail
    cases hvs with
    | nil => exact ⟨_, .some (.one hone), fun w => by simpa using hkeeps w⟩
    | some hvs => exact ⟨_, .some (.cons hone hvs), fun w => by simpa using hkeeps w⟩

theorem EnumMembersFrom.rewritten {ms : List Member} {p : Passage} (h : EnumMembersFrom n ms p)
    (hp : p.IsRegular rereads) (hm : ∀ x ∈ ms, x.depth ≤ m) :
    Rewritten (EachWords (MemberWords rereads m) ms) p := by
  cases h with
  | none => exact rewritten_plain .nil
  | some h =>
    obtain ⟨ws, hws, hkeeps⟩ := h.rewritten hp.right hm
    exact ⟨ws, hws, keptBy_behind_mark .semicolon hkeeps⟩

theorem HeaderFrom.rewritten {x : String} {ms : List Member} {header : TypeHeader} {p : Passage}
    (h : HeaderFrom n x ms header p) (hp : p.IsRegular rereads) (hm : ∀ x ∈ ms, x.depth ≤ m) :
    Rewritten (HeaderWords rereads m x ms header) p := by
  cases h with
  | class_ hg ht his hms =>
    obtain ⟨gw, hgw, hk₀⟩ := parameters_rewritten hg hp.left.left.left.left.left.right
    obtain ⟨ew, hew, hk₁⟩ := ht.rewritten hp.left.left.left.left.right
    obtain ⟨iw, hiw, hk₂⟩ := his.rewritten hp.left.left.left.right
    obtain ⟨mw, hmw, hk₃⟩ := hms.rewritten hp.left.right hm
    have hbefore := keptBy_append (keptBy_append (keptBy_append (keptBy_plain [.keyword .class_, .name x]) hk₀)
      hk₁) hk₂
    exact ⟨_, .class_ hgw hew hiw hmw,
      keptBy_append (keptBy_joined hbefore (.mark .openBrace) hk₃) (keptBy_plain _)⟩
  | interface_ hg hts hms =>
    obtain ⟨gw, hgw, hk₀⟩ := parameters_rewritten hg hp.left.left.left.left.right
    obtain ⟨ew, hew, hk₁⟩ := hts.rewritten hp.left.left.left.right
    obtain ⟨mw, hmw, hk₂⟩ := hms.rewritten hp.left.right hm
    have hbefore := keptBy_append (keptBy_append (keptBy_plain [.keyword .interface_, .name x]) hk₀) hk₁
    exact ⟨_, .interface_ hgw hew hmw,
      keptBy_append (keptBy_joined hbefore (.mark .openBrace) hk₂) (keptBy_plain _)⟩
  | enum_ his hcs hms =>
    obtain ⟨iw, hiw, hk₀⟩ := his.rewritten hp.left.left.left.right
    obtain ⟨cw, hcw, hk₁⟩ := hcs.rewritten hp.left.left.right.points.tail
    obtain ⟨mw, hmw, hk₂⟩ := hms.rewritten hp.left.right hm
    refine ⟨_, .enum_ hiw hcw hmw, fun w => ?_⟩
    have h₀ := hk₀ w
    have h₁ := hk₁ w
    have h₂ := hk₂ w
    -- without members, there are no words of members
    cases hmw <;> simp at h₂ ⊢ <;> omega

theorem DeclarationFrom.rewritten {t : TypeDeclaration} {p : Passage} (h : DeclarationFrom n t p)
    (hp : p.IsRegular rereads) (hm : t.depth ≤ m) : Rewritten (DeclarationWords rereads m t) p := by
  obtain ⟨qw, hp', hq, hname, hheader, rfl⟩ := h
  obtain ⟨vs, hvs, hkeeps⟩ := hq.rewritten hp.left.points
  obtain ⟨hw, hhw, hkeeps'⟩ := hheader.rewritten hp.right fun x hx =>
    Nat.le_trans (le_foldr_max (List.mem_map_of_mem hx)) hm
  exact ⟨_, ⟨vs, hw, hvs, hname, hhw, rfl⟩, keptBy_append (keptBy_of_le hkeeps) hkeeps'⟩

theorem TypesFrom.rewritten {ts : List TypeDeclaration} {p : Passage} (h : TypesFrom n ts p)
    (hp : p.IsRegular rereads) (hm : ∀ t ∈ ts, t.depth ≤ m) :
    Rewritten (EachWords (DeclarationWords rereads m) ts) p := by
  induction h with
  | nil => exact rewritten_plain .nil
  | empty _ ih =>
    obtain ⟨ws, hws, hkeeps⟩ := ih hp.right hm
    exact ⟨ws, hws, keptBy_behind_mark .semicolon hkeeps⟩
  | cons ht _ ih =>
    obtain ⟨ws, hws, hkeeps⟩ := ht.rewritten hp.left (hm _ List.mem_cons_self)
    obtain ⟨vs, hvs, hkeeps'⟩ := ih hp.right fun t ht => hm t (List.mem_cons_of_mem _ ht)
    exact ⟨_, .cons hws hvs, keptBy_append hkeeps hkeeps'⟩

/-- The tree of a regular text has words, on as many levels as it is deep, and what is kept of the
text is among them. -/
theorem UnitFrom.rewritten {u : CompilationUnit} {p : Passage} (h : UnitFrom n u p)
    (hp : p.IsRegular rereads) : Rewritten (UnitWords rereads u.depth u) p := by
  obtain ⟨pw, iw, tp, hpackage, himports, hts, rfl⟩ := h
  obtain ⟨tw, htw, hkeeps⟩ := hts.rewritten hp.right fun t ht => le_foldr_max (List.mem_map_of_mem ht)
  exact ⟨_, ⟨pw, iw, tw, hpackage, himports, htw, rfl⟩, keptBy_append (keptBy_plain _) hkeeps⟩

end Levels

end JavaTree
