import JavaTree.Proofs.Parser.Loops

/-!
Statements inside statements, and the end of reading.

A statement that stands at a place asks for the statements inside it only behind its first token. One
that is a block hands over to the reader of blocks at the same place, but that one asks only behind
the opening brace. So the number of levels that a text can need is bounded by twice the number of its
tokens, and with that many levels their number makes no difference.
-/

namespace JavaTree.Parser

variable {α : Type} {c : Settings} {s : State}

/-! ### Statements that differ further in -/

/-- Readers for one level further in that do the same at all places with a property. -/
structure DeeperAgree (P : List Token → Prop) (c : Settings) (d e : Deeper) : Prop where
  statement : Agree P c d.statement e.statement
  block : Agree P c d.block e.block
  caseBody : Agree P c d.caseBody e.caseBody

section Rows

variable {P : List Token → Prop} (hP : Lasting P) {st st' : Parser Statement}
  (hst : ∀ ts, Keeps ts c (fun s => Kept c ts s.leaves) st) (h : Agree P c st st')

include hP h

theorem agree_blockStatement : Agree P c (blockStatement st) (blockStatement st') := by
  refine agree_then hP (Keeps.forward fun _ => keeps_rest) fun _ => ?_
  refine agree_ite (agree_refl _) (agree_ite (agree_refl _) (agree_ite (agree_refl _) ?_))
  exact agree_left h _

include hst

theorem agree_statements (inSwitch : Bool) (cap : Nat) :
    Agree P c (statements st inSwitch cap) (statements st' inSwitch cap) := by
  induction cap with
  | zero => exact agree_refl _
  | succ cap ih =>
    refine agree_then hP (Keeps.forward fun _ => keeps_kind) fun _ => agree_ite (agree_refl _) ?_
    refine agree_then hP (Keeps.forward fun _ => keeps_accept _) fun _ => agree_ite ih ?_
    refine agree_bind hP ?_ (agree_recover (agree_blockStatement hP h)) fun _ => agree_left ih _
    exact Keeps.forward fun ts => keeps_recover (keeps_blockStatement (hst ts))
      (keeps_bind (keeps_skipBy _) fun _ _ => keeps_pure kept_nil)

theorem agree_allStatements (inSwitch : Bool) :
    Agree P c (allStatements st inSwitch) (allStatements st' inSwitch) :=
  agree_then hP (Keeps.forward fun _ => keeps_read) fun _ => agree_statements hP hst h inSwitch _

end Rows

/-- A block asks for statements only behind its opening brace. -/
theorem braced_congr {st st' : Parser Statement}
    (hst : ∀ ts, Keeps ts c (fun s => Kept c ts s.leaves) st)
    (h : Agree (Behind · s.rest) c st st') : braced st c s = braced st' c s := by
  rw [braced, braced, bind_run_ok here_run, bind_run_ok here_run]
  refine moved_congr (moves_require ?_ _) fun _ => ?_
  · simp
  refine agree_bind (lasting_behind _) ?_ (agree_allStatements (lasting_behind _) hst h false)
    fun _ => agree_refl _
  exact Keeps.forward fun ts => keeps_allStatements (hst ts) false

section Forms

variable {d e : Deeper} (hd : ∀ ts, DeeperKeeps ts c d)

theorem agree_catchClauses {P : List Token → Prop} (hP : Lasting P) (hd : ∀ ts, DeeperKeeps ts c d)
    (h : DeeperAgree P c d e) (n : Nat) : Agree P c (catchClauses d n) (catchClauses e n) := by
  induction n with
  | zero => exact agree_refl _
  | succ n ih =>
    refine agree_then hP (Keeps.forward fun _ => keeps_here) fun _ => ?_
    refine agree_then hP (Keeps.forward fun _ => keeps_accept _) fun _ => agree_ite ?_ (agree_refl _)
    refine agree_then hP (Keeps.forward fun _ => keeps_parenthesized _) fun _ => ?_
    refine agree_bind hP (Keeps.forward fun ts => (hd ts).block) h.block fun _ => ?_
    exact agree_then hP (Keeps.forward fun _ => keeps_spanFrom _) fun _ => agree_left ih _

theorem agree_switchCases {P : List Token → Prop} (hP : Lasting P) (hd : ∀ ts, DeeperKeeps ts c d)
    (h : DeeperAgree P c d e) (n : Nat) : Agree P c (switchCases d n) (switchCases e n) := by
  induction n with
  | zero => exact agree_refl _
  | succ n ih =>
    refine agree_then hP (Keeps.forward fun _ => keeps_kind) fun _ => agree_ite (agree_refl _) ?_
    refine agree_then hP (Keeps.forward fun _ => keeps_here) fun _ => ?_
    refine agree_then hP (Keeps.forward (Q := fun _ _ => True) fun _ =>
      keeps_recover (keeps_map keeps_someCaseLabels fun _ _ => trivial)
        (keeps_bind (keeps_skipBy _) fun _ _ => keeps_pure trivial)) fun labels => ?_
    rcases labels with _ | labels
    · exact ih
    refine agree_then hP (Keeps.forward fun _ => keeps_check _) fun _ => agree_ite (agree_refl _) ?_
    refine agree_bind hP (Keeps.forward (Q := fun _ _ => True) fun ts =>
      keeps_recover (keeps_map (hd ts).caseBody fun _ _ => trivial)
        (keeps_bind (keeps_skipBy _) fun _ _ => keeps_pure trivial))
      (agree_recover (agree_map h.caseBody)) fun inner => ?_
    rcases inner with _ | inner
    · exact agree_refl _
    · exact agree_then hP (Keeps.forward fun _ => keeps_spanFrom _) fun _ => agree_left ih _

variable (h : DeeperAgree (Behind · s.rest) c d e) (start : Location)

include h

theorem labeledStatement_congr : labeledStatement d start c s = labeledStatement e start c s := by
  refine moved_congr moves_identifier fun _ => ?_
  refine agree_then (lasting_behind _) (Keeps.forward fun _ => keeps_skip 1) fun _ => ?_
  exact agree_left h.statement _

variable (hs : s.rest ≠ [])

include hs

theorem forStatement_congr : forStatement d start c s = forStatement e start c s := by
  refine skip_congr hs ?_
  refine agree_then (lasting_behind _) (Keeps.forward fun _ => keeps_parenthesized _) fun _ => ?_
  exact agree_left h.statement _

theorem whileStatement_congr : whileStatement d start c s = whileStatement e start c s := by
  refine skip_congr hs ?_
  refine agree_then (lasting_behind _) (Keeps.forward fun _ => keeps_parenthesized _) fun _ => ?_
  exact agree_left h.statement _

theorem doStatement_congr : doStatement d start c s = doStatement e start c s :=
  skip_congr hs (agree_left h.statement _)

theorem synchronizedStatement_congr :
    synchronizedStatement d start c s = synchronizedStatement e start c s := by
  refine skip_congr hs ?_
  refine agree_then (lasting_behind _) (Keeps.forward fun _ => keeps_parenthesized _) fun _ => ?_
  exact agree_left h.block _

include hd

theorem ifStatement_congr : ifStatement d start c s = ifStatement e start c s := by
  refine skip_congr hs ?_
  refine agree_then (lasting_behind _) (Keeps.forward fun _ => keeps_parenthesized _) fun _ => ?_
  refine agree_bind (lasting_behind _) (Keeps.forward fun ts => (hd ts).statement) h.statement
    fun _ => ?_
  refine agree_then (lasting_behind _) (Keeps.forward fun _ => keeps_accept _) fun _ => ?_
  exact agree_ite (agree_left h.statement _) (agree_refl _)

theorem tryStatement_congr : tryStatement d start c s = tryStatement e start c s := by
  refine skip_congr hs ?_
  refine agree_bind (lasting_behind _) (Keeps.forward fun ts => (hd ts).block) h.block fun _ => ?_
  refine agree_then (lasting_behind _) (Keeps.forward fun _ => keeps_steps) fun _ => ?_
  refine agree_bind (lasting_behind _) (Keeps.forward fun ts => keeps_catchClauses (hd ts) _)
    (agree_catchClauses (lasting_behind _) hd h _) fun _ => ?_
  refine agree_then (lasting_behind _) (Keeps.forward fun _ => keeps_accept _) fun _ => ?_
  exact agree_ite (agree_left h.block _) (agree_refl _)

theorem switchStatement_congr : switchStatement d start c s = switchStatement e start c s := by
  refine skip_congr hs ?_
  refine agree_then (lasting_behind _) (Keeps.forward fun _ => keeps_parenthesized _) fun _ => ?_
  refine agree_then (lasting_behind _) (Keeps.forward fun _ => keeps_require _ _) fun _ => ?_
  refine agree_then (lasting_behind _) (Keeps.forward fun _ => keeps_steps) fun _ => ?_
  exact agree_left (agree_switchCases (lasting_behind _) hd h _) _

omit hs start in
/-- A statement asks for what is inside it only behind its first token, a block apart. -/
theorem anyStatement_congr
    (hblock : kindOf s.rest = .mark .openBrace → d.block c s = e.block c s) :
    anyStatement d c s = anyStatement e c s := by
  rw [anyStatement, anyStatement, bind_run_ok here_run, bind_run_ok here_run, bind_run_ok kind_run,
    bind_run_ok kind_run, bind_run_ok secondKind_run, bind_run_ok secondKind_run]
  generalize hk : kindOf s.rest = k at hblock
  generalize kindOf (s.rest.drop 1) = k'
  have hne {w : Keyword} (hw : k = .keyword w) : s.rest ≠ [] := rest_ne_nil (hk.trans hw) (by simp)
  split
  · rw [bind_run, bind_run, hblock rfl]
  · rfl
  · rfl
  · exact ifStatement_congr hd h _ (hne rfl)
  · exact forStatement_congr h _ (hne rfl)
  · exact whileStatement_congr h _ (hne rfl)
  · exact doStatement_congr h _ (hne rfl)
  · rfl
  · exact tryStatement_congr hd h _ (hne rfl)
  · exact switchStatement_congr hd h _ (hne rfl)
  · rfl
  · rfl
  · rfl
  · exact synchronizedStatement_congr h _ (hne rfl)
  · rfl
  · exact labeledStatement_congr h _
  all_goals rfl

end Forms

/-! ### Enough levels -/

/-- Readers for two numbers of levels agree at all places for which both numbers are enough. -/
theorem levels_agree (k : Nat) : ∀ m n, k ≤ m → k ≤ n → ∀ (c : Settings) (s : State),
    (2 * s.rest.length + 1 < k → statement m c s = statement n c s) ∧
      (2 * s.rest.length < k → block m c s = block n c s) ∧
        (2 * s.rest.length + 2 < k → caseBody m c s = caseBody n c s) := by
  induction k with
  | zero => exact fun _ _ _ _ _ _ => ⟨fun h => by omega, fun h => by omega, fun h => by omega⟩
  | succ k ih =>
    intro m n hm hn c s
    obtain ⟨m, rfl⟩ : ∃ m', m = m' + 1 := ⟨m - 1, by omega⟩
    obtain ⟨n, rfl⟩ : ∃ n', n = n' + 1 := ⟨n - 1, by omega⟩
    have hinner := ih m n (by omega) (by omega) c
    have hkeeps (ts : List Token) : DeeperKeeps ts c (deeperAt m) := deeperKeeps m
    refine ⟨fun hk => ?_, fun hk => ?_, fun hk => ?_⟩
    · rw [statement, statement]
      refine anyStatement_congr (d := deeperAt m) (e := deeperAt n) hkeeps ⟨?_, ?_, ?_⟩ fun _ => ?_
      · exact fun s' hs' => (hinner s').1 (by have := hs'.2; omega)
      · exact fun s' hs' => (hinner s').2.1 (by have := hs'.2; omega)
      · exact fun s' hs' => (hinner s').2.2 (by have := hs'.2; omega)
      · exact (hinner s).2.1 (by omega)
    · rw [block, block]
      refine braced_congr (fun ts => (hkeeps ts).statement) fun s' hs' => ?_
      exact (hinner s').1 (by have := hs'.2; omega)
    · rw [caseBody, caseBody]
      refine agree_allStatements (lasting_suffix s.rest) (fun ts => (hkeeps ts).statement)
        (fun s' hs' => ?_) true s (List.suffix_refl _)
      exact (hinner s').1 (by have := hs'.length_le; omega)

/-! ### Rules that count tokens -/

/-- The rules by which tokens are passed over or taken together. -/
inductive SkipRule : (List Token → Nat) → Prop
  | group (depth : Nat) : SkipRule (group depth)
  | blockRest (depth : Nat) : SkipRule (blockRest depth)
  | typeBody : SkipRule typeBody
  | statementRest (depth : Nat) : SkipRule (statementRest depth)
  | caseRest (depth : Nat) : SkipRule (caseRest depth)
  | memberRest (cap : Nat) (atStart : Bool) (depth : Nat) : SkipRule (memberRest cap atStart depth)
  | constantRest (atStart : Bool) (depth : Nat) : SkipRule (constantRest atStart depth)
  | typeRest (atStart : Bool) (depth : Nat) : SkipRule (typeRest atStart depth)
  | capture (rule : CaptureRule) (cap : Nat) (closers : List Mark) (previous : Option Kind) :
      SkipRule fun ts => (extent rule cap closers previous ts).1
  | angle (cap : Nat) (depth : Int) : SkipRule fun ts => (angleExtent cap depth ts).1
  | names : SkipRule fun ts => 2 * (furtherNames ts).length
  | dimensions : SkipRule fun ts => 2 * dimensions ts

/-- A rule ends at a place, with at most the token there, or a rule goes on behind some tokens. -/
def StepsOn (rule : List Token → Nat) (ts : List Token) : Prop :=
  rule ts ≤ min 1 ts.length ∨
    ∃ pre us next, ts = pre ++ us ∧ pre ≠ [] ∧ SkipRule next ∧ rule ts = next us + pre.length

/-- A rule that counts tokens one by one. -/
theorem stepsOn_cons {rule : List Token → Nat} {t : Token} {ts : List Token}
    (h : rule (t :: ts) ≤ 1 ∨ ∃ next, SkipRule next ∧ rule (t :: ts) = next ts + 1) :
    StepsOn rule (t :: ts) := by
  rcases h with hlast | ⟨next, hnext, heq⟩
  · exact .inl (by simpa using hlast)
  · exact .inr ⟨[t], ts, next, rfl, List.cons_ne_nil _ _, hnext, heq⟩

/-- A rule that counts tokens in pairs. -/
theorem stepsOn_pair {rule : List Token → Nat} (hrule : SkipRule rule) {t u : Token}
    {ts : List Token} (h : rule (t :: u :: ts) = rule ts + 2) : StepsOn rule (t :: u :: ts) :=
  .inr ⟨[t, u], ts, rule, rfl, List.cons_ne_nil _ _, hrule, h⟩

theorem skipRule_nil {rule : List Token → Nat} (h : SkipRule rule) : rule [] = 0 := by
  cases h with
  | capture rule cap closers previous => simp only [extent]
  | angle cap depth => simp only [angleExtent]
  | group | blockRest | typeBody | statementRest | caseRest | memberRest | constantRest | typeRest
  | names | dimensions => rfl

theorem stepsOn_typeBody (t : Token) (ts : List Token) : StepsOn typeBody (t :: ts) := by
  refine stepsOn_cons ?_
  by_cases hopen : t.kind = .mark .openBrace
  · refine .inr ⟨_, .group 1, ?_⟩
    simp [typeBody, kindOf, hopen, group, isOpener, Mark.closer?]
  · by_cases hsemi : t.kind = .mark .semicolon
    · exact .inl (by simp [typeBody, kindOf, hsemi])
    · refine .inr ⟨_, .typeBody, ?_⟩
      simp [typeBody, hopen, hsemi]
      omega

theorem stepsOn_capture (rule : CaptureRule) (cap : Nat) (closers : List Mark)
    (previous : Option Kind) (ts : List Token) :
    StepsOn (fun ts => (extent rule cap closers previous ts).1) ts := by
  rw [StepsOn]
  fun_cases extent rule cap closers previous ts with
  | case6 t us _ _ inner _ room n e hrec =>
    exact .inr ⟨[t], us, _, rfl, List.cons_ne_nil _ _, .capture rule room inner (some t.kind),
      by rw [hrec]; rfl⟩
  | case1 | case2 | case3 | case4 | case5 => exact .inl (Nat.zero_le _)

theorem stepsOn_angle (cap : Nat) (depth : Int) (ts : List Token) :
    StepsOn (fun ts => (angleExtent cap depth ts).1) ts := by
  rw [StepsOn]
  fun_cases angleExtent cap depth ts with
  | case5 t us _ room d _ n e hrec =>
    exact .inr ⟨[t], us, _, rfl, List.cons_ne_nil _ _, .angle room d, by rw [hrec]; rfl⟩
  | case4 t us => exact .inl (by simp)
  | case1 | case2 | case3 => exact .inl (Nat.zero_le _)

theorem stepsOn_of_skipRule {rule : List Token → Nat} (h : SkipRule rule) (ts : List Token) :
    StepsOn rule ts := by
  rcases ts with _ | ⟨t, ts⟩
  · exact .inl (by simp [skipRule_nil h])
  cases h with
  | group depth =>
    refine stepsOn_cons ?_
    rw [group]
    generalize (if isOpener t.kind then depth + 1 else if isCloser t.kind then depth - 1
      else depth) = d
    split
    · exact .inl (Nat.le_refl 1)
    · exact .inr ⟨_, .group _, rfl⟩
  | blockRest depth =>
    refine stepsOn_cons ?_
    rw [blockRest]
    repeat' split
    all_goals first | exact .inl (Nat.zero_le 1) | exact .inr ⟨_, .blockRest _, rfl⟩
  | typeBody => exact stepsOn_typeBody t ts
  | statementRest depth =>
    refine stepsOn_cons ?_
    rw [statementRest]
    repeat' split
    all_goals first | exact .inl (by decide) | exact .inr ⟨_, .statementRest _, rfl⟩
  | caseRest depth =>
    refine stepsOn_cons ?_
    rw [caseRest]
    repeat' split
    all_goals first | exact .inl (Nat.zero_le 1) | exact .inr ⟨_, .caseRest _, rfl⟩
  | memberRest cap atStart depth =>
    refine stepsOn_cons ?_
    rw [memberRest]
    repeat' split
    all_goals first | exact .inl (by decide) | exact .inr ⟨_, .memberRest _ _ _, rfl⟩
  | constantRest atStart depth =>
    refine stepsOn_cons ?_
    rw [constantRest]
    repeat' split
    all_goals first | exact .inl (by decide) | exact .inr ⟨_, .constantRest _ _, rfl⟩
  | typeRest atStart depth =>
    refine stepsOn_cons ?_
    rw [typeRest]
    repeat' split
    all_goals first | exact .inl (by decide) | exact .inr ⟨_, .typeRest _ _, rfl⟩
  | capture rule cap closers previous => exact stepsOn_capture rule cap closers previous (t :: ts)
  | angle cap depth => exact stepsOn_angle cap depth (t :: ts)
  | names =>
    rcases ts with _ | ⟨u, ts⟩
    · exact .inl (by simp [furtherNames])
    · by_cases h : t.kind = .mark .dot ∧ u.kind = .identifier
      · exact stepsOn_pair .names (by simp [furtherNames, h, Nat.mul_add])
      · exact .inl (by simp [furtherNames, h])
  | dimensions =>
    rcases ts with _ | ⟨u, ts⟩
    · exact .inl (by simp [dimensions])
    · by_cases h : t.kind = .mark .openBracket ∧ u.kind = .mark .closeBracket
      · exact stepsOn_pair .dimensions (by simp [dimensions, h, Nat.mul_add])
      · exact .inl (by simp [dimensions, h])

theorem skipRule_le {rule : List Token → Nat} (h : SkipRule rule) (ts : List Token) :
    rule ts ≤ ts.length := by
  induction hn : ts.length using Nat.strong_induction_on generalizing rule ts with
  | _ n ih =>
    subst hn
    rcases stepsOn_of_skipRule h ts with hlast | ⟨pre, us, next, rfl, hpre, hnext, heq⟩
    · omega
    · have hpos := List.length_pos_iff.mpr hpre
      have hle := ih us.length (by simp; omega) hnext us rfl
      rw [heq, List.length_append]
      omega

/-! ### The end of reading -/

theorem suffix_of_afterAngle {cap : Nat} {depth : Int} {ts us : List Token}
    (h : afterAngle? cap depth ts = some us) : us <:+ ts := by
  fun_induction afterAngle? cap depth ts with
  | case1 => cases h
  | case2 cap depth t ts _ d hd =>
    cases h
    exact List.suffix_cons t us
  | case3 => cases h
  | case4 depth t ts _ d hd room ih => exact (ih h).trans (List.suffix_cons t ts)
  | case5 => cases h

theorem suffix_of_afterArguments {cap : Nat} {ts us : List Token}
    (h : afterArguments? cap ts = some us) : us <:+ ts := by
  unfold afterArguments? at h
  split at h
  · exact suffix_of_afterAngle h
  · cases h
    exact List.suffix_refl _

/-- Looking ahead past a name needs no more steps than there are tokens. -/
theorem afterName_eq {cap m n : Nat} {ts : List Token} (hm : ts.length < m) (hn : ts.length < n) :
    afterName? cap m ts = afterName? cap n ts := by
  induction m generalizing n ts with
  | zero => omega
  | succ m ih =>
    obtain ⟨n, rfl⟩ : ∃ n', n = n' + 1 := ⟨n - 1, by omega⟩
    rw [afterName?, afterName?]
    cases hmore : afterArguments? cap ts with
    | none => rfl
    | some more =>
      have hle := (suffix_of_afterArguments hmore).length_le
      simp only [Option.bind_some]
      split
      · next hdot =>
        have hpos : 0 < more.length :=
          List.length_pos_iff.mpr (rest_ne_nil_of_kindOf (by rw [kindOf_of_startsWith hdot]; nofun))
        have hlt : (more.drop 2).length < ts.length := by
          rw [List.length_drop]
          omega
        exact ih (by omega) (by omega)
      · rfl

/-- Reading ends, for all tokens, limits and budgets.

Each loop goes on only at places behind the one where it stands, so it has one meaning without a bound
on its steps, and the bound never cuts it short. A statement asks for the statements inside it only
behind its first token, and a block only behind its brace, so that levels enough for the tokens that
are left make no difference either. The rules for what is passed over count tokens of the text, each
once. -/
theorem reading_ends :
    (∀ {ι α : Type} (L : Loop ι α), IsLoop L → L.Advances ∧ L.Ends) ∧
    (∀ c s levels e, DeeperAgree (Behind · s.rest) c (deeperAt levels) e →
      (kindOf s.rest = .mark .openBrace → block levels c s = e.block c s) →
        statement (levels + 1) c s = anyStatement e c s) ∧
    (∀ c s levels st, Agree (Behind · s.rest) c (statement levels) st →
      block (levels + 1) c s = braced st c s) ∧
    (∀ c s m n, 2 * (s.rest.length + 1) < m → 2 * (s.rest.length + 1) < n →
      statement m c s = statement n c s ∧ block m c s = block n c s ∧
        caseBody m c s = caseBody n c s) ∧
    (∀ rule, SkipRule rule → ∀ ts, StepsOn rule ts ∧ rule ts ≤ ts.length) ∧
    (∀ cap m n ts, ts.length < m → ts.length < n → afterName? cap m ts = afterName? cap n ts) := by
  refine ⟨fun L hL => ⟨hL.advances, hL.advances.ends⟩, fun c s levels e h hblock => ?_,
    fun c s levels st h => ?_, fun c s m n hm hn => ?_,
    fun rule hrule ts => ⟨stepsOn_of_skipRule hrule ts, skipRule_le hrule ts⟩,
    fun cap m n ts hm hn => afterName_eq hm hn⟩
  · rw [statement]
    exact anyStatement_congr (fun _ => deeperKeeps levels) h hblock
  · rw [block]
    exact braced_congr (fun _ => (deeperKeeps levels).statement) h
  · have hagree := levels_agree (min m n) m n (Nat.min_le_left m n) (Nat.min_le_right m n) c s
    exact ⟨hagree.1 (by omega), hagree.2.1 (by omega), hagree.2.2 (by omega)⟩

end JavaTree.Parser
