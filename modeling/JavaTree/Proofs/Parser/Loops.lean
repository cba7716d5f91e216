import JavaTree.Proofs.Parser.Progress

/-!
Reading comes to an end, whatever the tokens, the limits and the budget are.

The readers that go on as long as they find something are bounded by a number of steps, and the
readers for statements by a number of levels. Neither bound does any work: a `Loop` calls itself only
at places behind the one where it stands, and a statement asks for the statements inside it only
behind its own first token. Without the bounds, each of them would have one meaning by recursion on
the tokens that are left, and that is what it has with them.

    a loop            goes on behind
    of statements     a statement, or what is left of a faulty one
    of cases          labels, or what is left of faulty ones
    of members        a member, or what is left of a faulty one
    of constants      a comma
    of types          a type, or what is left of a faulty one
-/

namespace JavaTree.Parser

variable {α β : Type} {c : Settings} {s : State}

/-! ### Readers that agree from a place on -/

/-- Two readers do the same at all places with a property. -/
def Agree (P : List Token → Prop) (c : Settings) (p q : Parser α) : Prop :=
  ∀ s, P s.rest → p c s = q c s

/-- A property that is not lost on the way forward. -/
def Lasting (P : List Token → Prop) : Prop := ∀ ⦃ts us⦄, P ts → us <:+ ts → P us

theorem lasting_behind (ts : List Token) : Lasting (Behind · ts) := fun _ _ h h' => h.of_suffix h'

theorem lasting_suffix (ts : List Token) : Lasting (· <:+ ts) := fun _ _ h h' => h'.trans h

theorem bind_congr_run {p : Parser α} {f g : α → Parser β}
    (h : ∀ a s', p c s = .ok a s' → f a c s' = g a c s') : (p >>= f) c s = (p >>= g) c s := by
  rw [bind_run, bind_run]
  cases hrun : p c s with
  | ok a s' => exact h a s' hrun
  | error d s' => rfl

section Agree

variable {P : List Token → Prop}

theorem agree_refl (p : Parser α) : Agree P c p p := fun _ _ => rfl

theorem agree_bind (hP : Lasting P) {p q : Parser α} {f g : α → Parser β} (hp : Forward c p)
    (hpq : Agree P c p q) (hf : ∀ a, Agree P c (f a) (g a)) : Agree P c (p >>= f) (q >>= g) := by
  intro s hs
  rw [bind_run, bind_run, ← hpq s hs]
  cases hrun : p c s with
  | ok a s' => exact hf a s' (hP hs (hp.suffix hrun))
  | error d s' => rfl

/-- Two readers that start with the same reader. -/
theorem agree_then (hP : Lasting P) {p : Parser α} {f g : α → Parser β} (hp : Forward c p)
    (hf : ∀ a, Agree P c (f a) (g a)) : Agree P c (p >>= f) (p >>= g) :=
  agree_bind hP hp (agree_refl p) hf

/-- Two readers that end with the same steps. -/
theorem agree_left {p q : Parser α} (h : Agree P c p q) (f : α → Parser β) :
    Agree P c (p >>= f) (q >>= f) := by
  intro s hs
  rw [bind_run, bind_run, h s hs]

theorem agree_ite {b : Prop} [Decidable b] {p q p' q' : Parser α} (hp : Agree P c p p')
    (hq : Agree P c q q') : Agree P c (if b then p else q) (if b then p' else q') := by
  split
  · exact hp
  · exact hq

theorem agree_map {f : α → β} {p q : Parser α} (h : Agree P c p q) :
    Agree P c (f <$> p) (f <$> q) := by
  intro s hs
  rw [map_run, map_run, h s hs]

theorem agree_recover {p q resume : Parser α} (h : Agree P c p q) :
    Agree P c (recover p resume) (recover q resume) := by
  intro s hs
  rw [recover_run, recover_run, h s hs]

end Agree

/-- What follows the first token of a statement may differ only behind it. -/
theorem skip_congr {k k' : Unit → Parser α} (hs : s.rest ≠ [])
    (h : Agree (Behind · s.rest) c (k ()) (k' ())) : (skip 1 >>= k) c s = (skip 1 >>= k') c s :=
  h (s.skip 1) (behind_drop hs Nat.one_pos)

/-- What follows a reader that moves may differ only behind it. -/
theorem moved_congr {p : Parser α} {f g : α → Parser β} (hp : Moves s (p c s))
    (h : ∀ a, Agree (Behind · s.rest) c (f a) (g a)) : (p >>= f) c s = (p >>= g) c s :=
  bind_congr_run fun a s' hrun => h a s' (hp a s' hrun)

/-- What follows an accepted token may differ only behind it. -/
theorem accept_congr {k : Kind} {f g : Bool → Parser α} (hk : k ≠ .endOfInput)
    (htrue : Agree (Behind · s.rest) c (f true) (g true)) (hfalse : f false c s = g false c s) :
    (accept k >>= f) c s = (accept k >>= g) c s := by
  refine bind_congr_run fun found s' hrun => ?_
  cases found with
  | true => exact htrue s' (behind_of_accept hrun hk)
  | false =>
    rw [accept_run] at hrun
    split at hrun <;> cases hrun
    exact hfalse

/-! ### Loops -/

/-- A reader that goes on for a number of steps, and what it does in one of them. An index is carried
from step to step. -/
structure Loop (ι α : Type) where
  run : Nat → ι → Parser α
  body : (ι → Parser α) → ι → Parser α
  run_succ : ∀ n i, run (n + 1) i = body (run n) i

namespace Loop

variable {ι : Type}

/-- A step of the loop at a place goes on only at places behind it. -/
def Advances (L : Loop ι α) : Prop :=
  ∀ c s (p q : ι → Parser α), (∀ i, Agree (Behind · s.rest) c (p i) (q i)) →
    ∀ i, L.body p i c s = L.body q i c s

/-- The loop has exactly one meaning without a bound on its steps, and does what that says as soon as
there are more steps than tokens. -/
def Ends (L : Loop ι α) : Prop :=
  ∃ go : ι → Parser α, (∀ go', (∀ i, go' i = L.body go' i) ↔ go' = go) ∧
    ∀ n i c s, s.rest.length < n → L.run n i c s = go i c s

variable {L : Loop ι α}

theorem Advances.run_eq (h : L.Advances) {m n : Nat} (hm : s.rest.length < m)
    (hn : s.rest.length < n) (i : ι) : L.run m i c s = L.run n i c s := by
  induction m generalizing n i s with
  | zero => omega
  | succ m ih =>
    obtain ⟨n, rfl⟩ : ∃ n', n = n' + 1 := ⟨n - 1, by omega⟩
    rw [L.run_succ, L.run_succ]
    refine h c s _ _ (fun j s' hs' => ?_) i
    have hlt : s'.rest.length < s.rest.length := hs'.2
    exact ih (by omega) (by omega) j

/-- Two meanings of a loop agree at a place because they agree behind it. -/
theorem Advances.unique (h : L.Advances) {go go' : ι → Parser α}
    (hgo : ∀ i, go i = L.body go i) (hgo' : ∀ i, go' i = L.body go' i) : go' = go := by
  have hall (k : Nat) : ∀ i c s, s.rest.length < k → go' i c s = go i c s := by
    induction k with
    | zero => exact fun _ _ _ hs => absurd hs (Nat.not_lt_zero _)
    | succ k ih =>
      intro i c s hs
      rw [hgo, hgo']
      refine h c s _ _ (fun j s' hs' => ih j c s' ?_) i
      exact Nat.lt_of_lt_of_le hs'.2 (Nat.le_of_lt_succ hs)
  funext i c s
  exact hall _ i c s (Nat.lt_succ_self _)

theorem Advances.ends (h : L.Advances) : L.Ends := by
  have hfix : ∀ i, (fun c s => L.run (s.rest.length + 1) i c s : Parser α) =
      L.body (fun i c s => L.run (s.rest.length + 1) i c s) i := by
    intro i
    funext c s
    rw [L.run_succ]
    exact h c s _ _ (fun j s' hs' => h.run_eq hs'.2 (Nat.lt_succ_self _) j) i
  refine ⟨fun i c s => L.run (s.rest.length + 1) i c s, fun go' => ⟨fun hgo' => h.unique hfix hgo', ?_⟩,
    fun n i c s hn => h.run_eq hn (Nat.lt_succ_self _) i⟩
  rintro rfl
  exact hfix

end Loop

/-- The rest of a name of a type. -/
def typeNameLoop : Loop String String where
  run n known := typeName known n
  body next known := do
    let named ← if ← check Mark.less then pure (known ++ (← angleText)) else pure known
    if startsWith Mark.dot .identifier (← rest) then
      skip 1
      next (named ++ "." ++ (← identifier))
    else
      return named
  run_succ _ _ := rfl

/-- Types behind commas. -/
def typeListLoop : Loop Unit (List TypeUse) where
  run n _ := moreTypes n
  body next _ := do
    if ← accept Mark.comma then
      let t ← typeUse
      return t :: (← next ())
    else
      return []
  run_succ _ _ := rfl

/-- Annotations in a row. -/
def annotationLoop : Loop Unit (List AnnotationUse) where
  run n _ := annotations n
  body next _ := do
    if looksAnnotated (← rest) then
      let a ← annotationUse
      return a :: (← next ())
    else
      return []
  run_succ _ _ := rfl

/-- Annotations and modifiers. -/
def qualifierLoop : Loop Qualifiers Qualifiers where
  run n found := qualifiers found n
  body next found := do
    if looksAnnotated (← rest) then
      let a ← annotationUse
      next { found with annotations := found.annotations ++ [a] }
    else
      match (← kind).modifier? with
      | none => return found
      | some m =>
        if m = .synchronized_ && (← secondKind) = Mark.openParen then
          return found
        else
          skip 1
          let modifiers := if m ∈ found.modifiers then found.modifiers else found.modifiers ++ [m]
          next { found with modifiers }
  run_succ _ _ := rfl

/-- Variables with commas between them. -/
def declaratorLoop : Loop Unit (List Declarator) where
  run n _ := declaratorList n
  body next _ := do
    let d ← declarator
    if ← accept Mark.comma then
      return d :: (← next ())
    else
      return [d]
  run_succ _ _ := rfl

/-- Parameters with commas between them. -/
def parameterLoop : Loop Unit (List Parameter) where
  run n _ := parameterList n
  body next _ := do
    let p ← parameter
    if ← accept Mark.comma then
      return p :: (← next ())
    else
      return [p]
  run_succ _ _ := rfl

/-- Clauses of a `try` that is left out. -/
def skippedCatchLoop : Loop Unit Unit where
  run n _ := skipCatches n
  body next _ := do
    if ← accept Keyword.catch_ then
      skipGroup .openParen
      skipGroup .openBrace
      next ()
  run_succ _ _ := rfl

/-- Statements in a row. The number of steps is the cap. -/
def statementLoop (levels : Nat) (inSwitch : Bool) : Loop Unit (List Statement) where
  run n _ := statements (statement levels) inSwitch n
  body next _ := do
    if endsStatements inSwitch (← kind) then
      return []
    else if ← accept Mark.semicolon then
      next ()
    else
      let found ← recover (blockStatement (statement levels)) do
        skipBy (statementRest 0)
        return []
      return found ++ (← next ())
  run_succ _ _ := rfl

/-- Clauses of a `try`. -/
def catchLoop (levels : Nat) : Loop Unit (List CatchClause) where
  run n _ := catchClauses (deeperAt levels) n
  body next _ := do
    let start ← here
    if ← accept Keyword.catch_ then
      let parameter ← parenthesized "catch parameter"
      let body ← (deeperAt levels).block
      let clause := ⟨parameter, body, ← spanFrom start⟩
      return clause :: (← next ())
    else
      return []
  run_succ n _ := by rw [catchClauses]

/-- Labels of a case. -/
def labelLoop : Loop Unit (List CaseLabel) where
  run n _ := caseLabels n
  body next _ := do
    if (← check Keyword.case_) || (← check (Keyword.modifier .default_)) then
      let label ← if ← accept (Keyword.modifier .default_) then pure .default
        else do
          skip 1
          pure (.value (← excerpt ⟨[Mark.colon, Mark.arrow], false⟩ "case label"))
      if ← check Mark.arrow then
        return [label]
      else
        require Mark.colon "':' after case label"
        return label :: (← next ())
    else
      return []
  run_succ n _ := by rw [caseLabels]

/-- The cases of a `switch`. -/
def caseLoop (levels : Nat) : Loop Unit (List SwitchCase) where
  run n _ := switchCases (deeperAt levels) n
  body next _ := do
    if endsStatements false (← kind) then
      return []
    else
      let start ← here
      let labels ← recover (some <$> someCaseLabels) do
        skipBy (caseRest 0)
        return none
      match labels with
      | none => next ()
      | some labels =>
        if ← check Mark.arrow then
          report (.unsupported "switch rule ('->')" (← here))
          skipBy (blockRest 0)
          return []
        else
          let inner ← recover (some <$> (deeperAt levels).caseBody) do
            skipBy (blockRest 0)
            return none
          match inner with
          | none => return []
          | some inner =>
            let case := ⟨labels, inner, ← spanFrom start⟩
            return case :: (← next ())
  run_succ _ _ := rfl

/-- Members of a type. The number of steps is the cap. -/
def memberLoop (typeName : String) : Loop Unit (List Member) where
  run n _ := members typeName n
  body next _ := do
    if endsStatements false (← kind) then
      return []
    else if ← accept Mark.semicolon then
      next ()
    else
      let before ← steps
      let found ← recover (member typeName) do
        let atStart := (← steps) = before
        skipBy (memberRest (← read).limits.excerptTokens atStart 0)
        return []
      return found ++ (← next ())
  run_succ _ _ := rfl

/-- Constants of an enum. -/
def constantLoop : Loop Unit (List EnumConstant) where
  run n _ := enumConstants n
  body next _ := do
    if endsStatements false (← kind) || (← check Mark.semicolon) then
      return []
    else
      let before ← steps
      let found ← recover (some <$> enumConstant) do
        let atStart := (← steps) = before
        skipBy (constantRest atStart 0)
        return none
      if ← accept Mark.comma then
        return found.toList ++ (← next ())
      else
        return found.toList
  run_succ _ _ := rfl

/-- Imports of a text. -/
def importLoop : Loop Unit (Outcome (List Import)) where
  run n _ := imports n
  body next _ := do
    if ← check Keyword.import_ then
      match ← attempt (recover (some <$> importClause) skipClause) with
      | .error d => return ⟨[], some d⟩
      | .ok found =>
        let more ← next ()
        return { more with found := found.toList ++ more.found }
    else
      return ⟨[], none⟩
  run_succ _ _ := rfl

/-- Types of a text. -/
def typeLoop (start : Location) : Loop Span (Outcome (List TypeDeclaration × Span)) where
  run n span := types start span n
  body next span := do
    if ← atEnd then
      return ⟨([], span), none⟩
    else if ← accept Mark.semicolon then
      next span
    else
      match ← attempt topLevelType with
      | .error d => return ⟨([], span), some d⟩
      | .ok found =>
        let more ← next (← spanFrom start)
        return { more with found := (found.toList ++ more.found.1, more.found.2) }
  run_succ _ _ := rfl

/-- The loops of the parser. -/
inductive IsLoop : {ι α : Type} → Loop ι α → Prop
  | typeName : IsLoop typeNameLoop
  | typeList : IsLoop typeListLoop
  | annotation : IsLoop annotationLoop
  | qualifier : IsLoop qualifierLoop
  | declarator : IsLoop declaratorLoop
  | parameter : IsLoop parameterLoop
  | skippedCatch : IsLoop skippedCatchLoop
  | statement (levels : Nat) (inSwitch : Bool) : IsLoop (statementLoop levels inSwitch)
  | catch_ (levels : Nat) : IsLoop (catchLoop levels)
  | label : IsLoop labelLoop
  | case_ (levels : Nat) : IsLoop (caseLoop levels)
  | member (typeName : String) : IsLoop (memberLoop typeName)
  | constant : IsLoop constantLoop
  | import_ : IsLoop importLoop
  | type (start : Location) : IsLoop (typeLoop start)

/-! ### Each loop advances -/

theorem advances_typeName : typeNameLoop.Advances := by
  intro c s p q h known
  have hnext (named : String) : Agree (· <:+ s.rest) c
      (do if startsWith Mark.dot .identifier (← rest) then
            skip 1
            p (named ++ "." ++ (← identifier))
          else
            return named)
      (do if startsWith Mark.dot .identifier (← rest) then
            skip 1
            q (named ++ "." ++ (← identifier))
          else
            return named) := by
    intro s' hs'
    rw [bind_run_ok rest_run, bind_run_ok rest_run, ite_run, ite_run]
    split
    · next hdot =>
      refine skip_congr (rest_ne_nil (kindOf_of_startsWith hdot) nofun) ?_
      refine agree_then (lasting_behind _) (forward_of_skirts fun _ => skirts_identifier) fun _ => ?_
      exact fun s'' hs'' => h _ s'' (hs''.from_suffix hs')
    · rfl
  simp only [typeNameLoop]
  rw [bind_run_ok (check_run _), bind_run_ok (check_run _)]
  refine agree_ite (P := (· <:+ s.rest)) ?_ ?_ s (List.suffix_refl _)
  · exact agree_then (lasting_suffix _) (forward_of_skirts fun _ => skirts_angleText) fun _ =>
      agree_then (lasting_suffix _) (forward_pure _) hnext
  · exact agree_then (lasting_suffix _) (forward_pure _) hnext

theorem advances_typeList : typeListLoop.Advances := by
  intro c s p q h _
  refine accept_congr nofun ?_ rfl
  exact agree_then (lasting_behind _) (forward_of_skirts fun _ => skirts_typeUse) fun _ =>
    agree_left (h ()) _

theorem advances_annotation : annotationLoop.Advances := by
  intro c s p q h _
  simp only [annotationLoop]
  rw [bind_run_ok rest_run, bind_run_ok rest_run, ite_run, ite_run]
  split
  · exact moved_congr moves_annotationUse fun _ => agree_left (h ()) _
  · rfl

theorem advances_qualifier : qualifierLoop.Advances := by
  intro c s p q h found
  simp only [qualifierLoop]
  rw [bind_run_ok rest_run, bind_run_ok rest_run, ite_run, ite_run]
  split
  · exact moved_congr moves_annotationUse fun _ => h _
  rw [bind_run_ok kind_run, bind_run_ok kind_run]
  cases hm : (kindOf s.rest).modifier? with
  | none => rfl
  | some m =>
    simp only [bind_run_ok secondKind_run, ite_run]
    split
    · rfl
    · refine skip_congr (rest_ne_nil_of_kindOf fun hend => ?_) (h _)
      rw [hend] at hm
      cases hm

theorem advances_declarator : declaratorLoop.Advances := by
  intro c s p q h _
  refine moved_congr moves_declarator fun d => ?_
  refine agree_then (lasting_behind _) (Keeps.forward fun _ => keeps_accept _) fun _ => ?_
  exact agree_ite (agree_left (h ()) _) (agree_refl _)

theorem advances_parameter : parameterLoop.Advances := by
  intro c s p q h _
  refine moved_congr moves_parameter fun d => ?_
  refine agree_then (lasting_behind _) (Keeps.forward fun _ => keeps_accept _) fun _ => ?_
  exact agree_ite (agree_left (h ()) _) (agree_refl _)

theorem advances_skippedCatch : skippedCatchLoop.Advances := by
  intro c s p q h _
  refine accept_congr nofun ?_ rfl
  refine agree_then (lasting_behind _) (Keeps.forward fun _ => keeps_skipGroup _) fun _ => ?_
  exact agree_then (lasting_behind _) (Keeps.forward fun _ => keeps_skipGroup _) fun _ => h ()

/-- A token that does not end a row is there. -/
theorem eq_cons_of_not_ends {inSwitch : Bool} {ts : List Token}
    (h : ¬ endsStatements inSwitch (kindOf ts) = true) :
    ∃ t us, ts = t :: us ∧ t.kind ≠ .mark .closeBrace := by
  rcases ts with _ | ⟨t, us⟩
  · exact absurd rfl h
  · exact ⟨t, us, rfl, fun hk => h (by rw [kindOf, hk]; rfl)⟩

/-- A statement is read, or what is left of it is passed over. -/
theorem moves_recoveredStatement {levels : Nat} {inSwitch : Bool}
    (hs : ¬ endsStatements inSwitch (kindOf s.rest) = true) :
    Moves s (recover (blockStatement (statement levels)) (do
      skipBy (statementRest 0)
      return []) c s) := by
  obtain ⟨t, us, hrest, ht⟩ := eq_cons_of_not_ends hs
  have hne : s.rest ≠ [] := by simp [hrest]
  refine moves_recover (moves_blockStatement levels hne) ?_ fun s' s'' hs' hskip => ?_
  · exact Keeps.forward fun _ => keeps_blockStatement (deeperKeeps levels).statement
  · cases hskip
    refine behind_of_rule hs' hne fun heq => ?_
    rw [heq, hrest]
    exact statementRest_pos ht

theorem advances_statement (levels : Nat) (inSwitch : Bool) :
    (statementLoop levels inSwitch).Advances := by
  intro c s p q h _
  simp only [statementLoop]
  rw [bind_run_ok kind_run, bind_run_ok kind_run, ite_run, ite_run]
  split
  · rfl
  · next hends =>
    refine accept_congr nofun (h ()) ?_
    exact moved_congr (moves_recoveredStatement hends) fun _ => agree_left (h ()) _

theorem advances_catch (levels : Nat) : (catchLoop levels).Advances := by
  intro c s p q h _
  simp only [catchLoop]
  rw [bind_run_ok here_run, bind_run_ok here_run]
  refine accept_congr nofun ?_ rfl
  refine agree_then (lasting_behind _) (Keeps.forward fun _ => keeps_parenthesized _) fun _ => ?_
  refine agree_then (lasting_behind _) (Keeps.forward fun _ => (deeperKeeps levels).block) fun _ => ?_
  exact agree_then (lasting_behind _) (Keeps.forward fun _ => keeps_spanFrom _) fun _ =>
    agree_left (h ()) _

theorem advances_label : labelLoop.Advances := by
  intro c s p q h _
  have hafter (label : CaseLabel) : Agree (Behind · s.rest) c
      (do if ← check Mark.arrow then
            return [label]
          else
            require Mark.colon "':' after case label"
            return label :: (← p ()))
      (do if ← check Mark.arrow then
            return [label]
          else
            require Mark.colon "':' after case label"
            return label :: (← q ())) := by
    refine agree_then (lasting_behind _) (Keeps.forward fun _ => keeps_check _) fun _ => ?_
    refine agree_ite (agree_refl _) ?_
    exact agree_then (lasting_behind _) (Keeps.forward fun _ => keeps_require _ _) fun _ =>
      agree_left (h ()) _
  simp only [labelLoop]
  rw [bind_run_ok (check_run _), bind_run_ok (check_run _), bind_run_ok (check_run _),
    bind_run_ok (check_run _), ite_run, ite_run]
  split
  · next hlabel =>
    have hne : s.rest ≠ [] := rest_ne_nil_of_kindOf fun hend => by simp [hend] at hlabel
    refine accept_congr nofun ?_ ?_
    · exact agree_then (lasting_behind _) (forward_pure _) hafter
    · simp only [Bool.false_eq_true, if_false]
      refine skip_congr hne ?_
      refine agree_then (lasting_behind _) (Keeps.forward fun _ => keeps_excerpt _ _) fun _ => ?_
      exact agree_then (lasting_behind _) (forward_pure _) hafter
  · rfl

theorem advances_case (levels : Nat) : (caseLoop levels).Advances := by
  intro c s p q h _
  simp only [caseLoop]
  rw [bind_run_ok kind_run, bind_run_ok kind_run, ite_run, ite_run]
  split
  · rfl
  next hends =>
  rw [bind_run_ok here_run, bind_run_ok here_run]
  have hlabels : Moves s (recover (some <$> someCaseLabels) (do
      skipBy (caseRest 0)
      return none) c s) := by
    intro labels s' hrun
    refine ⟨?_, labels_moves (Bool.eq_false_iff.mpr hends) hrun⟩
    have hforward : Forward c (recover (some <$> someCaseLabels) (do
        skipBy (caseRest 0)
        return none)) := Keeps.forward (Q := fun _ _ => True) fun _ =>
      keeps_recover (keeps_map keeps_someCaseLabels fun _ _ => trivial)
        (keeps_bind (keeps_skipBy _) fun _ _ => keeps_pure trivial)
    exact hforward.suffix hrun
  refine moved_congr hlabels fun labels => ?_
  rcases labels with _ | labels
  · exact h ()
  refine agree_then (lasting_behind _) (Keeps.forward fun _ => keeps_check _) fun _ => ?_
  refine agree_ite (agree_refl _) ?_
  refine agree_then (lasting_behind _) (Keeps.forward (Q := fun _ _ => True) fun _ =>
    keeps_recover (keeps_map (deeperKeeps levels).caseBody fun _ _ => trivial)
      (keeps_bind (keeps_skipBy _) fun _ _ => keeps_pure trivial)) fun inner => ?_
  rcases inner with _ | inner
  · exact agree_refl _
  · exact agree_then (lasting_behind _) (Keeps.forward fun _ => keeps_spanFrom _) fun _ =>
      agree_left (h ()) _

/-- A member is read, or what is left of it is passed over. -/
theorem moves_recoveredMember {typeName : String}
    (hs : ¬ endsStatements false (kindOf s.rest) = true) :
    Moves s (recover (member typeName) (do
      let atStart := (← steps) = s.rest.length + 1
      skipBy (memberRest (← read).limits.excerptTokens atStart 0)
      return []) c s) := by
  obtain ⟨t, us, hrest, ht⟩ := eq_cons_of_not_ends hs
  have hne : s.rest ≠ [] := by simp [hrest]
  have hrun := @moves_recover _ c s (member typeName) [] (do
      let atStart := (← steps) = s.rest.length + 1
      skipBy (memberRest (← read).limits.excerptTokens atStart 0)) (moves_member typeName)
    (Keeps.forward fun _ => keeps_member typeName) fun s' s'' hs' hskip => ?_
  · simpa only [bind_assoc] using hrun
  · cases hskip
    refine behind_of_rule hs' hne fun heq => ?_
    rw [heq, hrest]
    simpa using memberRest_pos _ ht

theorem advances_member (typeName : String) : (memberLoop typeName).Advances := by
  intro c s p q h _
  simp only [memberLoop]
  rw [bind_run_ok kind_run, bind_run_ok kind_run, ite_run, ite_run]
  split
  · rfl
  · next hends =>
    refine accept_congr nofun (h ()) ?_
    simp only [Bool.false_eq_true, if_false]
    rw [bind_run_ok steps_run, bind_run_ok steps_run]
    exact moved_congr (moves_recoveredMember hends) fun _ => agree_left (h ()) _

theorem advances_constant : constantLoop.Advances := by
  intro c s p q h _
  simp only [constantLoop]
  rw [bind_run_ok kind_run, bind_run_ok kind_run, bind_run_ok (check_run _),
    bind_run_ok (check_run _), ite_run, ite_run]
  split
  · rfl
  rw [bind_run_ok steps_run, bind_run_ok steps_run]
  refine bind_congr_run fun found s' hrun => ?_
  have hforward : Forward c (recover (some <$> enumConstant) (do
      let atStart := (← steps) = s.rest.length + 1
      skipBy (constantRest atStart 0)
      return none)) := Keeps.forward (Q := fun _ _ => True) fun _ =>
    keeps_recover (keeps_map keeps_enumConstant fun _ _ => trivial)
      (keeps_bind keeps_steps fun _ _ => keeps_bind (keeps_skipBy _) fun _ _ => keeps_pure trivial)
  refine accept_congr nofun ?_ rfl
  exact agree_left (fun s'' hs'' => h () s'' (hs''.from_suffix (hforward.suffix hrun))) _

theorem moves_importClause (hs : s.rest ≠ []) : Moves s (importClause c s) := by
  have hp : Forward c importClause := Keeps.forward fun _ => keeps_importClause
  obtain ⟨t, us, hrest⟩ := List.exists_cons_of_ne_nil hs
  refine moves_of_behind (behind_of_blind hp hrest fun text => ?_)
  rcases s with ⟨_, l, ds, es⟩
  cases hrest
  rfl

/-- An import is read, or what is left of it is passed over. -/
theorem moves_recoveredImport (hs : kindOf s.rest = .keyword .import_) :
    Moves s (recover (some <$> importClause) skipClause c s) := by
  have hne : s.rest ≠ [] := rest_ne_nil hs nofun
  obtain ⟨t, us, hrest⟩ := List.exists_cons_of_ne_nil hne
  have hmoves : Moves s ((some <$> importClause) c s) := by
    rw [← bind_pure_comp]
    exact moves_bind (moves_importClause hne) fun _ => forward_pure _
  refine moves_recover hmoves ?_ fun s' s'' hs' hskip => ?_
  · exact Keeps.forward (Q := fun _ _ => True) fun _ => keeps_map keeps_importClause fun _ _ => trivial
  · cases hskip
    refine behind_of_rule hs' hne fun heq => ?_
    rw [heq, hrest]
    refine statementRest_pos fun hclose => ?_
    rw [hrest, kindOf, hclose] at hs
    cases hs

theorem advances_import : importLoop.Advances := by
  intro c s p q h _
  simp only [importLoop]
  rw [bind_run_ok (check_run _), bind_run_ok (check_run _), ite_run, ite_run]
  split
  · next himport =>
    refine bind_congr_run fun r s' hrun => ?_
    rcases r with d | found
    · rfl
    · exact agree_left (h ()) _ s' (moves_recoveredImport (of_decide_eq_true himport) found s'
        (eq_ok_of_attempt hrun))
  · rfl

/-- A type is read, or what is left of it is passed over. -/
theorem moves_topLevelType (hs : s.rest ≠ []) : Moves s (topLevelType c s) := by
  obtain ⟨t, us, hrest⟩ := List.exists_cons_of_ne_nil hs
  rw [topLevelType, bind_run_ok steps_run]
  have hrun := @moves_recover _ c s typeDeclaration none (do
      let atStart := (← steps) = s.rest.length + 1
      skipBy (typeRest atStart 0)) moves_typeDeclaration
    (Keeps.forward fun _ => keeps_typeDeclaration) fun s' s'' hs' hskip => ?_
  · simpa only [bind_assoc] using hrun
  · cases hskip
    refine behind_of_rule hs' hs fun heq => ?_
    rw [heq, hrest]
    simpa using typeRest_pos t us

theorem advances_type (start : Location) : (typeLoop start).Advances := by
  intro c s p q h span
  simp only [typeLoop]
  rw [bind_run_ok atEnd_run, bind_run_ok atEnd_run, ite_run, ite_run]
  split
  · rfl
  · next hend =>
    refine accept_congr nofun (h _) ?_
    simp only [Bool.false_eq_true, if_false]
    refine bind_congr_run fun r s' hrun => ?_
    rcases r with d | found
    · rfl
    · have hne : s.rest ≠ [] := by
        rintro hnil
        exact hend (by simp [hnil, kindOf])
      refine agree_then (lasting_behind _) (Keeps.forward fun _ => keeps_spanFrom _)
        (fun _ => agree_left (h _) _) s' ?_
      exact moves_topLevelType hne found s' (eq_ok_of_attempt hrun)

theorem IsLoop.advances {ι : Type} {L : Loop ι α} (h : IsLoop L) : L.Advances := by
  cases h with
  | typeName => exact advances_typeName
  | typeList => exact advances_typeList
  | annotation => exact advances_annotation
  | qualifier => exact advances_qualifier
  | declarator => exact advances_declarator
  | parameter => exact advances_parameter
  | skippedCatch => exact advances_skippedCatch
  | statement levels inSwitch => exact advances_statement levels inSwitch
  | catch_ levels => exact advances_catch levels
  | label => exact advances_label
  | case_ levels => exact advances_case levels
  | member typeName => exact advances_member typeName
  | constant => exact advances_constant
  | import_ => exact advances_import
  | type start => exact advances_type start

end JavaTree.Parser
