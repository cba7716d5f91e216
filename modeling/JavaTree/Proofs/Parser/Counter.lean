import JavaTree.Proofs.Parser.Capped

/-!
A counter for the levels.

The readers for statements, blocks and cases are given the number of levels that are left. The same
can be had with a counter in the state: it is raised for a reader further in and lowered behind it,
whether this reader has a result or not, and at the cap no reader further in is run at all. A `Script`
is a reader with its calls of the readers further in marked, so that there is nothing to be written
twice: read with levels it is the reader, and read with a counter it is the reader that counts.

    counter    0     1     2     1     2     1     0
               {     if    x;          y;          }
    left       3     2     1     2     1     2     3          with a cap of 3
-/

namespace JavaTree.Parser

variable {α β : Type} {c : Settings}

/-! ### Readers that count -/

/-- A state with the counter, and with the highest value that the counter has had. -/
structure CountedState where
  state : State
  depth : Nat
  peak : Nat

/-- A reader with a counter in its state. -/
abbrev Counted := ReaderT Settings (EStateM Diagnostic CountedState)

/-- The end of a run, with the counter beside it. -/
def withCounter (depth peak : Nat) :
    EStateM.Result Diagnostic State α → EStateM.Result Diagnostic CountedState α
  | .ok a s => .ok a ⟨s, depth, peak⟩
  | .error d s => .error d ⟨s, depth, peak⟩

namespace Counted

/-- A reader that does not count. -/
def lift (p : Parser α) : Counted α := fun c s => withCounter s.depth s.peak (p c s.state)

/-- A reader one level further in: refused at the cap, and else run with the counter raised. -/
def nested (p : Counted α) : Counted α := fun c s =>
  if c.limits.nesting ≤ s.depth then lift tooDeep c s
  else match p c ⟨s.state, s.depth + 1, max s.peak (s.depth + 1)⟩ with
    | .ok a t => .ok a { t with depth := t.depth - 1 }
    | .error d t => .error d { t with depth := t.depth - 1 }

/-- Recovery with a reader that does not count. -/
def recover (p : Counted α) (resume : Parser α) : Counted α :=
  tryCatch p fun d => lift (report d >>= fun _ => resume)

/-- An attempt of a reader that counts. -/
def attempt (p : Counted α) : Counted (Except Diagnostic α) :=
  tryCatch (do return .ok (← p)) fun d => return .error d

end Counted

/-- The readers for one level further in, with a counter. -/
@[ext]
structure CountedDeeper where
  statement : Counted Statement
  block : Counted Block
  caseBody : Counted (List Statement)

/-- A reader with its calls of the readers further in marked. It may read the bodies of members only at
the first level, for these have all levels left. -/
inductive Script (first : Prop) : {α : Type} → (Deeper → Parser α) → Type 1
  | read {α : Type} (p : Parser α) : Script first fun _ => p
  | statement : Script first fun deeper => deeper.statement
  | block : Script first fun deeper => deeper.block
  | caseBody : Script first fun deeper => deeper.caseBody
  | body (h : first) : Script first fun _ => body
  | bind {α β : Type} {p : Deeper → Parser α} {f : α → Deeper → Parser β} (hp : Script first p)
      (hf : ∀ a, Script first (f a)) : Script first fun deeper => p deeper >>= fun a => f a deeper
  | ite {α : Type} (b : Prop) [Decidable b] {p q : Deeper → Parser α} (hp : Script first p)
      (hq : Script first q) : Script first fun deeper => if b then p deeper else q deeper
  | recover {α : Type} {p : Deeper → Parser α} (hp : Script first p) (resume : Parser α) :
      Script first fun deeper => recover (p deeper) resume
  | attempt {α : Type} {p : Deeper → Parser α} (hp : Script first p) :
      Script first fun deeper => attempt (p deeper)

namespace Script

variable {first : Prop}

/-- A script as a reader that counts. -/
def counted (deeper : CountedDeeper) {α : Type} {p : Deeper → Parser α} : Script first p → Counted α
  | .read p => .lift p
  | .statement => deeper.statement
  | .block => deeper.block
  | .caseBody => deeper.caseBody
  | .body _ => deeper.block
  | .bind hp hf => hp.counted deeper >>= fun a => (hf a).counted deeper
  | @ite _ _ b _ _ _ hp hq => if b then hp.counted deeper else hq.counted deeper
  | .recover hp resume => .recover (hp.counted deeper) resume
  | .attempt hp => .attempt (hp.counted deeper)

/-- What calls no reader further in may come first. -/
def after {p : Parser α} {f : α → Deeper → Parser β} (hf : ∀ a, Script first (f a)) :
    Script first fun deeper => p >>= fun a => f a deeper :=
  .bind (.read p) hf

/-! ### Statements

A script takes the same steps as its reader. -/

def blockStatement : Script False fun deeper => Parser.blockStatement deeper.statement :=
  .after fun _ => .ite _ (.read _) <| .ite _ (.read _) <| .ite _ (.read _) <|
    .bind .statement fun _ => .read _

def statements (inSwitch : Bool) :
    (cap : Nat) → Script False fun deeper => Parser.statements deeper.statement inSwitch cap
  | 0 => .after fun _ => .ite _ (.read _) (.read _)
  | cap + 1 =>
    .after fun _ => .ite _ (.read _) <| .after fun _ =>
      .ite _ (statements inSwitch cap) <|
        .bind (.recover blockStatement _) fun _ => .bind (statements inSwitch cap) fun _ => .read _

def allStatements (inSwitch : Bool) :
    Script False fun deeper => Parser.allStatements deeper.statement inSwitch :=
  .after fun _ => statements inSwitch _

def braced : Script False fun deeper => Parser.braced deeper.statement :=
  .after fun _ => .after fun _ => .bind (allStatements false) fun _ => .read _

section Statements

variable (start : Location)

def ifStatement : Script False fun deeper => Parser.ifStatement deeper start :=
  .after fun _ => .after fun _ => .bind .statement fun _ => .after fun _ =>
    .ite _ (.bind .statement fun _ => .read _) (.read _)

def forStatement : Script False fun deeper => Parser.forStatement deeper start :=
  .after fun _ => .after fun _ => .bind .statement fun _ => .read _

def whileStatement : Script False fun deeper => Parser.whileStatement deeper start :=
  .after fun _ => .after fun _ => .bind .statement fun _ => .read _

def doStatement : Script False fun deeper => Parser.doStatement deeper start :=
  .after fun _ => .bind .statement fun _ => .read _

def catchClauses : (n : Nat) → Script False fun deeper => Parser.catchClauses deeper n
  | 0 => .read _
  | n + 1 =>
    .after fun _ => .after fun _ =>
      .ite _ (.after fun _ => .bind .block fun _ => .after fun _ =>
        .bind (catchClauses n) fun _ => .read _) (.read _)

def tryStatement : Script False fun deeper => Parser.tryStatement deeper start :=
  .after fun _ => .bind .block fun _ => .after fun _ =>
    .bind (catchClauses _) fun _ => .after fun _ =>
      .ite _ (.bind .block fun _ => .read _) (.read _)

def switchCases : (n : Nat) → Script False fun deeper => Parser.switchCases deeper n
  | 0 => .read _
  | n + 1 =>
    .after fun _ => .ite _ (.read _) <| .after fun _ => .after fun labels =>
      match labels with
      | none => switchCases n
      | some _ =>
        .after fun _ => .ite _ (.read _) <|
          .bind (.recover (.bind .caseBody fun _ => .read _) _) fun inner =>
            match inner with
            | none => .read _
            | some _ => .after fun _ => .bind (switchCases n) fun _ => .read _

def switchStatement : Script False fun deeper => Parser.switchStatement deeper start :=
  .after fun _ => .after fun _ => .after fun _ => .after fun _ =>
    .bind (switchCases _) fun _ => .read _

def synchronizedStatement : Script False fun deeper => Parser.synchronizedStatement deeper start :=
  .after fun _ => .after fun _ => .bind .block fun _ => .read _

def labeledStatement : Script False fun deeper => Parser.labeledStatement deeper start :=
  .after fun _ => .after fun _ => .bind .statement fun _ => .read _

end Statements

def anyStatement : Script False Parser.anyStatement :=
  .after fun start => .after fun k => .after fun k' => by
    split
    · exact .bind .block fun _ => .read _
    · exact .read _
    · exact .read _
    · exact ifStatement start
    · exact forStatement start
    · exact whileStatement start
    · exact doStatement start
    · exact .read _
    · exact tryStatement start
    · exact switchStatement start
    · exact .read _
    · exact .read _
    · exact .read _
    · exact synchronizedStatement start
    · exact .read _
    · exact labeledStatement start
    all_goals exact .read _

/-! ### Members and types -/

section Members

variable (start : Location) (q : Qualifiers) (typeName : String)

def method (params : Option String) : Script True fun _ => Parser.method start q params :=
  .after fun _ => .after fun _ => .after fun _ => .after fun _ =>
    .after fun _ => .ite _ (.bind (.body trivial) fun _ => .read _) (.read _)

def constructor (params : Option String) :
    Script True fun _ => Parser.constructor start typeName q params :=
  .after fun _ => .after fun _ =>
    .ite _
      (.after fun _ => .after fun _ => .after fun _ =>
        .bind (.body trivial) fun _ => .read _)
      (.after fun _ => .after fun _ => .bind (.body trivial) fun _ => .read _)

def plainMember : Script True fun _ => Parser.plainMember start typeName q :=
  .after fun params => .after fun _ =>
    .ite _ (.bind (constructor start q typeName params) fun _ => .read _) <|
      .after fun _ => .ite _ (.bind (method start q params) fun _ => .read _) (.read _)

def member : Script True fun _ => Parser.member typeName :=
  .after fun start => .after fun q => .after fun _ =>
    .ite _ (.read _) <| .ite _ (.read _) <|
      .ite _ (.bind (.body trivial) fun _ => .read _) (plainMember start q typeName)

def members : (cap : Nat) → Script True fun _ => Parser.members typeName cap
  | 0 => .read _
  | cap + 1 =>
    .after fun _ => .ite _ (.read _) <| .after fun _ =>
      .ite _ (members cap) <| .after fun _ =>
        .bind (.recover (member typeName) _) fun _ => .bind (members cap) fun _ => .read _

def memberSection : Script True fun _ => Parser.memberSection typeName :=
  .after fun _ => .bind (members typeName _) fun _ => .read _

def classRest : Script True fun _ => Parser.classRest start q :=
  .after fun _ => .after fun _ => .after fun _ => .after fun _ =>
    .ite _
      (.after fun _ => .after fun _ => .after fun _ => .after fun _ =>
        .bind (memberSection _) fun _ => .read _)
      (.after fun _ => .after fun _ => .after fun _ =>
        .bind (memberSection _) fun _ => .read _)

def interfaceRest : Script True fun _ => Parser.interfaceRest start q :=
  .after fun _ => .after fun _ => .after fun _ => .after fun _ =>
    .after fun _ => .bind (memberSection _) fun _ => .read _

def enumMembers : Script True fun _ => Parser.enumMembers typeName :=
  .after fun _ => .ite _ (memberSection typeName) (.read _)

def enumRest : Script True fun _ => Parser.enumRest start q :=
  .after fun _ => .after fun _ => .after fun _ => .after fun _ =>
    .after fun _ => .after fun _ => .bind (enumMembers _) fun _ => .read _

end Members

def typeDeclaration : Script True fun _ => Parser.typeDeclaration :=
  .after fun start => .after fun q => .after fun k =>
    .after fun k' => by
      split
      · exact .bind (classRest start q) fun _ => .read _
      · exact .bind (interfaceRest start q) fun _ => .read _
      · exact .bind (enumRest start q) fun _ => .read _
      all_goals exact .read _

def topLevelType : Script True fun _ => Parser.topLevelType :=
  .after fun _ => .recover typeDeclaration _

def types (start : Location) (span : Span) :
    (n : Nat) → Script True fun _ => Parser.types start span n
  | 0 => .read _
  | n + 1 =>
    .after fun _ => .ite _ (.read _) <| .after fun _ =>
      .ite _ (types start span n) <| .bind (.attempt topLevelType) fun found =>
        match found with
        | .error _ => .read _
        | .ok _ => .after fun span => .bind (types start span n) fun _ => .read _

def unit : Script True fun _ => Parser.unit :=
  .after fun start => .after fun package =>
    match package with
    | .error _ => .read _
    | .ok _ =>
      .after fun _ => .after fun is => by
        split
        · exact .read _
        · exact .after fun _ => .bind (types start _ _) fun _ => .read _

end Script

/-! ### What a counter does -/

namespace Counted

/-- With the counter at a value, a reader that counts does what a reader that does not count does. The
counter has its value again at the end, and has not been raised above the cap in between. -/
def Counts (c : Settings) (depth : Nat) (q : Counted α) (p : Parser α) : Prop :=
  ∀ s, s.depth = depth →
    ∃ peak ≤ max s.peak c.limits.nesting, q c s = withCounter depth peak (p c s.state)

/-- The readers for one level further in, one by one. -/
structure CountsDeeper (c : Settings) (depth : Nat) (q : CountedDeeper) (p : Deeper) : Prop where
  statement : Counts c depth q.statement p.statement
  block : Counts c depth q.block p.block
  caseBody : Counts c depth q.caseBody p.caseBody

variable {depth : Nat}

theorem counts_lift (p : Parser α) : Counts c depth (lift p) p :=
  fun s h => ⟨s.peak, Nat.le_max_left .., h ▸ rfl⟩

theorem counts_pure (a : α) : Counts c depth (pure a) (pure a) := counts_lift (pure a)

theorem Counts.bind {q : Counted α} {p : Parser α} {g : α → Counted β} {f : α → Parser β}
    (h : Counts c depth q p) (hg : ∀ a, Counts c depth (g a) (f a)) :
    Counts c depth (q >>= g) (p >>= f) := by
  intro s hs
  obtain ⟨peak, hpeak, e⟩ := h s hs
  rw [bind_run, bind_run, e]
  cases p c s.state with
  | error d t => exact ⟨peak, hpeak, rfl⟩
  | ok a t =>
    obtain ⟨peak', hpeak', e'⟩ := hg a ⟨t, depth, peak⟩ rfl
    exact ⟨peak', by dsimp only at hpeak'; omega, e'⟩

theorem Counts.tryCatch {q : Counted α} {p : Parser α} {g : Diagnostic → Counted α}
    {f : Diagnostic → Parser α} (h : Counts c depth q p) (hg : ∀ d, Counts c depth (g d) (f d)) :
    Counts c depth (tryCatch q g) (tryCatch p f) := by
  intro s hs
  obtain ⟨peak, hpeak, e⟩ := h s hs
  rw [tryCatch_run, tryCatch_run, e]
  cases p c s.state with
  | ok a t => exact ⟨peak, hpeak, rfl⟩
  | error d t =>
    obtain ⟨peak', hpeak', e'⟩ := hg d ⟨t, depth, peak⟩ rfl
    exact ⟨peak', by dsimp only at hpeak'; omega, e'⟩

theorem Counts.ite (b : Prop) [Decidable b] {q q' : Counted α} {p p' : Parser α}
    (h : Counts c depth q p) (h' : Counts c depth q' p') :
    Counts c depth (if b then q else q') (if b then p else p') := by
  split
  · exact h
  · exact h'

/-- At the cap, nothing further in is read. -/
theorem counts_nested_refused (h : c.limits.nesting ≤ depth) (q : Counted α) :
    Counts c depth (nested q) tooDeep := by
  intro s hs
  rw [nested, if_pos (hs ▸ h)]
  exact counts_lift _ s hs

/-- Below the cap, the counter is one higher for a reader further in. -/
theorem Counts.nested {q : Counted α} {p : Parser α} (h : Counts c (depth + 1) q p)
    (hdepth : depth < c.limits.nesting) : Counts c depth (nested q) p := by
  intro s hs
  obtain ⟨peak, hpeak, e⟩ := h ⟨s.state, s.depth + 1, max s.peak (s.depth + 1)⟩ (by rw [hs])
  rw [Counted.nested, if_neg (by omega), e]
  refine ⟨peak, by dsimp only at hpeak; omega, ?_⟩
  cases p c s.state <;> rfl

end Counted

open Counted

/-- A script with a counter does what it does with levels. -/
theorem Script.counts {first : Prop} {depth : Nat} {q : CountedDeeper} {deeper : Deeper}
    (hdeeper : CountsDeeper c depth q deeper) (hbody : first → Counts c depth q.block Parser.body)
    {p : Deeper → Parser α} (script : Script first p) :
    Counts c depth (script.counted q) (p deeper) := by
  induction script with
  | read p => exact counts_lift p
  | statement => exact hdeeper.statement
  | block => exact hdeeper.block
  | caseBody => exact hdeeper.caseBody
  | body h => exact hbody h
  | bind _ _ ih ihf => exact ih.bind ihf
  | ite b _ _ ih ih' => exact .ite b ih ih'
  | recover _ resume ih => exact ih.tryCatch fun d => counts_lift _
  | attempt _ ih =>
    exact (ih.bind fun a => counts_pure _).tryCatch fun d => counts_pure _

/-! ### Statements, blocks and cases with a counter -/

namespace Counted

/-- The readers for what lies a number of calls further in at the most. -/
def readers : Nat → CountedDeeper
  | 0 => ⟨lift tooDeep, lift tooDeep, lift tooDeep⟩
  | n + 1 =>
    ⟨nested (Script.anyStatement.counted (readers n)),
      nested (Script.braced.counted (readers n)),
      nested ((Script.allStatements true).counted (readers n))⟩

/-- The readers with a counter do what the readers with the remaining levels do. -/
theorem counts_readers (n depth : Nat) (h : c.limits.nesting ≤ depth + n) :
    CountsDeeper c depth (readers n) ⟨Parser.statement (c.limits.nesting - depth),
      Parser.block (c.limits.nesting - depth), Parser.caseBody (c.limits.nesting - depth)⟩ := by
  induction n generalizing depth with
  | zero =>
    rw [Nat.sub_eq_zero_of_le (by omega)]
    exact ⟨counts_lift _, counts_lift _, counts_lift _⟩
  | succ n ih =>
    rcases Nat.lt_or_ge depth c.limits.nesting with hdepth | hdepth
    · have hdeeper := ih (depth + 1) (by omega)
      obtain ⟨levels, hlevels⟩ : ∃ levels, c.limits.nesting - depth = levels + 1 :=
        ⟨c.limits.nesting - (depth + 1), by omega⟩
      rw [show c.limits.nesting - (depth + 1) = levels by omega] at hdeeper
      rw [hlevels]
      exact ⟨(Script.anyStatement.counts hdeeper nofun).nested hdepth,
        (Script.braced.counts hdeeper nofun).nested hdepth,
        ((Script.allStatements true).counts hdeeper nofun).nested hdepth⟩
    · rw [Nat.sub_eq_zero_of_le hdepth]
      exact ⟨counts_nested_refused hdepth _, counts_nested_refused hdepth _,
        counts_nested_refused hdepth _⟩

/-! ### Any number of calls -/

/-- With the counter at a value, two readers do the same. -/
def SameAt (c : Settings) (depth : Nat) (q q' : Counted α) : Prop :=
  ∀ s, s.depth = depth → q c s = q' c s

/-- The readers for one level further in, one by one. -/
structure SameDeeper (c : Settings) (depth : Nat) (q q' : CountedDeeper) : Prop where
  statement : SameAt c depth q.statement q'.statement
  block : SameAt c depth q.block q'.block
  caseBody : SameAt c depth q.caseBody q'.caseBody

variable {depth : Nat}

/-- What comes second starts with the counter at the same value, since the first part restores it. -/
theorem SameAt.bind {q q' : Counted α} {p : Parser α} {g g' : α → Counted β}
    (h : SameAt c depth q q') (hq : Counts c depth q p) (hg : ∀ a, SameAt c depth (g a) (g' a)) :
    SameAt c depth (q >>= g) (q' >>= g') := by
  intro s hs
  obtain ⟨peak, -, e⟩ := hq s hs
  rw [bind_run, bind_run, ← h s hs, e]
  cases p c s.state with
  | error d t => rfl
  | ok a t => exact hg a ⟨t, depth, peak⟩ rfl

theorem SameAt.tryCatch {q q' : Counted α} (h : SameAt c depth q q') (g : Diagnostic → Counted α) :
    SameAt c depth (tryCatch q g) (tryCatch q' g) := by
  intro s hs
  rw [tryCatch_run, tryCatch_run, h s hs]

theorem SameAt.nested {q q' : Counted α} (h : depth < c.limits.nesting → SameAt c (depth + 1) q q') :
    SameAt c depth (nested q) (nested q') := by
  intro s hs
  rw [Counted.nested, Counted.nested]
  split
  · rfl
  · rw [h (by omega) ⟨s.state, s.depth + 1, max s.peak (s.depth + 1)⟩ (by rw [hs])]

end Counted

theorem Script.sameAt {first : Prop} {depth : Nat} {q q' : CountedDeeper} {deeper : Deeper}
    (hsame : SameDeeper c depth q q') (hdeeper : CountsDeeper c depth q deeper)
    (hbody : first → Counts c depth q.block Parser.body) {p : Deeper → Parser α}
    (script : Script first p) : SameAt c depth (script.counted q) (script.counted q') := by
  induction script with
  | read p => exact fun _ _ => rfl
  | statement => exact hsame.statement
  | block => exact hsame.block
  | caseBody => exact hsame.caseBody
  | body _ => exact hsame.block
  | bind hp _ ih ihf => exact ih.bind (hp.counts hdeeper hbody) ihf
  | ite b _ _ ih ih' =>
    rw [Script.counted, Script.counted]
    split
    · exact ih
    · exact ih'
  | recover _ resume ih => exact ih.tryCatch _
  | attempt hp ih =>
    exact (ih.bind (hp.counts hdeeper hbody) fun a => fun _ _ => rfl).tryCatch _

namespace Counted

/-- One call more makes no difference once the cap is within reach. -/
theorem same_readers (n depth : Nat) (h : c.limits.nesting ≤ depth + n) :
    SameDeeper c depth (readers n) (readers (n + 1)) := by
  induction n generalizing depth with
  | zero =>
    have hrefused {α : Type} (q : Counted α) : SameAt c depth (lift tooDeep) (nested q) := by
      intro s hs
      rw [nested, if_pos (by omega)]
    exact ⟨hrefused _, hrefused _, hrefused _⟩
  | succ n ih =>
    have hdeeper := ih (depth + 1) (by omega)
    have hcounts := counts_readers (c := c) n (depth + 1) (by omega)
    exact ⟨.nested fun _ => Script.anyStatement.sameAt hdeeper hcounts nofun,
      .nested fun _ => Script.braced.sameAt hdeeper hcounts nofun,
      .nested fun _ => (Script.allStatements true).sameAt hdeeper hcounts nofun⟩

/-- The readers for what lies further in. The cap bounds the number of their calls. -/
def deeper : CountedDeeper where
  statement := fun c => (readers c.limits.nesting).statement c
  block := fun c => (readers c.limits.nesting).block c
  caseBody := fun c => (readers c.limits.nesting).caseBody c

/-- A reader further in does the same with these readers as with a bounded number of calls. -/
theorem nested_counted {p : Deeper → Parser α} (script : Script False p) (s : CountedState) :
    nested (script.counted (readers c.limits.nesting)) c s = nested (script.counted deeper) c s := by
  have hcounts := counts_readers c.limits.nesting (s.depth + 1) (Nat.le_add_left ..)
  have hsame : SameDeeper c (s.depth + 1) (readers c.limits.nesting) deeper :=
    ⟨fun _ _ => rfl, fun _ _ => rfl, fun _ _ => rfl⟩
  exact SameAt.nested (fun _ => script.sameAt hsame hcounts nofun) s rfl

/-- Statements, blocks and cases are each read one level further in. -/
theorem deeper_eq : deeper = ⟨nested (Script.anyStatement.counted deeper),
    nested (Script.braced.counted deeper),
    nested ((Script.allStatements true).counted deeper)⟩ := by
  have hsame (c : Settings) (s : CountedState) :=
    same_readers (c := c) c.limits.nesting s.depth (Nat.le_add_left ..)
  refine CountedDeeper.ext ?_ ?_ ?_ <;> funext c s
  · exact ((hsame c s).statement s rfl).trans (nested_counted _ s)
  · exact ((hsame c s).block s rfl).trans (nested_counted _ s)
  · exact ((hsame c s).caseBody s rfl).trans (nested_counted _ s)

theorem counts_deeper (c : Settings) (depth : Nat) :
    CountsDeeper c depth deeper ⟨Parser.statement (c.limits.nesting - depth),
      Parser.block (c.limits.nesting - depth), Parser.caseBody (c.limits.nesting - depth)⟩ :=
  have h := counts_readers c.limits.nesting depth (Nat.le_add_left ..)
  ⟨h.statement, h.block, h.caseBody⟩

end Counted

namespace Input

/-- Statements, blocks and cases are read one level further in. Each such reader leaves the counter as it
was, whether it has a result or not. When a whole text is read, the counter starts and ends at zero, and
is never above the cap; what is found is the same as with levels. In the body of a member, no chain of
statements inside each other is longer than the cap. -/
theorem nesting_capped (input : Input) (options : ParseOptions) :
    deeper = ⟨nested (Script.anyStatement.counted deeper), nested (Script.braced.counted deeper),
      nested ((Script.allStatements true).counted deeper)⟩ ∧
    (∀ (α : Type) (q : Counted α) (p : Parser α) (c : Settings) (depth : Nat),
      Counts c (depth + 1) q p →
        Counts c depth (nested q) (if c.limits.nesting ≤ depth then tooDeep else p)) ∧
    (∀ (c : Settings) (depth : Nat),
      Counts c depth deeper.statement (statement (c.limits.nesting - depth)) ∧
      Counts c depth deeper.block (block (c.limits.nesting - depth)) ∧
      Counts c depth deeper.caseBody (caseBody (c.limits.nesting - depth))) ∧
    (∃ peak ≤ options.limits.nesting,
      Script.unit.counted deeper (input.settings options) ⟨input.state, 0, 0⟩ =
        withCounter 0 peak (unit (input.settings options) input.state)) ∧
    ∀ t ∈ (input.parse options).unit.types, ∀ m ∈ t.members, ∀ b ∈ m.body?,
      ∀ chain : List Statement, (∀ s ∈ chain, b.Contains s) → chain.IsChain Statement.Contains →
        chain.length ≤ options.limits.nesting := by
  refine ⟨deeper_eq, fun α q p c depth h => ?_, fun c depth => ?_, ?_, ?_⟩
  · split
    · exact counts_nested_refused ‹_› q
    · exact h.nested (by omega)
  · exact ⟨(counts_deeper c depth).statement, (counts_deeper c depth).block,
      (counts_deeper c depth).caseBody⟩
  · have hdeeper := counts_deeper (input.settings options) 0
    obtain ⟨peak, hpeak, e⟩ :=
      Script.unit.counts hdeeper (fun _ => hdeeper.block) ⟨input.state, 0, 0⟩ rfl
    exact ⟨peak, hpeak.trans_eq (Nat.zero_max ..), e⟩
  · exact fun t ht m hm b hb chain hin hchain => length_le_nesting input options ht hm hb hin hchain

/-- `class A { { if (x) y; } }` with a cap of three, which the innermost statement reaches. -/
theorem nesting_capped_if :
    let input := given (tokensOf [.keyword .class_, .identifier, .mark .openBrace, .mark .openBrace,
      .keyword .if_, .mark .openParen, .identifier, .mark .closeParen, .identifier, .mark .semicolon,
      .mark .closeBrace, .mark .closeBrace]) []
    let limits : Limits := { nesting := 3 }
    let options : ParseOptions := { limits := limits }
    ∃ t m b s u, (input.parse options).unit.types = [t] ∧ t.members = [m] ∧ m.body? = some b ∧
      b.statements = [s] ∧ s.Contains u ∧ [s, u].length ≤ 3 := by
  intro input limits options
  obtain ⟨t, m, b, s, u, ht, hm, hb, hs, hu⟩ : ∃ t m b s u, (input.parse options).unit.types = [t] ∧
      t.members = [m] ∧ m.body? = some b ∧ b.statements = [s] ∧ s.inner = [u] :=
    ⟨_, _, _, _, _, rfl, rfl, rfl, rfl, rfl⟩
  have hpart : u.IsPartOf s := by
    rw [Statement.IsPartOf, hu]
    exact List.mem_singleton.mpr rfl
  have hfirst : s ∈ b.statements := hs ▸ List.mem_singleton.mpr rfl
  have hin : ∀ v ∈ [s, u], b.Contains v := by
    intro v hv
    rcases List.mem_cons.mp hv with rfl | hv
    · exact ⟨v, hfirst, .refl⟩
    · exact ⟨s, hfirst, List.mem_singleton.mp hv ▸ .single hpart⟩
  have hcontains : s.Contains u := .single hpart
  obtain ⟨-, -, -, -, hchains⟩ := nesting_capped input options
  exact ⟨t, m, b, s, u, ht, hm, hb, hs, hcontains,
    hchains t (ht ▸ List.mem_singleton.mpr rfl) m (hm ▸ List.mem_singleton.mpr rfl) b hb [s, u] hin
      (List.isChain_pair.mpr hcontains)⟩

end Input

end JavaTree.Parser
