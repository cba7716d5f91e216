import JavaTree.Printer
import JavaTree.Proofs.Page.Settled
import JavaTree.Proofs.Rows

/-!
What stands inside of a node, on its page.

A row of statements stands at some place of a tree. Another row can stand at the same place, so the place
is a function that takes a row to the tree around it. On the page of that tree, the statements of the row
stand as each of them stands alone, as many levels further in as the place says, and what stands before
and behind them is the same for every row.

    place                               row             page
    row ↦ while (a) { row }             f(); g();       while (a) {
                                                            f();
                                                            g();
                                                        }

A line goes on with a closing brace before it, but never with one that belongs to another row: something
of the tree around it stands before each row, and a line that starts alone behind it.
-/

namespace JavaTree

open Line

/-! ### Lines inside of lines -/

section Lines

variable {α β : Type} {style : BraceStyle} {k n : Nat} {inner mid outer : α → List Line}

/-- Lines that depend on something stand inside of others, some levels further in. What stands before and
behind them does not depend on it. -/
def Stands (k : Nat) (inner outer : α → List Line) : Prop :=
  ∃ before after, StartAlone after ∧ ∀ a, outer a = before ++ (inner a).map indent^[k] ++ after

/-- Lines that stand inside of others, with a line before them and a line behind them. -/
def Enclosed (k : Nat) (inner outer : α → List Line) : Prop :=
  ∃ first before next after, next.StartsAlone ∧
    ∀ a, outer a = first :: before ++ (inner a).map indent^[k] ++ next :: after

theorem startsAlone_plain (content : String) : (plain content).StartsAlone := rfl

theorem Line.StartsAlone.indent {l : Line} (h : l.StartsAlone) (k : Nat) :
    (Line.indent^[k] l).StartsAlone := by
  induction k with
  | zero => exact h
  | succ k ih =>
    rw [Function.iterate_succ_apply']
    generalize Line.indent^[k] l = m at ih
    cases m <;> exact ih

theorem Line.StartAlone.indent {ls : List Line} (h : StartAlone ls) (k : Nat) :
    StartAlone (ls.map Line.indent^[k]) := by
  cases ls with
  | nil => exact startAlone_nil
  | cons l ls => exact startAlone_cons ((h l rfl).indent k) _

theorem settled_indent (k : Nat) (ls : List Line) :
    settled style (ls.map indent^[k]) = (settled style ls).map (PageLine.shift k) := by
  induction k with
  | zero =>
    have hzero : PageLine.shift 0 = id := funext PageLine.shift_zero
    simp [hzero]
  | succ k ih =>
    rw [Function.iterate_succ', ← List.map_map, ← indentAll, settled_indentAll, ih, List.map_map]
    exact List.map_congr_left fun l _ => l.shift_shift k 1

/-- Braces have a line before what is between them, and a line behind it. -/
theorem exists_braced (style : BraceStyle) (header : String) : ∃ first more, first.StartsAlone ∧
    ∀ inner, Line.braced style header inner = first :: more ++ indentAll inner ++ [plain "\x7d"] := by
  by_cases hheader : header = ""
  · exact ⟨plain "\x7b", [], rfl, fun inner => by rw [braced.eq_def, if_pos hheader]⟩
  · cases style with
    | sameLine =>
      exact ⟨plain (header ++ " \x7b"), [], rfl, fun inner => by rw [braced.eq_def, if_neg hheader]⟩
    | nextLine =>
      exact ⟨plain header, [plain "\x7b"], rfl, fun inner => by rw [braced.eq_def, if_neg hheader]⟩

theorem stands_self (inner : α → List Line) : Stands 0 inner inner :=
  ⟨[], [], startAlone_nil, fun a => by simp⟩

namespace Stands

theorem prepend (h : Stands k inner outer) (ls : List Line) : Stands k inner fun a => ls ++ outer a := by
  obtain ⟨before, after, halone, heq⟩ := h
  exact ⟨ls ++ before, after, halone, fun a => by simp only [heq, List.append_assoc]⟩

theorem append (h : Stands k inner outer) {ls : List Line} (hls : StartAlone ls) :
    Stands k inner fun a => outer a ++ ls := by
  obtain ⟨before, after, halone, heq⟩ := h
  exact ⟨before, after ++ ls, halone.append hls, fun a => by simp only [heq, List.append_assoc]⟩

theorem indent (h : Stands k inner outer) (m : Nat) :
    Stands (k + m) inner fun a => (outer a).map Line.indent^[m] := by
  obtain ⟨before, after, halone, heq⟩ := h
  refine ⟨before.map Line.indent^[m], after.map Line.indent^[m], halone.indent m, fun a => ?_⟩
  simp only [heq, List.map_append, List.map_map, ← Function.iterate_add, Nat.add_comm m k]

/-- What stands in lines that stand in others stands in these. -/
theorem trans (h : Stands k mid outer) {f : β → α} {inner : β → List Line}
    (h' : Stands n inner fun b => mid (f b)) : Stands (n + k) inner fun b => outer (f b) := by
  obtain ⟨before, after, halone, heq⟩ := h
  have hindented := ((h'.indent k).prepend before).append halone
  simpa only [heq] using hindented

theorem braced (h : Stands k inner outer) (style : BraceStyle) (header : String) :
    Enclosed (k + 1) inner fun a => Line.braced style header (outer a) := by
  obtain ⟨before, after, halone, heq⟩ := h.indent 1
  obtain ⟨first, more, -, hbraced⟩ := exists_braced style header
  have hclose : StartAlone (after ++ [plain "\x7d"]) :=
    halone.append (startAlone_cons (startsAlone_plain _) [])
  obtain ⟨next, rest, hrest⟩ : ∃ next rest, after ++ [plain "\x7d"] = next :: rest :=
    List.exists_cons_of_ne_nil (by simp)
  rw [hrest] at hclose
  refine ⟨first, more ++ before, next, rest, hclose next rfl, fun a => ?_⟩
  simp only [Function.iterate_one] at heq
  simp only [hbraced, indentAll, heq, ← hrest, List.append_assoc, List.cons_append]

/-- On a page, such lines are those that they are alone, some levels further in. -/
theorem settled (h : Stands k inner outer) (hinner : ∀ a, StartAlone (inner a)) (style : BraceStyle) :
    ∃ before after, ∀ a, Line.settled style (outer a) =
      before ++ (Line.settled style (inner a)).map (PageLine.shift k) ++ after := by
  obtain ⟨before, after, halone, heq⟩ := h
  refine ⟨Line.settled style before, Line.settled style after, fun a => ?_⟩
  rw [heq, settled_append _ halone, settled_append _ ((hinner a).indent k), settled_indent]

end Stands

namespace Enclosed

theorem stands (h : Enclosed k inner outer) : Stands k inner outer := by
  obtain ⟨first, before, next, after, halone, heq⟩ := h
  exact ⟨first :: before, next :: after, startAlone_cons halone after, heq⟩

theorem prepend (h : Enclosed k inner outer) (ls : List Line) :
    Enclosed k inner fun a => ls ++ outer a := by
  obtain ⟨first, before, next, after, halone, heq⟩ := h
  obtain ⟨l, more, hmore⟩ : ∃ l more, ls ++ first :: before = l :: more :=
    List.exists_cons_of_ne_nil (by simp)
  refine ⟨l, more, next, after, halone, fun a => ?_⟩
  simp only [heq, ← hmore, List.append_assoc]

theorem append (h : Enclosed k inner outer) (ls : List Line) :
    Enclosed k inner fun a => outer a ++ ls := by
  obtain ⟨first, before, next, after, halone, heq⟩ := h
  exact ⟨first, before, next, after ++ ls, halone, fun a => by
    simp only [heq, List.append_assoc, List.cons_append]⟩

theorem indentAll (h : Enclosed k inner outer) :
    Enclosed (k + 1) inner fun a => Line.indentAll (outer a) := by
  obtain ⟨first, before, next, after, halone, heq⟩ := h
  refine ⟨first.indent, Line.indentAll before, next.indent, Line.indentAll after, halone.indent 1,
    fun a => ?_⟩
  simp only [heq, Line.indentAll, List.map_append, List.map_cons, List.map_map, Function.iterate_succ',
    List.cons_append]

theorem joinFirst (h : Enclosed k inner outer) : Enclosed k inner fun a => Line.joinFirst (outer a) := by
  obtain ⟨first, before, next, after, halone, heq⟩ := h
  exact ⟨first.join, before, next, after, halone, fun a => by simp only [heq]; rfl⟩

end Enclosed

end Lines

/-! ### Places in a statement -/

section Statements

variable {style : BraceStyle} {k n : Nat}

/-- How much further in a statement stands behind a header. -/
def Statement.bodyLevels : Statement → Nat
  | .block _ => 0
  | _ => 1

/-- How much further in a statement stands behind `else`. -/
def Statement.elseLevels : Statement → Nat
  | .block _ | .if_ .. => 0
  | _ => 1

/-- How much further in a statement stands at a place. -/
def Place.levels : Place → Statement → Nat
  | row, _ => 0
  | body _, s => s.bodyLevels
  | orElse, s => s.elseLevels

/-- The places of a branch in a statement, with how much further in it stands there. -/
inductive Statement.Branch : (Statement → Nat) → (Statement → Statement) → Prop
  | thenBranch (condition : Excerpt) (elseBranch : Option Statement) (span : Span) :
      Branch bodyLevels fun s => .if_ condition s elseBranch span
  | elseBranch (condition : Excerpt) (thenBranch : Statement) (span : Span) :
      Branch elseLevels fun s => .if_ condition thenBranch (some s) span
  | for_ (header : Excerpt) (span : Span) : Branch bodyLevels fun s => .for_ header s span
  | while_ (condition : Excerpt) (span : Span) : Branch bodyLevels fun s => .while_ condition s span
  | doWhile (condition : Excerpt) (span : Span) : Branch bodyLevels fun s => .doWhile s condition span
  | labeled (label : String) (span : Span) : Branch (fun _ => 0) fun s => .labeled label s span

/-- The places of a row in a statement, with the level of the row: between braces, in a case between
braces, or in a branch. -/
inductive Statement.RowOf : Nat → (List Statement → Statement) → Prop
  | block (span : Span) : RowOf 1 fun row => .block ⟨row, span⟩
  | synchronized (lock : Excerpt) (braces span : Span) :
      RowOf 1 fun row => .synchronized lock ⟨row, braces⟩ span
  | try_ (braces : Span) (catches : List CatchClause) (finallyBlock : Option Block) (span : Span) :
      RowOf 1 fun row => .try_ ⟨row, braces⟩ catches finallyBlock span
  | catch_ (body : Block) (before : List CatchClause) (parameter : Excerpt) (braces clause : Span)
      (after : List CatchClause) (finallyBlock : Option Block) (span : Span) :
      RowOf 1 fun row =>
        .try_ body (before ++ ⟨parameter, ⟨row, braces⟩, clause⟩ :: after) finallyBlock span
  | finally_ (body : Block) (catches : List CatchClause) (braces span : Span) :
      RowOf 1 fun row => .try_ body catches (some ⟨row, braces⟩) span
  | case_ (selector : Excerpt) (before : List SwitchCase) (labels : List CaseLabel) (group : Span)
      (after : List SwitchCase) (span : Span) :
      RowOf 2 fun row => .switch selector (before ++ ⟨labels, row, group⟩ :: after) span
  | branch {k : Nat} {levels : Statement → Nat} {g : Statement → Statement}
      {f : List Statement → Statement} (hg : Branch levels g) (hf : RowOf k f) :
      RowOf (k + levels (f [])) fun row => g (f row)

/-- The places of a row in a row, at any depth, with the level of the inner one. -/
inductive RowIn : Nat → (List Statement → List Statement) → Prop
  | here : RowIn 0 fun row => row
  | within {k n : Nat} {g : List Statement → Statement} {f : List Statement → List Statement}
      (before after : List Statement) (hg : Statement.RowOf k g) (hf : RowIn n f) :
      RowIn (n + k) fun row => before ++ g (f row) :: after

/-! ### First lines -/

/-- Lines that begin with one that starts alone. -/
def Begin (ls : List Line) : Prop := ∃ l ms, l.StartsAlone ∧ ls = l :: ms

theorem begin_plain (content : String) (ls : List Line) : Begin (plain content :: ls) :=
  ⟨_, ls, startsAlone_plain content, rfl⟩

theorem Begin.startAlone {ls : List Line} (h : Begin ls) : StartAlone ls := by
  obtain ⟨l, ms, hl, rfl⟩ := h
  exact startAlone_cons hl ms

theorem Begin.append {ls : List Line} (h : Begin ls) (ms : List Line) : Begin (ls ++ ms) := by
  obtain ⟨l, rest, hl, rfl⟩ := h
  exact ⟨l, rest ++ ms, hl, rfl⟩

theorem begin_braced (header : String) (inner : List Line) : Begin (Line.braced style header inner) := by
  obtain ⟨first, more, hfirst, hbraced⟩ := exists_braced style header
  rw [hbraced]
  exact ⟨first, _, hfirst, rfl⟩

theorem begin_wordLine (word : String) (operand : Option String) : Begin [wordLine word operand] := by
  cases operand <;> exact begin_plain _ []

theorem Place.begin_hold (place : Place) {own : List Line} (h : Begin own) : Begin (place.hold own) := by
  cases place with
  | row => exact h
  | body _ | orElse => exact begin_plain _ _

/-- A statement begins with a line of its own. -/
theorem Statement.begin_lines (style : BraceStyle) : ∀ (s : Statement) (place : Place),
    Begin (s.lines style place)
  | .if_ condition thenBranch elseBranch _, place => by
    have hchain (lead : String) : Begin (thenBranch.lines style (.body (lead ++ ("if (" ++
        condition.render ++ ")"))) ++ Statement.elseLines style elseBranch) :=
      (thenBranch.begin_lines style _).append _
    cases place with
    | row => exact hchain ""
    | body h => exact Place.begin_hold (.body h) (hchain "")
    | orElse => exact hchain "else "
  | .for_ _ body _, place | .while_ _ body _, place => by
    rw [Statement.lines]
    exact place.begin_hold (body.begin_lines style _)
  | .doWhile body _ _, place => by
    rw [Statement.lines]
    exact place.begin_hold ((body.begin_lines style _).append _)
  | .declaration .., place | .expression .., place | .field _, place => by
    rw [Statement.lines]
    exact place.begin_hold (begin_plain _ [])
  | .labeled .., place => by
    rw [Statement.lines]
    exact place.begin_hold (begin_plain _ _)
  | .return_ .., place | .break_ .., place | .continue_ .., place | .throw_ .., place
  | .assert .., place => by
    simp only [Statement.lines]
    exact place.begin_hold (begin_wordLine _ _)
  | .block _, place => by
    rw [Statement.lines]
    exact begin_braced _ _
  | .switch .., place | .synchronized .., place => by
    rw [Statement.lines]
    exact place.begin_hold (begin_braced _ _)
  | .try_ .., place => by
    rw [Statement.lines]
    exact place.begin_hold (((begin_braced _ _).append _).append _)

theorem Statement.startAlone_allLines (style : BraceStyle) (ss : List Statement) :
    StartAlone (Statement.allLines style ss) := by
  cases ss with
  | nil => exact startAlone_nil
  | cons s ss => exact ((s.begin_lines style .row).append _).startAlone

/-! ### Rows of statements -/

theorem Statement.allLines_append (style : BraceStyle) (ss ts : List Statement) :
    Statement.allLines style (ss ++ ts) = Statement.allLines style ss ++ Statement.allLines style ts := by
  induction ss with
  | nil => rfl
  | cons s ss ih => rw [List.cons_append, Statement.allLines, Statement.allLines, ih, List.append_assoc]

theorem CatchClause.allLines_append (style : BraceStyle) (cs ds : List CatchClause) :
    CatchClause.allLines style (cs ++ ds) =
      CatchClause.allLines style cs ++ CatchClause.allLines style ds := by
  induction cs with
  | nil => rfl
  | cons c cs ih =>
    obtain ⟨parameter, body, span⟩ := c
    rw [List.cons_append, CatchClause.allLines, CatchClause.allLines, ih, List.append_assoc]

theorem SwitchCase.allLines_append (style : BraceStyle) (cs ds : List SwitchCase) :
    SwitchCase.allLines style (cs ++ ds) =
      SwitchCase.allLines style cs ++ SwitchCase.allLines style ds := by
  induction cs with
  | nil => rfl
  | cons c cs ih =>
    obtain ⟨labels, statements, span⟩ := c
    rw [List.cons_append, SwitchCase.allLines, SwitchCase.allLines, ih]
    simp only [List.append_assoc]

/-- The lines of a statement that does not share the line of its header. -/
theorem Enclosed.hold {α : Type} {inner outer : α → List Line} {s : Statement}
    (h : Enclosed k inner outer) (place : Place) (hbody : s.bodyLevels = 1) (helse : s.elseLevels = 1) :
    Enclosed (k + place.levels s) inner fun a => place.hold (outer a) := by
  cases place with
  | row => exact h
  | body header =>
    rw [Place.levels, hbody]
    exact h.indentAll.prepend [plain header]
  | orElse =>
    rw [Place.levels, helse]
    exact h.indentAll.prepend [plain "else"]

theorem SwitchCase.startAlone_allLines (style : BraceStyle) (cs : List SwitchCase) :
    StartAlone (SwitchCase.allLines style cs) := by
  induction cs with
  | nil => exact startAlone_nil
  | cons c cs ih =>
    obtain ⟨labels, statements, _⟩ := c
    have hlabels : StartAlone (labels.map (·.line)) := by
      rcases labels with _ | ⟨_ | _, labels⟩
      · exact startAlone_nil
      all_goals exact startAlone_cons (startsAlone_plain _) _
    rw [SwitchCase.allLines]
    exact (hlabels.append (Statement.startAlone_allLines style statements).indentAll).append ih

/-- Where a row stands in a statement, it stands on the lines of the statement, with lines of the
statement before it and behind it. -/
theorem Statement.RowOf.enclosed {g : List Statement → Statement} (h : RowOf k g) (style : BraceStyle)
    (place : Place) : Enclosed (k + place.levels (g [])) (Statement.allLines style)
      fun row => (g row).lines style place := by
  have hrow := stands_self (Statement.allLines style)
  induction h generalizing place with
  | block span =>
    have hlevels : place.levels (.block ⟨[], span⟩) = 0 := by cases place <;> rfl
    rw [hlevels]
    exact hrow.braced style place.header
  | synchronized lock braces span =>
    simp only [Statement.lines, Block.lines]
    exact (hrow.braced style _).hold place rfl rfl
  | try_ braces catches finallyBlock span =>
    simp only [Statement.lines, Block.lines]
    exact (((hrow.braced style _).append _).append _).hold place rfl rfl
  | catch_ body before parameter braces clause after finallyBlock span =>
    have hclause := (hrow.braced style ("catch (" ++ parameter.render ++ ")")).joinFirst.append
      (CatchClause.allLines style after)
    simp only [Statement.lines, Block.lines, CatchClause.allLines_append, CatchClause.allLines]
    exact (((hclause.prepend (CatchClause.allLines style before)).prepend _).append _).hold place rfl rfl
  | finally_ body catches braces span =>
    simp only [Statement.lines, Block.lines, Block.finallyLines]
    exact ((hrow.braced style _).joinFirst.prepend _).hold place rfl rfl
  | case_ selector before labels group after span =>
    have hcase := ((hrow.indent 1).prepend (labels.map (·.line))).append
      (SwitchCase.startAlone_allLines style after)
    simp only [Statement.lines, SwitchCase.allLines_append, SwitchCase.allLines]
    exact ((hcase.prepend (SwitchCase.allLines style before)).braced style _).hold place rfl rfl
  | branch hg hf ih =>
    cases hg with
    | thenBranch condition elseBranch span =>
      have hchain (lead : String) := (ih (.body (lead ++ ("if (" ++ condition.render ++ ")")))).append
        (Statement.elseLines style elseBranch)
      cases place with
      | row => exact hchain ""
      | body header => exact (hchain "").indentAll.prepend [plain header]
      | orElse => exact hchain "else "
    | elseBranch condition thenBranch span =>
      have hchain (lead : String) := (ih .orElse).joinFirst.prepend
        (thenBranch.lines style (.body (lead ++ ("if (" ++ condition.render ++ ")"))))
      cases place with
      | row => exact hchain ""
      | body header => exact (hchain "").indentAll.prepend [plain header]
      | orElse => exact hchain "else "
    | for_ header span =>
      simp only [Statement.lines]
      exact (ih (.body _)).hold place rfl rfl
    | while_ condition span =>
      simp only [Statement.lines]
      exact (ih (.body _)).hold place rfl rfl
    | doWhile condition span =>
      simp only [Statement.lines]
      exact ((ih (.body _)).append _).hold place rfl rfl
    | labeled label span =>
      simp only [Statement.lines]
      exact ((ih .row).prepend [plain (label ++ ":")]).hold place rfl rfl

/-- Where a row stands in a row, at any depth, it stands on the lines of that one. -/
theorem RowIn.stands {f : List Statement → List Statement} (h : RowIn n f) (style : BraceStyle) :
    Stands n (Statement.allLines style) fun row => Statement.allLines style (f row) := by
  induction h with
  | here => exact stands_self _
  | within before after hg hf ih =>
    have hrow := ((hg.enclosed style .row).stands.trans ih).append (Statement.startAlone_allLines style after)
    simp only [Statement.allLines_append, Statement.allLines]
    exact hrow.prepend (Statement.allLines style before)

/-! ### Every row has a place -/

theorem Statement.exists_rowOf {s : Statement} {row : List Statement} (h : row ∈ s.rows) :
    ∃ k g, RowOf k g ∧ g row = s := by
  cases s with
  | block b =>
    obtain ⟨statements, span⟩ := b
    obtain rfl := List.mem_singleton.mp h
    exact ⟨1, _, .block span, rfl⟩
  | synchronized lock body span =>
    obtain ⟨statements, braces⟩ := body
    obtain rfl := List.mem_singleton.mp h
    exact ⟨1, _, .synchronized lock braces span, rfl⟩
  | try_ body catches finallyBlock span =>
    simp only [rows, List.cons_append, List.mem_cons, List.mem_append, List.mem_map, Option.mem_toList] at h
    obtain rfl | ⟨clause, hclause, rfl⟩ | ⟨last, rfl, rfl⟩ := h
    · obtain ⟨statements, braces⟩ := body
      exact ⟨1, _, .try_ braces catches finallyBlock span, rfl⟩
    · obtain ⟨before, after, rfl⟩ := List.append_of_mem hclause
      obtain ⟨parameter, ⟨statements, braces⟩, clause⟩ := clause
      exact ⟨1, _, .catch_ body before parameter braces clause after finallyBlock span, rfl⟩
    · obtain ⟨statements, braces⟩ := last
      exact ⟨1, _, .finally_ body catches braces span, rfl⟩
  | switch selector cases span =>
    obtain ⟨group, hgroup, rfl⟩ := List.mem_map.mp h
    obtain ⟨before, after, rfl⟩ := List.append_of_mem hgroup
    obtain ⟨labels, statements, group⟩ := group
    exact ⟨2, _, .case_ selector before labels group after span, rfl⟩
  | declaration | expression | return_ | if_ | for_ | while_ | doWhile | field | break_ | continue_
  | throw_ | labeled | assert => cases h

theorem Statement.exists_branch {s u : Statement} (h : u ∈ s.branches) :
    ∃ levels g, Branch levels g ∧ g u = s := by
  cases s with
  | if_ condition thenBranch elseBranch span =>
    obtain rfl | helse := List.mem_cons.mp h
    · exact ⟨_, _, .thenBranch condition elseBranch span, rfl⟩
    · obtain rfl := Option.mem_toList.mp helse
      exact ⟨_, _, .elseBranch condition thenBranch span, rfl⟩
  | for_ header body span =>
    obtain rfl := List.mem_singleton.mp h
    exact ⟨_, _, .for_ header span, rfl⟩
  | while_ condition body span =>
    obtain rfl := List.mem_singleton.mp h
    exact ⟨_, _, .while_ condition span, rfl⟩
  | doWhile body condition span =>
    obtain rfl := List.mem_singleton.mp h
    exact ⟨_, _, .doWhile condition span, rfl⟩
  | labeled label body span =>
    obtain rfl := List.mem_singleton.mp h
    exact ⟨_, _, .labeled label span, rfl⟩
  | declaration | expression | return_ | try_ | field | block | break_ | continue_ | throw_ | switch
  | synchronized | assert => cases h

/-- Every row of a statement that lies somewhere in a block has a place in the block. -/
theorem Block.exists_rowIn {b : Block} {s : Statement} (hs : b.Contains s) {row : List Statement}
    (hrow : row ∈ s.rows) : ∃ n f, RowIn n f ∧ f row = b.statements := by
  obtain ⟨t, ht, hreach⟩ := hs
  have hplace : ∃ k g n f, Statement.RowOf k g ∧ RowIn n f ∧ g (f row) = t := by
    clear ht
    induction hreach using Relation.ReflTransGen.head_induction_on with
    | refl =>
      obtain ⟨k, g, hg, heq⟩ := Statement.exists_rowOf hrow
      exact ⟨k, g, 0, _, hg, .here, heq⟩
    | head hpart _ ih =>
      obtain ⟨k, g, n, f, hg, hf, rfl⟩ := ih
      obtain hbranch | hrows := List.mem_append.mp hpart
      · obtain ⟨levels, h, hh, heq⟩ := Statement.exists_branch hbranch
        exact ⟨_, _, n, f, .branch hh hg, hf, heq⟩
      · obtain ⟨outer, houter, hmem⟩ := List.mem_flatten.mp hrows
        obtain ⟨before, after, rfl⟩ := List.append_of_mem hmem
        obtain ⟨m, h, hh, heq⟩ := Statement.exists_rowOf houter
        exact ⟨m, h, _, _, hh, .within before after hg hf, heq⟩
  obtain ⟨k, g, n, f, hg, hf, rfl⟩ := hplace
  obtain ⟨before, after, hstatements⟩ := List.append_of_mem ht
  exact ⟨_, _, .within before after hg hf, hstatements.symm⟩

end Statements

end JavaTree
