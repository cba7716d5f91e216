import JavaTree.Node
import JavaTree.Proofs.Page.Nested
import JavaTree.Summary.Skeleton

/-!
The pages of nodes.

A node that is not written as part of a line has a page of its own. Its lines depend on the brace style
alone; the rest of a layout says how they are indented and how they end. A member and a statement have the
same lines wherever they stand: in a type, between braces and in a case, some levels further in.

    node                     lines alone           lines in the page of its class
    int x;                   0 "int x;"            1 "int x;"
    void f() { g(); }        0 "void f() {"        1 "void f() {"
                             1 "g();"              2 "g();"
                             0 "}"                 1 "}"
-/

namespace JavaTree

open Line PageLine

/-! ### Lines of nodes -/

/-- The lines of a statement, alone. -/
def Statement.pageLines (style : BraceStyle) (s : Statement) : List PageLine :=
  settled style (s.lines style .row)

/-- The lines of a member, alone. -/
def Member.pageLines (style : BraceStyle) (m : Member) : List PageLine := settled style (m.lines style)

/-- The lines that members have alone, with a blank line between two of them unless both are fields. -/
def Member.allPageLines (style : BraceStyle) : List Member → List PageLine
  | [] => []
  | [m] => m.pageLines style
  | m :: n :: ms =>
    m.pageLines style ++ (if m.isField && n.isField then [] else [.blank]) ++
      Member.allPageLines style (n :: ms)

/-- The lines of a node, alone. Parts of lines and parts of statements have none. -/
def Node.lines? (style : BraceStyle) : Node → Option (List Line)
  | unit u => some (u.lines style)
  | package p => some [packageLine p.name]
  | import_ i => some [i.line]
  | type t | typeForm t => some (t.lines style)
  | enumConstant c => some [.plain c.render]
  | member m | memberForm m => some (m.lines style)
  | block b => some (Line.braced style "" (b.lines style))
  | statement s => some (s.lines style .row)
  | parameter _ | annotationUse _ | typeUse _ | excerpt _ => none
  | declaration .. | declarator _ | catchClause _ | switchCase _ => none

/-- The lines of a node on its page. -/
def Node.pageLines? (style : BraceStyle) (n : Node) : Option (List PageLine) :=
  (n.lines? style).map (settled style)

section Members

variable {style : BraceStyle} {k n : Nat}

theorem settled_allLines (ss : List Statement) :
    settled style (Statement.allLines style ss) = ss.flatMap (·.pageLines style) := by
  induction ss with
  | nil => rfl
  | cons s ss ih =>
    rw [Statement.allLines, settled_append _ (Statement.startAlone_allLines style ss), ih, List.flatMap_cons]
    rfl

theorem startsAlone_blank : Line.blank.StartsAlone := trivial

theorem begin_behind_annotations (as : List AnnotationUse) {ls : List Line} (h : Begin ls) :
    Begin (AnnotationUse.lines as ++ ls) := by
  cases as with
  | nil => exact h
  | cons a as => exact begin_plain _ _

theorem Member.begin_lines (style : BraceStyle) (m : Member) : Begin (m.lines style) := by
  cases m with
  | field f => exact begin_behind_annotations _ (begin_plain _ [])
  | method m =>
    refine begin_behind_annotations _ ?_
    cases m.body with
    | none => exact begin_plain _ []
    | some b => exact begin_braced _ _
  | constructor c => exact begin_behind_annotations _ (begin_braced _ _)
  | initializer i => exact begin_braced _ _

theorem Member.startAlone_allLines (style : BraceStyle) :
    ∀ ms : List Member, StartAlone (Member.allLines style ms)
  | [] => startAlone_nil
  | [m] => (m.begin_lines style).startAlone
  | m :: _ :: _ => (((m.begin_lines style).append _).append _).startAlone

/-- What stands between two members. -/
theorem startAlone_gap (together : Bool) : StartAlone (if together then [] else [Line.blank]) := by
  cases together
  · exact startAlone_cons startsAlone_blank []
  · exact startAlone_nil

theorem settled_gap (together : Bool) :
    settled style (if together then [] else [Line.blank]) = if together then [] else [.blank] := by
  cases together <;> rfl

theorem settled_memberLines : ∀ ms : List Member,
    settled style (Member.allLines style ms) = Member.allPageLines style ms
  | [] => rfl
  | [_] => rfl
  | m :: n :: ms => by
    have hrest := settled_memberLines (n :: ms)
    have halone := Member.startAlone_allLines style (n :: ms)
    rw [Member.allLines] at hrest halone
    rw [Member.allLines, spacedLines, settled_append _ halone, settled_append _ (startAlone_gap _),
      settled_gap, hrest]
    rfl

/-- The places of a body in a member. -/
inductive Member.BodyOf : (Block → Member) → Prop
  | method (m : Method) : BodyOf fun b => .method { m with body := some b }
  | constructor (c : Constructor) : BodyOf fun b => .constructor { c with body := b }
  | initializer (i : Initializer) : BodyOf fun b => .initializer { i with body := b }

/-- The places of the members of a type, in that type and in a unit. -/
inductive Node.MembersOf : (List Member → Node) → Prop
  | type (t : TypeDeclaration) : MembersOf fun ms => .type { t with members := ms }
  | typeForm (t : TypeDeclaration) : MembersOf fun ms => .typeForm { t with members := ms }
  | unit (u : CompilationUnit) (before : List TypeDeclaration) (t : TypeDeclaration)
      (after : List TypeDeclaration) :
      MembersOf fun ms => .unit { u with types := before ++ { t with members := ms } :: after }

/-- The places of a row of statements in a node, at any depth, with the level of the row. -/
inductive Node.RowOf : Nat → (List Statement → Node) → Prop
  | statement {k n : Nat} {g : List Statement → Statement} {f : List Statement → List Statement}
      (hg : Statement.RowOf k g) (hf : RowIn n f) : RowOf (n + k) fun row => .statement (g (f row))
  | block {n : Nat} {f : List Statement → List Statement} (hf : RowIn n f) (span : Span) :
      RowOf (n + 1) fun row => .block ⟨f row, span⟩
  | member {n : Nat} {g : Block → Member} {f : List Statement → List Statement} (hg : Member.BodyOf g)
      (hf : RowIn n f) (braces : Span) : RowOf (n + 1) fun row => .member (g ⟨f row, braces⟩)
  | memberForm {n : Nat} {g : Block → Member} {f : List Statement → List Statement} (hg : Member.BodyOf g)
      (hf : RowIn n f) (braces : Span) : RowOf (n + 1) fun row => .memberForm (g ⟨f row, braces⟩)
  | members {n : Nat} {h : List Member → Node} {g : Block → Member}
      {f : List Statement → List Statement} (hh : MembersOf h) (before after : List Member)
      (hg : Member.BodyOf g) (hf : RowIn n f) (braces : Span) :
      RowOf (n + 2) fun row => h (before ++ g ⟨f row, braces⟩ :: after)

theorem Member.BodyOf.enclosed {g : Block → Member} (hg : BodyOf g) {f : List Statement → List Statement}
    (hf : RowIn n f) (style : BraceStyle) (braces : Span) : Enclosed (n + 1) (Statement.allLines style)
      fun row => (g ⟨f row, braces⟩).lines style := by
  have hrow := hf.stands style
  cases hg with
  | method m =>
    simp only [Member.lines, Method.lines, Block.lines]
    exact (hrow.braced style _).prepend _
  | constructor c =>
    simp only [Member.lines, Constructor.lines, Block.lines]
    exact (hrow.braced style _).prepend _
  | initializer i =>
    exact hrow.braced style (if i.isStatic then "static" else "")

/-- The place of a member among others, of which it only matters whether it is a field. -/
theorem exists_memberPlace (style : BraceStyle) (isField : Bool) (after : List Member) :
    ∀ before : List Member, ∃ lead behind, StartAlone behind ∧ ∀ m : Member, m.isField = isField →
      Member.allLines style (before ++ m :: after) = lead ++ m.lines style ++ behind
  | [] => by
    cases after with
    | nil => exact ⟨[], [], startAlone_nil, fun m _ => (List.append_nil _).symm⟩
    | cons n after =>
      refine ⟨[], (if isField && n.isField then [] else [Line.blank]) ++ Member.allLines style (n :: after),
        (startAlone_gap _).append (Member.startAlone_allLines style _), fun m hm => ?_⟩
      rw [← hm, List.nil_append, List.nil_append, Member.allLines, spacedLines, List.append_assoc]
      rfl
  | [p] => by
    obtain ⟨lead, behind, halone, heq⟩ := exists_memberPlace style isField after []
    refine ⟨p.lines style ++ (if p.isField && isField then [] else [Line.blank]) ++ lead, behind, halone,
      fun m hm => ?_⟩
    have hm' := heq m hm
    rw [List.nil_append, Member.allLines] at hm'
    rw [List.singleton_append, Member.allLines, spacedLines, hm, hm']
    simp only [List.append_assoc]
  | p :: q :: before => by
    obtain ⟨lead, behind, halone, heq⟩ := exists_memberPlace style isField after (q :: before)
    refine ⟨p.lines style ++ (if p.isField && q.isField then [] else [Line.blank]) ++ lead, behind, halone,
      fun m hm => ?_⟩
    have hm' := heq m hm
    rw [List.cons_append, Member.allLines] at hm'
    rw [List.cons_append, List.cons_append, Member.allLines, spacedLines, hm']
    simp only [List.append_assoc]

theorem Member.BodyOf.stands {g : Block → Member} (hg : BodyOf g) {f : List Statement → List Statement}
    (hf : RowIn n f) (style : BraceStyle) (braces : Span) (before after : List Member) :
    Stands (n + 1) (Statement.allLines style) fun row =>
      Member.allLines style (before ++ g ⟨f row, braces⟩ :: after) := by
  obtain ⟨lead, behind, halone, heq⟩ := exists_memberPlace style false after before
  have hnoField (b : Block) : (g b).isField = false := by cases hg <;> rfl
  simp only [heq _ (hnoField _)]
  exact ((hg.enclosed hf style braces).stands.prepend lead).append halone

/-! ### Types and units -/

theorem separated_append (groups : List (List Line)) (ls : List Line) (rest : List (List Line)) :
    Line.separated (groups ++ ls :: rest) =
      groups.flatMap (· ++ [Line.blank]) ++ ls ++ rest.flatMap (Line.blank :: ·) := by
  have hfirst (ls : List Line) : Line.separated (ls :: rest) = ls ++ rest.flatMap (Line.blank :: ·) := by
    induction rest generalizing ls with
    | nil => simp [Line.separated]
    | cons m rest ih =>
      have hrest := ih m
      rw [Line.separated] at hrest
      rw [Line.separated, List.intercalate_cons_cons, hrest, List.flatMap_cons]
      simp
  induction groups with
  | nil => exact hfirst ls
  | cons g groups ih =>
    obtain ⟨m, more, hmore⟩ : ∃ m more, groups ++ ls :: rest = m :: more :=
      List.exists_cons_of_ne_nil (by simp)
    rw [hmore, Line.separated] at ih
    rw [List.cons_append, hmore, Line.separated, List.intercalate_cons_cons, ih, List.flatMap_cons]
    simp

/-- Members of which there is at least one. -/
abbrev SomeMembers := { ms : List Member // ms ≠ [] }

theorem TypeDeclaration.enclosed (t : TypeDeclaration) (style : BraceStyle) :
    Enclosed 1 (fun ms : SomeMembers => Member.allLines style ms.1)
      fun ms => { t with members := ms.1 }.lines style := by
  have hmembers := stands_self fun ms : SomeMembers => Member.allLines style ms.1
  obtain ⟨modifiers, annotations, name, header, members, span⟩ := t
  cases header with
  | class_ typeParameters superclass interfaces =>
    simp only [TypeDeclaration.lines]
    exact (hmembers.braced style _).prepend _
  | interface_ typeParameters parents =>
    simp only [TypeDeclaration.lines]
    exact (hmembers.braced style _).prepend _
  | enum_ interfaces constants =>
    let lead := (if (constants.map (·.render)).isEmpty then [.plain ";"]
      else constantLines ";" (constants.map (·.render))) ++ [Line.blank]
    have hconstants (ms : SomeMembers) : enumLines (constants.map (·.render)) (Member.allLines style ms.1)
        (!ms.1.isEmpty) = lead ++ Member.allLines style ms.1 := by
      obtain ⟨m, more, hmore⟩ := List.exists_cons_of_ne_nil ms.2
      simp [enumLines, hmore, lead]
    simp only [TypeDeclaration.lines, hconstants]
    exact ((hmembers.prepend lead).braced style _).prepend _

/-- Where members stand in a node, they stand on the lines of the node one level further in. -/
theorem Node.MembersOf.stands {h : List Member → Node} (hh : MembersOf h) (style : BraceStyle) :
    ∃ outer : SomeMembers → List Line, (∀ ms, (h ms.1).lines? style = some (outer ms)) ∧
      Stands 1 (fun ms => Member.allLines style ms.1) outer := by
  cases hh with
  | type t => exact ⟨_, fun _ => rfl, (t.enclosed style).stands⟩
  | typeForm t => exact ⟨_, fun _ => rfl, (t.enclosed style).stands⟩
  | unit u before t after =>
    refine ⟨_, fun _ => rfl, ?_⟩
    have halone : StartAlone ((after.map (·.lines style)).flatMap (Line.blank :: ·)) := by
      cases after with
      | nil => exact startAlone_nil
      | cons _ _ => exact startAlone_cons startsAlone_blank _
    simp only [CompilationUnit.lines, unitLines, List.map_append, List.map_cons, ← List.append_assoc,
      separated_append]
    exact ((t.enclosed style).stands.prepend _).append halone

/-- Where a row of statements stands in a node, it stands on the lines of the node. -/
theorem Node.RowOf.stands {f : List Statement → Node} (hf : RowOf k f) (style : BraceStyle) :
    ∃ outer, (∀ row, (f row).lines? style = some (outer row)) ∧
      Stands k (Statement.allLines style) outer := by
  cases hf with
  | statement hg hf => exact ⟨_, fun _ => rfl, (hg.enclosed style .row).stands.trans (hf.stands style)⟩
  | block hf span =>
    refine ⟨_, fun _ => rfl, ?_⟩
    simp only [Block.lines]
    exact ((hf.stands style).braced style "").stands
  | member hg hf braces => exact ⟨_, fun _ => rfl, (hg.enclosed hf style braces).stands⟩
  | memberForm hg hf braces => exact ⟨_, fun _ => rfl, (hg.enclosed hf style braces).stands⟩
  | @members n h g f hh before after hg hf braces =>
    obtain ⟨outer, houter, hstands⟩ := hh.stands style
    let place (row : List Statement) : SomeMembers := ⟨before ++ g ⟨f row, braces⟩ :: after, by simp⟩
    have htrans : Stands (n + 2) (Statement.allLines style) fun row => outer (place row) :=
      hstands.trans (hg.stands hf style braces before after)
    exact ⟨_, fun row => houter (place row), htrans⟩

end Members

/-! ### Pages of nodes -/

section Pages

variable {layout : Layout} (style : BraceStyle)

/-- Where members stand in a node, each of them has on its page the lines that it has alone. -/
theorem Node.MembersOf.pageLines {h : List Member → Node} (hh : MembersOf h) :
    ∃ before after, ∀ ms ≠ [], (h ms).pageLines? style =
      some (before ++ (Member.allPageLines style ms).map (shift 1) ++ after) := by
  obtain ⟨outer, houter, hstands⟩ := hh.stands style
  obtain ⟨before, after, heq⟩ := hstands.settled (fun ms => Member.startAlone_allLines style ms.1) style
  refine ⟨before, after, fun ms hms => ?_⟩
  rw [pageLines?, houter ⟨ms, hms⟩, Option.map_some, heq, settled_memberLines]

/-- Where a row of statements stands in a node, each of them has on its page the lines that it has
alone. -/
theorem Node.RowOf.pageLines {k : Nat} {f : List Statement → Node} (hf : RowOf k f) :
    ∃ before after, ∀ row, (f row).pageLines? style =
      some (before ++ (row.flatMap (·.pageLines style)).map (shift k) ++ after) := by
  obtain ⟨outer, houter, hstands⟩ := hf.stands style
  obtain ⟨before, after, heq⟩ := hstands.settled (fun row => Statement.startAlone_allLines style row) style
  refine ⟨before, after, fun row => ?_⟩
  rw [pageLines?, houter, Option.map_some, heq, settled_allLines]

/-- Every body of a member has a place in it. -/
theorem Member.exists_bodyOf {m : Member} {b : Block} (h : m.body? = some b) :
    ∃ g, BodyOf g ∧ g b = m := by
  cases m with
  | field f => cases h
  | method m =>
    obtain ⟨modifiers, annotations, typeParameters, returnType, name, parameters, throws, body, span⟩ := m
    obtain rfl : body = some b := h
    exact ⟨_, .method ⟨modifiers, annotations, typeParameters, returnType, name, parameters, throws,
      none, span⟩, rfl⟩
  | constructor c =>
    obtain rfl := Option.some.inj h
    exact ⟨_, .constructor c, rfl⟩
  | initializer i =>
    obtain rfl := Option.some.inj h
    exact ⟨_, .initializer i, rfl⟩

theorem Node.render_eq (hnewline : Layout.isNewline layout.newline = true) {n : Node}
    (hinline : n.isInline = false) :
    n.render? layout = (n.pageLines? layout.braceStyle).map (renderAll layout) := by
  cases n with
  | parameter | annotationUse | typeUse | excerpt => cases hinline
  | declaration | declarator | catchClause | switchCase => rfl
  | unit | package | import_ | type | typeForm | enumConstant | member | memberForm | block | statement =>
    exact congrArg some (Page.render_eq hnewline _)

/-- How a layout has nodes printed line by line. -/
structure PrintsLines (layout : Layout) : Prop where
  /-- The text of a node is that of its lines, which depend on the node and the brace style. -/
  nodes : ∀ n : Node, n.isInline = false →
    n.render? layout = (n.pageLines? layout.braceStyle).map (renderAll layout)
  units : ∀ u : UnitSummary, (u.skeleton layout).text =
    renderAll layout (settled layout.braceStyle (u.lines layout.braceStyle))
  types : ∀ t : TypeSummary, (t.skeleton layout).text =
    renderAll layout (settled layout.braceStyle (t.lines layout.braceStyle))
  members : ∀ m : MemberSummary, (m.skeleton layout).text =
    renderAll layout (settled layout.braceStyle (m.lines layout.braceStyle false))
  /-- A line that goes on with the one before takes the place of its newline, and of nothing else. -/
  joining : ∀ (ls : List Line) (level : Nat) (content : String), layout.braceStyle = .sameLine →
    (ls.foldl (Page.write layout) []).endsInBrace layout = true →
    ∃ pls last, settled layout.braceStyle ls = pls ++ [last] ∧ last.endsInBrace = true ∧
      Page.render layout ls = renderAll layout pls ++ last.written layout ++ layout.newline ∧
      Page.render layout (ls ++ [.text level content true]) =
        renderAll layout pls ++ last.written layout ++ " " ++ content ++ layout.newline
  /-- Any other line is written behind those before it. -/
  alone : ∀ (ls : List Line) (level : Nat) (content : String) (joins : Bool),
    ¬ (joins = true ∧ layout.braceStyle = .sameLine ∧
      (ls.foldl (Page.write layout) []).endsInBrace layout = true) →
    Page.render layout (ls ++ [.text level content joins]) =
      Page.render layout ls ++ (PageLine.text level content).render layout
  /-- The members of a type have the lines that they have alone, one level further in. -/
  bodies : ∀ h, Node.MembersOf h → ∃ before after, ∀ ms ≠ [], (h ms).pageLines? layout.braceStyle =
    some (before ++ (Member.allPageLines layout.braceStyle ms).map (shift 1) ++ after)
  /-- The statements of a row have the lines that they have alone, as far in as the row is. -/
  rows : ∀ level f, Node.RowOf level f → ∃ before after, ∀ row, (f row).pageLines? layout.braceStyle =
    some (before ++ (row.flatMap (·.pageLines layout.braceStyle)).map (shift level) ++ after)

/-- Whatever the layout, as long as its lines end in a newline, each node is printed line by line. The
places of rows are all there are: one for every body of a member, and in a block one for every row of a
statement that lies somewhere in it. -/
theorem printsLines (hnewline : Layout.isNewline layout.newline = true) : PrintsLines layout ∧
    (∀ (m : Member) (b : Block), m.body? = some b → ∃ g, Member.BodyOf g ∧ g b = m) ∧
    ∀ (b : Block) (s : Statement), b.Contains s →
      ∀ row ∈ s.rows, ∃ n f, RowIn n f ∧ f row = b.statements where
  left :=
    { nodes := fun _ => Node.render_eq hnewline
      units := fun _ => Page.render_eq hnewline _
      types := fun _ => Page.render_eq hnewline _
      members := fun _ => Page.render_eq hnewline _
      joining := fun _ level content hstyle hbrace =>
        Page.newline_taken_back hnewline hstyle hbrace level content
      alone := fun ls level content joins h => by
        rw [Page.render, Page.render, List.foldl_append, List.foldl_cons, List.foldl_nil,
          Page.write_alone _ _ _ h, Page.text_put, Page.text_put, String.append_assoc]
        rfl
      bodies := fun _ h => h.pageLines _
      rows := fun _ _ h => h.pageLines _ }
  right := ⟨fun _ _ => Member.exists_bodyOf, fun _ _ hs _ => Block.exists_rowIn hs⟩

/-- Lines that end in a carriage return and a line feed, indented with tabs. -/
theorem printsLines_crlf : Layout.isNewline "\r\n" = true ∧ PrintsLines ⟨4, true, "\r\n", .sameLine⟩ :=
  ⟨by decide, (printsLines (by decide)).1⟩

end Pages

end JavaTree
