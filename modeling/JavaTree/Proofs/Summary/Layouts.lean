import JavaTree.Proofs.Token.Recovered
import JavaTree.Proofs.Token.Respaced
import JavaTree.Summary.Skeleton

/-!
Skeletons in another layout.

The lines of a skeleton are the same in all layouts, but for the opening braces, which may stand on lines
of their own. So two skeletons of a unit have the same passages and other blanks between them.
-/

namespace JavaTree

/-- Lines, and the same lines with the opening braces where a style puts them. No line asks to go on with
the line before. -/
inductive Rebraced (style : BraceStyle) : List Line → List Line → Prop
  | nil : Rebraced style [] []
  | blank {ls ms : List Line} (h : Rebraced style ls ms) : Rebraced style (.blank :: ls) (.blank :: ms)
  | text (level : Nat) (content : String) {ls ms : List Line} (h : Rebraced style ls ms) :
      Rebraced style (.text level content false :: ls) (.text level content false :: ms)
  | brace (level : Nat) (header : String) {ls ms : List Line} (hstyle : style = .nextLine)
      (h : Rebraced style ls ms) :
      Rebraced style (.text level (header ++ " \x7b") false :: ls)
        (.text level header false :: .text level "\x7b" false :: ms)

namespace Rebraced

variable {style : BraceStyle} {ls ms ls' ms' : List Line}

theorem append (h : Rebraced style ls ms) (h' : Rebraced style ls' ms') :
    Rebraced style (ls ++ ls') (ms ++ ms') := by
  induction h with
  | nil => exact h'
  | blank _ ih => exact .blank ih
  | text level content _ ih => exact .text level content ih
  | brace level header hstyle _ ih => exact .brace level header hstyle ih

theorem indentAll (h : Rebraced style ls ms) : Rebraced style (Line.indentAll ls) (Line.indentAll ms) := by
  induction h with
  | nil => exact .nil
  | blank _ ih => exact .blank ih
  | text level content _ ih => exact .text (level + 1) content ih
  | brace level header hstyle _ ih => exact .brace (level + 1) header hstyle ih

theorem plain (content : String) : Rebraced style [.plain content] [.plain content] := .text 0 content .nil

theorem plains (texts : List String) : Rebraced style (texts.map .plain) (texts.map .plain) := by
  induction texts with
  | nil => exact .nil
  | cons s texts ih => exact .text 0 s ih

theorem braced (header : String) (h : Rebraced style ls ms) :
    Rebraced style (Line.braced .sameLine header ls) (Line.braced style header ms) := by
  have hinner := h.indentAll.append (plain "\x7d")
  rw [Line.braced.eq_def, Line.braced.eq_def, List.append_assoc, List.append_assoc]
  by_cases hheader : header = ""
  · rw [if_pos hheader, if_pos hheader]
    exact (plain "\x7b").append hinner
  · rw [if_neg hheader, if_neg hheader]
    cases hs : style with
    | sameLine => exact .text 0 _ (hs ▸ hinner)
    | nextLine => exact .brace 0 header rfl (hs ▸ hinner)

theorem spacedLines {α : Type} {isField : α → Bool} {f g : α → List Line}
    (h : ∀ a, Rebraced style (f a) (g a)) (as : List α) :
    Rebraced style (JavaTree.spacedLines isField f as) (JavaTree.spacedLines isField g as) := by
  induction as with
  | nil => exact .nil
  | cons a as ih =>
    cases as with
    | nil => exact h a
    | cons b as =>
      rw [JavaTree.spacedLines, JavaTree.spacedLines]
      refine (append (h a) ?_).append ih
      split
      · exact .nil
      · exact .blank .nil

theorem constantLines (last : String) (cs : List String) :
    Rebraced style (JavaTree.constantLines last cs) (JavaTree.constantLines last cs) := by
  induction cs with
  | nil => exact .nil
  | cons c cs ih =>
    cases cs with
    | nil => exact plain _
    | cons d cs => exact .text 0 _ ih

theorem enumLines (cs : List String) (h : Rebraced style ls ms) (b : Bool) :
    Rebraced style (JavaTree.enumLines cs ls b) (JavaTree.enumLines cs ms b) := by
  rw [JavaTree.enumLines, JavaTree.enumLines]
  split
  · refine append ?_ (.blank h)
    split
    · exact plain _
    · exact constantLines _ _
  · exact constantLines _ _

/-- Groups of lines with blank lines between them. -/
theorem separated {gs gs' : List (List Line)} (h : List.Forall₂ (Rebraced style) gs gs') :
    Rebraced style (Line.separated gs) (Line.separated gs') := by
  induction h with
  | nil => exact .nil
  | @cons g g' gs gs' hg hgs ih =>
    cases hgs with
    | nil => simpa [Line.separated] using hg
    | cons hg' hgs =>
      rw [Line.separated, Line.separated, List.intercalate_cons_cons, List.intercalate_cons_cons]
      exact (hg.append (.blank .nil)).append ih

end Rebraced

/-! ### Skeletons -/

section Skeleton

variable (style : BraceStyle)

theorem MemberSummary.rebraced (inInterface : Bool) (m : MemberSummary) :
    Rebraced style (m.lines .sameLine inInterface) (m.lines style inInterface) := by
  have hcallable (returnType : Option String) : Rebraced style
      (m.callableLines .sameLine inInterface returnType) (m.callableLines style inInterface returnType) := by
    simp only [callableLines]
    split
    · exact .plain _
    · refine .braced _ (.text 0 _ ?_)
      cases returnType.bind defaultReturn?
      · exact .nil
      · exact .plain _
  unfold MemberSummary.lines
  split
  · exact .plain _
  · exact hcallable _
  · exact hcallable _
  · exact .plain _

theorem TypeSummary.rebraced (t : TypeSummary) : Rebraced style (t.lines .sameLine) (t.lines style) := by
  have hmembers (inInterface : Bool) : Rebraced style (MemberSummary.allLines .sameLine inInterface t.members)
      (MemberSummary.allLines style inInterface t.members) :=
    .spacedLines (fun m => m.rebraced style inInterface) t.members
  unfold TypeSummary.lines
  simp only
  split
  · exact .braced _ (hmembers false)
  · exact .braced _ (hmembers true)
  · exact .braced _ (.enumLines _ (hmembers false) _)
  · exact .plain _

theorem UnitSummary.rebraced (u : UnitSummary) : Rebraced style (u.lines .sameLine) (u.lines style) := by
  refine .separated (List.rel_append (List.rel_append ?_ ?_) ?_)
  · cases u.package
    · exact .nil
    · exact .cons (.plain _) .nil
  · split
    · exact .nil
    · have himports := @Rebraced.plains style
        (u.imports.map fun i => importText i.name i.isStatic i.isWildcard)
      rw [List.map_map] at himports
      exact .cons himports .nil
  · rw [List.forall₂_map_left_iff, List.forall₂_map_right_iff, List.forall₂_same]
    exact fun t _ => t.rebraced style

end Skeleton

/-! ### Pages -/

/-- A line that does not ask to go on with the line before. -/
def Line.StartsAlone : Line → Prop
  | blank => True
  | text _ _ joins => joins = false

namespace Page

/-- The characters of a line that does not go on with the line before. -/
def chars (layout : Layout) : Line → List Char
  | .blank => layout.newline.toList
  | .text level content _ =>
    (String.join (List.replicate level layout.indentUnit)).toList ++ (content.toList ++ layout.newline.toList)

theorem toList_render {layout : Layout} {ls : List Line} (h : ∀ l ∈ ls, l.StartsAlone) :
    (Page.render layout ls).toList = ls.flatMap (chars layout) := by
  have hfold (page : Page) : (ls.foldl (write layout) page).reverse =
      page.reverse ++ ls.flatMap (chars layout) := by
    induction ls generalizing page with
    | nil => simp
    | cons l ls ih =>
      rw [List.foldl_cons, ih fun l hl => h l (List.mem_cons_of_mem _ hl), List.flatMap_cons,
        ← List.append_assoc]
      congr 1
      have hl := h l List.mem_cons_self
      rcases l with _ | ⟨level, content, joins⟩
      · simp [write, put, chars]
      · obtain rfl : joins = false := hl
        simp [write, put, chars]
  rw [Page.render, Page.text, String.toList_ofList, hfold]
  rfl

end Page

namespace Rebraced

variable {style : BraceStyle} {ls ms : List Line}

/-- No line asks to go on with the line before. -/
theorem starts (h : Rebraced style ls ms) : (∀ l ∈ ls, l.StartsAlone) ∧ ∀ l ∈ ms, l.StartsAlone := by
  induction h with
  | nil => exact ⟨nofun, nofun⟩
  | blank _ ih => exact ⟨List.forall_mem_cons.mpr ⟨trivial, ih.1⟩, List.forall_mem_cons.mpr ⟨trivial, ih.2⟩⟩
  | text _ _ _ ih => exact ⟨List.forall_mem_cons.mpr ⟨rfl, ih.1⟩, List.forall_mem_cons.mpr ⟨rfl, ih.2⟩⟩
  | brace _ _ _ _ ih =>
    exact ⟨List.forall_mem_cons.mpr ⟨rfl, ih.1⟩,
      List.forall_mem_cons.mpr ⟨rfl, List.forall_mem_cons.mpr ⟨rfl, ih.2⟩⟩⟩

/-- The pages of two layouts have the same passages and other blanks between them. -/
theorem respaced {layout : Layout} (hlayout : layout.problem? = none)
    (h : Rebraced layout.braceStyle ls ms) : ∃ pad pad' a b, ls.flatMap (Page.chars {}) = pad ++ a ∧
      ms.flatMap (Page.chars layout) = pad' ++ b ∧ pad.all Pattern.isBlank = true ∧
      pad'.all Pattern.isBlank = true ∧ Respaced layout a b := by
  obtain ⟨hnl, -⟩ := newline_blank hlayout
  induction h with
  | nil => exact ⟨[], [], [], [], rfl, rfl, rfl, rfl, .done⟩
  | blank _ ih =>
    obtain ⟨pad, pad', a, b, hls, hms, hpad, hpad', h⟩ := ih
    refine ⟨'\n' :: pad, layout.newline.toList ++ pad', a, b, ?_, ?_, hpad, ?_, h⟩
    · rw [List.flatMap_cons, hls]
      rfl
    · rw [List.flatMap_cons, hms, List.append_assoc]
      rfl
    · rw [List.all_append, hnl, hpad']
      rfl
  | text level content _ ih =>
    obtain ⟨pad, pad', a, b, hls, hms, hpad, hpad', h⟩ := ih
    refine ⟨_, _, _, _, ?_, ?_, indent_blank {} level, indent_blank layout level,
      (Respaced.line hpad hpad' h).passage content.toList⟩
    · rw [List.flatMap_cons, hls, Page.chars, List.append_assoc, List.append_assoc]
      rfl
    · rw [List.flatMap_cons, hms, Page.chars, List.append_assoc, List.append_assoc]
  | brace level header hstyle _ ih =>
    obtain ⟨pad, pad', a, b, hls, hms, hpad, hpad', h⟩ := ih
    have hbrace := (Respaced.line hpad hpad' h).passage ['\x7b']
    refine ⟨_, _, _, _, ?_, ?_, indent_blank {} level, indent_blank layout level,
      (Respaced.brace hstyle (indent_blank layout level) hbrace).passage header.toList⟩
    · rw [List.flatMap_cons, hls, Page.chars, String.toList_append]
      simp only [List.append_assoc]
      rfl
    · rw [List.flatMap_cons, List.flatMap_cons, hms, Page.chars, Page.chars]
      simp only [List.append_assoc]
      rfl

end Rebraced

/-! ### Words -/

/-- A skeleton that is read without faults has the same words in every layout, if all its comments that
reach to the end of their line end there in that layout, too: those of stubs do if lines do not end in
`\r` alone. -/
theorem UnitSummary.tokenize_skeleton {u : UnitSummary} {layout : Layout} (hlayout : layout.problem? = none)
    {ts : List Token} (h : Lexer.tokenize (u.skeleton {}).text = .ok ts)
    (hcomments : ∀ t, .token t ∈ Lexer.items (u.skeleton {}).text → t.kind = .lineComment →
      layout.EndsComment t.lexeme.toList) :
    ∃ us, Lexer.tokenize (u.skeleton layout).text = .ok us ∧ us.map Token.word = ts.map Token.word := by
  have hlines := u.rebraced layout.braceStyle
  obtain ⟨pad, pad', a, b, hls, hms, hpad, hpad', hrespaced⟩ := hlines.respaced hlayout
  rw [← @Page.toList_render {} _ hlines.starts.1] at hls
  rw [← @Page.toList_render layout _ hlines.starts.2] at hms
  exact Lexer.tokenize_respaced hlayout hls hms hpad hpad' hrespaced h hcomments

theorem UnitSummary.tokenize_skeleton_tabs :
    let u : UnitSummary := ⟨none, [], [⟨.class_, "A", [], none, [], [], [],
      [⟨.method, "f", [], some "int", none, [], []⟩]⟩]⟩
    let layout : Layout := { useTabs := true, newline := "\r\n", braceStyle := .nextLine }
    (CompilationUnit.parse "class A \x7b int f() \x7b \x7d \x7d" {}).unit.summary = u ∧
      ∃ ts us, Lexer.tokenize (u.skeleton {}).text = .ok ts ∧ Lexer.tokenize (u.skeleton layout).text = .ok us ∧
        us.map Token.word = ts.map Token.word := by
  intro u layout
  have hitems : (Lexer.items (u.skeleton {}).text).all (fun i => i.casesOn
      (fun t => t.kind != .lineComment || t.lexeme.toList.getLast? == some 'y') fun _ => false) = true := by
    decide +kernel
  have hfaults : Lexer.faults (u.skeleton {}).text = [] := by
    rw [Lexer.faults, List.filterMap_eq_nil_iff]
    rintro (t | f) hi
    · rfl
    · cases List.all_eq_true.mp hitems _ hi
  have hends (t : Token) (ht : .token t ∈ Lexer.items (u.skeleton {}).text) (hk : t.kind = .lineComment) :
      layout.EndsComment t.lexeme.toList := by
    have hlast := List.all_eq_true.mp hitems _ ht
    have hlast : t.lexeme.toList.getLast? = some 'y' := by simpa [hk] using hlast
    exact ⟨by decide, fun _ => by rw [hlast]; decide⟩
  have hts := Lexer.tokenize_eq_ok.mpr ⟨hfaults, rfl⟩
  obtain ⟨us, hus, hwords⟩ := @UnitSummary.tokenize_skeleton u layout (by decide) _ hts hends
  exact ⟨by decide +kernel, _, us, hts, hus, hwords⟩

/-- With `\r` alone for a newline, the comment of a stub runs over the rest of the text. -/
theorem UnitSummary.tokenize_skeleton_return :
    let u : UnitSummary := ⟨none, [], [⟨.class_, "A", [], none, [], [], [],
      [⟨.method, "f", [], some "void", none, [], []⟩]⟩]⟩
    let layout : Layout := { newline := "\r" }
    (CompilationUnit.parse "class A \x7b void f() \x7b \x7d \x7d" {}).unit.summary = u ∧
      layout.problem? = none ∧ ∃ ts, Lexer.tokenize (u.skeleton {}).text = .ok ts ∧
        ¬ ∃ us, Lexer.tokenize (u.skeleton layout).text = .ok us ∧ us.map Token.word = ts.map Token.word := by
  intro u layout
  have hcount : Lexer.faults (u.skeleton {}).text = [] ∧
      ((Lexer.items (u.skeleton {}).text).filterMap Lexer.Item.token?).length = 10 ∧
      ((Lexer.items (u.skeleton layout).text).filterMap Lexer.Item.token?).length = 8 := by decide +kernel
  obtain ⟨hfaults, hstandard, hreturn⟩ := hcount
  refine ⟨by decide +kernel, by decide, _, Lexer.tokenize_eq_ok.mpr ⟨hfaults, rfl⟩, ?_⟩
  rintro ⟨us, hus, hwords⟩
  obtain ⟨-, rfl⟩ := Lexer.tokenize_eq_ok.mp hus
  have hlength := congrArg List.length hwords
  rw [List.length_map, List.length_map, List.length_append, List.length_append, hstandard, hreturn] at hlength
  cases hlength

end JavaTree
