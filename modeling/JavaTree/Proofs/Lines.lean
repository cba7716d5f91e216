import JavaTree.Page
import JavaTree.Proofs.Token.Spelling

/-!
What lines of text spell on a page.

How far a line is indented and whether it goes on with the line before does not change what the page
spells: there are blanks between two lines in any case. Only a line that ends in a closing brace can
have another one behind it, with a space between them; every other line ends with a newline.
-/

namespace JavaTree

/-- A line spells words, with a newline behind it and, if it ends in a closing brace, also with a
space behind it. -/
structure LineWrites (layout : Layout) (content : String) (ws : List Word) : Prop where
  nonempty : content ≠ ""
  newline : ∀ r vs, Spells r vs → Spells (content.toList ++ (layout.newline.toList ++ r)) (ws ++ vs)
  space : content.toList.getLast? = some '}' →
    ∀ r vs, Spells r vs → Spells (content.toList ++ ' ' :: r) (ws ++ vs)

/-- Lines spell the words of each of them, one after another. -/
inductive LinesWrite (layout : Layout) : List Line → List Word → Prop
  | nil : LinesWrite layout [] []
  | blank {ls : List Line} {ws : List Word} (h : LinesWrite layout ls ws) :
      LinesWrite layout (.blank :: ls) ws
  | text (level : Nat) (joins : Bool) {content : String} {ls : List Line} {ws vs : List Word}
      (hline : LineWrites layout content ws) (h : LinesWrite layout ls vs) :
      LinesWrite layout (.text level content joins :: ls) (ws ++ vs)

namespace LinesWrite

variable {layout : Layout}

theorem append {ls ms : List Line} {ws vs : List Word} (hl : LinesWrite layout ls ws)
    (hm : LinesWrite layout ms vs) : LinesWrite layout (ls ++ ms) (ws ++ vs) := by
  induction hl with
  | nil => exact hm
  | blank _ ih => exact .blank ih
  | text level joins hline _ ih =>
    rw [List.append_assoc]
    exact .text level joins hline ih

theorem indentAll {ls : List Line} {ws : List Word} (h : LinesWrite layout ls ws) :
    LinesWrite layout (Line.indentAll ls) ws := by
  induction h with
  | nil => exact .nil
  | blank _ ih => exact .blank ih
  | text level joins hline _ ih => exact .text (level + 1) joins hline ih

theorem joinFirst {ls : List Line} {ws : List Word} (h : LinesWrite layout ls ws) :
    LinesWrite layout (Line.joinFirst ls) ws := by
  cases h with
  | nil => exact .nil
  | blank h => exact .blank h
  | text level joins hline h => exact .text level true hline h

theorem plain {content : String} {ws : List Word} (h : LineWrites layout content ws) :
    LinesWrite layout [.plain content] ws := by
  have hline := LinesWrite.text 0 false h .nil
  rwa [List.append_nil] at hline

end LinesWrite

/-- The newlines of a layout that has no problem. -/
theorem newline_cases {layout : Layout} (h : layout.problem? = none) :
    layout.newline = "\n" ∨ layout.newline = "\r\n" ∨ layout.newline = "\r" := by
  simp only [Layout.problem?] at h
  split at h
  · cases h
  · next hn =>
    simp only [Layout.isNewline, Bool.not_eq_true', Bool.not_eq_false, Bool.or_eq_true,
      decide_eq_true_eq, or_assoc] at hn
    exact hn

theorem newline_blank {layout : Layout} (h : layout.problem? = none) :
    layout.newline.toList.all Pattern.isBlank = true ∧ layout.newline.toList ≠ [] := by
  rcases newline_cases h with h | h | h <;> rw [h] <;> decide

theorem indentUnit_blank (layout : Layout) : layout.indentUnit.toList.all Pattern.isBlank = true := by
  unfold Layout.indentUnit
  split
  · decide
  · simp only [String.toList_ofList, List.all_replicate]
    split <;> rfl

theorem indent_blank (layout : Layout) (level : Nat) :
    (String.join (List.replicate level layout.indentUnit)).toList.all Pattern.isBlank = true := by
  induction level with
  | zero => rfl
  | succ level ih =>
    rw [List.replicate_succ, String.join_cons, String.toList_append, List.all_append, ih,
      indentUnit_blank]
    rfl

/-- A piece of text that may have a separator behind it makes a line. -/
theorem Writes.line {layout : Layout} (hlayout : layout.problem? = none) {content : String}
    {ws : List Word} (h : Writes content ws Separated) (hne : content ≠ "") :
    LineWrites layout content ws := by
  obtain ⟨hblank, hnl⟩ := newline_blank hlayout
  obtain ⟨c, cs, hcs⟩ := List.exists_cons_of_ne_nil hnl
  refine ⟨hne, fun r vs hr => h _ vs ?_ ?_, fun _ r vs hr => h _ vs ?_ (.blank rfl hr)⟩
  · rw [hcs] at hblank ⊢
    rintro d hd
    cases hd
    simp only [List.all_cons, Bool.and_eq_true] at hblank
    simp [Pattern.isSeparator, hblank.1]
  · exact Writes.blanks hblank Anything r vs trivial hr
  · rintro d hd
    cases hd
    rfl

namespace Page

/-- What has been written spells words: the next line may come behind it, or go on with its last
line if that ends in a closing brace. -/
structure Holds (layout : Layout) (page : Page) (ws : List Word) : Prop where
  next : ∀ r vs, Spells r vs → Spells (page.reverse ++ r) (ws ++ vs)
  joined : page.endsInBrace layout = true → ∀ r vs, Spells r vs →
    Spells ((page.drop layout.newline.length).reverse ++ ' ' :: r) (ws ++ vs)
  blank : ∀ c ∈ page.head?, Pattern.isBlank c = true

/-- The last line ends in a closing brace when its last character is one. -/
theorem endsInBrace_put {layout : Layout} {page : Page} :
    (page.put layout.newline).endsInBrace layout = (page.head? == some '}') := by
  have hbrace : ("\x7d" ++ layout.newline).toList.reverse =
      layout.newline.toList.reverse ++ ['}'] := by
    rw [String.toList_append, List.reverse_append]
    rfl
  have hpre (l m : List Char) : (l ++ ['}']).isPrefixOf (l ++ m) = (m.head? == some '}') := by
    induction l with
    | nil => cases m <;> simp [List.isPrefixOf, Bool.beq_comm]
    | cons c l ih => simpa [List.isPrefixOf] using ih
  rw [endsInBrace, hbrace, put, hpre]

theorem drop_put {layout : Layout} (page : Page) :
    (page.put layout.newline).drop layout.newline.length = page := by
  rw [put, List.drop_left']
  rw [List.length_reverse, String.length_toList]

theorem head_put {layout : Layout} (hlayout : layout.problem? = none) (page : Page) :
    ∀ c ∈ (page.put layout.newline).head?, Pattern.isBlank c = true := by
  rcases newline_cases hlayout with h | h | h <;> rw [put, h] <;> rintro c hc <;> cases hc <;> rfl

theorem holds_nil {layout : Layout} (hlayout : layout.problem? = none) : Holds layout [] [] := by
  refine ⟨fun _ _ hr => hr, fun hbrace => ?_, nofun⟩
  rcases newline_cases hlayout with h | h | h <;> rw [endsInBrace, h] at hbrace <;> cases hbrace

/-- A blank line holds nothing. -/
theorem Holds.blankLine {layout : Layout} (hlayout : layout.problem? = none) {page : Page}
    {ws : List Word} (h : Holds layout page ws) : Holds layout (page.write layout .blank) ws := by
  refine ⟨fun r vs hr => ?_, fun hbrace => ?_, head_put hlayout page⟩
  · rw [write, put, List.reverse_append, List.reverse_reverse, List.append_assoc]
    exact h.next _ vs (Writes.blanks (newline_blank hlayout).1 Anything r vs trivial hr)
  · rw [write, endsInBrace_put, beq_iff_eq] at hbrace
    have hblank := h.blank '}' hbrace
    cases hblank

/-- The place where a line starts, behind the page so far. -/
theorem Holds.start {layout : Layout} {page : Page} {ws : List Word} (h : Holds layout page ws)
    (level : Nat) (joins : Bool) : ∀ r vs, Spells r vs → Spells
      ((if joins && layout.braceStyle = .sameLine && page.endsInBrace layout then
          Page.put (page.drop layout.newline.length) " "
        else page.put (String.join (List.replicate level layout.indentUnit))).reverse ++ r)
      (ws ++ vs) := by
  intro r vs hr
  split
  · next hjoins =>
    simp only [Bool.and_eq_true] at hjoins
    rw [put, List.reverse_append, List.append_assoc]
    exact h.joined hjoins.2 r vs hr
  · rw [put, List.reverse_append, List.reverse_reverse, List.append_assoc]
    exact h.next _ vs (Writes.blanks (indent_blank layout level) Anything r vs trivial hr)

/-- A line of text holds its words. -/
theorem Holds.textLine {layout : Layout} (hlayout : layout.problem? = none) {page : Page}
    {ws vs : List Word} {content : String} (h : Holds layout page ws)
    (hline : LineWrites layout content vs) (level : Nat) (joins : Bool) :
    Holds layout (page.write layout (.text level content joins)) (ws ++ vs) := by
  have hstart := h.start level joins
  simp only [write]
  generalize (if joins && layout.braceStyle = .sameLine && page.endsInBrace layout then
    Page.put (page.drop layout.newline.length) " "
    else page.put (String.join (List.replicate level layout.indentUnit))) = start at hstart ⊢
  refine ⟨fun r us hr => ?_, fun hbrace r us hr => ?_, head_put hlayout _⟩
  · have hspells := hstart _ _ (hline.newline r us hr)
    simp only [put, List.reverse_append, List.reverse_reverse, List.append_assoc]
    exact hspells
  · rw [endsInBrace_put, beq_iff_eq, put] at hbrace
    have hlast : content.toList.getLast? = some '}' := by
      have hne : content.toList ≠ [] := fun hnil => hline.nonempty (String.toList_eq_nil_iff.mp hnil)
      rw [List.head?_append, List.head?_reverse, List.getLast?_eq_some_getLast hne] at hbrace
      rw [List.getLast?_eq_some_getLast hne]
      exact hbrace
    have hspells := hstart _ _ (hline.space hlast r us hr)
    rw [drop_put]
    simp only [put, List.reverse_append, List.reverse_reverse, List.append_assoc]
    exact hspells

theorem Holds.lines {layout : Layout} (hlayout : layout.problem? = none) {page : Page}
    {ws vs : List Word} {ls : List Line} (h : Holds layout page ws) (hls : LinesWrite layout ls vs) :
    Holds layout (ls.foldl (write layout) page) (ws ++ vs) := by
  induction hls generalizing page ws with
  | nil => rwa [List.append_nil]
  | blank _ ih => exact ih (h.blankLine hlayout)
  | text level joins hline _ ih =>
    rw [← List.append_assoc]
    exact ih (h.textLine hlayout hline level joins)

/-- A page spells the words of its lines, whatever the layout. -/
theorem spells_render {layout : Layout} (hlayout : layout.problem? = none) {ls : List Line}
    {ws : List Word} (h : LinesWrite layout ls ws) : Spells (render layout ls).toList ws := by
  have hspells := ((holds_nil hlayout).lines hlayout h).next [] [] .done
  rw [List.append_nil, List.append_nil, List.nil_append] at hspells
  rw [render, text, String.toList_ofList]
  exact hspells

end Page

end JavaTree
