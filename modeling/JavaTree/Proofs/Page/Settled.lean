import JavaTree.Proofs.Lines
import JavaTree.Proofs.Summary.Layouts

/-!
The lines of a page, settled one by one.

A page is written by editing its text: a line that asks for it goes on with the line before, whose
newline is cut off again, if the text so far ends in a closing brace and a newline. `settle` decides the
same on the list of lines alone, by the last line and the brace style. The text of the page is then the
text of the settled lines, one after another, each with its indentation and its newline.

    lines asked for             settled lines
    0 "if (a) {"                0 "if (a) {"
    1 "f();"                    1 "f();"
    0 "}"                       0 "} else {"
    0 "else {"  joins           1 "g();"
    1 "g();"                    0 "}"
    0 "}"
-/

namespace JavaTree

/-- A line as it stands on a page. -/
inductive PageLine where
  | blank
  | text (level : Nat) (content : String)
  deriving DecidableEq

namespace PageLine

/-- A line with its indentation. A blank line has none. -/
def written (layout : Layout) : PageLine → String
  | blank => ""
  | text level content => String.join (List.replicate level layout.indentUnit) ++ content

/-- A line with its indentation and its newline. -/
def render (layout : Layout) (l : PageLine) : String := l.written layout ++ layout.newline

/-- The text of lines, one after another. -/
def renderAll (layout : Layout) (pls : List PageLine) : String := String.join (pls.map (render layout))

/-- A line some levels further in. -/
def shift (n : Nat) : PageLine → PageLine
  | blank => blank
  | text level content => text (level + n) content

/-- A line that ends in a closing brace. -/
def endsInBrace : PageLine → Bool
  | blank => false
  | text _ content => content.toList.getLast? == some '\x7d'

/-- A line with more text behind a space. -/
def goOn (more : String) : PageLine → PageLine
  | blank => blank
  | text level content => text level (content ++ " " ++ more)

theorem endsInBrace_shift (n : Nat) (l : PageLine) : (l.shift n).endsInBrace = l.endsInBrace := by
  cases l <;> rfl

theorem shift_goOn (n : Nat) (more : String) (l : PageLine) :
    (l.goOn more).shift n = (l.shift n).goOn more := by
  cases l <;> rfl

theorem shift_shift (m n : Nat) (l : PageLine) : (l.shift m).shift n = l.shift (m + n) := by
  rcases l with _ | ⟨level, content⟩
  · rfl
  · rw [shift, shift, shift, Nat.add_assoc]

theorem shift_zero (l : PageLine) : l.shift 0 = l := by
  cases l <;> rfl

end PageLine

namespace Line

/-- A line settled behind those before it, of which the last one comes first. -/
def settle (style : BraceStyle) (done : List PageLine) : Line → List PageLine
  | blank => .blank :: done
  | text level content joins =>
    match done with
    | [] => [.text level content]
    | last :: rest =>
      if joins && style = .sameLine && last.endsInBrace then last.goOn content :: rest
      else .text level content :: last :: rest

/-- Lines as they stand on a page. -/
def settled (style : BraceStyle) (ls : List Line) : List PageLine := (ls.foldl (settle style) []).reverse

example : settled .sameLine [plain "\x7d", (plain "else \x7b").join, (plain "g();").indent] =
    [.text 0 "\x7d else \x7b", .text 1 "g();"] := by decide

/-! ### Lines behind lines -/

section Composition

variable {style : BraceStyle}

/-- Lines of which the first one does not ask to go on with the line before. -/
def StartAlone (ls : List Line) : Prop := ∀ l ∈ ls.head?, l.StartsAlone

theorem startAlone_nil : StartAlone [] := nofun

theorem startAlone_cons {l : Line} (h : l.StartsAlone) (ls : List Line) : StartAlone (l :: ls) := by
  rintro _ ⟨⟩
  exact h

theorem StartAlone.append {ls ms : List Line} (hl : StartAlone ls) (hm : StartAlone ms) :
    StartAlone (ls ++ ms) := by
  cases ls with
  | nil => exact hm
  | cons l ls => exact hl

theorem StartAlone.indentAll {ls : List Line} (h : StartAlone ls) : StartAlone (indentAll ls) := by
  cases ls with
  | nil => exact startAlone_nil
  | cons l ls =>
    have hl := h l rfl
    exact startAlone_cons (by cases l <;> exact hl) _

/-- A line that does not go on with the line before leaves it as it is. -/
theorem settle_alone {l : Line} (h : l.StartsAlone) (done : List PageLine) :
    settle style done l = settle style [] l ++ done := by
  rcases l with _ | ⟨level, content, joins⟩
  · rfl
  · obtain rfl : joins = false := h
    cases done <;> rfl

/-- At most the last line is changed by the next one. -/
theorem settle_append (last : PageLine) (done under : List PageLine) (l : Line) :
    settle style (last :: done ++ under) l = settle style (last :: done) l ++ under := by
  rcases l with _ | ⟨level, content, joins⟩
  · rfl
  · simp only [settle, List.cons_append]
    split <;> rfl

theorem settle_ne_nil (done : List PageLine) (l : Line) : settle style done l ≠ [] := by
  rcases l with _ | ⟨level, content, joins⟩ <;> rcases done with _ | ⟨last, done⟩ <;> simp only [settle]
  case text.cons => split <;> nofun
  all_goals nofun

theorem foldl_settle_append (ls : List Line) {done : List PageLine} (h : done ≠ [])
    (under : List PageLine) :
    ls.foldl (settle style) (done ++ under) = ls.foldl (settle style) done ++ under := by
  induction ls generalizing done with
  | nil => rfl
  | cons l ls ih =>
    obtain ⟨last, done, rfl⟩ := List.exists_cons_of_ne_nil h
    rw [List.foldl_cons, List.foldl_cons, settle_append, ih (settle_ne_nil _ l)]

/-- Lines that start on a line of their own are settled as if they were alone. -/
theorem settled_append (ls : List Line) {ms : List Line} (h : StartAlone ms) :
    settled style (ls ++ ms) = settled style ls ++ settled style ms := by
  rw [settled, settled, settled, List.foldl_append, ← List.reverse_append]
  cases ms with
  | nil => rfl
  | cons m ms =>
    rw [List.foldl_cons, List.foldl_cons, settle_alone (h m rfl),
      foldl_settle_append ms (settle_ne_nil [] m)]

theorem settle_indent (done : List PageLine) (l : Line) :
    settle style (done.map (PageLine.shift 1)) l.indent = (settle style done l).map (PageLine.shift 1) := by
  rcases l with _ | ⟨level, content, joins⟩
  · rfl
  rcases done with _ | ⟨last, done⟩
  · rfl
  · rw [indent, List.map_cons, settle, settle, PageLine.endsInBrace_shift, apply_ite (List.map _),
      List.map_cons, PageLine.shift_goOn]
    rfl

/-- Lines one level further in stand one level further in on a page. -/
theorem settled_indentAll (ls : List Line) :
    settled style (indentAll ls) = (settled style ls).map (PageLine.shift 1) := by
  have hfold : (ls.map indent).foldl (settle style) ([].map (PageLine.shift 1)) =
      (ls.foldl (settle style) []).map (PageLine.shift 1) := by
    rw [List.foldl_map]
    exact List.foldl_hom (List.map (PageLine.shift 1)) settle_indent
  rw [settled, settled, List.map_reverse, ← hfold]
  rfl

end Composition

end Line

namespace Page

open PageLine

variable {layout : Layout}

/-- The page that holds some lines, the last one first. -/
def ofSettled (layout : Layout) (done : List PageLine) : Page :=
  done.foldr (fun l page => put page (l.render layout)) []

theorem put_append (page : Page) (s t : String) : page.put (s ++ t) = (page.put s).put t := by
  simp [put]

theorem text_put (page : Page) (s : String) : (page.put s).text = page.text ++ s := by
  rw [put, text, text, List.reverse_append, List.reverse_reverse, String.ofList_append,
    String.ofList_toList]

theorem head?_put (page : Page) (s : String) : (page.put s).head? = s.toList.getLast?.or page.head? := by
  rw [put, List.head?_append, List.head?_reverse]

theorem ofSettled_cons (l : PageLine) (done : List PageLine) :
    ofSettled layout (l :: done) = ((ofSettled layout done).put (l.written layout)).put layout.newline := by
  rw [← put_append]
  rfl

theorem text_ofSettled (done : List PageLine) :
    (ofSettled layout done).text = renderAll layout done.reverse := by
  induction done with
  | nil => rfl
  | cons l done ih =>
    rw [ofSettled_cons, text_put, text_put, ih, renderAll, renderAll, List.reverse_cons, List.map_append,
      String.join_append, String.append_assoc]
    simp [PageLine.render]

/-- A line that asks for it takes the newline of the last one back. -/
theorem write_joining (page : Page) (level : Nat) (content : String) (hstyle : layout.braceStyle = .sameLine)
    (hbrace : page.endsInBrace layout = true) : page.write layout (.text level content true) =
      ((put (page.drop layout.newline.length) " ").put content).put layout.newline := by
  simp [write, hstyle, hbrace]

/-- Any other line stands on its own. -/
theorem write_alone (page : Page) (level : Nat) (content : String) {joins : Bool}
    (h : ¬ (joins = true ∧ layout.braceStyle = .sameLine ∧ page.endsInBrace layout = true)) :
    page.write layout (.text level content joins) =
      (page.put ((PageLine.text level content).written layout)).put layout.newline := by
  rw [write, if_neg (by simpa [and_assoc] using h), written, put_append]

/-- Indentation does not end in a brace. -/
theorem getLast?_indent (layout : Layout) (level : Nat) :
    (String.join (List.replicate level layout.indentUnit)).toList.getLast? ≠ some '\x7d' := by
  intro hlast
  have hblank := List.all_eq_true.mp (indent_blank layout level) _ (List.mem_of_getLast? hlast)
  cases hblank

/-- A line ends in a closing brace when its text does. -/
theorem getLast?_written (l : PageLine) :
    ((l.written layout).toList.getLast? == some '\x7d') = l.endsInBrace := by
  rcases l with _ | ⟨level, content⟩
  · rfl
  rw [written, String.toList_append, List.getLast?_append, PageLine.endsInBrace]
  cases content.toList.getLast? with
  | some c => rfl
  | none => exact beq_eq_false_iff_ne.mpr (getLast?_indent layout level)

section Newline

variable (hnewline : Layout.isNewline layout.newline = true)

include hnewline

theorem newline_eq : layout.newline = "\n" ∨ layout.newline = "\r\n" ∨ layout.newline = "\r" := by
  simpa [Layout.isNewline, or_assoc] using hnewline

/-- A page of lines ends in a newline, which is no brace. -/
theorem head?_ofSettled (done : List PageLine) : (ofSettled layout done).head? ≠ some '\x7d' := by
  rcases done with _ | ⟨l, done⟩
  · nofun
  · rw [ofSettled_cons, put]
    rcases newline_eq hnewline with h | h | h <;> simp [h]

/-- A page of lines ends in a closing brace and a newline when its last line ends in the brace. -/
theorem endsInBrace_ofSettled (done : List PageLine) :
    (ofSettled layout done).endsInBrace layout = done.head?.any PageLine.endsInBrace := by
  rcases done with _ | ⟨l, done⟩
  · rcases newline_eq hnewline with h | h | h <;> rw [endsInBrace, h] <;> rfl
  · have hpage := head?_ofSettled hnewline done
    have hlast := @getLast?_written layout l
    rw [ofSettled_cons, endsInBrace_put, head?_put, List.head?_cons, Option.any_some, ← hlast]
    -- a line without a character ends as the line before it does, in its newline
    cases (l.written layout).toList.getLast? with
    | some c => rfl
    | none => exact beq_eq_false_iff_ne.mpr hpage

/-- Writing a line is settling it. -/
theorem write_ofSettled (done : List PageLine) (l : Line) :
    write layout (ofSettled layout done) l = ofSettled layout (l.settle layout.braceStyle done) := by
  rcases l with _ | ⟨level, content, joins⟩
  · rfl
  have hbrace := endsInBrace_ofSettled hnewline done
  by_cases hjoins : joins = true ∧ layout.braceStyle = .sameLine ∧
      (ofSettled layout done).endsInBrace layout = true
  · obtain ⟨rfl, hstyle, hends⟩ := hjoins
    rw [write_joining _ _ _ hstyle hends]
    rw [hends] at hbrace
    rcases done with _ | ⟨_ | ⟨k, before⟩, done⟩
    · cases hbrace
    · cases hbrace
    · have hlast : (PageLine.text k before).endsInBrace = true := hbrace.symm
      rw [Line.settle, if_pos (by simp [hstyle, hlast]), ofSettled_cons, drop_put, ofSettled_cons, goOn]
      simp only [written, put_append]
  · rw [write_alone _ _ _ hjoins, ← ofSettled_cons]
    rcases done with _ | ⟨last, done⟩
    · rfl
    · rw [hbrace] at hjoins
      rw [Line.settle, if_neg (by simpa [and_assoc] using hjoins)]

/-- The page of some lines is the page that holds them as they are settled. -/
theorem foldl_write (ls : List Line) :
    ls.foldl (write layout) [] = ofSettled layout (Line.settled layout.braceStyle ls).reverse := by
  have hstart : ofSettled layout [] = [] := rfl
  rw [Line.settled, List.reverse_reverse, ← hstart]
  exact List.foldl_hom (ofSettled layout) (write_ofSettled hnewline)

/-- The text of a page is the text of its settled lines, one after another. -/
theorem render_eq (ls : List Line) :
    Page.render layout ls = renderAll layout (Line.settled layout.braceStyle ls) := by
  rw [render, foldl_write hnewline, text_ofSettled, List.reverse_reverse]

/-- The newline that is taken back is the one of the last line, which ends in a closing brace. -/
theorem newline_taken_back {ls : List Line} (hstyle : layout.braceStyle = .sameLine)
    (hbrace : (ls.foldl (write layout) []).endsInBrace layout = true) (level : Nat) (content : String) :
    ∃ pls last, Line.settled layout.braceStyle ls = pls ++ [last] ∧ last.endsInBrace = true ∧
      Page.render layout ls = renderAll layout pls ++ last.written layout ++ layout.newline ∧
      Page.render layout (ls ++ [.text level content true]) =
        renderAll layout pls ++ last.written layout ++ " " ++ content ++ layout.newline := by
  rw [render, render, List.foldl_append, List.foldl_cons, List.foldl_nil, write_joining _ _ _ hstyle hbrace]
  rw [foldl_write hnewline] at hbrace ⊢
  rw [endsInBrace_ofSettled hnewline] at hbrace
  rcases List.eq_nil_or_concat (Line.settled layout.braceStyle ls) with hnil | ⟨pls, last, hlast⟩
  · rw [hnil] at hbrace
    cases hbrace
  · rw [hlast, List.concat_eq_append, List.reverse_append, List.reverse_singleton, List.singleton_append]
      at hbrace ⊢
    refine ⟨pls, last, rfl, hbrace, ?_, ?_⟩
    · rw [ofSettled_cons, text_put, text_put, text_ofSettled, List.reverse_reverse]
    · rw [ofSettled_cons, drop_put, text_put, text_put, text_put, text_put, text_ofSettled,
        List.reverse_reverse]

end Newline

end Page

end JavaTree
