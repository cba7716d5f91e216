import Mathlib.Data.List.Induction
import Mathlib.Data.List.Infix
import JavaTree.Proofs.Token.Places

/-!
Where the pieces of a source text stand.

The walk over a text counts lines, columns and bytes on the way. The same place can be read off the
text before it: the line from the line ends in it, the column from what is behind the last of them,
the offset from its bytes. No piece is empty and none is left out, so every piece of a text stands
where the texts of the pieces before it end.

    text:        int   \r \n   x        pieces:   "int"   "\r\n"   "x"
    line ends:         ^                stand at: 1:1+0   1:4+3    2:1+5
-/

namespace JavaTree

namespace Location

/-! ### Places read off the text before them -/

/-- Each character of a text with the one before it. -/
def withPrevious (p : Option Char) : List Char → List (Option Char × Char)
  | [] => []
  | c :: cs => (p, c) :: withPrevious (some c) cs

/-- The second half of a pair `\r\n`. -/
def completesPair (x : Option Char × Char) : Bool := x.2 = '\n' && x.1 = some '\r'

/-- A `\r`, or a `\n` that is no second half of a pair. -/
def endsLine (x : Option Char × Char) : Bool := x.2 = '\r' || (x.2 = '\n' && !completesPair x)

/-- The line behind a text: one more than the line ends in it. -/
def lineBehind (cs : List Char) : Nat := 1 + (withPrevious none cs).countP endsLine

/-- The column behind a text: one more than the characters behind its last line end, where the second
half of a pair does not count. -/
def columnBehind (cs : List Char) : Nat :=
  1 + ((withPrevious none cs).reverse.takeWhile (!endsLine ·)).countP (!completesPair ·)

/-- The place behind a text. The offset is the length of the text in UTF-8. -/
def behind (text : String) : Location :=
  ⟨lineBehind text.toList, columnBehind text.toList, text.utf8ByteSize⟩

theorem withPrevious_concat (p : Option Char) (cs : List Char) (c : Char) :
    withPrevious p (cs ++ [c]) = withPrevious p cs ++ [(cs.getLast?.or p, c)] := by
  induction cs generalizing p with
  | nil => simp [withPrevious]
  | cons d cs ih =>
    have hlast : cs.getLast?.or (some d) = (d :: cs).getLast?.or p := by
      rw [List.getLast?_cons]
      cases cs.getLast? <;> rfl
    simp only [List.cons_append, withPrevious, ih, hlast]

theorem lineBehind_concat (cs : List Char) (c : Char) :
    lineBehind (cs ++ [c]) = lineBehind cs + if endsLine (cs.getLast?, c) then 1 else 0 := by
  simp [lineBehind, withPrevious_concat, List.countP_append, List.countP_singleton, Nat.add_assoc]

theorem columnBehind_concat (cs : List Char) (c : Char) :
    columnBehind (cs ++ [c]) = if endsLine (cs.getLast?, c) then 1
      else columnBehind cs + if completesPair (cs.getLast?, c) then 0 else 1 := by
  by_cases hline : endsLine (cs.getLast?, c) = true
  · simp [columnBehind, withPrevious_concat, hline]
  · by_cases hpair : completesPair (cs.getLast?, c) = true
    · simp [columnBehind, withPrevious_concat, hline, hpair]
    · simp [columnBehind, withPrevious_concat, hline, hpair, Nat.add_assoc]

end Location

/-! ### The walk -/

namespace Cursor

open Location

/-- The walk over a text knows the place behind it, and whether its last character is `\r`. -/
theorem advanceAll_start (cs : List Char) :
    start.advanceAll cs = ⟨behind (String.ofList cs), cs.getLast? = some '\r'⟩ := by
  induction cs using List.reverseRecOn with
  | nil => rfl
  | append_singleton cs c ih =>
    have hstep : start.advanceAll (cs ++ [c]) = (start.advanceAll cs).advance c := by
      rw [advanceAll, List.foldl_append]
      rfl
    have hsize : (String.ofList (cs ++ [c])).utf8ByteSize =
        (String.ofList cs).utf8ByteSize + c.utf8Size := by
      rw [String.ofList_append, String.utf8ByteSize_append, ← String.singleton_eq_ofList,
        String.utf8ByteSize_singleton]
    rw [hstep, ih]
    simp only [advance, behind, String.toList_ofList, hsize, lineBehind_concat, columnBehind_concat,
      List.getLast?_concat, Option.some.injEq, decide_eq_true_eq, endsLine, completesPair]
    by_cases hn : c = '\n'
    · by_cases hr : cs.getLast? = some '\r' <;> simp [hn, hr]
    · by_cases hr : c = '\r' <;> simp [hn, hr]

end Cursor

/-! ### Pieces -/

namespace Lexer

/-- The text of a piece. -/
def Item.text : Item → String
  | token t => t.lexeme
  | fault f => f.text

theorem text_item (r : Reading) (l : Location) (cs : List Char) :
    (r.item l cs).text = String.ofList (cs.take r.width) := by
  unfold Reading.item
  split <;> rfl

/-- A text that is not empty starts with the piece that is read there, and goes on with the pieces of
what is behind it. -/
theorem cut_eq {x : List Char} (hx : x ≠ []) (u : Cursor) :
    cut 0 u x = (read x).item u.location x ::
      cut 0 (u.advanceAll (x.take (read x).width)) (x.drop (read x).width) := by
  obtain ⟨c, cs, rfl⟩ := List.exists_cons_of_ne_nil hx
  obtain ⟨hpos, hle⟩ := bounds_of_read c cs
  obtain ⟨n, hn⟩ : ∃ n, (read (c :: cs)).width = n + 1 := ⟨_, (Nat.succ_pred_eq_of_pos hpos).symm⟩
  rw [hn, List.length_cons] at hle
  have hlength : (cs.take n).length = n := List.length_take_of_le (Nat.le_of_succ_le_succ hle)
  have hrest := cut_length (u.advance c) (cs.take n) (cs.drop n)
  rw [hlength, List.take_append_drop] at hrest
  rw [cut, hn, Nat.add_sub_cancel, hrest, List.take_succ_cons, List.drop_succ_cons]
  rfl

theorem length_drop_read_lt {x : List Char} (hx : x ≠ []) :
    (x.drop (read x).width).length < x.length := by
  obtain ⟨c, cs, rfl⟩ := List.exists_cons_of_ne_nil hx
  obtain ⟨hpos, hle⟩ := bounds_of_read c cs
  rw [List.length_drop]
  omega

/-- What holds of the empty text, and of each text if it holds of what is behind the first piece,
holds of all texts. -/
theorem pieces_induction {P : List Char → Prop} (nil : P [])
    (piece : ∀ x, x ≠ [] → P (x.drop (read x).width) → P x) (x : List Char) : P x := by
  induction hn : x.length using Nat.strongRecOn generalizing x with
  | ind n ih =>
    by_cases hx : x = []
    · exact hx ▸ nil
    · exact piece x hx (ih _ (hn ▸ length_drop_read_lt hx) _ rfl)

theorem text_ne_empty_of_mem_cut {x : List Char} {u : Cursor} {i : Item} (hi : i ∈ cut 0 u x) :
    i.text ≠ "" := by
  induction x using pieces_induction generalizing u with
  | nil => cases hi
  | piece x hx ih =>
    rw [cut_eq hx] at hi
    rcases List.mem_cons.mp hi with rfl | hi
    · obtain ⟨c, cs, rfl⟩ := List.exists_cons_of_ne_nil hx
      have hpos := (bounds_of_read c cs).1
      rw [text_item, Ne, ← String.toList_eq_nil_iff, String.toList_ofList, List.take_eq_nil_iff]
      rintro (hwidth | hnil)
      · omega
      · cases hnil
    · exact ih hi

theorem join_text_cut (x : List Char) (u : Cursor) :
    String.join ((cut 0 u x).map Item.text) = String.ofList x := by
  induction x using pieces_induction generalizing u with
  | nil => rfl
  | piece x hx ih =>
    rw [cut_eq hx, List.map_cons, String.join_cons, ih, text_item, ← String.ofList_append,
      List.take_append_drop]

/-- Behind a text that has been walked over, every piece stands where the pieces before it end. -/
theorem location_cut (x before : List Char) :
    (cut 0 (Cursor.start.advanceAll before) x).map Item.location ++ [.endOf (before ++ x)] =
      ((cut 0 (Cursor.start.advanceAll before) x).map Item.text).inits.map
        fun texts => .behind (String.ofList before ++ String.join texts) := by
  induction x using pieces_induction generalizing before with
  | nil => simp [cut, Location.endOf, Cursor.advanceAll_start]
  | piece x hx ih =>
    have hwalk : (Cursor.start.advanceAll before).advanceAll (x.take (read x).width) =
        Cursor.start.advanceAll (before ++ x.take (read x).width) := by
      rw [Cursor.advanceAll, Cursor.advanceAll, Cursor.advanceAll, List.foldl_append]
    have hrest := ih (before ++ x.take (read x).width)
    rw [List.append_assoc, List.take_append_drop] at hrest
    rw [cut_eq hx, hwalk, List.map_cons, List.map_cons, List.cons_append, hrest, List.inits_cons,
      List.map_cons, List.map_map, item_location, text_item, Cursor.advanceAll_start]
    simp [Function.comp_def, String.ofList_append, String.append_assoc]

/-- Nothing of a source text is lost and nothing is misplaced. No piece is empty, the pieces in order
are the text, and every piece and the end token stand where the pieces before them end: on the line
and in the column that the characters there give, and at the offset of their bytes. So each stands
strictly before the next. -/
theorem items_lossless (source : String) :
    (∀ i ∈ items source, i.text ≠ "") ∧
    String.join ((items source).map Item.text) = source ∧
    (items source).map Item.location ++ [(endToken source).location] =
      ((items source).map Item.text).inits.map (fun texts => .behind (String.join texts)) ∧
    ((items source).map Item.location ++ [(endToken source).location]).Pairwise (· < ·) := by
  refine ⟨fun i => text_ne_empty_of_mem_cut, ?_, ?_, ?_⟩
  · rw [items, join_text_cut, String.ofList_toList]
  · have hplaces := location_cut source.toList []
    rw [List.nil_append] at hplaces
    simpa [items, endToken, Token.endAt, Cursor.advanceAll] using hplaces
  · rw [List.pairwise_append, List.pairwise_map]
    refine ⟨pairwise_cut _ _ _, List.pairwise_singleton _ _, ?_⟩
    intro a ha b hb
    obtain ⟨i, hi, rfl⟩ := List.mem_map.mp ha
    rw [List.mem_singleton.mp hb]
    exact lt_of_mem_cut hi

/-! ### Offsets -/

theorem offset_advanceAll (u : Cursor) (cs : List Char) :
    (u.advanceAll cs).location.offset = u.location.offset + (String.ofList cs).utf8ByteSize := by
  induction cs generalizing u with
  | nil => rfl
  | cons c cs ih =>
    have hstep : (u.advance c).location.offset = u.location.offset + c.utf8Size := by
      simp only [Cursor.advance]
      split
      · rfl
      · split <;> rfl
    rw [Cursor.advanceAll, List.foldl_cons, ← Cursor.advanceAll, ih, hstep, Nat.add_assoc]
    simp [String.ofList_cons, String.utf8ByteSize_append, String.utf8ByteSize_singleton]

theorem le_offset_of_mem_cut {x : List Char} {u : Cursor} {i : Item} (hi : i ∈ cut 0 u x) :
    u.location.offset ≤ i.location.offset := by
  induction x using pieces_induction generalizing u with
  | nil => cases hi
  | piece x hx ih =>
    rw [cut_eq hx] at hi
    rcases List.mem_cons.mp hi with rfl | hi
    · rw [item_location]
    · have hbehind := ih hi
      rw [offset_advanceAll] at hbehind
      omega

/-- A piece ends, byte by byte, where the next one starts at the latest. -/
theorem pairwise_offset_cut (x : List Char) (u : Cursor) : (cut 0 u x).Pairwise fun a b =>
    a.location.offset + a.text.utf8ByteSize ≤ b.location.offset := by
  induction x using pieces_induction generalizing u with
  | nil => exact .nil
  | piece x hx ih =>
    rw [cut_eq hx]
    refine .cons (fun b hb => ?_) (ih _)
    have hbehind := le_offset_of_mem_cut hb
    rwa [offset_advanceAll, ← item_location (read x) u.location x, ← text_item _ u.location] at hbehind

/-- A token has the text of its piece. -/
theorem Item.text_of_token? {i : Item} {t : Token} (h : i.token? = some t) : t.lexeme = i.text := by
  cases i with
  | token =>
    rw [token?, Option.ite_none_left_eq_some, Option.some.injEq] at h
    rw [← h.2]
    rfl
  | fault =>
    cases h
    rfl

/-- A line end that two pieces share counts once. -/
example : (items "//é\r\nx").map (fun i => (i.text, i.location)) =
    [("//é\r", ⟨1, 1, 0⟩), ("\n", ⟨2, 1, 5⟩), ("x", ⟨2, 1, 6⟩)] := by decide +kernel

end Lexer

namespace Parser.Input

theorem lexeme_ne_empty {source : String} {t : Token} (ht : t ∈ (ofSource source).tokens) : t.lexeme ≠ "" := by
  rw [tokens_ofSource] at ht
  obtain ⟨i, hi, hit⟩ := List.mem_filterMap.mp ht
  rw [Lexer.Item.text_of_token? hit]
  exact Lexer.text_ne_empty_of_mem_cut hi

/-- A token of a source text ends, byte by byte, where the next one starts at the latest. -/
theorem pairwise_offsets (source : String) : (ofSource source).tokens.Pairwise fun a b =>
    a.location.offset + a.lexeme.utf8ByteSize ≤ b.location.offset := by
  rw [tokens_ofSource]
  refine (Lexer.pairwise_offset_cut _ _).filterMap _ ?_
  intro i j hij t ht v hv
  rw [Lexer.Item.location_of_token? ht, Lexer.Item.location_of_token? hv, Lexer.Item.text_of_token? ht]
  exact hij

end Parser.Input

end JavaTree
