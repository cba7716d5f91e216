import JavaTree.Proofs.Token.Coordinates
import JavaTree.Proofs.Token.Escaped

/-!
Where a quoted literal ends, and what is wrong with it.

A walk over the text behind an opening quote passes over a backslash together with the character behind
it, and over any other character alone. It stops behind the first quote that it comes to, in front of a
line break, also of one behind a backslash, or at the end of the text. The scan of a literal reaches as
far as this walk, although it takes four digits at once. The literal has a value when the walk stops at
a quote and all escapes on its way are known. A walk that stops elsewhere decides alone what is wrong
with the literal, and otherwise the first escape that is not known does.

    behind the quote     walk                  literal
    a\"b" c              a  \"  b  "           a"b
    \u12" c              \u  1  2  "           faulty escape of a code unit
    \q\u12⏎              \q  \u  1  2          not closed
    a\⏎                  a  \                  not closed
-/

namespace JavaTree

/-- The characters that end a line. -/
def isLineBreak (c : Char) : Bool := c == '\n' || c == '\r'

namespace Literal

/-! ### The walk -/

/-- What ends a walk. -/
inductive Stop where
  | quote
  | lineBreak
  | textEnd
  deriving DecidableEq

/-- An escape on the way: the letter behind the backslash, and the text behind that. -/
structure Escape where
  letter : Char
  behind : List Char
  deriving DecidableEq

/-- A walk: how many characters it passes over, the escapes on its way, and what ends it. -/
structure Walk where
  passed : Nat
  escapes : List Escape
  stop : Stop
  deriving DecidableEq

/-- A walk with a stretch in front of it. -/
def Walk.after (w : Walk) (n : Nat) (es : List Escape) : Walk := ⟨w.passed + n, es ++ w.escapes, w.stop⟩

/-- The walk over the text behind an opening quote. -/
def walk (quote : Char) : List Char → Walk
  | [] => ⟨0, [], .textEnd⟩
  | '\\' :: e :: rest =>
    if isLineBreak e then ⟨1, [], .lineBreak⟩ else (walk quote rest).after 2 [⟨e, rest⟩]
  | c :: rest =>
    if c = quote then ⟨1, [], .quote⟩
    else if isLineBreak c then ⟨0, [], .lineBreak⟩
    else (walk quote rest).after 1 []

/-- A digit of a code unit. -/
def isHexDigit (c : Char) : Bool :=
  ('0' ≤ c ∧ c ≤ '9') || ('a' ≤ c ∧ c ≤ 'f') || ('A' ≤ c ∧ c ≤ 'F')

/-- What is wrong with an escape: it has a letter that does not stand for anything, or is a `u` without
four digits behind it. -/
def Escape.fault? (e : Escape) : Option FaultKind :=
  if e.letter = 'u' then
    if 4 ≤ (e.behind.takeWhile isHexDigit).length then none else some .invalidUnicodeEscape
  else if e.letter ∈ ['n', 't', 'r', 'b', 'f', '0', '\\', '\'', '"'] then none
  else some (.invalidEscape e.letter)

namespace Walk

/-- What is wrong with the first escape that is not known. -/
def fault? (w : Walk) : Option FaultKind := w.escapes.findSome? Escape.fault?

/-- What ends a walk is where the walk has come to. -/
def StopsIn (w : Walk) (quote : Char) (r : List Char) : Prop :=
  match w.stop with
  | .quote => (r.take w.passed).getLast? = some quote
  | .lineBreak => ∃ c, (r.drop w.passed).head? = some c ∧ isLineBreak c = true
  | .textEnd => w.passed = r.length

/-- A walk decides how the body of a literal was read, up to the value. -/
def Tells (w : Walk) : Body → Prop
  | .closed _ => w.stop = .quote ∧ w.fault? = none
  | .faulty kind => w.stop = .quote ∧ w.fault? = some kind
  | .unclosed => w.stop ≠ .quote

end Walk

section Walks

variable {quote c : Char} {w : Walk} {b : Body} {s : Scan} {r : List Char}

/-! ### Steps -/

/-- Where no escape starts, the walk is at a quote, at a line break, or goes on with one character. -/
theorem walk_cons (h : c ≠ '\\' ∨ r = []) : walk quote (c :: r) =
    if c = quote then ⟨1, [], .quote⟩
    else if isLineBreak c then ⟨0, [], .lineBreak⟩
    else (walk quote r).after 1 [] := by
  rw [walk.eq_def]
  split
  · next heq => cases heq
  · next heq =>
    obtain ⟨rfl, rfl⟩ := List.cons.inj heq
    rcases h with h | h
    · exact absurd rfl h
    · cases h
  · next heq =>
    cases heq
    rfl

theorem walk_escape (hbreak : isLineBreak c = false) (r : List Char) :
    walk quote ('\\' :: c :: r) = (walk quote r).after 2 [⟨c, r⟩] := by
  rw [walk, hbreak]
  rfl

theorem value?_isSome (c : Char) : (Text.Hex.value? c).isSome = isHexDigit c := by
  unfold Text.Hex.value? isHexDigit
  split
  · simp_all
  · split
    · simp_all
    · split <;> simp_all

/-- A digit is passed over on its own. -/
theorem walk_digit (hquote : quote = '"' ∨ quote = '\'') (hc : isHexDigit c = true) (r : List Char) :
    walk quote (c :: r) = (walk quote r).after 1 [] := by
  have hdigit (d : Char) (hd : isHexDigit d = false) : c ≠ d := by
    rintro rfl
    rw [hc] at hd
    cases hd
  have hne : c ≠ quote := by rcases hquote with rfl | rfl <;> exact hdigit _ (by decide)
  have hbreak : isLineBreak c = false := by
    rw [isLineBreak, beq_eq_false_iff_ne.mpr (hdigit '\n' (by decide)),
      beq_eq_false_iff_ne.mpr (hdigit '\r' (by decide))]
    rfl
  rw [walk_cons (.inl (hdigit _ (by decide))), if_neg hne, hbreak]
  rfl

theorem unit?_isSome (w x y z : Char) : (Text.Hex.unit? w x y z).isSome =
    (isHexDigit w && isHexDigit x && isHexDigit y && isHexDigit z) := by
  rw [← value?_isSome, ← value?_isSome, ← value?_isSome, ← value?_isSome, Text.Hex.unit?]
  cases Text.Hex.value? w <;> cases Text.Hex.value? x <;> cases Text.Hex.value? y <;>
    cases Text.Hex.value? z <;> rfl

/-- The four digits of a code unit are passed over one by one. -/
theorem walk_unit (hquote : quote = '"' ∨ quote = '\'') {w x y z : Char}
    (h : (Text.Hex.unit? w x y z).isSome = true) (r : List Char) :
    walk quote ('\\' :: 'u' :: w :: x :: y :: z :: r) =
      (walk quote r).after 6 [⟨'u', w :: x :: y :: z :: r⟩] := by
  simp only [unit?_isSome, Bool.and_eq_true] at h
  obtain ⟨⟨⟨hw, hx⟩, hy⟩, hz⟩ := h
  rw [walk_escape rfl, walk_digit hquote hw, walk_digit hquote hx, walk_digit hquote hy,
    walk_digit hquote hz]
  rfl

/-- A code unit has four digits when that many stand in front of what is behind it. -/
theorem fault?_unit (w x y z : Char) (r : List Char) : (⟨'u', w :: x :: y :: z :: r⟩ : Escape).fault? =
    if (Text.Hex.unit? w x y z).isSome then none else some .invalidUnicodeEscape := by
  rw [Escape.fault?, if_pos rfl, unit?_isSome]
  cases hw : isHexDigit w <;> cases hx : isHexDigit x <;> cases hy : isHexDigit y <;>
    cases hz : isHexDigit z <;> simp [hw, hx, hy, hz]

/-- There are no four digits where there are no four characters. -/
theorem fault?_short (h : ∀ w x y z more, r = w :: x :: y :: z :: more → False) :
    (⟨'u', r⟩ : Escape).fault? = some .invalidUnicodeEscape := by
  rw [Escape.fault?, if_pos rfl]
  refine if_neg fun hle => ?_
  have hlength := Nat.le_trans hle (List.takeWhile_prefix _).length_le
  match r with
  | w :: x :: y :: z :: more => exact h w x y z more rfl
  | [] | [_] | [_, _] | [_, _, _] => simp at hlength

theorem fault?_letter {e : Char} (hu : e ≠ 'u') (rest : List Char) : (⟨e, rest⟩ : Escape).fault? =
    if (unescape? e).isSome then none else some (.invalidEscape e) := by
  rw [Escape.fault?, if_neg hu]
  refine if_congr ?_ rfl rfl
  unfold unescape?
  split <;> simp_all

/-! ### Scans and walks -/

/-- A scan that a walk explains. -/
structure Agrees (s : Scan) (w : Walk) : Prop where
  width : s.width = w.passed
  tells : w.Tells s.body

theorem Walk.Tells.closed_iff (h : w.Tells b) :
    (∃ value, b = .closed value) ↔ w.stop = .quote ∧ w.fault? = none := by
  cases b with
  | closed value => exact iff_of_true ⟨value, rfl⟩ h
  | faulty kind => exact iff_of_false nofun fun h' => by cases h.2.symm.trans h'.2
  | unclosed => exact iff_of_false nofun fun h' => h h'.1

theorem Walk.Tells.eq_unclosed (h : w.Tells b) (hstop : w.stop ≠ .quote) : b = .unclosed := by
  cases b with
  | closed value => exact absurd h.1 hstop
  | faulty kind => exact absurd h.1 hstop
  | unclosed => rfl

theorem Walk.Tells.eq_faulty (h : w.Tells b) (hstop : w.stop = .quote) {kind : FaultKind}
    (hkind : w.fault? = some kind) : b = .faulty kind := by
  cases b with
  | closed value => cases hkind.symm.trans h.2
  | faulty kind' => rw [Option.some.inj (hkind.symm.trans h.2)]
  | unclosed => exact absurd hstop h

/-- A scan and a walk that stop together, but not at a quote. -/
theorem agrees_unclosed (n : Nat) (stop : Stop) (h : stop ≠ .quote) :
    Agrees ⟨n, .unclosed⟩ ⟨n, [], stop⟩ :=
  ⟨rfl, h⟩

/-- A step that is known gives a character. -/
theorem Agrees.prepend (h : Agrees s w) (n : Nat) (d : Char) {es : List Escape}
    (hes : ∀ e ∈ es, e.fault? = none) : Agrees (s.after n (.prepend d)) (w.after n es) := by
  have hfault : (w.after n es).fault? = w.fault? := by
    rw [Walk.fault?, Walk.after, List.findSome?_append, List.findSome?_eq_none_iff.mpr hes]
    rfl
  refine ⟨congrArg (· + n) h.width, ?_⟩
  have htells := h.tells
  rw [Scan.after]
  cases hb : s.body <;> rw [hb] at htells
  · exact ⟨htells.1, hfault.trans htells.2⟩
  · exact ⟨htells.1, hfault.trans htells.2⟩
  · exact htells

/-- A step that is not known is what is wrong, unless the walk does not stop at a quote. -/
theorem Agrees.blame (h : Agrees s w) (n : Nat) {e : Escape} {kind : FaultKind}
    (he : e.fault? = some kind) : Agrees (s.after n (.blame kind)) (w.after n [e]) := by
  have hfault : (w.after n [e]).fault? = some kind := by
    rw [Walk.fault?, Walk.after, List.singleton_append, List.findSome?_cons, he]
  refine ⟨congrArg (· + n) h.width, ?_⟩
  have htells := h.tells
  rw [Scan.after]
  cases hb : s.body <;> rw [hb] at htells
  · exact ⟨htells.1, hfault⟩
  · exact ⟨htells.1, hfault⟩
  · exact htells

/-- The walk explains the scan of every text. -/
theorem agrees_walk (hquote : quote = '"' ∨ quote = '\'') (r : List Char) :
    Agrees (scan quote r) (walk quote r) := by
  have hslash : quote ≠ '\\' := by rcases hquote with rfl | rfl <;> decide
  have hbreak {c : Char} (h : ¬ (c = '\n' ∨ c = '\r')) : isLineBreak c = false := by
    simpa [isLineBreak] using h
  fun_induction scan quote r with
  | case1 => exact agrees_unclosed 0 .textEnd (by decide)
  | case2 more =>
    rw [walk_cons (.inl hslash), if_pos rfl]
    exact ⟨rfl, rfl, rfl⟩
  | case3 c more hc hend =>
    have hne : c ≠ '\\' := by rintro rfl; simp at hend
    rw [walk_cons (.inl hne), if_neg hc, if_pos (by simpa [isLineBreak] using hend)]
    exact agrees_unclosed 0 .lineBreak (by decide)
  | case4 c more hc hend hplain ih =>
    rw [walk_cons (.inl hplain), if_neg hc, hbreak hend]
    exact ih.prepend 1 c (List.forall_mem_nil _)
  | case5 c hc hend hback =>
    rw [walk_cons (.inr rfl), if_neg hc, hbreak hend]
    exact agrees_unclosed 1 .textEnd (by decide)
  | case6 c hc hend hback e more he =>
    obtain rfl := Classical.not_not.mp hback
    rw [walk, if_pos (by simpa [isLineBreak] using he)]
    exact agrees_unclosed 1 .lineBreak (by decide)
  | case7 c hc hend hback w x y z tail n hunit hu ih =>
    obtain rfl := Classical.not_not.mp hback
    rw [walk_unit hquote (by rw [hunit]; rfl)]
    refine ih.prepend 6 _ (List.forall_mem_singleton.mpr ?_)
    rw [fault?_unit, hunit]
    rfl
  | case8 c hc hend hback w x y z tail hunit hu ih =>
    obtain rfl := Classical.not_not.mp hback
    rw [walk_escape rfl]
    refine ih.blame 2 ?_
    rw [fault?_unit, hunit]
    rfl
  | case9 c hc hend hback short hshort hu ih =>
    obtain rfl := Classical.not_not.mp hback
    rw [walk_escape rfl]
    exact ih.blame 2 (fault?_short hshort)
  | case10 c hc hend hback e more he hu d hd ih =>
    obtain rfl := Classical.not_not.mp hback
    rw [walk_escape (hbreak he)]
    refine ih.prepend 2 d (List.forall_mem_singleton.mpr ?_)
    rw [fault?_letter hu, hd]
    rfl
  | case11 c hc hend hback e more he hu hd ih =>
    obtain rfl := Classical.not_not.mp hback
    rw [walk_escape (hbreak he)]
    refine ih.blame 2 ?_
    rw [fault?_letter hu, hd]
    rfl

/-! ### Where a walk has come to -/

/-- A walk in a text: what it has passed over is on one line, and what ends it stands behind that. -/
structure Lands (quote : Char) (r : List Char) (w : Walk) : Prop where
  stops : w.StopsIn quote r
  inLine : ∀ c ∈ r.take w.passed, isLineBreak c = false

theorem Lands.cons (h : Lands quote r w) (hc : isLineBreak c = false) (es : List Escape) :
    Lands quote (c :: r) (w.after 1 es) := by
  refine ⟨?_, ?_⟩
  · have hstops := h.stops
    rw [Walk.StopsIn] at hstops ⊢
    cases hw : w.stop <;> simp only [Walk.after, hw] at hstops ⊢
    · rw [List.take_succ_cons, List.getLast?_cons, hstops]
      rfl
    · exact hstops
    · exact congrArg (· + 1) hstops
  · rw [Walk.after, List.take_succ_cons]
    exact List.forall_mem_cons.mpr ⟨hc, h.inLine⟩

/-- The walk over a text lands in it. -/
theorem lands_walk (hquote : quote = '"' ∨ quote = '\'') (r : List Char) :
    Lands quote r (walk quote r) := by
  fun_induction walk quote r with
  | case1 => exact ⟨rfl, nofun⟩
  | case2 e rest he => exact ⟨⟨e, rfl, he⟩, List.forall_mem_singleton.mpr rfl⟩
  | case3 e rest he ih => exact (ih.cons (by simpa using he) []).cons rfl [⟨e, rest⟩]
  | case4 rest =>
    refine ⟨rfl, List.forall_mem_singleton.mpr ?_⟩
    rcases hquote with rfl | rfl <;> rfl
  | case5 c rest hshape hc hbreak => exact ⟨⟨c, rfl, hbreak⟩, nofun⟩
  | case6 c rest hshape hc hbreak ih => exact ih.cons (by simpa using hbreak) []

end Walks

end Literal

namespace Lexer

open Literal

variable {quote : Char} {r x : List Char} {u : Cursor} {i : Item}

/-- What is wrong with a literal that is not closed. -/
def unterminated (quote : Char) : FaultKind :=
  if quote = '"' then .unterminatedString else .unterminatedCharacter

/-- A quoted literal, or what stands in the place of one. -/
def Item.IsQuoted : Item → Prop
  | token t => t.kind.IsQuoted
  | fault f => f.kind ≠ .unrecognized

theorem width_read_quote (hquote : quote = '"' ∨ quote = '\'') (r : List Char) :
    (read (quote :: r)).width = (walk quote r).passed + 1 := by
  rw [← (agrees_walk hquote r).width]
  rcases hquote with rfl | rfl <;> rfl

theorem content_read_unclosed (hquote : quote = '"' ∨ quote = '\'') (h : (scan quote r).body = .unclosed) :
    (read (quote :: r)).content = .error (unterminated quote) := by
  rcases hquote with rfl | rfl <;> simp [read, readString, readCharacter, h, unterminated]

theorem content_read_faulty (hquote : quote = '"' ∨ quote = '\'') {kind : FaultKind}
    (h : (scan quote r).body = .faulty kind) : (read (quote :: r)).content = .error kind := by
  rcases hquote with rfl | rfl <;> simp [read, readString, readCharacter, h]

/-- No shape offers a quoted literal. -/
theorem not_isQuoted_of_offered {k : Kind} {n : Nat} (h : Pattern.Offered x n k) : ¬ k.IsQuoted := by
  have hvalue := h.kind.2.2
  rintro (⟨v, rfl⟩ | ⟨c, rfl⟩) <;> cases hvalue

/-- What is read as a quoted literal, or in its place, starts with a quote. -/
theorem exists_quote_of_isQuoted (hx : x ≠ []) {l : Location} (h : ((read x).item l x).IsQuoted) :
    ∃ quote r, (quote = '"' ∨ quote = '\'') ∧ x = quote :: r := by
  obtain ⟨c, r, rfl⟩ := List.exists_cons_of_ne_nil hx
  refine ⟨c, r, ?_, rfl⟩
  by_contra hc
  rw [not_or] at hc
  rw [read_cons hc] at h
  split at h
  · exact h rfl
  · split at h
    · next k n hlongest => exact not_isQuoted_of_offered (Pattern.offered_of_longest? hlongest) h
    · exact h rfl

/-- A quoted literal, or what stands in its place, ends on its line. -/
theorem inLine_of_mem_cut (hi : i ∈ cut 0 u x) (hquoted : i.IsQuoted) :
    ∀ c ∈ i.text.toList, isLineBreak c = false := by
  induction x using pieces_induction generalizing u with
  | nil => cases hi
  | piece x hx ih =>
    rw [cut_eq hx] at hi
    rcases List.mem_cons.mp hi with rfl | hi
    · obtain ⟨quote, r, hquote, rfl⟩ := exists_quote_of_isQuoted hx hquoted
      rw [text_item, String.toList_ofList, width_read_quote hquote, List.take_succ_cons]
      refine List.forall_mem_cons.mpr ⟨?_, (lands_walk hquote r).inLine⟩
      rcases hquote with rfl | rfl <;> rfl
    · exact ih hi

end Lexer

namespace Literal

/-- The scan of a quoted literal reaches as far as the walk does: through the closing quote, up to a line
break, or to the end of the text. It gives a value when the walk stops at the quote and all escapes on
its way are known. What is wrong otherwise is that the literal is not closed, if the walk stops
elsewhere, or else the first escape that is not known. So no quoted literal and nothing that stands in
the place of one reaches over the end of a line. -/
theorem scan_meets_walk :
    (∀ (quote : Char) (r : List Char), quote = '"' ∨ quote = '\'' →
      let s := scan quote r
      let w := walk quote r
      s.width = w.passed ∧ (Lexer.read (quote :: r)).width = w.passed + 1 ∧ w.StopsIn quote r ∧
        ((∃ value, s.body = .closed value) ↔ w.stop = .quote ∧ ∀ e ∈ w.escapes, e.fault? = none) ∧
        (w.stop ≠ .quote →
          s.body = .unclosed ∧ (Lexer.read (quote :: r)).content = .error (Lexer.unterminated quote)) ∧
        ∀ kind, w.stop = .quote → w.escapes.findSome? Escape.fault? = some kind →
          s.body = .faulty kind ∧ (Lexer.read (quote :: r)).content = .error kind) ∧
    ∀ source, ∀ i ∈ Lexer.items source, i.IsQuoted → ∀ c ∈ i.text.toList, isLineBreak c = false := by
  refine ⟨fun quote r hquote => ?_, fun source i hi => Lexer.inLine_of_mem_cut hi⟩
  intro s w
  obtain ⟨hwidth, htells⟩ := agrees_walk hquote r
  refine ⟨hwidth, Lexer.width_read_quote hquote r, (lands_walk hquote r).stops, ?_, fun hstop => ?_,
    fun kind hstop hkind => ?_⟩
  · rw [htells.closed_iff, Walk.fault?, List.findSome?_eq_none_iff]
  · have hbody := htells.eq_unclosed hstop
    exact ⟨hbody, Lexer.content_read_unclosed hquote hbody⟩
  · have hbody := htells.eq_faulty hstop hkind
    exact ⟨hbody, Lexer.content_read_faulty hquote hbody⟩

/-- The first of two bad escapes counts in a literal that is closed, and none in one that is not. -/
theorem scan_meets_walk_badEscapes :
    let r := "\\u12g\\q\" ;".toList
    let source := "x = \"\\q\n\";"
    (scan '"' r).width = 8 ∧ (Lexer.read ('"' :: r)).content = .error .invalidUnicodeEscape ∧
      .fault ⟨.unterminatedString, ⟨1, 5, 4⟩, "\"\\q"⟩ ∈ Lexer.items source ∧
      ∀ c ∈ "\"\\q".toList, isLineBreak c = false := by
  intro r source
  have hscan := scan_meets_walk.1 '"' r (.inl rfl)
  have hfault : .fault ⟨.unterminatedString, ⟨1, 5, 4⟩, "\"\\q"⟩ ∈ Lexer.items source := by
    decide +kernel
  exact ⟨hscan.1.trans (by decide), (hscan.2.2.2.2.2 .invalidUnicodeEscape (by decide) (by decide)).2,
    hfault, scan_meets_walk.2 source _ hfault nofun⟩

end Literal

end JavaTree
