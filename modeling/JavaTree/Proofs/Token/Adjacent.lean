import Mathlib.Data.List.Chain
import JavaTree.Proofs.Token.Numbers

/-!
A run of tokens as text spells these tokens.

Between two tokens there is a space, or the first one is read as it is with the second one right
behind it. The latter is looked up for the two of them alone. Nothing that comes behind the second
one changes it, as each mark but `...` goes on with the mark that is one character shorter: only a
dot with two more points behind it is read differently.

    1 .x     a space: `1.` is a number
    a+ +b    a space: `++` is a mark
    x.5      no token, but `x` and `.5`
-/

namespace JavaTree

open Pattern Lexer

/-! ### Marks before other characters -/

namespace Mark

/-- True when a mark and one more character are a mark. -/
def goesOn (m : Mark) (c : Char) : Bool := Mark.all.any fun l => l.chars == m.chars ++ [c]

/-- Each mark that starts with another one starts with one that is a character longer than that,
or is the ellipsis. -/
theorem exists_between (m l : Mark) (hpre : m.chars <+: l.chars) (hlen : m.chars.length < l.chars.length)
    (hdot : m ≠ dot) : ∃ k : Mark, k.chars = l.chars.take (m.chars.length + 1) := by
  have hall : ∀ m ∈ Mark.all, ∀ l ∈ Mark.all, m.chars.isPrefixOf l.chars = true →
      m.chars.length < l.chars.length → m ≠ dot →
      ∃ k ∈ Mark.all, k.chars = l.chars.take (m.chars.length + 1) := by decide +kernel
  obtain ⟨k, -, hk⟩ := hall m (mem_all m) l (mem_all l) (List.isPrefixOf_iff_prefix.mpr hpre) hlen hdot
  exact ⟨k, hk⟩

theorem eq_ellipsis {l : Mark} (hpre : dot.chars <+: l.chars) (hlen : 1 < l.chars.length) :
    l = ellipsis := by
  obtain ⟨cs, hcs⟩ := hpre
  cases l <;> first | rfl | (cases hcs; done) | (simp [chars] at hlen)

end Mark

/-- A mark is the longest one there, unless the next character goes on with it. -/
theorem mark?_append_cons {m : Mark} {c : Char} {r : List Char} (hgo : m.goesOn c = false)
    (hdots : m = .dot → c = '.' → r.head? ≠ some '.') : mark? (m.chars ++ c :: r) = some m := by
  have hown : mark? m.chars = some m := by cases m <;> rfl
  rw [← hown, mark?, mark?]
  congr 1
  funext l
  by_cases hlen : l.chars.length ≤ m.chars.length
  · exact isPrefixOf_append _ hlen
  · have hshort : l.chars.isPrefixOf m.chars = false := by
      rw [Bool.eq_false_iff, ne_eq, List.isPrefixOf_iff_prefix]
      exact fun h => hlen h.length_le
    rw [hshort, Bool.eq_false_iff, ne_eq, List.isPrefixOf_iff_prefix]
    intro hl
    have hml : m.chars ++ [c] <+: l.chars := by
      refine List.prefix_of_prefix_length_le ⟨r, ?_⟩ hl ?_
      · simp
      · simp only [List.length_append, List.length_cons, List.length_nil]
        omega
    have hpre : m.chars <+: l.chars := (List.prefix_append _ _).trans hml
    by_cases hm : m = .dot
    · subst hm
      obtain rfl := Mark.eq_ellipsis hpre (by simpa [Mark.chars] using hlen)
      obtain ⟨d, hd⟩ := hl
      cases hd
      exact hdots rfl rfl rfl
    · obtain ⟨k, hk⟩ := Mark.exists_between m l hpre (by omega) hm
      have htake : l.chars.take (m.chars.length + 1) = m.chars ++ [c] := by
        simpa using (List.prefix_iff_eq_take.mp hml).symm
      rw [htake] at hk
      have hgoes : m.goesOn c = true := List.any_eq_true.mpr ⟨k, mem_all k, by simp [hk]⟩
      rw [hgo] at hgoes
      cases hgoes

/-- Three points are an ellipsis. -/
theorem Lexer.read_points (x : List Char) :
    read ('.' :: '.' :: '.' :: x) = ⟨.ok (.mark .ellipsis), 3⟩ :=
  read_of_mark? rfl (noComment_of_ne (by decide) _) rfl

/-- The mark that is found is at least as long as any other one there. -/
theorem le_mark? {cs : List Char} {m l : Mark} (h : mark? cs = some m) (hl : l.chars <+: cs) :
    l.chars.length ≤ m.chars.length := by
  have hsorted : Mark.all.Pairwise fun a b => b.chars.length ≤ a.chars.length := by decide +kernel
  obtain ⟨hm, front, back, hall, hfront⟩ := List.find?_eq_some_iff_append.mp h
  have hmem := mem_all l
  rw [hall] at hmem hsorted
  rcases List.mem_append.mp hmem with hmem | hmem
  · have hnot := hfront l hmem
    rw [List.isPrefixOf_iff_prefix.mpr hl] at hnot
    cases hnot
  · rcases List.mem_cons.mp hmem with rfl | hmem
    · exact Nat.le_refl _
    · exact (List.pairwise_cons.mp (List.pairwise_append.mp hsorted).2.1).1 l hmem

/-- What is read is at least as wide as any piece that a shape offers. -/
theorem Pattern.Offered.le_width {c : Char} (hc : c ≠ '"' ∧ c ≠ '\'') {cs : List Char} {k : Kind} {n : Nat}
    (h : Offered (c :: cs) n k) : n ≤ (read (c :: cs)).width := by
  rw [read_cons hc]
  split
  · exact h.bounds.2
  · obtain ⟨p, hp, hle⟩ := h.exists_longest?
    rw [hp]
    exact hle

theorem Mark.chars_eq_cons (m : Mark) : ∃ c cs, m.chars = c :: cs ∧ isMarkStart c = true := by
  cases m <;> exact ⟨_, _, rfl, rfl⟩

theorem of_isMarkStart {c : Char} (h : isMarkStart c = true) :
    c ≠ '"' ∧ c ≠ '\'' ∧ isNamePart c = false ∧ c ≠ ' ' := by
  obtain ⟨m, hm⟩ := isMarkStart_cases h
  cases m <;> cases hm <;> decide

/-- Where a mark is read as it is, the next character does not go on with it. -/
theorem goesOn_eq_false {m : Mark} {c : Char} {r : List Char}
    (h : (read (m.chars ++ c :: r)).width = m.chars.length) : m.goesOn c = false := by
  rw [Bool.eq_false_iff]
  intro hgo
  obtain ⟨l, -, hl⟩ := List.any_eq_true.mp hgo
  have hpre : l.chars <+: m.chars ++ c :: r := ⟨r, by rw [eq_of_beq hl]; simp⟩
  have hlen : l.chars.length = m.chars.length + 1 := by rw [eq_of_beq hl]; simp
  obtain ⟨d, ds, hd, hstart⟩ := m.chars_eq_cons
  obtain ⟨k, hk⟩ : ∃ k, mark? (m.chars ++ c :: r) = some k := by
    refine Option.isSome_iff_exists.mp (List.find?_isSome.mpr ⟨l, mem_all l, ?_⟩)
    exact List.isPrefixOf_iff_prefix.mpr hpre
  have hle := le_mark? hk hpre
  have hoffer : Offered (m.chars ++ c :: r) k.chars.length (.mark k) := .mark hk rfl
  rw [hd, List.cons_append] at hoffer h
  have hwidth := hoffer.le_width ⟨(of_isMarkStart hstart).1, (of_isMarkStart hstart).2.1⟩
  rw [hd] at hlen
  omega

/-! ### Tokens before other texts -/

/-- A token that is read as it is with a text behind it. -/
def Token.EndsBefore (t : Token) (r : List Char) : Prop :=
  read (t.text.toList ++ r) = ⟨.ok t.kind, t.text.toList.length⟩

namespace Token

theorem text_string {t : Token} {v : String} (hk : t.kind = .string v) :
    t.text.toList = '"' :: (Literal.escapeChars '"' v.toList ++ ['"']) := by
  simp [text, hk, Literal.escape]

theorem text_character {t : Token} {c : Char} (hk : t.kind = .character c) :
    t.text.toList = '\'' :: (Literal.escapeChars '\'' [c] ++ ['\'']) := by
  simp [text, hk, Literal.escape]

/-- Tokens other than quoted literals are written as they were read. -/
theorem text_plain {t : Token} (h : t.kind.value? = none) : t.text = t.lexeme := by
  rw [text]
  split
  · next hk =>
    rw [hk] at h
    cases h
  · next hk =>
    rw [hk] at h
    cases h
  · rfl

theorem text_mark {t : Token} {m : Mark} (hk : t.kind = .mark m) (hlexeme : t.lexeme = String.ofList m.chars) :
    t.text.toList = m.chars := by
  rw [text_plain (by rw [hk]; rfl), hlexeme, String.toList_ofList]

theorem text_number {t : Token} (hk : t.kind = .integer ∨ t.kind = .float) :
    t.text = t.lexeme := by
  rcases hk with hk | hk <;> exact text_plain (by rw [hk]; rfl)

theorem text_name {t : Token} (hk : t.kind = nameKind t.lexeme.toList) : t.text = t.lexeme := by
  rcases nameKind_cases t.lexeme.toList with ⟨k, hname⟩ | hname <;>
    exact text_plain (by rw [hk, hname]; rfl)

/-- Nothing goes on with a string. -/
theorem endsBefore_string {t : Token} {v : String} (hk : t.kind = .string v) (r : List Char) :
    t.EndsBefore r := by
  rw [EndsBefore, text_string hk, hk, List.cons_append, List.append_assoc, List.singleton_append,
    Lexer.read, readString, Literal.scan_escapeChars (.inl rfl)]
  simp

theorem endsBefore_character {t : Token} {c : Char} (hk : t.kind = .character c) (r : List Char) :
    t.EndsBefore r := by
  rw [EndsBefore, text_character hk, hk, List.cons_append, List.append_assoc, List.singleton_append,
    Lexer.read, readCharacter, Literal.scan_escapeChars (.inr rfl)]
  simp

theorem endsBefore_name {t : Token} (hname : isName t.lexeme.toList = true)
    (hk : t.kind = nameKind t.lexeme.toList) {r : List Char} (hr : NameEnds r) : t.EndsBefore r := by
  rw [EndsBefore, text_name hk, read_name hname hr, ← hk]

end Token

theorem StartsNumber.head {w : List Char} (h : StartsNumber w) :
    ∃ c x, w = c :: x ∧ (isDigit c = true ∨ c = '.') := by
  obtain ⟨c, x, rfl, hc | ⟨hc, -⟩⟩ := h
  · exact ⟨c, x, rfl, .inl hc⟩
  · exact ⟨c, x, rfl, .inr hc⟩

theorem isMarkStart_of_isDigit {c : Char} (h : isDigit c = true) : isMarkStart c = false := by
  rw [Bool.eq_false_iff]
  intro hc
  have hpart := (of_isMarkStart hc).2.2.1
  rw [isNamePart_of_isDigit h] at hpart
  cases hpart

theorem of_isDigit_or_dot {c : Char} (h : isDigit c = true ∨ c = '.') :
    isBlank c = false ∧ c ≠ '"' ∧ c ≠ '\'' ∧ c ≠ '/' := by
  rcases h with h | rfl
  · have hne {d : Char} (hd : isDigit d = false) : c ≠ d := by
      rintro rfl
      rw [h] at hd
      cases hd
    refine ⟨?_, hne (by decide), hne (by decide), hne (by decide)⟩
    rw [Bool.eq_false_iff]
    intro hblank
    rcases isBlank_cases hblank with hc | hc | hc | hc | hc <;> exact hne (by decide) hc
  · decide

/-- No mark is longer in a text behind a number than in the number. -/
theorem StartsNumber.mark?_append {w : List Char} (h : StartsNumber w) (r : List Char) :
    mark? (w ++ r) = mark? w := by
  obtain ⟨c, x, rfl, hc | ⟨rfl, d, y, rfl, hd⟩⟩ := h
  · rw [List.cons_append, mark?_eq_none (isMarkStart_of_isDigit hc), mark?_eq_none (isMarkStart_of_isDigit hc)]
  · have hpoint : ('.' == d) = false := beq_eq_false_iff_ne.mpr (by rintro rfl; exact absurd hd (by decide))
    simp [mark?, Mark.all, Mark.chars, List.find?, List.isPrefixOf, hpoint]

/-- Nothing in a hexadecimal number is taken for a point or an exponent. -/
theorem offers_append_hexadecimal {b : Char} (hb : b = 'x' ∨ b = 'X') (x : List Char) {r : List Char}
    (hr : NameEnds r) : offers ('0' :: b :: x ++ r) = offers ('0' :: b :: x) := by
  have hdigits (y : List Char) : digits ('0' :: b :: y) = 1 := by
    rcases hb with rfl | rfl <;> rfl
  have hpointed (y : List Char) : pointed? ('0' :: b :: y) = none := by
    rw [pointed?_eq, hdigits, found, if_neg Nat.one_ne_zero, Option.bind_some, List.drop_succ_cons,
      List.drop_zero, behindPoint?_eq_none (by rcases hb with rfl | rfl <;> decide)]
    rfl
  have hexponential (y : List Char) : exponential? ('0' :: b :: y) = none := by
    rw [exponential?, hdigits]
    rcases hb with rfl | rfl <;> rfl
  refine offers_append_of (List.cons_ne_nil _ _) ?_ (noComment_of_ne (by decide) _) hr ?_ ?_ rfl ?_
  · rintro c hc
    cases hc
    rfl
  · exact (mark?_eq_none (by decide) _).trans (mark?_eq_none (by decide) _).symm
  · exact (hpointed _).trans (hpointed _).symm
  · exact (hexponential _).trans (hexponential _).symm

/-- A number before a text that goes on with no letter or digit and, behind plain digits, with no point. -/
theorem StartsNumber.read_append {w : List Char} (h : StartsNumber w) {k : Kind}
    (hk : k = .integer ∨ k = .float) (hread : read w = ⟨.ok k, w.length⟩) {r : List Char} (hr : NameEnds r)
    (hpoint : r.head? = some '.' → digits w ≠ w.length) : read (w ++ r) = ⟨.ok k, w.length⟩ := by
  have hmark := h.mark?_append r
  obtain ⟨c, x, rfl, hc⟩ := h.head
  obtain ⟨hblank, hstring, hcharacter, hslash⟩ := of_isDigit_or_dot hc
  have hcomment : NoComment (c :: x ++ r) := noComment_of_ne hslash _
  have hquote : ∀ d ∈ (c :: x).head?, d ≠ '"' ∧ d ≠ '\'' := by
    rintro d hd
    cases hd
    exact ⟨hstring, hcharacter⟩
  rw [← hread]
  by_cases hletter : ∃ d ∈ (c :: x).getLast?, IsExponentLetter d
  · -- a sign and digits behind this letter do not go on with the number
    obtain ⟨d, hd, hletter⟩ := hletter
    have hoffer := offered_of_read ⟨hstring, hcharacter⟩ hread
    obtain ⟨b, y, hw, hb⟩ := hoffer.hexadecimal_of_isExponentLetter hk hd hletter
    rw [hw] at hquote hcomment ⊢
    exact read_append_of (List.cons_ne_nil _ _) hquote hcomment (offers_append_hexadecimal hb y hr)
  · refine Lexer.read_append (List.cons_ne_nil _ _) ?_ hquote hcomment ⟨hr, ?_⟩ hmark hpoint
    · rintro d hd
      cases hd
      exact hblank
    · intro d hd hletter'
      exact absurd ⟨d, hd, hletter'⟩ hletter

theorem Token.endsBefore_number {t : Token} (hk : t.kind = .integer ∨ t.kind = .float)
    (hread : read t.lexeme.toList = ⟨.ok t.kind, t.lexeme.toList.length⟩)
    (hstart : StartsNumber t.lexeme.toList) {r : List Char} (hr : NameEnds r)
    (hpoint : r.head? = some '.' → digits t.lexeme.toList ≠ t.lexeme.toList.length) : t.EndsBefore r := by
  rw [EndsBefore, text_number hk]
  exact hstart.read_append hk hread hr hpoint

/-- A mark before a character that does not go on with it. -/
theorem Token.endsBefore_mark {t : Token} {m : Mark} (hk : t.kind = .mark m)
    (hlexeme : t.lexeme = String.ofList m.chars) {c : Char} {r : List Char} (hgo : m.goesOn c = false)
    (hcomment : m = .slash → c ≠ '/' ∧ c ≠ '*') (hdigit : m = .dot → isDigit c = false)
    (hdots : m = .dot → c = '.' → r.head? ≠ some '.') : t.EndsBefore (c :: r) := by
  rw [EndsBefore, text_mark hk hlexeme, hk]
  refine read_of_mark? (mark?_append_cons hgo hdots) ?_ ?_
  · by_cases hm : m = .slash
    · subst hm
      rintro a b bs heq -
      cases heq
      exact hcomment rfl
    · rintro a b bs heq rfl
      cases m <;> cases heq <;> first | exact absurd rfl hm | decide
  · by_cases hm : m = .dot
    · subst hm
      simp [Mark.chars, leadingPoint?, digits, hdigit rfl, found]
    · cases m <;> first | exact absurd rfl hm | rfl

/-! ### Separators and colons behind a token -/

namespace Token.IsReadable

variable {t u : Token}

/-- A token has a text, which does not end in a space. -/
theorem text_ne_nil (h : t.IsReadable) : t.text.toList ≠ [] := by
  cases h with
  | name hname hk =>
    rw [text_name hk]
    intro hnil
    rw [hnil] at hname
    cases hname
  | number hk _ hstart =>
    rw [text_number hk]
    obtain ⟨c, x, hx, -⟩ := hstart.head
    rw [hx]
    nofun
  | mark m hk hlexeme =>
    rw [text_mark hk hlexeme]
    cases m <;> nofun
  | string v hk => rw [text_string hk]; nofun
  | character c hk => rw [text_character hk]; nofun

theorem isTrivia_eq_false (h : t.IsReadable) : t.kind.isTrivia = false := by
  cases h with
  | name _ hk => rw [hk, Writes.nameKind_isTrivia]
  | number hk => rcases hk with hk | hk <;> rw [hk] <;> rfl
  | mark m hk => rw [hk]; rfl
  | string v hk => rw [hk]; rfl
  | character c hk => rw [hk]; rfl

/-- A token that is read as it is in front of words. -/
theorem spells (h : t.IsReadable) {r : List Char} (hbefore : t.EndsBefore r) {ws : List Word}
    (hr : Spells r ws) : Spells (t.text.toList ++ r) (t.written :: ws) := by
  have hword := Spells.word h.text_ne_nil h.isTrivia_eq_false hbefore hr
  rwa [String.ofList_toList] at hword

theorem endsBefore_separated (h : t.IsReadable) {r : List Char} (hr : Separated r) :
    t.EndsBefore r := by
  have hstops : Stops r := by
    rcases r with _ | ⟨c, cs⟩
    · exact stops_nil
    · exact stops_separator (hr c rfl) cs
  cases h with
  | name hname hk => exact endsBefore_name hname hk hstops.name
  | number hk hread hstart =>
    refine endsBefore_number hk hread hstart hstops.name fun hdot => ?_
    exact absurd (hr '.' hdot) (by decide)
  | mark m hk hlexeme =>
    rcases r with _ | ⟨c, cs⟩
    · rw [EndsBefore, text_mark hk hlexeme, hk, List.append_nil, read_mark]
    · have hc : isSeparator c = true := hr c rfl
      have hsep {d : Char} (hd : isSeparator d = false) : c ≠ d := by
        rintro rfl
        rw [hc] at hd
        cases hd
      refine endsBefore_mark hk hlexeme ?_ (fun _ => ⟨hsep (by decide), hsep (by decide)⟩) (fun _ => ?_)
        fun _ hdot => absurd hdot (hsep (by decide))
      · -- no mark has a separator behind its first character
        rw [Bool.eq_false_iff]
        intro hgo
        obtain ⟨l, -, hl⟩ := List.any_eq_true.mp hgo
        obtain ⟨d, ds, hd, -⟩ := m.chars_eq_cons
        have hsolo := List.all_eq_true.mp (isSolo_of_isSeparator hc) l (mem_all l)
        rw [eq_of_beq hl, hd] at hsolo
        simp at hsolo
      · have hname := hstops.name c rfl
        rw [Bool.eq_false_iff]
        intro hdigit
        rw [isNamePart_of_isDigit hdigit] at hname
        cases hname
  | string v hk => exact endsBefore_string hk r
  | character c hk => exact endsBefore_character hk r

theorem endsBefore_colon (h : t.IsReadable) (hcolon : t.kind ≠ .mark .colon) (r : List Char) :
    t.EndsBefore (':' :: r) := by
  cases h with
  | name hname hk =>
    refine endsBefore_name hname hk fun c hc => ?_
    cases hc
    decide
  | number hk hread hstart =>
    refine endsBefore_number hk hread hstart (fun c hc => ?_) nofun
    cases hc
    decide
  | mark m hk hlexeme =>
    refine endsBefore_mark hk hlexeme ?_ (fun _ => by decide) (fun _ => by decide) nofun
    cases m <;> first | exact absurd hk hcolon | rfl
  | string v hk => exact endsBefore_string hk _
  | character c hk => exact endsBefore_character hk _

theorem getLast?_ne_space (h : t.IsReadable) : t.text.toList.getLast? ≠ some ' ' := by
  intro hlast
  obtain ⟨w, hw⟩ := List.getLast?_eq_some_iff.mp hlast
  cases h with
  | name hname hk =>
    rw [text_name hk] at hw
    rw [hw] at hname
    rcases w with _ | ⟨c, w⟩
    · cases hname
    · simp only [List.cons_append, isName, List.all_append, Bool.and_eq_true] at hname
      exact absurd hname.2.2 (by decide)
  | number hk hread hstart =>
    -- a blank ends the number before it, so nothing is read up to the end of the blank
    rw [text_number hk] at hw
    obtain ⟨c, x, hx, hc⟩ := hstart.head
    obtain ⟨hblank, hstring, hcharacter, hslash⟩ := of_isDigit_or_dot hc
    rw [hw] at hread hx
    rcases w with _ | ⟨d, w⟩
    · cases hx
      rcases hc with hc | hc <;> exact absurd hc (by decide)
    · obtain rfl : d = c := by simpa using congrArg List.head? hx
      have hcut := read_append_separator (w := d :: w) (c := ' ') (List.cons_ne_nil d w)
        (by rintro e he; cases he; exact hblank) (by rintro e he; cases he; exact ⟨hstring, hcharacter⟩)
        (noComment_of_ne hslash _) (by decide) []
      have hle := (bounds_of_read d w).2
      rw [← hcut, hread] at hle
      simp only [List.length_append, List.length_cons, List.length_nil] at hle
      omega
  | mark m hk hlexeme =>
    rw [text_mark hk hlexeme] at hlast
    cases m <;> cases hlast
  | string v hk =>
    rw [text_string hk] at hlast
    simp [List.getLast?_cons, List.getLast?_append] at hlast
  | character c hk =>
    rw [text_character hk] at hlast
    simp [List.getLast?_cons, List.getLast?_append] at hlast

theorem getLast?_text (h : t.IsReadable) :
    ∃ c, t.text.toList.getLast? = some c ∧ (c == ' ') = false := by
  cases hlast : t.text.toList.getLast? with
  | none => exact absurd (List.getLast?_eq_none_iff.mp hlast) h.text_ne_nil
  | some c =>
    refine ⟨c, rfl, beq_eq_false_iff_ne.mpr ?_⟩
    rintro rfl
    exact h.getLast?_ne_space hlast

/-! ### Tokens right behind each other -/

theorem isWordlike_of_name {k : Kind} {w : List Char} (hk : k = nameKind w) :
    Spacing.isWordlike k = true := by
  rcases nameKind_cases w with ⟨k, hname⟩ | hname <;> rw [hk, hname] <;> rfl

theorem isWordlike_of_number {k : Kind} (hk : k = .integer ∨ k = .float) :
    Spacing.isWordlike k = true := by
  rcases hk with rfl | rfl <;> rfl

/-- A token is wordlike, or a mark. -/
theorem isWordlike_or_mark (h : t.IsReadable) : Spacing.isWordlike t.kind = true ∨
    ∃ m, t.kind = .mark m ∧ t.lexeme = String.ofList m.chars := by
  cases h with
  | name _ hk => exact .inl (isWordlike_of_name hk)
  | number hk => exact .inl (isWordlike_of_number hk)
  | mark m hk hlexeme => exact .inr ⟨m, hk, hlexeme⟩
  | string v hk => exact .inl (by rw [hk]; rfl)
  | character c hk => exact .inl (by rw [hk]; rfl)

/-- A mark goes on with no name. -/
theorem nameEnds_mark (m : Mark) (r : List Char) : NameEnds (m.chars ++ r) := by
  intro c hc
  obtain ⟨d, ds, hd, hstart⟩ := m.chars_eq_cons
  rw [hd] at hc
  cases hc
  exact (of_isMarkStart hstart).2.2.1

/-- Digits with a point behind them are read as a number. -/
theorem lt_width_of_point {w : List Char} (hw : w ≠ []) (hdigits : digits w = w.length) (y : List Char) :
    w.length < (read (w ++ '.' :: y)).width := by
  have hpoint : NameEnds ('.' :: y) := by
    rintro c hc
    cases hc
    decide
  have hfound : digits (w ++ '.' :: y) = w.length := (digits_append hpoint w).trans hdigits
  obtain ⟨c, x, rfl⟩ := List.exists_cons_of_ne_nil hw
  have hc : isDigit c = true := by
    rw [digits] at hdigits
    split at hdigits
    · assumption
    · cases hdigits
  obtain ⟨-, hstring, hcharacter, -⟩ := of_isDigit_or_dot (.inl hc)
  have hpointed : ∃ n, pointed? (c :: x ++ '.' :: y) = some n ∧ (c :: x).length < n := by
    rw [pointed?, hfound, found, if_neg (by simp), Option.bind_some, List.drop_left]
    exact ⟨_, rfl, by omega⟩
  obtain ⟨n, hn, hlt⟩ := hpointed
  exact Nat.lt_of_lt_of_le hlt ((Offered.pointed hn).le_width ⟨hstring, hcharacter⟩)

/-- A slash with a slash or a star behind it is read as a comment. -/
theorem one_lt_width_of_comment {c : Char} (hc : c = '/' ∨ c = '*') (x : List Char) :
    1 < (read ('/' :: c :: x)).width := by
  rcases hc with rfl | rfl
  · have hoffer : Offered ('/' :: '/' :: x) (2 + run (· != '\n') x) .lineComment := .lineComment rfl
    have hle := hoffer.le_width (by decide)
    omega
  · rcases hend : commentEnd? x with _ | n
    · rw [read_cons (by decide), opensEndlessComment, hend]
      simp
    · have hoffer : Offered ('/' :: '*' :: x) (n + 2) .blockComment :=
        .blockComment (by rw [blockComment?, hend, Option.map_some])
      have hle := hoffer.le_width (by decide)
      omega

/-- A point with a digit behind it is read as a number. -/
theorem one_lt_width_of_digit {c : Char} (hc : isDigit c = true) (x : List Char) :
    1 < (read ('.' :: c :: x)).width := by
  have hpos : digits (c :: x) ≠ 0 := by
    rw [digits, if_pos hc]
    omega
  have hoffer : Offered ('.' :: c :: x)
      (1 + digits (c :: x) + floatTail ((c :: x).drop (digits (c :: x)))) .float :=
    .leadingPoint (by rw [leadingPoint?, found, if_neg hpos, Option.map_some])
  have hle := hoffer.le_width (by decide)
  omega

/-- Whole numbers do not start with a point. -/
theorem kind_of_point {k : Kind} (hk : k = .integer ∨ k = .float) {x : List Char}
    (hread : read ('.' :: x) = ⟨.ok k, ('.' :: x).length⟩) : k = .float := by
  refine hk.resolve_left ?_
  rintro rfl
  cases offered_of_read (by decide) hread with
  | name h _ => cases h
  | decimal h =>
    rw [decimal?, digits_eq_zero (by decide)] at h
    cases h
  | hexadecimal h =>
    rw [hexadecimal?, based?_eq_none (by decide)] at h
    cases h
  | binary h =>
    rw [binary?, based?_eq_none (by decide)] at h
    cases h

/-- A token that starts with a point is a point, an ellipsis or a number. -/
theorem of_point (h : t.IsReadable) {x : List Char} (hx : t.text.toList = '.' :: x) :
    t.kind = .mark .dot ∧ x = [] ∨ t.kind = .mark .ellipsis ∧ x = ['.', '.'] ∨
      t.kind = .float ∧ ∃ d y, x = d :: y ∧ isDigit d = true := by
  cases h with
  | name hname hk =>
    rw [text_name hk] at hx
    rw [hx] at hname
    cases hname
  | number hk hread hstart =>
    rw [text_number hk] at hx
    obtain ⟨c, y, hy, hc | ⟨-, hdigit⟩⟩ := hstart
    · obtain ⟨rfl, rfl⟩ : c = '.' ∧ y = x := by simpa [hx] using hy.symm
      exact absurd hc (by decide)
    · obtain ⟨rfl, rfl⟩ : c = '.' ∧ y = x := by simpa [hx] using hy.symm
      rw [hx] at hread
      exact .inr (.inr ⟨kind_of_point hk hread, hdigit⟩)
  | mark m hk hlexeme =>
    rw [text_mark hk hlexeme] at hx
    cases m <;> cases hx
    · exact .inl ⟨hk, rfl⟩
    · exact .inr (.inl ⟨hk, rfl⟩)
  | string v hk =>
    rw [text_string hk] at hx
    cases hx
  | character c hk =>
    rw [text_character hk] at hx
    cases hx

theorem text_dot (h : t.IsReadable) (hk : t.kind = .mark .dot) : t.text.toList = ['.'] := by
  cases h with
  | mark m hk' hlexeme =>
    obtain rfl : m = .dot := by simpa [hk'] using hk
    exact text_mark hk' hlexeme
  | name _ hk' =>
    have hword := isWordlike_of_name hk'
    rw [hk] at hword
    cases hword
  | number hk' => rcases hk' with hk' | hk' <;> cases hk.symm.trans hk'
  | string v hk' => cases hk.symm.trans hk'
  | character c hk' => cases hk.symm.trans hk'

/-- A token with a text right behind it that does not make it longer. -/
theorem endsBefore_append (ht : t.IsReadable) {x : List Char} (hx : x ≠ [])
    (hname : t.kind.isWord = true → NameEnds x) (hmerges : Spacing.merges t.text.toList x = false)
    {r : List Char} (hdots : t.kind = .mark .dot → x = ['.'] → r.head? ≠ some '.') :
    t.EndsBefore (x ++ r) := by
  have hwidth : (read (t.text.toList ++ x)).width = t.text.toList.length := by
    have hne := ht.text_ne_nil
    simpa [Spacing.merges, hne, hx] using hmerges
  obtain ⟨c, y, rfl⟩ := List.exists_cons_of_ne_nil hx
  cases ht with
  | name hword hk =>
    refine endsBefore_name hword hk (hname ?_)
    rcases nameKind_cases t.lexeme.toList with ⟨k, hkind⟩ | hkind <;> rw [hk, hkind] <;> rfl
  | number hk hread hstart =>
    have hisWord : t.kind.isWord = true := by rcases hk with hk | hk <;> rw [hk] <;> rfl
    refine endsBefore_number hk hread hstart (hname hisWord) fun hdot hdigits => ?_
    -- digits with a point behind them are a longer number
    cases hdot
    rw [text_number hk] at hwidth
    obtain ⟨d, z, hz, -⟩ := hstart.head
    have hlt := lt_width_of_point (by rw [hz]; exact List.cons_ne_nil _ _) hdigits y
    rw [hwidth] at hlt
    exact Nat.lt_irrefl _ hlt
  | mark m hk hlexeme =>
    rw [text_mark hk hlexeme] at hwidth
    refine endsBefore_mark hk hlexeme (goesOn_eq_false hwidth) ?_ ?_ ?_
    · rintro rfl
      have hone {d : Char} (hd : d = '/' ∨ d = '*') : c ≠ d := by
        rintro rfl
        exact absurd hwidth (Nat.ne_of_gt (one_lt_width_of_comment hd y))
      exact ⟨hone (.inl rfl), hone (.inr rfl)⟩
    · rintro rfl
      rw [Bool.eq_false_iff]
      intro hdigit
      exact absurd hwidth (Nat.ne_of_gt (one_lt_width_of_digit hdigit y))
    · rintro rfl rfl hhead
      rcases y with _ | ⟨d, y⟩
      · exact hdots hk rfl hhead
      · -- three points are an ellipsis
        cases hhead
        exact absurd ((congrArg Lexer.Reading.width (read_points y)).symm.trans hwidth) (by decide)
  | string v hk => exact endsBefore_string hk _
  | character c hk => exact endsBefore_character hk _

/-- Where no space is needed, the first token is read as it is with the second one behind it. -/
theorem endsBefore_text (ht : t.IsReadable) (hu : u.IsReadable)
    (hwords : (Spacing.isWordlike u.kind && Spacing.isWordlike t.kind) = false)
    (hmerges : Spacing.merges t.text.toList u.text.toList = false) {r : List Char}
    (hdots : t.kind = .mark .dot → u.kind = .mark .dot → r.head? ≠ some '.') :
    t.EndsBefore (u.text.toList ++ r) := by
  refine ht.endsBefore_append hu.text_ne_nil (fun hword => ?_) hmerges fun hdot hx => ?_
  · -- behind a word stands a mark
    have hwordlike : Spacing.isWordlike t.kind = true := by
      revert hword
      cases t.kind <;> first | exact id | exact fun _ => rfl
    rw [hwordlike, Bool.and_true] at hwords
    obtain ⟨m, hm, hlexeme⟩ := hu.isWordlike_or_mark.resolve_left (by simp [hwords])
    rw [text_mark hm hlexeme, ← List.append_nil m.chars]
    exact nameEnds_mark m []
  · rcases hu.of_point hx with ⟨hdot', -⟩ | ⟨-, hnil⟩ | ⟨-, d, y, hnil, -⟩
    · exact hdots hdot hdot'
    · cases hnil
    · cases hnil

end Token.IsReadable

/-! ### Runs of tokens -/

/-- No token of the one kind has a token of the other one right behind it. -/
def NoPair (a b : Kind) (ks : List Kind) : Prop := ks.IsChain fun x y => ¬ (x = a ∧ y = b)

instance (a b : Kind) (ks : List Kind) : Decidable (NoPair a b ks) :=
  inferInstanceAs (Decidable (List.IsChain _ _))

theorem Angle.length_marks (ts : List Token) (inside : Nat) : (marks inside ts).length = ts.length := by
  induction ts generalizing inside with
  | nil => rfl
  | cons t ts ih =>
    cases inside with
    | zero =>
      rw [marks]
      split <;> simp [ih]
    | succ n => simp [marks, ih]

namespace Spacing

/-- What is to the left of the next token behind a token that has been written. -/
def Left.behind (previous : Option Kind) (t : Token) (angle : Bool) : Left :=
  ⟨t, isPadded t.kind previous angle || t.kind == .mark .comma || t.kind == .mark .semicolon, false⟩

/-- The space before a token, if there is one. -/
def Left.gap (l : Left) (t : Token) (angle : Bool) : List Char :=
  if needsSpace l t (isPadded t.kind (some l.token.kind) angle) then [' '] else []

/-- A first token is written as it is. -/
theorem pieces_none {t : Token} (ht : t.IsReadable) (b : Bool) (rest : List (Token × Bool)) :
    pieces none ((t, b) :: rest) = t.text :: pieces (some (.behind none t b)) rest := by
  obtain ⟨c, hc, hspace⟩ := ht.getLast?_text
  simp only [pieces, hc, hspace]
  rfl

/-- A token behind another one is written as it is, with a space before it where that is needed. -/
theorem pieces_some {l : Left} (hspace : l.endsInSpace = false) {t : Token} (ht : t.IsReadable) (b : Bool)
    (rest : List (Token × Bool)) :
    (String.join (pieces (some l) ((t, b) :: rest))).toList = l.gap t b ++ (t.text.toList ++
      (String.join (pieces (some (.behind (some l.token.kind) t b)) rest)).toList) := by
  obtain ⟨c, hc, hlast⟩ := ht.getLast?_text
  simp only [pieces, hc, hlast, hspace, Bool.not_false, Bool.and_true, Option.map_some,
    String.join_cons, String.toList_append, Left.gap, Left.behind]
  split <;> simp

/-- Where there is no space, the token to the left is read as it is, unless it is the first of three
points. -/
theorem Left.endsBefore {l : Left} (hl : l.token.IsReadable) {t : Token} (ht : t.IsReadable) {b : Bool}
    (hgap : l.gap t b = []) {r : List Char}
    (hdots : l.token.kind = .mark .dot → t.kind = .mark .dot → r.head? ≠ some '.') :
    l.token.EndsBefore (t.text.toList ++ r) := by
  rw [Left.gap] at hgap
  split at hgap
  · cases hgap
  · next hneeds =>
    simp only [needsSpace, Bool.or_eq_true, not_or, Bool.not_eq_true, Bool.and_or_distrib_left] at hneeds
    obtain ⟨⟨-, hwords, -⟩, hmerges⟩ := hneeds
    exact hl.endsBefore_text ht hwords hmerges hdots

theorem Left.gap_cases (l : Left) (t : Token) (b : Bool) : l.gap t b = [' '] ∨ l.gap t b = [] := by
  rw [Left.gap]
  split
  · exact .inl rfl
  · exact .inr rfl

end Spacing

/-- A dot, or a number that starts with a point. -/
def Token.IsPoint (t : Token) : Prop :=
  t.kind = .mark .dot ∨ t.kind = .float ∧ t.lexeme.toList.head? = some '.'

/-- Three tokens of which the first two are read as an ellipsis with the point that the third one starts
with. -/
structure Fuses (t u v : Token) : Prop where
  first : t.kind = .mark .dot
  second : u.kind = .mark .dot
  third : v.IsPoint

/-- Where no two dots are next to each other, no three tokens fuse. -/
theorem not_fuses_of_noPair {ts : List Token}
    (hdots : NoPair (.mark .dot) (.mark .dot) (ts.map Token.kind)) {t u v : Token}
    (hsub : [t, u, v] <:+: ts) : ¬ Fuses t u v := by
  have hchain := List.IsChain.infix hdots (hsub.map Token.kind)
  exact fun h => (List.isChain_cons_cons.mp hchain).1 ⟨h.first, h.second⟩

namespace Spacing

/-- What is written behind a dot starts with a point only if the next token does. -/
theorem isPoint_of_head? {l : Left} (hl : l.token.IsReadable) (hspace : l.endsInSpace = false)
    (hdot : l.token.kind = .mark .dot) {t : Token} (ht : t.IsReadable) (b : Bool)
    {rest : List (Token × Bool)} {r : List Char}
    (h : ((String.join (pieces (some l) ((t, b) :: rest))).toList ++ r).head? = some '.') :
    t.IsPoint := by
  obtain ⟨c, x, hx⟩ := List.exists_cons_of_ne_nil ht.text_ne_nil
  rw [pieces_some hspace ht] at h
  obtain hgap | hgap := l.gap_cases t b
  · rw [hgap] at h
    cases h
  · obtain rfl : c = '.' := by simpa [hgap, hx] using h
    rcases ht.of_point hx with ⟨hk, -⟩ | ⟨-, rfl⟩ | ⟨hk, -⟩
    · exact .inl hk
    · -- four points are an ellipsis and a dot
      have hread := Left.endsBefore hl ht hgap (r := []) fun _ _ => nofun
      rw [Token.EndsBefore, hl.text_dot hdot, hx, hdot] at hread
      exact absurd (congrArg Lexer.Reading.width hread) (by decide)
    · rw [Token.text_number (.inr hk)] at hx
      exact .inr ⟨hk, by rw [hx]; rfl⟩

/-- A token is read as it is with others behind it, unless it is the first of three points. -/
theorem Left.endsBefore_pieces {l : Left} (hl : l.token.IsReadable) (hspace : l.endsInSpace = false)
    {t : Token} (ht : t.IsReadable) {ts : List Token} (hts : ∀ v ∈ ts, v.IsReadable) {b : Bool}
    {bs : List Bool} (hbs : bs.length = ts.length) {r : List Char}
    (hfuses : ∀ v ∈ ts.head?, ¬ Fuses l.token t v)
    (hends : ts = [] → l.token.kind = .mark .dot → t.kind = .mark .dot → r.head? ≠ some '.') :
    l.token.EndsBefore ((String.join (pieces (some l) ((t :: ts).zip (b :: bs)))).toList ++ r) := by
  rw [List.zip_cons_cons, pieces_some hspace ht, List.append_assoc, List.append_assoc]
  obtain hgap | hgap := l.gap_cases t b
  · -- a space ends the token before it
    rw [hgap]
    exact hl.endsBefore_separated fun c hc => by cases hc; rfl
  · rw [hgap]
    refine Left.endsBefore hl ht hgap fun hdot hdot' => ?_
    rcases ts with _ | ⟨v, ts⟩
    · exact hends rfl hdot hdot'
    · -- a third point would fuse with the two dots
      intro hhead
      obtain ⟨d, bs, rfl⟩ := List.exists_cons_of_length_eq_add_one hbs
      have hthird := isPoint_of_head? (l := .behind (some l.token.kind) t b) ht rfl hdot'
        (hts v List.mem_cons_self) d hhead
      exact hfuses v rfl ⟨hdot, hdot', hthird⟩

/-- Tokens behind another one spell themselves, and do not go on with it. -/
theorem spells_pieces {ts : List Token} (hts : ∀ t ∈ ts, t.IsReadable) {l : Left}
    (hl : l.token.IsReadable) (hspace : l.endsInSpace = false)
    (hfuses : ∀ t u v, [t, u, v] <:+: l.token :: ts → ¬ Fuses t u v) {r : List Char}
    (hends : ∀ t u, [t, u] <:+ l.token :: ts → t.kind = .mark .dot → u.kind = .mark .dot →
      r.head? ≠ some '.')
    (hlast : ∀ t ∈ (l.token :: ts).getLast?, t.EndsBefore r) {vs : List Word} (hr : Spells r vs)
    {bs : List Bool} (hbs : bs.length = ts.length) :
    l.token.EndsBefore ((String.join (pieces (some l) (ts.zip bs))).toList ++ r) ∧
      Spells ((String.join (pieces (some l) (ts.zip bs))).toList ++ r) (ts.map Token.written ++ vs) := by
  induction ts generalizing l bs with
  | nil => exact ⟨hlast _ rfl, hr⟩
  | cons u us ih =>
    obtain ⟨b, bs, rfl⟩ := List.exists_cons_of_length_eq_add_one hbs
    have hu := hts u List.mem_cons_self
    have hus : ∀ t ∈ us, t.IsReadable := fun t ht => hts t (List.mem_cons_of_mem _ ht)
    refine ⟨Left.endsBefore_pieces hl hspace hu hus (Nat.succ.inj hbs) (fun v hv => ?_) ?_, ?_⟩
    · obtain ⟨vs, rfl⟩ := List.head?_eq_some_iff.mp hv
      exact hfuses l.token u v (List.prefix_append [l.token, u, v] vs).isInfix
    · rintro rfl
      exact hends _ _ (List.suffix_refl _)
    · obtain ⟨hbefore, hspells⟩ := ih hus (l := .behind (some l.token.kind) u b) hu rfl
        (fun t v w hsub => hfuses t v w (hsub.trans (List.suffix_cons _ _).isInfix))
        (fun t v hsub => hends t v (hsub.trans (List.suffix_cons _ _)))
        (fun t ht => hlast t (by rwa [List.getLast?_cons_cons])) (Nat.succ.inj hbs)
      rw [List.zip_cons_cons, pieces_some hspace hu, List.append_assoc, List.append_assoc]
      have hword := hu.spells hbefore hspells
      obtain hgap | hgap := l.gap_cases u b <;> rw [hgap]
      · exact .blank rfl hword
      · exact hword

/-- A run of tokens, as text, spells these tokens if no three of them are read differently. -/
theorem writes_unfused {ts : List Token} (hts : ∀ t ∈ ts, t.IsReadable)
    (hfuses : ∀ t u v, [t, u, v] <:+: ts → ¬ Fuses t u v) :
    Writes (render ts) (ts.map Token.written) fun r => (∀ t ∈ ts.getLast?, t.EndsBefore r) ∧
      ∀ t u, [t, u] <:+ ts → t.kind = .mark .dot → u.kind = .mark .dot → r.head? ≠ some '.' := by
  rintro r vs ⟨hlast, hends⟩ hr
  rcases ts with _ | ⟨t, ts⟩
  · exact hr
  · have ht := hts t List.mem_cons_self
    have hlength := Angle.length_marks (t :: ts) 0
    obtain ⟨b, bs, hmarks⟩ := List.exists_cons_of_length_eq_add_one hlength
    rw [hmarks] at hlength
    obtain ⟨hbefore, hspells⟩ := spells_pieces (fun u hu => hts u (List.mem_cons_of_mem _ hu))
      (l := .behind none t b) ht rfl hfuses hends hlast hr (Nat.succ.inj hlength)
    rw [render, hmarks, List.zip_cons_cons, pieces_none ht, String.join_cons, String.toList_append,
      List.append_assoc]
    exact ht.spells hbefore hspells

end Spacing

end JavaTree
