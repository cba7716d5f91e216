import JavaTree.Proofs.Token.Adjacent
import JavaTree.Proofs.Token.Comment
import JavaTree.Proofs.Token.Coordinates
import JavaTree.Proofs.Token.Spelling

/-!
Every piece of a text is the longest one that the table of patterns has there.

`Makes` is the table: a text and the kind of token that it makes. `IsReading` says what stands at the
start of a text by the table alone, with no word on how it is found. A text that makes tokens of two
kinds is a reserved word and a name, and counts as the former; no other two patterns share a text,
since they differ in their first two characters or, among the numbers, in the character behind the
leading digits.

    text:      0x      1e+     1_000.e5;     ...        >>>=x
    reading:   0  x    1  e    1_000.e5      ...        >>>=
-/

open Computability

namespace JavaTree

namespace Pattern

/-! ### The table -/

/-- The base letters of hexadecimal integers. -/
def isHexMark (b : Char) : Bool := b == 'x' || b == 'X'

/-- The base letters of binary integers. -/
def isBitMark (b : Char) : Bool := b == 'b' || b == 'B'

/-- A text that a pattern of the table has, and the kind of token of that pattern. -/
inductive Makes (u : List Char) : Kind → Prop
  | keyword (k : Keyword) (h : u ∈ word k.text.toList) : Makes u (.keyword k)
  | mark (m : Mark) (h : u ∈ word m.chars) : Makes u (.mark m)
  | decimal (h : u ∈ decimalShape) : Makes u .integer
  | hexadecimal (h : u ∈ basedShape isHexMark isHexOrGap) : Makes u .integer
  | binary (h : u ∈ basedShape isBitMark isBitOrGap) : Makes u .integer
  | pointed (h : u ∈ pointedShape) : Makes u .float
  | leadingPoint (h : u ∈ leadingPointShape) : Makes u .float
  | exponential (h : u ∈ exponentialShape) : Makes u .float
  | suffixed (h : u ∈ suffixedShape) : Makes u .float
  | name (h : u ∈ nameShape) : Makes u .identifier
  | lineComment (h : u ∈ lineCommentShape) : Makes u .lineComment
  | blockComment (h : u ∈ blockCommentShape) : Makes u .blockComment
  | blank (h : u ∈ oneOrMore (ofClass isBlank)) : Makes u .blank
  | byteOrderMark (h : u ∈ word ['\ufeff']) : Makes u .byteOrderMark

variable {u x r : List Char} {k : Kind} {n : Nat}

/-! ### Offers and patterns -/

theorem finds_hexadecimal : Finds (basedShape isHexMark isHexOrGap) hexadecimal? := by
  refine finds_based _ _ fun c hc => ?_
  simp only [isLongMark, Bool.or_eq_true, beq_iff_eq] at hc
  rcases hc with rfl | rfl <;> decide

theorem finds_binary : Finds (basedShape isBitMark isBitOrGap) binary? := by
  refine finds_based _ _ fun c hc => ?_
  simp only [isLongMark, Bool.or_eq_true, beq_iff_eq] at hc
  rcases hc with rfl | rfl <;> decide

theorem mem_nameShape : u ∈ nameShape ↔ isName u = true := by
  rw [nameShape, Language.mem_mul]
  constructor
  · rintro ⟨_, ⟨c, hc, rfl⟩, v, hv, rfl⟩
    simpa [isName, hc] using mem_kstar_ofClass.mp hv
  · intro h
    rcases u with _ | ⟨c, u⟩
    · cases h
    · simp only [isName, Bool.and_eq_true, List.all_eq_true] at h
      exact ⟨[c], ⟨c, h.1, rfl⟩, u, mem_kstar_ofClass.mpr h.2, rfl⟩

theorem makes_name (h : isName u = true) : Makes u (nameKind u) := by
  unfold nameKind
  split
  · next w hw =>
    have htext : w.text = String.ofList u := by simpa using List.find?_some hw
    exact .keyword w (mem_word.mpr (by rw [htext, String.toList_ofList]))
  · exact .name (mem_nameShape.mpr h)

/-- What is offered is the start of the text that a pattern has. -/
theorem Offered.makes (h : Offered x n k) : n ≤ x.length ∧ Makes (x.take n) k := by
  refine ⟨h.bounds.2, ?_⟩
  cases h with
  | name h hk => exact hk ▸ makes_name (mem_nameShape.mp (finds_name.mem h).2)
  | @mark m h hn => exact .mark m (hn ▸ (List.prefix_iff_eq_take.mp (prefix_of_mark? h)).symm)
  | blank h => exact .blank (finds_blank.mem h).2
  | lineComment h => exact .lineComment (finds_lineComment.mem h).2
  | blockComment h => exact .blockComment (finds_blockComment.mem h).2
  | decimal h => exact .decimal (finds_decimal.mem h).2
  | hexadecimal h => exact .hexadecimal (finds_hexadecimal.mem h).2
  | binary h => exact .binary (finds_binary.mem h).2
  | pointed h => exact .pointed (finds_pointed.mem h).2
  | leadingPoint h => exact .leadingPoint (finds_leadingPoint.mem h).2
  | exponential h => exact .exponential (finds_exponential.mem h).2
  | suffixed h => exact .suffixed (finds_suffixed.mem h).2
  | byteOrderMark h => exact .byteOrderMark (finds_byteOrderMark.mem h).2

/-- Whenever a pattern has the start of a text, something is offered there that is as long. -/
theorem Makes.exists_offered (h : Makes u k) (r : List Char) :
    ∃ k' n, Offered (u ++ r) n k' ∧ u.length ≤ n := by
  have hshape {L : Language Char} {f : List Char → Option Nat} {k' : Kind} (hL : Finds L f) (hu : u ∈ L)
      (hoffer : ∀ {n}, f (u ++ r) = some n → Offered (u ++ r) n k') :
      ∃ k' n, Offered (u ++ r) n k' ∧ u.length ≤ n := by
    obtain ⟨n, hn, hle⟩ := hL.max r hu
    exact ⟨k', n, hoffer hn, hle⟩
  have hname (hu : u ∈ nameShape) : ∃ k' n, Offered (u ++ r) n k' ∧ u.length ≤ n := by
    obtain ⟨n, hn, hle⟩ := finds_name.max r hu
    exact ⟨_, n, .name hn rfl, hle⟩
  cases h with
  | keyword k h => exact hname (mem_nameShape.mpr (mem_word.mp h ▸ Writes.isName_text k))
  | name h => exact hname h
  | mark m h =>
    cases mem_word.mp h
    have hpre : m.chars <+: m.chars ++ r := List.prefix_append _ _
    have hsome : (mark? (m.chars ++ r)).isSome :=
      List.find?_isSome.mpr ⟨m, mem_all m, List.isPrefixOf_iff_prefix.mpr hpre⟩
    obtain ⟨l, hl⟩ := Option.isSome_iff_exists.mp hsome
    exact ⟨.mark l, l.chars.length, .mark hl rfl, le_mark? hl hpre⟩
  | decimal h => exact hshape finds_decimal h .decimal
  | hexadecimal h => exact hshape finds_hexadecimal h .hexadecimal
  | binary h => exact hshape finds_binary h .binary
  | pointed h => exact hshape finds_pointed h .pointed
  | leadingPoint h => exact hshape finds_leadingPoint h .leadingPoint
  | exponential h => exact hshape finds_exponential h .exponential
  | suffixed h => exact hshape finds_suffixed h .suffixed
  | lineComment h => exact hshape finds_lineComment h .lineComment
  | blockComment h => exact hshape finds_blockComment h .blockComment
  | blank h => exact hshape finds_blank h .blank
  | byteOrderMark h => exact hshape finds_byteOrderMark h .byteOrderMark

/-! ### Whole numbers and other numbers -/

/-- What a whole number may have behind its leading digits. -/
def isIntegerMark (c : Char) : Bool := isLongMark c || isHexMark c || isBitMark c

/-- What other numbers have behind their leading digits. -/
def isFloatMark (c : Char) : Bool := c == '.' || isTailMark c

theorem dropWhile_mem_of_mem_mul {L M : Language Char} {q : Char → Bool} (hL : Within L isDigitOrGap)
    (hM : Starts M q) (hq : ∀ c, q c = true → isDigitOrGap c = false) (hu : u ∈ L * M) :
    u.dropWhile isDigitOrGap ∈ M := by
  obtain ⟨a, ha, b, hb, rfl⟩ := Language.mem_mul.mp hu
  rw [List.dropWhile_append_of_pos (hL a ha)]
  rcases b with _ | ⟨c, b⟩
  · exact hb
  · have hc := hq c (hM _ hb c rfl)
    rwa [List.dropWhile_cons_of_neg (by simp [hc])]

theorem isDigitOrGap_of_isIntegerMark {c : Char} (h : isIntegerMark c = true) :
    isDigitOrGap c = false := by
  simp only [isIntegerMark, isLongMark, isHexMark, isBitMark, Bool.or_eq_true, beq_iff_eq] at h
  rcases h with ((rfl | rfl) | rfl | rfl) | rfl | rfl <;> decide

theorem isDigitOrGap_of_isFloatMark {c : Char} (h : isFloatMark c = true) :
    isDigitOrGap c = false := by
  rcases Bool.or_eq_true_iff.mp h with h | h
  · rw [beq_iff_eq.mp h]
    decide
  · exact isDigitOrGap_of_isTailMark h

theorem isIntegerMark_of_isFloatMark {c : Char} (h : isFloatMark c = true) :
    isIntegerMark c = false := by
  simp only [isFloatMark, isTailMark, isExponentMark, isPrecisionMark, Bool.or_eq_true, beq_iff_eq] at h
  rcases h with rfl | (rfl | rfl) | ((rfl | rfl) | rfl) | rfl <;> decide

/-- Behind the leading digits of a whole number there is a mark of whole numbers, or nothing. -/
theorem head?_of_integer (h : Makes u .integer) :
    ∀ c ∈ (u.dropWhile isDigitOrGap).head?, isIntegerMark c = true := by
  have hbased {isBase p : Char → Bool} (hbase : ∀ c, isBase c = true → isIntegerMark c = true)
      (hu : u ∈ basedShape isBase p) : ∀ c ∈ (u.dropWhile isDigitOrGap).head?, isIntegerMark c = true := by
    have hzero : Within (word ['0']) isDigitOrGap := by
      rintro _ rfl c hc
      rw [List.mem_singleton.mp hc]
      decide
    have hstarts : Starts (ofClass isBase * (oneOrMore (ofClass p) * optional (ofClass isLongMark)))
        isIntegerMark :=
      (within_ofClass.starts.mono hbase).mul_left nil_notMem_ofClass
    exact hstarts _ (dropWhile_mem_of_mem_mul hzero hstarts (fun _ => isDigitOrGap_of_isIntegerMark) hu)
  cases h with
  | decimal h =>
    have hstarts : Starts (optional (ofClass isLongMark)) isIntegerMark :=
      .optional (within_ofClass.starts.mono fun c hc => by simp [isIntegerMark, hc])
    exact hstarts _
      (dropWhile_mem_of_mem_mul within_number hstarts (fun _ => isDigitOrGap_of_isIntegerMark) h)
  | hexadecimal h => exact hbased (fun c hc => by simp [isIntegerMark, hc]) h
  | binary h => exact hbased (fun c hc => by simp [isIntegerMark, hc]) h

/-- Behind the leading digits of another number there is a mark of such numbers. -/
theorem head?_of_float (h : Makes u .float) :
    ∃ c ∈ (u.dropWhile isDigitOrGap).head?, isFloatMark c = true := by
  have hmark {L M : Language Char} (hL : Within L isDigitOrGap) (hM : Starts M isFloatMark)
      (hne : [] ∉ M) (hu : u ∈ L * M) : ∃ c ∈ (u.dropWhile isDigitOrGap).head?, isFloatMark c = true := by
    have hmem := dropWhile_mem_of_mem_mul hL hM (fun _ => isDigitOrGap_of_isFloatMark) hu
    generalize u.dropWhile isDigitOrGap = v at hmem
    rcases v with _ | ⟨c, v⟩
    · exact absurd hmem hne
    · exact ⟨c, rfl, hM _ hmem c rfl⟩
  have hpoint {M : Language Char} : Starts (word ['.'] * M) isFloatMark ∧ [] ∉ word ['.'] * M := by
    refine ⟨(starts_word.mono fun c hc => ?_).mul_left nofun, nil_notMem_mul nofun⟩
    rw [beq_iff_eq.mp hc]
    rfl
  have htail {c : Char} (hc : isTailMark c = true) : isFloatMark c = true := by
    simp [isFloatMark, hc]
  cases h with
  | pointed h => exact hmark within_number hpoint.1 hpoint.2 h
  | leadingPoint h =>
    rw [leadingPointShape, ← one_mul (word _ * _)] at h
    exact hmark (by rintro _ rfl; nofun) hpoint.1 hpoint.2 h
  | exponential h =>
    have hne : [] ∉ exponentShape := nil_notMem_mul nil_notMem_ofClass
    refine hmark within_number (.mul_left (starts_exponent.mono fun c hc => ?_) hne) (nil_notMem_mul hne) h
    exact htail (by simp [isTailMark, hc])
  | suffixed h =>
    refine hmark within_number (within_ofClass.starts.mono fun c hc => ?_) nil_notMem_ofClass h
    exact htail (by simp [isTailMark, hc])

/-- No text is both a whole number and another one. -/
theorem not_integer_and_float (u : List Char) : ¬ (Makes u .integer ∧ Makes u .float) := by
  rintro ⟨hinteger, hfloat⟩
  obtain ⟨c, hc, hmark⟩ := head?_of_float hfloat
  have hinteger := head?_of_integer hinteger c hc
  rw [isIntegerMark_of_isFloatMark hmark] at hinteger
  cases hinteger

/-! ### Texts of two patterns -/

/-- The groups of patterns that the first two characters tell apart. -/
inductive Family where
  | name | blank | byteOrderMark | number | lineComment | blockComment | mark

/-- The group that the first two characters of a text belong to. -/
def family : List Char → Family
  | [] => .mark
  | c :: cs =>
    if isNameStart c then .name
    else if isBlank c then .blank
    else if c = '\ufeff' then .byteOrderMark
    else if isDigit c || (c == '.' && cs.head?.any isDigit) then .number
    else if c = '/' ∧ cs.head? = some '/' then .lineComment
    else if c = '/' ∧ cs.head? = some '*' then .blockComment
    else .mark

/-- The kinds of a group, where a text of that group is read. -/
def Family.Admits (u : List Char) : Family → Kind → Prop
  | name, k => k = .identifier ∨ ∃ w : Keyword, k = .keyword w ∧ w.text.toList = u
  | blank, k => k = .blank
  | byteOrderMark, k => k = .byteOrderMark
  | number, k => k = .integer ∨ k = .float
  | lineComment, k => k = .lineComment
  | blockComment, k => k = .blockComment
  | mark, k => ∃ m : Mark, k = .mark m ∧ m.chars = u

theorem family_name (h : u ∈ nameShape) : family u = .name := by
  obtain ⟨_, ⟨c, hc, rfl⟩, v, -, rfl⟩ := h
  exact if_pos hc

theorem isDigit_cases {c : Char} (h : isDigit c = true) :
    isNameStart c = false ∧ isBlank c = false ∧ c ≠ '\ufeff' := by
  refine ⟨?_, ?_, ?_⟩
  · by_contra hname
    rw [isDigit_eq_false (by simpa using hname)] at h
    cases h
  · by_contra hblank
    rcases isBlank_cases (by simpa using hblank) with rfl | rfl | rfl | rfl | rfl <;>
      exact absurd h (by decide)
  · rintro rfl
    exact absurd h (by decide)

theorem family_number {c : Char} (hc : isDigit c = true) (cs : List Char) :
    family (c :: cs) = .number := by
  obtain ⟨hname, hblank, horder⟩ := isDigit_cases hc
  simp [family, hname, hblank, horder, hc]

theorem family_mul_number {M : Language Char} (h : u ∈ numberShape * M) : family u = .number := by
  obtain ⟨_, ⟨_, ⟨c, hc, rfl⟩, v, -, rfl⟩, w, -, rfl⟩ := h
  exact family_number hc _

theorem family_based {isBase p : Char → Bool} (h : u ∈ basedShape isBase p) : family u = .number := by
  obtain ⟨_, rfl, v, -, rfl⟩ := h
  exact family_number (by decide) _

theorem family_leadingPoint (h : u ∈ leadingPointShape) : family u = .number := by
  obtain ⟨_, rfl, _, ⟨_, ⟨_, ⟨c, hc, rfl⟩, v, -, rfl⟩, w, -, rfl⟩, rfl⟩ := h
  have hfamily (y : List Char) : family ('.' :: c :: y) = .number := by
    simp [family, isNameStart, isBlank, hc]
  exact hfamily _

theorem admits_of_makes (h : Makes u k) : (family u).Admits u k := by
  cases h with
  | keyword w h =>
    have hname := Writes.isName_text w
    rw [← mem_word.mp h] at hname
    rw [family_name (mem_nameShape.mpr hname)]
    exact .inr ⟨w, rfl, (mem_word.mp h).symm⟩
  | name h => rw [family_name h]; exact .inl rfl
  | mark m h =>
    cases mem_word.mp h
    have hfamily : family m.chars = .mark := by cases m <;> rfl
    rw [hfamily]
    exact ⟨m, rfl, rfl⟩
  | decimal h => rw [family_mul_number h]; exact .inl rfl
  | hexadecimal h => rw [family_based h]; exact .inl rfl
  | binary h => rw [family_based h]; exact .inl rfl
  | pointed h => rw [family_mul_number h]; exact .inr rfl
  | leadingPoint h => rw [family_leadingPoint h]; exact .inr rfl
  | exponential h => rw [family_mul_number h]; exact .inr rfl
  | suffixed h => rw [family_mul_number h]; exact .inr rfl
  | lineComment h =>
    obtain ⟨_, rfl, v, -, rfl⟩ := h
    rfl
  | blockComment h =>
    obtain ⟨_, rfl, v, -, rfl⟩ := h
    rfl
  | blank h =>
    obtain ⟨_, ⟨c, hc, rfl⟩, v, -, rfl⟩ := h
    rcases isBlank_cases hc with rfl | rfl | rfl | rfl | rfl <;> rfl
  | byteOrderMark h =>
    cases mem_word.mp h
    rfl

/-- A text that makes tokens of two kinds is a reserved word, and a name. -/
theorem eq_or_keyword_of_makes {k' : Kind} (h : Makes u k) (h' : Makes u k') :
    k = k' ∨ (k = .identifier ∧ ∃ w, k' = .keyword w) ∨ (k' = .identifier ∧ ∃ w, k = .keyword w) := by
  have hadmits := admits_of_makes h
  have hadmits' := admits_of_makes h'
  cases hfamily : family u <;> rw [hfamily] at hadmits hadmits'
  case name =>
    rcases hadmits with rfl | ⟨w, rfl, hw⟩ <;> rcases hadmits' with rfl | ⟨w', rfl, hw'⟩
    · exact .inl rfl
    · exact .inr (.inl ⟨rfl, w', rfl⟩)
    · exact .inr (.inr ⟨rfl, w, rfl⟩)
    · have htext : w.text = w'.text := String.toList_injective (hw.trans hw'.symm)
      have hsame := Writes.ofText?_text w
      rw [htext, Writes.ofText?_text w'] at hsame
      cases hsame
      exact .inl rfl
  case mark =>
    obtain ⟨m, rfl, hm⟩ := hadmits
    obtain ⟨m', rfl, hm'⟩ := hadmits'
    have hsame := Lexer.read_mark m
    rw [hm.trans hm'.symm, Lexer.read_mark m'] at hsame
    cases hsame
    exact .inl rfl
  case number =>
    rcases hadmits with rfl | rfl <;> rcases hadmits' with rfl | rfl
    · exact .inl rfl
    · exact absurd ⟨h, h'⟩ (not_integer_and_float u)
    · exact absurd ⟨h', h⟩ (not_integer_and_float u)
    · exact .inl rfl
  all_goals exact .inl (hadmits.trans hadmits'.symm)

end Pattern

namespace Lexer

open Pattern

/-! ### Readings by the table -/

/-- The text does not start with a quote, nor with a comment that has no end. -/
structure IsPlain (x : List Char) : Prop where
  quote : x.head? ≠ some '"' ∧ x.head? ≠ some '\''
  comment : ∀ y, x = '/' :: '*' :: y → ['*', '/'] <:+: y

/-- What stands at the start of a text. A quote starts a literal. A comment without an end is one
fault, up to the end of the text. Otherwise it is the longest text that any pattern has there, of the
kind of that pattern, where a reserved word is no name; and one character if no pattern has a text
there. -/
inductive IsReading : List Char → Reading → Prop
  | string (x : List Char) : IsReading ('"' :: x) (readString x)
  | character (x : List Char) : IsReading ('\'' :: x) (readCharacter x)
  | endless {x : List Char} (h : ¬ ['*', '/'] <:+: x) :
    IsReading ('/' :: '*' :: x) ⟨.error .unrecognized, ('/' :: '*' :: x).length⟩
  | unrecognized {x : List Char} (hx : IsPlain x) (h : ∀ u k, u <+: x → ¬ Makes u k) :
    IsReading x ⟨.error .unrecognized, 1⟩
  | longest {x u : List Char} {k : Kind} (hx : IsPlain x) (hu : u <+: x) (hk : Makes u k)
    (hmax : ∀ v k', v <+: x → Makes v k' → v.length ≤ u.length)
    (hname : k = .identifier → ∀ w, ¬ Makes u (.keyword w)) : IsReading x ⟨.ok k, u.length⟩

theorem opensEndlessComment_iff {x : List Char} :
    opensEndlessComment x = true ↔ ∃ y, x = '/' :: '*' :: y ∧ ¬ ['*', '/'] <:+: y := by
  constructor
  · intro h
    unfold opensEndlessComment at h
    split at h
    · next y => exact ⟨y, rfl, commentEnd?_eq_none.mp (Option.isNone_iff_eq_none.mp h)⟩
    · cases h
  · rintro ⟨y, rfl, hy⟩
    exact Option.isNone_iff_eq_none.mpr (commentEnd?_eq_none.mpr hy)

theorem read_of_isPlain {x : List Char} (hx : IsPlain x) (hne : x ≠ []) :
    read x = match longest? x with
      | some (kind, width) => ⟨.ok kind, width⟩
      | none => ⟨.error .unrecognized, 1⟩ := by
  obtain ⟨c, cs, rfl⟩ := List.exists_cons_of_ne_nil hne
  have hquote : c ≠ '"' ∧ c ≠ '\'' := by simpa using hx.quote
  have hends : ¬ opensEndlessComment (c :: cs) = true := by
    rw [opensEndlessComment_iff]
    rintro ⟨y, hy, hend⟩
    exact hend (hx.comment y hy)
  rw [read_cons hquote]
  exact if_neg hends

/-- A text is plain, or it is clear from its start what is read. -/
theorem isPlain_or_isReading (x : List Char) : IsPlain x ∨ IsReading x (read x) := by
  by_cases hquote : x.head? ≠ some '"' ∧ x.head? ≠ some '\''
  · by_cases hcomment : opensEndlessComment x = true
    · obtain ⟨y, rfl, hy⟩ := opensEndlessComment_iff.mp hcomment
      rw [read_cons (by decide), if_pos hcomment]
      exact .inr (.endless hy)
    · refine .inl ⟨hquote, ?_⟩
      intro y hy
      by_contra hend
      exact hcomment (opensEndlessComment_iff.mpr ⟨y, hy, hend⟩)
  · have hhead : x.head? = some '"' ∨ x.head? = some '\'' := by
      by_contra hno
      exact hquote (not_or.mp hno)
    rcases hhead with hhead | hhead <;> obtain ⟨y, rfl⟩ := List.head?_eq_some_iff.mp hhead
    · exact .inr (.string y)
    · exact .inr (.character y)

variable {x u : List Char} {k : Kind}

/-- The longest offer is made by a pattern, and by the one for reserved words if it is one. -/
theorem makes_of_longest? {n : Nat} (h : longest? x = some (k, n)) :
    n ≤ x.length ∧ Makes (x.take n) k ∧
      (k = .identifier → ∀ w, ¬ Makes (x.take n) (.keyword w)) := by
  have hoffer := offered_of_longest? h
  refine ⟨hoffer.makes.1, hoffer.makes.2, ?_⟩
  rintro rfl w hw
  cases hoffer with
  | name _ hname =>
    cases hw with
    | keyword w hw =>
      rw [mem_word.mp hw, nameKind, String.ofList_toList, Writes.ofText?_text] at hname
      cases hname

/-- No pattern has a longer text than the longest offer. -/
theorem length_le_of_longest? {n : Nat} (h : longest? x = some (k, n)) {v : List Char} {k' : Kind}
    (hv : v <+: x) (hk' : Makes v k') : v.length ≤ n := by
  obtain ⟨r, rfl⟩ := hv
  obtain ⟨_, m, hoffer, hle⟩ := hk'.exists_offered r
  exact Nat.le_trans hle (hoffer.le_longest? h)

theorem isReading_read (hne : x ≠ []) : IsReading x (read x) := by
  rcases isPlain_or_isReading x with hx | hread
  · rw [read_of_isPlain hx hne]
    split
    · next n hlongest =>
      obtain ⟨hle, hk, hname⟩ := makes_of_longest? hlongest
      have hlength := List.length_take_of_le hle
      have hreading := IsReading.longest hx (List.take_prefix n x) hk ?_ hname
      · rwa [hlength] at hreading
      · rw [hlength]
        exact fun v k' => length_le_of_longest? hlongest
    · next hnone =>
      refine .unrecognized hx ?_
      rintro u k ⟨r, rfl⟩ hk
      obtain ⟨_, _, hoffer, -⟩ := hk.exists_offered r
      obtain ⟨q, hq, -⟩ := hoffer.exists_longest?
      rw [hq] at hnone
      cases hnone
  · exact hread

/-- There is at most one reading. -/
theorem IsReading.unique {a b : Reading} (ha : IsReading x a) (hb : IsReading x b) : a = b := by
  cases ha with
  | string y =>
    cases hb with
    | string => rfl
    | unrecognized hx | longest hx => exact absurd rfl hx.quote.1
  | character y =>
    cases hb with
    | character => rfl
    | unrecognized hx | longest hx => exact absurd rfl hx.quote.2
  | endless hend =>
    cases hb with
    | endless => rfl
    | unrecognized hx | longest hx => exact absurd (hx.comment _ rfl) hend
  | unrecognized hx hno =>
    cases hb with
    | string => exact absurd rfl hx.quote.1
    | character => exact absurd rfl hx.quote.2
    | endless hend => exact absurd (hx.comment _ rfl) hend
    | unrecognized => rfl
    | longest _ hu hk => exact absurd hk (hno _ _ hu)
  | longest hx hu hk hmax hname =>
    cases hb with
    | string => exact absurd rfl hx.quote.1
    | character => exact absurd rfl hx.quote.2
    | endless hend => exact absurd (hx.comment _ rfl) hend
    | unrecognized _ hno => exact absurd hk (hno _ _ hu)
    | longest _ hv hk' hmax' hname' =>
      have hlength := Nat.le_antisymm (hmax' _ _ hu hk) (hmax _ _ hv hk')
      obtain rfl := (List.prefix_of_prefix_length_le hu hv (Nat.le_of_eq hlength)).eq_of_length hlength
      rcases eq_or_keyword_of_makes hk hk' with rfl | ⟨hid, w, rfl⟩ | ⟨hid, w, rfl⟩
      · rfl
      · exact absurd hk' (hname hid w)
      · exact absurd hk (hname' hid w)

/-- At every boundary between pieces, the next piece is what is read of the text behind it. -/
theorem exists_isReading_of_cut {y : List Char} {u : Cursor} {before after : List Item} {i : Item}
    (h : cut 0 u y = before ++ i :: after) :
    ∃ r a, y = (before.flatMap fun j => j.text.toList) ++ r ∧ IsReading r a ∧
      i = a.item i.location r := by
  induction before generalizing y u with
  | nil =>
    have hy : y ≠ [] := by
      rintro rfl
      cases h
    rw [cut_eq hy, List.nil_append] at h
    injection h with hi
    refine ⟨y, read y, rfl, isReading_read hy, ?_⟩
    rw [← hi, item_location]
  | cons j before ih =>
    have hy : y ≠ [] := by
      rintro rfl
      cases h
    rw [cut_eq hy, List.cons_append] at h
    injection h with hj hrest
    obtain ⟨r, a, hr, hread, hi⟩ := ih hrest
    refine ⟨r, a, ?_, hread, hi⟩
    rw [List.flatMap_cons, List.append_assoc, ← hr, ← hj, text_item, String.toList_ofList,
      List.take_append_drop]

/-- Reading by the table. What is read at the start of a text is its reading by the table and nothing
else is, and at each boundary of a source text the next piece is this reading of the text that is
left. The pattern of comments has exactly the texts whose first `*/` behind `/*` is at their end, and
no text is both a whole number and another one. -/
theorem items_longest :
    (∀ x a, x ≠ [] → (IsReading x a ↔ read x = a)) ∧
    (∀ source before i after, items source = before ++ i :: after → ∃ r a,
      source.toList = (before.flatMap fun j => j.text.toList) ++ r ∧ IsReading r a ∧
        i = a.item i.location r) ∧
    (∀ u, u ∈ blockCommentShape ↔ ∃ w, u = '/' :: '*' :: (w ++ ['*', '/']) ∧
      ∀ a b, w ++ ['*', '/'] = a ++ '*' :: '/' :: b → b = []) ∧
    (∀ u, ¬ (Makes u .integer ∧ Makes u .float)) := by
  refine ⟨?_, ?_, fun u => mem_blockCommentShape, not_integer_and_float⟩
  · intro x a hne
    constructor
    · exact (isReading_read hne).unique
    · rintro rfl
      exact isReading_read hne
  · intro source before i after h
    exact exists_isReading_of_cut h

/-- Where a longer pattern does not come to its end, a shorter one is read. -/
example : (items "0x+1e+;1_000.e5>>>=...").map Item.text =
    ["0", "x", "+", "1", "e", "+", ";", "1_000.e5", ">>>=", "..."] := by decide +kernel

end Lexer

end JavaTree
