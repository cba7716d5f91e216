import JavaTree.Parser.Capture
import JavaTree.Proofs.Token.Spelling

/-!
Lists of type arguments as text.

In the text of a list, closing brackets in a row run together: `>` `>` is written `>>`, and read as
one word. So a list is taken here with each bracket on its own, and `fuse` puts brackets in a row
together as they are read.

    on its own:   <  K  ,  List  <  V  >  >
    read:         <  K  ,  List  <  V  >>
-/

namespace JavaTree

/-- A word as a token, at no place in particular. -/
def Word.token (w : Word) : Token := ⟨w.kind, w.text, .start⟩

namespace Angle

open Pattern

/-! ### Closing brackets -/

/-- Closing brackets in a row, as they are read. -/
def closers : Nat → List Word
  | 0 => []
  | 1 => [.mark .greater]
  | 2 => [.mark .rightShift]
  | n + 3 => .mark .unsignedShift :: closers n

/-- What may be behind the text of a type. -/
structure TypeEnds (r : List Char) : Prop where
  name : NameEnds r
  greater : ∀ c ∈ r.head?, c ≠ '>' ∧ c ≠ '='

theorem read_greater {r : List Char} (h : ∀ c ∈ r.head?, c ≠ '>' ∧ c ≠ '=') :
    Lexer.read ('>' :: r) = ⟨.ok (.mark .greater), 1⟩ := by
  refine Lexer.read_of_mark? (m := .greater) ?_ (noComment_of_ne (by decide) _) rfl
  rcases r with _ | ⟨c, r⟩
  · rfl
  · have hc : ('>' == c) = false := beq_eq_false_iff_ne.mpr (Ne.symm (h c rfl).1)
    have hc' : ('=' == c) = false := beq_eq_false_iff_ne.mpr (Ne.symm (h c rfl).2)
    simp [mark?, Mark.all, Mark.chars, List.find?, List.isPrefixOf, hc, hc']

theorem read_rightShift {r : List Char} (h : ∀ c ∈ r.head?, c ≠ '>' ∧ c ≠ '=') :
    Lexer.read ('>' :: '>' :: r) = ⟨.ok (.mark .rightShift), 2⟩ := by
  refine Lexer.read_of_mark? (m := .rightShift) ?_ (noComment_of_ne (by decide) _) rfl
  rcases r with _ | ⟨c, r⟩
  · rfl
  · have hc : ('>' == c) = false := beq_eq_false_iff_ne.mpr (Ne.symm (h c rfl).1)
    have hc' : ('=' == c) = false := beq_eq_false_iff_ne.mpr (Ne.symm (h c rfl).2)
    simp [mark?, Mark.all, Mark.chars, List.find?, List.isPrefixOf, hc, hc']

theorem read_unsignedShift {r : List Char} (h : ∀ c ∈ r.head?, c ≠ '=') :
    Lexer.read ('>' :: '>' :: '>' :: r) = ⟨.ok (.mark .unsignedShift), 3⟩ := by
  refine Lexer.read_of_mark? (m := .unsignedShift) ?_ (noComment_of_ne (by decide) _) rfl
  rcases r with _ | ⟨c, r⟩
  · rfl
  · simp [mark?, Mark.all, Mark.chars, List.find?, List.isPrefixOf, Ne.symm (h c rfl)]

theorem spells_closers {r : List Char} {vs : List Word} (hr : ∀ c ∈ r.head?, c ≠ '>' ∧ c ≠ '=')
    (h : Spells r vs) (n : Nat) : Spells (List.replicate n '>' ++ r) (closers n ++ vs) := by
  fun_induction closers n with
  | case1 => exact h
  | case2 => exact .word (w := ['>']) nofun rfl (read_greater hr) h
  | case3 => exact .word (w := ['>', '>']) nofun rfl (read_rightShift hr) h
  | case4 n ih =>
    refine .word (w := ['>', '>', '>']) nofun rfl (read_unsignedShift fun c hc => ?_) ih
    cases n with
    | zero => exact (hr c hc).2
    | succ n =>
      cases hc
      decide

/-- Brackets that close are put together as they are read; `pending` of them have been passed
over. -/
def fuse (pending : Nat) : List Word → List Word
  | [] => closers pending
  | w :: ws =>
    if w.kind = .mark .greater then fuse (pending + 1) ws
    else closers pending ++ w :: fuse 0 ws

/-! ### Words in a list -/

/-- Marks in a list of type arguments. -/
def isListMark : Mark → Bool
  | .question | .comma | .dot | .ampersand | .openBracket | .closeBracket | .less | .greater => true
  | _ => false

/-- Words in a list of type arguments, with each bracket on its own. -/
inductive IsPart : Word → Prop
  | name {s : String} (h : IsIdentifier s) : IsPart (.name s)
  | primitive (p : Primitive) : IsPart (.keyword (.primitive p))
  | extends_ : IsPart (.keyword .extends_)
  | super_ : IsPart (.keyword .super_)
  | mark {m : Mark} (h : isListMark m = true) : IsPart (.mark m)

/-- Two dots, or two opening brackets. -/
def Clash (a b : Word) : Prop :=
  (a.kind = .mark .dot ∧ b.kind = .mark .dot) ∨ (a.kind = .mark .less ∧ b.kind = .mark .less)

/-- The text of words in a list of type arguments, behind a word of the given kind. -/
def text (previous : Option Kind) (ws : List Word) : String :=
  Parser.typeText previous (ws.map Word.token)

/-- True for a word with a space before it. -/
def isApart (previous : Option Kind) (k : Kind) : Bool :=
  match previous with
  | some p => (k.isWord && (p.isWord || p = .mark .question)) || k = .mark .ampersand
  | none => false

/-- True for a word with a space behind it. -/
def hasSpace (k : Kind) : Bool := k = .mark .comma || k = .mark .ampersand

theorem text_cons (previous : Option Kind) (w : Word) (ws : List Word) :
    text previous (w :: ws) = (if isApart previous w.kind then " " else "") ++ w.text ++
      (if hasSpace w.kind then " " else "") ++ text (some w.kind) ws := by
  rfl

theorem text_append (previous : Option Kind) (ws vs : List Word) :
    text previous (ws ++ vs) =
      text previous ws ++ text (ws.foldl (fun _ w => some w.kind) previous) vs := by
  induction ws generalizing previous with
  | nil => rw [List.nil_append, List.foldl_nil, show text previous [] = "" from rfl, String.empty_append]
  | cons w ws ih =>
    rw [List.cons_append, text_cons, text_cons, ih, List.foldl_cons]
    simp only [String.append_assoc]

/-- A mark without a space behind it has none before it either. -/
theorem text_unspaced {m : Mark} (hm : hasSpace (.mark m) = false) (previous : Option Kind) (ws : List Word) :
    text previous (.mark m :: ws) = String.ofList m.chars ++ text (some (.mark m)) ws := by
  have happart : isApart previous (.mark m) = false := by
    cases previous <;> cases m <;> first | rfl | cases hm
  rw [text_cons, show (Word.mark m).kind = .mark m from rfl, happart, hm]
  simp [Word.mark]

/-- How a word of a list starts. -/
structure Starts (w : Word) (c : Char) : Prop where
  equal : c ≠ '='
  digit : isDigit c = false
  greater : w.kind ≠ .mark .greater → c ≠ '>'
  dot : w.kind ≠ .mark .dot → c ≠ '.'
  less : w.kind ≠ .mark .less → c ≠ '<'
  name : w.kind.isWord = false → isNamePart c = false

theorem starts_of_isName {w : Word} (hw : isName w.text.toList = true) (hk : w.kind.isWord = true) :
    ∃ c cs, w.text.toList = c :: cs ∧ Starts w c := by
  rcases hcs : w.text.toList with _ | ⟨c, cs⟩
  · rw [hcs] at hw
    cases hw
  · rw [hcs] at hw
    simp only [isName, Bool.and_eq_true] at hw
    refine ⟨c, cs, rfl, ne_of_isNameStart hw.1 (by decide), isDigit_eq_false hw.1,
      fun _ => ne_of_isNameStart hw.1 (by decide), fun _ => ne_of_isNameStart hw.1 (by decide),
      fun _ => ne_of_isNameStart hw.1 (by decide), fun h => ?_⟩
    rw [hk] at h
    cases h

theorem starts_of_mark {m : Mark} (h : isListMark m = true) :
    ∃ c cs, (Word.mark m).text.toList = c :: cs ∧ Starts (.mark m) c := by
  rw [Word.mark, String.toList_ofList]
  cases m <;> first
    | exact absurd h (by decide)
    | exact ⟨_, _, rfl, by decide, by decide, by decide, by decide, by decide, by decide⟩

theorem IsPart.starts {w : Word} (h : IsPart w) : ∃ c cs, w.text.toList = c :: cs ∧ Starts w c := by
  cases h with
  | name h => exact starts_of_isName h.1 rfl
  | primitive p => exact starts_of_isName (Writes.isName_text _) rfl
  | extends_ => exact starts_of_isName (Writes.isName_text _) rfl
  | super_ => exact starts_of_isName (Writes.isName_text _) rfl
  | mark h => exact starts_of_mark h

/-- What may be behind a word of a list. -/
def MayFollow (w : Word) (c : Char) : Prop :=
  (w.kind.isWord = true → isNamePart c = false) ∧ (w.kind = .mark .dot → c ≠ '.' ∧ isDigit c = false) ∧
    (w.kind = .mark .less → c ≠ '<' ∧ c ≠ '=') ∧ (w.kind = .mark .ampersand → c = ' ')

theorem read_dot {c : Char} (hdot : c ≠ '.') (hdigit : isDigit c = false) (r : List Char) :
    Lexer.read ('.' :: c :: r) = ⟨.ok (.mark .dot), 1⟩ := by
  have hc : ('.' == c) = false := beq_eq_false_iff_ne.mpr (Ne.symm hdot)
  refine Lexer.read_of_mark? (m := .dot) ?_ (noComment_of_ne (by decide) _) ?_
  · simp [mark?, Mark.all, Mark.chars, List.find?, List.isPrefixOf, hc]
  · simp [leadingPoint?, digits, hdigit, found]

theorem read_less {c : Char} (hless : c ≠ '<') (hequal : c ≠ '=') (r : List Char) :
    Lexer.read ('<' :: c :: r) = ⟨.ok (.mark .less), 1⟩ := by
  have hc : ('<' == c) = false := beq_eq_false_iff_ne.mpr (Ne.symm hless)
  have hc' : ('=' == c) = false := beq_eq_false_iff_ne.mpr (Ne.symm hequal)
  refine Lexer.read_of_mark? (m := .less) ?_ (noComment_of_ne (by decide) _) rfl
  simp [mark?, Mark.all, Mark.chars, List.find?, List.isPrefixOf, hc, hc']

/-- A word of a list other than a closing bracket is read as such. -/
theorem IsPart.spells {w : Word} (h : IsPart w) (hw : w.kind ≠ .mark .greater) {c : Char}
    {r : List Char} (hc : MayFollow w c) {vs : List Word} (hr : Spells (c :: r) vs) :
    Spells (w.text.toList ++ c :: r) (w :: vs) := by
  have hname (hk : w.kind.isWord = true) : NameEnds (c :: r) := by
    rintro d hd
    cases hd
    exact hc.1 hk
  cases h with
  | name h => exact Writes.identifier h (c :: r) vs (hname rfl) hr
  | primitive p => exact Writes.keyword _ (c :: r) vs (hname rfl) hr
  | extends_ => exact Writes.keyword .extends_ (c :: r) vs (hname rfl) hr
  | super_ => exact Writes.keyword .super_ (c :: r) vs (hname rfl) hr
  | @mark m h =>
    have halone (hm : Lexer.standsAlone m = true) :
        Spells ((Word.mark m).text.toList ++ c :: r) (.mark m :: vs) :=
      Writes.alone hm (c :: r) vs trivial hr
    cases m <;> first
      | exact halone rfl
      | exact absurd h (by decide)
      | exact absurd rfl hw
      | skip
    · obtain ⟨-, -, -, hamp⟩ := hc
      cases hamp rfl
      exact Writes.mark .ampersand _ vs (by rintro d hd; cases hd; rfl) hr
    · obtain ⟨h1, h2⟩ := hc.2.2.1 rfl
      exact .word (w := ['<']) nofun rfl (read_less h1 h2 r) hr
    · obtain ⟨h1, h2⟩ := hc.2.1 rfl
      exact .word (w := ['.']) nofun rfl (read_dot h1 h2 r) hr

/-- The first character behind a word of a list is one that may follow it. -/
theorem mayFollow_text {w v : Word} (hv : IsPart v) (hclash : ¬ Clash w v) (ws : List Word) :
    ∃ c cs, ((if hasSpace w.kind then " " else "") ++ text (some w.kind) (v :: ws)).toList = c :: cs ∧
      MayFollow w c := by
  have hspace : MayFollow w ' ' :=
    ⟨fun _ => by decide, fun _ => by decide, fun _ => by decide, fun _ => rfl⟩
  cases hw : hasSpace w.kind with
  | true => exact ⟨' ', (text (some w.kind) (v :: ws)).toList, by simp, hspace⟩
  | false =>
    rw [text_cons]
    cases hv' : isApart (some w.kind) v.kind with
    | true =>
      refine ⟨' ', (v.text ++ (if hasSpace v.kind then " " else "") ++ text (some v.kind) ws).toList,
        ?_, hspace⟩
      simp
    | false =>
      obtain ⟨c, cs, hcs, hstarts⟩ := hv.starts
      refine ⟨c, cs ++ ((if hasSpace v.kind then " " else "") ++ text (some v.kind) ws).toList, ?_, ?_⟩
      · simp [hcs]
      · simp only [isApart, Bool.or_eq_false_iff, Bool.and_eq_false_iff] at hv'
        simp only [Clash, not_or, not_and] at hclash
        refine ⟨fun hword => hstarts.name ?_, fun hdot => ⟨hstarts.dot (hclash.1 hdot), hstarts.digit⟩,
          fun hless => ⟨hstarts.less (hclash.2 hless), hstarts.equal⟩, fun hamp => ?_⟩
        · exact hv'.1.resolve_right fun h => by rw [hword] at h; cases h.1
        · rw [hamp] at hw
          cases hw

/-- No two words in a row clash. -/
def NoClash : List Word → Prop
  | a :: b :: ws => ¬ Clash a b ∧ NoClash (b :: ws)
  | _ => True

theorem NoClash.tail {w : Word} {ws : List Word} (h : NoClash (w :: ws)) : NoClash ws := by
  cases ws with
  | nil => trivial
  | cons v ws => exact h.2

/-- The last word of a list is a closing bracket. -/
def EndsClosed (ws : List Word) : Prop := ∀ w ∈ ws.getLast?, w.kind = .mark .greater

theorem EndsClosed.tail {w v : Word} {ws : List Word} (h : EndsClosed (w :: v :: ws)) :
    EndsClosed (v :: ws) := by
  intro u hu
  refine h u ?_
  rwa [List.getLast?_cons_cons]

/-- The words of a list behind its first word, with what is behind that one. -/
theorem spells_behind {w v : Word} (hw : IsPart w) (hk : w.kind ≠ .mark .greater) (hv : IsPart v)
    (hclash : ¬ Clash w v) {ws : List Word} {r : List Char} {vs : List Word}
    (h : Spells ((text (some w.kind) (v :: ws)).toList ++ r) vs) (previous : Option Kind) :
    Spells ((text previous (w :: v :: ws)).toList ++ r) (w :: vs) := by
  obtain ⟨c, cs, hcs, hfollow⟩ := mayFollow_text hv hclash ws
  have hbehind : Spells (c :: (cs ++ r)) vs := by
    rw [← List.cons_append, ← hcs, String.toList_append, List.append_assoc]
    split
    · exact .blank rfl h
    · exact h
  have hspells := hw.spells hk hfollow hbehind
  have htext : (text previous (w :: v :: ws)).toList ++ r =
      (if isApart previous w.kind then [' '] else []) ++ (w.text.toList ++ c :: (cs ++ r)) := by
    rw [← List.cons_append, ← hcs, text_cons]
    split <;> simp
  rw [htext]
  split
  · exact .blank rfl hspells
  · exact hspells

/-- The text of a list does not go on with closing brackets before it, unless it starts with one. -/
theorem head_text {w : Word} (hw : IsPart w) (hk : w.kind ≠ .mark .greater) (ws : List Word)
    (previous : Option Kind) (r : List Char) :
    ∀ c ∈ ((text previous (w :: ws)).toList ++ r).head?, c ≠ '>' ∧ c ≠ '=' := by
  obtain ⟨c, cs, hcs, hstarts⟩ := hw.starts
  rw [text_cons]
  split
  · rintro d hd
    cases (show some ' ' = some d by simpa using hd)
    decide
  · rintro d hd
    cases (show some c = some d by simpa [hcs] using hd)
    exact ⟨hstarts.greater hk, hstarts.equal⟩

theorem text_greater (previous : Option Kind) (ws : List Word) :
    (text previous (.mark .greater :: ws)).toList =
      '>' :: (text (some (.mark .greater)) ws).toList := by
  rw [text_unspaced rfl, String.toList_append, String.toList_ofList]
  rfl

theorem IsPart.eq_greater {w : Word} (h : IsPart w) (hk : w.kind = .mark .greater) :
    w = .mark .greater := by
  cases h with
  | mark h =>
    cases hk
    rfl
  | name h => cases hk
  | primitive p => cases hk
  | extends_ => cases hk
  | super_ => cases hk

/-- The text of a list of type arguments spells its words, with closing brackets put together. -/
theorem spells_text {ws : List Word} (hparts : ∀ w ∈ ws, IsPart w) (hclash : NoClash ws)
    (hlast : EndsClosed ws) {r : List Char} (hr : ∀ c ∈ r.head?, c ≠ '>' ∧ c ≠ '=') {vs : List Word}
    (hspells : Spells r vs) (previous : Option Kind) (n : Nat) :
    Spells (List.replicate n '>' ++ ((text previous ws).toList ++ r)) (fuse n ws ++ vs) := by
  induction ws generalizing previous n with
  | nil => exact spells_closers hr hspells n
  | cons w ws ih =>
    have hw := hparts w List.mem_cons_self
    have hparts' : ∀ v ∈ ws, IsPart v := fun v hv => hparts v (List.mem_cons_of_mem _ hv)
    by_cases hk : w.kind = .mark .greater
    · -- one more bracket is pending
      have hlast' : EndsClosed ws := by
        rcases ws with _ | ⟨v, ws⟩
        · nofun
        · exact hlast.tail
      have hrest := ih hparts' hclash.tail hlast' (some w.kind) (n + 1)
      rw [fuse, if_pos hk]
      rw [hw.eq_greater hk] at hrest ⊢
      rw [text_greater]
      rw [List.replicate_succ', List.append_assoc] at hrest
      exact hrest
    · -- the brackets before this word are read, then the word
      rcases ws with _ | ⟨v, ws⟩
      · exact absurd (hlast w rfl) hk
      · have hrest := ih hparts' hclash.tail hlast.tail (some w.kind) 0
        have hbehind := spells_behind hw hk (hparts' v List.mem_cons_self) hclash.1 hrest previous
        have hclosers := spells_closers (head_text hw hk (v :: ws) previous r) hbehind n
        rw [fuse, if_neg hk, List.append_assoc]
        exact hclosers

/-! ### Depth -/

/-- Words that bring the depth of angle brackets down to zero, and not before the last one. -/
def Closes (depth : Int) : List Word → Prop
  | [] => False
  | [w] => depth + weight w.kind = 0
  | w :: v :: ws => 0 < depth + weight w.kind ∧ Closes (depth + weight w.kind) (v :: ws)

instance decidableCloses : (depth : Int) → (ws : List Word) → Decidable (Closes depth ws)
  | _, [] => inferInstanceAs (Decidable False)
  | depth, [w] => inferInstanceAs (Decidable (depth + weight w.kind = 0))
  | depth, w :: v :: ws =>
    have := decidableCloses (depth + weight w.kind) (v :: ws)
    inferInstanceAs (Decidable (0 < depth + weight w.kind ∧ Closes (depth + weight w.kind) (v :: ws)))

/-- The words up to the one that brings the depth of angle brackets down to zero, or below. -/
def upToClosing (depth : Int) : List Word → Option (List Word)
  | [] => none
  | w :: ws =>
    if depth + weight w.kind ≤ 0 then some [w]
    else (upToClosing (depth + weight w.kind) ws).map (w :: ·)

theorem closes_cons {w : Word} {ws : List Word} (hws : ws ≠ []) {depth : Int} :
    Closes depth (w :: ws) ↔ 0 < depth + weight w.kind ∧ Closes (depth + weight w.kind) ws := by
  obtain ⟨v, ws, rfl⟩ := List.exists_cons_of_ne_nil hws
  rfl

theorem Closes.ne_nil {depth : Int} {ws : List Word} (h : Closes depth ws) : ws ≠ [] := by
  rintro rfl
  exact h

/-- A word in front of words that close what it leaves open. -/
theorem Closes.cons {w : Word} {ws : List Word} {depth inner : Int} (h : Closes inner ws)
    (hpos : 0 < inner) (hw : depth + weight w.kind = inner) : Closes depth (w :: ws) := by
  rw [closes_cons h.ne_nil, hw]
  exact ⟨hpos, h⟩

theorem Closes.upToClosing_eq {depth : Int} {ws : List Word} (h : Closes depth ws) :
    upToClosing depth ws = some ws := by
  induction ws generalizing depth with
  | nil => exact absurd h id
  | cons w ws ih =>
    rw [upToClosing]
    by_cases hws : ws = []
    · subst hws
      exact if_pos (Int.le_of_eq h)
    · rw [closes_cons hws] at h
      rw [if_neg (Int.not_le.mpr h.1), ih h.2, Option.map_some]

theorem closes_closers {n : Nat} (h : n ≠ 0) : Closes n (closers n) := by
  fun_induction closers n with
  | case1 => exact absurd rfl h
  | case2 => exact rfl
  | case3 => exact rfl
  | case4 n ih =>
    cases n with
    | zero => exact rfl
    | succ n =>
      refine (ih n.succ_ne_zero).cons (by omega) ?_
      simp only [Word.mark, weight]
      omega

/-- Brackets in a row in front of words that close the rest. -/
theorem Closes.behind_closers {depth : Int} {ws : List Word} (h : Closes depth ws) (hpos : 0 < depth)
    (n : Nat) : Closes (depth + n) (closers n ++ ws) := by
  fun_induction closers n with
  | case1 => simpa using h
  | case2 =>
    refine h.cons hpos ?_
    simp only [Word.mark, weight]
    omega
  | case3 =>
    refine h.cons hpos ?_
    simp only [Word.mark, weight]
    omega
  | case4 n ih =>
    refine ih.cons (by omega) ?_
    simp only [Word.mark, weight]
    omega

theorem IsPart.weight_nonneg {w : Word} (h : IsPart w) (hk : w.kind ≠ .mark .greater) :
    0 ≤ weight w.kind := by
  cases h with
  | name h => exact Int.le_refl 0
  | primitive p => exact Int.le_refl 0
  | extends_ => decide
  | super_ => decide
  | @mark m h => cases m <;> first | exact absurd rfl hk | exact absurd h (by decide) | decide

/-- Closing brackets that are put together close as many lists. -/
theorem closes_fuse {depth : Int} {ws : List Word} (hparts : ∀ w ∈ ws, IsPart w)
    (h : Closes depth ws) (hpos : 0 < depth) (n : Nat) : Closes (depth + n) (fuse n ws) := by
  induction ws generalizing depth n with
  | nil => exact absurd h id
  | cons w ws ih =>
    have hw := hparts w List.mem_cons_self
    by_cases hk : w.kind = .mark .greater
    · rw [fuse, if_pos hk]
      have hweight : weight w.kind = -1 := by rw [hk]; rfl
      by_cases hws : ws = []
      · subst hws
        have hdepth : depth + weight w.kind = 0 := h
        have hone : depth + n = ((n + 1 : Nat) : Int) := by omega
        rw [hone]
        exact closes_closers n.succ_ne_zero
      · rw [closes_cons hws] at h
        have hrest := ih (fun v hv => hparts v (List.mem_cons_of_mem _ hv)) h.2 h.1 (n + 1)
        have hone : depth + n = depth + weight w.kind + ((n + 1 : Nat) : Int) := by omega
        rw [hone]
        exact hrest
    · rw [fuse, if_neg hk]
      refine Closes.behind_closers ?_ hpos n
      have hweight := hw.weight_nonneg hk
      by_cases hws : ws = []
      · subst hws
        have hdepth : depth + weight w.kind = 0 := h
        omega
      · rw [closes_cons hws] at h
        have hrest := ih (fun v hv => hparts v (List.mem_cons_of_mem _ hv)) h.2 h.1 0
        rw [Int.natCast_zero, Int.add_zero] at hrest
        exact hrest.cons h.1 rfl

/-! ### Whole lists -/

/-- A list of type arguments or type parameters, with each bracket on its own. -/
structure IsList (ws : List Word) : Prop where
  parts : ∀ w ∈ ws, IsPart w
  noClash : NoClash ws
  opens : ∀ w ∈ ws.head?, w.kind = .mark .less
  closes : Closes 0 ws

theorem Closes.endsClosed {depth : Int} {ws : List Word} (h : Closes depth ws)
    (hparts : ∀ w ∈ ws, IsPart w) (hpos : 0 < depth) : EndsClosed ws := by
  induction ws generalizing depth with
  | nil => exact absurd h id
  | cons w ws ih =>
    by_cases hws : ws = []
    · subst hws
      rintro v hv
      cases hv
      have hdepth : depth + weight w.kind = 0 := h
      by_cases hk : w.kind = .mark .greater
      · exact hk
      · have hweight := (hparts w List.mem_cons_self).weight_nonneg hk
        omega
    · rw [closes_cons hws] at h
      obtain ⟨v, ws, rfl⟩ := List.exists_cons_of_ne_nil hws
      intro u hu
      rw [List.getLast?_cons_cons] at hu
      exact ih h.2 (fun v hv => hparts v (List.mem_cons_of_mem _ hv)) h.1 u hu

/-- A list opens with a bracket, and the words behind it close it. -/
theorem IsList.eq_cons {ws : List Word} (h : IsList ws) :
    ∃ vs, ws = .mark .less :: vs ∧ Closes 1 vs := by
  obtain ⟨hparts, -, hopens, hcloses⟩ := h
  rcases ws with _ | ⟨w, vs⟩
  · exact absurd hcloses id
  · have hk : w.kind = .mark .less := hopens w rfl
    have hw : w = .mark .less := by
      cases hparts w List.mem_cons_self with
      | mark h =>
        cases hk
        rfl
      | name h => cases hk
      | primitive p => cases hk
      | extends_ => cases hk
      | super_ => cases hk
    subst hw
    refine ⟨vs, rfl, ?_⟩
    rcases vs with _ | ⟨v, vs⟩
    · cases hcloses
    · exact hcloses.2

theorem IsList.endsClosed {ws : List Word} (h : IsList ws) : EndsClosed ws := by
  obtain ⟨vs, rfl, hcloses⟩ := h.eq_cons
  have hends := hcloses.endsClosed (fun v hv => h.parts v (List.mem_cons_of_mem _ hv)) (by decide)
  obtain ⟨v, vs, rfl⟩ := List.exists_cons_of_ne_nil hcloses.ne_nil
  intro u hu
  rw [List.getLast?_cons_cons] at hu
  exact hends u hu

/-- The text of a list spells the list as it is read. -/
theorem IsList.writes {ws : List Word} (h : IsList ws) :
    Writes (text none ws) (fuse 0 ws) fun r => ∀ c ∈ r.head?, c ≠ '>' ∧ c ≠ '=' := by
  intro r vs hr hspells
  exact spells_text h.parts h.noClash h.endsClosed hr hspells none 0

theorem IsList.closes_fuse {ws : List Word} (h : IsList ws) : Closes 0 (fuse 0 ws) := by
  obtain ⟨vs, rfl, hcloses⟩ := h.eq_cons
  have hrest := Angle.closes_fuse (fun v hv => h.parts v (List.mem_cons_of_mem _ hv)) hcloses
    (by decide) 0
  exact hrest.cons (by decide) rfl

theorem IsPart.isInType {w : Word} (h : IsPart w) : isInType w.kind = true := by
  cases h with
  | name h => rfl
  | primitive p => rfl
  | extends_ => rfl
  | super_ => rfl
  | @mark m h => cases m <;> first | rfl | cases h

/-- What holds of closing brackets and of all words holds where brackets in a row are put together. -/
theorem forall_mem_fuse {P : Word → Prop} (hclosers : ∀ n, ∀ w ∈ closers n, P w) {ws : List Word}
    (h : ∀ w ∈ ws, P w) (n : Nat) : ∀ w ∈ fuse n ws, P w := by
  induction ws generalizing n with
  | nil => exact hclosers n
  | cons v ws ih =>
    have hrest := ih fun w hw => h w (List.mem_cons_of_mem _ hw)
    rw [fuse]
    split
    · exact hrest (n + 1)
    · intro w hw
      rcases List.mem_append.mp hw with hw | hw
      · exact hclosers n w hw
      · rcases List.mem_cons.mp hw with rfl | hw
        · exact h w List.mem_cons_self
        · exact hrest 0 w hw

theorem mem_closers {n : Nat} {w : Word} (h : w ∈ closers n) :
    w = .mark .greater ∨ w = .mark .rightShift ∨ w = .mark .unsignedShift := by
  fun_induction closers n with
  | case1 => cases h
  | case2 => exact .inl (List.mem_singleton.mp h)
  | case3 => exact .inr (.inl (List.mem_singleton.mp h))
  | case4 n ih =>
    rcases List.mem_cons.mp h with rfl | h
    · exact .inr (.inr rfl)
    · exact ih h

theorem isInType_closers (n : Nat) : ∀ w ∈ closers n, isInType w.kind = true := by
  intro w hw
  rcases mem_closers hw with rfl | rfl | rfl <;> rfl

theorem isInType_fuse {ws : List Word} (hparts : ∀ w ∈ ws, IsPart w) (n : Nat) :
    ∀ w ∈ fuse n ws, isInType w.kind = true :=
  forall_mem_fuse isInType_closers (fun w hw => (hparts w hw).isInType) n

/-! ### Text of brackets put together -/

/-- Brackets that close have no space before them, and look the same to the word behind them. -/
theorem text_closers {n : Nat} (hn : n ≠ 0) (previous : Option Kind) (ws : List Word) :
    text previous (closers n ++ ws) =
      String.ofList (List.replicate n '>') ++ text (some (.mark .greater)) ws := by
  fun_induction closers n generalizing previous with
  | case1 => exact absurd rfl hn
  | case2 => cases previous <;> rfl
  | case3 => cases previous <;> cases ws <;> rfl
  | case4 n ih =>
    cases n with
    | zero => cases previous <;> cases ws <;> rfl
    | succ n =>
      rw [List.cons_append, text_cons, ih n.succ_ne_zero, ← String.toList_inj]
      cases previous <;>
        simp [isApart, hasSpace, Word.mark, Kind.isWord, Mark.chars, List.replicate_succ]

/-- The text of a list is the same with closing brackets put together. -/
theorem text_fuse (ws : List Word) (hgreater : ∀ w ∈ ws, w.kind = .mark .greater → w = .mark .greater)
    (previous : Option Kind) (n : Nat) :
    text previous (fuse n ws) = String.ofList (List.replicate n '>') ++
      text (if n = 0 then previous else some (.mark .greater)) ws := by
  induction ws generalizing previous n with
  | nil =>
    by_cases hn : n = 0
    · subst hn
      rfl
    · have h := text_closers hn previous []
      rw [List.append_nil] at h
      rw [fuse, h, if_neg hn]
  | cons w ws ih =>
    have hrest := ih fun v hv => hgreater v (List.mem_cons_of_mem _ hv)
    by_cases hk : w.kind = .mark .greater
    · rw [fuse, if_pos hk, hrest, if_neg n.succ_ne_zero, hgreater w List.mem_cons_self hk,
        ← String.toList_inj]
      simp only [String.toList_append, String.toList_ofList, text_greater, List.replicate_succ',
        List.append_assoc, List.singleton_append]
    · have hbehind (p : Option Kind) : text p (w :: fuse 0 ws) = text p (w :: ws) := by
        rw [text_cons, text_cons, hrest (some w.kind) 0]
        rfl
      rw [fuse, if_neg hk]
      by_cases hn : n = 0
      · subst hn
        rw [if_pos rfl, closers, List.nil_append, hbehind]
        rfl
      · rw [text_closers hn, if_neg hn, hbehind]

/-! ### Lists that are read back -/

/-- A list that starts with a bracket, and whose text spells it, with closing brackets in a row put
together. -/
structure IsWritten (ws : List Word) : Prop where
  opens : ws.head? = some (.mark .less)
  writes : Writes (text none ws) (fuse 0 ws) fun r => ∀ c ∈ r.head?, c ≠ '>' ∧ c ≠ '='

/-- A list whose text is read as the list, with closing brackets in a row put together, and which ends
where it is closed. -/
structure IsWhole (ws : List Word) : Prop extends IsWritten ws where
  joined : text none (fuse 0 ws) = text none ws
  closes : upToClosing 0 (fuse 0 ws) = some (fuse 0 ws)
  passes : ∀ w ∈ fuse 0 ws, Parser.endsAngle w.kind = false

theorem not_endsAngle {k : Kind} (h : isInType k = true) : Parser.endsAngle k = false := by
  cases k with
  | mark m => cases m <;> first | rfl | cases h
  | _ => first | rfl | cases h

theorem IsList.isWhole {ws : List Word} (h : IsList ws) : IsWhole ws where
  opens := by
    obtain ⟨vs, rfl, -⟩ := h.eq_cons
    rfl
  writes := h.writes
  joined := by
    rw [text_fuse ws fun w hw => (h.parts w hw).eq_greater]
    simp
  closes := h.closes_fuse.upToClosing_eq
  passes := fun w hw => not_endsAngle (isInType_fuse h.parts 0 w hw)

/-- A list that may be written. Where it is to be read again, it holds nothing but types: a look ahead
gives up at anything else. -/
structure MayStand (rereads : Prop) (ws : List Word) : Prop where
  written : IsWritten ws
  list : rereads → IsList ws

theorem IsList.mayStand {rereads : Prop} {ws : List Word} (h : IsList ws) : MayStand rereads ws :=
  ⟨h.isWhole.toIsWritten, fun _ => h⟩

end Angle

end JavaTree
