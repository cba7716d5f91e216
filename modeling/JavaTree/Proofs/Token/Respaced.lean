import JavaTree.Proofs.Lines
import JavaTree.Proofs.Token.Comment
import JavaTree.Proofs.Token.Coordinates
import JavaTree.Proofs.Token.Pieces
import JavaTree.Proofs.Token.Recovered

/-!
Texts with the same passages and other blanks between them.

`Reads` says how a text without faults is read, piece by piece, each of them with what is behind it. A
text keeps its words when the blanks between its passages are changed, as long as no comment that
reaches to the end of its line goes on further: with `\r` alone for a newline the rest of the text is
its line, and it does not hold a brace that is put on a line of its own.

    passages:   class A   {   void f();   }
    same line:  class A { / void f(); / }
    next line:  class A / { / void f(); / }
-/

namespace JavaTree

open Pattern Lexer

/-! ### Reading without faults -/

/-- How a text without faults is read, piece by piece, and the words that this gives. What is asked of
comments that reach to the end of their line is left open. -/
inductive Reads (passes : List Char → Prop) : List Char → List Word → Prop
  | done : Reads passes [] []
  | blank {c : Char} {cs : List Char} {ws : List Word} (hc : isBlank c = true) (h : Reads passes cs ws) :
      Reads passes (c :: cs) ws
  | piece {k : Kind} {w cs : List Char} {ws : List Word} (hw : w ≠ [])
      (hblank : ∀ c ∈ w.head?, isBlank c = false) (hread : read (w ++ cs) = ⟨.ok k, w.length⟩)
      (hpasses : k = .lineComment → passes w) (h : Reads passes cs ws) :
      Reads passes (w ++ cs) (if k.isTrivia then ws else ⟨k, String.ofList w⟩ :: ws)

namespace Reads

variable {passes : List Char → Prop} {cs : List Char} {ws : List Word}

theorem blanks {pad : List Char} (hpad : pad.all isBlank = true) (h : Reads passes cs ws) :
    Reads passes (pad ++ cs) ws := by
  induction pad with
  | nil => exact h
  | cons c pad ih =>
    rw [List.all_cons, Bool.and_eq_true] at hpad
    exact .blank hpad.1 (ih hpad.2)

/-- The pieces that a text is cut into. -/
theorem filterMap_cut (h : Reads passes cs ws) (u : Cursor) :
    (cut 0 u cs).filterMap Item.fault? = [] ∧ ((cut 0 u cs).filterMap Item.token?).map Token.word = ws := by
  induction h generalizing u with
  | done => exact ⟨rfl, rfl⟩
  | @blank c cs ws hc _ ih =>
    rw [filterMap_cut_cons (fun _ _ => rfl) hc, filterMap_cut_cons (fun _ _ => rfl) hc]
    exact ih _
  | @piece k w cs ws hw _ hread _ _ ih =>
    rw [cut_append hw hread, List.filterMap_cons, List.filterMap_cons]
    by_cases hk : k.isTrivia = true
    · simpa [Item.fault?, Item.token?, hk] using ih _
    · simpa [Item.fault?, Item.token?, hk, Token.word] using ih _

end Reads

/-- A piece that is no fault and, if it is a comment that reaches to the end of its line, has a text as it
is asked for. -/
def Lexer.Item.Passes (passes : List Char → Prop) : Item → Prop
  | .token t => t.kind = .lineComment → passes t.lexeme.toList
  | .fault _ => False

/-- The pieces behind a blank are pieces of the whole, or blanks. -/
theorem mem_cut_cons {c : Char} (hc : isBlank c = true) {u : Cursor} {cs : List Char} {i : Item}
    (hi : i ∈ cut 0 (u.advance c) cs) : i ∈ cut 0 u (c :: cs) ∨ ∃ text l, i = .token ⟨.blank, text, l⟩ := by
  rw [cut_cons_blank hc]
  rcases cs with _ | ⟨d, cs⟩
  · cases hi
  · cases hd : isBlank d with
    | false =>
      have hrun : run isBlank (d :: cs) = 0 := by simp [run, hd]
      rw [hrun]
      exact .inl (List.mem_cons_of_mem _ hi)
    | true =>
      have hrun : run isBlank (d :: cs) = run isBlank cs + 1 := by simp [run, hd]
      rw [cut_cons_blank hd, List.mem_cons] at hi
      rcases hi with rfl | hi
      · exact .inr ⟨_, _, rfl⟩
      · rw [hrun]
        exact .inl (List.mem_cons_of_mem _ hi)

/-- A text is read as it is cut. -/
theorem reads_of_cut {passes : List Char → Prop} {cs : List Char} {u : Cursor}
    (h : ∀ i ∈ cut 0 u cs, i.Passes passes) :
    Reads passes cs (((cut 0 u cs).filterMap Item.token?).map Token.word) := by
  induction hn : cs.length using Nat.strongRecOn generalizing cs u with
  | ind n ih =>
    subst hn
    rcases cs with _ | ⟨c, cs⟩
    · exact .done
    cases hc : isBlank c with
    | true =>
      rw [filterMap_cut_cons (fun _ _ => rfl) hc]
      refine .blank hc (ih _ (Nat.lt_succ_self _) (fun i hi => ?_) rfl)
      rcases mem_cut_cons hc hi with hi | ⟨text, l, rfl⟩
      · exact h i hi
      · nofun
    | false =>
      obtain ⟨hpos, hle⟩ := bounds_of_read c cs
      have hlt := length_drop_read_lt (List.cons_ne_nil c cs)
      rw [cut_eq (List.cons_ne_nil c cs)] at h ⊢
      obtain ⟨⟨content, n⟩, hread⟩ : ∃ r, read (c :: cs) = r := ⟨_, rfl⟩
      rw [hread] at h hpos hle hlt ⊢
      simp only at hpos hle hlt
      have hitem := h _ List.mem_cons_self
      cases content with
      | error e => exact hitem.elim
      | ok k =>
        have hrest := ih _ hlt (fun i hi => h i (List.mem_cons_of_mem _ hi)) rfl
        have hlength : ((c :: cs).take n).length = n := List.length_take_of_le hle
        have hpiece := @Reads.piece passes k ((c :: cs).take n) ((c :: cs).drop n) _
          (by rw [← List.length_pos_iff, hlength]; exact hpos)
          (by
            obtain ⟨m, rfl⟩ := Nat.exists_eq_add_one_of_ne_zero (Nat.ne_of_gt hpos)
            rintro d hd
            cases hd
            exact hc)
          (by rw [List.take_append_drop, hlength, hread])
          (fun hk => by simpa using hitem hk) hrest
        rw [List.take_append_drop] at hpiece
        rw [List.filterMap_cons]
        by_cases hk : k.isTrivia = true
        · simpa [Reading.item, Item.token?, hk] using hpiece
        · simpa [Reading.item, Item.token?, hk, Token.word] using hpiece

/-- A text without faults is read as it is cut, if nothing is asked of comments. -/
theorem reads_of_faults {cs : List Char} {u : Cursor} (h : (cut 0 u cs).filterMap Item.fault? = []) :
    Reads (fun _ => True) cs (((cut 0 u cs).filterMap Item.token?).map Token.word) := by
  refine reads_of_cut fun i hi => ?_
  cases i with
  | token t => exact fun _ => trivial
  | fault f =>
    have hmem : f ∈ (cut 0 u cs).filterMap Item.fault? := List.mem_filterMap.mpr ⟨_, hi, rfl⟩
    rw [h] at hmem
    cases hmem

/-- A text that spells words is read as these. -/
theorem reads_of_spells {cs : List Char} {ws : List Word} (h : Spells cs ws) :
    Reads (fun _ => True) cs ws := by
  obtain ⟨hfaults, rfl⟩ := Lexer.filterMap_cut h .start
  exact reads_of_faults hfaults

/-! ### Quoted literals -/

namespace Literal

theorem after_blame_ne_closed (s : Scan) (k n : Nat) (e : FaultKind) (v : List Char) :
    s.after k (.blame e) ≠ ⟨n, .closed v⟩ := by
  rcases s with ⟨m, _ | _ | _⟩ <;> nofun

theorem of_after_prepend {s : Scan} {k n : Nat} {d : Char} {v : List Char}
    (h : s.after k (.prepend d) = ⟨n, .closed v⟩) : ∃ m v', s = ⟨m, .closed v'⟩ ∧ n = m + k ∧ v = d :: v' := by
  rcases s with ⟨m, v' | _ | _⟩ <;> cases h
  exact ⟨m, v', rfl, rfl, rfl⟩

theorem isBlank_of_value? {c : Char} {n : Nat} (h : Text.Hex.value? c = some n) : isBlank c = false := by
  cases hc : isBlank c with
  | false => rfl
  | true => rcases isBlank_cases hc with rfl | rfl | rfl | rfl | rfl <;> cases h

theorem isBlank_of_unescape? {e d : Char} (h : unescape? e = some d) : isBlank e = false := by
  cases he : isBlank e with
  | false => rfl
  | true => rcases isBlank_cases he with rfl | rfl | rfl | rfl | rfl <;> cases h

theorem isBlank_of_unit? {w x y z : Char} {n : Nat} (h : Text.Hex.unit? w x y z = some n) :
    isBlank w = false ∧ isBlank x = false ∧ isBlank y = false ∧ isBlank z = false := by
  unfold Text.Hex.unit? at h
  split at h
  · next hw hx hy hz =>
    exact ⟨isBlank_of_value? hw, isBlank_of_value? hx, isBlank_of_value? hy, isBlank_of_value? hz⟩
  · cases h

variable {quote : Char} (hquote : quote ≠ '\\')
include hquote

/-- A closed literal starts with its closing quote, or with a character of its text: written as itself or
as an escape, whose characters are no blanks. -/
theorem exists_of_scan_closed {cs : List Char} {n : Nat} {v : List Char}
    (h : scan quote cs = ⟨n, .closed v⟩) : (∃ rest, cs = quote :: rest ∧ n = 1 ∧ v = []) ∨
      ∃ c p rest d m v', cs = c :: (p ++ rest) ∧ (∀ e ∈ p, isBlank e = false) ∧
        scan quote rest = ⟨m, .closed v'⟩ ∧ n = m + (p.length + 1) ∧ v = d :: v' ∧
        ∀ rest', scan quote (c :: (p ++ rest')) = (scan quote rest').after (p.length + 1) (.prepend d) := by
  revert h
  fun_cases scan quote cs with
  | case1 => nofun
  | case2 rest =>
    rintro ⟨⟩
    exact .inl ⟨rest, rfl, rfl, rfl⟩
  | case3 c rest hc hbreak => nofun
  | case4 c rest hc hbreak hplain =>
    intro h
    obtain ⟨m, v', hrest, hn, hv⟩ := of_after_prepend h
    exact .inr ⟨c, [], rest, c, m, v', rfl, List.forall_mem_nil _, hrest, hn, hv,
      scan_plain hc (not_or.mp hbreak) hplain⟩
  | case5 c hc hbreak hback => nofun
  | case6 c hc hbreak hback e more he => nofun
  | case7 c hc hbreak hback w x y z tail k hunit =>
    intro h
    obtain rfl := Classical.not_not.mp hback
    obtain ⟨m, v', hrest, hn, hv⟩ := of_after_prepend h
    obtain ⟨hw, hx, hy, hz⟩ := isBlank_of_unit? hunit
    refine .inr ⟨'\\', ['u', w, x, y, z], tail, ofUnit k, m, v', rfl, ?_, hrest, hn, hv,
      scan_unit hquote hunit⟩
    simp [hw, hx, hy, hz, show isBlank 'u' = false from rfl]
  | case8 | case9 | case11 => exact fun h => absurd h (after_blame_ne_closed _ _ _ _ _)
  | case10 c hc hbreak hback e more he hu d hd =>
    intro h
    obtain rfl := Classical.not_not.mp hback
    obtain ⟨m, v', hrest, hn, hv⟩ := of_after_prepend h
    refine .inr ⟨'\\', [e], more, d, m, v', rfl, ?_, hrest, hn, hv, scan_short hquote hd⟩
    exact List.forall_mem_singleton.mpr (isBlank_of_unescape? hd)

/-- A literal that is closed in a text is closed in the same way before any other text, if what is behind
the text holds no end of it and starts with a blank. -/
theorem scan_closed {g : Char} (hg : isBlank g = true) {r : List Char}
    (hr : ∀ n v, scan quote (g :: r) ≠ ⟨n, .closed v⟩) {x : List Char} {n : Nat} {v : List Char}
    (h : scan quote (x ++ g :: r) = ⟨n, .closed v⟩) :
    n ≤ x.length ∧ ∀ r', scan quote (x ++ r') = ⟨n, .closed v⟩ := by
  induction hx : x.length using Nat.strongRecOn generalizing x n v with
  | ind k ih =>
    subst hx
    rcases x with _ | ⟨c, x⟩
    · exact absurd h (hr _ _)
    rcases exists_of_scan_closed hquote h with ⟨rest, hrest, rfl, rfl⟩ |
      ⟨c', p, rest, d, m, v', hcs, hp, hrest, rfl, rfl, hscan⟩
    · cases hrest
      exact ⟨by simp, fun r' => scan_quote _ _⟩
    · obtain ⟨rfl, hsplit⟩ := List.cons.inj hcs
      -- the escape ends before the blank
      obtain ⟨y, rfl, rfl⟩ : ∃ y, x = p ++ y ∧ rest = y ++ g :: r := by
        rcases List.append_eq_append_iff.mp hsplit with ⟨y, rfl, hy⟩ | ⟨y, rfl, hy⟩
        · rcases y with _ | ⟨e, y⟩
          · exact ⟨[], by simp, by simpa using hy.symm⟩
          · cases hy
            have := hp g (by simp)
            rw [hg] at this
            cases this
        · exact ⟨y, rfl, hy⟩
      obtain ⟨hle, hsame⟩ := ih y.length (by simp only [List.length_cons, List.length_append]; omega) hrest rfl
      refine ⟨by simp only [List.length_cons, List.length_append]; omega, fun r' => ?_⟩
      rw [List.cons_append, List.append_assoc, hscan, hsame]
      rfl

/-- A literal that is closed is closed at the same place in front of any other text. -/
theorem scan_same {x r : List Char} {v : List Char} (h : scan quote (x ++ r) = ⟨x.length, .closed v⟩)
    (r' : List Char) : scan quote (x ++ r') = ⟨x.length, .closed v⟩ := by
  induction hx : x.length using Nat.strongRecOn generalizing x v with
  | ind k ih =>
    subst hx
    rcases exists_of_scan_closed hquote h with ⟨rest, hrest, hone, rfl⟩ |
      ⟨c, p, rest, d, m, v', hcs, -, hrest, hlength, rfl, hscan⟩
    · obtain ⟨c, rfl⟩ := List.length_eq_one_iff.mp hone
      obtain ⟨rfl, -⟩ := List.cons.inj hrest
      exact scan_quote _ _
    · -- the literal ends behind the escape at its start
      obtain ⟨y, rfl, rfl⟩ : ∃ y, x = c :: (p ++ y) ∧ rest = y ++ r := by
        rw [← List.cons_append] at hcs
        rcases List.append_eq_append_iff.mp hcs with ⟨y, hy, rfl⟩ | ⟨y, rfl, rfl⟩
        · have hle := congrArg List.length hy
          simp only [List.length_cons, List.length_append] at hle
          obtain rfl : y = [] := List.length_eq_zero_iff.mp (by omega)
          exact ⟨[], by simpa using hy.symm, rfl⟩
        · exact ⟨y, rfl, rfl⟩
      obtain rfl : m = y.length := by
        simp only [List.length_cons, List.length_append] at hlength
        omega
      have hsame := ih y.length (by simp only [List.length_cons, List.length_append]; omega) hrest rfl
      rw [List.cons_append, List.append_assoc, hscan, hsame, hlength]
      rfl

end Literal

namespace Lexer

/-- A quoted literal is read in the same way in front of any other text. -/
theorem read_quoted_same {quote : Char} (hquote : quote = '"' ∨ quote = '\'') {x r : List Char} {k : Kind}
    (h : read (quote :: (x ++ r)) = ⟨.ok k, x.length + 1⟩) (r' : List Char) :
    read (quote :: (x ++ r')) = ⟨.ok k, x.length + 1⟩ := by
  have hsame {v : List Char} (hwidth : (Literal.scan quote (x ++ r)).width + 1 = x.length + 1)
      (hbody : (Literal.scan quote (x ++ r)).body = .closed v) :
      Literal.scan quote (x ++ r') = ⟨x.length, .closed v⟩ := by
    refine Literal.scan_same (by rcases hquote with rfl | rfl <;> decide) (r := r) ?_ r'
    rw [← hbody, ← Nat.succ.inj hwidth]
  rcases hquote with rfl | rfl
  · simp only [read, readString, Reading.mk.injEq] at h ⊢
    obtain ⟨hkind, hwidth⟩ := h
    split at hkind <;> cases hkind
    next v hv => rw [hsame hwidth hv]; exact ⟨rfl, rfl⟩
  · simp only [read, readCharacter, Reading.mk.injEq] at h ⊢
    obtain ⟨hkind, hwidth⟩ := h
    split at hkind <;> cases hkind
    next c hc => rw [hsame hwidth hc]; exact ⟨rfl, rfl⟩

/-- A quoted literal before a blank is read in the same way before any other text. -/
theorem read_quoted {quote : Char} (hquote : quote = '"' ∨ quote = '\'') {g : Char} (hg : isBlank g = true)
    {r : List Char} (hr : ∀ n v, Literal.scan quote (g :: r) ≠ ⟨n, .closed v⟩) {x : List Char} {k : Kind}
    {n : Nat} (h : read (quote :: (x ++ g :: r)) = ⟨.ok k, n⟩) :
    n ≤ x.length + 1 ∧ ∀ r', read (quote :: (x ++ r')) = ⟨.ok k, n⟩ := by
  have hslash : quote ≠ '\\' := by rcases hquote with rfl | rfl <;> decide
  have hlocal {m : Nat} {v : List Char} (hs : Literal.scan quote (x ++ g :: r) = ⟨m, .closed v⟩) :=
    Literal.scan_closed hslash hg hr hs
  rcases hquote with rfl | rfl
  · rw [read, readString] at h
    split at h <;> cases h
    next v hv =>
      obtain ⟨hle, hsame⟩ := hlocal (m := (Literal.scan '"' (x ++ g :: r)).width) (v := v) (by rw [← hv])
      refine ⟨by omega, fun r' => ?_⟩
      rw [read, readString, hsame]
  · rw [read, readCharacter] at h
    split at h <;> cases h
    next c hc =>
      obtain ⟨hle, hsame⟩ := hlocal (m := (Literal.scan '\'' (x ++ g :: r)).width) (v := [c]) (by rw [← hc])
      refine ⟨by omega, fun r' => ?_⟩
      rw [read, readCharacter, hsame]

/-- What is read before a blank is read in the same way before any other one, unless a comment starts
there. -/
theorem read_unquoted {x : List Char} (hx : x ≠ []) (hblank : ∀ c ∈ x.head?, isBlank c = false)
    (hquote : ∀ c ∈ x.head?, c ≠ '"' ∧ c ≠ '\'') (hcomment : NoComment x) {g : Char} (hg : isBlank g = true)
    {r : List Char} {k : Kind} {n : Nat} (h : read (x ++ g :: r) = ⟨.ok k, n⟩) :
    n ≤ x.length ∧ ∀ g' r', isBlank g' = true → read (x ++ g' :: r') = ⟨.ok k, n⟩ := by
  have hbefore (g' : Char) (r' : List Char) (hg' : isBlank g' = true) : read (x ++ g' :: r') = read x :=
    read_append_separator hx hblank hquote hcomment (by simp [isSeparator, hg']) r'
  rw [hbefore g r hg] at h
  refine ⟨?_, fun g' r' hg' => (hbefore g' r' hg').trans h⟩
  obtain ⟨c, x, rfl⟩ := List.exists_cons_of_ne_nil hx
  have hle := (bounds_of_read c x).2
  rw [h] at hle
  exact hle

end Lexer

/-! ### Block comments -/

namespace Pattern

/-- A stretch without stars holds no end of a comment. -/
theorem commentEnd?_append_of_ne_star {x : List Char} (hx : ∀ c ∈ x, c ≠ '*') (r : List Char) :
    commentEnd? (x ++ r) = (commentEnd? r).map (· + x.length) := by
  induction x with
  | nil => simp
  | cons c x ih =>
    rw [List.cons_append, commentEnd?_cons, if_neg fun hc => hx c List.mem_cons_self hc.1,
      ih fun d hd => hx d (List.mem_cons_of_mem _ hd), Option.map_map]
    rfl

theorem read_blockComment {cs : List Char} {n : Nat} (h : commentEnd? cs = some n) :
    read ('/' :: '*' :: cs) = ⟨.ok .blockComment, n + 2⟩ := by
  have hoffers : offers ('/' :: '*' :: cs) =
      [none, none, none] ++ (commentEnd? cs).map (fun n => (.blockComment, n + 2)) ::
        (some (.mark .slash, 1) :: List.replicate 8 none) := by
    simp only [offers, blockComment?, Option.map_map]
    rfl
  have hlongest : longest? ('/' :: '*' :: cs) = some (.blockComment, n + 2) := by
    rw [longest?, hoffers, h, Option.map_some]
    refine foldl_longer_eq (by simp) (fun p hp => ?_) (by simp)
    simp only [List.mem_cons, Option.some.injEq, List.mem_replicate, reduceCtorEq, and_false, or_false] at hp
    rw [hp]
    exact Nat.le_add_left 1 _
  have hends : opensEndlessComment ('/' :: '*' :: cs) = false := by rw [opensEndlessComment, h]; rfl
  rw [read_cons (by decide), hlongest, hends]
  rfl

end Pattern

/-! ### Other blanks -/

/-- A text and the same text with the newlines of a layout, other blanks behind them, and its opening
braces on lines of their own where the layout puts them there. -/
inductive Respaced (layout : Layout) : List Char → List Char → Prop
  | done : Respaced layout [] []
  | keep (c : Char) {a b : List Char} (h : Respaced layout a b) : Respaced layout (c :: a) (c :: b)
  | line {pad pad' a b : List Char} (hpad : pad.all isBlank = true) (hpad' : pad'.all isBlank = true)
      (h : Respaced layout a b) :
      Respaced layout ('\n' :: (pad ++ a)) (layout.newline.toList ++ (pad' ++ b))
  | brace {pad' a b : List Char} (hstyle : layout.braceStyle = .nextLine) (hpad' : pad'.all isBlank = true)
      (h : Respaced layout ('\x7b' :: '\n' :: a) b) :
      Respaced layout (' ' :: '\x7b' :: '\n' :: a) (layout.newline.toList ++ (pad' ++ b))

namespace Respaced

variable {layout : Layout} {a b : List Char}

theorem refl (x : List Char) : Respaced layout x x := by
  induction x with
  | nil => exact .done
  | cons c x ih => exact .keep c ih

theorem passage (x : List Char) (h : Respaced layout a b) : Respaced layout (x ++ a) (x ++ b) := by
  induction x with
  | nil => exact h
  | cons c x ih => exact .keep c ih

/-- Two such texts at the start of a gap. -/
inductive Gap (layout : Layout) : List Char → List Char → Prop
  | line {pad pad' a b : List Char} (hpad : pad.all isBlank = true) (hpad' : pad'.all isBlank = true)
      (h : Respaced layout a b) : Gap layout ('\n' :: (pad ++ a)) (layout.newline.toList ++ (pad' ++ b))
  | brace {pad' a b : List Char} (hstyle : layout.braceStyle = .nextLine) (hpad' : pad'.all isBlank = true)
      (h : Respaced layout ('\x7b' :: '\n' :: a) b) :
      Gap layout (' ' :: '\x7b' :: '\n' :: a) (layout.newline.toList ++ (pad' ++ b))

theorem Gap.respaced (h : Gap layout a b) : Respaced layout a b := by
  cases h with
  | line hpad hpad' h => exact .line hpad hpad' h
  | brace hstyle hpad' h => exact .brace hstyle hpad' h

/-- Two such texts are the same up to the first gap. -/
theorem exists_gap (h : Respaced layout a b) :
    a = b ∨ ∃ x a' b', a = x ++ a' ∧ b = x ++ b' ∧ Gap layout a' b' := by
  induction h with
  | done => exact .inl rfl
  | keep c _ ih =>
    rcases ih with rfl | ⟨x, a', b', rfl, rfl, hgap⟩
    · exact .inl rfl
    · exact .inr ⟨c :: x, a', b', rfl, rfl, hgap⟩
  | line hpad hpad' h => exact .inr ⟨[], _, _, rfl, rfl, .line hpad hpad' h⟩
  | brace hstyle hpad' h => exact .inr ⟨[], _, _, rfl, rfl, .brace hstyle hpad' h⟩

variable (hlayout : layout.problem? = none)
include hlayout

theorem exists_newline : ∃ g r, layout.newline.toList = g :: r ∧ isBlank g = true := by
  obtain ⟨hblank, hne⟩ := newline_blank hlayout
  obtain ⟨g, r, hnl⟩ := List.exists_cons_of_ne_nil hne
  rw [hnl, List.all_cons, Bool.and_eq_true] at hblank
  exact ⟨g, r, hnl, hblank.1⟩

/-- A gap starts with a blank, and no quoted literal ends behind it. -/
theorem Gap.starts (h : Gap layout a b) : ∃ g r g' r', a = g :: r ∧ b = g' :: r' ∧ isBlank g = true ∧
    isBlank g' = true ∧ ∀ quote, quote = '"' ∨ quote = '\'' → ∀ n v, Literal.scan quote a ≠ ⟨n, .closed v⟩ := by
  obtain ⟨g', r', hnl, hg'⟩ := exists_newline hlayout
  cases h with
  | line =>
    refine ⟨_, _, g', _, rfl, by rw [hnl]; rfl, rfl, hg', ?_⟩
    rintro quote (rfl | rfl) n v h <;> rw [Literal.scan.eq_def] at h <;> cases h
  | brace =>
    refine ⟨_, _, g', _, rfl, by rw [hnl]; rfl, rfl, hg', ?_⟩
    rintro quote (rfl | rfl) n v h <;>
      rw [Literal.scan_plain (by decide) (by decide) (by decide),
        Literal.scan_plain (by decide) (by decide) (by decide), Literal.scan.eq_def] at h <;>
      cases h

theorem head?_slash (h : Respaced layout a b) : a.head? = some '/' ↔ b.head? = some '/' := by
  obtain ⟨g, r, hnl, hg⟩ := exists_newline hlayout
  have hne : g ≠ '/' := by
    rintro rfl
    cases hg
  cases h <;> simp [hnl, hne]

omit hlayout in
theorem ne_star_of_blank {x : List Char} (h : x.all isBlank = true) : ∀ c ∈ x, c ≠ '*' := by
  rintro c hc rfl
  cases List.all_eq_true.mp h _ hc

omit hlayout in
/-- A gap holds no end of a comment, whatever is between the lines. -/
theorem commentEnd?_gap {x x' : List Char} (hx : ∀ c ∈ x, c ≠ '*') (hx' : ∀ c ∈ x', c ≠ '*')
    (h : ∀ {n}, Pattern.commentEnd? a = some n →
      ∃ m, Pattern.commentEnd? b = some m ∧ Respaced layout (a.drop n) (b.drop m))
    {n : Nat} (ha : Pattern.commentEnd? (x ++ a) = some n) :
    ∃ m, Pattern.commentEnd? (x' ++ b) = some m ∧ Respaced layout ((x ++ a).drop n) ((x' ++ b).drop m) := by
  rw [commentEnd?_append_of_ne_star hx] at ha
  obtain ⟨n, hn, rfl⟩ := Option.map_eq_some_iff.mp ha
  obtain ⟨m, hm, hrest⟩ := h hn
  refine ⟨m + x'.length, by rw [commentEnd?_append_of_ne_star hx', hm]; rfl, ?_⟩
  rw [Nat.add_comm n, Nat.add_comm m, List.drop_length_add_append, List.drop_length_add_append]
  exact hrest

/-- A block comment ends at the same place of both texts. -/
theorem commentEnd? (h : Respaced layout a b) {n : Nat} (ha : Pattern.commentEnd? a = some n) :
    ∃ m, Pattern.commentEnd? b = some m ∧ Respaced layout (a.drop n) (b.drop m) := by
  obtain ⟨hnl, -⟩ := newline_blank hlayout
  have hstar {pad : List Char} (hpad : pad.all isBlank = true) : ∀ c ∈ layout.newline.toList ++ pad, c ≠ '*' :=
    ne_star_of_blank (by rw [List.all_append, hnl, hpad]; rfl)
  induction h generalizing n with
  | done => cases ha
  | @keep c a b h ih =>
    rw [commentEnd?_cons] at ha
    split at ha
    · next hc =>
      cases ha
      obtain ⟨rfl, hslash⟩ := hc
      obtain ⟨a, rfl⟩ := List.head?_eq_some_iff.mp hslash
      cases h with
      | keep _ h => exact ⟨2, rfl, h⟩
    · next hc =>
      obtain ⟨n, hn, rfl⟩ := Option.map_eq_some_iff.mp ha
      obtain ⟨m, hm, hrest⟩ := ih hn
      rw [head?_slash hlayout h] at hc
      exact ⟨m + 1, by rw [commentEnd?_cons, if_neg hc, hm]; rfl, hrest⟩
  | @line pad pad' a b hpad hpad' h ih =>
    rw [← List.append_assoc]
    exact commentEnd?_gap (ne_star_of_blank (x := '\n' :: pad) hpad) (hstar hpad') ih ha
  | @brace pad' a b hstyle hpad' h ih =>
    rw [← List.append_assoc]
    exact commentEnd?_gap (ne_star_of_blank (x := [' ']) rfl) (hstar hpad') ih ha

end Respaced

/-- A comment that ends with its line in a layout: lines do not end in `\r` alone, and it does not hold a brace
that the layout puts on a line of its own. -/
def Layout.EndsComment (layout : Layout) (w : List Char) : Prop :=
  layout.newline ≠ "\r" ∧ (layout.braceStyle = .nextLine → w.getLast? ≠ some '\x7b')

namespace Respaced

variable {layout : Layout} (hlayout : layout.problem? = none)
include hlayout

/-- What is read at the start of a text and what is behind it, in the respaced text: a comment that reaches
to the end of its line may have a `\r` more, and there may be blanks before the two texts match again. -/
structure Step (layout : Layout) (k : Kind) (w cs b w' : List Char) : Prop where
  nonempty : w' ≠ []
  starts : ∀ c ∈ w'.head?, isBlank c = false
  same : k.isTrivia = false → w' = w
  behind : ∃ pad pad' a' b', cs = pad ++ a' ∧ b = w' ++ (pad' ++ b') ∧ pad.all isBlank = true ∧
    pad'.all isBlank = true ∧ Respaced layout a' b'
  reads : read b = ⟨.ok k, w'.length⟩

section Step

variable {k : Kind} {w cs x a b : List Char} (hw : w ≠ []) (hblank : ∀ c ∈ w.head?, isBlank c = false)
include hw hblank

omit hlayout in
/-- A piece that ends before the first gap. -/
theorem step_within (h : Respaced layout a b) (hcs : w ++ cs = x ++ a) (hle : w.length ≤ x.length)
    (hread : read (x ++ b) = ⟨.ok k, w.length⟩) : Step layout k w cs (x ++ b) w := by
  obtain ⟨y, rfl, rfl⟩ : ∃ y, x = w ++ y ∧ cs = y ++ a := by
    rcases List.append_eq_append_iff.mp hcs with ⟨y, rfl, hy⟩ | ⟨y, rfl, hy⟩
    · exact ⟨y, rfl, hy⟩
    · obtain rfl : y = [] := List.eq_nil_of_length_eq_zero (by rw [List.length_append] at hle; omega)
      exact ⟨[], by simp, by simpa using hy.symm⟩
  exact ⟨hw, hblank, fun _ => rfl, ⟨[], [], _, _, rfl, by simp, rfl, rfl, h.passage y⟩, hread⟩

/-- A comment that reaches to the end of its line. -/
theorem step_lineComment (h : Gap layout a b) {y : List Char} (hcs : w ++ cs = '/' :: '/' :: (y ++ a))
    (hread : read (w ++ cs) = ⟨.ok k, w.length⟩) (hends : k = .lineComment → layout.EndsComment w) :
    ∃ w', Step layout k w cs ('/' :: '/' :: (y ++ b)) w' := by
  -- the text of the comment, up to the first newline
  have hcomment (text rest : List Char) (htext : '\n' ∉ text)
      (hsplit : w ++ cs = '/' :: '/' :: (text ++ '\n' :: rest)) :
      k = .lineComment ∧ w = '/' :: '/' :: text ∧ cs = '\n' :: rest := by
    rw [hsplit, read_lineComment htext] at hread
    obtain ⟨rfl, hlength⟩ : Kind.lineComment = k ∧ text.length + 2 = w.length := by simpa using hread
    have hsplit' : w ++ cs = ('/' :: '/' :: text) ++ '\n' :: rest := hsplit
    obtain ⟨rfl, rfl⟩ := List.append_inj hsplit' hlength.symm
    exact ⟨rfl, rfl, rfl⟩
  by_cases hnewline : '\n' ∈ y
  · obtain ⟨text, rest, rfl, htext⟩ := List.eq_append_cons_of_mem hnewline
    rw [List.append_assoc] at hcs
    obtain ⟨rfl, rfl, rfl⟩ := hcomment text _ htext hcs
    have hread' : read ('/' :: '/' :: (text ++ '\n' :: rest) ++ b) = ⟨.ok .lineComment, text.length + 2⟩ := by
      rw [List.cons_append, List.cons_append, List.append_assoc]
      exact read_lineComment htext
    refine ⟨_, step_within (x := '/' :: '/' :: (text ++ '\n' :: rest)) hw hblank h.respaced ?_ (by simp) hread'⟩
    simp
  · cases h with
    | @line pad pad' a b hpad hpad' h =>
      obtain ⟨rfl, rfl, rfl⟩ := hcomment y _ hnewline hcs
      rcases newline_cases hlayout with hnl | hnl | hnl <;> rw [hnl]
      · refine ⟨'/' :: '/' :: y, by simp, by simp [isBlank], fun _ => rfl,
          ⟨'\n' :: pad, '\n' :: pad', a, b, rfl, rfl, hpad, hpad', h⟩, ?_⟩
        exact read_lineComment hnewline
      · have hnewline' : '\n' ∉ y ++ ['\r'] := by simpa using hnewline
        refine ⟨'/' :: '/' :: (y ++ ['\r']), by simp, by simp [isBlank], (fun hk => by cases hk),
          ⟨'\n' :: pad, '\n' :: pad', a, b, rfl, by simp, hpad, hpad', h⟩, ?_⟩
        have hread' := @read_lineComment _ (pad' ++ b) hnewline'
        rw [List.append_assoc] at hread'
        exact hread'
      · exact absurd hnl (hends rfl).1
    | @brace pad' a b hstyle hpad' h =>
      have hnewline' : '\n' ∉ y ++ [' ', '\x7b'] := by simpa using hnewline
      obtain ⟨rfl, rfl, -⟩ := hcomment (y ++ [' ', '\x7b']) a hnewline' (by simpa using hcs)
      have hlast : '/' :: '/' :: (y ++ [' ', '\x7b']) = ('/' :: '/' :: (y ++ [' '])) ++ ['\x7b'] := by simp
      exact absurd (hlast ▸ List.getLast?_concat) ((hends rfl).2 hstyle)

omit hw hblank in
/-- A block comment may run over gaps. -/
theorem step_blockComment (h : Respaced layout a b) (hcs : w ++ cs = '/' :: '*' :: a)
    (hread : read (w ++ cs) = ⟨.ok k, w.length⟩) : ∃ w', Step layout k w cs ('/' :: '*' :: b) w' := by
  rw [hcs] at hread
  rcases hn : Pattern.commentEnd? a with _ | n
  · rw [read_cons (by decide), if_pos (by rw [opensEndlessComment, hn]; rfl)] at hread
    cases hread
  · obtain ⟨m, hm, hrest⟩ := h.commentEnd? hlayout hn
    rw [read_blockComment hn] at hread
    obtain ⟨rfl, hlength⟩ : Kind.blockComment = k ∧ n + 2 = w.length := by simpa using hread
    have hcs' : cs = a.drop n := by
      have hdrop := congrArg (List.drop (n + 2)) hcs
      rw [hlength, List.drop_left, ← hlength] at hdrop
      exact hdrop
    have hle := commentEnd?_le hm
    refine ⟨'/' :: '*' :: b.take m, by simp, by simp [isBlank], (fun hk => by cases hk),
      ⟨[], [], _, _, hcs', ?_, rfl, rfl, hrest⟩, ?_⟩
    · simp
    · rw [read_blockComment hm]
      simp [List.length_take_of_le hle]

theorem step (h : Respaced layout (w ++ cs) b) (hread : read (w ++ cs) = ⟨.ok k, w.length⟩)
    (hends : k = .lineComment → layout.EndsComment w) : ∃ w', Step layout k w cs b w' := by
  rcases h.exists_gap with rfl | ⟨x, a, b, hcs, rfl, hgap⟩
  · exact ⟨w, hw, hblank, fun _ => rfl, ⟨[], [], cs, cs, rfl, rfl, rfl, rfl, refl cs⟩, hread⟩
  obtain ⟨g, r, g', r', ha, hb, hg, hg', hscan⟩ := hgap.starts hlayout
  have hread' : read (x ++ g :: r) = ⟨.ok k, w.length⟩ := by rw [← ha, ← hcs, hread]
  -- the piece starts before the gap
  obtain ⟨c, w, rfl⟩ := List.exists_cons_of_ne_nil hw
  rcases x with _ | ⟨c', x⟩
  · rw [ha] at hcs
    cases hcs
    have := hblank g rfl
    rw [hg] at this
    cases this
  obtain rfl : c = c' := (List.cons.inj hcs).1
  have hc := hblank c rfl
  by_cases hquote : c = '"' ∨ c = '\''
  · rw [ha] at hscan
    obtain ⟨hle, hsame⟩ := read_quoted hquote hg (hscan c hquote) hread'
    exact ⟨_, step_within hw hblank hgap.respaced hcs hle (hsame b)⟩
  by_cases hcomment : NoComment (c :: x)
  · obtain ⟨hle, hsame⟩ := read_unquoted (List.cons_ne_nil c x) (by simpa using hc)
      (by simpa using not_or.mp hquote) hcomment hg hread'
    exact ⟨_, step_within hw hblank hgap.respaced hcs hle (hb ▸ hsame g' r' hg')⟩
  -- a comment starts here
  obtain ⟨d, y, rfl, rfl, hd⟩ : ∃ d y, c = '/' ∧ x = d :: y ∧ (d = '/' ∨ d = '*') := by
    simp only [NoComment, not_forall] at hcomment
    obtain ⟨c', d, ds, heq, rfl, hd⟩ := hcomment
    cases heq
    exact ⟨d, ds, rfl, rfl, by simpa [or_iff_not_imp_left] using hd⟩
  rcases hd with rfl | rfl
  · exact step_lineComment hlayout hw hblank hgap hcs hread hends
  · exact step_blockComment hlayout (hgap.respaced.passage y) hcs hread

end Step

/-- A text without faults has the same words with other blanks. -/
theorem reads {c : List Char} {ws : List Word} (hrespaced : Respaced layout a b)
    (h : Reads layout.EndsComment c ws) {pad : List Char} (hc : c = pad ++ a) (hpad : pad.all isBlank = true) :
    Reads (fun _ => True) b ws := by
  obtain ⟨hnl, -⟩ := newline_blank hlayout
  have hgap {pad' : List Char} (hpad' : pad'.all isBlank = true) :
      (layout.newline.toList ++ pad').all isBlank = true := by
    rw [List.all_append, hnl, hpad']
    rfl
  induction h generalizing pad a b with
  | done =>
    obtain ⟨-, rfl⟩ := List.append_eq_nil_iff.mp hc.symm
    cases hrespaced
    · exact .done
  | @blank c cs ws hblank _ ih =>
    rcases pad with _ | ⟨d, pad⟩
    · obtain rfl : c :: cs = a := hc
      cases hrespaced with
      | keep _ hrest => exact .blank hblank (@ih _ _ hrest [] rfl rfl)
      | line hpad hpad' hrest =>
        rw [← List.append_assoc]
        exact .blanks (hgap hpad') (ih hrest rfl hpad)
      | brace _ hpad' hrest =>
        rw [← List.append_assoc]
        exact .blanks (hgap hpad') (@ih _ _ hrest [] rfl rfl)
    · obtain ⟨rfl, rfl⟩ := List.cons.inj hc
      rw [List.all_cons, Bool.and_eq_true] at hpad
      exact ih hrespaced rfl hpad.2
  | @piece k w cs ws hw hblank hread hends _ ih =>
    -- the piece starts with no blank, so nothing is left of the last gap
    obtain rfl : pad = [] := by
      obtain ⟨c, w, rfl⟩ := List.exists_cons_of_ne_nil hw
      rcases pad with _ | ⟨d, pad⟩
      · rfl
      · obtain rfl : c = d := (List.cons.inj hc).1
        rw [List.all_cons, hblank _ rfl] at hpad
        cases hpad
    obtain rfl : w ++ cs = a := hc
    obtain ⟨w', hstep⟩ := step hlayout hw hblank hrespaced hread hends
    obtain ⟨pad, pad', a', b', rfl, rfl, hpad, hpad', hrest⟩ := hstep.behind
    have hpiece := Reads.piece hstep.nonempty hstep.starts hstep.reads (fun _ => trivial)
      (.blanks hpad' (ih hrest rfl hpad))
    by_cases hk : k.isTrivia = true
    · simpa [hk] using hpiece
    · simpa [hk, hstep.same (by simpa using hk)] using hpiece

end Respaced

namespace Lexer

/-- A source text that is read without faults has the same words with other blanks, if its comments that
reach to the end of their line end there in the layout, too. -/
theorem tokenize_respaced {layout : Layout} (hlayout : layout.problem? = none) {source source' : String}
    {pad pad' a b : List Char} (hsource : source.toList = pad ++ a) (hsource' : source'.toList = pad' ++ b)
    (hpad : pad.all isBlank = true) (hpad' : pad'.all isBlank = true) (hrespaced : Respaced layout a b)
    {ts : List Token} (h : tokenize source = .ok ts)
    (hcomments : ∀ t, .token t ∈ items source → t.kind = .lineComment → layout.EndsComment t.lexeme.toList) :
    ∃ us, tokenize source' = .ok us ∧ us.map Token.word = ts.map Token.word := by
  obtain ⟨hfaults, rfl⟩ := tokenize_eq_ok.mp h
  have hpasses : ∀ i ∈ items source, i.Passes layout.EndsComment := by
    rintro (t | f) hi
    · exact hcomments t hi
    · have hmem : f ∈ faults source := List.mem_filterMap.mpr ⟨.fault f, hi, rfl⟩
      rw [hfaults] at hmem
      cases hmem
  have hreads := (hrespaced.reads hlayout (reads_of_cut hpasses) hsource hpad).blanks hpad'
  rw [← hsource'] at hreads
  obtain ⟨hfaults', hwords⟩ := hreads.filterMap_cut .start
  refine ⟨_, tokenize_eq_ok.mpr ⟨hfaults', rfl⟩, ?_⟩
  have hend (s : String) : [endToken s].map Token.word = [⟨.endOfInput, ""⟩] := rfl
  rw [List.map_append, List.map_append, hend, hend]
  exact congrArg (· ++ _) hwords

end Lexer

end JavaTree
