import JavaTree.Proofs.Alike
import JavaTree.Proofs.Token.Quoting
import JavaTree.Proofs.Token.Truncation

/-!
Tokens that are written next to each other are read as these tokens again.

A token is written right behind another one only where their two texts do not run together. That is
looked up for the two of them alone; here it is shown that what comes behind the second one does not
change it, but for dots: `..` are two dots, and `...` is an ellipsis.
-/

namespace JavaTree

open Pattern

/-! ### Tokens that are read from their texts -/

/-- How a number starts. -/
def StartsNumber (w : List Char) : Prop :=
  ∃ c x, w = c :: x ∧ (isDigit c = true ∨ (c = '.' ∧ ∃ d y, x = d :: y ∧ isDigit d = true))

/-- A token that a source text can have. -/
inductive Token.IsReadable : Token → Prop
  | name {t : Token} (hname : isName t.lexeme.toList = true) (hk : t.kind = nameKind t.lexeme.toList) :
      IsReadable t
  | number {t : Token} (hk : t.kind = .integer ∨ t.kind = .float)
      (hread : Lexer.read t.lexeme.toList = ⟨.ok t.kind, t.lexeme.toList.length⟩)
      (hstart : StartsNumber t.lexeme.toList) : IsReadable t
  | mark {t : Token} (m : Mark) (hk : t.kind = .mark m) (hlexeme : t.lexeme = String.ofList m.chars) :
      IsReadable t
  | string {t : Token} (v : String) (hk : t.kind = .string v) : IsReadable t
  | character {t : Token} (c : Char) (hk : t.kind = .character c) : IsReadable t

theorem startsNumber_of_digits {w r : List Char} (hw : w ≠ []) (h : digits (w ++ r) ≠ 0) :
    StartsNumber w := by
  obtain ⟨c, x, rfl⟩ := List.exists_cons_of_ne_nil hw
  refine ⟨c, x, rfl, .inl ?_⟩
  rw [List.cons_append, digits] at h
  split at h
  · assumption
  · exact absurd rfl h

theorem found_ne_zero {n m : Nat} (h : found n = some m) : n ≠ 0 := by
  rintro rfl
  cases h

theorem all_of_run {p : Char → Bool} {x r : List Char} (h : x.length ≤ run p (x ++ r)) :
    x.all p = true := by
  induction x with
  | nil => rfl
  | cons c x ih =>
    simp only [run, List.cons_append, List.takeWhile_cons, List.length_cons] at h
    split at h
    · next hc =>
      rw [List.all_cons, hc, Bool.true_and]
      exact ih (Nat.le_of_succ_le_succ h)
    · simp at h

theorem isName_of_name? {w r : List Char} (hw : w ≠ []) (h : name? (w ++ r) = some w.length) :
    isName w = true := by
  obtain ⟨c, x, rfl⟩ := List.exists_cons_of_ne_nil hw
  rw [List.cons_append, name?] at h
  split at h
  · next hc =>
    simp only [Option.some.injEq, List.length_cons] at h
    rw [isName, hc, Bool.true_and]
    exact all_of_run (r := r) (by omega)
  · cases h

theorem chars_of_mark? {w r : List Char} {m : Mark} (h : mark? (w ++ r) = some m)
    (hlen : m.chars.length = w.length) : m.chars = w := by
  have hpre := (List.find?_eq_some_iff_append.mp h).1
  rw [isPrefixOf_append r (Nat.le_of_eq hlen), List.isPrefixOf_iff_prefix] at hpre
  exact hpre.eq_of_length hlen

theorem startsNumber_of_based {isBase p : Char → Bool} {w r : List Char} (hw : w ≠ []) {n : Nat}
    (h : based? isBase p (w ++ r) = some n) : StartsNumber w := by
  obtain ⟨c, x, rfl⟩ := List.exists_cons_of_ne_nil hw
  by_cases hc : c = '0'
  · exact ⟨c, x, rfl, .inl (by rw [hc]; decide)⟩
  · rw [List.cons_append, based?_eq_none hc] at h
    cases h

theorem startsNumber_of_leadingPoint {w r : List Char} (hw : w ≠ [])
    (h : leadingPoint? (w ++ r) = some w.length) : StartsNumber w := by
  obtain ⟨c, x, rfl⟩ := List.exists_cons_of_ne_nil hw
  by_cases hc : c = '.'
  · subst hc
    rw [List.cons_append, leadingPoint?] at h
    obtain ⟨n, hn, hlen⟩ := Option.map_eq_some_iff.mp h
    have hne := found_ne_zero hn
    rw [found, if_neg hne] at hn
    cases hn
    rcases x with _ | ⟨d, y⟩
    · -- the digits behind the point are part of the piece
      simp only [List.length_cons, List.length_nil] at hlen
      omega
    · refine ⟨'.', d :: y, rfl, .inr ⟨rfl, d, y, rfl, ?_⟩⟩
      rw [List.cons_append, digits] at hne
      split at hne
      · assumption
      · exact absurd rfl hne
  · rw [List.cons_append, leadingPoint?_eq_none hc] at h
    cases h

/-- The numbers among the pieces that a shape offers. -/
theorem Pattern.Offered.startsNumber {w r : List Char} (hw : w ≠ []) {k : Kind}
    (hk : k = .integer ∨ k = .float) (h : Offered (w ++ r) w.length k) : StartsNumber w := by
  have hdigits {β : Type} {f : Nat → Option β} {b : β} (hb : (found (digits (w ++ r))).bind f = some b) :
      StartsNumber w := by
    obtain ⟨n, hn, -⟩ := Option.bind_eq_some_iff.mp hb
    exact startsNumber_of_digits hw (found_ne_zero hn)
  rcases hk with rfl | rfl
  · cases h with
    | name _ hname => exact absurd hname (nameKind_ne_number (.inl rfl) _)
    | decimal h =>
      obtain ⟨n, hn, -⟩ := Option.map_eq_some_iff.mp h
      exact startsNumber_of_digits hw (found_ne_zero hn)
    | hexadecimal h => exact startsNumber_of_based hw h
    | binary h => exact startsNumber_of_based hw h
  · cases h with
    | name _ hname => exact absurd hname (nameKind_ne_number (.inr rfl) _)
    | pointed h => exact hdigits h
    | leadingPoint h => exact startsNumber_of_leadingPoint hw h
    | exponential h => exact hdigits h
    | suffixed h => exact hdigits h

/-- A piece that is read at the start of a text is a token that a source text can have. -/
theorem isReadable_of_read {w r : List Char} {k : Kind} (hw : w ≠ [])
    (hread : Lexer.read (w ++ r) = ⟨.ok k, w.length⟩) (htrivia : k.isTrivia = false) (l : Location) :
    Token.IsReadable ⟨k, String.ofList w, l⟩ := by
  obtain ⟨c, x, rfl⟩ := List.exists_cons_of_ne_nil hw
  by_cases hquote : c = '"' ∨ c = '\''
  · rcases hquote with rfl | rfl
    · simp only [List.cons_append, Lexer.read, Lexer.readString] at hread
      simp only [Lexer.Reading.mk.injEq] at hread
      obtain ⟨hkind, -⟩ := hread
      split at hkind <;> cases hkind
      exact .string _ rfl
    · simp only [List.cons_append, Lexer.read, Lexer.readCharacter] at hread
      simp only [Lexer.Reading.mk.injEq] at hread
      obtain ⟨hkind, -⟩ := hread
      split at hkind <;> cases hkind
      exact .character _ rfl
  · rw [not_or] at hquote
    have hcut := Lexer.read_cut hw (fun d hd => by cases hd; exact hquote) hread (Nat.le_refl _)
    have hoffer : Offered (c :: x ++ r) (c :: x).length k := Lexer.offered_of_read hquote hread
    have hnumber (hk : k = .integer ∨ k = .float) : Token.IsReadable ⟨k, String.ofList (c :: x), l⟩ := by
      refine .number hk ?_ ?_
      · rw [String.toList_ofList]
        exact hcut
      · rw [String.toList_ofList]
        exact hoffer.startsNumber hw hk
    cases hoffer with
    | name h hk =>
      refine .name ?_ ?_
      · rw [String.toList_ofList]
        exact isName_of_name? (r := r) hw h
      · rw [String.toList_ofList, hk, List.take_left]
    | mark h hn => exact .mark _ rfl (congrArg String.ofList (chars_of_mark? (r := r) h hn.symm).symm)
    | decimal | hexadecimal | binary => exact hnumber (.inl rfl)
    | pointed | leadingPoint | exponential | suffixed => exact hnumber (.inr rfl)
    | blank | lineComment | blockComment | byteOrderMark => cases htrivia

end JavaTree
