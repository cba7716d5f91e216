import JavaTree.Parser.Unit
import JavaTree.Proofs.Parser.Quiet

/-!
The pieces that a source text is cut into.

Whatever the text is, each piece has at least one character and ends where the text ends at the
latest. So what is read from a text is, token by token, what a text can have: `IsSound` holds of all
of them, and of all but those in the place of a fault `IsReadable` does.
-/

namespace JavaTree

open Pattern Literal

/-! ### Widths -/

theorem floatTail_le (x : List Char) : floatTail x ≤ x.length := by
  have hexponent := exponent_le x
  have hone := one_le isPrecisionMark (x.drop (exponent x))
  rw [List.length_drop] at hone
  rw [floatTail]
  omega

theorem found_eq_some {n m : Nat} (h : found n = some m) : m = n ∧ 0 < n := by
  rw [found] at h
  split at h
  · cases h
  · cases h
    exact ⟨rfl, by omega⟩

/-- A shape of which every piece has a character, and lies in the text. -/
def Fits (f : List Char → Option Nat) : Prop := ∀ x n, f x = some n → 0 < n ∧ n ≤ x.length

theorem fits_found {f : List Char → Nat} (hf : ∀ x, f x ≤ x.length) : Fits fun x => found (f x) := by
  intro x n h
  obtain ⟨rfl, hpos⟩ := found_eq_some h
  exact ⟨hpos, hf x⟩

/-- A length that must be found, and more behind it. -/
theorem fits_map {f g : List Char → Nat} (hf : ∀ x, f x ≤ x.length) (hg : ∀ x, g x ≤ x.length) :
    Fits fun x => (found (f x)).map fun n => n + g (x.drop n) := by
  intro x n h
  obtain ⟨m, hm, rfl⟩ := Option.map_eq_some_iff.mp h
  obtain ⟨rfl, hpos⟩ := found_eq_some hm
  have hle := hf x
  have hmore := hg (x.drop (f x))
  rw [List.length_drop] at hmore
  omega

theorem fits_name : Fits name? := by
  intro x n h
  refine ⟨?_, name?_le h⟩
  unfold name? at h
  split at h
  · split at h <;> cases h
    omega
  · cases h

theorem fits_blank : Fits blank? := fits_found (run_le isBlank)

theorem fits_lineComment : Fits lineComment? := by
  intro x n h
  unfold lineComment? at h
  split at h
  · next cs =>
    cases h
    have hrun := run_le (· != '\n') cs
    simp only [List.length_cons]
    omega
  · cases h

theorem commentEnd?_le {x : List Char} {n : Nat} (h : commentEnd? x = some n) : n ≤ x.length := by
  induction x generalizing n with
  | nil => cases h
  | cons c cs ih =>
    rw [commentEnd?] at h
    split at h
    · next hc =>
      cases h
      obtain ⟨d, ds, rfl⟩ : ∃ d ds, cs = d :: ds := by
        rcases cs with _ | ⟨d, ds⟩
        · cases hc.2
        · exact ⟨d, ds, rfl⟩
      simp
    · obtain ⟨m, hm, rfl⟩ := Option.map_eq_some_iff.mp h
      have := ih hm
      simp only [List.length_cons]
      omega

theorem fits_blockComment : Fits blockComment? := by
  intro x n h
  unfold blockComment? at h
  split at h
  · obtain ⟨e, he, rfl⟩ := Option.map_eq_some_iff.mp h
    have hle := commentEnd?_le he
    simp only [List.length_cons]
    omega
  · cases h

theorem prefix_of_mark? {x : List Char} {m : Mark} (h : mark? x = some m) : m.chars <+: x :=
  List.isPrefixOf_iff_prefix.mp (List.find?_eq_some_iff_append.mp h).1

theorem fits_decimal : Fits decimal? := fits_map digits_le (one_le isLongMark)

theorem fits_based (isBase p : Char → Bool) : Fits (based? isBase p) := by
  intro x n h
  unfold based? at h
  split at h
  · next b cs =>
    split at h
    · obtain ⟨m, hm, rfl⟩ := Option.map_eq_some_iff.mp h
      obtain ⟨rfl, -⟩ := found_eq_some hm
      have hrun := run_le p cs
      have hone := one_le isLongMark (cs.drop (run p cs))
      simp only [List.length_cons, List.length_drop] at hone ⊢
      omega
    · cases h
  · cases h

/-- Numbers, from the digits that they start with on. -/
theorem fits_bind_digits {f : List Char → Nat → Option Nat}
    (hf : ∀ x n, f x (digits x) = some n → 0 < n ∧ n ≤ x.length) :
    Fits fun x => (found (digits x)).bind (f x) := by
  intro x n h
  obtain ⟨m, hm, hn⟩ := Option.bind_eq_some_iff.mp h
  obtain ⟨rfl, -⟩ := found_eq_some hm
  exact hf x n hn

theorem fits_pointed : Fits pointed? := by
  refine fits_bind_digits fun x n h => ?_
  split at h
  · next rest hrest =>
    cases h
    have hdigits := digits_le x
    have hlen := congrArg List.length hrest
    have hrun := run_le isDigitOrGap rest
    have htail := floatTail_le (rest.drop (run isDigitOrGap rest))
    simp only [List.length_drop, List.length_cons] at hlen htail
    omega
  · cases h

theorem fits_leadingPoint : Fits leadingPoint? := by
  intro x n h
  unfold leadingPoint? at h
  split at h
  · next rest =>
    obtain ⟨d, hd, rfl⟩ := Option.map_eq_some_iff.mp h
    obtain ⟨rfl, -⟩ := found_eq_some hd
    have hle := digits_le rest
    have htail := floatTail_le (rest.drop (digits rest))
    simp only [List.length_drop, List.length_cons] at htail ⊢
    omega
  · cases h

theorem fits_exponential : Fits exponential? := by
  refine fits_bind_digits fun x n h => ?_
  obtain ⟨e, he, rfl⟩ := Option.map_eq_some_iff.mp h
  obtain ⟨rfl, hpos⟩ := found_eq_some he
  have hdigits := digits_le x
  have hle := exponent_le (x.drop (digits x))
  have hone := one_le isPrecisionMark (x.drop (digits x + exponent (x.drop (digits x))))
  simp only [List.length_drop] at hle hone
  omega

theorem fits_suffixed : Fits suffixed? := by
  refine fits_bind_digits fun x n h => ?_
  obtain ⟨e, he, rfl⟩ := Option.map_eq_some_iff.mp h
  obtain ⟨rfl, hpos⟩ := found_eq_some he
  have hdigits := digits_le x
  have hone := one_le isPrecisionMark (x.drop (digits x))
  simp only [List.length_drop] at hone
  omega

theorem fits_byteOrderMark : Fits byteOrderMark? := fits_found (one_le _)

/-- Every piece that a shape offers has a character, and lies in the text. -/
theorem Pattern.Offered.bounds {x : List Char} {k : Kind} {n : Nat} (h : Offered x n k) :
    0 < n ∧ n ≤ x.length := by
  cases h with
  | name h => exact fits_name x n h
  | blank h => exact fits_blank x n h
  | lineComment h => exact fits_lineComment x n h
  | blockComment h => exact fits_blockComment x n h
  | @mark m h hn =>
    subst hn
    exact ⟨by cases m <;> decide, (prefix_of_mark? h).length_le⟩
  | decimal h => exact fits_decimal x n h
  | hexadecimal h => exact fits_based _ _ x n h
  | binary h => exact fits_based _ _ x n h
  | pointed h => exact fits_pointed x n h
  | leadingPoint h => exact fits_leadingPoint x n h
  | exponential h => exact fits_exponential x n h
  | suffixed h => exact fits_suffixed x n h
  | byteOrderMark h => exact fits_byteOrderMark x n h

theorem scan_le (quote : Char) (x : List Char) : (scan quote x).width ≤ x.length := by
  fun_induction scan quote x <;> simp_all [Scan.after]

namespace Lexer

/-- What is read at the start of a text has a character, and lies in the text. -/
theorem bounds_of_read (c : Char) (cs : List Char) :
    0 < (read (c :: cs)).width ∧ (read (c :: cs)).width ≤ (c :: cs).length := by
  by_cases hquote : c = '"' ∨ c = '\''
  · have hscan (quote : Char) := scan_le quote cs
    rcases hquote with rfl | rfl <;> simp [read, readString, readCharacter, hscan]
  · rw [read_cons (not_or.mp hquote)]
    split
    · simp
    · split
      · next hlongest => exact (offered_of_longest? hlongest).bounds
      · simp

/-- Every token that is read stands in the text, in front of some other text. -/
theorem exists_read_of_mem_cut {x : List Char} {skip : Nat} {u : Cursor} {t : Token}
    (ht : .token t ∈ cut skip u x) : t.lexeme.toList ≠ [] ∧
      ∃ r, read (t.lexeme.toList ++ r) = ⟨.ok t.kind, t.lexeme.toList.length⟩ := by
  induction x generalizing skip u with
  | nil => cases ht
  | cons c cs ih =>
    cases skip with
    | succ n => exact ih ht
    | zero =>
      rcases List.mem_cons.mp ht with heq | ht
      · obtain ⟨hpos, hle⟩ := bounds_of_read c cs
        generalize hread : read (c :: cs) = r at heq hpos hle
        obtain ⟨content | k, n⟩ := r
        · cases heq
        · cases heq
          have hlength : ((c :: cs).take n).length = n := List.length_take_of_le hle
          rw [String.toList_ofList]
          refine ⟨List.ne_nil_of_length_pos (by rw [hlength]; exact hpos), (c :: cs).drop n, ?_⟩
          rw [List.take_append_drop, hread, hlength]
      · exact ih ht

/-- Every token of a text is one that a text can have, or stands in the place of a fault. -/
theorem isSound_of_mem_cut {x : List Char} {skip : Nat} {u : Cursor} {i : Item}
    (hi : i ∈ cut skip u x) {t : Token} (ht : i.token? = some t) : t.IsSound := by
  cases i with
  | fault f =>
    cases ht
    exact .inl rfl
  | token v =>
    obtain ⟨htrivia, rfl⟩ : ¬ v.kind.isTrivia = true ∧ v = t := by simpa [Item.token?] using ht
    obtain ⟨hne, r, hread⟩ := exists_read_of_mem_cut hi
    have hreadable := isReadable_of_read hne hread (by simpa using htrivia) v.location
    rw [String.ofList_toList] at hreadable
    exact .inr hreadable

theorem length_cut_le (skip : Nat) (u : Cursor) (x : List Char) : (cut skip u x).length ≤ x.length := by
  induction x generalizing skip u with
  | nil => exact Nat.zero_le _
  | cons c cs ih =>
    cases skip with
    | zero => exact Nat.succ_le_succ (ih _ _)
    | succ n => exact Nat.le_trans (ih n _) (Nat.le_succ _)

/-- A text whose tokens are all valid has no faults. -/
theorem faults_eq_nil {source : String}
    (h : ∀ t ∈ (items source).filterMap Item.token?, t.kind ≠ .invalid) : faults source = [] := by
  rw [faults, List.filterMap_eq_nil_iff]
  intro i hi
  cases i with
  | token t => rfl
  | fault f => exact absurd rfl (h ⟨.invalid, f.text, f.location⟩ (List.mem_filterMap.mpr ⟨_, hi, rfl⟩))

end Lexer

namespace Parser.Input

/-- What is read from a text is all of its tokens. -/
theorem tokens_ofSource (source : String) :
    (ofSource source).tokens = (Lexer.items source).filterMap Lexer.Item.token? := by
  have hall : ∀ t ∈ (Lexer.items source).filterMap Lexer.Item.token?,
      decide (t.kind ≠ .endOfInput) = true := by
    intro t ht
    obtain ⟨i, hi, hit⟩ := List.mem_filterMap.mp ht
    refine decide_eq_true fun hend => ?_
    rcases Lexer.isSound_of_mem_cut hi hit with hinvalid | hreadable
    · cases hinvalid.symm.trans hend
    · exact hreadable.kind_ne.1 hend
  show (Lexer.recover source).takeWhile _ = _
  rw [Lexer.recover, List.takeWhile_append_of_pos hall,
    List.takeWhile_cons_of_neg (by simp [Lexer.endToken, Token.endAt]), List.append_nil]

/-- A text has at most as many tokens as characters. -/
theorem length_tokens_le (source : String) : (ofSource source).tokens.length ≤ source.toList.length := by
  rw [tokens_ofSource]
  exact Nat.le_trans (List.length_filterMap_le _ _) (Lexer.length_cut_le 0 .start _)

theorem isSound_of_mem_tokens {source : String} {t : Token} (ht : t ∈ (ofSource source).tokens) :
    t.IsSound := by
  rw [tokens_ofSource] at ht
  obtain ⟨i, hi, hit⟩ := List.mem_filterMap.mp ht
  exact Lexer.isSound_of_mem_cut hi hit

/-- A valid token of a text stands in it, in front of some other text. -/
theorem exists_read_of_mem_tokens {source : String} {t : Token} (ht : t ∈ (ofSource source).tokens)
    (hk : t.kind ≠ .invalid) : t.lexeme.toList ≠ [] ∧
      ∃ r, Lexer.read (t.lexeme.toList ++ r) = ⟨.ok t.kind, t.lexeme.toList.length⟩ := by
  rw [tokens_ofSource] at ht
  obtain ⟨i, hi, hit⟩ := List.mem_filterMap.mp ht
  cases i with
  | fault f =>
    cases hit
    exact absurd rfl hk
  | token v =>
    obtain ⟨-, rfl⟩ : ¬ v.kind.isTrivia = true ∧ v = t := by simpa [Lexer.Item.token?] using hit
    exact Lexer.exists_read_of_mem_cut hi

end Parser.Input

end JavaTree
