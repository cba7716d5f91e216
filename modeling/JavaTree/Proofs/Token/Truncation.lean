import JavaTree.Proofs.Token.Reading

/-!
A token is read again from its own text.

What a shape offers at the start of a text depends on no more characters than it takes and, if these
are all, on nothing behind them. So a text that was cut off behind a token still starts with that
token.

    text:    0x1F.g()        cut behind the token:    0x1F
    offers:  0x1F, 0                                  0x1F, 0
-/

namespace JavaTree

namespace Pattern

/-- A length that does not change when the text is cut off behind it. -/
def IsCut (f : List Char → Nat) : Prop := ∀ w r, f (w ++ r) ≤ w.length → f w = f (w ++ r)

/-- An offer that does not change when the text is cut off behind it. -/
def IsLocal (f : List Char → Option Nat) : Prop :=
  ∀ w r, (∀ n ∈ f (w ++ r), n ≤ w.length) → f w = f (w ++ r)

/-! ### Lengths -/

theorem isCut_run (p : Char → Bool) : IsCut (run p) := by
  intro w r h
  induction w with
  | nil => exact (Nat.le_zero.mp h).symm
  | cons c w ih =>
    simp only [run, List.cons_append, List.takeWhile_cons, List.length_cons] at h ⊢
    split
    · next hc =>
      rw [if_pos hc, List.length_cons] at h
      exact congrArg (· + 1) (ih (Nat.le_of_succ_le_succ h))
    · rfl

theorem isCut_one (p : Char → Bool) : IsCut (one p) := by
  intro w r h
  cases w with
  | nil => exact (Nat.le_zero.mp h).symm
  | cons c w => rfl

theorem isCut_digits : IsCut digits := by
  intro w r h
  cases w with
  | nil => exact (Nat.le_zero.mp h).symm
  | cons c w =>
    simp only [digits, List.cons_append, List.length_cons] at h ⊢
    split
    · next hc =>
      rw [if_pos hc] at h
      exact congrArg (1 + ·) (isCut_run _ w r (by omega))
    · rfl

/-- One length and, behind it, another one. -/
theorem IsCut.andThen {f g : List Char → Nat} (hf : IsCut f) (hg : IsCut g) {w r : List Char}
    (h : f (w ++ r) + g ((w ++ r).drop (f (w ++ r))) ≤ w.length) :
    f w = f (w ++ r) ∧ g (w.drop (f w)) = g ((w ++ r).drop (f (w ++ r))) := by
  have hfw := hf w r (by omega)
  refine ⟨hfw, ?_⟩
  rw [hfw]
  have hle : f (w ++ r) ≤ w.length := by omega
  rw [List.drop_append_of_le_length hle] at h ⊢
  refine hg _ r ?_
  rw [List.length_drop]
  omega

theorem isCut_exponent : IsCut exponent := by
  intro w r h
  rcases w with _ | ⟨c, _ | ⟨d, w⟩⟩
  · exact (Nat.le_zero.mp h).symm
  · simp only [exponent, List.cons_append, List.nil_append, List.length_cons, List.length_nil] at h ⊢
    split
    · next hc =>
      rw [if_pos hc] at h
      split at h
      · next hpower => rw [if_pos hpower, if_pos (by rfl)]
      · omega
    · rfl
  · have hsign : one (fun d => d == '+' || d == '-') (d :: w ++ r) ≤ 1 := by
      simp only [List.cons_append, one]
      split <;> omega
    simp only [exponent, List.cons_append, List.length_cons] at h hsign ⊢
    split
    · next hc =>
      rw [if_pos hc] at h
      -- a sign without digits behind it still lies within the text
      obtain ⟨h1, h2⟩ := IsCut.andThen (isCut_one fun d => d == '+' || d == '-') (isCut_run isDigit)
        (w := d :: w) (r := r) (by
          simp only [List.cons_append, List.length_cons]
          split at h <;> omega)
      simp only [List.cons_append] at h1 h2
      rw [h2, h1]
    · rfl

theorem IsCut.add {f g : List Char → Nat} (hf : IsCut f) (hg : IsCut g) :
    IsCut fun cs => f cs + g (cs.drop (f cs)) := by
  intro w r h
  obtain ⟨h1, h2⟩ := hf.andThen hg h
  simp only [h2]
  rw [h1]

theorem isCut_floatTail : IsCut floatTail := isCut_exponent.add (isCut_one isPrecisionMark)

/-! ### Offers -/

theorem IsCut.isLocal {f : List Char → Nat} (hf : IsCut f) : IsLocal fun cs => some (f cs) :=
  fun w r h => congrArg some (hf w r (h _ rfl))

theorem isLocal_found {f : List Char → Nat} (hf : IsCut f) : IsLocal fun cs => found (f cs) := by
  intro w r h
  by_cases hzero : f (w ++ r) = 0
  · simp only [hf w r (by omega)]
  · simp only [hf w r (h _ (by simp [found, hzero]))]

/-- An offer with some characters in front of it. -/
theorem IsLocal.cons {g : List Char → Option Nat} (hg : IsLocal g) {w r : List Char} {k : Nat}
    (h : ∀ n ∈ (g (w ++ r)).map (k + ·), n ≤ w.length + k) :
    (g w).map (k + ·) = (g (w ++ r)).map (k + ·) := by
  rw [hg w r]
  intro n hn
  have hle := h _ (Option.mem_map_of_mem _ hn)
  omega

/-- An offer that takes at least so many characters is not made on a shorter text. -/
theorem eq_none_of_lt {f : List Char → Option Nat} {k : Nat} (hf : ∀ cs n, f cs = some n → k ≤ n)
    {w r : List Char} (hw : w.length < k) (h : ∀ n ∈ f (w ++ r), n ≤ w.length) : f (w ++ r) = none := by
  rcases hn : f (w ++ r) with _ | n
  · rfl
  · have hle := h n hn
    have hge := hf _ n hn
    omega

/-- An offer that is settled by the first `k` characters, but for what another offer has behind them. -/
theorem isLocal_of_take {f g : List Char → Option Nat} (k : Nat) (hg : IsLocal g)
    (hshort : ∀ u, u.length < k → f u = none)
    (hlong : ∀ u, u.length = k →
      (∀ cs, f (u ++ cs) = none) ∨ ∀ cs, f (u ++ cs) = (g cs).map (k + ·)) : IsLocal f := by
  have hle (cs : List Char) (n : Nat) (hn : f cs = some n) : k ≤ n := by
    rcases Nat.lt_or_ge cs.length k with hlt | hge
    · rw [hshort cs hlt] at hn
      cases hn
    · rw [← List.take_append_drop k cs] at hn
      rcases hlong (cs.take k) (List.length_take_of_le hge) with hnone | hmap
      · rw [hnone] at hn
        cases hn
      · rw [hmap] at hn
        obtain ⟨m, -, rfl⟩ := Option.map_eq_some_iff.mp hn
        exact Nat.le_add_right k m
  intro w r h
  rcases Nat.lt_or_ge w.length k with hlt | hge
  · rw [hshort w hlt, eq_none_of_lt hle hlt h]
  · obtain ⟨u, x, rfl, hu⟩ : ∃ u x, w = u ++ x ∧ u.length = k :=
      ⟨w.take k, w.drop k, (List.take_append_drop k w).symm, List.length_take_of_le hge⟩
    rw [List.append_assoc] at h ⊢
    rcases hlong u hu with hnone | hmap
    · rw [hnone, hnone]
    · rw [hmap, List.length_append, hu, Nat.add_comm] at h
      rw [hmap, hmap]
      exact hg.cons h

/-! ### Numbers -/

/-- A length that must be found, and more behind it. -/
theorem IsCut.isLocal_map {f g : List Char → Nat} (hf : IsCut f) (hg : IsCut g) :
    IsLocal fun cs => (found (f cs)).map fun n => n + g (cs.drop n) := by
  intro w r h
  by_cases hzero : f (w ++ r) = 0
  · have hw : f w = 0 := (hf w r (by omega)).trans hzero
    simp [hzero, hw, found]
  · simp only [found, if_neg hzero, Option.map_some, Option.mem_def, Option.some.injEq,
      forall_eq'] at h
    obtain ⟨h1, h2⟩ := hf.andThen hg h
    rw [h1] at h2
    simp only [h1, found, if_neg hzero, Option.map_some, h2]

theorem isLocal_decimal : IsLocal decimal? := isCut_digits.isLocal_map (isCut_one isLongMark)

theorem based?_eq (isBase p : Char → Bool) (b : Char) (cs : List Char) :
    based? isBase p ('0' :: b :: cs) = if isBase b then
      ((found (run p cs)).map fun n => n + one isLongMark (cs.drop n)).map (2 + ·) else none := by
  simp only [based?, Option.map_map]
  split
  · refine congrArg (Option.map · _) (funext fun n => ?_)
    simp only [Function.comp_apply]
    omega
  · rfl

theorem isLocal_based (isBase p : Char → Bool) : IsLocal (based? isBase p) := by
  refine isLocal_of_take 2 ((isCut_run p).isLocal_map (isCut_one isLongMark)) (fun u hu => ?_)
    fun u hu => ?_
  · rcases u with _ | ⟨a, _ | ⟨b, u⟩⟩
    · rfl
    · unfold based?
      split <;> simp_all
    · simp only [List.length_cons] at hu
      omega
  · obtain ⟨a, b, rfl⟩ : ∃ a b, u = [a, b] :=
      match u, hu with
      | [a, b], _ => ⟨a, b, rfl⟩
    by_cases ha : a = '0'
    · subst ha
      cases hb : isBase b with
      | true => exact .inr fun cs => by rw [List.cons_append, List.cons_append, based?_eq, if_pos hb]; rfl
      | false =>
        exact .inl fun cs => by
          rw [List.cons_append, List.cons_append, based?_eq, hb]
          rfl
    · exact .inl fun cs => based?_eq_none ha _

theorem leadingPoint?_eq (cs : List Char) : leadingPoint? ('.' :: cs) =
    ((found (digits cs)).map fun n => n + floatTail (cs.drop n)).map (1 + ·) := by
  simp only [leadingPoint?, Option.map_map]
  refine congrArg (Option.map · _) (funext fun n => ?_)
  simp only [Function.comp_apply]
  omega

theorem isLocal_leadingPoint : IsLocal leadingPoint? := by
  refine isLocal_of_take 1 (isCut_digits.isLocal_map isCut_floatTail) (fun u hu => ?_) fun u hu => ?_
  · rw [List.length_eq_zero_iff.mp (Nat.lt_one_iff.mp hu)]
    rfl
  · obtain ⟨c, rfl⟩ := List.length_eq_one_iff.mp hu
    by_cases hc : c = '.'
    · subst hc
      exact .inr leadingPoint?_eq
    · exact .inl (leadingPoint?_eq_none hc)

/-- What is offered behind the digits of a number. -/
theorem bind_digits_cut {g : List Char → Option Nat} (hg : IsLocal g) {w r : List Char}
    (hdigits : digits (w ++ r) ≤ w.length)
    (h : ∀ n ∈ (found (digits (w ++ r))).bind fun n => (g ((w ++ r).drop n)).map (n + ·), n ≤ w.length) :
    ((found (digits w)).bind fun n => (g (w.drop n)).map (n + ·)) =
      (found (digits (w ++ r))).bind fun n => (g ((w ++ r).drop n)).map (n + ·) := by
  rw [isCut_digits w r hdigits]
  by_cases hzero : digits (w ++ r) = 0
  · simp [hzero, found]
  · simp only [found, if_neg hzero, Option.bind_some] at h ⊢
    rw [List.drop_append_of_le_length hdigits] at h ⊢
    rw [hg _ r]
    intro m hm
    have hle := h _ (Option.mem_map_of_mem _ hm)
    rw [List.length_drop]
    omega

/-- What a number may have behind a point. -/
def behindPoint? : List Char → Option Nat
  | '.' :: rest => some (1 + (run isDigitOrGap rest + floatTail (rest.drop (run isDigitOrGap rest))))
  | _ => none

theorem pointed?_eq (cs : List Char) :
    pointed? cs = (found (digits cs)).bind fun n => (behindPoint? (cs.drop n)).map (n + ·) := by
  rw [pointed?]
  refine congrArg (Option.bind _ ·) (funext fun n => ?_)
  by_cases hpoint : ∃ rest, cs.drop n = '.' :: rest
  · obtain ⟨rest, hrest⟩ := hpoint
    simp only [hrest, behindPoint?, Option.map_some]
    congr 1
    omega
  · have hnone : behindPoint? (cs.drop n) = none := by
      unfold behindPoint?
      split
      · next rest heq => exact absurd ⟨rest, heq⟩ hpoint
      · rfl
    rw [hnone]
    split
    · next rest heq => exact absurd ⟨rest, heq⟩ hpoint
    · rfl

theorem behindPoint?_eq_none {c : Char} (h : c ≠ '.') (cs : List Char) :
    behindPoint? (c :: cs) = none := by
  unfold behindPoint?
  split
  · next heq =>
    cases heq
    exact absurd rfl h
  · rfl

theorem isLocal_behindPoint : IsLocal behindPoint? := by
  refine isLocal_of_take 1 ((isCut_run isDigitOrGap).add isCut_floatTail).isLocal (fun u hu => ?_)
    fun u hu => ?_
  · rw [List.length_eq_zero_iff.mp (Nat.lt_one_iff.mp hu)]
    rfl
  · obtain ⟨c, rfl⟩ := List.length_eq_one_iff.mp hu
    by_cases hc : c = '.'
    · subst hc
      exact .inr fun _ => rfl
    · exact .inl (behindPoint?_eq_none hc)

theorem exponential?_eq (cs : List Char) :
    exponential? cs = (found (digits cs)).bind fun n =>
      (((found (exponent (cs.drop n))).map fun e => e + one isPrecisionMark ((cs.drop n).drop e))).map
        (n + ·) := by
  rw [exponential?]
  refine congrArg (Option.bind _ ·) (funext fun n => ?_)
  rw [Option.map_map]
  refine congrArg (Option.map · _) (funext fun e => ?_)
  simp only [Function.comp_apply, List.drop_drop]
  omega

/-! ### Other shapes -/

theorem isLocal_name : IsLocal name? := by
  refine isLocal_of_take 1 (isCut_run isNamePart).isLocal (fun u hu => ?_) fun u hu => ?_
  · rw [List.length_eq_zero_iff.mp (Nat.lt_one_iff.mp hu)]
    rfl
  · obtain ⟨c, rfl⟩ := List.length_eq_one_iff.mp hu
    by_cases hc : isNameStart c = true
    · exact .inr fun _ => if_pos hc
    · exact .inl fun _ => if_neg hc

/-- A comment is settled by its two first characters, but for what is behind them. -/
theorem isLocal_comment {f g : List Char → Option Nat} {a b : Char} (hg : IsLocal g)
    (hopened : ∀ cs, f (a :: b :: cs) = (g cs).map (2 + ·))
    (hother : ∀ cs, ¬ [a, b] <+: cs → f cs = none) : IsLocal f := by
  refine isLocal_of_take 2 hg (fun u hu => hother u fun hpre => ?_) fun u hu => ?_
  · have hle := hpre.length_le
    simp only [List.length_cons, List.length_nil] at hle
    omega
  · by_cases heq : u = [a, b]
    · subst heq
      exact .inr hopened
    · refine .inl fun cs => hother _ fun hpre => heq ?_
      have hstart := List.prefix_of_prefix_length_le hpre (List.prefix_append u cs) (Nat.le_of_eq hu.symm)
      exact (hstart.eq_of_length hu.symm).symm

theorem isLocal_lineComment : IsLocal lineComment? := by
  refine isLocal_comment (a := '/') (b := '/') (isCut_run (· != '\n')).isLocal (fun _ => rfl) fun cs hcs => ?_
  unfold lineComment?
  split
  · next y => exact absurd (List.prefix_append ['/', '/'] y) hcs
  · rfl

theorem isLocal_commentEnd : IsLocal commentEnd? := by
  intro w r h
  have hle (cs : List Char) (n : Nat) (h : commentEnd? cs = some n) : 1 ≤ n := by
    rcases cs with _ | ⟨c, cs⟩
    · cases h
    · rw [commentEnd?] at h
      split at h
      · cases h
        decide
      · obtain ⟨m, -, rfl⟩ := Option.map_eq_some_iff.mp h
        omega
  induction w with
  | nil => exact (eq_none_of_lt hle (by decide) h).symm
  | cons c w ih =>
    rw [List.cons_append, commentEnd?] at h ⊢
    rw [commentEnd?]
    by_cases hend : c = '*' ∧ (w ++ r).head? = some '/'
    · rw [if_pos hend] at h ⊢
      have hbound : 2 ≤ w.length + 1 := h 2 rfl
      rcases w with _ | ⟨d, w⟩
      · simp at hbound
      · exact if_pos hend
    · rw [if_neg hend] at h ⊢
      have hw : ¬ (c = '*' ∧ w.head? = some '/') := by
        rintro ⟨hc, hhead⟩
        refine hend ⟨hc, ?_⟩
        rw [List.head?_append, hhead]
        rfl
      rw [if_neg hw, ih]
      intro n hn
      exact Nat.le_of_succ_le_succ (h _ (Option.mem_map_of_mem _ hn))

theorem isLocal_blockComment : IsLocal blockComment? := by
  refine isLocal_comment isLocal_commentEnd (a := '/') (b := '*') (fun cs => ?_) fun cs hcs => ?_
  · rw [blockComment?]
    exact congrArg (Option.map · _) (funext fun n => Nat.add_comm n 2)
  · unfold blockComment?
    split
    · next y => exact absurd (List.prefix_append ['/', '*'] y) hcs
    · rfl

theorem isPrefixOf_append {l w : List Char} (r : List Char) (hl : l.length ≤ w.length) :
    l.isPrefixOf (w ++ r) = l.isPrefixOf w := by
  induction l generalizing w with
  | nil => simp [List.isPrefixOf]
  | cons d l ih =>
    rcases w with _ | ⟨c, w⟩
    · simp at hl
    · simp only [List.cons_append, List.isPrefixOf, ih (Nat.le_of_succ_le_succ hl)]

theorem mark?_cut {w r : List Char} (h : ∀ m ∈ mark? (w ++ r), m.chars.length ≤ w.length) :
    mark? w = mark? (w ++ r) := by
  have hgrows (m : Mark) (hm : m.chars.isPrefixOf w = true) : m.chars.isPrefixOf (w ++ r) = true := by
    rw [List.isPrefixOf_iff_prefix] at hm ⊢
    exact hm.trans (List.prefix_append w r)
  rcases hm : mark? (w ++ r) with _ | m
  · rw [mark?, List.find?_eq_none] at hm ⊢
    exact fun m hmem hpre => hm m hmem (hgrows m hpre)
  · obtain ⟨hpre, front, back, hall, hfront⟩ := List.find?_eq_some_iff_append.mp hm
    refine List.find?_eq_some_iff_append.mpr ⟨?_, front, back, hall, fun m' hm' => ?_⟩
    · rwa [isPrefixOf_append r (h m hm)] at hpre
    · have hnot := hfront m' hm'
      simp only [Bool.not_eq_true'] at hnot ⊢
      rw [Bool.eq_false_iff] at hnot ⊢
      exact fun hpre' => hnot (hgrows m' hpre')

/-! ### All shapes -/

/-- All shapes offer the same on a text that is cut off behind all their offers. -/
theorem offers_cut {w r : List Char} (h : ∀ {k n}, Offered (w ++ r) n k → n ≤ w.length) :
    offers w = offers (w ++ r) := by
  have hdigits : digits (w ++ r) ≤ w.length := by
    by_cases hzero : digits (w ++ r) = 0
    · omega
    · have hle := h (.decimal (by rw [decimal?, found, if_neg hzero, Option.map_some]))
      omega
  have hname : name? w = name? (w ++ r) := isLocal_name w r fun n hn => h (.name hn rfl)
  have hkind : (name? w).map (fun n => (nameKind (w.take n), n)) =
      (name? (w ++ r)).map fun n => (nameKind ((w ++ r).take n), n) := by
    rw [← hname]
    rcases hn : name? w with _ | n
    · rfl
    · have hle : n ≤ w.length := name?_le hn
      simp only [Option.map_some, List.take_append_of_le_length hle]
  have hblank : blank? w = blank? (w ++ r) :=
    isLocal_found (isCut_run isBlank) w r fun n hn => h (.blank hn)
  have hline : lineComment? w = lineComment? (w ++ r) :=
    isLocal_lineComment w r fun n hn => h (.lineComment hn)
  have hblock : blockComment? w = blockComment? (w ++ r) :=
    isLocal_blockComment w r fun n hn => h (.blockComment hn)
  have hmark : mark? w = mark? (w ++ r) := mark?_cut fun m hm => h (.mark hm rfl)
  have hdecimal : decimal? w = decimal? (w ++ r) := isLocal_decimal w r fun n hn => h (.decimal hn)
  have hhexadecimal : hexadecimal? w = hexadecimal? (w ++ r) :=
    isLocal_based _ _ w r fun n hn => h (.hexadecimal hn)
  have hbinary : binary? w = binary? (w ++ r) := isLocal_based _ _ w r fun n hn => h (.binary hn)
  have hpointed : pointed? w = pointed? (w ++ r) := by
    have hle : ∀ n ∈ pointed? (w ++ r), n ≤ w.length := fun n hn => h (.pointed hn)
    rw [pointed?_eq] at hle
    rw [pointed?_eq, pointed?_eq]
    exact bind_digits_cut isLocal_behindPoint hdigits hle
  have hleading : leadingPoint? w = leadingPoint? (w ++ r) :=
    isLocal_leadingPoint w r fun n hn => h (.leadingPoint hn)
  have hexponential : exponential? w = exponential? (w ++ r) := by
    have hle : ∀ n ∈ exponential? (w ++ r), n ≤ w.length := fun n hn => h (.exponential hn)
    rw [exponential?_eq] at hle
    rw [exponential?_eq, exponential?_eq]
    exact bind_digits_cut (isCut_exponent.isLocal_map (isCut_one isPrecisionMark)) hdigits hle
  have hsuffixed : suffixed? w = suffixed? (w ++ r) :=
    bind_digits_cut (isLocal_found (isCut_one isPrecisionMark)) hdigits fun n hn => h (.suffixed hn)
  have horder : byteOrderMark? w = byteOrderMark? (w ++ r) :=
    isLocal_found (isCut_one _) w r fun n hn => h (.byteOrderMark hn)
  rw [offers, offers, hkind, hblank, hline, hblock, hmark, hdecimal, hhexadecimal, hbinary, hpointed,
    hleading, hexponential, hsuffixed, horder]

/-- Whatever is offered, the longest offer is at least as long. -/
theorem Offered.exists_longest? {cs : List Char} {k : Kind} {n : Nat} (h : Offered cs n k) :
    ∃ p, longest? cs = some p ∧ n ≤ p.2 :=
  exists_foldl_longer (o := none) (.inl (offered_iff.mp h))

theorem Offered.le_longest? {cs : List Char} {k : Kind} {n : Nat} (h : Offered cs n k) {p : Kind × Nat}
    (hp : longest? cs = some p) : n ≤ p.2 := by
  obtain ⟨q, hq, hle⟩ := h.exists_longest?
  rw [hp] at hq
  cases hq
  exact hle

end Pattern

namespace Lexer

open Pattern

/-- What is read at the start of a text and is no quoted literal is read there, too, when the text is cut
off behind it. -/
theorem read_cut {w r : List Char} {k : Kind} {n : Nat} (hw : w ≠ [])
    (hquote : ∀ c ∈ w.head?, c ≠ '"' ∧ c ≠ '\'') (h : read (w ++ r) = ⟨.ok k, n⟩) (hn : n ≤ w.length) :
    read w = ⟨.ok k, n⟩ := by
  obtain ⟨c, x, rfl⟩ := List.exists_cons_of_ne_nil hw
  have hc := hquote c rfl
  rw [List.cons_append, read_cons hc] at h
  rw [read_cons hc]
  split at h
  · cases h
  · next hcomment =>
    rcases hlongest : longest? (c :: (x ++ r)) with _ | ⟨k', n'⟩
    · rw [hlongest] at h
      cases h
    · rw [hlongest] at h
      obtain ⟨rfl, rfl⟩ : k' = k ∧ n' = n := by simpa using h
      have hle {k : Kind} {m : Nat} (hoffer : Offered (c :: x ++ r) m k) : m ≤ (c :: x).length :=
        Nat.le_trans (hoffer.le_longest? hlongest) hn
      have hsame : longest? (c :: x) = some (k', n') := by
        rw [longest?, offers_cut hle]
        exact hlongest
      have hblock : blockComment? (c :: x) = blockComment? (c :: x ++ r) :=
        isLocal_blockComment _ r fun m hm => hle (.blockComment (Option.mem_def.mp hm))
      have hends : ¬ opensEndlessComment (c :: x) = true := by
        intro hends
        obtain ⟨⟨y, hy⟩, hnone⟩ := opensEndlessComment_iff_blockComment?.mp hends
        cases hy
        exact hcomment (opensEndlessComment_iff_blockComment?.mpr ⟨⟨_, rfl⟩, hblock ▸ hnone⟩)
      rw [if_neg hends, hsame]

end Lexer

end JavaTree
