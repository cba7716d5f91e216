import Mathlib.Data.List.Basic
import JavaTree.Proofs.Token.Pieces

/-!
Numbers in front of other texts.

What stands behind a number goes on with it by a letter, by a digit, or by a point behind plain digits.
A sign and digits would go on with it behind the letter of an exponent only; but the exponent of a
number that is read has digits, so a number ends with such a letter only if that is one of its
hexadecimal digits.

    text:      1e+5     0x1e+5        1.e     5-3
    numbers:   1e+5     0x1e   5      1.      5  3
-/

namespace JavaTree

open Pattern

/-! ### Letters of exponents -/

namespace Pattern

/-- The letters that start an exponent. -/
def IsExponentLetter (c : Char) : Prop := c = 'e' ∨ c = 'E'

/-- A length of pieces that do not end with the letter of an exponent. -/
def Settled (f : List Char → Nat) : Prop :=
  ∀ x, f x = x.length → ∀ c ∈ x.getLast?, ¬ IsExponentLetter c

theorem settled_of_all {p : Char → Bool} (hp : ∀ c, p c = true → ¬ IsExponentLetter c) {x : List Char}
    (hx : x.all p = true) : ∀ c ∈ x.getLast?, ¬ IsExponentLetter c := by
  intro c hc
  exact hp c (List.all_eq_true.mp hx c (List.mem_of_getLast? hc))

theorem settled_run {p : Char → Bool} (hp : ∀ c, p c = true → ¬ IsExponentLetter c) : Settled (run p) := by
  intro x hx
  refine settled_of_all hp (all_of_run (r := []) (Nat.le_of_eq ?_))
  rw [List.append_nil, hx]

theorem settled_one {p : Char → Bool} (hp : ∀ c, p c = true → ¬ IsExponentLetter c) : Settled (one p) := by
  intro x hx
  rcases x with _ | ⟨d, x⟩
  · nofun
  · rw [one] at hx
    split at hx
    · next hd =>
      obtain rfl : x = [] := List.eq_nil_of_length_eq_zero (by simpa using hx.symm)
      exact settled_of_all hp (by simp [hd])
    · cases hx

theorem not_isExponentLetter_of_isDigit {c : Char} (h : isDigit c = true) : ¬ IsExponentLetter c := by
  rintro (rfl | rfl) <;> exact absurd h (by decide)

theorem not_isExponentLetter_of_isDigitOrGap {c : Char} (h : isDigitOrGap c = true) :
    ¬ IsExponentLetter c := by
  rintro (rfl | rfl) <;> exact absurd h (by decide)

theorem settled_digits : Settled digits := by
  intro x hx
  refine settled_of_all (p := isDigitOrGap) (fun _ => not_isExponentLetter_of_isDigitOrGap) ?_
  rcases x with _ | ⟨c, x⟩
  · rfl
  · rw [digits] at hx
    split at hx
    · next hc =>
      have hrun : x.length ≤ run isDigitOrGap (x ++ []) := by
        simp only [List.length_cons] at hx
        rw [List.append_nil]
        omega
      rw [List.all_cons, all_of_run hrun, isDigitOrGap, hc]
      rfl
    · cases hx

theorem settled_long : Settled (one isLongMark) :=
  settled_one fun c hc => by rintro (rfl | rfl) <;> exact absurd hc (by decide)

theorem settled_precision : Settled (one isPrecisionMark) :=
  settled_one fun c hc => by rintro (rfl | rfl) <;> exact absurd hc (by decide)

/-- A piece and another one behind it. -/
theorem Settled.andThen {f g : List Char → Nat} (hf : Settled f) (hg : Settled g) {x : List Char}
    (hx : f x + g (x.drop (f x)) = x.length) : ∀ c ∈ x.getLast?, ¬ IsExponentLetter c := by
  intro c hc
  by_cases hdrop : x.length ≤ f x
  · exact hf x (by omega) c hc
  · refine hg (x.drop (f x)) ?_ c ?_
    · rw [List.length_drop]
      omega
    · rw [List.getLast?_drop, if_neg hdrop]
      exact hc

theorem settled_exponent : Settled exponent := by
  intro x hx c hc
  rcases x with _ | ⟨d, x⟩
  · cases hc
  · simp only [exponent] at hx
    split at hx
    · -- the digits of the exponent come last
      split at hx
      · cases hx
      · next hpower =>
        have hlast : c ∈ (x.drop (one (fun d => d == '+' || d == '-') x)).getLast? := by
          rw [List.getLast?_drop, if_neg]
          · rcases x with _ | ⟨e, x⟩
            · exact absurd rfl hpower
            · rwa [List.getLast?_cons_cons] at hc
          · intro hle
            rw [List.drop_of_length_le hle] at hpower
            exact hpower rfl
        refine settled_run (p := isDigit) (fun _ => not_isExponentLetter_of_isDigit) _ ?_ c hlast
        simp only [List.length_cons] at hx
        rw [List.length_drop]
        omega
    · cases hx

theorem settled_floatTail : Settled floatTail :=
  fun _ hx => settled_exponent.andThen settled_precision hx

/-! ### Shapes of numbers -/

/-- An offer of pieces that do not end with the letter of an exponent. -/
def SettledOffer (f : List Char → Option Nat) : Prop :=
  ∀ x, f x = some x.length → ∀ c ∈ x.getLast?, ¬ IsExponentLetter c

/-- A length that must be found, and more behind it. -/
theorem Settled.map {f g : List Char → Nat} (hf : Settled f) (hg : Settled g) :
    SettledOffer fun cs => (found (f cs)).map fun n => n + g (cs.drop n) := by
  intro x hx
  obtain ⟨n, hn, hlen⟩ := Option.map_eq_some_iff.mp hx
  obtain rfl := (found_eq_some hn).1
  exact hf.andThen hg hlen

theorem Settled.found {f : List Char → Nat} (hf : Settled f) : SettledOffer fun cs => found (f cs) :=
  fun x hx => hf x (found_eq_some hx).1.symm

/-- A piece with some characters in front of it, the last of which starts no exponent either. -/
theorem SettledOffer.behind {g : List Char → Option Nat} (hg : SettledOffer g) (front : List Char)
    {x : List Char} (hfront : ∀ c ∈ front.getLast?, ¬ IsExponentLetter c)
    (h : (g x).map (front.length + ·) = some (front ++ x).length) :
    ∀ c ∈ (front ++ x).getLast?, ¬ IsExponentLetter c := by
  obtain ⟨n, hn, hlen⟩ := Option.map_eq_some_iff.mp h
  rw [List.length_append, Nat.add_left_cancel_iff] at hlen
  rcases x with _ | ⟨a, x⟩
  · rwa [List.append_nil]
  · rw [List.getLast?_append_cons]
    exact hg _ (hlen ▸ hn)

/-- What is offered behind the digits of a number. -/
theorem SettledOffer.bind_digits {g : List Char → Option Nat} (hg : SettledOffer g) :
    SettledOffer fun cs => (Pattern.found (digits cs)).bind fun n => (g (cs.drop n)).map (n + ·) := by
  intro x hx
  obtain ⟨n, hn, hx⟩ := Option.bind_eq_some_iff.mp hx
  obtain rfl := (found_eq_some hn).1
  have hlen : (x.take (digits x)).length = digits x := List.length_take_of_le (digits_le x)
  have hdigits : digits (x.take (digits x)) = (x.take (digits x)).length := by
    rw [isCut_digits _ (x.drop (digits x)) (Nat.le_of_eq (by rw [List.take_append_drop, hlen])),
      List.take_append_drop, hlen]
  have hbehind := hg.behind _ (settled_digits _ hdigits) (x := x.drop (digits x)) (by
    rw [hlen, List.take_append_drop]
    exact hx)
  rwa [List.take_append_drop] at hbehind

theorem settled_decimal : SettledOffer decimal? := settled_digits.map settled_long

theorem settled_behindPoint : SettledOffer behindPoint? := by
  intro x hx
  unfold behindPoint? at hx
  split at hx
  · next rest =>
    have hgaps : Settled (run isDigitOrGap) := settled_run fun _ => not_isExponentLetter_of_isDigitOrGap
    simp only [List.length_cons, Option.some.injEq] at hx
    have hrest := hgaps.andThen settled_floatTail (x := rest) (by omega)
    rcases rest with _ | ⟨a, rest⟩
    · rintro c hc
      cases hc
      rintro (h | h) <;> cases h
    · rwa [List.getLast?_cons_cons]
  · cases hx

theorem settled_pointed : SettledOffer pointed? := by
  intro x hx
  rw [pointed?_eq] at hx
  exact settled_behindPoint.bind_digits x hx

theorem settled_exponential : SettledOffer exponential? := by
  intro x hx
  rw [exponential?_eq] at hx
  exact (settled_exponent.map settled_precision).bind_digits x hx

theorem settled_suffixed : SettledOffer suffixed? := settled_precision.found.bind_digits

theorem settled_leadingPoint : SettledOffer leadingPoint? := by
  intro x hx
  by_cases hpoint : ∃ y, x = '.' :: y
  · obtain ⟨y, rfl⟩ := hpoint
    rw [leadingPoint?_eq] at hx
    refine (settled_digits.map settled_floatTail).behind ['.'] ?_ hx
    rintro c hc
    cases hc
    rintro (h | h) <;> cases h
  · unfold leadingPoint? at hx
    split at hx
    · exact absurd ⟨_, rfl⟩ hpoint
    · cases hx

theorem settled_binary : SettledOffer binary? := by
  intro x hx
  by_cases hzero : ∃ b y, x = '0' :: b :: y
  · obtain ⟨b, y, rfl⟩ := hzero
    rw [binary?, based?_eq] at hx
    split at hx
    · next hb =>
      have hbits : Settled (run isBitOrGap) :=
        settled_run fun c hc => by rintro (rfl | rfl) <;> exact absurd hc (by decide)
      refine (hbits.map settled_long).behind ['0', b] ?_ hx
      rintro c hc
      cases hc
      rintro (rfl | rfl) <;> exact absurd hb (by decide)
    · cases hx
  · unfold binary? based? at hx
    split at hx
    · exact absurd ⟨_, _, rfl⟩ hzero
    · cases hx

/-- A number that ends with the letter of an exponent is hexadecimal. -/
theorem Offered.hexadecimal_of_isExponentLetter {w : List Char} {k : Kind} (hk : k = .integer ∨ k = .float)
    (hoffer : Offered w w.length k) {c : Char} (hc : c ∈ w.getLast?) (he : IsExponentLetter c) :
    ∃ b x, w = '0' :: b :: x ∧ (b = 'x' ∨ b = 'X') := by
  rcases hk with rfl | rfl
  · cases hoffer with
    | name _ hname => exact absurd hname (nameKind_ne_number (.inl rfl) _)
    | decimal h => exact absurd he (settled_decimal w h c hc)
    | hexadecimal h =>
      unfold hexadecimal? based? at h
      split at h
      · next b x =>
        split at h
        · next hb => exact ⟨b, x, rfl, by simpa using hb⟩
        · cases h
      · cases h
    | binary h => exact absurd he (settled_binary w h c hc)
  · cases hoffer with
    | name _ hname => exact absurd hname (nameKind_ne_number (.inr rfl) _)
    | pointed h => exact absurd he (settled_pointed w h c hc)
    | leadingPoint h => exact absurd he (settled_leadingPoint w h c hc)
    | exponential h => exact absurd he (settled_exponential w h c hc)
    | suffixed h => exact absurd he (settled_suffixed w h c hc)

end Pattern

end JavaTree
