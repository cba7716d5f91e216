import Mathlib.Computability.Language
import Mathlib.Data.List.TakeWhile
import JavaTree.Proofs.Token.Pieces

/-!
The shapes of tokens as sets of texts.

A shape is a language, put together from classes of characters by sequence, choice and repetition.
The functions that measure how far a shape reaches find the longest piece at the start of a text
that is in the language. For a class this is plain. For a sequence the first part is measured alone
and the second one behind it, and this is the longest whole as long as no text of the second part
starts with a character that may go on with the first.

    shape:    number '.' gaps? exponent? precision?
    text:     1_000.e5          the longest piece:   1_000.e5
              1_000.ex                               1_000.
-/

open Computability

namespace JavaTree.Pattern

/-! ### Languages -/

/-- The texts of one character of a class. -/
def ofClass (p : Char → Bool) : Language Char := {u | ∃ c, p c = true ∧ u = [c]}

/-- A single text. -/
def word (w : List Char) : Language Char := {w}

/-- The texts of a language, and the empty text. -/
def optional (L : Language Char) : Language Char := 1 + L

/-- One text of a language or more of them. -/
def oneOrMore (L : Language Char) : Language Char := L * L∗

variable {L M : Language Char} {f g : List Char → Option Nat} {p q : Char → Bool} {u x : List Char}

theorem mem_word {w : List Char} : u ∈ word w ↔ u = w := Iff.rfl

theorem mem_kstar_ofClass : u ∈ (ofClass p)∗ ↔ ∀ c ∈ u, p c = true := by
  constructor
  · intro hu c hc
    obtain ⟨ws, rfl, hws⟩ := Language.mem_kstar.mp hu
    obtain ⟨w, hw, hcw⟩ := List.mem_flatten.mp hc
    obtain ⟨d, hd, rfl⟩ := hws w hw
    rw [List.mem_singleton.mp hcw]
    exact hd
  · intro hall
    refine Language.mem_kstar.mpr ⟨u.map ([·]), by rw [← List.flatMap_def, List.flatMap_singleton'], ?_⟩
    intro w hw
    obtain ⟨c, hc, rfl⟩ := List.mem_map.mp hw
    exact ⟨c, hall c hc, rfl⟩

theorem mem_oneOrMore_ofClass : u ∈ oneOrMore (ofClass p) ↔ u ≠ [] ∧ ∀ c ∈ u, p c = true := by
  rw [oneOrMore, Language.mem_mul]
  constructor
  · rintro ⟨_, ⟨c, hc, rfl⟩, w, hw, rfl⟩
    simpa [hc] using mem_kstar_ofClass.mp hw
  · rintro ⟨hne, hall⟩
    obtain ⟨c, w, rfl⟩ := List.exists_cons_of_ne_nil hne
    refine ⟨[c], ⟨c, hall c List.mem_cons_self, rfl⟩, w, ?_, rfl⟩
    exact mem_kstar_ofClass.mpr fun d hd => hall d (List.mem_cons_of_mem _ hd)

/-! ### The longest piece -/

/-- What a function offers at the start of a text is the longest piece there that is in a language. -/
structure Finds (L : Language Char) (f : List Char → Option Nat) : Prop where
  mem : ∀ {x n}, f x = some n → n ≤ x.length ∧ x.take n ∈ L
  max : ∀ {u} r, u ∈ L → ∃ n, f (u ++ r) = some n ∧ u.length ≤ n

theorem Finds.congr (h : Finds L f) (hfg : ∀ x, f x = g x) : Finds L g := by
  rwa [← funext hfg]

theorem take_run (p : Char → Bool) (x : List Char) : x.take (run p x) = x.takeWhile p :=
  (List.prefix_iff_eq_take.mp (List.takeWhile_prefix p)).symm

theorem length_le_run (hu : ∀ c ∈ u, p c = true) (r : List Char) : u.length ≤ run p (u ++ r) := by
  rw [run, List.takeWhile_append_of_pos hu, List.length_append]
  exact Nat.le_add_right _ _

theorem found_of_pos {n : Nat} (hn : 0 < n) : found n = some n := if_neg (Nat.ne_of_gt hn)

theorem finds_run : Finds (ofClass p)∗ fun x => some (run p x) where
  mem := by
    rintro x n ⟨⟩
    rw [take_run]
    exact ⟨run_le p x, mem_kstar_ofClass.mpr fun c hc => List.mem_takeWhile_imp hc⟩
  max r hu := ⟨_, rfl, length_le_run (mem_kstar_ofClass.mp hu) r⟩

theorem finds_runs : Finds (oneOrMore (ofClass p)) fun x => found (run p x) where
  mem := by
    intro x n hn
    obtain ⟨rfl, hpos⟩ := found_eq_some hn
    refine ⟨run_le p x, mem_oneOrMore_ofClass.mpr ⟨?_, ?_⟩⟩
    · rw [take_run]
      exact List.ne_nil_of_length_pos hpos
    · rw [take_run]
      exact fun c => List.mem_takeWhile_imp
  max {u} r hu := by
    obtain ⟨hne, hall⟩ := mem_oneOrMore_ofClass.mp hu
    have hle := length_le_run hall r
    exact ⟨_, found_of_pos (Nat.lt_of_lt_of_le (List.length_pos_of_ne_nil hne) hle), hle⟩

theorem finds_one : Finds (ofClass p) fun x => found (one p x) where
  mem := by
    intro x n hn
    obtain ⟨rfl, hpos⟩ := found_eq_some hn
    rcases x with _ | ⟨c, x⟩
    · exact absurd hpos (Nat.lt_irrefl 0)
    · by_cases hc : p c = true
      · simp only [one, hc, if_true]
        exact ⟨by simp, c, hc, rfl⟩
      · simp [one, hc] at hpos
  max := by
    rintro _ r ⟨c, hc, rfl⟩
    exact ⟨1, by simp [one, hc, found], Nat.le_refl 1⟩

/-- The length of a text if it stands at the start of another one. -/
def word? (w x : List Char) : Option Nat := if w.isPrefixOf x then some w.length else none

theorem word?_append (w x : List Char) : word? w (w ++ x) = some w.length :=
  if_pos (List.isPrefixOf_iff_prefix.mpr (List.prefix_append w x))

theorem word?_eq_none {w x : List Char} (h : ¬ w <+: x) : word? w x = none := by
  rw [word?, if_neg]
  rwa [List.isPrefixOf_iff_prefix]

theorem finds_word (w : List Char) : Finds (word w) (word? w) where
  mem := by
    intro x n hn
    rw [word?] at hn
    split at hn
    · next hpre =>
      cases hn
      rw [List.isPrefixOf_iff_prefix] at hpre
      exact ⟨hpre.length_le, (List.prefix_iff_eq_take.mp hpre).symm⟩
    · cases hn
  max := by
    rintro _ r rfl
    exact ⟨_, word?_append _ r, Nat.le_refl _⟩

theorem Finds.optional (h : Finds L f) : Finds (optional L) fun x => some ((f x).getD 0) where
  mem := by
    rintro x n ⟨⟩
    cases hf : f x with
    | none => exact ⟨Nat.zero_le _, .inl rfl⟩
    | some n => exact ⟨(h.mem hf).1, .inr (h.mem hf).2⟩
  max := by
    rintro u r (rfl | hu)
    · exact ⟨_, rfl, Nat.zero_le _⟩
    · obtain ⟨n, hn, hle⟩ := h.max r hu
      exact ⟨n, by rw [hn]; rfl, hle⟩

theorem finds_optional_of_found {f : List Char → Nat} (h : Finds L fun x => found (f x)) :
    Finds (Pattern.optional L) fun x => some (f x) := by
  refine h.optional.congr fun x => ?_
  rw [found]
  split
  · next hzero => rw [hzero]; rfl
  · rfl

/-! ### Sequences -/

/-- One offer and, behind it, another one. -/
def andThen (f g : List Char → Option Nat) (x : List Char) : Option Nat :=
  (f x).bind fun n => (g (x.drop n)).map (n + ·)

theorem andThen_some (f : List Char → Option Nat) (g : List Char → Nat) (x : List Char) :
    andThen f (fun y => some (g y)) x = (f x).map fun n => n + g (x.drop n) := by
  rw [andThen]
  cases f x <;> rfl

theorem andThen_word (w x : List Char) (g : List Char → Option Nat) :
    andThen (word? w) g (w ++ x) = (g x).map (w.length + ·) := by
  rw [andThen, word?_append, Option.bind_some, List.drop_left]

theorem andThen_word_eq_none {w x : List Char} (h : ¬ w <+: x) (g : List Char → Option Nat) :
    andThen (word? w) g x = none := by
  rw [andThen, word?_eq_none h, Option.bind_none]

theorem andThen_one {c : Char} (x : List Char) (g : List Char → Option Nat) :
    andThen (fun y => found (one p y)) g (c :: x) = if p c then (g x).map (1 + ·) else none := by
  by_cases hc : p c = true
  · rw [if_pos hc, andThen, one, if_pos hc]
    rfl
  · rw [if_neg hc, andThen, one, if_neg hc]
    rfl

/-- Where the first part could go on, the second part cannot start. -/
def Apart (L M : Language Char) : Prop :=
  ∀ u t v, u ∈ L → u ++ t ∈ L → v ∈ M → t = [] ∨ v = [] ∨ t.head? ≠ v.head?

theorem Finds.andThen (hL : Finds L f) (hM : Finds M g) (hLM : Apart L M) :
    Finds (L * M) (andThen f g) where
  mem := by
    intro x k hk
    obtain ⟨n, hn, hrest⟩ := Option.bind_eq_some_iff.mp hk
    obtain ⟨m, hm, rfl⟩ := Option.map_eq_some_iff.mp hrest
    obtain ⟨hnx, hnL⟩ := hL.mem hn
    obtain ⟨hmx, hmM⟩ := hM.mem hm
    rw [List.length_drop] at hmx
    refine ⟨by omega, ?_⟩
    rw [List.take_add]
    exact Language.append_mem_mul hnL hmM
  max := by
    intro w r hw
    obtain ⟨u, hu, v, hv, rfl⟩ := Language.mem_mul.mp hw
    obtain ⟨n, hn, hle⟩ := hL.max (v ++ r) hu
    obtain ⟨hlength, htake⟩ := hL.mem hn
    -- the first part is found with some `t` behind `u`
    obtain ⟨k, rfl⟩ := Nat.exists_eq_add_of_le hle
    have ht : (u ++ (v ++ r)).take (u.length + k) = u ++ (v ++ r).take k := List.take_length_add_append k
    rw [ht] at htake
    have hdrop : (u ++ (v ++ r)).drop (u.length + k) = (v ++ r).drop k := List.drop_length_add_append k
    have hfound {m : Nat} (hm : g ((v ++ r).drop k) = some m) (hlong : v.length ≤ k + m) :
        ∃ n, Pattern.andThen f g (u ++ v ++ r) = some n ∧ (u ++ v).length ≤ n := by
      refine ⟨u.length + k + m, ?_, ?_⟩
      · rw [List.append_assoc, Pattern.andThen, hn, Option.bind_some, hdrop, hm]
        rfl
      · rw [List.length_append]
        omega
    rcases hLM u _ v hu htake hv with hnil | rfl | hhead
    · have hk : k = 0 := by
        have := congrArg List.length hnil
        simp only [List.length_append, List.length_take, List.length_nil] at this hlength
        omega
      subst hk
      obtain ⟨m, hm, hmle⟩ := hM.max r hv
      exact hfound hm (by omega)
    · obtain ⟨m, hm, -⟩ := hM.max (([] ++ r).drop k) hv
      exact hfound hm (Nat.zero_le _)
    · by_cases hv0 : v = []
      · subst hv0
        obtain ⟨m, hm, -⟩ := hM.max (([] ++ r).drop k) hv
        exact hfound hm (Nat.zero_le _)
      · obtain ⟨c, v, rfl⟩ := List.exists_cons_of_ne_nil hv0
        have hk : k = 0 := by
          cases k with
          | zero => rfl
          | succ k => exact absurd rfl hhead
        subst hk
        obtain ⟨m, hm, hmle⟩ := hM.max r hv
        exact hfound hm (by omega)

/-- All characters of a language are in a class. -/
def Within (L : Language Char) (p : Char → Bool) : Prop := ∀ u ∈ L, ∀ c ∈ u, p c = true

/-- The first characters of a language are in a class. -/
def Starts (L : Language Char) (p : Char → Bool) : Prop := ∀ u ∈ L, ∀ c ∈ u.head?, p c = true

theorem apart_of_length {n : Nat} (h : ∀ u ∈ L, u.length = n) : Apart L M := by
  intro u t v hu hut _
  have hlength := h _ hut
  rw [List.length_append, h u hu] at hlength
  exact .inl (List.eq_nil_of_length_eq_zero (by omega))

theorem apart_ofClass : Apart (ofClass p) M := by
  refine apart_of_length (n := 1) ?_
  rintro _ ⟨c, -, rfl⟩
  rfl

theorem apart_word {w : List Char} : Apart (word w) M := by
  refine apart_of_length (n := w.length) ?_
  rintro _ rfl
  rfl

theorem apart_of_starts (hL : Within L p) (hM : Starts M q) (hpq : ∀ c, q c = true → p c = false) :
    Apart L M := by
  intro u t v _ hut hv
  rcases t with _ | ⟨c, t⟩
  · exact .inl rfl
  · refine .inr (.inr fun hhead => ?_)
    have hc := hL _ hut c (by simp)
    rw [hpq c (hM v hv c hhead.symm)] at hc
    cases hc

theorem within_ofClass : Within (ofClass p) p := by
  rintro _ ⟨c, hc, rfl⟩ d hd
  rw [List.mem_singleton.mp hd]
  exact hc

theorem within_kstar : Within (ofClass p)∗ p := fun _ hu => mem_kstar_ofClass.mp hu

theorem within_runs : Within (oneOrMore (ofClass p)) p := fun _ hu => (mem_oneOrMore_ofClass.mp hu).2

theorem Within.mono (h : Within L p) (hpq : ∀ c, p c = true → q c = true) : Within L q :=
  fun u hu c hc => hpq c (h u hu c hc)

theorem Within.optional (h : Within L p) : Within (optional L) p := by
  rintro u (rfl | hu)
  · nofun
  · exact h u hu

theorem Within.mul (hL : Within L p) (hM : Within M p) : Within (L * M) p := by
  intro w hw c hc
  obtain ⟨u, hu, v, hv, rfl⟩ := Language.mem_mul.mp hw
  rcases List.mem_append.mp hc with hc | hc
  · exact hL u hu c hc
  · exact hM v hv c hc

theorem Within.starts (h : Within L p) : Starts L p := fun u hu c hc => h u hu c (List.mem_of_mem_head? hc)

theorem starts_word {c : Char} {w : List Char} : Starts (word (c :: w)) (· == c) := by
  rintro _ rfl d hd
  cases hd
  exact beq_self_eq_true c

theorem Starts.mono (h : Starts L p) (hpq : ∀ c, p c = true → q c = true) : Starts L q :=
  fun u hu c hc => hpq c (h u hu c hc)

theorem Starts.optional (h : Starts L p) : Starts (optional L) p := by
  rintro u (rfl | hu)
  · nofun
  · exact h u hu

/-- A sequence starts as its first part does, if that is not empty. -/
theorem Starts.mul_left (h : Starts L p) (hL : [] ∉ L) : Starts (L * M) p := by
  intro w hw c hc
  obtain ⟨u, hu, v, -, rfl⟩ := Language.mem_mul.mp hw
  obtain ⟨d, u, rfl⟩ := List.exists_cons_of_ne_nil (fun h0 => hL (h0 ▸ hu))
  exact h _ hu c hc

theorem Starts.mul (hL : Starts L p) (hM : Starts M p) : Starts (L * M) p := by
  intro w hw c hc
  obtain ⟨u, hu, v, hv, rfl⟩ := Language.mem_mul.mp hw
  rw [List.head?_append] at hc
  cases hhead : u.head? with
  | none =>
    rw [hhead] at hc
    exact hM v hv c hc
  | some d =>
    rw [hhead] at hc
    exact hL u hu c (hhead.trans hc)

theorem nil_notMem_ofClass : [] ∉ ofClass p := by
  rintro ⟨c, -, h⟩
  cases h

theorem nil_notMem_mul (h : [] ∉ L) : [] ∉ L * M := by
  rintro ⟨u, hu, v, -, huv⟩
  obtain ⟨rfl, -⟩ := List.append_eq_nil_iff.mp huv
  exact h hu

/-! ### The parts of numbers -/

/-- The letters that start an exponent. -/
def isExponentMark (c : Char) : Bool := c == 'e' || c == 'E'

/-- The signs of an exponent. -/
def isSign (c : Char) : Bool := c == '+' || c == '-'

/-- Digits with gaps between them, a digit first. -/
def numberShape : Language Char := ofClass isDigit * (ofClass isDigitOrGap)∗

/-- Exponents with at least one digit. -/
def exponentShape : Language Char :=
  ofClass isExponentMark * (optional (ofClass isSign) * oneOrMore (ofClass isDigit))

/-- An exponent and a precision mark behind it, either of which may be left out. -/
def tailShape : Language Char := optional exponentShape * optional (ofClass isPrecisionMark)

theorem isDigitOrGap_of_isDigit {c : Char} (h : isDigit c = true) : isDigitOrGap c = true := by
  simp [isDigitOrGap, h]

theorem within_number : Within numberShape isDigitOrGap :=
  (within_ofClass.mono fun _ => isDigitOrGap_of_isDigit).mul within_kstar

theorem apart_number (hM : Starts M q) (hq : ∀ c, q c = true → isDigitOrGap c = false) :
    Apart numberShape M :=
  apart_of_starts within_number hM hq

theorem isDigitOrGap_of_isLongMark {c : Char} (h : isLongMark c = true) : isDigitOrGap c = false := by
  simp only [isLongMark, Bool.or_eq_true, beq_iff_eq] at h
  rcases h with rfl | rfl <;> decide

theorem isDigitOrGap_of_isPrecisionMark {c : Char} (h : isPrecisionMark c = true) :
    isDigitOrGap c = false := by
  simp only [isPrecisionMark, Bool.or_eq_true, beq_iff_eq] at h
  rcases h with ((rfl | rfl) | rfl) | rfl <;> decide

theorem isDigitOrGap_of_isExponentMark {c : Char} (h : isExponentMark c = true) :
    isDigitOrGap c = false := by
  simp only [isExponentMark, Bool.or_eq_true, beq_iff_eq] at h
  rcases h with rfl | rfl <;> decide

theorem starts_exponent : Starts exponentShape isExponentMark :=
  within_ofClass.starts.mul_left nil_notMem_ofClass

/-- The letters behind the digits of a number that is no whole number. -/
def isTailMark (c : Char) : Bool := isExponentMark c || isPrecisionMark c

theorem isDigitOrGap_of_isTailMark {c : Char} (h : isTailMark c = true) : isDigitOrGap c = false := by
  rcases Bool.or_eq_true_iff.mp h with h | h
  · exact isDigitOrGap_of_isExponentMark h
  · exact isDigitOrGap_of_isPrecisionMark h

theorem starts_tail : Starts tailShape isTailMark := by
  refine .mul (.optional ?_) (.optional ?_)
  · exact starts_exponent.mono fun c hc => by simp [isTailMark, hc]
  · exact within_ofClass.starts.mono fun c hc => by simp [isTailMark, hc]

theorem finds_number : Finds numberShape fun x => found (digits x) := by
  refine (finds_one.andThen finds_run apart_ofClass).congr fun x => ?_
  rcases x with _ | ⟨c, x⟩
  · rfl
  · rw [andThen_one, digits]
    split
    · exact (found_of_pos (Nat.add_pos_left Nat.one_pos _)).symm
    · rfl

/-- The characters of an exponent. -/
def isExponentPart (c : Char) : Bool := isExponentMark c || isSign c || isDigit c

theorem within_exponent : Within exponentShape isExponentPart := by
  refine .mul (within_ofClass.mono ?_) (.mul (within_ofClass.optional.mono ?_) (within_runs.mono ?_)) <;>
    intro c hc <;> simp [isExponentPart, hc]

theorem isExponentPart_of_isPrecisionMark {c : Char} (h : isPrecisionMark c = true) :
    isExponentPart c = false := by
  simp only [isPrecisionMark, Bool.or_eq_true, beq_iff_eq] at h
  rcases h with ((rfl | rfl) | rfl) | rfl <;> decide

theorem exponent_cons (c : Char) (x : List Char) :
    exponent (c :: x) = if isExponentMark c then
      if run isDigit (x.drop (one isSign x)) = 0 then 0
      else 1 + one isSign x + run isDigit (x.drop (one isSign x))
    else 0 := rfl

theorem finds_exponent : Finds exponentShape fun x => found (exponent x) := by
  have hsign : Apart (optional (ofClass isSign)) (oneOrMore (ofClass isDigit)) := by
    refine apart_of_starts within_ofClass.optional within_runs.starts fun c hc => ?_
    by_contra hsign
    simp only [isSign, Bool.not_eq_false, Bool.or_eq_true, beq_iff_eq] at hsign
    rcases hsign with rfl | rfl <;> revert hc <;> decide
  have hpower := (finds_optional_of_found finds_one).andThen finds_runs hsign
  refine (finds_one.andThen hpower apart_ofClass).congr fun x => ?_
  rcases x with _ | ⟨c, x⟩
  · rfl
  · rw [andThen_one, exponent_cons]
    split
    · rw [andThen, Option.bind_some]
      split
      · next hzero => rw [hzero]; rfl
      · next hzero =>
        rw [found_of_pos (Nat.pos_of_ne_zero hzero), found_of_pos (by omega), Nat.add_assoc]
        rfl
    · rfl

theorem finds_tail : Finds tailShape fun x => some (floatTail x) :=
  (finds_optional_of_found finds_exponent).andThen (finds_optional_of_found finds_one) <|
    apart_of_starts within_exponent.optional within_ofClass.starts.optional
      fun _ => isExponentPart_of_isPrecisionMark

/-! ### The shapes of the table -/

/-- Decimal and octal integers. -/
def decimalShape : Language Char := numberShape * optional (ofClass isLongMark)

/-- Integers with a base letter after a zero. -/
def basedShape (isBase isDigitOfBase : Char → Bool) : Language Char :=
  word ['0'] * (ofClass isBase * (oneOrMore (ofClass isDigitOfBase) * optional (ofClass isLongMark)))

/-- Numbers with digits before a point. -/
def pointedShape : Language Char := numberShape * (word ['.'] * ((ofClass isDigitOrGap)∗ * tailShape))

/-- Numbers that start with a point. -/
def leadingPointShape : Language Char := word ['.'] * (numberShape * tailShape)

/-- Numbers without a point and with an exponent. -/
def exponentialShape : Language Char :=
  numberShape * (exponentShape * optional (ofClass isPrecisionMark))

/-- Numbers without a point and exponent, and with a precision mark. -/
def suffixedShape : Language Char := numberShape * ofClass isPrecisionMark

/-- Names, reserved words among them. -/
def nameShape : Language Char := ofClass isNameStart * (ofClass isNamePart)∗

/-- Comments that reach to the end of their line. -/
def lineCommentShape : Language Char := word ['/', '/'] * (ofClass (· != '\n'))∗

theorem finds_decimal : Finds decimalShape decimal? := by
  refine (finds_number.andThen (finds_optional_of_found finds_one) ?_).congr fun x => ?_
  · exact apart_number within_ofClass.starts.optional fun c => isDigitOrGap_of_isLongMark
  · rw [andThen_some, decimal?]

theorem not_prefix_cons {c d : Char} (h : d ≠ c) (x : List Char) : ¬ [c] <+: d :: x := by
  rw [List.cons_prefix_cons]
  rintro ⟨rfl, -⟩
  exact h rfl

theorem finds_based (isBase p : Char → Bool) (h : ∀ c, isLongMark c = true → p c = false) :
    Finds (basedShape isBase p) (based? isBase p) := by
  have hdigits : Apart (oneOrMore (ofClass p)) (optional (ofClass isLongMark)) :=
    apart_of_starts within_runs within_ofClass.starts.optional h
  have hrest := finds_runs.andThen (finds_optional_of_found finds_one) hdigits
  refine ((finds_word ['0']).andThen (finds_one.andThen hrest apart_ofClass) apart_word).congr fun x => ?_
  rcases x with _ | ⟨a, x⟩
  · rfl
  · by_cases ha : a = '0'
    · subst ha
      refine (andThen_word ['0'] x _).trans ?_
      rcases x with _ | ⟨b, x⟩
      · rfl
      · rw [andThen_one, based?_eq, andThen_some]
        split
        · rw [Option.map_map]
          refine congrArg (Option.map · _) (funext fun n => ?_)
          show 1 + (1 + n) = 2 + n
          omega
        · rfl
    · rw [andThen_word_eq_none (not_prefix_cons ha x), based?_eq_none ha]

theorem finds_behindPoint :
    Finds (word ['.'] * ((ofClass isDigitOrGap)∗ * tailShape)) behindPoint? := by
  have hgaps : Apart (ofClass isDigitOrGap)∗ tailShape :=
    apart_of_starts within_kstar starts_tail fun c => isDigitOrGap_of_isTailMark
  refine ((finds_word ['.']).andThen (finds_run.andThen finds_tail hgaps) apart_word).congr fun x => ?_
  rcases x with _ | ⟨c, x⟩
  · rfl
  · by_cases hc : c = '.'
    · subst hc
      exact andThen_word ['.'] x _
    · rw [andThen_word_eq_none (not_prefix_cons hc x), behindPoint?_eq_none hc]

theorem finds_pointed : Finds pointedShape pointed? := by
  refine (finds_number.andThen finds_behindPoint ?_).congr fun x => (pointed?_eq x).symm
  refine apart_number (starts_word.mul_left nofun) fun c hc => ?_
  rw [beq_iff_eq.mp hc]
  decide

theorem finds_leadingPoint : Finds leadingPointShape leadingPoint? := by
  have hdigits : Apart numberShape tailShape :=
    apart_number starts_tail fun c => isDigitOrGap_of_isTailMark
  refine ((finds_word ['.']).andThen (finds_number.andThen finds_tail hdigits) apart_word).congr fun x => ?_
  rcases x with _ | ⟨c, x⟩
  · rfl
  · by_cases hc : c = '.'
    · subst hc
      refine (andThen_word ['.'] x _).trans ?_
      rw [andThen_some, leadingPoint?_eq]
      rfl
    · rw [andThen_word_eq_none (not_prefix_cons hc x), leadingPoint?_eq_none hc]

theorem finds_exponential : Finds exponentialShape exponential? := by
  have hexponent : Apart exponentShape (optional (ofClass isPrecisionMark)) :=
    apart_of_starts within_exponent within_ofClass.starts.optional
      fun _ => isExponentPart_of_isPrecisionMark
  have hrest := finds_exponent.andThen (finds_optional_of_found finds_one) hexponent
  refine (finds_number.andThen hrest ?_).congr fun x => ?_
  · refine apart_number (starts_exponent.mul_left ?_) fun c => isDigitOrGap_of_isExponentMark
    exact nil_notMem_mul nil_notMem_ofClass
  · rw [exponential?_eq, andThen]
    exact congrArg (Option.bind _ ·) (funext fun n => by rw [andThen_some])

theorem finds_suffixed : Finds suffixedShape suffixed? := by
  refine (finds_number.andThen finds_one ?_).congr fun x => rfl
  exact apart_number within_ofClass.starts fun c => isDigitOrGap_of_isPrecisionMark

theorem finds_name : Finds nameShape name? := by
  refine (finds_one.andThen finds_run apart_ofClass).congr fun x => ?_
  rcases x with _ | ⟨c, x⟩
  · rfl
  · rw [andThen_one]
    rfl

theorem finds_blank : Finds (oneOrMore (ofClass isBlank)) blank? := finds_runs

theorem finds_lineComment : Finds lineCommentShape lineComment? := by
  refine ((finds_word ['/', '/']).andThen finds_run apart_word).congr fun x => ?_
  by_cases hopens : ['/', '/'] <+: x
  · obtain ⟨y, rfl⟩ := hopens
    exact andThen_word ['/', '/'] y _
  · rw [andThen_word_eq_none hopens]
    unfold lineComment?
    split
    · exact absurd (List.prefix_append ['/', '/'] _) hopens
    · rfl

theorem finds_byteOrderMark : Finds (word ['\ufeff']) byteOrderMark? := by
  refine (finds_word ['\ufeff']).congr fun x => ?_
  rcases x with _ | ⟨c, x⟩
  · rfl
  · by_cases hc : c = '\ufeff'
    · subst hc
      rfl
    · rw [word?_eq_none (not_prefix_cons hc x)]
      simp [byteOrderMark?, one, found, hc]

end JavaTree.Pattern
