import JavaTree.Token.Lexer

/-!
What is read at the start of a text, by its first character.

A word is read as itself when nothing behind it makes it longer. For most words one character behind
is enough to tell: a name ends before any character that no name has, and brackets, `;`, `,` and
blanks end every word.

    first character        offers
    letter, `_`, `$`       a name
    digit                  numbers
    `.`                    a mark, or a number
    blank                  blanks
    another mark           a mark, or a comment
-/

namespace JavaTree

namespace Pattern

/-! ### The longest offer -/

theorem longer_cases (o a : Option (Kind × Nat)) : longer o a = o ∨ longer o a = a := by
  cases o with
  | none => exact .inr rfl
  | some p =>
    cases a with
    | none => exact .inl rfl
    | some q =>
      rw [longer]
      split
      · exact .inr rfl
      · exact .inl rfl

theorem longer_of_le {p q : Kind × Nat} (h : q.2 ≤ p.2) : longer (some p) (some q) = some p :=
  if_neg (Nat.not_lt.mpr h)

/-- The longer of two offers is at least as long as both. -/
theorem exists_longer {o a : Option (Kind × Nat)} {q : Kind × Nat} (h : a = some q ∨ o = some q) :
    ∃ p, longer o a = some p ∧ q.2 ≤ p.2 := by
  rcases o with _ | p
  · exact ⟨q, h.resolve_right nofun, Nat.le_refl _⟩
  rcases a with _ | b
  · exact ⟨q, h.resolve_left nofun, Nat.le_refl _⟩
  by_cases hlt : p.2 < b.2
  · refine ⟨b, if_pos hlt, ?_⟩
    rcases h with h | h <;> cases h <;> omega
  · refine ⟨p, if_neg hlt, ?_⟩
    rcases h with h | h <;> cases h <;> omega

theorem foldl_longer_of_le {os : List (Option (Kind × Nat))} {k : Kind} {n : Nat}
    (h : ∀ p, some p ∈ os → p.2 ≤ n) : os.foldl longer (some (k, n)) = some (k, n) := by
  induction os with
  | nil => rfl
  | cons o os ih =>
    have hrest : os.foldl longer (some (k, n)) = some (k, n) :=
      ih fun p hp => h p (List.mem_cons_of_mem _ hp)
    cases o with
    | none => exact hrest
    | some p => rw [List.foldl_cons, longer_of_le (h p List.mem_cons_self), hrest]

/-- The longest offer is the first one that no later one exceeds and no earlier one equals. -/
theorem foldl_longer_eq {front back : List (Option (Kind × Nat))} {k : Kind} {n : Nat}
    (hfront : ∀ p, some p ∈ front → p.2 < n) (hback : ∀ p, some p ∈ back → p.2 ≤ n)
    {o : Option (Kind × Nat)} (ho : ∀ p ∈ o, p.2 < n) :
    (front ++ some (k, n) :: back).foldl longer o = some (k, n) := by
  induction front generalizing o with
  | nil =>
    have hlonger : longer o (some (k, n)) = some (k, n) := by
      cases o with
      | none => rfl
      | some p => rw [longer, if_pos (ho p rfl)]
    rw [List.nil_append, List.foldl_cons, hlonger, foldl_longer_of_le hback]
  | cons a front ih =>
    rw [List.cons_append, List.foldl_cons]
    refine ih (fun p hp => hfront p (List.mem_cons_of_mem _ hp)) fun p hp => ?_
    rcases longer_cases o a with h | h <;> rw [h] at hp
    · exact ho p hp
    · exact hfront p (hp ▸ List.mem_cons_self)

theorem foldl_longer_mem {os : List (Option (Kind × Nat))} {o : Option (Kind × Nat)} {p : Kind × Nat}
    (h : os.foldl longer o = some p) : some p ∈ os ∨ o = some p := by
  induction os generalizing o with
  | nil => exact .inr h
  | cons a os ih =>
    rcases ih h with h | h
    · exact .inl (List.mem_cons_of_mem a h)
    · rcases longer_cases o a with heq | heq <;> rw [heq] at h
      · exact .inr h
      · exact .inl (h ▸ List.mem_cons_self)

/-- The longest offer is at least as long as any other. -/
theorem exists_foldl_longer {os : List (Option (Kind × Nat))} {o : Option (Kind × Nat)}
    {q : Kind × Nat} (hq : some q ∈ os ∨ o = some q) :
    ∃ p, os.foldl longer o = some p ∧ q.2 ≤ p.2 := by
  induction os generalizing o q with
  | nil => exact ⟨q, hq.resolve_left nofun, Nat.le_refl _⟩
  | cons a os ih =>
    by_cases hos : some q ∈ os
    · exact ih (.inl hos)
    · have hpair : a = some q ∨ o = some q :=
        hq.imp_left fun hmem => ((List.mem_cons.mp hmem).resolve_right hos).symm
      obtain ⟨q', hlonger, hle⟩ := exists_longer hpair
      obtain ⟨p, hp, hle'⟩ := ih (o := longer o a) (.inr hlonger)
      exact ⟨p, hp, Nat.le_trans hle hle'⟩

/-! ### Classes of characters -/

/-- Characters that start a mark. -/
def isMarkStart (c : Char) : Bool := Mark.all.any fun m => m.chars.head? == some c

theorem mem_all (m : Mark) : m ∈ Mark.all := by cases m <;> decide

theorem mark?_eq_none {c : Char} (h : isMarkStart c = false) (cs : List Char) :
    mark? (c :: cs) = none := by
  rw [mark?, List.find?_eq_none]
  intro m hm hpre
  rw [isMarkStart, List.any_eq_false] at h
  refine h m hm ?_
  have hne : m.chars ≠ [] := by cases m <;> decide
  obtain ⟨d, ds, hd⟩ := List.exists_cons_of_ne_nil hne
  rw [hd] at hpre ⊢
  simp only [List.isPrefixOf, Bool.and_eq_true, beq_iff_eq] at hpre
  simp [hpre.1]

/-- Characters of which each ends every word before it. -/
def isSeparator (c : Char) : Bool :=
  isBlank c || c == '(' || c == ')' || c == '[' || c == ']' || c == '{' || c == '}' || c == ';' ||
    c == ','

theorem isBlank_cases {c : Char} (h : isBlank c = true) :
    c = ' ' ∨ c = '\t' ∨ c = '\n' ∨ c = '\r' ∨ c = '\x0c' := by
  simpa [isBlank, or_assoc] using h

/-- The separators, one by one. -/
def separators : List Char :=
  [' ', '\t', '\n', '\r', '\x0c', '(', ')', '[', ']', '{', '}', ';', ',']

theorem mem_separators {c : Char} (h : isSeparator c = true) : c ∈ separators := by
  simpa [isSeparator, isBlank, separators, or_assoc] using h

theorem of_isSeparator {p : Char → Bool} (hp : separators.all p = true) {c : Char}
    (h : isSeparator c = true) : p c = true :=
  List.all_eq_true.mp hp c (mem_separators h)

/-! ### Texts that stop a pattern -/

/-- A text that goes on with no name and no number: it starts neither with a letter or digit, nor
with a sign and a digit behind it. -/
structure Stops (r : List Char) : Prop where
  name : ∀ c ∈ r.head?, isNamePart c = false
  sign : ∀ c d ds, r = c :: d :: ds → c = '+' ∨ c = '-' → isDigit d = false

theorem stops_nil : Stops [] := ⟨nofun, nofun⟩

/-- A text that goes on with no name and no number behind another one: it does not start with a letter
or digit, and not with a sign and a digit where the other one ends with the letter of an exponent. -/
structure StopsBehind (x r : List Char) : Prop where
  name : ∀ c ∈ r.head?, isNamePart c = false
  sign : ∀ e ∈ x.getLast?, e = 'e' ∨ e = 'E' →
    ∀ c d ds, r = c :: d :: ds → c = '+' ∨ c = '-' → isDigit d = false

theorem Stops.behind {r : List Char} (h : Stops r) (x : List Char) : StopsBehind x r :=
  ⟨h.name, fun _ _ _ => h.sign⟩

theorem StopsBehind.drop {x r : List Char} (h : StopsBehind x r) (n : Nat) : StopsBehind (x.drop n) r := by
  refine ⟨h.name, fun e he => h.sign e ?_⟩
  rw [List.getLast?_drop] at he
  split at he
  · cases he
  · exact he

theorem stops_separator {c : Char} (h : isSeparator c = true) (r : List Char) : Stops (c :: r) := by
  refine ⟨fun d hd => ?_, fun d e ds hr hd => ?_⟩
  · cases hd
    exact (Bool.not_eq_true' _).mp (of_isSeparator (p := fun d => !isNamePart d) (by decide) h)
  · cases hr
    rcases hd with rfl | rfl <;> exact absurd h (by decide)

theorem isNamePart_of_isDigit {c : Char} (h : isDigit c = true) : isNamePart c = true := by
  simp [isNamePart, h]

theorem isNamePart_of_isDigitOrGap {c : Char} (h : isDigitOrGap c = true) : isNamePart c = true := by
  simp only [isDigitOrGap, Bool.or_eq_true, beq_iff_eq] at h
  rcases h with h | rfl
  · exact isNamePart_of_isDigit h
  · decide

theorem isNamePart_of_isHexOrGap {c : Char} (h : isHexOrGap c = true) : isNamePart c = true := by
  simp only [isHexOrGap, Bool.or_eq_true, decide_eq_true_eq] at h
  rcases h with (h | h) | h
  · exact isNamePart_of_isDigitOrGap h
  · simp only [isNamePart, isNameStart, Bool.or_eq_true, decide_eq_true_eq]
    exact .inl (.inl (.inl (.inl ⟨h.1, Char.le_trans h.2 (by decide)⟩)))
  · simp only [isNamePart, isNameStart, Bool.or_eq_true, decide_eq_true_eq]
    exact .inl (.inl (.inl (.inr ⟨h.1, Char.le_trans h.2 (by decide)⟩)))

theorem isNamePart_of_isBitOrGap {c : Char} (h : isBitOrGap c = true) : isNamePart c = true := by
  simp only [isBitOrGap, Bool.or_eq_true, beq_iff_eq] at h
  rcases h with (rfl | rfl) | rfl <;> decide

theorem isNamePart_of_isLongMark {c : Char} (h : isLongMark c = true) : isNamePart c = true := by
  simp only [isLongMark, Bool.or_eq_true, beq_iff_eq] at h
  rcases h with rfl | rfl <;> decide

theorem isNamePart_of_isPrecisionMark {c : Char} (h : isPrecisionMark c = true) :
    isNamePart c = true := by
  simp only [isPrecisionMark, Bool.or_eq_true, beq_iff_eq] at h
  rcases h with ((rfl | rfl) | rfl) | rfl <;> decide

section Append

variable {r : List Char}

theorem run_append {p : Char → Bool} (h : ∀ c ∈ r.head?, p c = false) (x : List Char) :
    run p (x ++ r) = run p x := by
  induction x with
  | nil =>
    rcases r with _ | ⟨c, cs⟩
    · rfl
    · simp [run, h c rfl]
  | cons c x ih =>
    simp only [run, List.cons_append, List.takeWhile_cons] at ih ⊢
    cases p c <;> simp [ih]

theorem one_append {p : Char → Bool} (h : ∀ c ∈ r.head?, p c = false) (x : List Char) :
    one p (x ++ r) = one p x := by
  rcases x with _ | ⟨c, x⟩
  · rcases r with _ | ⟨c, cs⟩
    · rfl
    · simp [one, h c rfl]
  · rfl

theorem run_le (p : Char → Bool) (x : List Char) : run p x ≤ x.length := by
  rw [run]
  exact (List.takeWhile_prefix p).length_le

theorem run_eq_length {p : Char → Bool} {x : List Char} (h : x.all p = true) : run p x = x.length := by
  induction x with
  | nil => rfl
  | cons c x ih =>
    simp only [List.all_cons, Bool.and_eq_true] at h
    have := ih h.2
    simp only [run, List.takeWhile_cons, h.1, if_true, List.length_cons] at this ⊢
    rw [this]

theorem one_le (p : Char → Bool) (x : List Char) : one p x ≤ x.length := by
  rcases x with _ | ⟨c, x⟩
  · exact Nat.le_refl 0
  · simp only [one, List.length_cons]
    split <;> omega

theorem digits_le (x : List Char) : digits x ≤ x.length := by
  rcases x with _ | ⟨c, x⟩
  · exact Nat.le_refl 0
  · have := run_le isDigitOrGap x
    simp only [digits, List.length_cons]
    split <;> omega

theorem exponent_le (x : List Char) : exponent x ≤ x.length := by
  rcases x with _ | ⟨c, x⟩
  · exact Nat.le_refl 0
  · have hrun := run_le isDigit (x.drop (one (fun d => d == '+' || d == '-') x))
    have hone := one_le (fun d => d == '+' || d == '-') x
    rw [List.length_drop] at hrun
    simp only [exponent, List.length_cons]
    repeat' split
    all_goals omega

section Names

variable (hr : ∀ c ∈ r.head?, isNamePart c = false)
include hr

/-- A class of characters that only names have ends before such a text. -/
theorem outside {p : Char → Bool} (h : ∀ c, p c = true → isNamePart c = true) :
    ∀ c ∈ r.head?, p c = false := by
  intro c hc
  have := hr c hc
  cases hp : p c with
  | false => rfl
  | true =>
    rw [h c hp] at this
    cases this

theorem digits_append (x : List Char) : digits (x ++ r) = digits x := by
  rcases x with _ | ⟨c, x⟩
  · rcases r with _ | ⟨c, cs⟩
    · rfl
    · have hc := outside hr (fun _ => isNamePart_of_isDigit) c rfl
      simp [digits, hc]
  · simp only [List.cons_append, digits, run_append (outside hr fun _ => isNamePart_of_isDigitOrGap)]

theorem decimal?_append (x : List Char) : decimal? (x ++ r) = decimal? x := by
  simp only [decimal?, digits_append hr, found]
  split
  · rfl
  · rw [Option.map_some, Option.map_some, List.drop_append_of_le_length (digits_le x),
      one_append (outside hr fun _ => isNamePart_of_isLongMark)]

theorem based?_append {isBase p : Char → Bool} (hbase : ∀ c, isBase c = true → isNamePart c = true)
    (hp : ∀ c, p c = true → isNamePart c = true) {x : List Char} (hx : x ≠ []) :
    based? isBase p (x ++ r) = based? isBase p x := by
  rcases x with _ | ⟨a, _ | ⟨b, x⟩⟩
  · exact absurd rfl hx
  · rcases r with _ | ⟨b, cs⟩
    · rfl
    · have hb := outside hr hbase b rfl
      simp only [List.cons_append, List.nil_append, based?]
      split
      · next heq =>
        cases heq
        simp [hb]
      · rfl
  · simp only [List.cons_append, based?]
    split
    · next heq =>
      cases heq
      simp only [run_append (outside hr hp), found]
      split
      · split
        · rfl
        · rw [Option.map_some, Option.map_some, List.drop_append_of_le_length (run_le p x),
            one_append (outside hr fun _ => isNamePart_of_isLongMark)]
      · rfl
    · next hne =>
      split
      · next heq =>
        cases heq
        exact absurd rfl (hne b _)
      · rfl

theorem hexadecimal?_append {x : List Char} (hx : x ≠ []) :
    hexadecimal? (x ++ r) = hexadecimal? x := by
  refine based?_append hr (fun c hc => ?_) (fun _ => isNamePart_of_isHexOrGap) hx
  simp only [Bool.or_eq_true, beq_iff_eq] at hc
  rcases hc with rfl | rfl <;> decide

theorem binary?_append {x : List Char} (hx : x ≠ []) : binary? (x ++ r) = binary? x := by
  refine based?_append hr (fun c hc => ?_) (fun _ => isNamePart_of_isBitOrGap) hx
  simp only [Bool.or_eq_true, beq_iff_eq] at hc
  rcases hc with rfl | rfl <;> decide

theorem suffixed?_append (x : List Char) : suffixed? (x ++ r) = suffixed? x := by
  simp only [suffixed?, digits_append hr, found]
  split
  · rfl
  · rw [Option.bind_some, Option.bind_some, List.drop_append_of_le_length (digits_le x),
      one_append (outside hr fun _ => isNamePart_of_isPrecisionMark)]

theorem name?_append {x : List Char} (hx : x ≠ []) : name? (x ++ r) = name? x := by
  rcases x with _ | ⟨c, x⟩
  · exact absurd rfl hx
  · simp only [List.cons_append, name?, run_append hr]

end Names

/-- No digits of an exponent are at the start of such a text, behind a sign or not. -/
theorem StopsBehind.power {e : Char} (hr : StopsBehind [e] r) (he : e = 'e' ∨ e = 'E') :
    run isDigit (r.drop (one (fun d => d == '+' || d == '-') r)) = 0 := by
  rcases r with _ | ⟨c, cs⟩
  · rfl
  · simp only [one]
    split
    · next hc =>
      rcases cs with _ | ⟨d, cs⟩
      · rfl
      · have hd := hr.sign e rfl he c d cs rfl (by simpa using hc)
        simp [run, hd]
    · have hc := outside hr.name (fun _ => isNamePart_of_isDigit) c rfl
      simp [run, hc]

section Numbers

variable {x : List Char} (hr : StopsBehind x r)
include hr

theorem exponent_append : exponent (x ++ r) = exponent x := by
  rcases x with _ | ⟨c, _ | ⟨d, x⟩⟩
  · rcases r with _ | ⟨c, cs⟩
    · rfl
    · have hc := hr.name c rfl
      have he : (c == 'e' || c == 'E') = false := by
        rw [Bool.or_eq_false_iff]
        constructor <;> rw [beq_eq_false_iff_ne] <;> rintro rfl <;> exact absurd hc (by decide)
      simp [exponent, he]
  · -- with the sign in the text behind, there is no exponent at all
    simp only [List.cons_append, List.nil_append, exponent]
    split
    · next hc =>
      rw [hr.power (by simpa using hc)]
      rfl
    · rfl
  · have hle : one (fun d => d == '+' || d == '-') (d :: x) ≤ (d :: x).length := one_le _ _
    have hsame : one (fun d => d == '+' || d == '-') (d :: x ++ r) =
        one (fun d => d == '+' || d == '-') (d :: x) := rfl
    simp only [List.cons_append, exponent]
    rw [← List.cons_append, hsame, List.drop_append_of_le_length hle,
      run_append (outside hr.name fun _ => isNamePart_of_isDigit)]

theorem floatTail_append : floatTail (x ++ r) = floatTail x := by
  simp only [floatTail, exponent_append hr]
  rw [List.drop_append_of_le_length (exponent_le x),
    one_append (outside hr.name fun _ => isNamePart_of_isPrecisionMark)]

/-- A point behind digits would go on with the number. -/
theorem pointed?_append (hpoint : r.head? = some '.' → digits x ≠ x.length) :
    pointed? (x ++ r) = pointed? x := by
  simp only [pointed?, digits_append hr.name, found]
  split
  · rfl
  · rw [Option.bind_some, Option.bind_some, List.drop_append_of_le_length (digits_le x)]
    rcases hrest : x.drop (digits x) with _ | ⟨c, y⟩
    · have hlen : digits x = x.length := by
        have hnil := List.drop_eq_nil_iff.mp hrest
        have hle := digits_le x
        omega
      rcases r with _ | ⟨c, cs⟩
      · rfl
      · have hc : c ≠ '.' := fun hc => hpoint (by rw [hc]; rfl) hlen
        simp only [List.nil_append]
        split
        · next heq =>
          cases heq
          exact absurd rfl hc
        · rfl
    · simp only [List.cons_append]
      split
      · next heq =>
        cases heq
        have hgaps : run isDigitOrGap (y ++ r) = run isDigitOrGap y :=
          run_append (outside hr.name fun _ => isNamePart_of_isDigitOrGap) y
        have hbehind : StopsBehind ('.' :: y) r := hrest ▸ hr.drop (digits x)
        simp only [hgaps]
        rw [List.drop_append_of_le_length (run_le isDigitOrGap y),
          floatTail_append (x := y.drop (run isDigitOrGap y)) (hbehind.drop (run isDigitOrGap y + 1))]
      · next hne =>
        split
        · next heq =>
          cases heq
          exact absurd rfl (hne _)
        · rfl

theorem leadingPoint?_append (hx : x ≠ []) :
    leadingPoint? (x ++ r) = leadingPoint? x := by
  rcases x with _ | ⟨c, x⟩
  · exact absurd rfl hx
  · simp only [List.cons_append, leadingPoint?]
    split
    · next heq =>
      cases heq
      simp only [digits_append hr.name, found]
      split
      · rfl
      · rw [Option.map_some, Option.map_some, List.drop_append_of_le_length (digits_le x),
          floatTail_append (x := x.drop (digits x)) (hr.drop (digits x + 1))]
    · next hne =>
      split
      · next heq =>
        cases heq
        exact absurd rfl (hne _)
      · rfl

theorem exponential?_append : exponential? (x ++ r) = exponential? x := by
  simp only [exponential?, digits_append hr.name, found]
  split
  · rfl
  · rw [Option.bind_some, Option.bind_some, List.drop_append_of_le_length (digits_le x),
      exponent_append (hr.drop _)]
    split
    · rfl
    · have hle : digits x + exponent (x.drop (digits x)) ≤ x.length := by
        have h := exponent_le (x.drop (digits x))
        rw [List.length_drop] at h
        have := digits_le x
        omega
      rw [Option.map_some, Option.map_some, List.drop_append_of_le_length hle,
        one_append (outside hr.name fun _ => isNamePart_of_isPrecisionMark)]

end Numbers

end Append

theorem blank?_eq_none {c : Char} (hc : isBlank c = false) (cs : List Char) :
    blank? (c :: cs) = none := by
  simp [blank?, run, hc, found]

/-- Neither sort of comment starts here. -/
def NoComment (cs : List Char) : Prop :=
  ∀ c d ds, cs = c :: d :: ds → c = '/' → d ≠ '/' ∧ d ≠ '*'

theorem NoComment.lineComment? {cs : List Char} (h : NoComment cs) : lineComment? cs = none := by
  unfold Pattern.lineComment?
  split
  · exact absurd rfl (h _ _ _ rfl rfl).1
  · rfl

theorem NoComment.blockComment? {cs : List Char} (h : NoComment cs) : blockComment? cs = none := by
  unfold Pattern.blockComment?
  split
  · exact absurd rfl (h _ _ _ rfl rfl).2
  · rfl

theorem NoComment.of_append {w r : List Char} (h : NoComment (w ++ r)) : NoComment w := by
  intro c d ds hw
  exact h c d (ds ++ r) (by rw [hw]; rfl)

theorem name?_le {x : List Char} {n : Nat} (h : name? x = some n) : n ≤ x.length := by
  rcases x with _ | ⟨c, x⟩
  · cases h
  · have := run_le isNamePart x
    simp only [name?] at h
    split at h
    · cases h
      simp only [List.length_cons]
      omega
    · cases h

/-- Every shape offers the same with a text behind that goes on with no name, if the shapes that a number
with a point or an exponent can have do. -/
theorem offers_append_of {w r : List Char} (hw : w ≠ []) (hblank : ∀ c ∈ w.head?, isBlank c = false)
    (hcomment : NoComment (w ++ r)) (hr : ∀ c ∈ r.head?, isNamePart c = false)
    (hmark : mark? (w ++ r) = mark? w) (hpointed : pointed? (w ++ r) = pointed? w)
    (hleading : leadingPoint? (w ++ r) = leadingPoint? w)
    (hexponential : exponential? (w ++ r) = exponential? w) : offers (w ++ r) = offers w := by
  obtain ⟨c, x, rfl⟩ := List.exists_cons_of_ne_nil hw
  have hname : (name? (c :: x ++ r)).map (fun n => (nameKind ((c :: x ++ r).take n), n)) =
      (name? (c :: x)).map fun n => (nameKind ((c :: x).take n), n) := by
    rw [name?_append hr hw]
    cases hn : name? (c :: x) with
    | none => rfl
    | some n => rw [Option.map_some, Option.map_some, List.take_append_of_le_length (name?_le hn)]
  have hblank' : blank? (c :: x ++ r) = none := blank?_eq_none (hblank c rfl) _
  have hbom : byteOrderMark? (c :: x ++ r) = byteOrderMark? (c :: x) := rfl
  simp only [offers, hname, hmark, hcomment.lineComment?, hcomment.blockComment?,
    hcomment.of_append.lineComment?, hcomment.of_append.blockComment?, decimal?_append hr,
    hexadecimal?_append hr hw, binary?_append hr hw, hpointed, hleading, hexponential,
    suffixed?_append hr, hblank', hbom, blank?_eq_none (hblank c rfl)]

/-- Every shape offers the same with a text behind that stops it. -/
theorem offers_append {w r : List Char} (hw : w ≠ []) (hblank : ∀ c ∈ w.head?, isBlank c = false)
    (hcomment : NoComment (w ++ r)) (hr : StopsBehind w r) (hmark : mark? (w ++ r) = mark? w)
    (hpoint : r.head? = some '.' → digits w ≠ w.length) : offers (w ++ r) = offers w :=
  offers_append_of hw hblank hcomment hr.name hmark (pointed?_append hr hpoint)
    (leadingPoint?_append hr hw) (exponential?_append hr)

/-! ### Marks before other characters -/

/-- Characters that go on with no mark. -/
def isSolo (c : Char) : Bool := Mark.all.all fun m => !m.chars.tail.contains c

theorem isPrefixOf_append_cons {l x : List Char} {c : Char} (hc : c ∉ l) (cs : List Char) :
    l.isPrefixOf (x ++ c :: cs) = l.isPrefixOf x := by
  induction x generalizing l with
  | nil =>
    rcases l with _ | ⟨d, l⟩
    · rfl
    · have hd : d ≠ c := fun h => hc (h ▸ List.mem_cons_self)
      simp [List.isPrefixOf, hd]
  | cons d x ih =>
    rcases l with _ | ⟨e, l⟩
    · rfl
    · simp only [List.cons_append, List.isPrefixOf]
      rw [ih fun h => hc (List.mem_cons_of_mem _ h)]

theorem mark?_append_solo {w : List Char} (hw : w ≠ []) {c : Char} (hc : isSolo c = true)
    (cs : List Char) : mark? (w ++ c :: cs) = mark? w := by
  obtain ⟨d, x, rfl⟩ := List.exists_cons_of_ne_nil hw
  have hpre (m : Mark) : m.chars.isPrefixOf (d :: x ++ c :: cs) = m.chars.isPrefixOf (d :: x) := by
    rw [isSolo, List.all_eq_true] at hc
    have hm := hc m (mem_all m)
    rcases hchars : m.chars with _ | ⟨e, l⟩
    · rfl
    · rw [hchars] at hm
      simp only [List.tail_cons, Bool.not_eq_true', List.contains_eq_mem, decide_eq_false_iff_not] at hm
      simp only [List.cons_append, List.isPrefixOf, isPrefixOf_append_cons hm]
  simp only [mark?, hpre]

theorem isSolo_of_isSeparator {c : Char} (h : isSeparator c = true) : isSolo c = true :=
  of_isSeparator (by decide) h

/-! ### Names -/

/-- The spelling of a name. -/
def isName : List Char → Bool
  | c :: cs => isNameStart c && cs.all isNamePart
  | [] => false

theorem isDigit_eq_false {c : Char} (h : isNameStart c = true) : isDigit c = false := by
  simp only [isNameStart, isDigit, Bool.or_eq_true, decide_eq_true_eq, beq_iff_eq,
    decide_eq_false_iff_not, Char.le_def, UInt32.le_iff_toNat_le] at h ⊢
  rcases h with ((h | h) | rfl) | rfl
  · rintro ⟨-, h'⟩
    have := Nat.le_trans h.1 h'
    revert this
    decide
  · rintro ⟨-, h'⟩
    have := Nat.le_trans h.1 h'
    revert this
    decide
  · decide
  · decide

theorem isMarkStart_cases {c : Char} (h : isMarkStart c = true) :
    ∃ m : Mark, m.chars.head? = some c := by
  rw [isMarkStart, List.any_eq_true] at h
  obtain ⟨m, -, hm⟩ := h
  exact ⟨m, by simpa using hm⟩

theorem isMarkStart_eq_false {c : Char} (h : isNameStart c = true) : isMarkStart c = false := by
  cases hm : isMarkStart c with
  | false => rfl
  | true =>
    obtain ⟨m, hm⟩ := isMarkStart_cases hm
    cases m <;> cases hm <;> exact absurd h (by decide)

theorem isBlank_eq_false {c : Char} (h : isNameStart c = true) : isBlank c = false := by
  cases hb : isBlank c with
  | false => rfl
  | true =>
    rcases isBlank_cases hb with rfl | rfl | rfl | rfl | rfl <;> exact absurd h (by decide)

theorem ne_of_isNameStart {c d : Char} (h : isNameStart c = true) (hd : isNameStart d = false) :
    c ≠ d := by
  rintro rfl
  rw [h] at hd
  cases hd

theorem digits_eq_zero {c : Char} (h : isDigit c = false) (cs : List Char) : digits (c :: cs) = 0 := by
  simp [digits, h]

theorem noComment_of_ne {c : Char} (h : c ≠ '/') (cs : List Char) : NoComment (c :: cs) := by
  rintro a b bs heq rfl
  cases heq
  exact absurd rfl h

theorem based?_eq_none {isBase p : Char → Bool} {c : Char} (h : c ≠ '0') (cs : List Char) :
    based? isBase p (c :: cs) = none := by
  unfold based?
  split
  · next heq =>
    cases heq
    exact absurd rfl h
  · rfl

theorem leadingPoint?_eq_none {c : Char} (h : c ≠ '.') (cs : List Char) :
    leadingPoint? (c :: cs) = none := by
  unfold leadingPoint?
  split
  · next heq =>
    cases heq
    exact absurd rfl h
  · rfl

/-- No shape of numbers, blanks, comments or marks offers anything where a name starts. -/
theorem offers_name {c : Char} (h : isNameStart c = true) (cs : List Char) :
    offers (c :: cs) = some (nameKind ((c :: cs).take (1 + run isNamePart cs)), 1 + run isNamePart cs) ::
      List.replicate 12 none := by
  have hcomment : NoComment (c :: cs) := noComment_of_ne (ne_of_isNameStart h (by decide)) cs
  have hdigits : digits (c :: cs) = 0 := digits_eq_zero (isDigit_eq_false h) cs
  have hzero : c ≠ '0' := ne_of_isNameStart h (by decide)
  have hbom : one (· == '\ufeff') (c :: cs) = 0 := by
    simp [one, ne_of_isNameStart h (by decide : isNameStart '\ufeff' = false)]
  simp [offers, name?, h, blank?_eq_none (isBlank_eq_false h), hcomment.lineComment?,
    hcomment.blockComment?, mark?_eq_none (isMarkStart_eq_false h), decimal?, hexadecimal?, binary?,
    based?_eq_none hzero, pointed?, leadingPoint?_eq_none (ne_of_isNameStart h (by decide)),
    exponential?, suffixed?, byteOrderMark?, hdigits, hbom, found, List.replicate]

/-! ### Offers by shape -/

/-- A piece that a shape offers at the start of a text, with one case for each shape. -/
inductive Offered (x : List Char) (n : Nat) : Kind → Prop
  | name {k : Kind} (h : name? x = some n) (hk : k = nameKind (x.take n)) : Offered x n k
  | blank (h : blank? x = some n) : Offered x n .blank
  | lineComment (h : lineComment? x = some n) : Offered x n .lineComment
  | blockComment (h : blockComment? x = some n) : Offered x n .blockComment
  | mark {m : Mark} (h : mark? x = some m) (hn : n = m.chars.length) : Offered x n (.mark m)
  | decimal (h : decimal? x = some n) : Offered x n .integer
  | hexadecimal (h : hexadecimal? x = some n) : Offered x n .integer
  | binary (h : binary? x = some n) : Offered x n .integer
  | pointed (h : pointed? x = some n) : Offered x n .float
  | leadingPoint (h : leadingPoint? x = some n) : Offered x n .float
  | exponential (h : exponential? x = some n) : Offered x n .float
  | suffixed (h : suffixed? x = some n) : Offered x n .float
  | byteOrderMark (h : byteOrderMark? x = some n) : Offered x n .byteOrderMark

theorem offered_iff {x : List Char} {k : Kind} {n : Nat} : Offered x n k ↔ some (k, n) ∈ offers x := by
  constructor
  · intro h
    cases h with
    | name h hk => simp [offers, h, hk]
    | mark h hn => simp [offers, h, hn]
    | _ h => simp [offers, h]
  · intro h
    simp only [offers, List.mem_cons, List.not_mem_nil, or_false] at h
    rcases h with h | h | h | h | h | h | h | h | h | h | h | h | h <;>
      obtain ⟨_, hlen, heq⟩ := Option.map_eq_some_iff.mp h.symm <;> cases heq
    · exact .name hlen rfl
    · exact .blank hlen
    · exact .lineComment hlen
    · exact .blockComment hlen
    · exact .mark hlen rfl
    · exact .decimal hlen
    · exact .hexadecimal hlen
    · exact .binary hlen
    · exact .pointed hlen
    · exact .leadingPoint hlen
    · exact .exponential hlen
    · exact .suffixed hlen
    · exact .byteOrderMark hlen

theorem offered_of_longest? {x : List Char} {k : Kind} {n : Nat} (h : longest? x = some (k, n)) :
    Offered x n k :=
  offered_iff.mpr ((foldl_longer_mem h).resolve_right nofun)

/-- A name is a reserved word or an identifier. -/
theorem nameKind_cases (cs : List Char) :
    (∃ k, nameKind cs = .keyword k) ∨ nameKind cs = .identifier := by
  unfold nameKind
  split
  · exact .inl ⟨_, rfl⟩
  · exact .inr rfl

/-- No name is a number. -/
theorem nameKind_ne_number {k : Kind} (hk : k = .integer ∨ k = .float) (cs : List Char) :
    k ≠ nameKind cs := by
  rintro rfl
  rcases nameKind_cases cs with ⟨w, hname⟩ | hname <;> rw [hname] at hk <;> rcases hk with h | h <;> cases h

/-- What is offered is neither the end of the input, nor an invalid token, nor a quoted literal. -/
theorem Offered.kind {x : List Char} {n : Nat} {k : Kind} (h : Offered x n k) :
    k ≠ .endOfInput ∧ k ≠ .invalid ∧ k.value? = none := by
  cases h with
  | name _ hk =>
    rcases nameKind_cases (x.take n) with ⟨w, hname⟩ | hname <;> rw [hk, hname] <;>
      exact ⟨nofun, nofun, rfl⟩
  | _ => exact ⟨nofun, nofun, rfl⟩

end Pattern

namespace Lexer

open Pattern

/-- What is read at the start of a text that is no quoted literal. -/
theorem read_cons {c : Char} (hc : c ≠ '"' ∧ c ≠ '\'') (cs : List Char) :
    read (c :: cs) = if opensEndlessComment (c :: cs) then ⟨.error .unrecognized, (c :: cs).length⟩
      else match longest? (c :: cs) with
        | some (kind, width) => ⟨.ok kind, width⟩
        | none => ⟨.error .unrecognized, 1⟩ := by
  unfold read
  split
  · next heq =>
    cases heq
    exact absurd rfl hc.1
  · next heq =>
    cases heq
    exact absurd rfl hc.2
  · rfl

/-- What is read at the start of a text that is no quoted literal is offered there. -/
theorem offered_of_read {c : Char} (hc : c ≠ '"' ∧ c ≠ '\'') {cs : List Char} {k : Kind} {n : Nat}
    (h : read (c :: cs) = ⟨.ok k, n⟩) : Offered (c :: cs) n k := by
  rw [read_cons hc] at h
  split at h
  · cases h
  · split at h
    · next hlongest =>
      cases h
      exact offered_of_longest? hlongest
    · cases h

/-- What is read at the start of a text is neither the end of the input nor an invalid token. -/
theorem read_kind {cs : List Char} {k : Kind} {n : Nat} (h : read cs = ⟨.ok k, n⟩) :
    k ≠ .endOfInput ∧ k ≠ .invalid := by
  rcases cs with _ | ⟨c, cs⟩
  · cases h
  by_cases hc : c = '"' ∨ c = '\''
  · rcases hc with rfl | rfl
    · simp only [read, readString] at h
      split at h <;> cases h
      exact ⟨nofun, nofun⟩
    · simp only [read, readCharacter] at h
      split at h <;> cases h
      exact ⟨nofun, nofun⟩
  · obtain ⟨hend, hinvalid, -⟩ := (offered_of_read (not_or.mp hc) h).kind
    exact ⟨hend, hinvalid⟩

/-- A comment that is never closed is none that any shape offers. -/
theorem opensEndlessComment_iff_blockComment? {cs : List Char} :
    opensEndlessComment cs = true ↔ (∃ y, cs = '/' :: '*' :: y) ∧ blockComment? cs = none := by
  rw [opensEndlessComment.eq_def]
  split
  · next y => simp [blockComment?]
  · next hshape => simpa using fun y hy => absurd hy (hshape y)

theorem opensEndlessComment_eq_false {cs : List Char} (h : NoComment cs) :
    opensEndlessComment cs = false := by
  unfold opensEndlessComment
  split
  · exact absurd rfl (h _ _ _ rfl rfl).2
  · rfl

/-- The same is read where every shape offers the same. -/
theorem read_append_of {w r : List Char} (hw : w ≠ []) (hquote : ∀ c ∈ w.head?, c ≠ '"' ∧ c ≠ '\'')
    (hcomment : NoComment (w ++ r)) (hoffers : offers (w ++ r) = offers w) : read (w ++ r) = read w := by
  obtain ⟨c, x, rfl⟩ := List.exists_cons_of_ne_nil hw
  have hlongest : longest? (c :: x ++ r) = longest? (c :: x) := by rw [longest?, longest?, hoffers]
  rw [List.cons_append, read_cons (hquote c rfl), read_cons (hquote c rfl), ← List.cons_append,
    opensEndlessComment_eq_false hcomment, opensEndlessComment_eq_false hcomment.of_append, hlongest]
  rfl

/-- The same is read with a text behind that goes on with no shape. -/
theorem read_append {w r : List Char} (hw : w ≠ []) (hblank : ∀ c ∈ w.head?, isBlank c = false)
    (hquote : ∀ c ∈ w.head?, c ≠ '"' ∧ c ≠ '\'') (hcomment : NoComment (w ++ r)) (hr : StopsBehind w r)
    (hmark : mark? (w ++ r) = mark? w) (hpoint : r.head? = some '.' → digits w ≠ w.length) :
    read (w ++ r) = read w :=
  read_append_of hw hquote hcomment (offers_append hw hblank hcomment hr hmark hpoint)

/-- A name is read as a name when none of its characters is behind it. -/
theorem read_name {w r : List Char} (hw : isName w = true)
    (hr : ∀ c ∈ r.head?, isNamePart c = false) : read (w ++ r) = ⟨.ok (nameKind w), w.length⟩ := by
  rcases w with _ | ⟨c, x⟩
  · cases hw
  · simp only [isName, Bool.and_eq_true] at hw
    have hrun : run isNamePart (x ++ r) = x.length := by
      rw [run_append hr, run_eq_length hw.2]
    have hquote : c ≠ '"' ∧ c ≠ '\'' :=
      ⟨ne_of_isNameStart hw.1 (by decide), ne_of_isNameStart hw.1 (by decide)⟩
    have hslash : NoComment (c :: (x ++ r)) :=
      noComment_of_ne (ne_of_isNameStart hw.1 (by decide)) _
    rw [List.cons_append, read_cons hquote, opensEndlessComment_eq_false hslash, longest?,
      offers_name hw.1, hrun]
    simp [List.replicate, longer, Nat.add_comm 1]

/-- Any word is read as before with a separator behind it. -/
theorem read_append_separator {w : List Char} (hw : w ≠ [])
    (hblank : ∀ c ∈ w.head?, isBlank c = false) (hquote : ∀ c ∈ w.head?, c ≠ '"' ∧ c ≠ '\'')
    (hcomment : NoComment w) {c : Char} (hc : isSeparator c = true) (cs : List Char) :
    read (w ++ c :: cs) = read w := by
  have hslash : NoComment (w ++ c :: cs) := by
    rcases w with _ | ⟨a, _ | ⟨b, w⟩⟩
    · exact absurd rfl hw
    · rintro a' b' bs heq rfl
      cases heq
      constructor <;> rintro rfl <;> exact absurd hc (by decide)
    · rintro a' b' bs heq rfl
      cases heq
      exact hcomment _ _ w rfl rfl
  refine read_append hw hblank hquote hslash ((stops_separator hc cs).behind w)
    (mark?_append_solo hw (isSolo_of_isSeparator hc) cs) fun hdot => ?_
  cases hdot
  exact absurd hc (by decide)

theorem read_mark (m : Mark) : read m.chars = ⟨.ok (.mark m), m.chars.length⟩ := by
  cases m <;> rfl

theorem isMarkStart_of_mark? {c : Char} {cs : List Char} {m : Mark} (h : mark? (c :: cs) = some m) :
    isMarkStart c = true := by
  cases hc : isMarkStart c with
  | true => rfl
  | false =>
    rw [mark?_eq_none hc] at h
    cases h

/-- Where a mark starts, it is read unless there is a comment, or a number with a leading point. -/
theorem read_of_mark? {cs : List Char} {m : Mark} (h : mark? cs = some m) (hcomment : NoComment cs)
    (hpoint : leadingPoint? cs = none) : read cs = ⟨.ok (.mark m), m.chars.length⟩ := by
  rcases cs with _ | ⟨c, cs⟩
  · cases h
  · obtain ⟨m', hm'⟩ := isMarkStart_cases (isMarkStart_of_mark? h)
    have hc : isNameStart c = false ∧ isBlank c = false ∧ isDigit c = false ∧ c ≠ '0' ∧
        c ≠ '\ufeff' ∧ c ≠ '"' ∧ c ≠ '\'' := by
      cases m' <;> cases hm' <;> decide
    obtain ⟨hname, hblank, hdigit, hzero, hbom, hquote⟩ := hc
    have hoffers : offers (c :: cs) =
        List.replicate 4 none ++ some (.mark m, m.chars.length) :: List.replicate 8 none := by
      simp [offers, name?, hname, blank?_eq_none hblank, hcomment.lineComment?,
        hcomment.blockComment?, h, decimal?, hexadecimal?, binary?, based?_eq_none hzero, pointed?,
        hpoint, exponential?, suffixed?, byteOrderMark?, one, hbom, digits_eq_zero hdigit, found,
        List.replicate]
    have hlongest : longest? (c :: cs) = some (.mark m, m.chars.length) := by
      rw [longest?, hoffers]
      exact foldl_longer_eq (by simp) (by simp) nofun
    rw [read_cons hquote, opensEndlessComment_eq_false hcomment, hlongest]
    rfl

/-- Marks that no other mark goes on with, and that start nothing else. -/
def standsAlone : Mark → Bool
  | .openParen | .closeParen | .openBracket | .closeBracket | .openBrace | .closeBrace
  | .semicolon | .comma | .atSign | .question => true
  | _ => false

theorem read_standsAlone {m : Mark} (h : standsAlone m = true) (r : List Char) :
    read (m.chars ++ r) = ⟨.ok (.mark m), m.chars.length⟩ := by
  cases m <;> first | rfl | cases h

end Lexer

end JavaTree
