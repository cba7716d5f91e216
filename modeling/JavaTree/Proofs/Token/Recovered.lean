import JavaTree.Proofs.Token.Pieces

/-!
The two ways to go through the pieces of a source text.

`strict` stops at the first fault, `recover` marks the place of each fault and goes on. They gather
the same tokens as long as there is no fault, and the marks are told apart from all tokens that are
read: none of those is of the invalid kind.

    text:      int  x  #  ;  #            faults:    # #
    strict:    int  x  stops at #
    recover:   int  x  #  ;  #  end
-/

namespace JavaTree.Lexer

/-- The mark that stands for a fault among the tokens. -/
def mark (f : Fault) : Token := ⟨.invalid, f.text, f.location⟩

/-- The token that a piece is, if it is one and no trivia. -/
def Item.solid? : Item → Option Token
  | .token t => if t.kind.isTrivia then none else some t
  | .fault _ => none

/-! ### The two loops -/

/-- The strict loop gives back the first fault, or the tokens that the other loop gathers. -/
theorem strict_eq (is : List Item) :
    strict is = match is.filterMap Item.fault? with
      | [] => .ok (is.filterMap Item.token?)
      | f :: _ => .error f := by
  induction is with
  | nil => rfl
  | cons i rest ih =>
    cases i with
    | fault f => rfl
    | token t =>
      rw [strict, ih]
      simp only [List.filterMap_cons, Item.fault?, Item.token?]
      by_cases htrivia : t.kind.isTrivia = true
      · simp only [htrivia, if_true]
      · simp only [htrivia, if_false, Bool.false_eq_true]
        cases rest.filterMap Item.fault? <;> rfl

/-- The tokens are gathered where there is no fault, and then all of them. -/
theorem tokenize_eq_ok {source : String} {ts : List Token} : tokenize source = .ok ts ↔
    faults source = [] ∧ (items source).filterMap Item.token? ++ [endToken source] = ts := by
  rw [tokenize, strict_eq, ← faults]
  cases faults source <;> simp [Except.map]

/-- Where the strict loop fails, it has passed over everything before the fault. -/
theorem exists_of_strict_eq_error {is : List Item} {f : Fault} (h : strict is = .error f) :
    ∃ before after, is = before ++ .fault f :: after ∧
      strict before = .ok (before.filterMap Item.token?) := by
  have hfaults : ∃ fs, is.filterMap Item.fault? = f :: fs := by
    rw [strict_eq] at h
    split at h
    · cases h
    · next g fs hfs =>
      cases h
      exact ⟨fs, hfs⟩
  obtain ⟨fs, hfs⟩ := hfaults
  obtain ⟨before, i, after, rfl, hbefore, hi, -⟩ := List.filterMap_eq_cons_iff.mp hfs
  cases i with
  | token t => cases hi
  | fault g =>
    cases hi
    refine ⟨before, after, rfl, ?_⟩
    rw [strict_eq, List.filterMap_eq_nil_iff.mpr hbefore]

/-! ### Marks and tokens -/

/-- Tokens that are read are neither marks nor end tokens. -/
theorem kind_of_mem_cut {x : List Char} {skip : Nat} {u : Cursor} {t : Token}
    (h : .token t ∈ cut skip u x) : t.kind ≠ .endOfInput ∧ t.kind ≠ .invalid := by
  induction x generalizing skip u with
  | nil => cases h
  | cons c cs ih =>
    cases skip with
    | succ n => exact ih h
    | zero =>
      rcases List.mem_cons.mp h with heq | h
      · generalize hread : read (c :: cs) = r at heq
        obtain ⟨content | k, n⟩ := r
        · cases heq
        · cases heq
          exact read_kind hread
      · exact ih h

variable {is : List Item} (hread : ∀ t, .token t ∈ is → t.kind ≠ .endOfInput ∧ t.kind ≠ .invalid)
include hread

theorem kind_ne_endOfInput {t : Token} (ht : t ∈ is.filterMap Item.token?) : t.kind ≠ .endOfInput := by
  obtain ⟨i, hi, hit⟩ := List.mem_filterMap.mp ht
  cases i with
  | token v =>
    rw [Item.token?, Option.ite_none_left_eq_some, Option.some.injEq] at hit
    rw [← hit.2]
    exact (hread v hi).1
  | fault f =>
    cases hit
    intro hend
    cases hend

/-- The marks among the tokens are those of the faults. -/
theorem filter_invalid :
    (is.filterMap Item.token?).filter (·.kind = .invalid) = (is.filterMap Item.fault?).map mark := by
  induction is with
  | nil => rfl
  | cons i rest ih =>
    have hrest := ih fun t ht => hread t (List.mem_cons_of_mem _ ht)
    cases i with
    | fault f => simpa [List.filterMap_cons, Item.token?, Item.fault?, mark] using hrest
    | token t =>
      have hvalid := (hread t List.mem_cons_self).2
      by_cases htrivia : t.kind.isTrivia = true
      · simpa [List.filterMap_cons, Item.token?, Item.fault?, htrivia] using hrest
      · simpa [List.filterMap_cons, Item.token?, Item.fault?, htrivia, hvalid] using hrest

/-- All other tokens are those that were read. -/
theorem filter_valid :
    (is.filterMap Item.token?).filter (·.kind ≠ .invalid) = is.filterMap Item.solid? := by
  induction is with
  | nil => rfl
  | cons i rest ih =>
    have hrest := ih fun t ht => hread t (List.mem_cons_of_mem _ ht)
    cases i with
    | fault f => simpa [List.filterMap_cons, Item.token?, Item.solid?] using hrest
    | token t =>
      have hvalid := (hread t List.mem_cons_self).2
      by_cases htrivia : t.kind.isTrivia = true
      · simpa [List.filterMap_cons, Item.token?, Item.solid?, htrivia] using hrest
      · simpa [List.filterMap_cons, Item.token?, Item.solid?, htrivia, hvalid] using hrest

omit hread

/-- The strict and the recovering reading of a source text agree. The first gives tokens exactly when
the second meets no fault, and then the same ones; else it gives the first fault, and up to there
both have gathered the same tokens. In the recovering reading the invalid tokens are the marks of the
faults, in order; the others are the tokens of the text that are no trivia, in order; and behind them
stands the only end token. -/
theorem tokenize_agrees (source : String) :
    (∀ ts, tokenize source = .ok ts ↔ faults source = [] ∧ recover source = ts) ∧
    (∀ f, tokenize source = .error f ↔ (faults source).head? = some f) ∧
    (∀ f, tokenize source = .error f → ∃ before after front behind,
      items source = before ++ .fault f :: after ∧ strict before = .ok front ∧
      recover source = front ++ mark f :: behind) ∧
    ∃ ts, recover source = ts ++ [endToken source] ∧ (∀ t ∈ ts, t.kind ≠ .endOfInput) ∧
      ts.filter (·.kind = .invalid) = (faults source).map mark ∧
      ts.filter (·.kind ≠ .invalid) = (items source).filterMap Item.solid? := by
  have hread : ∀ t, .token t ∈ items source → t.kind ≠ .endOfInput ∧ t.kind ≠ .invalid :=
    fun t => kind_of_mem_cut
  refine ⟨?_, ?_, ?_, _, rfl, fun t => kind_ne_endOfInput hread, filter_invalid hread,
    filter_valid hread⟩
  · intro ts
    rw [tokenize, strict_eq, ← faults, recover]
    cases faults source <;> simp [Except.map]
  · intro f
    rw [tokenize, strict_eq, ← faults]
    cases faults source <;> simp [Except.map]
  · intro f hf
    have hstrict : strict (items source) = .error f := by
      rw [tokenize] at hf
      cases hs : strict (items source) with
      | error g => rw [hs] at hf; cases hf; rfl
      | ok ts => rw [hs] at hf; cases hf
    obtain ⟨before, after, hitems, hbefore⟩ := exists_of_strict_eq_error hstrict
    refine ⟨before, after, _, after.filterMap Item.token? ++ [endToken source], hitems, hbefore, ?_⟩
    rw [recover, hitems, List.filterMap_append, List.append_assoc]
    rfl

end JavaTree.Lexer
