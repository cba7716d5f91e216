import JavaTree.Proofs.Parser.Capture

/-!
Where the initializer of a variable ends.

An initializer reaches up to the first comma or semicolon outside of its brackets. Angle brackets do
not count: a comma between the type arguments of `new Pair<A, B>()` ends the initializer, although
the writer of tokens sees there a list of type arguments. `declarators_eq_single_iff` says exactly
when a whole run of tokens is read as the initializer of a single variable.
-/

namespace JavaTree

namespace Angle

/-- For each token, whether it stands in a list of type arguments, angle brackets included; the first
`inside` tokens belong to a list that is already open. -/
def covers (inside : Nat) : List Token → List Bool
  | [] => []
  | t :: ts =>
    match inside with
    | n + 1 => true :: covers n ts
    | 0 =>
      match (if t.kind = .mark .less then close? 1 ts else none) with
      | some n => true :: covers n ts
      | none => false :: covers 0 ts

/-- The angle brackets that are marked are those in the lists of type arguments. -/
theorem marks_eq_covers (inside : Nat) (ts : List Token) :
    marks inside ts = (ts.zip (covers inside ts)).map fun p => p.2 && isAngle p.1.kind := by
  fun_induction covers inside ts with
  | case1 => rfl
  | case2 t ts n ih => simp [marks, ih]
  | case3 t ts n h ih =>
    have hangle : isAngle t.kind = true := by
      by_cases ht : t.kind = .mark .less
      · rw [ht]; rfl
      · simp [ht] at h
    simp only [marks, h, List.zip_cons_cons, List.map_cons, ih, hangle, Bool.and_self]
  | case4 t ts h ih => simp only [marks, h, List.zip_cons_cons, List.map_cons, ih, Bool.false_and]

end Angle

namespace Parser

open Excerpt

/-- The rule by which initializers are captured. -/
def initializerRule : CaptureRule := ⟨[Mark.comma, Mark.semicolon], true⟩

/-- The token at a place of a run stands outside of all brackets of the run. -/
def Outside (ts : List Token) (i : Nat) : Prop := openBrackets [] (ts.take i) = some []

instance (ts : List Token) (i : Nat) : Decidable (Outside ts i) :=
  inferInstanceAs (Decidable (openBrackets [] (ts.take i) = some []))

/-- A run of tokens that can be an initializer but for its commas: brackets are closed in order, and
outside of them there is no semicolon and no token that can only start something new. -/
structure Initializes (ts after : List Token) : Prop where
  nonempty : ts ≠ []
  balanced : (⟨ts⟩ : Excerpt).isBalanced = true
  valid : ∀ t ∈ ts, t.kind ≠ .invalid ∧ t.kind ≠ .endOfInput
  no_semicolon : ∀ i (h : i < ts.length), Outside ts i → ts[i].kind ≠ .mark .semicolon
  no_boundary : ∀ i (h : i < ts.length), Outside ts i →
    isBoundary (lastKind none (ts.take i)) ts[i].kind (kindOf (ts.drop (i + 1) ++ after)) = false

/-- No comma of a run stands outside of all brackets. -/
def CommaFree (ts : List Token) : Prop :=
  ∀ i (h : i < ts.length), Outside ts i → ts[i].kind ≠ .mark .comma

theorem closersAfter_nil_of_isCloser {k : Kind} (h : isCloser k = true) : closersAfter [] k = none := by
  cases k with
  | mark m => cases m <;> first | rfl | cases h
  | _ => cases h

/-- In a balanced run, a closing bracket stands inside the brackets that it closes. -/
theorem not_isCloser_of_isBalanced {front back : List Token} {t : Token}
    (h : (⟨front ++ t :: back⟩ : Excerpt).isBalanced = true) (hfront : openBrackets [] front = some []) :
    isCloser t.kind = false := by
  rw [isBalanced_iff, openBrackets_append, hfront] at h
  simp only [Option.bind_some, openBrackets, Option.bind_eq_some_iff] at h
  obtain ⟨inner, hinner, -⟩ := h
  cases hcloser : isCloser t.kind with
  | false => rfl
  | true => simp [closersAfter_nil_of_isCloser hcloser] at hinner

/-- Without a comma outside of its brackets, a run is passed over as a whole. -/
theorem Initializes.passesBy {ts after : List Token} (h : Initializes ts after)
    (hcomma : CommaFree ts) : PassesBy initializerRule [] none ts after := by
  rintro front t back rfl hopen
  have hlen : front.length < (front ++ t :: back).length := by simp
  have hout : Outside (front ++ t :: back) front.length := by simpa [Outside] using hopen
  have hstop : initializerRule.stops.contains t.kind = false := by
    have h1 := hcomma front.length hlen hout
    have h2 := h.no_semicolon front.length hlen hout
    simp only [List.getElem_append_right (Nat.le_refl _), Nat.sub_self, List.getElem_cons_zero] at h1 h2
    simp [initializerRule, h1, h2]
  have hbound := h.no_boundary front.length hlen hout
  simp only [List.getElem_append_right (Nat.le_refl _), Nat.sub_self, List.getElem_cons_zero,
    List.take_left, List.drop_length_add_append, List.drop_succ_cons, List.drop_zero] at hbound
  rw [endsBefore_eq, hstop, not_isCloser_of_isBalanced h.balanced hopen, hbound]
  rfl

theorem initializerRule_endsBefore_comma (p : Option Kind) (next : Kind) :
    initializerRule.endsBefore p (.mark .comma) next = true := rfl

theorem extent_semicolon {cap : Nat} {p : Option Kind} {t : Token} {r : List Token}
    (ht : t.kind = .mark .semicolon) : extent initializerRule cap [] p (t :: r) = (0, .complete) := by
  have hends : initializerRule.endsBefore p (.mark .semicolon) (kindOf r) = true := rfl
  simp [extent, ht, hends]

/-- A capture takes the whole of a run exactly when no comma stands outside of its brackets. -/
theorem Initializes.extent_eq_iff {ts r : List Token} {semi : Token} {cap : Nat}
    (h : Initializes ts (semi :: r)) (hsemi : semi.kind = .mark .semicolon) (hcap : ts.length ≤ cap) :
    extent initializerRule cap [] none (ts ++ semi :: r) = (ts.length, .complete) ↔ CommaFree ts := by
  constructor
  · intro hext i hi hout hcomma
    have hsplit : ts ++ semi :: r = ts.take i ++ ts[i] :: (ts.drop (i + 1) ++ semi :: r) := by
      rw [← List.cons_append, ← List.append_assoc, ← List.drop_eq_getElem_cons hi, List.take_append_drop]
    have hle : (extent initializerRule cap [] none (ts ++ semi :: r)).1 ≤ (ts.take i).length := by
      rw [hsplit]
      exact extent_le hout fun p next => by rw [hcomma]; exact initializerRule_endsBefore_comma p next
    rw [hext, List.length_take] at hle
    omega
  · intro hcomma
    exact extent_eq_complete (isBalanced_iff.mp h.balanced) (fun t ht => (h.valid t ht).1)
      (h.passesBy hcomma) hcap fun cap => extent_semicolon hsemi

/-- The state of a parser that stands on a name, `=`, a run of tokens and `;`. -/
def State.OnInitializer (s : State) (name equals : Token) (ts : List Token) (semi : Token)
    (r : List Token) : Prop :=
  s.rest = name :: equals :: (ts ++ semi :: r) ∧ name.kind = .identifier ∧
    equals.kind = .mark .assign ∧ semi.kind = .mark .semicolon

/-- Reading one variable with an initializer comes to reading the initializer. -/
theorem declarator_run {c : Settings} {s : State} {name equals semi : Token} {ts r : List Token}
    (h : s.OnInitializer name equals ts semi r) :
    declarator c s =
      (excerpt initializerRule "initializer" >>= fun e => spanFrom name.location >>= fun span =>
        pure (⟨name.lexeme, 0, some e, span⟩ : Declarator)) c ((s.skip 1).skip 1) := by
  obtain ⟨hrest, hname, hequals, -⟩ := h
  have hnext : s.next c = name := by simp [State.next, hrest]
  have hid : identifier c s = .ok name.lexeme (s.skip 1) := by
    simp [identifier_run, hrest, kindOf, hname, hnext]
  have hdims : dimensions (s.skip 1).rest = 0 := by
    cases ts <;> simp [hrest, dimensions, hequals]
  have haccept : accept Mark.assign c (s.skip 1) = .ok true ((s.skip 1).skip 1) := by
    simp [accept_run, hrest, kindOf, hequals]
  simp only [declarator, bind_run, here_run, hnext, hid, brackets_run, hdims, Nat.mul_zero, skip_zero,
    haccept, if_true, expression, initializerRule, pure_run]

/-- The first of the variables that are read is the one that stands first. -/
theorem declaratorList_head {c : Settings} {s s' : State} {n : Nat} {d : Declarator}
    {ds : List Declarator} (h : declaratorList (n + 1) c s = .ok (d :: ds) s') :
    ∃ t, declarator c s = .ok d t := by
  simp only [declaratorList, bind_eq_ok] at h
  obtain ⟨d', t, hd, more, u, -, h⟩ := h
  refine ⟨t, ?_⟩
  cases more with
  | true =>
    simp only [if_true, bind_eq_ok, pure_run] at h
    obtain ⟨ds', v, -, h⟩ := h
    cases h
    exact hd
  | false =>
    simp only [Bool.false_eq_true, if_false, pure_run] at h
    cases h
    exact hd

/-- A run of tokens behind a name and `=` is read as the initializer of a single variable exactly
when no comma stands outside of its brackets. -/
theorem declarators_eq_single_iff {c : Settings} {s : State} {name equals semi : Token}
    {ts r : List Token} (hs : s.OnInitializer name equals ts semi r)
    (hinit : Initializes ts (semi :: r)) (hcap : ts.length ≤ c.limits.excerptTokens) :
    (∃ d s', declarators c s = .ok [d] s' ∧ s'.rest = r ∧ d.name = name.lexeme ∧
      d.initializer.map (·.tokens) = some ts) ↔ CommaFree ts := by
  have hrest : ((s.skip 1).skip 1).rest = ts ++ semi :: r := by simp [hs.1]
  have hone := declarator_run (c := c) hs
  constructor
  · rintro ⟨d, s', hds, -, -, htokens⟩
    simp only [declarators, bind_eq_ok, steps_run, EStateM.Result.ok.injEq] at hds
    obtain ⟨_, _, ⟨rfl, rfl⟩, ds, t, hds, _, u, -, hpure⟩ := hds
    cases hpure
    obtain ⟨v, hd⟩ := declaratorList_head hds
    rw [hone, bind_eq_ok] at hd
    obtain ⟨e, w, he, hd⟩ := hd
    simp only [bind_run, spanFrom_run, pure_run] at hd
    cases hd
    obtain ⟨n, -, hx, rfl, rfl⟩ := excerpt_eq_ok.mp he
    rw [hrest] at hx htokens
    -- the excerpt is the whole run, so the capture reached to its end
    have htake : (ts ++ semi :: r).take n = ts := by simpa using htokens
    have hn : n = ts.length := by
      have hlen := congrArg List.length htake
      simp only [List.length_take, List.length_append, List.length_cons] at hlen
      omega
    rw [hn] at hx
    exact (hinit.extent_eq_iff hs.2.2.2 hcap).mp hx
  · intro hcomma
    have hx := (hinit.extent_eq_iff hs.2.2.2 hcap).mpr hcomma
    rw [← hrest] at hx
    have he : excerpt initializerRule "initializer" c ((s.skip 1).skip 1) =
        .ok ⟨ts⟩ (((s.skip 1).skip 1).skip ts.length) :=
      excerpt_eq_ok.mpr ⟨ts.length, by simpa using hinit.nonempty, hx, by simp [hs.1], rfl⟩
    have hbehind : (((s.skip 1).skip 1).skip ts.length).rest = semi :: r := by simp [hs.1]
    rw [bind_run_ok he, bind_run, spanFrom_run] at hone
    simp only [pure_run] at hone
    generalize ((s.skip 1).skip 1).skip ts.length = u at hone hbehind
    have hno : accept Mark.comma c u = .ok false u := by
      simp [accept_run, hbehind, kindOf, hs.2.2.2]
    have hend : ∀ what, require Mark.semicolon what c u = .ok () (u.skip 1) := by
      simp [require_run, hbehind, kindOf, hs.2.2.2]
    have hall : declarators c s =
        .ok [⟨name.lexeme, 0, some ⟨ts⟩, u.spanFrom c name.location⟩] (u.skip 1) := by
      simp only [declarators, bind_run, steps_run, declaratorList, hone, hno, hend, pure_run,
        Bool.false_eq_true, if_false]
    exact ⟨_, _, hall, by simp [hbehind], rfl, rfl⟩

/-- `new int[] { 1, 2 }`, with its comma inside braces. -/
def arrayInitializer : List Token :=
  [⟨.keyword .new_, "new", .start⟩, ⟨.keyword (.primitive .int), "int", .start⟩,
   ⟨.mark .openBracket, "[", .start⟩, ⟨.mark .closeBracket, "]", .start⟩,
   ⟨.mark .openBrace, "\x7b", .start⟩, ⟨.integer, "1", .start⟩, ⟨.mark .comma, ",", .start⟩,
   ⟨.integer, "2", .start⟩, ⟨.mark .closeBrace, "\x7d", .start⟩]

/-- `new Map<String, Integer>()`, with its comma between type arguments. -/
def genericInitializer : List Token :=
  [⟨.keyword .new_, "new", .start⟩, ⟨.identifier, "Map", .start⟩, ⟨.mark .less, "<", .start⟩,
   ⟨.identifier, "String", .start⟩, ⟨.mark .comma, ",", .start⟩, ⟨.identifier, "Integer", .start⟩,
   ⟨.mark .greater, ">", .start⟩, ⟨.mark .openParen, "(", .start⟩, ⟨.mark .closeParen, ")", .start⟩]

/-- A parser that stands on `m = … ;` with nothing behind it. -/
def onVariable (ts : List Token) : State where
  rest := ⟨.identifier, "m", .start⟩ :: ⟨.mark .assign, "=", .start⟩ ::
    (ts ++ [⟨.mark .semicolon, ";", .start⟩])
  last := none
  diagnostics := []
  journal := []

theorem declarators_arrayInitializer :
    Initializes arrayInitializer [⟨.mark .semicolon, ";", .start⟩] ∧
    ∃ d s', declarators plainSettings (onVariable arrayInitializer) = .ok [d] s' ∧ s'.rest = [] ∧
      d.name = "m" ∧ d.initializer.map (·.tokens) = some arrayInitializer := by
  have hinit : Initializes arrayInitializer [⟨.mark .semicolon, ";", .start⟩] :=
    ⟨by decide, by decide, by decide, by decide, by decide⟩
  have hfree : CommaFree arrayInitializer := by unfold CommaFree; decide
  have hcap : arrayInitializer.length ≤ plainSettings.limits.excerptTokens := by decide
  have hs : (onVariable arrayInitializer).OnInitializer ⟨.identifier, "m", .start⟩
      ⟨.mark .assign, "=", .start⟩ arrayInitializer ⟨.mark .semicolon, ";", .start⟩ [] :=
    ⟨rfl, rfl, rfl, rfl⟩
  exact ⟨hinit, (declarators_eq_single_iff hs hinit hcap).mpr hfree⟩

/-- The comma between the type arguments of `new Map<String, Integer>()` splits the initializer,
although it stands in a list of type arguments that the writer of tokens sees. -/
theorem declarators_genericInitializer :
    Initializes genericInitializer [⟨.mark .semicolon, ";", .start⟩] ∧
    (∀ i (h : i < genericInitializer.length), Outside genericInitializer i →
      genericInitializer[i].kind = .mark .comma →
        (Angle.covers 0 genericInitializer)[i]? = some true) ∧
    ∀ ds s', declarators plainSettings (onVariable genericInitializer) ≠ .ok ds s' := by
  refine ⟨⟨by decide, by decide, by decide, by decide, by decide⟩, by decide, ?_⟩
  intro ds s' h
  have hfails : (match declarators plainSettings (onVariable genericInitializer) with
      | .ok _ _ => true
      | .error _ _ => false) = false := by rfl
  rw [h] at hfails
  cases hfails

end Parser

end JavaTree
