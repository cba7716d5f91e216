import JavaTree.Proofs.Parser.Blocks
import JavaTree.Proofs.Reread.Types

/-!
Looking ahead over a type, and reading it.

The look ahead decides what is read, so it must pass over the tokens that are taken afterwards. It is
the stricter one: it refuses a list of type arguments with a token that stands in no type, where
reading goes on up to the bracket that closes the list. With the cap it is the other way round: the
bracket that closes a list may be one token behind the cap, and reading stops at it.

    tokens            look ahead   reading
    A<B[]>.C[] x      up to `x`    up to `x`
    A<B, C<D>>> x     up to `x`    up to `x`
    A<B - C> x        no type      up to `x`
    A<B; C> x         no type      stops at `;`
    A<B> x, cap two   up to `x`    stops at `>`
-/

namespace JavaTree.Parser

variable {α β : Type} {c : Settings} {s s' : State} {cap : Nat} {ts more : List Token}

/-! ### One list -/

/-- A list that is passed over is captured, unless it is too long. It has only tokens of types. -/
theorem angleExtent_of_afterAngle? {depth : Int} (h : afterAngle? cap depth ts = some more) :
    (angleExtent cap depth ts).2 = .overLong ∨
      ∃ n, angleExtent cap depth ts = (n, .complete) ∧ ts.drop n = more := by
  fun_induction afterAngle? cap depth ts with
  | case1 => cases h
  | case2 cap depth t ts hin d hclosed =>
    cases h
    rw [angleExtent.eq_def]
    simp only [Angle.not_endsAngle hin, Bool.false_eq_true, if_false]
    cases cap with
    | zero => exact .inl rfl
    | succ room => exact .inr ⟨1, if_pos hclosed, rfl⟩
  | case3 => cases h
  | case4 depth t ts hin d hopen room ih =>
    rw [angleExtent.eq_def]
    simp only [Angle.not_endsAngle hin, Bool.false_eq_true, if_false]
    rw [if_neg hopen]
    rcases ih h with hlong | ⟨n, hn, hmore⟩
    · exact .inl hlong
    · exact .inr ⟨n + 1, by rw [hn], hmore⟩
  | case5 => cases h

/-- A list that is captured is passed over if all its tokens can stand in a type, and refused if one
cannot. -/
theorem afterAngle?_of_angleExtent {depth : Int} (h : (angleExtent cap depth ts).2 = .complete) :
    afterAngle? cap depth ts =
      if ∀ t ∈ ts.take (angleExtent cap depth ts).1, Angle.isInType t.kind = true then
        some (ts.drop (angleExtent cap depth ts).1)
      else none := by
  fun_induction angleExtent cap depth ts with
  | case1 | case2 | case3 => cases h
  | case4 depth t ts hends room d hclosed =>
    rw [afterAngle?.eq_def]
    simp only [List.take_succ_cons, List.take_zero, List.mem_singleton, forall_eq, List.drop_succ_cons,
      List.drop_zero]
    rw [if_pos hclosed]
  | case5 depth t ts hends room d hopen n e hrest ih =>
    rw [hrest] at ih
    rw [afterAngle?.eq_def]
    simp only [List.take_succ_cons, List.mem_cons, forall_eq_or_imp, List.drop_succ_cons]
    by_cases hin : Angle.isInType t.kind = true
    · rw [if_pos hin, if_neg hopen, ih h]
      simp only [hin, true_and]
    · rw [if_neg hin, if_neg fun hall => hin hall.1]

/-! ### The lists that a type captures -/

/-- The list of type arguments that is captured at the start, if there is one. -/
def captured (cap : Nat) (ts : List Token) : List Token :=
  if kindOf ts = .mark .less then ts.take (angleExtent cap 0 ts).1 else []

/-- The lists that are captured behind the first word of a type's name, one for each of its words. -/
def capturedLists (cap : Nat) : Nat → List Token → List (List Token)
  | 0, _ => []
  | n + 1, ts =>
    let more := ts.drop (captured cap ts).length
    captured cap ts ::
      if startsWith Mark.dot .identifier more then capturedLists cap n (more.drop 2) else []

/-- The lists that are captured in the type at the start. A built-in type has none. -/
def typeLists (cap : Nat) : List Token → List (List Token)
  | [] => []
  | t :: ts => if t.kind = .identifier then capturedLists cap (ts.length + 1) ts else []

/-- Lists whose tokens can all stand between the angle brackets of a type. -/
def AreInType (lists : List (List Token)) : Prop :=
  ∀ list ∈ lists, ∀ t ∈ list, Angle.isInType t.kind = true

instance (lists : List (List Token)) : Decidable (AreInType lists) :=
  inferInstanceAs (Decidable (∀ list ∈ lists, ∀ t ∈ list, Angle.isInType t.kind = true))

@[simp] theorem areInType_nil : AreInType [] := by simp [AreInType]

/-- A look ahead foretells a reading that captures the given lists. Where it passes over some tokens,
the reading goes as far, or stops at a list that is too long. Where the reading has a result, the
look ahead passes over the same tokens, unless one of them cannot stand in the lists of a type. -/
structure Foretells (cap : Nat) (ahead : Option (List Token)) (lists : List (List Token))
    (r : EStateM.Result Diagnostic State α) : Prop where
  forth : ∀ more, ahead = some more → (∃ a s', r = .ok a s' ∧ s'.rest = more) ∨
    ∃ l s', r = .error (.limitExceeded "tokens in a generic argument list" cap l) s'
  back : ∀ a s', r = .ok a s' → ahead = if AreInType lists then some s'.rest else none

namespace Foretells

theorem ok {lists : List (List Token)} (h : AreInType lists) {a : α} :
    Foretells cap (some s.rest) lists (.ok a s) where
  forth := by
    rintro more ⟨⟩
    exact .inl ⟨a, s, rfl, rfl⟩
  back := by
    rintro a s' ⟨⟩
    rw [if_pos h]

theorem error {lists : List (List Token)} {d : Diagnostic} :
    Foretells cap none lists (.error d s : EStateM.Result Diagnostic State α) :=
  ⟨nofun, nofun⟩

/-- What is ahead of a sequence is ahead of its first part and then of its second part. -/
theorem bind {ahead : Option (List Token)} {next : List Token → Option (List Token)}
    {lists further : List (List Token)} {p : Parser α} {f : α → Parser β}
    (hp : Foretells cap ahead lists (p c s))
    (hf : ∀ a s', p c s = .ok a s' → Foretells cap (next s'.rest) further (f a c s')) :
    Foretells cap (ahead.bind next) (lists ++ further) ((p >>= f) c s) where
  forth := by
    intro more hmore
    obtain ⟨mid, hmid, hmore⟩ := Option.bind_eq_some_iff.mp hmore
    rcases hp.forth mid hmid with ⟨a, s', hok, rfl⟩ | ⟨l, s', herror⟩
    · rw [bind_run_ok hok]
      exact (hf a s' hok).forth more hmore
    · exact .inr ⟨l, s', bind_run_error herror f⟩
  back := by
    intro b s'' hok
    obtain ⟨a, s', hfirst, hsecond⟩ := bind_eq_ok.mp hok
    have hin : AreInType (lists ++ further) ↔ AreInType lists ∧ AreInType further :=
      List.forall_mem_append
    rw [hp.back a s' hfirst]
    by_cases hlists : AreInType lists
    · rw [if_pos hlists, Option.bind_some, (hf a s' hfirst).back b s'' hsecond]
      simp only [hin, hlists, true_and]
    · rw [if_neg hlists, Option.bind_none, if_neg fun hall => hlists (hin.mp hall).1]

/-- A sequence whose second part looks at no more tokens. -/
theorem bind_pure {ahead : Option (List Token)} {lists : List (List Token)} {p : Parser α} {f : α → β}
    (hp : Foretells cap ahead lists (p c s)) :
    Foretells cap ahead lists ((p >>= fun a => pure (f a)) c s) := by
  have h : Foretells cap (ahead.bind some) (lists ++ []) ((p >>= fun a => pure (f a)) c s) :=
    hp.bind fun _ _ _ => ok areInType_nil
  rwa [Option.bind_fun_some, List.append_nil] at h

end Foretells

/-! ### Names and types -/

theorem foretells_angleText (hless : kindOf s.rest = .mark .less) :
    Foretells c.limits.excerptTokens (afterAngle? c.limits.excerptTokens 0 s.rest)
      [captured c.limits.excerptTokens s.rest] (angleText c s) where
  forth := by
    intro more hmore
    rw [angleText_run]
    rcases angleExtent_of_afterAngle? hmore with hlong | ⟨n, hn, hdrop⟩
    · rw [hlong]
      exact .inr ⟨_, _, rfl⟩
    · rw [hn]
      exact .inl ⟨_, _, rfl, hdrop⟩
  back := by
    intro x s' hok
    obtain ⟨n, hx, rfl, rfl⟩ := angleText_eq_ok hok
    rw [afterAngle?_of_angleExtent (by rw [hx]), captured, if_pos hless, hx]
    simp only [AreInType, List.mem_singleton, forall_eq, skip_rest]

/-- The name that is known so far, with the list behind it if there is one. -/
def namedArguments (known : String) : Parser String := do
  if ← check Mark.less then return known ++ (← angleText) else return known

theorem foretells_namedArguments (known : String) :
    Foretells c.limits.excerptTokens (afterArguments? c.limits.excerptTokens s.rest)
      [captured c.limits.excerptTokens s.rest] (namedArguments known c s) := by
  rw [namedArguments, bind_run_ok (check_run _), ite_run, afterArguments?]
  simp only [decide_eq_true_eq]
  split
  · next hless => exact (foretells_angleText hless).bind_pure
  · next hless =>
    rw [captured, if_neg hless]
    exact .ok (by simp [AreInType])

theorem rest_of_angleText {x : String} (hok : angleText c s = .ok x s') :
    s'.rest = s.rest.drop (s.rest.take (angleExtent c.limits.excerptTokens 0 s.rest).1).length := by
  obtain ⟨n, hx, rfl, rfl⟩ := angleText_eq_ok hok
  rw [skip_rest, hx, List.length_take]
  rcases Nat.le_total n s.rest.length with hle | hle
  · rw [Nat.min_eq_left hle]
  · rw [Nat.min_eq_right hle, List.drop_length, List.drop_of_length_le hle]

/-- Behind a name and its list stand the tokens behind what was captured. -/
theorem rest_of_namedArguments {known x : String} (hok : namedArguments known c s = .ok x s') :
    s'.rest = s.rest.drop (captured c.limits.excerptTokens s.rest).length := by
  rw [namedArguments, bind_run_ok (check_run _), ite_run] at hok
  simp only [decide_eq_true_eq] at hok
  rw [captured]
  split at hok
  · next hless =>
    obtain ⟨y, t, hangle, hpure⟩ := bind_eq_ok.mp hok
    cases hpure
    rw [if_pos hless, rest_of_angleText hangle]
  · next hless =>
    cases hok
    rw [if_neg hless, List.length_nil, List.drop_zero]

theorem typeName_succ (known : String) (n : Nat) : typeName known (n + 1) = (do
    let named ← namedArguments known
    if startsWith Mark.dot .identifier (← rest) then
      skip 1
      typeName (named ++ "." ++ (← identifier)) n
    else
      return named) := by
  funext c s
  rw [typeName, namedArguments, bind_assoc, bind_run_ok (check_run _), bind_run_ok (check_run _)]
  split
  · simp only [bind_assoc, pure_bind]
  · simp only [pure_bind]

/-- The rest of a name, word by word. -/
theorem foretells_typeName (known : String) (n : Nat) :
    Foretells c.limits.excerptTokens (afterName? c.limits.excerptTokens n s.rest)
      (capturedLists c.limits.excerptTokens n s.rest) (typeName known n c s) := by
  induction n generalizing known s with
  | zero => exact .ok areInType_nil
  | succ n ih =>
    rw [typeName_succ, afterName?, capturedLists, ← List.singleton_append]
    refine (foretells_namedArguments known).bind fun named s₁ hnamed => ?_
    rw [← rest_of_namedArguments hnamed, bind_run_ok rest_run, ite_run]
    split
    · next hdot =>
      have hname : kindOf (s₁.skip 1).rest = .identifier := secondKind_of_startsWith hdot
      have hread : identifier c (s₁.skip 1) = .ok ((s₁.skip 1).next c).lexeme ((s₁.skip 1).skip 1) := by
        rw [identifier_run, if_pos hname]
      rw [bind_run_ok (skip_run 1), bind_run_ok hread, skip_skip]
      have hbehind : (s₁.skip 2).rest = s₁.rest.drop 2 := rfl
      rw [← hbehind]
      exact ih _
    · exact .ok areInType_nil

theorem afterType?_primitive (h : (kindOf ts).isPrimitive = true) :
    afterType? cap ts = some ((ts.drop 1).drop (2 * dimensions (ts.drop 1))) ∧ typeLists cap ts = [] := by
  rcases ts with _ | ⟨t, ts⟩
  · cases h
  · have hname : t.kind ≠ .identifier := by
      intro hname
      rw [kindOf, hname] at h
      cases h
    rw [kindOf] at h
    rw [afterType?, typeLists, if_pos h, if_neg hname]
    exact ⟨rfl, rfl⟩

theorem afterType?_named (h : kindOf ts = .identifier) :
    afterType? cap ts = (afterName? cap ((ts.drop 1).length + 1) (ts.drop 1)).bind (fun more =>
      some (more.drop (2 * dimensions more))) ∧
    typeLists cap ts = capturedLists cap ((ts.drop 1).length + 1) (ts.drop 1) := by
  rcases ts with _ | ⟨t, ts⟩
  · cases h
  · rw [kindOf] at h
    have hprimitive : ¬ t.kind.isPrimitive = true := by
      rw [h]
      decide
    rw [afterType?, typeLists, if_neg hprimitive, if_pos h, if_pos h, Option.map_eq_bind]
    exact ⟨rfl, rfl⟩

theorem afterType?_eq_none (hprimitive : ¬ (kindOf ts).isPrimitive = true)
    (hname : ¬ kindOf ts = .identifier) : afterType? cap ts = none := by
  rcases ts with _ | ⟨t, ts⟩
  · rfl
  · rw [kindOf] at hprimitive hname
    rw [afterType?, if_neg hprimitive, if_neg hname, Option.map_none]

/-- A type ends with the brackets behind its name. -/
theorem foretells_ended (start : Location) (name : String) :
    Foretells cap (some (s.rest.drop (2 * dimensions s.rest))) [] ((do
      let n ← brackets
      return ⟨name, n, ← spanFrom start⟩ : Parser TypeUse) c s) := by
  rw [bind_run_ok brackets_run, bind_run_ok (spanFrom_run _), pure_run, ← skip_rest]
  exact .ok areInType_nil

theorem foretells_typeUse :
    Foretells c.limits.excerptTokens (afterType? c.limits.excerptTokens s.rest)
      (typeLists c.limits.excerptTokens s.rest) (typeUse c s) := by
  rw [typeUse, bind_run_ok here_run, bind_run_ok peek_run, ite_run, ite_run]
  simp only [next_kind]
  split
  · next hprimitive =>
    obtain ⟨hafter, hlists⟩ := afterType?_primitive hprimitive
    rw [hafter, hlists, bind_run_ok (skip_run 1), pure_bind, ← skip_rest]
    exact foretells_ended _ _
  · next hprimitive =>
    split
    · next hname =>
      have hread : identifier c s = .ok (s.next c).lexeme (s.skip 1) := by
        rw [identifier_run, if_pos hname]
      obtain ⟨hafter, hlists⟩ := afterType?_named hname
      rw [hafter, hlists, bind_run_ok hread, bind_run_ok steps_run, ← skip_rest,
        ← List.append_nil (capturedLists _ _ _)]
      exact (foretells_typeName _ _).bind fun name s' _ => foretells_ended _ name
    · next hname =>
      rw [afterType?_eq_none hprimitive hname, bind_run, fail_run]
      exact .error

/-- Looking ahead over a type agrees with reading it. Where the look ahead passes over some tokens,
reading a type there ends behind the same tokens, or stops at a list of type arguments that is too
long. Where reading has a result, the look ahead passes over the same tokens, unless a list that was
captured holds a token that stands in no type: then it finds no type. -/
theorem typeUse_foretold (c : Settings) (s : State) :
    (∀ more, afterType? c.limits.excerptTokens s.rest = some more →
      (∃ t s', typeUse c s = .ok t s' ∧ s'.rest = more) ∨
        ∃ l s', typeUse c s = .error
          (.limitExceeded "tokens in a generic argument list" c.limits.excerptTokens l) s') ∧
    ∀ t s', typeUse c s = .ok t s' → afterType? c.limits.excerptTokens s.rest =
      if AreInType (typeLists c.limits.excerptTokens s.rest) then some s'.rest else none :=
  ⟨foretells_typeUse.forth, foretells_typeUse.back⟩

/-- The tokens of a list and of a name behind it, the list with the given token in its middle. -/
def listTokens (m : Mark) : List Token :=
  [⟨.identifier, "A", .start⟩, ⟨.mark .less, "<", .start⟩, ⟨.identifier, "B", .start⟩,
    ⟨.mark m, String.ofList m.chars, .start⟩, ⟨.identifier, "C", .start⟩, ⟨.mark .greater, ">", .start⟩,
    ⟨.identifier, "x", .start⟩]

/-- A list with a comma is passed over and read. A list with a minus is read, and refused by the look
ahead. -/
theorem typeUse_foretold_lists :
    (∃ t s', typeUse plainSettings ⟨listTokens .comma, none, [], []⟩ = .ok t s' ∧
      s'.rest = (listTokens .comma).drop 6) ∧
    afterType? plainSettings.limits.excerptTokens (listTokens .minus) = none := by
  constructor
  · rcases (typeUse_foretold plainSettings ⟨listTokens .comma, none, [], []⟩).1 _ rfl with h | ⟨_, _, h⟩
    · exact h
    · cases h
  · rw [(typeUse_foretold plainSettings ⟨listTokens .minus, none, [], []⟩).2 _ _ rfl]
    exact if_neg (by decide)

end JavaTree.Parser
