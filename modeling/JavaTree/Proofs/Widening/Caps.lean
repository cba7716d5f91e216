import JavaTree.Proofs.Parser.Extension

/-!
What a cap does to a capture and to the look ahead.

A capture that comes to the cap says so, and one that does not takes as many tokens with a wider cap.
The look ahead says nothing: a type whose list of type arguments is too long for the cap is no type to
it. So what is recognised with a cap is recognised with a wider one, but not the other way round, and
`TypesFit` says of a text that the other way round holds in it, too.

    tokens        List  <  A  ,  B  >  x  ;
    cap of five   a type, a name and `;`
    cap of three  no type
-/

namespace JavaTree

/-- Limits of which none is above the one of the same sort among other limits. -/
structure Limits.Within (narrow wide : Limits) : Prop where
  blockStatements : narrow.blockStatements ≤ wide.blockStatements
  excerptTokens : narrow.excerptTokens ≤ wide.excerptTokens
  typeMembers : narrow.typeMembers ≤ wide.typeMembers
  nesting : narrow.nesting ≤ wide.nesting

/-- The finding that a cap was reached. -/
def Diagnostic.isLimit : Diagnostic → Bool
  | .limitExceeded .. => true
  | _ => false

theorem Diagnostic.isRecoverable_of_isLimit {d : Diagnostic} (h : d.isLimit = true) :
    d.isRecoverable = true := by
  cases d with
  | limitExceeded => rfl
  | _ => cases h

namespace Parser

variable {α β : Type} {cap wide : Nat} {ts us : List Token}

/-! ### Looking ahead -/

theorem afterAngle?_widen {depth : Int} (hle : cap ≤ wide) (h : afterAngle? cap depth ts = some us) :
    afterAngle? wide depth ts = some us := by
  obtain ⟨more, rfl⟩ := Nat.exists_eq_add_of_le hle
  fun_induction afterAngle? cap depth ts with
  | case1 => cases h
  | case2 cap depth t ts hin d hclosed =>
    rw [afterAngle?.eq_def]
    dsimp only
    rw [if_pos hin, if_pos hclosed, h]
  | case3 => cases h
  | case4 depth t ts hin d hopen room ih =>
    rw [Nat.succ_add, afterAngle?, if_pos hin]
    dsimp only
    rw [if_neg hopen]
    exact ih h (Nat.le_add_right _ _)
  | case5 => cases h

theorem afterArguments?_widen (hle : cap ≤ wide) (h : afterArguments? cap ts = some us) :
    afterArguments? wide ts = some us := by
  unfold afterArguments? at h ⊢
  split at h
  · next hless => rw [if_pos hless, afterAngle?_widen hle h]
  · next hless => rw [if_neg hless, h]

theorem afterName?_widen {n : Nat} (hle : cap ≤ wide) (h : afterName? cap n ts = some us) :
    afterName? wide n ts = some us := by
  induction n generalizing ts with
  | zero => exact h
  | succ n ih =>
    rw [afterName?] at h ⊢
    obtain ⟨more, hmore, h⟩ := Option.bind_eq_some_iff.mp h
    rw [afterArguments?_widen hle hmore, Option.bind_some]
    split
    · next hdot =>
      rw [if_pos hdot] at h
      exact ih h
    · next hdot =>
      rw [if_neg hdot] at h
      exact h

/-- A type that is recognised is recognised as far with a wider cap. -/
theorem afterType?_widen (hle : cap ≤ wide) (h : afterType? cap ts = some us) :
    afterType? wide ts = some us := by
  obtain _ | ⟨t, ts⟩ := ts
  · cases h
  · rw [afterType?] at h ⊢
    obtain ⟨more, hmore, rfl⟩ := Option.map_eq_some_iff.mp h
    split at hmore
    · next hprimitive => rw [if_pos hprimitive, hmore, Option.map_some]
    · next hprimitive =>
      rw [if_neg hprimitive]
      split at hmore
      · next hname => rw [if_pos hname, afterName?_widen hle hmore, Option.map_some]
      · cases hmore

/-- Wherever a type stands among some tokens, it is recognised with the one cap if it is with the
other one: none has a list of type arguments that is too long for the first cap only. Every place counts,
also one inside of an expression or a header, where a reader does not look ahead. -/
def TypesFit (cap wide : Nat) (ts : List Token) : Prop :=
  ∀ n < ts.length, (afterType? wide (ts.drop n)).isSome → (afterType? cap (ts.drop n)).isSome

instance : Decidable (TypesFit cap wide ts) :=
  inferInstanceAs (Decidable (∀ n < ts.length,
    (afterType? wide (ts.drop n)).isSome → (afterType? cap (ts.drop n)).isSome))

theorem TypesFit.of_suffix (h : TypesFit cap wide ts) (hus : us <:+ ts) : TypesFit cap wide us := by
  obtain ⟨pre, rfl⟩ := hus
  intro n hn
  have hfits := h (pre.length + n) (by rw [List.length_append]; omega)
  rwa [← List.drop_drop, List.drop_left] at hfits

section Fit

variable (hle : cap ≤ wide) (h : TypesFit cap wide ts)

include hle h

theorem TypesFit.afterType? : afterType? cap ts = afterType? wide ts := by
  cases hwide : Parser.afterType? wide ts with
  | none =>
    cases hcap : Parser.afterType? cap ts with
    | none => rfl
    | some more => exact absurd (afterType?_widen hle hcap) (by rw [hwide]; nofun)
  | some more =>
    have hne : ts ≠ [] := by
      rintro rfl
      cases hwide
    have hsome := h 0 (List.length_pos_iff.mpr hne) (by rw [List.drop_zero, hwide]; rfl)
    obtain ⟨us, hus⟩ := Option.isSome_iff_exists.mp hsome
    rw [List.drop_zero] at hus
    rw [hus, ← hwide, afterType?_widen hle hus]

theorem TypesFit.looksLikeMethod : looksLikeMethod cap ts = looksLikeMethod wide ts := by
  rw [Parser.looksLikeMethod, Parser.looksLikeMethod, h.afterType? hle]

theorem TypesFit.looksLikeVariable : looksLikeVariable cap ts = looksLikeVariable wide ts := by
  rw [Parser.looksLikeVariable, Parser.looksLikeVariable, h.afterType? hle]

theorem TypesFit.looksLikeMember : looksLikeMember cap ts = looksLikeMember wide ts := by
  rw [Parser.looksLikeMember, Parser.looksLikeMember, h.afterType? hle]

theorem TypesFit.memberRest (atStart : Bool) (depth : Nat) :
    memberRest cap atStart depth ts = memberRest wide atStart depth ts := by
  induction ts generalizing atStart depth with
  | nil => rfl
  | cons t ts ih =>
    have htail := h.of_suffix (List.suffix_cons t ts)
    rw [Parser.memberRest, Parser.memberRest, h.looksLikeMember hle, ih htail, ih htail, ih htail]

end Fit

/-! ### Captures -/

/-- An excerpt that does not come to the cap takes as much with a wider one. -/
theorem extent_widen {rule : CaptureRule} {closers : List Mark} {previous : Option Kind}
    (hle : cap ≤ wide) (h : (extent rule cap closers previous ts).2 ≠ .overLong) :
    extent rule wide closers previous ts = extent rule cap closers previous ts := by
  obtain ⟨more, rfl⟩ := Nat.exists_eq_add_of_le hle
  fun_induction extent rule cap closers previous ts with
  | case1 => rw [extent]
  | case2 cap closers previous t ts hk => rw [extent, if_pos hk]
  | case3 cap closers previous t ts hk hends => rw [extent, if_neg hk, if_pos hends]
  | case4 cap closers previous t ts hk hends hnone => rw [extent, if_neg hk, if_neg hends, hnone]
  | case5 => exact absurd rfl h
  | case6 closers previous t ts hk hends inner hinner room n e hrec ih =>
    rw [hrec] at ih
    rw [Nat.succ_add, extent, if_neg hk, if_neg hends, hinner]
    simp only [ih h (Nat.le_add_right _ _)]

/-- A list of type arguments that does not come to the cap takes as much with a wider one. -/
theorem angleExtent_widen {depth : Int} (hle : cap ≤ wide)
    (h : (angleExtent cap depth ts).2 ≠ .overLong) :
    angleExtent wide depth ts = angleExtent cap depth ts := by
  obtain ⟨more, rfl⟩ := Nat.exists_eq_add_of_le hle
  fun_induction angleExtent cap depth ts with
  | case1 => rw [angleExtent.eq_def]
  | case2 cap depth t ts hends =>
    rw [angleExtent.eq_def]
    exact if_pos hends
  | case3 => exact absurd rfl h
  | case4 depth t ts hends room d hclosed =>
    rw [Nat.succ_add, angleExtent, if_neg hends]
    exact if_pos hclosed
  | case5 depth t ts hends room d hopen n e hrec ih =>
    rw [hrec] at ih
    have hrest := ih h (Nat.le_add_right _ _)
    rw [Nat.succ_add, angleExtent, if_neg hends]
    dsimp only
    rw [if_neg hopen, hrest]

end Parser

end JavaTree
