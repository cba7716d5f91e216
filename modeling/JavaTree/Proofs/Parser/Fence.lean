import JavaTree.Parser.Capture

/-!
Looking ahead up to a fence.

A type and an excerpt never reach over the brace that closes the body around them, nor over the
semicolon at the end of their clause. As long as such a fence is ahead, it makes no difference to what
lies before it whether the text ends behind it or goes on, however far ahead a reader looks.

    tokens:    String  name  ;  }   more ...
               ^ looks like a variable, with or without the rest
-/

namespace JavaTree.Parser

/-- A token that ends a body or a clause. -/
def isFence : Kind → Bool
  | .mark .closeBrace | .mark .semicolon => true
  | _ => false

/-- A list of tokens with a fence. -/
def Fenced (ts : List Token) : Prop := ∃ t ∈ ts, isFence t.kind = true

variable {ts us : List Token} {t : Token} {n : Nat}

theorem Fenced.ne_nil (h : Fenced ts) : ts ≠ [] := by
  obtain ⟨t, ht, -⟩ := h
  exact List.ne_nil_of_mem ht

theorem Fenced.of_suffix (h : Fenced us) (hus : us <:+ ts) : Fenced ts := by
  obtain ⟨t, ht, hk⟩ := h
  exact ⟨t, hus.mem ht, hk⟩

theorem Fenced.lt_length (h : Fenced (ts.drop n)) : n < ts.length := by
  have hne := h.ne_nil
  rw [Ne, List.drop_eq_nil_iff] at hne
  exact Nat.lt_of_not_le hne

/-- Behind a token that is no fence, there still is one. -/
theorem Fenced.tail (h : Fenced (t :: ts)) (hk : isFence t.kind = false) : Fenced ts := by
  obtain ⟨u, hu, huk⟩ := h
  rcases List.mem_cons.mp hu with rfl | hu
  · rw [hk] at huk
    cases huk
  · exact ⟨u, hu, huk⟩

theorem fenced_of_kindOf (h : isFence (kindOf ts) = true) : Fenced ts := by
  cases ts with
  | nil => cases h
  | cons t ts => exact ⟨t, List.mem_cons_self, h⟩

section More

variable (more : List Token)

theorem kindOf_append (h : ts ≠ []) : kindOf (ts ++ more) = kindOf ts := by
  cases ts with
  | nil => exact absurd rfl h
  | cons t ts => rfl

theorem Fenced.kindOf_append (h : Fenced ts) : kindOf (ts ++ more) = kindOf ts :=
  JavaTree.Parser.kindOf_append more h.ne_nil

/-- The token behind one that is no fence. -/
theorem Fenced.kindOf_drop_append (h : Fenced ts) (hk : isFence (kindOf ts) = false) :
    kindOf ((ts ++ more).drop 1) = kindOf (ts.drop 1) := by
  cases ts with
  | nil => exact absurd rfl h.ne_nil
  | cons t ts => exact (h.tail hk).kindOf_append more

theorem startsWith_append {a b : Kind} (h : Fenced ts) (ha : isFence a = false) :
    startsWith a b (ts ++ more) = startsWith a b ts := by
  rcases ts with _ | ⟨t, _ | ⟨u, us⟩⟩
  · exact absurd rfl h.ne_nil
  · have hne : t.kind ≠ a := by
      rintro rfl
      exact absurd rfl (h.tail ha).ne_nil
    cases more with
    | nil => rfl
    | cons u us => simp [startsWith, hne]
  · rfl

theorem furtherNames_append (h : Fenced ts) : furtherNames (ts ++ more) = furtherNames ts := by
  induction ts using furtherNames.induct with
  | case1 d t ts hk ih =>
    have htail : Fenced ts := (h.tail (by rw [hk.1]; rfl)).tail (by rw [hk.2]; rfl)
    simp only [List.cons_append, furtherNames, if_pos hk, ih htail]
  | case2 d t ts hk => simp only [List.cons_append, furtherNames, if_neg hk]
  | case3 ts hshort =>
    rcases ts with _ | ⟨d, _ | ⟨u, us⟩⟩
    · exact absurd rfl h.ne_nil
    · have hne : ¬ d.kind = .mark .dot := fun hd => (h.tail (by rw [hd]; rfl)).ne_nil rfl
      cases more with
      | nil => rfl
      | cons u us => simp [furtherNames, hne]
    · exact absurd rfl (hshort d u us)

theorem dimensions_append (h : Fenced ts) : dimensions (ts ++ more) = dimensions ts := by
  induction ts using dimensions.induct with
  | case1 a b ts hk ih =>
    have htail : Fenced ts := (h.tail (by rw [hk.1]; rfl)).tail (by rw [hk.2]; rfl)
    simp only [List.cons_append, dimensions, if_pos hk, ih htail]
  | case2 a b ts hk => simp only [List.cons_append, dimensions, if_neg hk]
  | case3 ts hshort =>
    rcases ts with _ | ⟨a, _ | ⟨u, us⟩⟩
    · exact absurd rfl h.ne_nil
    · have hne : ¬ a.kind = .mark .openBracket := fun ha => (h.tail (by rw [ha]; rfl)).ne_nil rfl
      cases more with
      | nil => rfl
      | cons u us => simp [dimensions, hne]
    · exact absurd rfl (hshort a u us)

omit more in
/-- The fence is behind the brackets that are counted. -/
theorem Fenced.drop_dimensions (h : Fenced ts) : Fenced (ts.drop (2 * dimensions ts)) := by
  induction ts using dimensions.induct with
  | case1 a b ts hk ih =>
    have htail : Fenced ts := (h.tail (by rw [hk.1]; rfl)).tail (by rw [hk.2]; rfl)
    simpa only [dimensions, if_pos hk, Nat.mul_add, List.drop_succ_cons] using ih htail
  | case2 a b ts hk =>
    rw [dimensions, if_neg hk]
    exact h
  | case3 ts hshort =>
    rw [dimensions]
    · exact h
    · exact hshort

theorem drop_dimensions_append (h : Fenced ts) :
    (ts ++ more).drop (2 * dimensions (ts ++ more)) = ts.drop (2 * dimensions ts) ++ more := by
  rw [dimensions_append more h,
    List.drop_append_of_le_length (Nat.le_of_lt (h.drop_dimensions).lt_length)]

/-! ### Types -/

theorem isFence_of_isInType {k : Kind} (h : Angle.isInType k = true) : isFence k = false := by
  unfold isFence
  split
  · cases h
  · cases h
  · rfl

/-- What follows a list of type arguments is followed by more, and the fence is behind the list. -/
theorem afterAngle?_append (cap : Nat) (depth : Int) (h : Fenced ts) :
    afterAngle? cap depth (ts ++ more) = (afterAngle? cap depth ts).map (· ++ more) ∧
      ∀ us, afterAngle? cap depth ts = some us → Fenced us := by
  induction ts generalizing cap depth with
  | nil => exact absurd rfl h.ne_nil
  | cons t ts ih =>
    rw [List.cons_append, afterAngle?, afterAngle?]
    cases hin : Angle.isInType t.kind with
    | false => exact ⟨rfl, nofun⟩
    | true =>
      have htail := h.tail (isFence_of_isInType hin)
      by_cases hd : depth + Angle.weight t.kind ≤ 0
      · rw [if_pos rfl, if_pos rfl, if_pos hd, if_pos hd]
        exact ⟨rfl, fun us hus => Option.some.inj hus ▸ htail⟩
      · cases cap with
        | zero => simp [hd]
        | succ room =>
          rw [if_pos rfl, if_pos rfl, if_neg hd, if_neg hd]
          exact ih room _ htail

theorem afterArguments?_append (cap : Nat) (h : Fenced ts) :
    afterArguments? cap (ts ++ more) = (afterArguments? cap ts).map (· ++ more) ∧
      ∀ us, afterArguments? cap ts = some us → Fenced us := by
  rw [afterArguments?, afterArguments?, h.kindOf_append]
  split
  · exact afterAngle?_append more cap 0 h
  · exact ⟨rfl, fun us hus => Option.some.inj hus ▸ h⟩

theorem afterAngle?_length {cap : Nat} {depth : Int} (h : afterAngle? cap depth ts = some us) :
    us.length < ts.length := by
  fun_induction afterAngle? cap depth ts with
  | case2 cap depth t ts hin d hd =>
    cases h
    exact Nat.lt_succ_self _
  | case4 depth t ts hin d hd room ih => exact Nat.lt_succ_of_lt (ih h)
  | case1 | case3 | case5 => cases h

theorem afterArguments?_length {cap : Nat} (h : afterArguments? cap ts = some us) :
    us.length ≤ ts.length := by
  rw [afterArguments?] at h
  split at h
  · exact Nat.le_of_lt (afterAngle?_length h)
  · cases h
    exact Nat.le_refl _

/-- The rest of a name, with as many steps as there are tokens, or more. -/
theorem afterName?_append (cap : Nat) {m n : Nat} (hm : ts.length < m) (hn : ts.length < n)
    (h : Fenced ts) :
    afterName? cap m (ts ++ more) = (afterName? cap n ts).map (· ++ more) ∧
      ∀ us, afterName? cap n ts = some us → Fenced us := by
  induction n generalizing m ts with
  | zero => exact absurd hn (Nat.not_lt_zero _)
  | succ n ih =>
    obtain ⟨m, rfl⟩ : ∃ m', m = m' + 1 := ⟨m - 1, by omega⟩
    obtain ⟨happend, hfenced⟩ := afterArguments?_append more cap h
    rw [afterName?, afterName?, happend]
    cases hargs : afterArguments? cap ts with
    | none => exact ⟨rfl, nofun⟩
    | some us =>
      have hus := hfenced us hargs
      have hlength := afterArguments?_length hargs
      rw [Option.map_some, Option.bind_some, Option.bind_some, startsWith_append more hus rfl]
      cases hdot : startsWith (.mark .dot) .identifier us with
      | false => exact ⟨rfl, fun vs hvs => Option.some.inj hvs ▸ hus⟩
      | true =>
        obtain ⟨d, u, vs, rfl, hd, hu⟩ : ∃ d u vs, us = d :: u :: vs ∧ d.kind = .mark .dot ∧
            u.kind = .identifier := by
          unfold startsWith at hdot
          split at hdot
          · next d u vs => exact ⟨d, u, vs, rfl, by simpa using hdot⟩
          · cases hdot
        have hvs : Fenced vs := (hus.tail (by rw [hd]; rfl)).tail (by rw [hu]; rfl)
        simp only [List.length_cons] at hlength
        exact ih (m := m) (by omega) (by omega) hvs

theorem isFence_of_isTypeStart {k : Kind} (h : isTypeStart k = true) : isFence k = false := by
  unfold isFence
  split
  · cases h
  · cases h
  · rfl

/-- What follows a type is followed by more, and the fence is behind the type. -/
theorem afterType?_append (cap : Nat) (h : Fenced ts) :
    afterType? cap (ts ++ more) = (afterType? cap ts).map (· ++ more) ∧
      ∀ us, afterType? cap ts = some us → Fenced us := by
  rcases ts with _ | ⟨t, ts⟩
  · exact absurd rfl h.ne_nil
  by_cases hprimitive : t.kind.isPrimitive = true
  · have htail : Fenced ts := h.tail (isFence_of_isTypeStart (by simp [isTypeStart, hprimitive]))
    simp only [List.cons_append, afterType?, if_pos hprimitive, Option.map_some, Option.some.injEq,
      drop_dimensions_append more htail, true_and]
    rintro _ rfl
    exact htail.drop_dimensions
  by_cases hname : t.kind = .identifier
  · have htail : Fenced ts := h.tail (by rw [hname]; rfl)
    obtain ⟨happend, hfenced⟩ := afterName?_append more cap (m := (ts ++ more).length + 1)
      (by rw [List.length_append]; omega) (Nat.lt_succ_self _) htail
    simp only [List.cons_append, afterType?, if_neg hprimitive, if_pos hname, happend]
    cases hrest : afterName? cap (ts.length + 1) ts with
    | none => exact ⟨rfl, nofun⟩
    | some us =>
      have hus := hfenced us hrest
      simp only [Option.map_some, Option.some.injEq, drop_dimensions_append more hus, true_and]
      rintro _ rfl
      exact hus.drop_dimensions
  · simp [afterType?, hprimitive, hname]

/-! ### What the tokens look like -/

theorem looksLikeMethod_append (cap : Nat) (h : Fenced ts) :
    looksLikeMethod cap (ts ++ more) = looksLikeMethod cap ts := by
  obtain ⟨happend, hfenced⟩ := afterType?_append more cap h
  rw [looksLikeMethod, looksLikeMethod, happend]
  cases htype : afterType? cap ts with
  | none => rfl
  | some us => exact startsWith_append more (hfenced us htype) rfl

theorem looksLikeVariable_append (cap : Nat) (h : Fenced ts) :
    looksLikeVariable cap (ts ++ more) = looksLikeVariable cap ts := by
  obtain ⟨happend, hfenced⟩ := afterType?_append more cap h
  rw [looksLikeVariable, looksLikeVariable, happend]
  cases htype : afterType? cap ts with
  | none => rfl
  | some us =>
    have hus := hfenced us htype
    simp only [Option.map_some, startsWith_append more hus (show isFence .identifier = false from rfl)]

theorem looksAnnotated_append (h : Fenced ts) : looksAnnotated (ts ++ more) = looksAnnotated ts := by
  rw [looksAnnotated, looksAnnotated, h.kindOf_append]
  by_cases hat : kindOf ts = .mark .atSign
  · rw [h.kindOf_drop_append more (by rw [hat]; rfl)]
  · simp [hat]

theorem looksLikeModified_append (h : Fenced ts) :
    looksLikeModified (ts ++ more) = looksLikeModified ts := by
  rw [looksLikeModified, looksLikeModified, h.kindOf_append]
  cases hfence : isFence (kindOf ts) with
  | false => rw [h.kindOf_drop_append more hfence]
  | true =>
    unfold isFence at hfence
    split at hfence
    · next hk => rw [hk]
    · next hk => rw [hk]
    · cases hfence

/-! ### Excerpts and lists of type arguments -/

/-- Whether an excerpt ends before a fence does not depend on what follows the fence. -/
theorem endsBefore_fence {rule : CaptureRule} {previous : Option Kind} {k : Kind} (h : isFence k = true)
    (next next' : Kind) : rule.endsBefore previous k next = rule.endsBefore previous k next' := by
  unfold isFence at h
  split at h
  · rfl
  · rfl
  · cases h

/-- A complete excerpt with a fence behind it. -/
theorem extent_append {rule : CaptureRule} {cap : Nat} {closers : List Mark} {previous : Option Kind}
    (h : extent rule cap closers previous ts = (n, .complete)) (hfence : Fenced (ts.drop n)) :
    extent rule cap closers previous (ts ++ more) = (n, .complete) := by
  induction ts generalizing cap closers previous n with
  | nil => exact absurd (by simp) hfence.ne_nil
  | cons t ts ih =>
    have hends : rule.endsBefore previous t.kind (kindOf (ts ++ more)) =
        rule.endsBefore previous t.kind (kindOf ts) := by
      cases ts with
      | cons u us => rfl
      | nil =>
        cases n with
        | zero =>
          cases hk : isFence t.kind with
          | true => exact endsBefore_fence hk _ _
          | false => exact absurd rfl (hfence.tail hk).ne_nil
        | succ n => exact absurd (by simp) hfence.ne_nil
    rw [List.cons_append, extent, hends]
    rw [extent] at h
    split at h
    · cases h
    · next hvalid =>
      rw [if_neg hvalid]
      split at h
      · next hend => rw [if_pos hend, h]
      · next hend =>
        rw [if_neg hend]
        cases hinner : Excerpt.closersAfter closers t.kind with
        | none =>
          simp only [hinner] at h
          cases h
        | some inner =>
          simp only [hinner] at h ⊢
          cases cap with
          | zero => cases h
          | succ room =>
            simp only [Prod.mk.injEq] at h
            obtain ⟨rfl, hcomplete⟩ := h
            have hrest := ih (Prod.ext rfl hcomplete) hfence
            simp only [hrest]

/-- A complete list of type arguments. -/
theorem angleExtent_append {cap : Nat} {depth : Int} (h : angleExtent cap depth ts = (n, .complete)) :
    angleExtent cap depth (ts ++ more) = (n, .complete) := by
  induction ts generalizing cap depth n with
  | nil =>
    rw [angleExtent] at h
    cases h
  | cons t ts ih =>
    rw [List.cons_append, angleExtent.eq_def]
    rw [angleExtent.eq_def] at h
    simp only at h ⊢
    split at h
    · cases h
    · next hends =>
      rw [if_neg hends]
      cases cap with
      | zero => cases h
      | succ room =>
        simp only at h ⊢
        split at h
        · next hd => rw [if_pos hd, h]
        · next hd =>
          simp only [Prod.mk.injEq] at h
          obtain ⟨rfl, hcomplete⟩ := h
          rw [if_neg hd, ih (Prod.ext rfl hcomplete)]

end More

end JavaTree.Parser
