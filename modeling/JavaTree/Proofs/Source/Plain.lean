import JavaTree.Proofs.Parser.Quiet
import JavaTree.Proofs.Source.Passage

/-!
Expressions are told from declarations by their own tokens.

Whether a statement declares a variable is found out by looking for a type and a name at its start.
A semicolon ends that search, so for an expression up to its semicolon neither what is behind it nor
the cap on the search, if it is no shorter than the expression, has a say in it.
-/

namespace JavaTree.Parser

/-- Two searches that have both failed, or are left with tokens of the same kinds before the two
ends of their texts, and no more than a number of them. -/
def SameSearch (after after' : List Token) (n : Nat) (x y : Option (List Token)) : Prop :=
  (x = none ∧ y = none) ∨ ∃ ts us, SameKinds ts us ∧ ts.length ≤ n ∧
    x = some (ts ++ after) ∧ y = some (us ++ after')

section

variable {after after' : List Token} (hafter : kindOf after = .mark .semicolon)
  (hafter' : kindOf after' = .mark .semicolon)

include hafter hafter'

theorem kindOf_sameKinds {ts us : List Token} (h : SameKinds ts us) :
    kindOf (ts ++ after) = kindOf (us ++ after') := by
  rcases ts with _ | ⟨t, ts⟩
  · rw [List.map_eq_nil_iff.mp h.symm, List.nil_append, List.nil_append, hafter, hafter']
  · obtain ⟨u, us, rfl, hk, -⟩ := sameKinds_cons h
    exact hk

theorem startsWith_sameKinds {ts us : List Token} (h : SameKinds ts us) (a b : Kind)
    (ha : a ≠ .mark .semicolon) :
    startsWith a b (ts ++ after) = startsWith a b (us ++ after') := by
  obtain ⟨x, xs, rfl, hx⟩ := eq_cons_of_kindOf hafter nofun
  obtain ⟨y, ys, rfl, hy⟩ := eq_cons_of_kindOf hafter' nofun
  rcases ts with _ | ⟨t, _ | ⟨t', ts⟩⟩
  · rw [List.map_eq_nil_iff.mp h.symm]
    have hno (z : Token) (zs : List Token) (hz : z.kind = .mark .semicolon) :
        startsWith a b (z :: zs) = false := by
      cases zs <;> simp [startsWith, hz, Ne.symm ha]
    exact (hno x xs hx).trans (hno y ys hy).symm
  · obtain ⟨u, us, rfl, hk, hus⟩ := sameKinds_cons h
    rw [List.map_eq_nil_iff.mp hus.symm]
    simp [startsWith, hk, hx, hy]
  · obtain ⟨u, us, rfl, hk, hus⟩ := sameKinds_cons h
    obtain ⟨u', us, rfl, hk', -⟩ := sameKinds_cons hus
    simp [startsWith, hk, hk']

theorem sameSearch_angle {ts us : List Token} (h : SameKinds ts us) {cap cap' : Nat}
    (hcap : ts.length ≤ cap) (hcap' : ts.length ≤ cap') (depth : Int) :
    SameSearch after after' ts.length (afterAngle? cap depth (ts ++ after))
      (afterAngle? cap' depth (us ++ after')) := by
  induction ts generalizing us cap cap' depth with
  | nil =>
    have hno (vs : List Token) (cap : Nat) (hvs : kindOf vs = .mark .semicolon) :
        afterAngle? cap depth vs = none := by
      obtain ⟨v, vs, rfl, hv⟩ := eq_cons_of_kindOf hvs nofun
      simp [afterAngle?, hv, Angle.isInType, Angle.isAngle, Angle.weight]
    rw [List.map_eq_nil_iff.mp h.symm]
    exact .inl ⟨hno after cap hafter, hno after' cap' hafter'⟩
  | cons t ts ih =>
    obtain ⟨u, us, rfl, hk, hus⟩ := sameKinds_cons h
    obtain ⟨room, rfl⟩ := Nat.exists_eq_add_one.mpr (Nat.lt_of_lt_of_le (Nat.succ_pos _) hcap)
    obtain ⟨room', rfl⟩ := Nat.exists_eq_add_one.mpr (Nat.lt_of_lt_of_le (Nat.succ_pos _) hcap')
    simp only [List.cons_append, afterAngle?, hk]
    split
    · split
      · exact .inr ⟨ts, us, hus, Nat.le_succ _, rfl, rfl⟩
      · rcases ih hus (Nat.le_of_succ_le_succ hcap) (Nat.le_of_succ_le_succ hcap') _ with hnone | hsome
        · exact .inl hnone
        · obtain ⟨ts', us', hkinds, hlen, hx, hy⟩ := hsome
          exact .inr ⟨ts', us', hkinds, Nat.le_succ_of_le hlen, hx, hy⟩
    · exact .inl ⟨rfl, rfl⟩

theorem sameSearch_arguments {ts us : List Token} (h : SameKinds ts us) {cap cap' : Nat}
    (hcap : ts.length ≤ cap) (hcap' : ts.length ≤ cap') :
    SameSearch after after' ts.length (afterArguments? cap (ts ++ after))
      (afterArguments? cap' (us ++ after')) := by
  unfold afterArguments?
  rw [kindOf_sameKinds hafter hafter' h]
  split
  · exact sameSearch_angle hafter hafter' h hcap hcap' 0
  · exact .inr ⟨ts, us, h, Nat.le_refl _, rfl, rfl⟩

omit hafter' in
/-- Two tokens before a semicolon that are passed over. -/
theorem drop_of_startsWith {ts : List Token} (h : startsWith (.mark .dot) .identifier (ts ++ after)) :
    (ts ++ after).drop 2 = ts.drop 2 ++ after ∧ 2 ≤ ts.length := by
  obtain ⟨x, xs, rfl, hx⟩ := eq_cons_of_kindOf hafter nofun
  rcases ts with _ | ⟨t, _ | ⟨t', ts⟩⟩
  · cases xs <;> simp [startsWith, hx] at h
  · simp [startsWith, hx] at h
  · simp

theorem sameSearch_name {ts us : List Token} (h : SameKinds ts us) {cap cap' n n' : Nat}
    (hcap : ts.length ≤ cap) (hcap' : ts.length ≤ cap') (hn : ts.length < n) (hn' : ts.length < n') :
    SameSearch after after' ts.length (afterName? cap n (ts ++ after))
      (afterName? cap' n' (us ++ after')) := by
  induction n generalizing ts us n' with
  | zero => omega
  | succ n ih =>
    obtain ⟨n', rfl⟩ := Nat.exists_eq_add_one.mpr (Nat.zero_lt_of_lt hn')
    rw [afterName?, afterName?]
    rcases sameSearch_arguments hafter hafter' h hcap hcap' with ⟨hx, hy⟩ | hsome
    · rw [hx, hy]
      exact .inl ⟨rfl, rfl⟩
    obtain ⟨ts', us', hkinds, hlen, hx, hy⟩ := hsome
    rw [hx, hy, Option.bind_some, Option.bind_some,
      startsWith_sameKinds hafter hafter' hkinds (.mark .dot) .identifier nofun]
    split
    · next hdot =>
      obtain ⟨hdrop', htwo'⟩ := drop_of_startsWith hafter' hdot
      rw [← startsWith_sameKinds hafter hafter' hkinds (.mark .dot) .identifier nofun] at hdot
      obtain ⟨hdrop, htwo⟩ := drop_of_startsWith hafter hdot
      rw [hdrop, hdrop']
      have hdropped : SameKinds (ts'.drop 2) (us'.drop 2) := by
        rw [SameKinds, List.map_drop, List.map_drop, hkinds]
      have hlen2 : (ts'.drop 2).length + 2 ≤ ts.length := by
        rw [List.length_drop]
        omega
      have hroom : (ts'.drop 2).length < n' := by omega
      rcases ih hdropped (by omega) (by omega) (by omega) hroom with
        hnone | ⟨vs, ws, hvs, hvlen, hx, hy⟩
      · exact .inl hnone
      · exact .inr ⟨vs, ws, hvs, by omega, hx, hy⟩
    · exact .inr ⟨ts', us', hkinds, hlen, rfl, rfl⟩

omit hafter' in
theorem dimensions_before (t : Token) : dimensions after = 0 ∧ dimensions (t :: after) = 0 := by
  obtain ⟨x, xs, rfl, hx⟩ := eq_cons_of_kindOf hafter nofun
  cases xs <;> simp [dimensions, hx]

theorem sameSearch_dimensions {ts us : List Token} (h : SameKinds ts us) :
    SameSearch after after' ts.length (some ((ts ++ after).drop (2 * dimensions (ts ++ after))))
      (some ((us ++ after').drop (2 * dimensions (us ++ after')))) := by
  match ts, us, h with
  | [], us, h =>
    have hno := (dimensions_before hafter (.endAt .start)).1
    have hno' := (dimensions_before hafter' (.endAt .start)).1
    rw [List.map_eq_nil_iff.mp h.symm, List.nil_append, List.nil_append, hno, hno']
    exact .inr ⟨[], [], rfl, Nat.le_refl _, rfl, rfl⟩
  | [t], us, h =>
    obtain ⟨u, us, rfl, hk, hus⟩ := sameKinds_cons h
    rw [List.map_eq_nil_iff.mp hus.symm, List.singleton_append, List.singleton_append,
      (dimensions_before hafter t).2, (dimensions_before hafter' u).2]
    exact .inr ⟨[t], [u], by simp [SameKinds, hk], Nat.le_refl _, rfl, rfl⟩
  | t :: t' :: ts, us, h =>
    obtain ⟨u, us, rfl, hk, hus⟩ := sameKinds_cons h
    obtain ⟨u', us, rfl, hk', hus'⟩ := sameKinds_cons hus
    simp only [List.cons_append, dimensions, hk, hk']
    split
    · rcases sameSearch_dimensions hus' with ⟨hnone, -⟩ | ⟨vs, ws, hvs, hlen, hx', hy'⟩
      · cases hnone
      · refine .inr ⟨vs, ws, hvs, Nat.le_add_right_of_le (Nat.le_add_right_of_le hlen), ?_, ?_⟩
        · simpa [Nat.mul_add] using hx'
        · simpa [Nat.mul_add] using hy'
    · exact .inr ⟨t :: t' :: ts, u :: u' :: us, h, Nat.le_refl _, rfl, rfl⟩

theorem sameSearch_type {ts us : List Token} (h : SameKinds ts us) {cap cap' : Nat}
    (hcap : ts.length ≤ cap) (hcap' : ts.length ≤ cap') :
    SameSearch after after' ts.length (afterType? cap (ts ++ after))
      (afterType? cap' (us ++ after')) := by
  obtain ⟨x, xs, rfl, hx⟩ := eq_cons_of_kindOf hafter nofun
  obtain ⟨y, ys, rfl, hy⟩ := eq_cons_of_kindOf hafter' nofun
  rcases ts with _ | ⟨t, ts⟩
  · rw [List.map_eq_nil_iff.mp h.symm]
    refine .inl ⟨?_, ?_⟩ <;> simp [afterType?, hx, hy, Kind.isPrimitive]
  obtain ⟨u, us, rfl, hk, hus⟩ := sameKinds_cons h
  simp only [List.length_cons] at hcap hcap' ⊢
  -- in either case the name of the type ends before the semicolon
  have hname : SameSearch (x :: xs) (y :: ys) ts.length
      (if u.kind.isPrimitive then some (ts ++ x :: xs)
        else if u.kind = .identifier then afterName? cap ((ts ++ x :: xs).length + 1) (ts ++ x :: xs)
        else none)
      (if u.kind.isPrimitive then some (us ++ y :: ys)
        else if u.kind = .identifier then afterName? cap' ((us ++ y :: ys).length + 1) (us ++ y :: ys)
        else none) := by
    split
    · exact .inr ⟨ts, us, hus, Nat.le_refl _, rfl, rfl⟩
    split
    · have hlen := hus.length_eq
      refine sameSearch_name hafter hafter' hus (by omega) (by omega) ?_ ?_ <;>
        simp only [List.length_append] <;> omega
    · exact .inl ⟨rfl, rfl⟩
  simp only [List.cons_append, afterType?, hk]
  rcases hname with ⟨hx', hy'⟩ | ⟨vs, ws, hvs, hlen, hx', hy'⟩
  · rw [hx', hy']
    exact .inl ⟨rfl, rfl⟩
  · rw [hx', hy', Option.map_some, Option.map_some]
    rcases sameSearch_dimensions hafter hafter' hvs with hnone | ⟨vs', ws', hvs', hlen', hx'', hy''⟩
    · exact .inl hnone
    · exact .inr ⟨vs', ws', hvs', by omega, hx'', hy''⟩

theorem looksLikeVariable_sameKinds {ts us : List Token} (h : SameKinds ts us) {cap cap' : Nat}
    (hcap : ts.length ≤ cap) (hcap' : ts.length ≤ cap') :
    looksLikeVariable cap (ts ++ after) = looksLikeVariable cap' (us ++ after') := by
  unfold looksLikeVariable
  rcases sameSearch_type hafter hafter' h hcap hcap' with ⟨hx, hy⟩ | hsome
  · rw [hx, hy]
  · obtain ⟨ts', us', hkinds, -, hx, hy⟩ := hsome
    rw [hx, hy]
    simp only [startsWith_sameKinds hafter hafter' hkinds .identifier _ nofun]

end

/-- An expression that has been read as one up to its semicolon is always read as one. -/
theorem readsPlain_of_looksLikeVariable {e : Excerpt} {after : List Token} {cap : Nat}
    (hstart : isPlainStart (kindOf (e.tokens ++ after)) (kindOf ((e.tokens ++ after).drop 1)) = true)
    (hvariable : looksLikeVariable cap (e.tokens ++ after) = false) (hne : e.tokens ≠ [])
    (hcap : e.tokens.length ≤ cap) (hafter : kindOf after = .mark .semicolon) : ReadsPlain e := by
  refine ⟨?_, fun ts cap' after' hts hcap' hafter' => ?_⟩
  · obtain ⟨t, ts, hcons⟩ := List.exists_cons_of_ne_nil hne
    rw [hcons] at hstart ⊢
    rcases ts with _ | ⟨u, us⟩
    · simpa [kindOf, ← hafter, Word.token, Word.mark] using hstart
    · exact hstart
  · rw [looksLikeVariable_sameKinds hafter' hafter hts hcap' (hts.length_eq ▸ hcap)]
    exact hvariable

end JavaTree.Parser
