import JavaTree.Proofs.Parser.Capture

/-!
Brackets that are open at a place, and what passing over tokens does to them.

The brackets open at a place are a stack of the marks that close them, innermost first. From the view
of one brace group the stack falls into two parts: the brackets opened since the group was entered,
and those around, of which the innermost closes the group.

    stack at `c`:   f ( a ) { g ( b [ c … :   ]  )  |  }
                                              since     around

Each rule of recovery walks over tokens and counts brackets. A `Walk` says what all these counts have
in common, and `Walk.stays` that a walk over nested brackets does not leave the brace group it starts
in: where it ends, only round and square brackets have been opened since.
-/

namespace JavaTree

namespace Parser

open Excerpt

/-! ### One token -/

theorem eq_mark_of_isOpener {k : Kind} (h : isOpener k = true) : ∃ m, k = .mark m := by
  cases k with
  | mark m => exact ⟨m, rfl⟩
  | _ => cases h

theorem eq_mark_of_isCloser {k : Kind} (h : isCloser k = true) : ∃ m, k = .mark m := by
  cases k with
  | mark m => exact ⟨m, rfl⟩
  | _ => cases h

/-- What a token does to the brackets still to be closed: it opens one more, closes the innermost one,
or is no bracket. -/
inductive Turns : List Mark → Kind → List Mark → Prop
  | opens {m c : Mark} (hm : m.closer? = some c) (ms : List Mark) : Turns ms (.mark m) (c :: ms)
  | closes {m : Mark} (hm : m.isCloser = true) (ms : List Mark) : Turns (m :: ms) (.mark m) ms
  | passes {k : Kind} (ho : isOpener k = false) (hc : isCloser k = false) (ms : List Mark) :
    Turns ms k ms

theorem Turns.closersAfter {ms ns : List Mark} {k : Kind} (h : Turns ms k ns) :
    closersAfter ms k = some ns := by
  cases h with
  | opens hm => simp only [Excerpt.closersAfter, hm]
  | @closes m hm => cases m <;> cases hm <;> rfl
  | passes ho hc =>
    cases k with
    | mark m =>
      simp only [isOpener, isCloser, Option.isSome_eq_false_iff, Option.isNone_iff_eq_none] at ho hc
      simp [Excerpt.closersAfter, ho, hc]
    | _ => rfl

theorem turns_of_closersAfter {ms ns : List Mark} {k : Kind} (h : closersAfter ms k = some ns) :
    Turns ms k ns := by
  cases ho : isOpener k with
  | true =>
    obtain ⟨m, rfl⟩ := eq_mark_of_isOpener ho
    obtain ⟨c, hc⟩ := Option.isSome_iff_exists.mp (by simpa only [isOpener] using ho)
    rw [(Turns.opens hc ms).closersAfter] at h
    cases h
    exact .opens hc ms
  | false =>
    cases hc : isCloser k with
    | true =>
      obtain ⟨m, rfl⟩ := eq_mark_of_isCloser hc
      simp only [isOpener, isCloser, Option.isSome_eq_false_iff, Option.isNone_iff_eq_none] at ho hc
      simp only [closersAfter, ho, hc, if_true] at h
      split at h
      · next c outer =>
        obtain ⟨rfl, hns⟩ := Option.ite_none_right_eq_some.mp h
        cases hns
        exact .closes hc ns
      · cases h
    | false =>
      rw [(Turns.passes ho hc ms).closersAfter] at h
      cases h
      exact .passes ho hc ms

theorem closersAfter_neutral {k : Kind} (ho : isOpener k = false) (hc : isCloser k = false)
    (ms : List Mark) : closersAfter ms k = some ms := (Turns.passes ho hc ms).closersAfter

theorem closersAfter_opener {k : Kind} (ho : isOpener k = true) :
    ∃ c, ∀ ms, closersAfter ms k = some (c :: ms) := by
  obtain ⟨m, rfl⟩ := eq_mark_of_isOpener ho
  obtain ⟨c, hc⟩ := Option.isSome_iff_exists.mp (by simpa only [isOpener] using ho)
  exact ⟨c, fun ms => (Turns.opens hc ms).closersAfter⟩

/-- A closing bracket closes the innermost bracket that is open. -/
theorem eq_cons_of_closersAfter {k : Kind} {ms ns : List Mark} (hk : isCloser k = true)
    (h : closersAfter ms k = some ns) : ∃ m, k = .mark m ∧ ms = m :: ns := by
  cases turns_of_closersAfter h with
  | @opens m c hm => cases m <;> cases hm <;> cases hk
  | @closes m _ => exact ⟨m, rfl, rfl⟩
  | passes _ hc =>
    rw [hk] at hc
    cases hc

/-- What a token does to the brackets opened since, it also does with more brackets around. -/
theorem closersAfter_append {ms ns : List Mark} {k : Kind} (h : closersAfter ms k = some ns)
    (around : List Mark) : closersAfter (ms ++ around) k = some (ns ++ around) := by
  cases turns_of_closersAfter h with
  | opens hm => exact (Turns.opens hm _).closersAfter
  | closes hm => exact (Turns.closes hm _).closersAfter
  | passes ho hc => exact closersAfter_neutral ho hc _

/-- What a run does to the brackets opened since, it also does with more brackets around. -/
theorem openBrackets_weaken {ms ns : List Mark} {ts : List Token} (h : openBrackets ms ts = some ns)
    (around : List Mark) : openBrackets (ms ++ around) ts = some (ns ++ around) := by
  induction ts generalizing ms with
  | nil =>
    cases h
    rfl
  | cons t ts ih =>
    simp only [openBrackets, Option.bind_eq_some_iff] at h ⊢
    obtain ⟨inner, hinner, h⟩ := h
    exact ⟨inner ++ around, closersAfter_append hinner around, ih h⟩

/-! ### Brace groups -/

/-- Only round and square brackets are open. -/
def Braceless (ms : List Mark) : Prop := Mark.closeBrace ∉ ms

/-- The brackets around a brace group: either there are none, or the innermost one is its brace. -/
def Around (ms : List Mark) : Prop := ∀ m ∈ ms.head?, m = .closeBrace

theorem braceless_nil : Braceless [] := by simp [Braceless]

/-- Any stack falls into brackets opened since a brace group was entered, and those around. -/
theorem exists_braceless_append (ms : List Mark) :
    ∃ since around, ms = since ++ around ∧ Braceless since ∧ Around around := by
  induction ms with
  | nil => exact ⟨[], [], rfl, braceless_nil, by simp [Around]⟩
  | cons m ms ih =>
    by_cases hm : m = .closeBrace
    · exact ⟨[], m :: ms, rfl, braceless_nil, by simp [Around, hm]⟩
    · obtain ⟨since, around, rfl, hs, ha⟩ := ih
      refine ⟨m :: since, around, rfl, ?_, ha⟩
      simp only [Braceless, List.mem_cons, not_or] at hs ⊢
      exact ⟨fun h => hm h.symm, hs⟩

/-- Passing over the first `n` tokens does not leave the brace group in which they start, whatever
brackets are open there, as long as all brackets are closed in order. -/
def Remains (ts : List Token) (n : Nat) : Prop :=
  ∀ since around, Braceless since → Around around →
    openBrackets (since ++ around) ts = some [] →
      ∃ since', Braceless since' ∧ openBrackets since (ts.take n) = some since'

/-! ### Walks that count brackets -/

/-- A walk over the first `n` tokens that counts the brackets it opens. It ends outside of them, and
never passes over a closing brace there. -/
inductive Walk : Nat → List Token → Nat → Prop
  | ended (depth : Nat) : Walk depth [] 0
  | stopped (ts : List Token) : Walk 0 ts 0
  | opened {depth n : Nat} {t : Token} {ts : List Token} (ht : isOpener t.kind = true)
      (h : Walk (depth + 1) ts n) : Walk depth (t :: ts) (n + 1)
  | closed {depth n : Nat} {t : Token} {ts : List Token} (ht : isCloser t.kind = true)
      (hbrace : t.kind = .mark .closeBrace → depth ≠ 0) (h : Walk (depth - 1) ts n) :
      Walk depth (t :: ts) (n + 1)
  | passed {depth n : Nat} {t : Token} {ts : List Token} (ho : isOpener t.kind = false)
      (hc : isCloser t.kind = false) (h : Walk depth ts n) : Walk depth (t :: ts) (n + 1)

/-- A walk leaves at most round and square brackets of its group open. The brackets it has opened
itself come before those that were open when it started. -/
theorem Walk.stays {depth n : Nat} {ts : List Token} (h : Walk depth ts n) {own since around : List Mark}
    (hown : own.length = depth) (hsince : Braceless since) (haround : Around around)
    (hts : openBrackets (own ++ (since ++ around)) ts = some []) :
    ∃ since', Braceless since' ∧ openBrackets (own ++ since) (ts.take n) = some since' := by
  induction h generalizing own since with
  | ended depth =>
    simp only [openBrackets, Option.some.injEq, List.append_eq_nil_iff] at hts
    obtain ⟨rfl, rfl, -⟩ := hts
    exact ⟨[], braceless_nil, rfl⟩
  | stopped ts =>
    rw [List.length_eq_zero_iff] at hown
    subst hown
    exact ⟨since, hsince, rfl⟩
  | opened ht _ ih =>
    obtain ⟨c, hc⟩ := closersAfter_opener ht
    simp only [openBrackets, hc, Option.bind_some, List.take_succ_cons] at hts ⊢
    exact @ih (c :: own) since (by simp [hown]) hsince hts
  | @closed depth n t ts ht hbrace _ ih =>
    simp only [openBrackets, Option.bind_eq_some_iff] at hts
    obtain ⟨inner, hinner, hts⟩ := hts
    obtain ⟨m, hm, hstack⟩ := eq_cons_of_closersAfter ht hinner
    have hstep (ms : List Mark) : closersAfter (m :: ms) t.kind = some ms := by
      rw [hm] at ht ⊢
      exact (Turns.closes ht ms).closersAfter
    rcases own with _ | ⟨c, own⟩
    · -- the walk has no bracket open: the closing bracket is one of those opened since
      subst hown
      rcases since with _ | ⟨c, since⟩
      · rw [List.nil_append, List.nil_append] at hstack
        rw [hm, haround m (by simp [hstack])] at hbrace
        exact absurd rfl (hbrace rfl)
      · simp only [List.nil_append, List.cons_append, List.cons.injEq] at hstack
        obtain ⟨rfl, rfl⟩ := hstack
        simp only [Braceless, List.mem_cons, not_or] at hsince
        simp only [List.nil_append, List.take_succ_cons, openBrackets, hstep, Option.bind_some]
        exact @ih [] since rfl hsince.2 hts
    · simp only [List.cons_append, List.cons.injEq] at hstack
      obtain ⟨rfl, rfl⟩ := hstack
      simp only [List.cons_append, List.take_succ_cons, openBrackets, hstep, Option.bind_some]
      exact ih (by simp at hown; omega) hsince hts
  | passed ho hc _ ih =>
    simp only [openBrackets, closersAfter_neutral ho hc, Option.bind_some, List.take_succ_cons] at hts ⊢
    exact ih hown hsince hts

theorem Walk.remains {n : Nat} {ts : List Token} (h : Walk 0 ts n) : Remains ts n :=
  fun _ _ hsince haround hts => @Walk.stays _ _ _ h [] _ _ rfl hsince haround hts

/-! ### The rules of recovery -/

theorem walk_statementRest (depth : Nat) (ts : List Token) : Walk depth ts (statementRest depth ts) := by
  fun_induction statementRest depth ts with
  | case1 depth => exact .ended depth
  | case2 depth t ts h =>
    obtain ⟨hk, rfl⟩ := h
    exact .passed (by rw [hk]; rfl) (by rw [hk]; rfl) (.stopped ts)
  | case3 t ts hk h => exact .stopped _
  | case4 t ts hk h hd => exact .closed (by rw [hk]; rfl) (fun _ => hd) (.stopped ts)
  | case5 depth t ts h hk hd hd' ih => exact .closed (by rw [hk]; rfl) (fun _ => hd) ih
  | case6 depth t ts h hk ho ih => exact .opened ho ih
  | case7 depth t ts h hk ho hc ih => exact .closed hc (fun h' => absurd h' hk) ih
  | case8 depth t ts h hk ho hc ih => exact .passed (by simpa using ho) (by simpa using hc) ih

theorem walk_caseRest (depth : Nat) (ts : List Token) : Walk depth ts (caseRest depth ts) := by
  fun_induction caseRest depth ts with
  | case1 depth => exact .ended depth
  | case2 depth t ts h =>
    obtain ⟨rfl, -⟩ := h
    exact .stopped _
  | case3 depth t ts h ho ih => exact .opened ho ih
  | case4 depth t ts h ho hc ih =>
    exact .closed hc (fun hk hd => h ⟨hd, .inr (.inr hk)⟩) ih
  | case5 depth t ts h ho hc ih => exact .passed (by simpa using ho) (by simpa using hc) ih

theorem walk_memberRest (cap : Nat) (atStart : Bool) (depth : Nat) (ts : List Token) :
    Walk depth ts (memberRest cap atStart depth ts) := by
  fun_induction memberRest cap atStart depth ts with
  | case1 atStart depth => exact .ended depth
  | case2 atStart depth t ts h =>
    obtain ⟨hk, rfl⟩ := h
    exact .passed (by rw [hk]; rfl) (by rw [hk]; rfl) (.stopped ts)
  | case3 atStart depth t ts h hk =>
    obtain ⟨-, rfl⟩ := hk
    exact .stopped _
  | case4 atStart depth t ts h hk hl =>
    obtain ⟨rfl, -⟩ := hl
    exact .stopped _
  | case5 atStart depth t ts h hk hl ho ih => exact .opened ho ih
  | case6 atStart t ts ho hb h hk hl =>
    exact .closed (by rw [hb]; rfl) (fun _ => by decide) (.stopped ts)
  | case7 atStart depth t ts h hk hl ho hb hd ih =>
    exact .closed (by rw [hb]; rfl) (fun _ hz => hk ⟨hb, hz⟩) ih
  | case8 atStart depth t ts h hk hl ho hb hc ih => exact .closed hc (fun h' => absurd h' hb) ih
  | case9 atStart depth t ts h hk hl ho hb hc ih =>
    exact .passed (by simpa using ho) (by simpa using hc) ih

theorem walk_constantRest (atStart : Bool) (depth : Nat) (ts : List Token) :
    Walk depth ts (constantRest atStart depth ts) := by
  fun_induction constantRest atStart depth ts with
  | case1 atStart depth => exact .ended depth
  | case2 depth t ts h =>
    obtain ⟨rfl, hk⟩ := h
    exact .passed (by rw [hk]; rfl) (by rw [hk]; rfl) (.stopped ts)
  | case3 atStart depth t ts h hs =>
    obtain ⟨rfl, -⟩ := h
    exact .stopped _
  | case4 atStart depth t ts h hk =>
    obtain ⟨rfl, -⟩ := hk
    exact .stopped _
  | case5 atStart depth t ts h hk ho ih => exact .opened ho ih
  | case6 atStart depth t ts h hk ho hc ih => exact .closed hc (fun hb hd => hk ⟨hd, .inr hb⟩) ih
  | case7 atStart depth t ts h hk ho hc ih => exact .passed (by simpa using ho) (by simpa using hc) ih

/-- Passing over a group is a walk that starts inside of the group. -/
theorem walk_group_inside (depth : Nat) (ts : List Token) : Walk (depth + 1) ts (group (depth + 1) ts) := by
  induction ts generalizing depth with
  | nil => exact .ended _
  | cons t ts ih =>
    simp only [group]
    cases ho : isOpener t.kind with
    | true => exact .opened ho (ih (depth + 1))
    | false =>
      cases hc : isCloser t.kind with
      | false => exact .passed ho hc (ih depth)
      | true =>
        rcases depth with _ | depth
        · exact .closed hc (fun _ => by decide) (.stopped ts)
        · exact .closed hc (fun _ => by omega) (ih depth)

/-- The bracket group at the start is passed over by a walk. -/
theorem walk_group {t : Token} (ht : isOpener t.kind = true) (ts : List Token) :
    Walk 0 (t :: ts) (group 0 (t :: ts)) := by
  have hgroup : group 0 (t :: ts) = group 1 ts + 1 := by simp [group, ht]
  rw [hgroup]
  exact .opened ht (walk_group_inside 0 ts)

/-! ### Tokens that are no braces -/

/-- A token either closes the brace group, with no bracket opened since, or it does to the brackets
opened since what it does to all brackets. -/
theorem closes_or_steps {own around : List Mark} {t : Token} {ts : List Token} (haround : Around around)
    (h : openBrackets (own ++ around) (t :: ts) = some []) :
    (own = [] ∧ t.kind = .mark .closeBrace) ∨
      ∃ own', closersAfter own t.kind = some own' ∧ openBrackets (own' ++ around) ts = some [] := by
  simp only [openBrackets, Option.bind_eq_some_iff] at h
  obtain ⟨inner, hinner, h⟩ := h
  have hturns := turns_of_closersAfter hinner
  generalize hstack : own ++ around = ms at hturns
  generalize t.kind = k at hturns
  cases hturns with
  | @opens m c hm =>
    subst hstack
    exact .inr ⟨c :: own, (Turns.opens hm own).closersAfter, h⟩
  | @closes m hm =>
    rcases own with _ | ⟨c, own⟩
    · exact .inl ⟨rfl, by rw [haround m (by rw [← List.nil_append around, hstack]; rfl)]⟩
    · cases hstack
      exact .inr ⟨own, (Turns.closes hm own).closersAfter, h⟩
  | passes ho hc =>
    subst hstack
    exact .inr ⟨own, closersAfter_neutral ho hc own, h⟩

/-- A token that is no brace leaves the number of open braces as it is. -/
theorem count_closersAfter {k : Kind} {ms ns : List Mark} (ho : k ≠ .mark .openBrace)
    (hc : k ≠ .mark .closeBrace) (h : closersAfter ms k = some ns) :
    ns.count .closeBrace = ms.count .closeBrace := by
  cases turns_of_closersAfter h with
  | @opens m c hm =>
    refine List.count_cons_of_ne ?_
    rintro rfl
    cases m <;> cases hm
    exact ho rfl
  | closes hm => exact (List.count_cons_of_ne fun heq => hc (by rw [heq])).symm
  | passes => rfl

theorem braceless_iff_count {ms : List Mark} : Braceless ms ↔ ms.count .closeBrace = 0 := by
  rw [Braceless, List.count_eq_zero]

/-- Passing over tokens that are no braces does not leave the brace group. -/
theorem remains_of_braceless {ts : List Token} {n : Nat}
    (h : ∀ t ∈ ts.take n, t.kind ≠ .mark .openBrace ∧ t.kind ≠ .mark .closeBrace) : Remains ts n := by
  intro since around hsince haround hts
  induction n generalizing ts since with
  | zero => exact ⟨since, hsince, by simp [openBrackets]⟩
  | succ n ih =>
    rcases ts with _ | ⟨t, ts⟩
    · exact ⟨since, hsince, rfl⟩
    · simp only [List.take_succ_cons, List.mem_cons, forall_eq_or_imp] at h
      rcases closes_or_steps haround hts with ⟨-, hk⟩ | ⟨since', hstep, hts'⟩
      · exact absurd hk h.1.2
      · have hsince' : Braceless since' := by
          rw [braceless_iff_count, count_closersAfter h.1.1 h.1.2 hstep, ← braceless_iff_count]
          exact hsince
        simp only [List.take_succ_cons, openBrackets, hstep, Option.bind_some]
        exact ih h.2 since' hsince' hts'

/-- What lies before the brace that closes the group does not leave it. -/
theorem blockRest_stays {depth : Nat} {ts : List Token} {own around : List Mark}
    (hown : own.count .closeBrace = depth) (haround : Around around)
    (hts : openBrackets (own ++ around) ts = some []) :
    ∃ own', Braceless own' ∧ openBrackets own (ts.take (blockRest depth ts)) = some own' := by
  fun_induction blockRest depth ts generalizing own with
  | case1 depth =>
    simp only [openBrackets, Option.some.injEq, List.append_eq_nil_iff] at hts
    exact ⟨[], braceless_nil, by rw [hts.1]; rfl⟩
  | case2 t ts hk => exact ⟨own, braceless_iff_count.mpr hown, by simp [openBrackets]⟩
  | case3 depth t ts hk hd ih =>
    rcases closes_or_steps haround hts with ⟨rfl, -⟩ | ⟨own', hstep, hts'⟩
    · exact absurd hown.symm hd
    · obtain ⟨m, hm, rfl⟩ := eq_cons_of_closersAfter (by rw [hk]; rfl) hstep
      rw [hk, Kind.mark.injEq] at hm
      subst hm
      rw [List.count_cons_self] at hown
      simp only [List.take_succ_cons, openBrackets, hstep, Option.bind_some]
      exact ih (by omega) hts'
  | case4 depth t ts hk ho ih =>
    rcases closes_or_steps haround hts with ⟨-, hk'⟩ | ⟨own', hstep, hts'⟩
    · exact absurd hk' hk
    · have hown' : own' = .closeBrace :: own := by
        rw [ho] at hstep
        exact (Option.some.inj hstep).symm
      subst hown'
      simp only [List.take_succ_cons, openBrackets, hstep, Option.bind_some]
      exact ih (by rw [List.count_cons_self, hown]) hts'
  | case5 depth t ts hk ho ih =>
    rcases closes_or_steps haround hts with ⟨-, hk'⟩ | ⟨own', hstep, hts'⟩
    · exact absurd hk' hk
    · simp only [List.take_succ_cons, openBrackets, hstep, Option.bind_some]
      exact ih (by rw [count_closersAfter ho hk hstep, hown]) hts'

theorem remains_blockRest (ts : List Token) : Remains ts (blockRest 0 ts) :=
  fun _ _ hsince haround hts => blockRest_stays (braceless_iff_count.mp hsince) haround hts

end Parser

end JavaTree
