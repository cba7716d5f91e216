import JavaTree.Proofs.Parser.Run

/-!
How far a capture reaches, by the brackets that are open before each of its tokens.

A token stands outside of all brackets of a run when the run before it leaves none open. A capture
passes over a balanced run, and ends behind it, when no token outside of all brackets ends it; and it
never gets past a token outside of all brackets that does.

    tokens:    f   (   a   ,   b   )   ,   c
    outside:   x   x                   x   x
-/

namespace JavaTree

namespace Excerpt

theorem openBrackets_append (closers : List Mark) (ts us : List Token) :
    openBrackets closers (ts ++ us) = (openBrackets closers ts).bind (openBrackets · us) := by
  induction ts generalizing closers with
  | nil => rfl
  | cons t ts ih =>
    simp only [List.cons_append, openBrackets]
    cases closersAfter closers t.kind with
    | none => rfl
    | some inner => exact ih inner

theorem isBalanced_iff {ts : List Token} :
    (⟨ts⟩ : Excerpt).isBalanced = true ↔ openBrackets [] ts = some [] := by
  simp [isBalanced]

end Excerpt

namespace Parser

open Excerpt

theorem endsBefore_eq (rule : CaptureRule) (p : Option Kind) (k next : Kind) :
    rule.endsBefore p k next =
      (rule.stops.contains k || isCloser k || (rule.guarded && isBoundary p k next)) := by
  cases k <;> rfl

/-- The kind of the last token of a run, or of the one before it if the run is empty. -/
def lastKind (previous : Option Kind) (ts : List Token) : Option Kind :=
  ts.foldl (fun _ t => some t.kind) previous

@[simp] theorem lastKind_nil (previous : Option Kind) : lastKind previous [] = previous := rfl

@[simp] theorem lastKind_cons (previous : Option Kind) (t : Token) (ts : List Token) :
    lastKind previous (t :: ts) = lastKind (some t.kind) ts := rfl

/-- No token of a run that stands outside of all brackets ends a capture. The run starts inside the
given brackets and behind a token of the given kind, and is followed by the given tokens. -/
def PassesBy (rule : CaptureRule) (closers : List Mark) (previous : Option Kind)
    (ts after : List Token) : Prop :=
  ∀ front t back, ts = front ++ t :: back → openBrackets closers front = some [] →
    rule.endsBefore (lastKind previous front) t.kind (kindOf (back ++ after)) = false

theorem passesBy_cons {rule : CaptureRule} {closers inner : List Mark} {previous : Option Kind}
    {t : Token} {ts after : List Token} (ht : closersAfter closers t.kind = some inner)
    (h : PassesBy rule closers previous (t :: ts) after) :
    PassesBy rule inner (some t.kind) ts after := by
  intro front u back hts hopen
  have hu := h (t :: front) u back (by rw [hts]; rfl)
  simp only [openBrackets, ht, Option.bind_some, lastKind_cons] at hu
  exact hu hopen

/-- A capture takes a whole run that closes all brackets, when no token of it ends the capture and
the token behind it does. -/
theorem extent_eq_complete {rule : CaptureRule} {cap : Nat} {closers : List Mark}
    {previous : Option Kind} {ts after : List Token} (hopen : openBrackets closers ts = some [])
    (hvalid : ∀ t ∈ ts, t.kind ≠ .invalid) (hpass : PassesBy rule closers previous ts after)
    (hcap : ts.length ≤ cap)
    (hend : ∀ cap, extent rule cap [] (lastKind previous ts) after = (0, .complete)) :
    extent rule cap closers previous (ts ++ after) = (ts.length, .complete) := by
  induction ts generalizing cap closers previous with
  | nil =>
    simp only [openBrackets, Option.some.injEq] at hopen
    subst hopen
    exact hend cap
  | cons t ts ih =>
    simp only [openBrackets, Option.bind_eq_some_iff] at hopen
    obtain ⟨inner, hinner, hopen⟩ := hopen
    obtain ⟨room, rfl⟩ : ∃ room, cap = room + 1 :=
      ⟨cap - 1, by simp only [List.length_cons] at hcap; omega⟩
    have hgoes : (closers.isEmpty && rule.endsBefore previous t.kind (kindOf (ts ++ after))) = false := by
      rcases closers with _ | ⟨m, ms⟩
      · exact hpass [] t ts rfl rfl
      · rfl
    have hrest : extent rule room inner (some t.kind) (ts ++ after) = (ts.length, .complete) :=
      ih hopen (fun u hu => hvalid u (List.mem_cons_of_mem _ hu)) (passesBy_cons hinner hpass)
        (by simpa using hcap) hend
    simp only [List.cons_append, extent, hvalid t List.mem_cons_self, if_false, hgoes, hinner, hrest,
      List.length_cons, Bool.false_eq_true]

/-- A capture does not get past a token outside of all brackets that ends it. -/
theorem extent_le {rule : CaptureRule} {cap : Nat} {closers : List Mark} {previous : Option Kind}
    {front back : List Token} {t : Token} (hopen : openBrackets closers front = some [])
    (ht : ∀ p next, rule.endsBefore p t.kind next = true) :
    (extent rule cap closers previous (front ++ t :: back)).1 ≤ front.length := by
  induction front generalizing cap closers previous with
  | nil =>
    simp only [openBrackets, Option.some.injEq] at hopen
    subst hopen
    simp only [List.nil_append, extent, List.isEmpty_nil, ht, Bool.and_self, if_true]
    split <;> exact Nat.le_refl 0
  | cons u front ih =>
    simp only [openBrackets, Option.bind_eq_some_iff] at hopen
    obtain ⟨inner, hinner, hopen⟩ := hopen
    simp only [List.cons_append, extent, hinner, List.length_cons]
    repeat' split
    · exact Nat.zero_le _
    · exact Nat.zero_le _
    · exact Nat.zero_le _
    · exact Nat.succ_le_succ (ih hopen)

/-- Reading an excerpt gives a result exactly when the capture is complete and not empty. -/
theorem excerpt_eq_ok {rule : CaptureRule} {what : String} {c : Settings} {s s' : State}
    {e : Excerpt} :
    excerpt rule what c s = .ok e s' ↔
      ∃ n, n ≠ 0 ∧ extent rule c.limits.excerptTokens [] none s.rest = (n, .complete) ∧
        e = ⟨s.rest.take n⟩ ∧ s' = s.skip n := by
  rcases hx : extent rule c.limits.excerptTokens [] none s.rest with ⟨n, ending⟩
  simp only [excerpt, bind_run, read_run, rest_run, hx, skip_run]
  cases ending with
  | complete =>
    simp only [ite_run, fail_run, pure_run, Prod.mk.injEq, and_true]
    split
    · next hn => simp [hn]
    · next hn =>
      constructor
      · intro h
        cases h
        exact ⟨n, hn, rfl, rfl, rfl⟩
      · rintro ⟨m, -, rfl, rfl, rfl⟩
        rfl
  | unclosed => simp
  | mismatched => simp
  | invalid => simp
  | overLong => simp [bind_run]

end Parser

end JavaTree
