import JavaTree.Proofs.Parser.Bodies

/-!
Readers whose results all have a property.

A reader `Keeps` a property when every run of it that starts at a place in the given tokens ends at
such a place, and has no result without that property. The property does not speak of the places, so
there is one rule for sequences and one for recovery, and readers are followed without their states.
-/

namespace JavaTree.Parser

variable {α β : Type} {c : Settings} {ts : List Token}

/-- Runs of a reader stay among the given tokens, and their results have the property. -/
def Keeps (ts : List Token) (c : Settings) (Q : α → Prop) (p : Parser α) : Prop :=
  ∀ s, s.rest <:+ ts → (final (p c s)).rest <:+ ts ∧ ∀ a s', p c s = .ok a s' → Q a

theorem Keeps.mono {P Q : α → Prop} {p : Parser α} (h : Keeps ts c P p) (hPQ : ∀ a, P a → Q a) :
    Keeps ts c Q p :=
  fun s hs => ⟨(h s hs).1, fun a s' hrun => hPQ a ((h s hs).2 a s' hrun)⟩

theorem keeps_pure {Q : α → Prop} {a : α} (h : Q a) : Keeps ts c Q (pure a) := by
  refine fun s hs => ⟨hs, fun b s' hrun => ?_⟩
  cases hrun
  exact h

theorem keeps_throw {Q : α → Prop} (d : Diagnostic) : Keeps ts c Q (throw d) :=
  fun _ hs => ⟨hs, nofun⟩

theorem keeps_bind {P : α → Prop} {Q : β → Prop} {p : Parser α} {f : α → Parser β}
    (hp : Keeps ts c P p) (hf : ∀ a, P a → Keeps ts c Q (f a)) : Keeps ts c Q (p >>= f) := by
  intro s hs
  obtain ⟨hsuffix, hres⟩ := hp s hs
  rw [bind_run]
  cases hrun : p c s with
  | error d s' =>
    rw [hrun] at hsuffix
    exact ⟨hsuffix, nofun⟩
  | ok a s' =>
    rw [hrun] at hsuffix
    exact hf a (hres a s' hrun) s' hsuffix

theorem keeps_map {P : α → Prop} {Q : β → Prop} {p : Parser α} {f : α → β}
    (hp : Keeps ts c P p) (hf : ∀ a, P a → Q (f a)) : Keeps ts c Q (f <$> p) := by
  rw [← bind_pure_comp]
  exact keeps_bind hp fun a ha => keeps_pure (hf a ha)

theorem keeps_ite {Q : α → Prop} {b : Prop} [Decidable b] {p q : Parser α}
    (hp : Keeps ts c Q p) (hq : Keeps ts c Q q) : Keeps ts c Q (if b then p else q) := by
  split
  · exact hp
  · exact hq

/-- A choice between two readers with one continuation. -/
theorem keeps_join {P : α → Prop} {Q : β → Prop} {b : Prop} [Decidable b] {p q : Parser α}
    {k : α → Parser β} (hp : Keeps ts c P p) (hq : Keeps ts c P q)
    (hk : ∀ a, P a → Keeps ts c Q (k a)) :
    Keeps ts c Q (if b then p >>= k else q >>= k) :=
  keeps_ite (keeps_bind hp hk) (keeps_bind hq hk)

theorem keeps_skip (n : Nat) : Keeps ts c (fun _ => True) (skip n) :=
  fun s hs => ⟨(List.drop_suffix n s.rest).trans hs, fun _ _ _ => trivial⟩

theorem keeps_skipBy (rule : List Token → Nat) : Keeps ts c (fun _ => True) (skipBy rule) :=
  fun s hs => ⟨(List.drop_suffix _ s.rest).trans hs, fun _ _ _ => trivial⟩

theorem keeps_note (e : Event) : Keeps ts c (fun _ => True) (note e) :=
  fun _ hs => ⟨hs, fun _ _ _ => trivial⟩

/-- A reader that only looks, or that is known to stay inside its brace group. -/
theorem keeps_of_contained {p : Parser α} (h : ∀ s, Contained c s (p c s)) :
    Keeps ts c (fun _ => True) p :=
  fun s hs => ⟨(h s).1.trans hs, fun _ _ _ => trivial⟩

theorem keeps_of_skirts {p : Parser α} (h : ∀ s, Skirts s (p c s)) : Keeps ts c (fun _ => True) p :=
  keeps_of_contained fun s => (h s).contained

theorem keeps_read : Keeps ts c (fun c' => c' = c) read :=
  fun _ hs => ⟨hs, fun _ _ hrun => by cases hrun; rfl⟩

theorem keeps_rest : Keeps ts c (fun _ => True) rest := keeps_of_contained fun _ => contained_ok _

theorem keeps_steps : Keeps ts c (fun _ => True) steps := keeps_of_contained fun _ => contained_ok _

theorem keeps_kind : Keeps ts c (fun _ => True) kind := keeps_of_contained fun _ => contained_ok _

theorem keeps_secondKind : Keeps ts c (fun _ => True) secondKind :=
  keeps_of_contained fun _ => contained_ok _

theorem keeps_check (k : Kind) : Keeps ts c (fun _ => True) (check k) :=
  keeps_of_contained fun _ => contained_ok _

theorem keeps_here : Keeps ts c (fun _ => True) here :=
  keeps_of_contained fun s => by rw [here_run]; exact contained_ok _

theorem keeps_spanFrom (start : Location) : Keeps ts c (fun _ => True) (spanFrom start) :=
  keeps_of_contained fun _ => contained_place start

theorem keeps_unexpected (expected : String) : Keeps ts c (fun _ => True) (unexpected expected) :=
  keeps_of_contained fun s => by rw [unexpected_run]; exact contained_ok _

theorem keeps_fail {Q : α → Prop} (expected : String) : Keeps ts c Q (fail expected) := by
  intro s hs
  rw [fail_run]
  exact ⟨hs, nofun⟩

theorem keeps_accept (k : Kind) : Keeps ts c (fun _ => True) (accept k) :=
  keeps_bind (keeps_check k) fun _ _ =>
    keeps_ite (keeps_bind (keeps_skip 1) fun _ _ => keeps_pure trivial) (keeps_pure trivial)

theorem keeps_require (k : Kind) (expected : String) :
    Keeps ts c (fun _ => True) (require k expected) :=
  keeps_bind (keeps_check k) fun _ _ => keeps_ite (keeps_skip 1) (keeps_fail expected)

theorem keeps_report (d : Diagnostic) : Keeps ts c (fun _ => True) (report d) :=
  keeps_of_contained fun _ => contained_report d

theorem keeps_recover {Q : α → Prop} {p resume : Parser α} (hp : Keeps ts c Q p)
    (hresume : Keeps ts c Q resume) : Keeps ts c Q (recover p resume) := by
  intro s hs
  rw [recover_run]
  cases hrun : p c s with
  | ok a s' =>
    have hkept := hp s hs
    rw [hrun] at hkept
    exact hkept
  | error d s' =>
    have hsuffix := (hp s hs).1
    rw [hrun] at hsuffix
    exact keeps_bind (keeps_report d) (fun _ _ => hresume) s' hsuffix

theorem keeps_attempt {Q : α → Prop} {p : Parser α} (hp : Keeps ts c Q p) :
    Keeps ts c (fun r => ∀ a, r = .ok a → Q a) (attempt p) := by
  intro s hs
  obtain ⟨hsuffix, hres⟩ := hp s hs
  rw [attempt_run]
  cases hrun : p c s with
  | ok a s' =>
    rw [hrun] at hsuffix
    refine ⟨hsuffix, fun r s'' h b hb => ?_⟩
    cases h
    cases hb
    exact hres a s' hrun
  | error d s' =>
    rw [hrun] at hsuffix
    refine ⟨hsuffix, fun r s'' h b hb => ?_⟩
    cases h
    cases hb

/-- A missing closing brace is reported, and what has been found is kept. -/
theorem keeps_close {Q : α → Prop} {expected : String} {k : Parser α} (hk : Keeps ts c Q k) :
    Keeps ts c Q (do
      if !(← accept Mark.closeBrace) then
        report (← unexpected expected)
      k) := by
  refine keeps_bind (keeps_accept _) fun _ _ => keeps_ite ?_ hk
  exact keeps_bind (keeps_unexpected _) fun _ _ => keeps_bind (keeps_report _) fun _ _ => hk

end JavaTree.Parser
