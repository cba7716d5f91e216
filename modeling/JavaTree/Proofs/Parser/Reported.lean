import JavaTree.Proofs.Parser.Findings
import JavaTree.Proofs.Token.Coordinates
import JavaTree.Proofs.Token.Recovered

/-!
The findings of a source text.

Reading goes forward through the tokens and a finding is about the next one, so the findings come in
the order of the text. One that waits to be recorded is no exception: nothing else is recorded before
it, and what is passed over in between lies behind its place.

    tokens:     t₁   t₂   t₃   t₄   t₅   end
    findings:   d₁ ≤ d₂   ≤    d₃
                recorded       waits     next

A finding about an invalid token is the fault that has left this token. There is one in its place,
and only one.
-/

namespace JavaTree.Parser

variable {c : Settings} {s : State} {d : Diagnostic} {ts : List Token} {l : Location}

/-! ### In the order of the text -/

/-- Findings about some of the given tokens, in order, and none of them about a place behind the
given one. -/
structure Reported (faults : List Fault) (ts : List Token) (l : Location) (ds : List Diagnostic) :
    Prop where
  about : ∀ d ∈ ds, ∃ t ∈ ts, Concerns faults t d
  inOrder : ds.Pairwise fun a b => a.location ≤ b.location
  upTo : ∀ d ∈ ds, d.location ≤ l

theorem reported_nil {faults : List Fault} : Reported faults ts l [] := ⟨nofun, .nil, nofun⟩

theorem Reported.mono {faults : List Fault} {ds : List Diagnostic} {l' : Location}
    (h : Reported faults ts l ds) (hl : l ≤ l') : Reported faults ts l' ds :=
  ⟨h.about, h.inOrder, fun d hd => Location.le_trans (h.upTo d hd) hl⟩

/-- One more finding, about a place behind those of all others. -/
theorem Reported.concat {faults : List Fault} {ds : List Diagnostic} {t : Token}
    (h : Reported faults ts l ds) (ht : t ∈ ts) (hd : Concerns faults t d) (hl : d.location = l) :
    Reported faults ts l (ds ++ [d]) := by
  refine ⟨fun e he => ?_, List.pairwise_append.mpr ⟨h.inOrder, List.pairwise_singleton _ _, ?_⟩,
    fun e he => ?_⟩
  · rcases List.mem_append.mp he with he | he
    · exact h.about e he
    · exact ⟨t, ht, List.mem_singleton.mp he ▸ hd⟩
  · intro a ha b hb
    rw [List.mem_singleton.mp hb, hl]
    exact h.upTo a ha
  · rcases List.mem_append.mp he with he | he
    · exact h.upTo e he
    · rw [List.mem_singleton.mp he, hl]
      exact Location.le_refl l

/-- The finding that the budget is spent stands where the last finding does. -/
theorem Reported.spent {faults : List Fault} {ds : List Diagnostic}
    (h : Reported faults ts l (ds ++ [d])) (count : Nat) :
    Reported faults ts l (ds ++ [d] ++ [.tooManyErrors count d.location]) := by
  have hlast : d ∈ ds ++ [d] := List.mem_concat_self
  obtain ⟨t, ht, hd⟩ := h.about d hlast
  have hat : Reported faults ts d.location (ds ++ [d]) := by
    refine ⟨h.about, h.inOrder, fun e he => ?_⟩
    rcases List.mem_append.mp he with he | he
    · exact (List.pairwise_append.mp h.inOrder).2.2 e he d (List.mem_singleton.mpr rfl)
    · exact List.mem_singleton.mp he ▸ Location.le_refl _
  have hspent : Concerns faults t (.tooManyErrors count d.location) := by
    rw [hd.location]
    exact .tooManyErrors count
  exact (hat.concat ht hspent rfl).mono (h.upTo d hlast)

/-- The next token is the first one of those that are left and the end. -/
theorem next_cons (c : Settings) (s : State) :
    ∃ behind, s.rest ++ [Token.endAt c.stop] = s.next c :: behind := by
  rw [State.next]
  cases s.rest with
  | nil => exact ⟨[], rfl⟩
  | cons t ts => exact ⟨ts ++ [Token.endAt c.stop], rfl⟩

theorem mem_of_next (hs : s.rest <:+ ts) : s.next c ∈ ts ++ [Token.endAt c.stop] := by
  obtain ⟨behind, hnext⟩ := next_cons c s
  obtain ⟨front, rfl⟩ := hs
  rw [List.append_assoc, hnext]
  exact List.mem_append_right front List.mem_cons_self

section Sorted

variable (hsorted : (ts ++ [Token.endAt c.stop]).Pairwise fun a b => a.location < b.location)

include hsorted

/-- What is next when some tokens have been passed over is not before what was next. -/
theorem next_le_skip (hs : s.rest <:+ ts) (n : Nat) :
    (s.next c).location ≤ ((s.skip n).next c).location := by
  obtain ⟨front, rfl⟩ := hs
  obtain ⟨behind, hnext⟩ := next_cons c s
  have hlater : (s.skip n).next c ∈ s.next c :: behind := by
    rw [← hnext]
    exact mem_of_next (List.drop_suffix n s.rest)
  rw [List.append_assoc, hnext] at hsorted
  rcases List.mem_cons.mp hlater with heq | hmem
  · rw [heq]
    exact Location.le_refl _
  · exact Location.le_of_lt (List.rel_of_pairwise_cons (List.pairwise_append.mp hsorted).2.1 hmem)

/-- Reading goes through the tokens and reports in their order. -/
def inOrder : Invariant c where
  Holds s := s.rest <:+ ts ∧ Reported c.faults (ts ++ [Token.endAt c.stop]) (s.next c).location s.diagnostics
  Pending d s := s.rest <:+ ts ∧
    Reported c.faults (ts ++ [Token.endAt c.stop]) (s.next c).location (s.diagnostics ++ [d])
  skip h n := ⟨(List.drop_suffix n _).trans h.1, h.2.mono (next_le_skip hsorted h.1 n)⟩
  note h _ := h
  stop h hd n := ⟨(List.drop_suffix n _).trans h.1,
    (h.2.concat (mem_of_next h.1) hd hd.location).mono (next_le_skip hsorted h.1 n)⟩
  record h := h
  spent h count := ⟨h.1, h.2.spent count⟩

end Sorted

namespace Input

/-- The tokens of a source text and its end are what the recovering reading gives. -/
theorem tokens_concat_end (source : String) :
    (ofSource source).tokens ++ [Token.endAt (ofSource source).stop] = Lexer.recover source := by
  have hread : ∀ t ∈ (Lexer.items source).filterMap Lexer.Item.token?,
      ¬ decide (t.kind = .endOfInput) = true := by
    intro t ht hend
    exact Lexer.kind_ne_endOfInput (fun _ => Lexer.kind_of_mem_cut) ht (of_decide_eq_true hend)
  have hend : (Lexer.recover source).find? (·.kind = .endOfInput) = some (Lexer.endToken source) := by
    rw [Lexer.recover, List.find?_append, List.find?_eq_none.mpr hread]
    rfl
  have hstop : (ofSource source).stop = (Lexer.endToken source).location := by
    simp only [ofSource, ofTokens, hend]
  rw [tokens_ofSource, hstop]
  rfl

/-- The findings about a source text are about its tokens and its end, in order. -/
theorem reported_parse (source : String) (options : ParseOptions) :
    ∃ l, Reported (Lexer.faults source) (Lexer.recover source) l
      (CompilationUnit.parse source options).diagnostics := by
  have hsorted := Lexer.pairwise_recover source
  rw [← tokens_concat_end] at hsorted ⊢
  obtain ⟨o, s, hparse, hsettled⟩ := Invariant.settled_parse (ofSource source) options
    (inOrder hsorted) ⟨List.suffix_refl _, reported_nil⟩
  refine ⟨(s.next ((ofSource source).settings options)).location, ?_⟩
  rw [CompilationUnit.parse, hparse, ofOutcome_diagnostics]
  cases hstopped : o.stopped with
  | none =>
    rw [hstopped] at hsettled
    rw [Option.toList_none, List.append_nil]
    exact hsettled.2
  | some d =>
    rw [hstopped] at hsettled
    exact hsettled.2

/-- The findings about a source text come in the order of the text, and each of them stands where one of
its tokens or its end does. -/
theorem diagnostics_in_order (source : String) (options : ParseOptions) :
    let found := (CompilationUnit.parse source options).diagnostics
    found.Pairwise (fun a b => a.location ≤ b.location) ∧
      ∀ d ∈ found, ∃ t ∈ Lexer.recover source, t.location = d.location := by
  intro found
  obtain ⟨l, hreported⟩ := reported_parse source options
  refine ⟨hreported.inOrder, fun d hd => ?_⟩
  obtain ⟨t, ht, hconcerns⟩ := hreported.about d hd
  exact ⟨t, ht, hconcerns.location.symm⟩

/-- `class A { #; int }`: a fault, and a declaration that ends too early. -/
theorem diagnostics_in_order_twoFaults :
    let source := "class A \x7b #; int \x7d"
    ∃ a b, (CompilationUnit.parse source {}).diagnostics = [a, b] ∧ a.location ≤ b.location ∧
      a.location ≠ b.location ∧ ∃ t ∈ Lexer.recover source, t.location = b.location := by
  intro source
  have hplaces : (CompilationUnit.parse source {}).diagnostics.map (·.location) =
      [⟨1, 11, 10⟩, ⟨1, 18, 17⟩] := by decide +kernel
  obtain ⟨a, rest, hfound, ha, hrest⟩ := List.map_eq_cons_iff.mp hplaces
  obtain ⟨b, rfl, hb⟩ := List.map_eq_singleton_iff.mp hrest
  obtain ⟨hordered, hat⟩ := diagnostics_in_order source {}
  rw [hfound] at hordered hat
  refine ⟨a, b, hfound, List.rel_of_pairwise_cons hordered (List.mem_singleton.mpr rfl), ?_, ?_⟩
  · rw [ha, hb]
    decide
  · exact hat b (List.mem_cons_of_mem a (List.mem_singleton.mpr rfl))

end Input

/-! ### Faults -/

theorem filter_location {fs : List Fault} (hsorted : fs.Pairwise fun a b => a.location < b.location)
    {f : Fault} (hf : f ∈ fs) : fs.filter (·.location = f.location) = [f] := by
  induction fs with
  | nil => cases hf
  | cons g gs ih =>
    obtain ⟨hg, hgs⟩ := List.pairwise_cons.mp hsorted
    have hapart : ∀ a ∈ gs, a.location ≠ g.location := by
      intro a ha heq
      exact Location.lt_irrefl _ (heq ▸ hg a ha)
    rcases List.mem_cons.mp hf with rfl | hf
    · have hnone : gs.filter (·.location = f.location) = [] := by simpa using hapart
      simp [hnone]
    · have hother : g.location ≠ f.location := (hapart f hf).symm
      simpa [hother] using ih hgs hf

/-- A finding about an invalid token is the fault at its place, if there is one. -/
theorem lexical_eq_mismatch {faults : List Fault} {t : Token} {message : String}
    (h : Concerns faults t (.lexical message l)) : t.kind = .invalid ∧ l = t.location ∧
      ∀ f, faults.find? (·.location = t.location) = some f → message = f.kind.message := by
  generalize hd : Diagnostic.lexical message l = d at h
  cases h with
  | mismatch expected =>
    unfold mismatch at hd
    split at hd
    · cases hd
    · next hkind =>
      split at hd
      · next f hf =>
        cases hd
        refine ⟨hkind, rfl, fun g hg => ?_⟩
        rw [Option.some.inj (hf.symm.trans hg)]
      · next hnone =>
        cases hd
        exact ⟨hkind, rfl, fun g hg => absurd (hnone.symm.trans hg) nofun⟩
    · cases hd
  | unsupported construct => cases hd
  | limitExceeded what limit => cases hd
  | tooManyErrors count => cases hd

/-- What is said about a fault is not what is said about an invalid token without one. -/
theorem not_prefix_message (k : FaultKind) : ¬ "invalid token".toList <+: k.message.toList := by
  intro h
  rw [List.prefix_iff_eq_take] at h
  cases k with
  | invalidEscape escaped =>
    have hstarts : (FaultKind.invalidEscape escaped).message.toList =
        "invalid escape sequence '\\".toList ++ (String.singleton escaped ++ "'").toList :=
      (congrArg String.toList (String.append_assoc ..)).trans (String.toList_append ..)
    rw [hstarts, List.take_append_of_le_length (by decide +kernel)] at h
    revert h
    decide +kernel
  | _ => revert h; decide +kernel

/-- An invalid token of a source text is the mark of one of its faults. -/
theorem exists_fault_of_invalid {source : String} {t : Token} (ht : t ∈ Lexer.recover source)
    (hkind : t.kind = .invalid) : ∃ f ∈ Lexer.faults source, t.location = f.location := by
  obtain ⟨-, -, -, ts, hrecover, -, hmarks, -⟩ := Lexer.tokenize_agrees source
  have hmem : t ∈ ts := by
    rw [hrecover] at ht
    rcases List.mem_append.mp ht with ht | ht
    · exact ht
    · rw [List.mem_singleton.mp ht] at hkind
      cases hkind
  have hmark : t ∈ (Lexer.faults source).map Lexer.mark := by
    rw [← hmarks]
    exact List.mem_filter.mpr ⟨hmem, decide_eq_true hkind⟩
  obtain ⟨f, hf, rfl⟩ := List.mem_map.mp hmark
  exact ⟨f, hf, rfl⟩

namespace Input

/-- A lexical finding about a source text is one of its faults: there is one fault at its place and no
other, and the finding says what is said about this fault. It never says that a token is invalid. -/
theorem lexical_is_fault (source : String) (options : ParseOptions) {message : String} {l : Location}
    (h : .lexical message l ∈ (CompilationUnit.parse source options).diagnostics) :
    ∃ f, (Lexer.faults source).filter (·.location = l) = [f] ∧ message = f.kind.message ∧
      ¬ "invalid token".toList <+: message.toList := by
  obtain ⟨_, hreported⟩ := reported_parse source options
  obtain ⟨t, ht, hconcerns⟩ := hreported.about _ h
  obtain ⟨hkind, rfl, hfault⟩ := lexical_eq_mismatch hconcerns
  obtain ⟨f, hf, hlocation⟩ := exists_fault_of_invalid ht hkind
  have honly := filter_location (Lexer.pairwise_faults source) hf
  have hfound : (Lexer.faults source).find? (·.location = t.location) = some f := by
    rw [hlocation, ← List.head?_filter, honly]
    rfl
  have hmessage := hfault f hfound
  exact ⟨f, hlocation ▸ honly, hmessage, hmessage ▸ not_prefix_message f.kind⟩

/-- `class A { # }`: the fault is found where a member is expected. -/
theorem lexical_is_fault_unrecognized :
    let source := "class A \x7b # \x7d"
    ∃ f, (Lexer.faults source).filter (·.location = ⟨1, 11, 10⟩) = [f] ∧
      "unrecognized character" = f.kind.message ∧
      ¬ "invalid token".toList <+: "unrecognized character".toList :=
  lexical_is_fault "class A \x7b # \x7d" {} (by decide +kernel)

end Input

end JavaTree.Parser
