import JavaTree.Proofs.Matching.Units
import JavaTree.Proofs.Parser.Budget
import JavaTree.Proofs.Token.Coordinates
import JavaTree.Proofs.Token.Recovered
import JavaTree.Proofs.Token.Spelling

/-!
The layout of a text does not matter.

Blanks, comments and byte order marks leave nothing among the tokens of a text but the places of the
others. A reader asks for a place in one case alone, to find the fault that an invalid token stands
for, and there it is the only fault: the pieces of a text stand in strict order. So all that a reader
can tell of the tokens of a text is given by their words and by the kinds of the faults in order, and
two texts that agree in these are read alike.

    words:    int  x  #  ;  #           kinds of faults:  unrecognized, unrecognized
    sights:   int  x  (#, unrecognized)  ;  (#, unrecognized)
-/

namespace JavaTree

namespace Lexer

/-! ### The faults of invalid tokens -/

/-- A fault is the only one in its place. -/
theorem find?_fault {is : List Item} (hplaces : is.Pairwise fun i j => i.location < j.location)
    {f : Fault} (hf : .fault f ∈ is) :
    (is.filterMap Item.fault?).find? (·.location = f.location) = some f := by
  induction is with
  | nil => cases hf
  | cons i rest ih =>
    obtain ⟨hi, hrest⟩ := List.pairwise_cons.mp hplaces
    rcases List.mem_cons.mp hf with rfl | hbehind
    · simp [Item.fault?]
    · cases i with
      | token t => exact ih hrest hbehind
      | fault g =>
        have hne : g.location ≠ f.location := by
          intro heq
          have hlt : g.location < f.location := hi _ hbehind
          rw [heq] at hlt
          exact Location.le_refl _ hlt
        simpa [List.filterMap_cons, Item.fault?, hne] using ih hrest hbehind

/-- What a reader can tell of tokens with the given words, when the faults of the invalid ones are of
the given kinds, in order. -/
def sights : List Word → List FaultKind → List (Token × Option FaultKind)
  | [], _ => []
  | w :: ws, ks =>
    if w.kind = .invalid then (⟨w.kind, w.text, .start⟩, ks.head?) :: sights ws ks.tail
    else (⟨w.kind, w.text, .start⟩, none) :: sights ws ks

/-- All that a reader can tell of the tokens of a text is given by their words and by the kinds of the
faults. -/
theorem map_sight {c : Parser.Settings} {is : List Item}
    (hread : ∀ t, .token t ∈ is → t.kind ≠ .endOfInput ∧ t.kind ≠ .invalid)
    (hfind : ∀ f, .fault f ∈ is → c.faults.find? (·.location = f.location) = some f) :
    (is.filterMap Item.token?).map c.sight =
      sights ((is.filterMap Item.token?).map Token.word) ((is.filterMap Item.fault?).map Fault.kind) := by
  induction is with
  | nil => rfl
  | cons i rest ih =>
    have hrest := ih (fun t ht => hread t (List.mem_cons_of_mem _ ht))
      fun f hf => hfind f (List.mem_cons_of_mem _ hf)
    cases i with
    | fault f =>
      have hf := hfind f List.mem_cons_self
      simp [Item.token?, Item.fault?, sights, Token.word, Token.bare, Parser.Settings.sight,
        Parser.Settings.faultKind?, hf, hrest]
    | token t =>
      have hvalid := (hread t List.mem_cons_self).2
      by_cases htrivia : t.kind.isTrivia = true
      · simpa [List.filterMap_cons, Item.token?, Item.fault?, htrivia] using hrest
      · simp [List.filterMap_cons, Item.token?, Item.fault?, htrivia, sights, Token.word, Token.bare,
          Parser.Settings.sight, Parser.Settings.faultKind?, hvalid, hrest]

/-! ### Texts without their layout -/

/-- What is left of a text without its blanks, comments and byte order marks. -/
def stripped (source : String) : String :=
  String.join (((items source).filter (·.token?.isSome)).map Item.text)

theorem text_of_token? {i : Item} {t : Token} (h : i.token? = some t) : i.text = t.lexeme := by
  cases i with
  | token u =>
    rw [Item.token?, Option.ite_none_left_eq_some, Option.some.injEq] at h
    rw [← h.2]
    rfl
  | fault f =>
    cases h
    rfl

theorem map_text_filter (is : List Item) :
    (is.filter (·.token?.isSome)).map Item.text = (is.filterMap Item.token?).map Token.lexeme := by
  induction is with
  | nil => rfl
  | cons i rest ih =>
    cases hi : i.token? with
    | none => rw [List.filter_cons_of_neg (by simp [hi]), List.filterMap_cons_none hi, ih]
    | some t =>
      rw [List.filter_cons_of_pos (by simp [hi]), List.filterMap_cons_some hi, List.map_cons,
        List.map_cons, text_of_token? hi, ih]

end Lexer

namespace Parser.Input

variable {a b : String}

/-- The words of the tokens that are read, without the one for the end of the text. -/
theorem words_eq (hwords : (Lexer.recover a).map Token.word = (Lexer.recover b).map Token.word) :
    ((Lexer.items a).filterMap Lexer.Item.token?).map Token.word =
      ((Lexer.items b).filterMap Lexer.Item.token?).map Token.word := by
  rw [Lexer.recover, Lexer.recover, List.map_append, List.map_append] at hwords
  exact (List.append_inj' hwords rfl).1

theorem map_sight_tokens (source : String) (options : ParseOptions) :
    (ofSource source).tokens.map ((ofSource source).settings options).sight =
      Lexer.sights (((Lexer.items source).filterMap Lexer.Item.token?).map Token.word)
        ((Lexer.faults source).map Fault.kind) := by
  rw [tokens_ofSource]
  refine Lexer.map_sight (fun t => Lexer.kind_of_mem_cut) ?_
  intro f hf
  exact Lexer.find?_fault (Lexer.pairwise_cut _ _ _) hf

/-- Two texts that agree in their words and in the kinds of their faults start out abreast. -/
theorem abreast (hwords : (Lexer.recover a).map Token.word = (Lexer.recover b).map Token.word)
    (hkinds : (Lexer.faults a).map Fault.kind = (Lexer.faults b).map Fault.kind)
    (options : ParseOptions) :
    Abreast ((ofSource a).settings options) ((ofSource b).settings options) (ofSource a).state
      (ofSource b).state where
  limits := rfl
  budget := rfl
  ahead := by
    show (ofSource a).tokens.map _ = (ofSource b).tokens.map _
    rw [map_sight_tokens, map_sight_tokens, words_eq hwords, hkinds]
  found := rfl

/-- The layout of a text does not matter. If the tokens of two texts, invalid ones among them, agree
one by one in kind and lexeme, and their faults in kind, then the texts are the same without blanks,
comments and byte order marks. Read with the same options, they give trees that are the same but for
places, findings that are the same but for places, and the same text in every layout. -/
theorem parse_relayout (a b : String) (options : ParseOptions)
    (hwords : (Lexer.recover a).map Token.word = (Lexer.recover b).map Token.word)
    (hkinds : (Lexer.faults a).map Fault.kind = (Lexer.faults b).map Fault.kind) :
    Lexer.stripped a = Lexer.stripped b ∧
    (CompilationUnit.parse a options).unit.bare = (CompilationUnit.parse b options).unit.bare ∧
    (CompilationUnit.parse a options).diagnostics.map Diagnostic.bare =
      (CompilationUnit.parse b options).diagnostics.map Diagnostic.bare ∧
    ∀ layout, (CompilationUnit.parse a options).unit.render layout =
      (CompilationUnit.parse b options).unit.render layout := by
  obtain ⟨o, s, hrun, hparse, -⟩ := parse_settled (ofSource a) options
  obtain ⟨o', s', hrun', hparse', -⟩ := parse_settled (ofSource b) options
  have hsame := matches_unit _ _ (abreast hwords hkinds options)
  rw [hrun, hrun'] at hsame
  obtain ⟨hsight, habreast⟩ := hsame
  obtain ⟨hfound, hstopped⟩ := Prod.mk.inj hsight
  have hunit : (CompilationUnit.parse a options).unit.bare = (CompilationUnit.parse b options).unit.bare := by
    rw [CompilationUnit.parse, CompilationUnit.parse, hparse, hparse', ofOutcome_unit, ofOutcome_unit, hfound]
  refine ⟨?_, hunit, ?_, ?_⟩
  · have hlexemes := congrArg (List.map Word.text) (words_eq hwords)
    rw [List.map_map, List.map_map] at hlexemes
    rw [Lexer.stripped, Lexer.stripped, Lexer.map_text_filter, Lexer.map_text_filter]
    exact congrArg String.join hlexemes
  · rw [CompilationUnit.parse, CompilationUnit.parse, hparse, hparse', ofOutcome_diagnostics,
      ofOutcome_diagnostics, List.map_append, List.map_append, habreast.found, ← Option.toList_map,
      ← Option.toList_map, hstopped]
  · intro layout
    rw [← CompilationUnit.render_bare, hunit, CompilationUnit.render_bare]

/-- A field behind a fault, on one line and on four. -/
theorem parse_relayout_field :
    let a := "class   A\x7b/* note */ # int  x ;\x7d"
    let b := "\uFEFFclass A \x7b // a class\n    #\n    int x;\n\x7d\n"
    (Lexer.recover a).map Token.word = (Lexer.recover b).map Token.word ∧
    (Lexer.faults a).map Fault.kind = (Lexer.faults b).map Fault.kind ∧
    Lexer.recover a ≠ Lexer.recover b ∧
    (CompilationUnit.parse a {}).unit.bare = (CompilationUnit.parse b {}).unit.bare ∧
    (CompilationUnit.parse a {}).diagnostics.map Diagnostic.bare =
      (CompilationUnit.parse b {}).diagnostics.map Diagnostic.bare ∧
    (CompilationUnit.parse a {}).unit.render {} = (CompilationUnit.parse b {}).unit.render {} := by
  intro a b
  have hwords : (Lexer.recover a).map Token.word = (Lexer.recover b).map Token.word := by decide +kernel
  have hkinds : (Lexer.faults a).map Fault.kind = (Lexer.faults b).map Fault.kind := by decide +kernel
  have hplaces : Lexer.recover a ≠ Lexer.recover b := by decide +kernel
  obtain ⟨-, hunit, hfound, hrender⟩ := parse_relayout a b {} hwords hkinds
  exact ⟨hwords, hkinds, hplaces, hunit, hfound, hrender {}⟩

end Parser.Input

end JavaTree
