import JavaTree.Proofs.Reread.Units
import JavaTree.Proofs.Source.Clean
import JavaTree.Proofs.Source.Rewritten
import JavaTree.Proofs.Written.Units

/-!
Texts that are read and written again.

A text without findings is a passage of its tree. If no words of it run together when they are
written, the text of the tree spells words of the same tree, and among them is every name and every
literal that has reached the tree. So nothing else is lost, and where the words are also those that
are read back as they are, the text of the tree is a fixed point.

    text            tree            its text            its tree
     s  ── parse ──▶ u  ── render ──▶ t  ── parse ──▶ u'  ── render ──▶ t

Two things do not go that way. A lone semicolon leaves nothing, so an arrow that stands behind it in
a case is read as part of the label afterwards. And the annotations before an initializer and the
type parameters before a field are read without a finding, but leave nothing in the tree.
-/

namespace JavaTree

open JavaTree.Parser

/-! ### Words and tokens -/

/-- The word that a token with this word is written as. -/
def Word.canonical (w : Word) : Word := Token.written ⟨w.kind, w.text, ⟨0, 0, 0⟩⟩

theorem Token.canonical_word (t : Token) : t.word.canonical = t.written := rfl

theorem Token.canonical_written (t : Token) : t.written.canonical = t.written := by
  obtain ⟨k, x, l⟩ := t
  cases k <;> rfl

/-- A token that is among the words of a text is among its tokens, as it is written. -/
theorem count_le_count_written {source : String} {ws : List Word} (h : Spells source.toList ws) (t : Token) :
    ws.count t.written ≤ ((Input.ofSource source).tokens.map Token.written).count t.written := by
  have hwritten : (Input.ofSource source).tokens.map Token.written = ws.map Word.canonical := by
    rw [← (ofSource_eq h).2, List.map_map]
    exact List.map_congr_left fun t _ => t.canonical_word.symm
  rw [hwritten]
  conv_rhs => rw [← t.canonical_written]
  exact List.count_le_count_map

namespace Parser.Input

variable {source : String} {options : ParseOptions} {layout : Layout} {p : Passage} {rereads : Prop}

/-! ### Regular texts -/

theorem IsClean.kinds (hp : IsClean source options p) :
    p.words.map Word.kind = (ofSource source).tokens.map Token.kind := by
  rw [hp.words, List.map_map]
  rfl

theorem IsClean.isRegular (hp : IsClean source options p)
    (hpoints : ∀ t u v, [t, u, v] <:+: (ofSource source).tokens → ¬ Fuses t u v)
    (hlists : ∀ l ∈ p.lists, Angle.StaysApart l)
    (htypes : rereads → ∀ l ∈ p.lists, Angle.IsClosed l ∧ Angle.NoClash l)
    (harrows : rereads → NoHiddenArrow ((ofSource source).tokens.map Token.kind)) : p.IsRegular rereads := by
  rw [← hp.kinds] at harrows
  exact ⟨hp.words ▸ noPoints_written.mpr hpoints, hlists, htypes, harrows⟩

/-- Where no two dots and no two `<` are next to each other, they are not so in a list. -/
theorem IsClean.noClash (hp : IsClean source options p)
    (hdots : NoPair (.mark .dot) (.mark .dot) ((ofSource source).tokens.map Token.kind))
    (hless : NoPair (.mark .less) (.mark .less) ((ofSource source).tokens.map Token.kind)) :
    ∀ l ∈ p.lists, Angle.NoClash l := by
  intro l hl
  have hpart := (Angle.infix_of_mem_candidates (p.within l hl)).map Word.kind
  rw [hp.kinds] at hpart
  refine Angle.noClash_of_noPair ?_ ?_
  · exact List.IsChain.infix hdots hpart
  · exact List.IsChain.infix hless hpart

/-- Lists that hold nothing but types stay apart. -/
theorem IsClean.staysApart (hp : IsClean source options p)
    (h : ∀ l ∈ p.lists, Angle.IsClosed l ∧ Angle.NoClash l) : ∀ l ∈ p.lists, Angle.StaysApart l := by
  intro l hl
  obtain ⟨hclosed, hclash⟩ := h l hl
  obtain ⟨v, vs, hv, hopen⟩ := Angle.opens_of_mem_candidates (p.within l hl)
  have hpart := Angle.infix_of_mem_candidates (p.within l hl)
  rw [hp.words] at hpart
  obtain ⟨ts, hts, rfl⟩ := List.infix_map_iff.mp hpart
  refine hclosed.staysApart (fun t ht => ?_) ?_ hclash
  · refine (isSound_of_mem_tokens (hts.subset ht)).isReadable fun hk => ?_
    have htype := hclosed.inType _ (List.mem_map_of_mem ht)
    rw [show t.written.kind = .invalid from hk] at htype
    cases htype
  · rcases ts with _ | ⟨t, ts⟩
    · cases hv
    · rw [List.map_cons, List.cons.injEq] at hv
      rw [← hv.1] at hopen
      exact hopen

/-- The lists of a passage are among the stretches that can be lists. -/
theorem IsClean.forall_lists {P : List Word → Prop} (hp : IsClean source options p)
    (h : ∀ l ∈ Angle.candidates ((ofSource source).tokens.map Token.written), P l) : ∀ l ∈ p.lists, P l := by
  rw [← hp.words] at h
  exact fun l hl => h l (p.within l hl)

/-- The text of the tree of a regular text spells words of the tree, with all that has reached it. -/
theorem IsClean.spells (hp : IsClean source options p) (hregular : p.IsRegular rereads)
    (hlayout : layout.problem? = none) :
    ∃ ws, Spells ((CompilationUnit.parse source options).unit.render layout).toList ws ∧
      UnitWords rereads (CompilationUnit.parse source options).unit.depth
        (CompilationUnit.parse source options).unit ws ∧
      ∀ w, tally w p.words ≤ tally w ws + tally w p.left := by
  obtain ⟨ws, hws, hkeeps⟩ := hp.passage.rewritten hregular
  exact ⟨ws, spells_unit hlayout hws, hws, hkeeps⟩

/-! ### Fixed points -/

/-- The text of the tree of a text without findings is read without a finding, as a tree that has
the same text and the same summary. No two dots and no two `<` of the first text are next to each
other; no arrow stands behind a colon with nothing but semicolons between them; each list of type
arguments holds nothing but types and is closed by its last word; and the caps do not come into play in
the second text. -/
theorem render_fixed (hclean : (CompilationUnit.parse source options).diagnostics = [])
    (hdots : NoPair (.mark .dot) (.mark .dot) ((ofSource source).tokens.map Token.kind))
    (hless : NoPair (.mark .less) (.mark .less) ((ofSource source).tokens.map Token.kind))
    (harrows : NoHiddenArrow ((ofSource source).tokens.map Token.kind))
    (hlayout : layout.problem? = none)
    (hcaps : options.Suffice ((CompilationUnit.parse source options).unit.render layout)
      (CompilationUnit.parse source options).unit.depth) :
    (∃ p, IsClean source options p) ∧
      ∀ p, IsClean source options p → (∀ l ∈ p.lists, Angle.IsClosed l) →
        let unit := (CompilationUnit.parse source options).unit
        let again := CompilationUnit.parse (unit.render layout) options
        again.diagnostics = [] ∧ again.unit.render layout = unit.render layout ∧
          again.unit.summary = unit.summary := by
  refine ⟨isClean hclean, fun p hp hlists => ?_⟩
  have hclash := hp.noClash hdots hless
  have htypes (l : List Word) (hl : l ∈ p.lists) := And.intro (hlists l hl) (hclash l hl)
  have hregular : p.IsRegular True := hp.isRegular (fun _ _ _ => not_fuses_of_noPair hdots)
    (hp.staysApart htypes) (fun _ => htypes) fun _ => harrows
  obtain ⟨ws, hspells, hws, -⟩ := hp.spells hregular hlayout
  obtain ⟨hquiet, halike⟩ := parse_of_spells hspells hws hcaps
  exact ⟨hquiet, congrArg (Page.render layout) (halike.lines layout.braceStyle), halike.summary⟩

/-- A modifier before an annotation, two fields in one declaration, brackets behind a name and a lone
semicolon are written in another way, and read as they are written. -/
theorem render_fixed_modifierFirst :
    let source := "class A<T extends B<K> > \x7b final @X int a, b[]; void f() \x7b if (x) ; \x7d \x7d"
    let unit := (CompilationUnit.parse source {}).unit
    let again := CompilationUnit.parse (unit.render {}) {}
    (∃ p, IsClean source {} p ∧ ∀ l ∈ p.lists, Angle.IsClosed l) ∧
      again.diagnostics = [] ∧ again.unit.render {} = unit.render {} ∧
        again.unit.summary = unit.summary := by
  intro source unit again
  obtain ⟨hclean, hdots, hless, harrows, hdepth, hroom, hlists⟩ :
      (CompilationUnit.parse source {}).diagnostics = [] ∧
        NoPair (.mark .dot) (.mark .dot) ((ofSource source).tokens.map Token.kind) ∧
        NoPair (.mark .less) (.mark .less) ((ofSource source).tokens.map Token.kind) ∧
        NoHiddenArrow ((ofSource source).tokens.map Token.kind) ∧
        unit.depth ≤ 48 ∧ (ofSource (unit.render {})).tokens.length ≤ 100000 ∧
        ∀ l ∈ Angle.candidates ((ofSource source).tokens.map Token.written), Angle.IsClosed l := by
    decide +kernel
  obtain ⟨⟨p, hp⟩, hfixed⟩ := render_fixed hclean hdots hless harrows rfl
    ⟨{}, hdepth, ⟨hroom, hroom.trans (by decide), hroom⟩, rfl⟩
  exact ⟨⟨p, hp, hp.forall_lists hlists⟩, hfixed p hp (hp.forall_lists hlists)⟩

/-- A lone semicolon that keeps an arrow away from a label is left out, and what is left is not read
without a finding. -/
theorem render_not_fixed_hiddenArrow :
    let source := "class A \x7b \x7b switch (x) \x7b case 1: ; -> y; \x7d \x7d \x7d"
    let kinds := (ofSource source).tokens.map Token.kind
    let unit := (CompilationUnit.parse source {}).unit
    (CompilationUnit.parse source {}).diagnostics = [] ∧ NoPair (.mark .dot) (.mark .dot) kinds ∧
      NoPair (.mark .less) (.mark .less) kinds ∧
      Angle.candidates ((ofSource source).tokens.map Token.written) = [] ∧ unit.depth ≤ 48 ∧
      (ofSource (unit.render {})).tokens.length ≤ 100000 ∧
      (CompilationUnit.parse (unit.render {}) {}).diagnostics ≠ [] := by
  decide +kernel

/-! ### What is kept -/

/-- Each name and each literal of a text without findings is in the text of its tree at least as often
as in the text, but for what has been left out of the tree. No two dots of the text have a third point
right behind them; and no list of type arguments holds a literal with quotes, or words other than closing
brackets that run together when they are written. -/
theorem count_le_count_render (hclean : (CompilationUnit.parse source options).diagnostics = [])
    (hpoints : ∀ t u v, [t, u, v] <:+: (ofSource source).tokens → ¬ Fuses t u v)
    (hlayout : layout.problem? = none) :
    (∃ p, IsClean source options p) ∧
      ∀ p, IsClean source options p → (∀ l ∈ p.lists, Angle.StaysApart l) →
        ∀ t : Token, t.kind.isContent = true →
          ((ofSource source).tokens.map Token.written).count t.written ≤
            ((ofSource ((CompilationUnit.parse source options).unit.render layout)).tokens.map
              Token.written).count t.written + p.left.count t.written := by
  refine ⟨isClean hclean, fun p hp hlists t ht => ?_⟩
  have hregular : p.IsRegular False := hp.isRegular hpoints hlists False.elim False.elim
  obtain ⟨ws, hspells, -, hkeeps⟩ := hp.spells hregular hlayout
  have hcount := hkeeps t.written
  rw [tally_eq_count ht, tally_eq_count ht, tally_eq_count ht, hp.words] at hcount
  exact hcount.trans (Nat.add_le_add_right (count_le_count_written hspells t) _)

/-- A literal with another escape is the same literal when it is written, and a list keeps the name of an
annotation in it. -/
theorem count_le_count_render_literal :
    let source := "class A \x7b Map<K, List<@N V> > m = f(\"\\u0041\", K); \x7d"
    let unit := (CompilationUnit.parse source {}).unit
    let written (text : String) := (ofSource text).tokens.map Token.written
    ∃ p, IsClean source {} p ∧ (∀ l ∈ p.lists, Angle.StaysApart l) ∧
      (written source).count (.name "K") = 2 ∧ (written source).count (.name "N") = 1 ∧
      ∀ t : Token, t.kind.isContent = true → (written source).count t.written ≤
        (written (unit.render {})).count t.written + p.left.count t.written := by
  intro source unit written
  obtain ⟨hclean, hdots, hlists, hcount⟩ :
      (CompilationUnit.parse source {}).diagnostics = [] ∧
        NoPair (.mark .dot) (.mark .dot) ((ofSource source).tokens.map Token.kind) ∧
        (∀ l ∈ Angle.candidates ((ofSource source).tokens.map Token.written), Angle.StaysApart l) ∧
        (written source).count (.name "K") = 2 ∧ (written source).count (.name "N") = 1 := by
    decide +kernel
  obtain ⟨⟨p, hp⟩, hkeeps⟩ := @count_le_count_render source {} {} hclean
    (fun _ _ _ => not_fuses_of_noPair hdots) rfl
  have hapart := hp.forall_lists hlists
  exact ⟨p, hp, hapart, hcount.1, hcount.2, hkeeps p hp hapart⟩

/-- The annotation before an initializer is dropped without a finding. -/
theorem render_drops_annotation :
    let source := "class A \x7b @X static \x7b \x7d \x7d"
    let written (text : String) := (ofSource text).tokens.map Token.written
    (CompilationUnit.parse source {}).diagnostics = [] ∧ (written source).count (.name "X") = 1 ∧
      (written ((CompilationUnit.parse source {}).unit.render {})).count (.name "X") = 0 := by
  decide +kernel

end Parser.Input

end JavaTree
