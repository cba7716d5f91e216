import JavaTree.Proofs.Reread.Standing
import JavaTree.Proofs.Written.Parts

/-!
Texts of types that are read back.

A tree keeps the name of a type, and a list of type parameters, as a text. That text is read back as the
type or the list that it was taken from exactly if it is legible. So it is where each list that was
captured has the text of a legible one. The return type of a method that returns nothing is kept as
`void`, which is no type to read.
-/

namespace JavaTree.Parser

variable {α β : Type} {c : Settings} {s s' : State}

/-! ### Caps that play no part -/

/-- Settings with the same cap for lists, and the given number as the caps for rows. -/
def Settings.withRows (c : Settings) (n : Nat) : Settings :=
  { c with limits := { c.limits with blockStatements := n, typeMembers := n } }

/-- A reader that does not look at the caps for rows. -/
def IgnoresRows (p : Parser α) : Prop := ∀ c n s, p (c.withRows n) s = p c s

theorem IgnoresRows.bind {p : Parser α} {f : α → Parser β} (hp : IgnoresRows p)
    (hf : ∀ a, IgnoresRows (f a)) : IgnoresRows (p >>= f) := by
  intro c n s
  rw [bind_run, bind_run, hp c n s]
  cases p c s with
  | ok a s' => exact hf a c n s'
  | error d s' => rfl

theorem IgnoresRows.ite {b : Prop} [Decidable b] {p q : Parser α} (hp : IgnoresRows p)
    (hq : IgnoresRows q) : IgnoresRows (if b then p else q) := by
  split
  · exact hp
  · exact hq

theorem ignoresRows_identifier : IgnoresRows identifier := fun c n s => by
  rw [identifier_run, identifier_run]
  rfl

theorem ignoresRows_peek : IgnoresRows peek := fun c n s => by
  rw [peek_run, peek_run]
  rfl

theorem ignoresRows_here : IgnoresRows here := fun c n s => by
  rw [here_run, here_run]
  rfl

theorem ignoresRows_spanFrom (start : Location) : IgnoresRows (spanFrom start) := fun c n s => by
  rw [spanFrom_run, spanFrom_run]
  rfl

theorem ignoresRows_angleText : IgnoresRows angleText := fun c n s => by
  rw [angleText_run, angleText_run]
  rfl

theorem ignoresRows_typeName (known : String) (m : Nat) : IgnoresRows (typeName known m) := by
  induction m generalizing known with
  | zero => exact fun _ _ _ => rfl
  | succ m ih =>
    rw [typeName_succ, namedArguments]
    refine .bind (.bind (fun _ _ _ => rfl) fun _ => .ite ?_ fun _ _ _ => rfl) fun named => ?_
    · exact ignoresRows_angleText.bind fun _ _ _ _ => rfl
    · refine .bind (fun _ _ _ => rfl) fun _ => .ite ?_ fun _ _ _ => rfl
      exact .bind (fun _ _ _ => rfl) fun _ => ignoresRows_identifier.bind fun _ => ih _

theorem ignoresRows_typeUse : IgnoresRows typeUse := by
  have hended (start : Location) (name : String) : IgnoresRows (do
      let n ← brackets
      return ⟨name, n, ← spanFrom start⟩ : Parser TypeUse) := by
    exact .bind (fun _ _ _ => rfl) fun _ => (ignoresRows_spanFrom start).bind fun _ _ _ _ => rfl
  refine .bind ignoresRows_here fun start => .bind ignoresRows_peek fun first => .ite ?_ (.ite ?_ ?_)
  · exact .bind (fun _ _ _ => rfl) fun _ => .bind (fun _ _ _ => rfl) fun name => hended start name
  · refine ignoresRows_identifier.bind fun x => .bind (fun _ _ _ => rfl) fun m => ?_
    exact (ignoresRows_typeName x m).bind fun name => hended start name
  · refine .bind (fun c n s => ?_) fun name => hended start name
    rw [fail_run, fail_run]
    rfl

/-! ### Reading back -/

/-- The words of a text that is read back. -/
inductive WholeTextWords : StoredText → List Word → Prop
  | use {t : TypeUse} {ws : List Word} (h : TypeWords Angle.IsWhole t ws) : WholeTextWords (.use t) ws
  | parameters {us : List Word} (h : Angle.IsWhole us) :
      WholeTextWords (.parameters (Angle.text none us)) (Angle.fuse 0 us)

theorem WholeTextWords.spells {x : StoredText} {ws : List Word} (h : WholeTextWords x ws) :
    Spells x.text.toList ws := by
  have hwrites : Writes x.text ws Angle.TypeEnds := by
    cases h with
    | use h => exact writes_type (h.imp fun _ hl => hl.toIsWritten)
    | parameters h => exact h.writes.mono fun r hr => hr.greater
  have hspells := hwrites [] [] ⟨by simp [NameEnds], by simp⟩ .done
  rwa [List.append_nil, List.append_nil] at hspells

end JavaTree.Parser

namespace JavaTree.StoredText

open JavaTree.Parser

/-- The lists that are captured where a text is read. -/
def lists (cap : Nat) (ts : List Token) : StoredText → List (List Token)
  | use _ => typeLists cap ts
  | parameters _ => [captured cap ts]

/-- Texts that are legible: of a type whose name is, or of a list. -/
def IsLegible : StoredText → Prop
  | use t => LegibleName t.name
  | parameters y => ∃ ws, Angle.IsLegible ws ∧ y = Angle.text none ws

/-- A text is cut into tokens without faults. Where the cap leaves room for them, reading them takes
all of them, and gives the text again. -/
def ReadsBack (x : StoredText) : Prop :=
  ∃ ts, Lexer.tokenize x.text = .ok ts ∧ ∀ (c : Settings) (s : State),
    s.rest = (Input.ofTokens ts).tokens → s.rest.length ≤ c.limits.excerptTokens →
      match x with
      | use t => ∃ u s', typeUse c s = .ok u s' ∧ s'.rest = [] ∧ u.name = t.name ∧
          u.dimensions = t.dimensions
      | parameters y => ∃ s', angleText c s = .ok y s' ∧ s'.rest = []

/-- True if the text of a type is read back where the cap is as large as it has to be. -/
def isReread (t : TypeUse) : Bool :=
  match Lexer.tokenize (use t).text with
  | .error _ => false
  | .ok ts =>
    let us := (Input.ofTokens ts).tokens
    match typeUse { plainSettings with limits := { excerptTokens := us.length } } ⟨us, none, [], []⟩ with
    | .error _ _ => false
    | .ok u s' => s'.rest.isEmpty && u.name == t.name && u.dimensions == t.dimensions

theorem ReadsBack.isReread {t : TypeUse} (h : (use t).ReadsBack) : isReread t = true := by
  obtain ⟨ts, hts, hread⟩ := h
  obtain ⟨u, s', hrun, hrest, hname, hdimensions⟩ := hread
    { plainSettings with limits := { excerptTokens := (Input.ofTokens ts).tokens.length } }
    ⟨(Input.ofTokens ts).tokens, none, [], []⟩ rfl (Nat.le_refl _)
  rw [StoredText.isReread, hts]
  dsimp only
  rw [hrun]
  simp [hrest, hname, hdimensions]

end JavaTree.StoredText

namespace JavaTree.Parser

variable {c : Settings} {s : State}

theorem WholeTextWords.readsBack {x : StoredText} {ws : List Word} (h : WholeTextWords x ws) :
    x.ReadsBack := by
  obtain ⟨hfaults, hwords⟩ := Lexer.filterMap_cut h.spells .start
  refine ⟨_, Lexer.tokenize_eq_ok.mpr ⟨hfaults, rfl⟩, fun c s hs hcap => ?_⟩
  have hbegins : Begins s.rest ws [] :=
    ⟨_, by rw [hs, List.append_nil]; exact Input.tokens_ofSource x.text, hwords⟩
  have hroom : Roomy (c.withRows s.rest.length) s.rest := ⟨Nat.le_refl _, hcap, Nat.le_refl _⟩
  cases h with
  | use h =>
    obtain ⟨u, s', hrun, hrest, -, -, hu⟩ := yields_wholeType h hbegins (by decide) hroom
    exact ⟨u, s', (ignoresRows_typeUse _ _ _).symm.trans hrun, hrest, hu⟩
  | parameters h =>
    obtain ⟨_, s', hrun, hrest, -, -, rfl⟩ := yields_angleText h hbegins hroom
    exact ⟨s', (ignoresRows_angleText _ _ _).symm.trans hrun, hrest⟩

/-! ### Legible texts -/

/-- All lists have the texts of legible ones, where there are some. -/
def AreLegible (lists : List (List Token)) : Prop :=
  ∀ list ∈ lists, list ≠ [] → ∃ ws, Angle.IsLegible ws ∧ Angle.text none ws = typeText none list

theorem readsBack_of_legible {x : StoredText} (h : x.IsLegible) : x.ReadsBack := by
  cases x with
  | use t =>
    obtain ⟨ws, hws⟩ := LegibleName.exists_whole h
    exact (WholeTextWords.use ⟨ws, hws, rfl⟩).readsBack
  | parameters y =>
    obtain ⟨ws, hws, rfl⟩ := h
    rw [← Angle.text_split hws.eq_mark none]
    exact (WholeTextWords.parameters hws.isWhole).readsBack

theorem legible_of_readAt {x : StoredText} {cap : Nat} {ts : List Token} (hts : Occur ts)
    (hread : x.ReadAt cap ts) (hlegible : AreLegible (x.lists cap ts)) : x.IsLegible := by
  cases x with
  | use t =>
    obtain ⟨c, s, u, s', rfl, rfl, hrun, hname⟩ := hread
    obtain ⟨ws, hstanding, -⟩ := standing_of_typeUse
      (P := fun l => ∃ vs, Angle.IsLegible vs ∧ Angle.text none vs = Angle.text none l) hts
      (fun l hl hne => by simpa only [typeText_eq] using hlegible l hl hne) hrun
    rw [hname] at hstanding
    exact hstanding.legible fun l hl => hl
  | parameters y =>
    obtain ⟨hless, c, s, s', rfl, rfl, hrun⟩ := hread
    obtain ⟨us, -, rfl, rfl, hne, -⟩ := captured_of_angleText hts hless hrun
    obtain ⟨ws, hws, htext⟩ := hlegible _ (List.mem_singleton.mpr rfl) hne
    exact ⟨ws, hws, by rw [htext, typeText_eq]⟩

/-- The words of a text without faults. -/
theorem reads_of_tokenize {source : String} {ts : List Token} (h : Lexer.tokenize source = .ok ts) :
    (Input.ofTokens ts).tokens = (Input.ofSource source).tokens ∧
      JavaTree.Reads (fun _ => True) source.toList ((Input.ofSource source).tokens.map Token.word) := by
  obtain ⟨hfaults, rfl⟩ := Lexer.tokenize_eq_ok.mp h
  refine ⟨rfl, ?_⟩
  rw [Input.tokens_ofSource]
  exact reads_of_faults hfaults

/-- A list of type parameters starts with a bracket, and holds one that closes it. -/
theorem brackets_of_readAt {y : String} {cap : Nat} {ts : List Token} (hts : Occur ts)
    (h : (StoredText.parameters y).ReadAt cap ts) : y.toList.head? = some '<' ∧ '>' ∈ y.toList := by
  obtain ⟨hless, c, s, s', rfl, rfl, hrun⟩ := h
  obtain ⟨us, hrest, rfl, -, -, hus⟩ := captured_of_angleText hts hless hrun
  refine hus.brackets fun w hw => ?_
  obtain ⟨t, ht, rfl⟩ := List.mem_map.mp hw
  refine hts t (by rw [hrest]; exact List.mem_append_left _ ht) fun hk => ?_
  have hpasses := hus.passes _ hw
  rw [show t.word.kind = .invalid from hk] at hpasses
  cases hpasses

/-- A text that was read somewhere and is read back is legible. -/
theorem legible_of_readsBack {x : StoredText} (hopens : ∀ y, x = .parameters y →
    y.toList.head? = some '<' ∧ '>' ∈ y.toList) (h : x.ReadsBack) : x.IsLegible := by
  obtain ⟨ts, hts, hread⟩ := h
  obtain ⟨htokens, hreads⟩ := reads_of_tokenize hts
  rw [htokens] at hread
  have hoccur := occur_tokens x.text
  generalize (Input.ofSource x.text).tokens = us at hreads hread hoccur
  have hread := hread { plainSettings with limits := { excerptTokens := us.length } } ⟨us, none, [], []⟩ rfl
    (Nat.le_refl _)
  cases x with
  | use t =>
    obtain ⟨u, s', hrun, hrest, hname, hdimensions⟩ := hread
    obtain ⟨ws, hstanding, hwords⟩ := standing_of_typeUse (P := fun _ => True) hoccur
      (fun _ _ _ => trivial) hrun
    rw [hrest, List.map_nil, List.append_nil, hdimensions] at hwords
    rw [hname] at hstanding
    have htext : Angle.text none (ws ++ bracketWords t.dimensions) = (StoredText.use t).text :=
      hstanding.text_eq t.dimensions
    rw [hwords, ← htext] at hreads
    exact hstanding.legible_of_areApart
      ((Angle.areApart_of_reads hreads).of_part (List.prefix_append _ _).isInfix)
  | parameters y =>
    obtain ⟨s', hrun, hrest⟩ := hread
    obtain ⟨list, hlist, hy, hcloses, hpasses, -⟩ := taken_of_angleText hrun
    obtain rfl : us = list := by simpa [hrest] using hlist
    obtain ⟨hopen, hclose⟩ := hopens y rfl
    rw [show (StoredText.parameters y).text = y from rfl] at hreads
    rw [hy] at hreads hopen hclose
    have hapart := Angle.areApart_of_reads hreads
    exact ⟨_, ⟨hapart, Angle.head?_of_brackets hapart.occur hcloses hopen hclose, hcloses,
      by simpa [Token.word] using hpasses⟩, hy⟩

namespace Input

/-- The text of a type, or of a list of type parameters, is read back exactly if it is legible. Unless it
is the `void` of a method, it was read somewhere among the tokens, and it is read back if each list that
was captured there has the text of a legible one. -/
theorem typeText_readsBack (source : String) (options : ParseOptions) {x : StoredText}
    (hx : x ∈ ((ofSource source).parse options).unit.typeTexts) :
    (x.ReadsBack ↔ x.IsLegible) ∧ (x.isVoid = false →
      x.LiesIn options.limits.excerptTokens (ofSource source).tokens ∧
        ∀ ts, ts <:+ (ofSource source).tokens → x.ReadAt options.limits.excerptTokens ts →
          AreLegible (x.lists options.limits.excerptTokens ts) → x.ReadsBack) := by
  have hlies (hvoid : x.isVoid = false) :
      x.LiesIn options.limits.excerptTokens (ofSource source).tokens := by
    obtain ⟨l, hl, hlx⟩ := List.mem_filterMap.mp hx
    have hread := liesIn_of_mem_leaves hl
    cases l with
    | capture y => cases hlx
    | typeText y =>
      cases hlx
      exact hread.resolve_left (by simp [hvoid])
  refine ⟨⟨legible_of_readsBack ?_, readsBack_of_legible⟩, fun hvoid => ⟨hlies hvoid, ?_⟩⟩
  · rintro y rfl
    obtain ⟨ts, hts, hread⟩ := hlies rfl
    exact brackets_of_readAt ((occur_tokens source).of_suffix hts) hread
  · intro ts hts hread hlegible
    exact readsBack_of_legible (legible_of_readAt ((occur_tokens source).of_suffix hts) hread hlegible)

/-- `X<A<B<C<D>> >> y;`, as it is in a class. -/
def spacedField : List Token :=
  [⟨.identifier, "X", ⟨1, 11, 10⟩⟩, ⟨.mark .less, "<", ⟨1, 12, 11⟩⟩, ⟨.identifier, "A", ⟨1, 13, 12⟩⟩,
    ⟨.mark .less, "<", ⟨1, 14, 13⟩⟩, ⟨.identifier, "B", ⟨1, 15, 14⟩⟩, ⟨.mark .less, "<", ⟨1, 16, 15⟩⟩,
    ⟨.identifier, "C", ⟨1, 17, 16⟩⟩, ⟨.mark .less, "<", ⟨1, 18, 17⟩⟩, ⟨.identifier, "D", ⟨1, 19, 18⟩⟩,
    ⟨.mark .rightShift, ">>", ⟨1, 20, 19⟩⟩, ⟨.mark .rightShift, ">>", ⟨1, 23, 22⟩⟩,
    ⟨.identifier, "y", ⟨1, 26, 25⟩⟩, ⟨.mark .semicolon, ";", ⟨1, 27, 26⟩⟩,
    ⟨.mark .closeBrace, "\x7d", ⟨1, 29, 28⟩⟩]

/-- Its list as it is read from its text, with three brackets closed at once and then one. -/
theorem areLegible_spacedField : AreLegible (typeLists 200000 spacedField) := by
  have hlists : typeLists 200000 spacedField = [(spacedField.drop 1).take 10] := by decide +kernel
  rw [hlists]
  rintro list hlist -
  obtain rfl := List.mem_singleton.mp hlist
  have hname (x : String) (hne : x.toList ≠ [])
      (hread : Lexer.read x.toList = ⟨.ok .identifier, x.toList.length⟩) : (Word.name x).Occurs :=
    ⟨hne, rfl, [], by rw [Word.ReadsBefore, List.append_nil]; exact hread⟩
  have hwords : ∀ w ∈ [Word.mark .less, .name "A", .mark .less, .name "B", .mark .less, .name "C",
      .mark .less, .name "D", .mark .unsignedShift, .mark .greater],
      w.Occurs ∧ w.kind ≠ .mark .dot := by
    simp only [List.forall_mem_cons]
    refine ⟨⟨.mark _, ?_⟩, ⟨hname _ ?_ rfl, ?_⟩, ⟨.mark _, ?_⟩, ⟨hname _ ?_ rfl, ?_⟩, ⟨.mark _, ?_⟩,
      ⟨hname _ ?_ rfl, ?_⟩, ⟨.mark _, ?_⟩, ⟨hname _ ?_ rfl, ?_⟩, ⟨.mark _, ?_⟩, ⟨.mark _, ?_⟩,
      List.forall_mem_nil _⟩ <;> decide
  have hpoints : NoPoints _ := fun u v w hsub hfuses =>
    (hwords u (hsub.subset List.mem_cons_self)).2 hfuses.first
  exact ⟨_, ⟨⟨fun w hw => (hwords w hw).1, by decide +kernel, hpoints⟩, rfl, by decide +kernel, by decide⟩,
    by decide +kernel⟩

theorem typeText_readsBack_spacedField :
    ∃ x ∈ ((ofSource "class A \x7b X<A<B<C<D>> >> y; \x7d").parse {}).unit.typeTexts,
      x.text = "X<A<B<C<D>>>>" ∧ x.ReadsBack ∧ x.IsLegible := by
  have htokens : spacedField <:+ (ofSource "class A \x7b X<A<B<C<D>> >> y; \x7d").tokens :=
    ⟨[⟨.keyword .class_, "class", ⟨1, 1, 0⟩⟩, ⟨.identifier, "A", ⟨1, 7, 6⟩⟩,
      ⟨.mark .openBrace, "\x7b", ⟨1, 9, 8⟩⟩], by decide +kernel⟩
  have hfound : (((ofSource "class A \x7b X<A<B<C<D>> >> y; \x7d").parse {}).unit.typeTexts.any fun x =>
      match x with
      | .use t => t.name == "X<A<B<C<D>>>>" && t.dimensions == 0
      | .parameters _ => false) = true := by decide +kernel
  obtain ⟨x, hx, hfound⟩ := List.any_eq_true.mp hfound
  split at hfound
  · next t =>
    obtain ⟨hname, hdimensions⟩ : t.name = "X<A<B<C<D>>>>" ∧ t.dimensions = 0 := by simpa using hfound
    have hread : (StoredText.use t).ReadAt 200000 spacedField :=
      ⟨plainSettings, ⟨spacedField, none, [], []⟩, _, _, rfl, rfl, rfl, by rw [hname]; decide +kernel⟩
    obtain ⟨hiff, hlies⟩ := typeText_readsBack _ {} hx
    have hback := (hlies (by simp [StoredText.isVoid, TypeUse.isVoid, hname])).2 spacedField htokens hread
      areLegible_spacedField
    exact ⟨_, hx, by simp [StoredText.text, TypeUse.render, hname, hdimensions], hback, hiff.mp hback⟩
  · cases hfound

/-- A source without findings in which the text of some type is not read back. -/
def HoldsUnread (source : String) : Prop :=
  ((ofSource source).parse {}).diagnostics = [] ∧
    ∃ x ∈ ((ofSource source).parse {}).unit.typeTexts, ¬ x.ReadsBack

theorem holdsUnread {source : String} (hclean : ((ofSource source).parse {}).diagnostics.isEmpty = true)
    (hfound : (((ofSource source).parse {}).unit.typeTexts.any fun x =>
      match x with
      | .use t => !StoredText.isReread t
      | .parameters _ => false) = true) : HoldsUnread source := by
  obtain ⟨x, hx, hfound⟩ := List.any_eq_true.mp hfound
  refine ⟨List.isEmpty_iff.mp hclean, x, hx, fun hback => ?_⟩
  split at hfound
  · rw [hback.isReread] at hfound
    cases hfound
  · cases hfound

/-- A method that returns nothing, and lists whose texts are read as other words. -/
theorem typeText_notReread :
    HoldsUnread "class A \x7b void f() \x7b \x7d \x7d" ∧
      HoldsUnread "class A \x7b List<B / / C> x; \x7d" ∧
      HoldsUnread "class A \x7b List<B 1 . . 2> x; \x7d" ∧
      HoldsUnread "class A \x7b List<B - > x; \x7d" ∧
      HoldsUnread "class A \x7b List<B<C> >>> x; \x7d" := by
  refine ⟨holdsUnread ?_ ?_, holdsUnread ?_ ?_, holdsUnread ?_ ?_, holdsUnread ?_ ?_, holdsUnread ?_ ?_⟩ <;>
    decide +kernel

end Input

end JavaTree.Parser
