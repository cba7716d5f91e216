import JavaTree.Proofs.Parser.Excerpts
import JavaTree.Proofs.Parser.Foretold
import JavaTree.Proofs.Source.Legible
import JavaTree.Proofs.Source.Parts

/-!
Types as they stand in a text.

Reading a type takes the words of its name, each with the list behind it if there is one, and brackets.
These words are given here as they stand, with whatever is between the brackets of a list. Their text is
the text of the type, so the lists of a type that is read from its own text are legible.

    A < B , C > . D [ ]
    ^ ^^^^^^^^^ ^^^ ^^^   name, list, dot and name, brackets
-/

namespace JavaTree

open JavaTree.Parser

/-! ### Words and their text -/

namespace Angle

/-- Words before which there is never a space: none at all, or some that start with a mark other than a
comma and an ampersand. -/
def StartsTight (ws : List Word) : Prop := ∀ w ∈ ws.head?, ∃ m, w = .mark m ∧ hasSpace (.mark m) = false

theorem StartsTight.text_eq {ws : List Word} (h : StartsTight ws) (previous : Option Kind) :
    text previous ws = text none ws := by
  rcases ws with _ | ⟨w, ws⟩
  · rfl
  · obtain ⟨m, rfl, hm⟩ := h w rfl
    rw [text_unspaced hm, text_unspaced hm]

theorem StartsTight.text_append {vs : List Word} (h : StartsTight vs) (previous : Option Kind)
    (ws : List Word) : text previous (ws ++ vs) = text previous ws ++ text none vs := by
  rw [Angle.text_append, h.text_eq]

theorem startsTight_nil : StartsTight [] := by simp [StartsTight]

theorem startsTight_mark {m : Mark} (hm : hasSpace (.mark m) = false) (ws : List Word) :
    StartsTight (.mark m :: ws) := by
  rintro w hw
  cases hw
  exact ⟨m, rfl, hm⟩

theorem startsTight_bracketWords (n : Nat) : StartsTight (bracketWords n) := by
  cases n with
  | zero => exact startsTight_nil
  | succ n => exact startsTight_mark rfl _

theorem text_bracketWords (n : Nat) : text none (bracketWords n) = String.join (List.replicate n "[]") := by
  induction n with
  | zero => rfl
  | succ n ih =>
    rw [bracketWords, text_unspaced rfl, text_unspaced rfl, (startsTight_bracketWords n).text_eq, ih,
      List.replicate_succ, String.join_cons]
    rw [← String.append_assoc]
    rfl

end Angle

namespace Segment

open Angle

/-- The words of a part of a type's name, with its list as it stands. -/
def standing (g : Segment) : List Word := .name g.name :: g.list.getD []

/-- A part of a type's name whose list is one that a capture takes, and as it is asked for. -/
structure Stands (P : List Word → Prop) (g : Segment) : Prop where
  name : IsIdentifier g.name
  list : ∀ ws ∈ g.list, IsCaptured ws ∧ P ws

variable {P : List Word → Prop} {g : Segment}

theorem startsTight_list {list : Option (List Word)} (h : ∀ ws ∈ list, IsCaptured ws ∧ P ws) :
    StartsTight (list.getD []) := by
  rcases list with _ | ws
  · exact startsTight_nil
  · obtain ⟨vs, rfl⟩ := List.head?_eq_some_iff.mp (h ws rfl).1.opens
    exact startsTight_mark rfl vs

theorem Stands.text_eq (h : g.Stands P) {previous : Option Kind}
    (hprevious : isApart previous .identifier = false) : Angle.text previous g.standing = g.text := by
  have hlist : Angle.text none (g.list.getD []) = (g.list.map (Angle.text none)).getD "" := by
    rcases g.list with _ | ws <;> rfl
  rw [standing, text_cons, (startsTight_list h.list).text_eq, hlist, Segment.text]
  simp [Word.name, hprevious, hasSpace]

end Segment

/-- The words of the name of a type, with its lists as they stand, each as it is asked for. -/
inductive StandingName (P : List Word → Prop) : String → List Word → Prop
  | primitive (p : Primitive) : StandingName P p.text [.keyword (.primitive p)]
  | named {first : Segment} {further : List Segment} (hfirst : first.Stands P)
      (hfurther : ∀ g ∈ further, g.Stands P) :
      StandingName P (first.text ++ String.join (further.map fun g => "." ++ g.text))
        (first.standing ++ further.flatMap fun g => .mark .dot :: g.standing)

namespace StandingName

open Angle

variable {P : List Word → Prop}

theorem text_further {further : List Segment} (h : ∀ g ∈ further, g.Stands P) :
    StartsTight (further.flatMap fun g => .mark .dot :: g.standing) ∧
      Angle.text none (further.flatMap fun g => .mark .dot :: g.standing) =
        String.join (further.map fun g => "." ++ g.text) := by
  induction further with
  | nil => exact ⟨startsTight_nil, rfl⟩
  | cons g further ih =>
    obtain ⟨hg, hfurther⟩ := List.forall_mem_cons.mp h
    obtain ⟨htight, htext⟩ := ih hfurther
    refine ⟨startsTight_mark rfl _, ?_⟩
    rw [List.flatMap_cons, htight.text_append, text_unspaced rfl, hg.text_eq rfl, htext, List.map_cons,
      String.join_cons]
    rfl

/-- The text of the words of a type is the text of the type. -/
theorem text_eq {name : String} {ws : List Word} (h : StandingName P name ws) (n : Nat) :
    Angle.text none (ws ++ bracketWords n) = name ++ String.join (List.replicate n "[]") := by
  rw [(startsTight_bracketWords n).text_append, text_bracketWords]
  congr 1
  cases h with
  | primitive p => cases p <;> rfl
  | named hfirst hfurther =>
    obtain ⟨htight, htext⟩ := text_further hfurther
    rw [htight.text_append, hfirst.text_eq rfl, htext]

end StandingName

/-! ### Legible names -/

/-- A part of a type's name: a name, or a name and the text of a legible list. -/
inductive LegiblePart : String → Prop
  | name {x : String} (hx : IsIdentifier x) : LegiblePart x
  | list {x : String} (hx : IsIdentifier x) {ws : List Word} (hws : Angle.IsLegible ws) :
      LegiblePart (x ++ Angle.text none ws)

/-- The name of a built-in type, or names with dots between them, each with the text of a legible list
behind it or with none. -/
inductive LegibleName : String → Prop
  | primitive (p : Primitive) : LegibleName p.text
  | named {first : String} {further : List String} (hfirst : LegiblePart first)
      (hfurther : ∀ x ∈ further, LegiblePart x) :
      LegibleName (first ++ String.join (further.map fun x => "." ++ x))

theorem LegiblePart.exists_whole {x : String} (h : LegiblePart x) :
    ∃ g : Segment, g.Holds Angle.IsWhole ∧ g.text = x := by
  cases h with
  | @name x hx => exact ⟨⟨x, none⟩, ⟨hx, by simp⟩, String.append_empty⟩
  | @list x hx ws hws =>
    refine ⟨⟨x, some (Angle.split ws)⟩, ⟨hx, ?_⟩, congrArg (x ++ ·) (Angle.text_split hws.eq_mark none)⟩
    rintro us hus
    cases hus
    exact hws.isWhole

theorem exists_wholes {xs : List String} (h : ∀ x ∈ xs, LegiblePart x) :
    ∃ gs : List Segment, (∀ g ∈ gs, g.Holds Angle.IsWhole) ∧ gs.map Segment.text = xs := by
  induction xs with
  | nil => exact ⟨[], List.forall_mem_nil _, rfl⟩
  | cons x xs ih =>
    obtain ⟨hx, hxs⟩ := List.forall_mem_cons.mp h
    obtain ⟨g, hg, rfl⟩ := hx.exists_whole
    obtain ⟨gs, hgs, rfl⟩ := ih hxs
    exact ⟨g :: gs, List.forall_mem_cons.mpr ⟨hg, hgs⟩, rfl⟩

/-- A legible name is one that is read back. -/
theorem LegibleName.exists_whole {name : String} (h : LegibleName name) :
    ∃ ws, TypeNameWords Angle.IsWhole name ws := by
  cases h with
  | primitive p => exact ⟨_, .primitive p rfl⟩
  | named hfirst hfurther =>
    obtain ⟨g, hg, rfl⟩ := hfirst.exists_whole
    obtain ⟨gs, hgs, rfl⟩ := exists_wholes hfurther
    rw [List.map_map]
    exact ⟨_, .named hg hgs rfl⟩

namespace Segment.Stands

variable {P Q : List Word → Prop} {g : Segment}

theorem mono (h : g.Stands P) (hQ : ∀ l, l <:+: g.standing → Angle.IsCaptured l → P l → Q l) :
    g.Stands Q where
  name := h.name
  list := by
    rintro ws hws
    obtain ⟨hcaptured, hP⟩ := h.list ws hws
    refine ⟨hcaptured, hQ ws ?_ hcaptured hP⟩
    rw [standing, Option.mem_def.mp hws]
    exact (List.suffix_cons _ ws).isInfix

theorem legible (h : g.Stands P)
    (hP : ∀ l, P l → ∃ vs, Angle.IsLegible vs ∧ Angle.text none vs = Angle.text none l) :
    LegiblePart g.text := by
  obtain ⟨name, _ | ws⟩ := g
  · have hname := LegiblePart.name h.name
    rwa [← String.append_empty (s := name)] at hname
  · obtain ⟨vs, hvs, htext⟩ := hP ws (h.list ws rfl).2
    have hlist := LegiblePart.list h.name hvs
    rwa [htext] at hlist

end Segment.Stands

namespace StandingName

variable {P Q : List Word → Prop} {name : String} {ws : List Word}

theorem mono (h : StandingName P name ws) (hQ : ∀ l, l <:+: ws → Angle.IsCaptured l → P l → Q l) :
    StandingName Q name ws := by
  cases h with
  | primitive p => exact .primitive p
  | @named first further hfirst hfurther =>
    refine .named (hfirst.mono fun l hl => hQ l (hl.trans (List.prefix_append _ _).isInfix)) fun g hg =>
      (hfurther g hg).mono fun l hl => hQ l (hl.trans ?_)
    obtain ⟨front, back, rfl⟩ := List.append_of_mem hg
    refine ⟨first.standing ++ front.flatMap (fun g => .mark .dot :: g.standing) ++ [.mark .dot],
      back.flatMap fun g => .mark .dot :: g.standing, ?_⟩
    simp

/-- A type is legible if its lists have the texts of legible lists. -/
theorem legible (h : StandingName P name ws)
    (hP : ∀ l, P l → ∃ vs, Angle.IsLegible vs ∧ Angle.text none vs = Angle.text none l) :
    LegibleName name := by
  cases h with
  | primitive p => exact .primitive p
  | @named first further hfirst hfurther =>
    have hlegible := @LegibleName.named first.text (further.map Segment.text) (hfirst.legible hP) fun x hx => by
      obtain ⟨g, hg, rfl⟩ := List.mem_map.mp hx
      exact (hfurther g hg).legible hP
    rwa [List.map_map] at hlegible

/-- A type whose words stand apart is legible. -/
theorem legible_of_areApart (h : StandingName P name ws) (hws : Angle.AreApart ws) : LegibleName name := by
  have hlists : StandingName Angle.IsLegible name ws :=
    h.mono fun l hl hcaptured _ => ⟨hws.of_part hl, hcaptured⟩
  exact hlists.legible fun l hl => ⟨l, hl, rfl⟩

end StandingName

namespace Parser

variable {c : Settings} {s s' : State}

/-! ### Types that are read -/

/-- Tokens of a text: each is invalid, or stands somewhere. -/
def Occur (ts : List Token) : Prop := ∀ t ∈ ts, t.kind ≠ .invalid → t.word.Occurs

theorem Occur.of_suffix {ts us : List Token} (h : Occur ts) (hus : us <:+ ts) : Occur us :=
  fun t ht => h t (hus.subset ht)

theorem occur_tokens (source : String) : Occur (Input.ofSource source).tokens := by
  intro t ht hk
  obtain ⟨hne, hread⟩ := Input.exists_read_of_mem_tokens ht hk
  exact ⟨hne, ((Input.isSound_of_mem_tokens ht).isReadable hk).isTrivia_eq_false, hread⟩

theorem Occur.exists_identifier (h : Occur s.rest) (hk : kindOf s.rest = .identifier) :
    IsIdentifier (s.next c).lexeme ∧
      s.rest.map Token.word = .name (s.next c).lexeme :: (s.skip 1).rest.map Token.word := by
  obtain ⟨t, us, hts, ht⟩ := eq_cons_of_kindOf hk (by simp)
  have hnext : s.next c = t := by rw [State.next, hts]; rfl
  refine ⟨?_, ?_⟩
  · rw [hnext]
    exact (h t (by rw [hts]; exact List.mem_cons_self) (by simp [ht])).isReadable.isIdentifier ht
  · rw [hnext, skip_rest, hts, List.map_cons, Token.word, ht]
    rfl

theorem Occur.exists_mark (h : Occur s.rest) {m : Mark} (hk : kindOf s.rest = .mark m) :
    s.rest.map Token.word = .mark m :: (s.skip 1).rest.map Token.word := by
  obtain ⟨t, us, hts, ht⟩ := eq_cons_of_kindOf hk (by simp)
  have hword : t.word = .mark m :=
    (h t (by rw [hts]; exact List.mem_cons_self) (by simp [ht])).eq_mark ht
  rw [skip_rest, hts, List.map_cons, hword]
  rfl

theorem Occur.exists_primitive (h : Occur s.rest) (hk : (kindOf s.rest).isPrimitive = true) :
    ∃ p : Primitive, (s.next c).lexeme = p.text ∧
      s.rest.map Token.word = .keyword (.primitive p) :: (s.skip 1).rest.map Token.word := by
  obtain ⟨p, hp⟩ := eq_primitive hk
  obtain ⟨t, us, hts, ht⟩ := eq_cons_of_kindOf hp (by simp)
  have hreadable := (h t (by rw [hts]; exact List.mem_cons_self) (by simp [ht])).isReadable
  have hword : t.word = .keyword (.primitive p) := by
    rw [Token.word, ht]
    exact congrArg _ (hreadable.lexeme_of_keyword ht)
  refine ⟨p, ?_, ?_⟩
  · rw [State.next, hts]
    exact congrArg Word.text hword
  · rw [skip_rest, hts, List.map_cons, hword]
    rfl

/-- What a capture takes as a list, and its text. -/
theorem taken_of_angleText {x : String} (hrun : angleText c s = .ok x s') :
    ∃ ts, s.rest = ts ++ s'.rest ∧ x = Angle.text none (ts.map Token.word) ∧
      Angle.upToClosing 0 (ts.map Token.word) = some (ts.map Token.word) ∧
      (∀ t ∈ ts, endsAngle t.kind = false) ∧
      (kindOf s.rest = .mark .less → ts = captured c.limits.excerptTokens s.rest) := by
  obtain ⟨n, hn, rfl, rfl⟩ := angleText_eq_ok hrun
  have hangle := not_endsAngle_of_angleExtent c.limits.excerptTokens 0 s.rest
  have hclosing := upToClosing_of_angleExtent (f := Token.word) (fun _ => rfl) (congrArg Prod.snd hn)
  rw [hn] at hangle hclosing
  refine ⟨s.rest.take n, (List.take_append_drop n s.rest).symm, typeText_eq none _, hclosing, hangle, ?_⟩
  intro hless
  rw [captured, if_pos hless, hn]

/-- What a capture takes as a list behind a name. -/
theorem captured_of_angleText {x : String} (hs : Occur s.rest) (hless : kindOf s.rest = .mark .less)
    (hrun : angleText c s = .ok x s') : ∃ ts, s.rest = ts ++ s'.rest ∧
      x = Angle.text none (ts.map Token.word) ∧ ts = captured c.limits.excerptTokens s.rest ∧ ts ≠ [] ∧
      Angle.IsCaptured (ts.map Token.word) := by
  obtain ⟨ts, hrest, hx, hcloses, hpasses, hcaptured⟩ := taken_of_angleText hrun
  have hwords := hs.exists_mark hless
  rcases ts with _ | ⟨t, ts⟩
  · cases hcloses
  refine ⟨t :: ts, hrest, hx, hcaptured hless, List.cons_ne_nil t ts, ?_, hcloses, ?_⟩
  · rw [hrest] at hwords
    exact congrArg some (List.cons.inj hwords).1
  · simpa [Token.word] using hpasses

/-- The name that is known so far, and the list behind it as it stands. -/
theorem standing_of_namedArguments {P : List Word → Prop} {known named : String} (hs : Occur s.rest)
    (hP : captured c.limits.excerptTokens s.rest ≠ [] →
      P ((captured c.limits.excerptTokens s.rest).map Token.word))
    (hrun : namedArguments known c s = .ok named s') :
    ∃ list : Option (List Word), (∀ ws ∈ list, Angle.IsCaptured ws ∧ P ws) ∧
      named = known ++ (list.map (Angle.text none)).getD "" ∧
      s.rest.map Token.word = list.getD [] ++ s'.rest.map Token.word := by
  rw [namedArguments, bind_run_ok (check_run _), ite_run] at hrun
  split at hrun
  · next hless =>
    obtain ⟨x, s₁, hangle, hnamed⟩ := bind_eq_ok.mp hrun
    cases hnamed
    obtain ⟨ts, hrest, rfl, rfl, hne, hcaptured⟩ := captured_of_angleText hs (by simpa using hless) hangle
    refine ⟨some _, ?_, rfl, ?_⟩
    · rintro ws hws
      cases hws
      exact ⟨hcaptured, hP hne⟩
    · rw [Option.getD_some, ← List.map_append, ← hrest]
  · cases hrun
    exact ⟨none, by simp, by simp, by simp⟩

/-- The rest of a name that is read, as it stands. -/
theorem standing_of_typeName {P : List Word → Prop} {known name : String} {n : Nat} (hs : Occur s.rest)
    (hP : ∀ l ∈ capturedLists c.limits.excerptTokens n s.rest, l ≠ [] → P (l.map Token.word))
    (hrun : typeName known n c s = .ok name s') :
    ∃ (first : Segment) (further : List Segment), (∀ ws ∈ first.list, Angle.IsCaptured ws ∧ P ws) ∧
      (∀ g ∈ further, g.Stands P) ∧ name = known ++ segmentText first further ∧
      s.rest.map Token.word = first.list.getD [] ++
        (further.flatMap fun g => .mark .dot :: g.standing) ++ s'.rest.map Token.word := by
  induction n generalizing known s with
  | zero =>
    cases hrun
    exact ⟨⟨"", none⟩, [], by simp, List.forall_mem_nil _, by simp [segmentText], by simp⟩
  | succ n ih =>
    rw [typeName_succ] at hrun
    obtain ⟨named, s₁, hnamed, hrun⟩ := bind_eq_ok.mp hrun
    have hmore := rest_of_namedArguments hnamed
    rw [capturedLists, ← hmore] at hP
    obtain ⟨list, hlist, rfl, hwords⟩ := standing_of_namedArguments hs (hP _ List.mem_cons_self) hnamed
    have hs₁ : Occur s₁.rest := hs.of_suffix (hmore ▸ List.drop_suffix _ _)
    rw [bind_run_ok rest_run, ite_run] at hrun
    split at hrun
    · next hdot =>
      have hname : kindOf (s₁.skip 1).rest = .identifier := secondKind_of_startsWith hdot
      rw [bind_run_ok (skip_run 1), bind_run, identifier_run, if_pos hname] at hrun
      rw [if_pos hdot] at hP
      have hs₂ : Occur (s₁.skip 1).rest := hs₁.of_suffix (List.drop_suffix _ _)
      obtain ⟨g, further, hg, hfurther, rfl, hrest⟩ := ih (hs₂.of_suffix (List.drop_suffix 1 _))
        (fun l hl => hP l (List.mem_cons_of_mem _ (by simpa using hl))) hrun
      obtain ⟨hx, hidentifier⟩ := hs₂.exists_identifier hname
      refine ⟨⟨"", list⟩, ⟨_, g.list⟩ :: further, hlist, List.forall_mem_cons.mpr ⟨⟨hx, hg⟩, hfurther⟩,
        segmentText_cons ⟨"", list⟩ ⟨_, g.list⟩ further known, ?_⟩
      rw [hwords, hs₁.exists_mark (kindOf_of_startsWith hdot), hidentifier, hrest]
      simp [Segment.standing]
    · cases hrun
      exact ⟨⟨"", list⟩, [], hlist, List.forall_mem_nil _, by simp [segmentText], by simpa using hwords⟩

/-- The brackets behind a type. -/
theorem Occur.bracketWords_append {ts : List Token} (h : Occur ts) :
    ts.map Token.word = bracketWords (dimensions ts) ++ (ts.drop (2 * dimensions ts)).map Token.word := by
  have hbrackets := map_dimensions (f := Token.word) fun t ht m hm =>
    (h t ht (by simp [hm])).eq_mark hm
  rw [← hbrackets, ← List.map_append, List.take_append_drop]

/-- A name that is read behind its first identifier, as it stands. -/
theorem standing_of_identifier {P : List Word → Prop} {name : String} {n : Nat} (hs : Occur s.rest)
    (hidentifier : kindOf s.rest = .identifier)
    (hP : ∀ l ∈ capturedLists c.limits.excerptTokens n (s.skip 1).rest, l ≠ [] → P (l.map Token.word))
    (hrun : typeName (s.next c).lexeme n c (s.skip 1) = .ok name s') :
    Occur s'.rest ∧ ∃ ws, StandingName P name ws ∧
      s.rest.map Token.word = ws ++ s'.rest.map Token.word := by
  have hbehind : Occur (s.skip 1).rest := hs.of_suffix (List.drop_suffix 1 s.rest)
  have hcontained : Contained c (s.skip 1) (typeName _ _ c (s.skip 1)) :=
    (skirts_typeName (s.next c).lexeme n).contained
  rw [hrun] at hcontained
  obtain ⟨first, further, hfirst, hfurther, rfl, hwords⟩ := standing_of_typeName hbehind hP hrun
  obtain ⟨hx, hword⟩ := hs.exists_identifier hidentifier
  have hstands : Segment.Stands P ⟨(s.next c).lexeme, first.list⟩ := ⟨hx, hfirst⟩
  have hstanding := StandingName.named hstands hfurther
  rw [Segment.text, String.append_assoc] at hstanding
  refine ⟨hbehind.of_suffix hcontained.1, _, hstanding, ?_⟩
  rw [hword, hwords]
  simp [Segment.standing]

/-- A type that is read, as it stands. -/
theorem standing_of_typeUse {P : List Word → Prop} {t : TypeUse} (hs : Occur s.rest)
    (hP : ∀ l ∈ typeLists c.limits.excerptTokens s.rest, l ≠ [] → P (l.map Token.word))
    (hrun : typeUse c s = .ok t s') : ∃ ws, StandingName P t.name ws ∧
      s.rest.map Token.word = ws ++ bracketWords t.dimensions ++ s'.rest.map Token.word := by
  have hended {start : Location} {name : String} {ws : List Word} {s₁ : State} (hs₁ : Occur s₁.rest)
      (hname : StandingName P name ws) (hwords : s.rest.map Token.word = ws ++ s₁.rest.map Token.word)
      (hrun : (do
        let n ← brackets
        return ⟨name, n, ← spanFrom start⟩ : Parser TypeUse) c s₁ = .ok t s') :
      ∃ ws, StandingName P t.name ws ∧
        s.rest.map Token.word = ws ++ bracketWords t.dimensions ++ s'.rest.map Token.word := by
    rw [bind_run_ok brackets_run, bind_run_ok (spanFrom_run _)] at hrun
    cases hrun
    refine ⟨ws, hname, ?_⟩
    rw [hwords, hs₁.bracketWords_append, List.append_assoc]
    rfl
  rw [typeUse, bind_run_ok here_run, bind_run_ok peek_run, ite_run, ite_run] at hrun
  simp only [next_kind] at hrun
  split at hrun
  · next hprimitive =>
    rw [bind_run_ok (skip_run 1), pure_bind] at hrun
    obtain ⟨p, hlexeme, hwords⟩ := hs.exists_primitive (c := c) hprimitive
    rw [hlexeme] at hrun
    exact hended (hs.of_suffix (List.drop_suffix _ _)) (.primitive p) hwords hrun
  · split at hrun
    · next hname =>
      rw [bind_run, identifier_run, if_pos hname] at hrun
      dsimp only at hrun
      rw [bind_run_ok steps_run] at hrun
      obtain ⟨name, s₁, htypeName, hrun⟩ := bind_eq_ok.mp hrun
      rw [(afterType?_named hname).2] at hP
      obtain ⟨hs₁, ws, hstanding, hwords⟩ := standing_of_identifier hs hname hP htypeName
      exact hended hs₁ hstanding hwords hrun
    · rw [bind_run, fail_run] at hrun
      cases hrun

end Parser

end JavaTree
