import JavaTree.Proofs.Grammar

/-!
The texts of types in a summary, and their words.

    text:    Map<String, ? extends List<int[]>>
    inside:  Map < String , ? extends List < int [ ] > >
    read:    Map < String , ? extends List < int [ ] >>

Between angle brackets each closing bracket is a word of its own; `Angle.fuse` gives the words as
they are read. `Inside` says of words between brackets which text they have, and that they may stand
next to others there.
-/

namespace JavaTree

/-- Pairs of brackets, as they are written. -/
def bracketText (n : Nat) : String := String.join (List.replicate n "[]")

mutual

/-- The text of a type. -/
inductive IsTypeText : String → Prop
  | primitive {x : String} (p : Primitive) (n : Nat) (hx : x = p.text ++ bracketText n) : IsTypeText x
  | named {x : String} {parts : List String} (hne : parts ≠ []) (hparts : ∀ s ∈ parts, IsTypePart s)
      (n : Nat) (hx : x = ".".intercalate parts ++ bracketText n) : IsTypeText x

/-- A name in the text of a type, with the arguments behind it. -/
inductive IsTypePart : String → Prop
  | plain {x : String} (hx : IsIdentifier x) : IsTypePart x
  | generic {x name : String} {arguments : List String} (hname : IsIdentifier name)
      (harguments : ∀ s ∈ arguments, IsTypeArgument s)
      (hx : x = name ++ ("<" ++ ", ".intercalate arguments ++ ">")) : IsTypePart x

/-- An argument in the text of a type. -/
inductive IsTypeArgument : String → Prop
  | type {x : String} (hx : IsTypeText x) : IsTypeArgument x
  | any : IsTypeArgument "?"
  | extends_ {x bound : String} (hbound : IsTypeText bound) (hx : x = "? extends " ++ bound) :
      IsTypeArgument x
  | super_ {x bound : String} (hbound : IsTypeText bound) (hx : x = "? super " ++ bound) :
      IsTypeArgument x

end

/-- One of the parameters in a list of type parameters. -/
inductive IsTypeParameter : String → Prop
  | plain {x : String} (hx : IsIdentifier x) : IsTypeParameter x
  | bounded {x name : String} {bounds : List String} (hname : IsIdentifier name) (hne : bounds ≠ [])
      (hbounds : ∀ s ∈ bounds, IsTypeText s) (hx : x = name ++ " extends " ++ " & ".intercalate bounds) :
      IsTypeParameter x

/-- The text of a list of type parameters. -/
inductive IsTypeParameters : String → Prop
  | mk {x : String} {parameters : List String} (hparameters : ∀ s ∈ parameters, IsTypeParameter s)
      (hx : x = "<" ++ ", ".intercalate parameters ++ ">") : IsTypeParameters x

namespace Angle

variable {a b : String} {ws vs : List Word}

/-! ### Words next to each other -/

theorem noClash_append (hws : NoClash ws) (hvs : NoClash vs)
    (h : ∀ a ∈ ws.getLast?, ∀ b ∈ vs.head?, ¬ Clash a b) : NoClash (ws ++ vs) := by
  induction ws with
  | nil => exact hvs
  | cons w ws ih =>
    rcases ws with _ | ⟨w', ws⟩
    · rcases vs with _ | ⟨v, vs⟩
      · trivial
      · exact ⟨h w rfl v rfl, hvs⟩
    · refine ⟨hws.1, ih hws.2 fun a ha => h a ?_⟩
      rwa [List.getLast?_cons_cons]

theorem Closes.append {depth inner : Int} (h : Closes depth ws) (hpos : 0 < inner)
    (hvs : Closes inner vs) : Closes (depth + inner) (ws ++ vs) := by
  induction ws generalizing depth with
  | nil => exact absurd h id
  | cons w ws ih =>
    by_cases hws : ws = []
    · subst hws
      refine hvs.cons hpos ?_
      have hw : depth + weight w.kind = 0 := h
      omega
    · obtain ⟨hw, h⟩ := (closes_cons hws).mp h
      refine (ih h).cons (by omega) (by omega)

/-- Words that may stand next to others between brackets. -/
structure Neutral (ws : List Word) : Prop where
  parts : ∀ w ∈ ws, IsPart w
  noClash : NoClash ws
  first : ∀ w ∈ ws.head?, w.kind ≠ .mark .dot ∧ w.kind ≠ .mark .less
  last : ∀ w ∈ ws.getLast?, w.kind ≠ .mark .dot ∧ w.kind ≠ .mark .less
  balanced : ∀ depth vs, 0 < depth → Closes depth vs → Closes depth (ws ++ vs)

theorem neutral_nil : Neutral [] := ⟨nofun, trivial, nofun, nofun, fun _ _ _ h => h⟩

theorem neutral_word {w : Word} (hw : IsPart w) (hweight : weight w.kind = 0)
    (hdot : w.kind ≠ .mark .dot) : Neutral [w] := by
  have hless : w.kind ≠ .mark .less := by
    intro h
    rw [h] at hweight
    cases hweight
  refine ⟨fun v hv => ?_, trivial, fun v hv => ?_, fun v hv => ?_, fun depth vs hpos hvs => ?_⟩
  · rwa [List.mem_singleton.mp hv]
  · cases hv
    exact ⟨hdot, hless⟩
  · cases hv
    exact ⟨hdot, hless⟩
  · exact hvs.cons hpos (by omega)

theorem Neutral.append (hws : Neutral ws) (hvs : Neutral vs) : Neutral (ws ++ vs) := by
  refine ⟨fun w hw => ?_, noClash_append hws.noClash hvs.noClash fun a ha b hb => ?_, fun w hw => ?_,
    fun w hw => ?_, fun depth us hpos hus => ?_⟩
  · rcases List.mem_append.mp hw with hw | hw
    · exact hws.parts w hw
    · exact hvs.parts w hw
  · rintro (⟨h, -⟩ | ⟨h, -⟩)
    · exact (hws.last a ha).1 h
    · exact (hws.last a ha).2 h
  · rcases ws with _ | ⟨v, ws⟩
    · exact hvs.first w hw
    · exact hws.first w hw
  · rcases List.eq_nil_or_concat vs with rfl | ⟨us, v, rfl⟩
    · rw [List.append_nil] at hw
      exact hws.last w hw
    · refine hvs.last w ?_
      rw [List.concat_eq_append, ← List.append_assoc, List.getLast?_concat] at hw
      rwa [List.concat_eq_append, List.getLast?_concat]
  · rw [List.append_assoc]
    exact hws.balanced depth _ hpos (hvs.balanced depth us hpos hus)

/-- Words with a dot between them. -/
theorem Neutral.dot (hws : Neutral ws) (hvs : Neutral vs) (hne : ws ≠ []) (hne' : vs ≠ []) :
    Neutral (ws ++ .mark .dot :: vs) := by
  refine ⟨fun w hw => ?_, noClash_append hws.noClash ?_ fun a ha b hb => ?_, fun w hw => ?_,
    fun w hw => ?_, fun depth us hpos hus => ?_⟩
  · rcases List.mem_append.mp hw with hw | (_ | ⟨_, hw⟩)
    · exact hws.parts w hw
    · exact .mark rfl
    · exact hvs.parts w hw
  · obtain ⟨v, vs, rfl⟩ := List.exists_cons_of_ne_nil hne'
    refine ⟨?_, hvs.noClash⟩
    rintro (⟨-, h⟩ | ⟨h, -⟩)
    · exact (hvs.first v rfl).1 h
    · cases h
  · rintro (⟨h, -⟩ | ⟨h, -⟩)
    · exact (hws.last a ha).1 h
    · exact (hws.last a ha).2 h
  · obtain ⟨v, ws, rfl⟩ := List.exists_cons_of_ne_nil hne
    exact hws.first w hw
  · obtain ⟨v, vs, rfl⟩ := List.exists_cons_of_ne_nil hne'
    refine hvs.last w ?_
    rw [List.getLast?_append, List.getLast?_cons_cons] at hw
    simpa [List.getLast?_cons] using hw
  · rw [List.append_assoc, List.cons_append]
    exact hws.balanced depth _ hpos ((hvs.balanced depth us hpos hus).cons hpos (Int.add_zero _))

/-! ### Texts between brackets -/

/-- Words between brackets with the given text. They start with a word or with `?`. -/
structure Inside (s : String) (ws : List Word) : Prop where
  neutral : Neutral ws
  starts : ∃ w vs, ws = w :: vs ∧ (w.kind.isWord = true ∨ w.kind = .mark .question)
  text : text none ws = s

theorem Inside.ne_nil (h : Inside a ws) : ws ≠ [] := by
  obtain ⟨w, vs, rfl, -⟩ := h.starts
  exact nofun

theorem text_some (previous : Kind) (w : Word) (vs : List Word) :
    Angle.text (some previous) (w :: vs) =
      (if isApart (some previous) w.kind then " " else "") ++ Angle.text none (w :: vs) := by
  rw [text_cons, text_cons none]
  simp only [isApart, Bool.false_eq_true, if_false, String.empty_append, String.append_assoc]

/-- Behind a mark other than `?` there is no space. -/
theorem Inside.text_behind (h : Inside a ws) {m : Mark} (hm : m ≠ .question) :
    Angle.text (some (.mark m)) ws = a := by
  obtain ⟨w, vs, rfl, hw⟩ := h.starts
  have hapart : isApart (some (.mark m)) w.kind = false := by
    have hquestion : (Kind.mark m = .mark .question) = False := by simpa using hm
    rcases hw with hw | hw
    · have hne : w.kind ≠ .mark .ampersand := by
        intro h
        rw [h] at hw
        cases hw
      simp [isApart, Kind.isWord, hquestion, hne]
    · simp [isApart, Kind.isWord, hw]
  rw [text_some, hapart, if_neg Bool.false_ne_true, String.empty_append, h.text]

/-- Words behind a mark have no space before them, but those of some marks have one. -/
theorem Inside.join (ha : Inside a ws) (hb : Inside b vs) {m : Mark} (hm : m ≠ .question) {s : String}
    (hs : ∀ k, Angle.text (some k) [.mark m] = s) (hn : Neutral (ws ++ .mark m :: vs)) :
    Inside (a ++ s ++ b) (ws ++ .mark m :: vs) := by
  obtain ⟨w, us, rfl, hw⟩ := ha.starts
  refine ⟨hn, ⟨w, us ++ .mark m :: vs, rfl, hw⟩, ?_⟩
  have hlast : ∃ k, (w :: us).foldl (fun _ w => some w.kind) none = some k := by
    rcases List.eq_nil_or_concat us with rfl | ⟨us, v, rfl⟩
    · exact ⟨_, rfl⟩
    · refine ⟨v.kind, ?_⟩
      rw [List.concat_eq_append, ← List.cons_append, List.foldl_append]
      rfl
  obtain ⟨k, hk⟩ := hlast
  have hmark : Angle.text (some k) (.mark m :: vs) = s ++ b := by
    rw [← List.singleton_append, text_append, hs k]
    exact congrArg (s ++ ·) (hb.text_behind hm)
  rw [text_append, ha.text, hk, hmark, String.append_assoc]

theorem neutral_mark {m : Mark} (h : isListMark m = true) (hweight : weight (.mark m) = 0)
    (hdot : m ≠ .dot) : Neutral [.mark m] :=
  neutral_word (.mark h) hweight fun h => hdot (Kind.mark.inj h)

theorem Inside.comma (ha : Inside a ws) (hb : Inside b vs) :
    Inside (a ++ ", " ++ b) (ws ++ .mark .comma :: vs) := by
  have hcomma : Neutral [.mark .comma] := neutral_mark rfl rfl nofun
  refine ha.join (m := .comma) hb nofun (fun k => ?_) (ha.neutral.append (hcomma.append hb.neutral))
  simp [text_cons, isApart, hasSpace, Word.mark, Mark.chars, Kind.isWord]
  rfl

theorem Inside.ampersand (ha : Inside a ws) (hb : Inside b vs) :
    Inside (a ++ " & " ++ b) (ws ++ .mark .ampersand :: vs) := by
  have hand : Neutral [.mark .ampersand] := neutral_mark rfl rfl nofun
  refine ha.join (m := .ampersand) hb nofun (fun k => ?_) (ha.neutral.append (hand.append hb.neutral))
  simp [text_cons, isApart, hasSpace, Word.mark, Mark.chars]
  rfl

theorem Inside.dot (ha : Inside a ws) (hb : Inside b vs) :
    Inside (a ++ "." ++ b) (ws ++ .mark .dot :: vs) := by
  refine ha.join (m := .dot) hb nofun (fun k => ?_) (ha.neutral.dot hb.neutral ha.ne_nil hb.ne_nil)
  simp [text_cons, isApart, hasSpace, Word.mark, Mark.chars, Kind.isWord]
  rfl

/-- Texts with something between them. -/
theorem exists_intercalate {R : String → List Word → Prop} {between : String} {m : Mark}
    {texts : List String} (hne : texts ≠ []) (h : ∀ s ∈ texts, ∃ ws, R s ws)
    (hjoin : ∀ {a b ws vs}, R a ws → R b vs → R (a ++ between ++ b) (ws ++ .mark m :: vs)) :
    ∃ ws, R (between.intercalate texts) ws := by
  induction texts with
  | nil => exact absurd rfl hne
  | cons s texts ih =>
    obtain ⟨ws, hws⟩ := h s List.mem_cons_self
    rcases texts with _ | ⟨t, texts⟩
    · rw [String.intercalate_singleton]
      exact ⟨ws, hws⟩
    · obtain ⟨vs, hvs⟩ := ih nofun fun r hr => h r (List.mem_cons_of_mem s hr)
      rw [String.intercalate_cons_cons]
      exact ⟨_, hjoin hws hvs⟩

/-! ### Lists -/

/-- Words in a row behind which only marks without spaces come. -/
theorem text_marks (previous : Option Kind) (ws : List Word) {m : Mark} (hm : hasSpace (.mark m) = false)
    (vs : List Word) : Angle.text previous (ws ++ .mark m :: vs) =
      Angle.text previous ws ++ (String.ofList m.chars ++ Angle.text (some (.mark m)) vs) := by
  rw [text_append, text_unspaced hm]

theorem isList_of_neutral (h : Neutral ws) (hless : ∀ w ∈ ws.head?, w.kind ≠ .mark .less) :
    IsList (.mark .less :: (ws ++ [.mark .greater])) := by
  have hclosed : NoClash (ws ++ [.mark .greater]) := by
    refine noClash_append h.noClash trivial fun a ha b hb => ?_
    cases hb
    rintro (⟨-, h⟩ | ⟨-, h⟩) <;> cases h
  refine ⟨fun w hw => ?_, ?_, fun w hw => ?_, ?_⟩
  · rcases List.mem_cons.mp hw with rfl | hw
    · exact .mark rfl
    · rcases List.mem_append.mp hw with hw | hw
      · exact h.parts w hw
      · rw [List.mem_singleton.mp hw]
        exact .mark rfl
  · refine @noClash_append [.mark .less] _ trivial hclosed fun a ha b hb => ?_
    cases ha
    rintro (⟨h, -⟩ | ⟨-, hb'⟩)
    · cases h
    · rcases ws with _ | ⟨w, ws⟩
      · cases hb
        cases hb'
      · exact hless b hb hb'
  · cases hw
    rfl
  · have hcloses : Closes 1 [.mark .greater] := rfl
    exact (h.balanced 1 _ (by decide) hcloses).cons (by decide) rfl

/-- A list of texts between angle brackets. -/
theorem exists_isList {texts : List String} (h : ∀ s ∈ texts, ∃ ws, Inside s ws) :
    ∃ ws, IsList ws ∧ Angle.text none ws = "<" ++ ", ".intercalate texts ++ ">" := by
  have hend (k : Option Kind) : Angle.text k [.mark .greater] = ">" := by
    cases k <;> rfl
  by_cases hne : texts = []
  · subst hne
    exact ⟨_, isList_of_neutral neutral_nil nofun, by decide⟩
  · obtain ⟨ws, hws⟩ := exists_intercalate hne h Inside.comma
    refine ⟨_, isList_of_neutral hws.neutral fun w hw => (hws.neutral.first w hw).2, ?_⟩
    have hless : Angle.text none (.mark .less :: (ws ++ [.mark .greater])) =
        "<" ++ Angle.text (some (.mark .less)) (ws ++ [.mark .greater]) :=
      text_unspaced (m := .less) rfl none _
    rw [hless, text_append, hend, hws.text_behind (m := .less) nofun, String.append_assoc]

/-! ### Types -/

theorem text_nil (previous : Option Kind) : Angle.text previous [] = "" := rfl

theorem inside_word {w : Word} (hw : IsPart w) (hword : w.kind.isWord = true) : Inside w.text [w] := by
  have hmark (m : Mark) : w.kind ≠ .mark m := by
    intro h
    rw [h] at hword
    cases hword
  have hweight : weight w.kind = 0 := by
    cases hw with
    | mark _ => cases hword
    | _ => rfl
  refine ⟨neutral_word hw hweight (hmark _), ⟨w, [], rfl, .inl hword⟩, ?_⟩
  have hspace : hasSpace w.kind = false := by simp [hasSpace, hmark]
  simp only [text_cons, isApart, hspace, text_nil, Bool.false_eq_true, if_false, String.empty_append,
    String.append_empty]

/-- The words of a part of a type's name between brackets. -/
theorem inside_segment {g : Segment} (h : g.Holds IsList) :
    Inside g.text (.name g.name :: g.list.getD []) := by
  have hname := inside_word (.name h.name) rfl
  obtain ⟨x, _ | us⟩ := g
  · have htext : Segment.text ⟨x, none⟩ = x := String.append_empty
    rw [htext]
    exact hname
  · have hus : IsList us := h.list us rfl
    obtain ⟨vs, hvs, -⟩ := hus.eq_cons
    have hlast := hus.endsClosed
    refine ⟨⟨fun w hw => ?_, noClash_append hname.neutral.noClash hus.noClash fun a ha b hb => ?_,
      fun w hw => ?_, fun w hw => ?_, fun depth ts hpos hts => ?_⟩, ⟨_, _, rfl, .inl rfl⟩, ?_⟩
    · rcases List.mem_cons.mp hw with rfl | hw
      · exact .name h.name
      · exact hus.parts w hw
    · cases ha
      rintro (⟨h, -⟩ | ⟨h, -⟩) <;> cases h
    · cases hw
      exact ⟨nofun, nofun⟩
    · have hw' : w ∈ us.getLast? := by
        rw [hvs] at hw ⊢
        exact hw
      rw [hlast w hw']
      exact ⟨nofun, nofun⟩
    · have hcloses := hus.closes.append hpos hts
      rw [Int.zero_add] at hcloses
      exact hcloses.cons hpos (Int.add_zero _)
    · have hlist : Angle.text (some .identifier) us = Angle.text none us := by
        rw [hvs, text_some]
        exact String.empty_append
      have hcons : Angle.text none (.name x :: us) = x ++ Angle.text (some .identifier) us :=
        (text_append none [.name x] us).trans (congrArg (· ++ _) hname.text)
      exact hcons.trans (congrArg (x ++ ·) hlist)

theorem Inside.brackets (h : Inside a ws) (n : Nat) :
    Inside (a ++ bracketText n) (ws ++ bracketWords n) := by
  induction n generalizing a ws with
  | zero =>
    rw [bracketText, bracketWords, List.replicate_zero, String.join_nil, String.append_empty,
      List.append_nil]
    exact h
  | succ n ih =>
    have hopen : Neutral [.mark .openBracket] := neutral_mark rfl rfl nofun
    have hclose : Neutral [.mark .closeBracket] := neutral_mark rfl rfl nofun
    have hpair : Inside (a ++ "[]") (ws ++ [.mark .openBracket, .mark .closeBracket]) := by
      obtain ⟨w, vs, rfl, hw⟩ := h.starts
      refine ⟨h.neutral.append (hopen.append hclose), ⟨w, _, rfl, hw⟩, ?_⟩
      rw [text_marks (m := .openBracket) none _ rfl, h.text]
      rfl
    have hrest := ih hpair
    rw [bracketText, List.replicate_succ, String.join_cons, ← String.append_assoc]
    rw [List.append_assoc] at hrest
    exact hrest

end Angle

open Angle

/-- Parts of a type's name with dots between them. -/
theorem inside_segments {first : Segment} {further : List Segment} (hfirst : first.Holds IsList)
    (hfurther : ∀ g ∈ further, g.Holds IsList) :
    ∃ vs, Inside (first.text ++ String.join (further.map fun g => "." ++ g.text))
      (.name first.name :: vs) := by
  induction further generalizing first with
  | nil =>
    refine ⟨first.list.getD [], ?_⟩
    rw [List.map_nil, String.join_nil, String.append_empty]
    exact inside_segment hfirst
  | cons g further ih =>
    obtain ⟨vs, hvs⟩ := ih (hfurther g List.mem_cons_self) fun k hk =>
      hfurther k (List.mem_cons_of_mem g hk)
    refine ⟨first.list.getD [] ++ .mark .dot :: .name g.name :: vs, ?_⟩
    have hdot := (inside_segment hfirst).dot hvs
    rw [List.map_cons, String.join_cons]
    simp only [String.append_assoc] at hdot ⊢
    exact hdot

/-- When each of some things comes from another one, all of them do. -/
theorem exists_map_eq {α β : Type} {P : β → Prop} {f : β → α} {as : List α}
    (h : ∀ a ∈ as, ∃ b, P b ∧ f b = a) : ∃ bs : List β, (∀ b ∈ bs, P b) ∧ bs.map f = as := by
  induction as with
  | nil => exact ⟨[], nofun, rfl⟩
  | cons a as ih =>
    obtain ⟨b, hb, rfl⟩ := h a List.mem_cons_self
    obtain ⟨bs, hbs, rfl⟩ := ih fun c hc => h c (List.mem_cons_of_mem _ hc)
    refine ⟨b :: bs, fun c hc => ?_, rfl⟩
    rcases List.mem_cons.mp hc with rfl | hc
    · exact hb
    · exact hbs c hc

theorem intercalate_segments (first : Segment) (further : List Segment) :
    ".".intercalate ((first :: further).map Segment.text) =
      first.text ++ String.join (further.map fun g => "." ++ g.text) := by
  induction further generalizing first with
  | nil => simp
  | cons g further ih =>
    have hrest := ih g
    rw [List.map_cons] at hrest
    rw [List.map_cons, List.map_cons, String.intercalate_cons_cons, hrest, List.map_cons,
      String.join_cons]
    simp only [String.append_assoc]

/-- The first of some words is a name or a reserved word. -/
def StartsWord (ws : List Word) : Prop := ∃ w vs, ws = w :: vs ∧ w.kind.isWord = true

/-- The type that a text stands for, and its words between brackets. -/
structure TypeText (x : String) (t : TypeUse) (ws : List Word) : Prop where
  words : ∃ vs, TypeWords IsList t vs
  render : t.render = x
  inside : Inside x ws
  word : StartsWord ws

theorem typeText_primitive (p : Primitive) (n : Nat) :
    TypeText (p.text ++ bracketText n) ⟨p.text, n, .single .start⟩
      (.keyword (.primitive p) :: bracketWords n) :=
  ⟨⟨_, _, .primitive p rfl, rfl⟩, rfl, (inside_word (.primitive p) rfl).brackets n, _, _, rfl, rfl⟩

theorem exists_typeText_named {parts : List String} (hne : parts ≠ [])
    (h : ∀ s ∈ parts, ∃ g : Segment, g.Holds IsList ∧ g.text = s) (n : Nat) :
    ∃ t ws, TypeText (".".intercalate parts ++ bracketText n) t ws := by
  obtain ⟨gs, hgs, rfl⟩ := exists_map_eq h
  rcases gs with _ | ⟨first, further⟩
  · exact absurd rfl hne
  have hfirst := hgs first List.mem_cons_self
  have hfurther (g : Segment) (hg : g ∈ further) := hgs g (List.mem_cons_of_mem first hg)
  obtain ⟨vs, hvs⟩ := inside_segments hfirst hfurther
  rw [intercalate_segments]
  exact ⟨⟨_, n, .single .start⟩, _, ⟨_, _, .named hfirst hfurther rfl, rfl⟩, rfl, hvs.brackets n, _, _,
    rfl, rfl⟩

/-- A bound behind a name or behind `?`. -/
theorem inside_bound {f x : String} {w : Word} {ws : List Word} (hf : Inside f [w]) (hx : Inside x ws)
    (hword : StartsWord ws) {k : Keyword} (hk : IsPart (.keyword k)) :
    Inside (f ++ " " ++ k.text ++ " " ++ x) (w :: .keyword k :: ws) := by
  have hkeyword := inside_word hk rfl
  have hw : w.kind.isWord = true ∨ w.kind = .mark .question := by
    obtain ⟨_, _, h, hw⟩ := hf.starts
    cases h
    exact hw
  have hk' : Angle.text (some w.kind) [.keyword k] = " " ++ k.text := by
    have hapart : isApart (some w.kind) (.keyword k) = true := by
      simp only [isApart, Kind.isWord, Bool.true_and, Bool.or_eq_true, decide_eq_true_eq]
      exact .inl hw
    rw [text_some, Word.keyword, hapart, if_pos rfl]
    exact congrArg (" " ++ ·) hkeyword.text
  have hx' : Angle.text (some (.keyword k)) ws = " " ++ x := by
    obtain ⟨v, vs, rfl, hv⟩ := hword
    have hapart : isApart (some (.keyword k)) v.kind = true := by
      show (v.kind.isWord && _ || _) = true
      rw [hv]
      rfl
    rw [text_some, hapart, if_pos rfl, hx.text]
  refine ⟨hf.neutral.append (hkeyword.neutral.append hx.neutral), ⟨w, _, rfl, hw⟩, ?_⟩
  have htail : Angle.text (some w.kind) ([.keyword k] ++ ws) = " " ++ k.text ++ (" " ++ x) := by
    rw [text_append, hk']
    exact congrArg (" " ++ k.text ++ ·) hx'
  have htext : Angle.text none ([w] ++ ([.keyword k] ++ ws)) = f ++ (" " ++ k.text ++ (" " ++ x)) := by
    rw [text_append, hf.text]
    exact congrArg (f ++ ·) htail
  simp only [String.append_assoc] at htext ⊢
  exact htext

theorem inside_question : Inside "?" [.mark .question] :=
  ⟨neutral_mark rfl rfl nofun, ⟨_, _, rfl, .inr rfl⟩, by decide⟩

mutual

theorem IsTypeText.exists_typeText {x : String} : IsTypeText x → ∃ t ws, TypeText x t ws
  | .primitive p n hx => hx ▸ ⟨_, _, typeText_primitive p n⟩
  | .named hne hparts n hx => hx ▸ exists_typeText_named hne (fun s hs => (hparts s hs).exists_segment) n

theorem IsTypePart.exists_segment {x : String} :
    IsTypePart x → ∃ g : Segment, g.Holds IsList ∧ g.text = x
  | .plain hx => ⟨⟨x, none⟩, ⟨hx, nofun⟩, String.append_empty⟩
  | @IsTypePart.generic _ name _ hname harguments hx => by
    obtain ⟨ws, hws, htext⟩ := exists_isList fun s hs => (harguments s hs).exists_inside
    refine ⟨⟨name, some ws⟩, ⟨hname, fun vs hvs => ?_⟩, ?_⟩
    · cases hvs
      exact hws
    · rw [hx, ← htext]
      rfl

theorem IsTypeArgument.exists_inside {x : String} : IsTypeArgument x → ∃ ws, Inside x ws
  | .type hx => by
    obtain ⟨t, ws, h⟩ := hx.exists_typeText
    exact ⟨ws, h.inside⟩
  | .any => ⟨_, inside_question⟩
  | .extends_ hbound hx => by
    obtain ⟨t, ws, h⟩ := hbound.exists_typeText
    exact ⟨_, hx ▸ inside_bound inside_question h.inside h.word .extends_⟩
  | .super_ hbound hx => by
    obtain ⟨t, ws, h⟩ := hbound.exists_typeText
    exact ⟨_, hx ▸ inside_bound inside_question h.inside h.word .super_⟩

end

/-! ### Lists of type parameters -/

theorem IsTypeParameter.exists_inside {x : String} (h : IsTypeParameter x) : ∃ ws, Inside x ws := by
  cases h with
  | plain hx => exact ⟨_, inside_word (.name hx) rfl⟩
  | @bounded name bounds hname hne hbounds hx =>
    have hwords (s : String) (hs : s ∈ bounds) : ∃ ws, Inside s ws ∧ StartsWord ws := by
      obtain ⟨t, ws, h⟩ := (hbounds s hs).exists_typeText
      exact ⟨ws, h.inside, h.word⟩
    have hjoin {a b : String} {ws vs : List Word} (ha : Inside a ws ∧ StartsWord ws)
        (hb : Inside b vs ∧ StartsWord vs) : Inside (a ++ " & " ++ b) (ws ++ .mark .ampersand :: vs) ∧
          StartsWord (ws ++ .mark .ampersand :: vs) := by
      refine ⟨ha.1.ampersand hb.1, ?_⟩
      obtain ⟨w, us, rfl, hw⟩ := ha.2
      exact ⟨w, _, rfl, hw⟩
    obtain ⟨ws, hws, hword⟩ := exists_intercalate hne hwords hjoin
    have hbound := inside_bound (inside_word (.name hname) rfl) hws hword .extends_
    have htext : name ++ " extends " ++ " & ".intercalate bounds =
        name ++ " " ++ Keyword.text .extends_ ++ " " ++ " & ".intercalate bounds := by
      rw [show (" extends " : String) = " " ++ Keyword.text .extends_ ++ " " from rfl]
      simp only [String.append_assoc]
    rw [hx, htext]
    exact ⟨_, hbound⟩

theorem IsTypeParameters.exists_words {x : String} (h : IsTypeParameters x) :
    ∃ ws, ParametersWords True x ws := by
  obtain ⟨hparameters, hx⟩ := h
  obtain ⟨ws, hws, htext⟩ := exists_isList fun s hs => (hparameters s hs).exists_inside
  exact ⟨_, .mk hws.mayStand (hx.trans htext.symm)⟩

end JavaTree
