import JavaTree.Proofs.Grammar
import JavaTree.Proofs.Reread.Words

/-!
Names and types are read back from their words, and the look ahead passes over them.
-/

namespace JavaTree.Parser

variable {α β : Type} {c : Settings} {s : State} {ts rest mid : List Token} {w : Word}
  {ws vs : List Word} {R : α → Prop}

/-! ### Names -/

theorem furtherNames_eq {further : List String}
    (hs : Begins ts (further.flatMap fun n => [.mark .dot, .name n]) rest)
    (hrest : startsWith Mark.dot .identifier rest = false) : furtherNames ts = further := by
  induction further generalizing ts with
  | nil =>
    rw [begins_nil.mp hs]
    rcases rest with _ | ⟨d, _ | ⟨t, us⟩⟩
    · rfl
    · rfl
    · rw [furtherNames, if_neg]
      simpa [startsWith] using hrest
  | cons n further ih =>
    obtain ⟨d, us, rfl, hd, hus⟩ := begins_cons.mp hs
    obtain ⟨t, us, rfl, ht, hus⟩ := begins_cons.mp hus
    have hkinds : d.kind = .mark .dot ∧ t.kind = .identifier :=
      ⟨congrArg Word.kind hd, congrArg Word.kind ht⟩
    rw [furtherNames, if_pos hkinds, ih hus]
    exact congrArg (· :: further) (congrArg Word.text ht)

theorem length_flatMap_pair (further : List String) :
    (further.flatMap fun n => [Word.mark .dot, .name n]).length = 2 * further.length := by
  induction further with
  | nil => rfl
  | cons n further ih =>
    simp only [List.flatMap_cons, List.length_append, ih, List.length_cons, List.length_nil]
    omega

theorem yields_qualifiedName {x : String} (h : QualifiedWords x ws) (hs : Begins s.rest ws rest)
    (hrest : startsWith Mark.dot .identifier rest = false) :
    Yields c s qualifiedName rest (· = x) := by
  obtain ⟨hfirst, hfurther, rfl⟩ := h
  refine yields_identifier hs fun s₁ hs₁ => ?_
  rw [yields_rest, furtherNames_eq hs₁ hrest]
  refine yields_skip hs₁ (length_flatMap_pair _).symm fun s₂ hs₂ => ?_
  exact yields_pure hs₂ rfl

/-! ### Types -/

/-- What may follow the name of a type. -/
def EndsTypeName (k : Kind) : Prop := k ≠ .mark .less ∧ k ≠ .mark .dot

/-- What may follow a type. -/
def EndsType (k : Kind) : Prop := EndsTypeName k ∧ k ≠ .mark .openBracket

instance (k : Kind) : Decidable (EndsTypeName k) := inferInstanceAs (Decidable (_ ∧ _))

instance (k : Kind) : Decidable (EndsType k) := inferInstanceAs (Decidable (_ ∧ _))

theorem length_bracketWords (n : Nat) : (bracketWords n).length = 2 * n := by
  induction n with
  | zero => rfl
  | succ n ih =>
    simp only [bracketWords, List.length_cons, ih]
    omega

theorem dimensions_eq {n : Nat} (hs : Begins ts (bracketWords n) rest)
    (hrest : kindOf rest ≠ .mark .openBracket) : dimensions ts = n := by
  induction n generalizing ts with
  | zero =>
    rw [begins_nil.mp hs]
    rcases rest with _ | ⟨a, _ | ⟨b, us⟩⟩
    · rfl
    · rfl
    · rw [dimensions, if_neg fun h => hrest h.1]
  | succ n ih =>
    obtain ⟨a, us, rfl, ha, hus⟩ := begins_cons.mp hs
    obtain ⟨b, us, rfl, hb, hus⟩ := begins_cons.mp hus
    rw [dimensions, if_pos ⟨congrArg Word.kind ha, congrArg Word.kind hb⟩, ih hus]

theorem yields_brackets {n : Nat} (hs : Begins s.rest (bracketWords n ++ ws) rest)
    (hmid : ∀ mid, Begins mid ws rest → kindOf mid ≠ .mark .openBracket) {f : Nat → Parser α}
    (hf : ∀ s', Begins s'.rest ws rest → Yields c s' (f n) rest R) :
    Yields c s (brackets >>= f) rest R := by
  obtain ⟨mid, hs, hws⟩ := begins_append.mp hs
  have hdim := dimensions_eq hs (hmid mid hws)
  have hskip := yields_skip hs (length_bracketWords n).symm (c := c) (f := fun _ => f n)
    fun s' hs' => hf s' (hs' ▸ hws)
  unfold Yields at hskip ⊢
  simpa only [bind_run, brackets_run, hdim, skip_run] using hskip

theorem typeText_eq (previous : Option Kind) (ts : List Token) :
    typeText previous ts = Angle.text previous (ts.map Token.word) := by
  induction ts generalizing previous with
  | nil => rfl
  | cons t ts ih =>
    rw [List.map_cons, Angle.text_cons, ← ih]
    rfl

/-- A capture of type arguments takes a whole list, up to the bracket that closes it. -/
theorem angleExtent_eq {ts : List Token} (hin : ∀ t ∈ ts, endsAngle t.kind = false) {depth : Int}
    (hcloses : Angle.upToClosing depth (ts.map Token.word) = some (ts.map Token.word)) {cap : Nat}
    (hcap : ts.length ≤ cap) (rest : List Token) :
    angleExtent cap depth (ts ++ rest) = (ts.length, .complete) := by
  induction ts generalizing depth cap with
  | nil => cases hcloses
  | cons t ts ih =>
    obtain ⟨room, rfl⟩ : ∃ room, cap = room + 1 :=
      ⟨cap - 1, by simp only [List.length_cons] at hcap; omega⟩
    rw [List.map_cons, Angle.upToClosing] at hcloses
    rw [List.cons_append, angleExtent]
    simp only [hin t List.mem_cons_self, Bool.false_eq_true, if_false]
    split at hcloses
    · next hdepth =>
      obtain rfl : ts = [] := by simpa using hcloses
      exact if_pos hdepth
    · next hdepth =>
      obtain ⟨l, hl, heq⟩ := Option.map_eq_some_iff.mp hcloses
      have hrest : angleExtent room (depth + Angle.weight t.kind) (ts ++ rest) =
          (ts.length, .complete) :=
        ih (fun u hu => hin u (List.mem_cons_of_mem _ hu)) (hl.trans (congrArg some (List.cons.inj heq).2))
          (by simpa using hcap)
      refine (if_neg hdepth).trans ?_
      rw [hrest]
      rfl

/-- The look ahead passes over a whole list that closes all its brackets. -/
theorem afterAngle?_eq {ts : List Token} (hin : ∀ t ∈ ts, Angle.isInType t.kind = true)
    {depth : Int} (hcloses : Angle.Closes depth (ts.map Token.word)) {cap : Nat}
    (hcap : ts.length ≤ cap) (rest : List Token) : afterAngle? cap depth (ts ++ rest) = some rest := by
  induction ts generalizing depth cap with
  | nil => exact absurd hcloses id
  | cons t ts ih =>
    obtain ⟨room, rfl⟩ : ∃ room, cap = room + 1 :=
      ⟨cap - 1, by simp only [List.length_cons] at hcap; omega⟩
    rw [List.cons_append, afterAngle?, if_pos (hin t List.mem_cons_self)]
    by_cases hts : ts = []
    · subst hts
      have hzero : depth + Angle.weight t.kind = 0 := hcloses
      simp only [show depth + Angle.weight t.kind ≤ 0 by omega, if_true, List.nil_append]
    · rw [List.map_cons, Angle.closes_cons (by simpa using hts)] at hcloses
      have hpos : 0 < depth + Angle.weight t.kind := hcloses.1
      simp only [show ¬ depth + Angle.weight t.kind ≤ 0 by omega, if_false]
      exact ih (fun u hu => hin u (List.mem_cons_of_mem _ hu)) hcloses.2 (by simpa using hcap)

/-- The tokens of a list that is read. -/
theorem isInType_of_fuse {us : List Word} (h : Angle.IsList us)
    (hts : ts.map Token.word = Angle.fuse 0 us) : ∀ t ∈ ts, Angle.isInType t.kind = true := by
  intro t ht
  have hmem : t.word ∈ Angle.fuse 0 us := by
    rw [← hts]
    exact List.mem_map_of_mem ht
  exact Angle.isInType_fuse h.parts 0 _ hmem

theorem yields_angleText {us : List Word} (h : Angle.IsWhole us)
    (hs : Begins s.rest (Angle.fuse 0 us) rest) :
    Yields c s angleText rest (· = Angle.text none us) := by
  intro hroom
  obtain ⟨ts, hts, hword⟩ := hs
  have hle : ts.length ≤ c.limits.excerptTokens := by
    have hlen := hroom.tokens
    rw [hts, List.length_append] at hlen
    omega
  have hextent : angleExtent c.limits.excerptTokens 0 s.rest = (ts.length, .complete) := by
    rw [hts]
    refine angleExtent_eq (fun t ht => h.passes t.word ?_) (hword ▸ h.closes) hle rest
    rw [← hword]
    exact List.mem_map_of_mem ht
  have hrest : (s.skip ts.length).rest = rest := by
    rw [skip_rest, hts, List.drop_left]
  refine ⟨typeText none (s.rest.take ts.length), s.skip ts.length, ?_, hrest, rfl,
    hroom.of_le (by rw [hts, List.length_append]; omega), ?_⟩
  · rw [angleText_run, hextent]
  · rw [hts, List.take_left, typeText_eq, hword, h.joined]

theorem yields_typeParameters {x : Option String} (h : OptionWords (ParametersWords True) x ws)
    (hs : Begins s.rest ws rest) (hrest : kindOf rest ≠ .mark .less) :
    Yields c s typeParameters rest (· = x) := by
  rw [typeParameters, yields_check]
  cases h with
  | none =>
    rw [begins_nil] at hs
    rw [if_neg (by simpa [hs] using hrest)]
    exact yields_pure hs rfl
  | some ha =>
    obtain ⟨hus, rfl⟩ := ha
    replace hus := hus.list trivial
    obtain ⟨vs, rfl, hvs⟩ := hus.eq_cons
    have hkind : kindOf s.rest = .mark .less := Begins.kindOf hs
    rw [if_pos (by simpa using hkind)]
    refine (yields_angleText hus.isWhole hs).bind fun x s' hs' hx => ?_
    exact yields_pure hs' (by rw [hx])

/-- The words behind the first name of a type's name. -/
def segmentWords (first : Segment) (further : List Segment) : List Word :=
  first.listWords ++ further.flatMap fun g => .mark .dot :: g.words

/-- The text behind what is known of a type's name. -/
def segmentText (first : Segment) (further : List Segment) : String :=
  (first.list.map (Angle.text none)).getD "" ++ String.join (further.map fun g => "." ++ g.text)

theorem length_le_segmentWords (first : Segment) (further : List Segment) :
    further.length ≤ (segmentWords first further).length := by
  rw [segmentWords, List.length_append]
  induction further with
  | nil => exact Nat.zero_le _
  | cons g further ih =>
    simp only [List.flatMap_cons, List.length_append, List.length_cons]
    omega

theorem segmentText_cons (first g : Segment) (further : List Segment) (known : String) :
    known ++ (first.list.map (Angle.text none)).getD "" ++ "." ++ g.name ++ segmentText g further =
      known ++ segmentText first (g :: further) := by
  simp only [segmentText, Segment.text, List.map_cons, String.join_cons, String.append_assoc]

/-- The list of type arguments behind a name, if there is one. -/
theorem yields_segmentList {g : Segment} (hg : g.Holds Angle.IsWhole) (known : String)
    (hs : Begins s.rest (g.listWords ++ ws) rest)
    (hmid : ∀ mid, Begins mid ws rest → kindOf mid ≠ .mark .less) {f : String → Parser α}
    (hf : ∀ s', Begins s'.rest ws rest →
      Yields c s' (f (known ++ (g.list.map (Angle.text none)).getD "")) rest R) :
    Yields c s (do
      if ← check Mark.less then f (← pure (known ++ (← angleText))) else f (← pure known)) rest R := by
  rw [yields_check]
  obtain ⟨mid, hs, hws⟩ := begins_append.mp hs
  obtain ⟨-, hlist⟩ := hg
  rcases g with ⟨name, _ | us⟩
  · have hs : s.rest = mid := begins_nil.mp hs
    rw [if_neg (by simpa [hs] using hmid mid hws), pure_bind]
    have hknown := hf s (hs ▸ hws)
    rwa [Option.map_none, Option.getD_none, String.append_empty] at hknown
  · have hus : Angle.IsWhole us := hlist us rfl
    have hkind : kindOf s.rest = .mark .less := by
      obtain ⟨vs, rfl⟩ := List.head?_eq_some_iff.mp hus.opens
      exact Begins.kindOf hs
    rw [if_pos (by simpa using hkind)]
    refine (yields_angleText hus hs).bind fun x s' hs' hx => ?_
    rw [pure_bind, hx]
    exact hf s' (hs' ▸ hws)

/-- What follows a list of type arguments in a type's name is no other list. -/
theorem kindOf_behind_list {further : List Segment}
    (hs : Begins mid (further.flatMap fun g => .mark .dot :: g.words) rest)
    (hrest : EndsTypeName (kindOf rest)) : kindOf mid ≠ .mark .less := by
  rcases further with _ | ⟨g, further⟩
  · rw [begins_nil.mp hs]
    exact hrest.1
  · rw [Begins.kindOf hs]
    exact nofun

theorem yields_typeName {first : Segment} {further : List Segment} (hfirst : first.Holds Angle.IsWhole)
    (hfurther : ∀ g ∈ further, g.Holds Angle.IsWhole) (known : String) {n : Nat} (hn : further.length < n)
    (hs : Begins s.rest (segmentWords first further) rest) (hrest : EndsTypeName (kindOf rest)) :
    Yields c s (typeName known n) rest (· = known ++ segmentText first further) := by
  induction further generalizing first known n s with
  | nil =>
    obtain ⟨n, rfl⟩ : ∃ m, n = m + 1 := ⟨n - 1, by omega⟩
    rw [typeName]
    refine yields_segmentList hfirst known hs (fun mid hmid => kindOf_behind_list hmid hrest)
      fun s' hs' => ?_
    have hs' : s'.rest = rest := begins_nil.mp hs'
    rw [yields_rest, hs', if_neg (by rw [startsWith_eq_false hrest.2]; exact nofun)]
    exact yields_pure hs' (by simp [segmentText])
  | cons g further ih =>
    obtain ⟨n, rfl⟩ : ∃ m, n = m + 1 := ⟨n - 1, by omega⟩
    rw [typeName]
    refine yields_segmentList hfirst known hs (fun mid hmid => kindOf_behind_list hmid hrest)
      fun s' hs' => ?_
    rw [yields_rest, if_pos (by rw [Begins.startsWith hs']; rfl)]
    refine yields_skip_one hs' fun s₁ hs₁ => ?_
    refine yields_identifier hs₁ fun s₂ hs₂ => ?_
    have hlen : further.length < n := by
      simp only [List.length_cons] at hn
      omega
    have hrec := ih (hfurther g List.mem_cons_self)
      (fun h hh => hfurther h (List.mem_cons_of_mem _ hh))
      (known ++ (first.list.map (Angle.text none)).getD "" ++ "." ++ g.name) hlen hs₂
    rwa [segmentText_cons] at hrec

/-- A type is read back from its words. -/
theorem yields_wholeType {t : TypeUse} (h : TypeWords Angle.IsWhole t ws) (hs : Begins s.rest ws rest)
    (hrest : EndsType (kindOf rest)) :
    Yields c s typeUse rest fun u => u.name = t.name ∧ u.dimensions = t.dimensions := by
  obtain ⟨vs, hname, rfl⟩ := h
  obtain ⟨name, dims, span⟩ := t
  dsimp only at hname hs
  have hbrackets (l : Location) (s' : State) (hs' : Begins s'.rest (bracketWords dims) rest) :
      Yields c s' (do
        let n ← brackets
        return ⟨name, n, ← Parser.spanFrom l⟩ : Parser TypeUse) rest
        fun u => u.name = name ∧ u.dimensions = dims := by
    rw [← List.append_nil (bracketWords dims)] at hs'
    refine yields_brackets hs' (fun mid hmid => ?_) fun s'' hs'' => ?_
    · rw [begins_nil.mp hmid]
      exact hrest.2
    · rw [yields_spanFrom]
      exact yields_pure (begins_nil.mp hs'') ⟨rfl, rfl⟩
  rw [typeUse, yields_here, yields_peek, next_kind]
  cases hname with
  | primitive p hx =>
    subst hx
    have hkind : kindOf s.rest = .keyword (.primitive p) := Begins.kindOf hs
    obtain ⟨t, us, hts, ht, -⟩ := begins_cons.mp hs
    have hlexeme : (s.next c).lexeme = p.text := by
      rw [State.next, hts]
      exact congrArg Word.text ht
    simp only [hkind, Kind.isPrimitive, if_true, hlexeme]
    refine yields_skip_one hs fun s₁ hs₁ => ?_
    rw [pure_bind]
    exact hbrackets _ s₁ hs₁
  | @named first further hfirst hfurther hx =>
    subst hx
    have hkind : kindOf s.rest = .identifier := Begins.kindOf hs
    simp only [hkind, Kind.isPrimitive, Bool.false_eq_true, if_false, if_true]
    rw [Segment.words, List.cons_append, List.cons_append] at hs
    refine yields_identifier hs fun s₁ hs₁ => ?_
    rw [yields_steps]
    have htext : first.name ++ segmentText first further =
        first.text ++ String.join (further.map fun g => "." ++ g.text) := by
      rw [segmentText, Segment.text, String.append_assoc]
    rw [← htext] at hbrackets ⊢
    refine Yields.then (P := (· = first.name ++ segmentText first further)) hs₁
      (fun mid hmid hbehind => ?_) fun x s₂ hs₂ hx => ?_
    · have hlen : further.length < s₁.rest.length + 1 := by
        have hle := length_le_segmentWords first further
        have hmid := hmid.length_eq
        rw [segmentWords] at hle
        omega
      have hmid' : EndsTypeName (kindOf mid) := by
        rcases dims with _ | n
        · rw [begins_nil.mp hbehind]
          exact hrest.1
        · rw [Begins.kindOf hbehind]
          decide
      exact yields_typeName hfirst hfurther first.name hlen hmid hmid'
    · rw [hx]
      exact hbrackets _ s₂ hs₂

theorem yields_typeUse {t : TypeUse} (h : TypeWords Angle.IsList t ws) (hs : Begins s.rest ws rest)
    (hrest : EndsType (kindOf rest)) :
    Yields c s typeUse rest fun u => u.name = t.name ∧ u.dimensions = t.dimensions :=
  yields_wholeType (h.imp fun _ hl => hl.isWhole) hs hrest

/-! ### Looking ahead over types -/

theorem afterArguments?_eq {g : Segment} (hg : g.Holds Angle.IsList) (hs : Begins ts g.listWords rest)
    (hrest : kindOf rest ≠ .mark .less) {cap : Nat} (hcap : ts.length ≤ cap) :
    afterArguments? cap ts = some rest := by
  obtain ⟨-, hlist⟩ := hg
  rcases g with ⟨name, _ | us⟩
  · have hs : ts = rest := begins_nil.mp hs
    rw [afterArguments?, hs, if_neg hrest]
  · have hus : Angle.IsList us := hlist us rfl
    have hkind : kindOf ts = .mark .less := by
      obtain ⟨vs, rfl, -⟩ := hus.eq_cons
      exact Begins.kindOf hs
    obtain ⟨us', rfl, hword⟩ := hs
    rw [afterArguments?, if_pos hkind]
    refine afterAngle?_eq (isInType_of_fuse hus hword) ?_ ?_ rest
    · rw [hword]
      exact hus.closes_fuse
    · rw [List.length_append] at hcap
      omega

theorem afterName?_eq {first : Segment} {further : List Segment} (hfirst : first.Holds Angle.IsList)
    (hfurther : ∀ g ∈ further, g.Holds Angle.IsList) (hs : Begins ts (segmentWords first further) rest)
    (hrest : EndsTypeName (kindOf rest)) {cap : Nat} (hcap : ts.length ≤ cap) {n : Nat}
    (hn : further.length < n) : afterName? cap n ts = some rest := by
  obtain ⟨n, rfl⟩ : ∃ m, n = m + 1 := ⟨n - 1, by omega⟩
  obtain ⟨mid, hlist, hbehind⟩ := begins_append.mp hs
  have hmid := kindOf_behind_list hbehind hrest
  rw [afterName?, afterArguments?_eq hfirst hlist hmid hcap, Option.bind_some]
  induction further generalizing first ts mid n with
  | nil =>
    rw [begins_nil.mp hbehind, if_neg (by rw [startsWith_eq_false hrest.2]; exact nofun)]
  | cons g further ih =>
    obtain ⟨n, rfl⟩ : ∃ m, n = m + 1 := ⟨n - 1, by simp only [List.length_cons] at hn; omega⟩
    have hstarts : startsWith Mark.dot .identifier mid = true := by
      rw [Begins.startsWith hbehind]
      rfl
    have hg := hfurther g List.mem_cons_self
    have hdrop : Begins (mid.drop 2) (segmentWords g further) rest := by
      have htail := Begins.tail (Begins.tail hbehind)
      rwa [List.drop_drop] at htail
    obtain ⟨mid', hlist', hbehind'⟩ := begins_append.mp hdrop
    have hmid' := kindOf_behind_list hbehind' hrest
    have hcap' : (mid.drop 2).length ≤ cap := by
      have hlen := hlist.length_eq
      rw [List.length_drop]
      omega
    rw [if_pos hstarts, afterName?, afterArguments?_eq hg hlist' hmid' hcap', Option.bind_some]
    refine ih hg (fun h hh => hfurther h (List.mem_cons_of_mem _ hh)) hdrop hcap' n ?_ mid' hlist'
      hbehind' hmid'
    simp only [List.length_cons] at hn
    omega

/-- The look ahead passes over a whole type. -/
theorem afterType?_eq {t : TypeUse} (h : TypeWords Angle.IsList t ws) (hs : Begins ts ws rest)
    (hrest : EndsType (kindOf rest)) {cap : Nat} (hcap : ts.length ≤ cap) :
    afterType? cap ts = some rest := by
  obtain ⟨vs, hname, rfl⟩ := h
  obtain ⟨mid, hvs, hbrackets⟩ := begins_append.mp hs
  have hdrop : mid.drop (2 * dimensions mid) = rest := by
    rw [dimensions_eq hbrackets hrest.2, ← length_bracketWords]
    exact hbrackets.drop
  have hmid : EndsTypeName (kindOf mid) := by
    rcases hdim : t.dimensions with _ | n
    · rw [hdim] at hbrackets
      rw [begins_nil.mp hbrackets]
      exact hrest.1
    · rw [hdim] at hbrackets
      rw [Begins.kindOf hbrackets]
      decide
  cases hname with
  | primitive p hx =>
    obtain ⟨u, us, rfl, hu, hus⟩ := begins_cons.mp hvs
    rw [begins_nil] at hus
    have hkind : u.kind.isPrimitive = true := by
      rw [show u.kind = _ from congrArg Word.kind hu]
      rfl
    rw [afterType?]
    simp only [hkind, if_true, Option.map_some, hus, hdrop]
  | @named first further hfirst hfurther hx =>
    rw [Segment.words, List.cons_append] at hvs
    obtain ⟨u, us, rfl, hu, hus⟩ := begins_cons.mp hvs
    have hkind : u.kind = .identifier := congrArg Word.kind hu
    have hlen : further.length < us.length + 1 := by
      have hle := length_le_segmentWords first further
      have hlen := hus.length_eq
      rw [segmentWords] at hle
      omega
    have hname := afterName?_eq hfirst hfurther hus hmid
      (Nat.le_trans (Nat.le_succ _) hcap) hlen
    rw [afterType?]
    simp only [hkind, Kind.isPrimitive, Bool.false_eq_true, if_false, if_true, hname,
      Option.map_some, hdrop]

/-! ### Lists of types -/

theorem length_le_of_commaWords {P : α → List Word → Prop} {as : List α} (h : CommaWords P as ws) :
    as.length ≤ ws.length + 1 := by
  induction h with
  | one _ => simp
  | cons _ _ ih =>
    simp only [List.length_cons, List.length_append]
    omega

/-- Types that are written alike. -/
def AlikeTypes (ts us : List TypeUse) : Prop := ts.map TypeUse.render = us.map TypeUse.render

theorem render_eq {t u : TypeUse} (h : t.name = u.name ∧ t.dimensions = u.dimensions) :
    t.render = u.render := by
  rw [TypeUse.render, TypeUse.render, h.1, h.2]

theorem yields_moreTypes_none (hs : s.rest = rest) (hrest : kindOf rest ≠ .mark .comma) (n : Nat) :
    Yields c s (moreTypes n) rest (· = []) := by
  cases n with
  | zero => exact yields_pure hs rfl
  | succ n =>
    rw [moreTypes, yields_accept_none (by rwa [hs])]
    exact yields_pure hs rfl

theorem yields_moreTypes {us : List TypeUse} (h : CommaWords (TypeWords (Angle.MayStand True)) us ws)
    (hs : Begins s.rest (.mark .comma :: ws) rest) (hrest : EndsType (kindOf rest))
    (hcomma : kindOf rest ≠ .mark .comma) {n : Nat} (hn : us.length ≤ n) :
    Yields c s (moreTypes n) rest (AlikeTypes · us) := by
  induction h generalizing s n with
  | @one t ws ht =>
    obtain ⟨n, rfl⟩ : ∃ m, n = m + 1 := ⟨n - 1, by simp only [List.length_cons] at hn; omega⟩
    refine yields_accept hs rfl fun s₁ hs₁ => ?_
    refine (yields_typeUse (ht.lists trivial) hs₁ hrest).bind fun u s₂ hs₂ hu => ?_
    refine (yields_moreTypes_none hs₂ hcomma n).bind fun us s₃ hs₃ hus => ?_
    refine yields_pure hs₃ ?_
    rw [hus, AlikeTypes, List.map_singleton, List.map_singleton, render_eq hu]
  | @cons t us tw uw ht hus ih =>
    obtain ⟨n, rfl⟩ : ∃ m, n = m + 1 := ⟨n - 1, by simp only [List.length_cons] at hn; omega⟩
    refine yields_accept hs rfl fun s₁ hs₁ => ?_
    refine Yields.then hs₁ (fun mid hmid hbehind => yields_typeUse (ht.lists trivial) hmid ?_)
      fun u s₂ hs₂ hu => ?_
    · rw [hbehind.kindOf]
      decide
    · refine (ih hs₂ ?_).bind fun us' s₃ hs₃ hus' => yields_pure hs₃ ?_
      · simp only [List.length_cons] at hn
        omega
      · rw [AlikeTypes, List.map_cons, List.map_cons, render_eq hu, hus']

theorem yields_typeList {us : List TypeUse} (h : CommaWords (TypeWords (Angle.MayStand True)) us ws)
    (hs : Begins s.rest ws rest) (hrest : EndsType (kindOf rest))
    (hcomma : kindOf rest ≠ .mark .comma) : Yields c s typeList rest (AlikeTypes · us) := by
  cases h with
  | one ht =>
    refine (yields_typeUse (ht.lists trivial) hs hrest).bind fun u s₁ hs₁ hu => ?_
    rw [yields_steps]
    refine (yields_moreTypes_none hs₁ hcomma _).bind fun us s₂ hs₂ hus => yields_pure hs₂ ?_
    rw [hus, AlikeTypes, List.map_singleton, List.map_singleton, render_eq hu]
  | cons ht hus =>
    refine Yields.then hs (fun mid hmid hbehind => yields_typeUse (ht.lists trivial) hmid ?_)
      fun u s₁ hs₁ hu => ?_
    · rw [hbehind.kindOf]
      decide
    · rw [yields_steps]
      refine (yields_moreTypes hus hs₁ hrest hcomma ?_).bind fun us' s₂ hs₂ hus' =>
        yields_pure hs₂ ?_
      · have hle := length_le_of_commaWords hus
        have hlen := hs₁.length_eq
        simp only [List.length_cons] at hlen
        omega
      · rw [AlikeTypes, List.map_cons, List.map_cons, render_eq hu, hus']

theorem yields_typesAfter {k : Keyword} {us : List TypeUse} (h : ClauseWords True k us ws)
    (hs : Begins s.rest ws rest) (hrest : EndsType (kindOf rest))
    (hcomma : kindOf rest ≠ .mark .comma) (hk : kindOf rest ≠ .keyword k) :
    Yields c s (typesAfter k) rest (AlikeTypes · us) := by
  cases h with
  | nil =>
    have hs : s.rest = rest := begins_nil.mp hs
    rw [typesAfter, yields_accept_none (by rwa [hs])]
    exact yields_pure hs rfl
  | some h =>
    refine yields_accept hs rfl fun s₁ hs₁ => ?_
    exact yields_typeList h hs₁ hrest hcomma

end JavaTree.Parser
