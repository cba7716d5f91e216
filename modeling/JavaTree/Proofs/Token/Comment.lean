import JavaTree.Proofs.Token.Shape

/-!
Comments between marks.

The pattern of a comment counts stars: a run of other characters and a run of stars, then again and
again a character that is neither star nor slash with such runs behind it, and a slash. Whatever
comes before the slash ends with a star and has no `*/` in it, and every such text can be cut into
those runs. So the pattern has exactly the texts that end at the first `*/` behind their opening
mark, which is what the search for the end finds.

    /** a * b /c **/        runs:   **| a *| b /c **|/
-/

open Computability

namespace JavaTree.Pattern

/-! ### The search for the end -/

theorem commentEnd?_cons (c : Char) (x : List Char) :
    commentEnd? (c :: x) = if c = '*' ∧ x.head? = some '/' then some 2 else (commentEnd? x).map (· + 1) :=
  rfl

theorem commentEnd?_cons_eq_none {c : Char} {x : List Char} :
    commentEnd? (c :: x) = none ↔ ¬ (c = '*' ∧ x.head? = some '/') ∧ commentEnd? x = none := by
  rw [commentEnd?_cons]
  split
  · next h => simp [h]
  · next h => simp [h]

/-- Nothing is found in a text without `*/`. -/
theorem commentEnd?_eq_none {x : List Char} : commentEnd? x = none ↔ ¬ ['*', '/'] <:+: x := by
  induction x with
  | nil => simp [commentEnd?]
  | cons c x ih =>
    have hprefix : ['*', '/'] <+: c :: x ↔ c = '*' ∧ x.head? = some '/' := by
      rcases x with _ | ⟨d, x⟩
      · simp [List.cons_prefix_cons]
      · simp [List.cons_prefix_cons, eq_comm]
    rw [commentEnd?_cons_eq_none, List.infix_cons_iff, not_or, hprefix, ih]

theorem commentEnd?_append {a b : List Char} (ha : commentEnd? a = none) (hb : commentEnd? b = none)
    (hslash : b.head? ≠ some '/') : commentEnd? (a ++ b) = none := by
  induction a with
  | nil => exact hb
  | cons c a ih =>
    obtain ⟨hc, hrest⟩ := commentEnd?_cons_eq_none.mp ha
    rw [List.cons_append, commentEnd?_cons_eq_none]
    refine ⟨?_, ih hrest⟩
    rintro ⟨hstar, hhead⟩
    rw [List.head?_append] at hhead
    cases hfirst : a.head? with
    | none =>
      rw [hfirst] at hhead
      exact hslash hhead
    | some d =>
      rw [hfirst] at hhead
      exact hc ⟨hstar, hfirst.trans hhead⟩

/-- The first `*/` is found. -/
theorem commentEnd?_append_end {w : List Char} (h : commentEnd? (w ++ ['*']) = none) (r : List Char) :
    commentEnd? (w ++ '*' :: '/' :: r) = some (w.length + 2) := by
  induction w with
  | nil => rfl
  | cons c w ih =>
    rw [List.cons_append, commentEnd?_cons_eq_none] at h
    obtain ⟨hc, hrest⟩ := h
    have hhead : (w ++ '*' :: '/' :: r).head? = (w ++ ['*']).head? := by
      cases w <;> rfl
    rw [List.cons_append, commentEnd?_cons, hhead, if_neg hc, ih hrest]
    rfl

/-- What is found is the first `*/`. -/
theorem exists_of_commentEnd? {x : List Char} {n : Nat} (h : commentEnd? x = some n) :
    ∃ w r, x = w ++ '*' :: '/' :: r ∧ n = w.length + 2 ∧ commentEnd? (w ++ ['*']) = none := by
  induction x generalizing n with
  | nil => cases h
  | cons c x ih =>
    rw [commentEnd?_cons] at h
    split at h
    · next hc =>
      obtain ⟨rfl, hslash⟩ := hc
      obtain ⟨r, rfl⟩ := List.head?_eq_some_iff.mp hslash
      cases h
      exact ⟨[], r, rfl, rfl, rfl⟩
    · next hc =>
      obtain ⟨m, hm, rfl⟩ := Option.map_eq_some_iff.mp h
      obtain ⟨w, r, rfl, rfl, hw⟩ := ih hm
      refine ⟨c :: w, r, rfl, rfl, commentEnd?_cons_eq_none.mpr ⟨?_, hw⟩⟩
      have hhead : (w ++ '*' :: '/' :: r).head? = (w ++ ['*']).head? := by
        cases w <;> rfl
      rwa [hhead] at hc

/-! ### The pattern -/

/-- Characters other than stars, and stars behind them. -/
def starRun : Language Char := (ofClass (· != '*'))∗ * oneOrMore (ofClass (· == '*'))

/-- Such a run behind a character that does not end the comment. -/
def laterRun : Language Char := ofClass (fun c => c != '/' && c != '*') * starRun

/-- What a comment may have behind its opening mark. -/
def commentTailShape : Language Char := starRun * laterRun∗ * word ['/']

/-- Comments between `/*` and `*/`. -/
def blockCommentShape : Language Char := word ['/', '*'] * commentTailShape

variable {u w x : List Char}

theorem commentEnd?_eq_none_of_ne_star (h : ∀ c ∈ x, c ≠ '*') : commentEnd? x = none :=
  commentEnd?_eq_none.mpr fun hin => h '*' (hin.subset List.mem_cons_self) rfl

theorem commentEnd?_eq_none_of_ne_slash (h : ∀ c ∈ x, c ≠ '/') : commentEnd? x = none :=
  commentEnd?_eq_none.mpr fun hin =>
    h '/' (hin.subset (List.mem_cons_of_mem _ List.mem_cons_self)) rfl

theorem mem_starRun : u ∈ starRun ↔
    ∃ a b, (∀ c ∈ a, c ≠ '*') ∧ b ≠ [] ∧ (∀ c ∈ b, c = '*') ∧ a ++ b = u := by
  rw [starRun, Language.mem_mul]
  constructor
  · rintro ⟨a, ha, b, hb, rfl⟩
    obtain ⟨hne, hb⟩ := mem_oneOrMore_ofClass.mp hb
    exact ⟨a, b, by simpa using mem_kstar_ofClass.mp ha, hne, by simpa using hb, rfl⟩
  · rintro ⟨a, b, ha, hne, hb, rfl⟩
    refine ⟨a, mem_kstar_ofClass.mpr (by simpa using ha), b, ?_, rfl⟩
    exact mem_oneOrMore_ofClass.mpr ⟨hne, by simpa using hb⟩

theorem mem_laterRun : u ∈ laterRun ↔ ∃ c s, c ≠ '/' ∧ c ≠ '*' ∧ s ∈ starRun ∧ c :: s = u := by
  rw [laterRun, Language.mem_mul]
  constructor
  · rintro ⟨_, ⟨c, hc, rfl⟩, s, hs, rfl⟩
    rw [Bool.and_eq_true, bne_iff_ne, bne_iff_ne] at hc
    exact ⟨c, s, hc.1, hc.2, hs, rfl⟩
  · rintro ⟨c, s, hslash, hstar, hs, rfl⟩
    exact ⟨[c], ⟨c, by simp [hslash, hstar], rfl⟩, s, hs, rfl⟩

/-- Texts that end with a star and have no `*/` in them: a slash behind them ends the comment. -/
def openText : Language Char := {u | ['*'] <:+ u ∧ commentEnd? u = none}

theorem mem_openText_of_starRun (hu : u ∈ starRun) : u ∈ openText := by
  obtain ⟨a, b, ha, hne, hb, rfl⟩ := mem_starRun.mp hu
  constructor
  · refine List.IsSuffix.trans ?_ (List.suffix_append a b)
    rw [← hb _ (List.getLast_mem hne)]
    exact ⟨b.dropLast, List.dropLast_append_getLast hne⟩
  · refine commentEnd?_append (commentEnd?_eq_none_of_ne_star ha) (commentEnd?_eq_none_of_ne_slash ?_) ?_
    · intro c hc
      rw [hb c hc]
      decide
    · intro hhead
      have hslash := hb _ (List.mem_of_head? hhead)
      revert hslash
      decide

theorem mem_openText_of_laterRun (hu : u ∈ openText * laterRun) : u ∈ openText := by
  obtain ⟨a, ⟨-, ha⟩, b, hb, rfl⟩ := Language.mem_mul.mp hu
  obtain ⟨c, s, hslash, hstar, hs, rfl⟩ := mem_laterRun.mp hb
  obtain ⟨hlast, hs⟩ := mem_openText_of_starRun hs
  refine ⟨hlast.trans ((List.suffix_cons c s).trans (List.suffix_append a _)), ?_⟩
  refine commentEnd?_append ha ?_ ?_
  · exact commentEnd?_cons_eq_none.mpr ⟨fun h => hstar h.1, hs⟩
  · intro hhead
    exact hslash (Option.some.inj hhead)

theorem cons_mem_runs {c : Char} (hc : c ≠ '*') (hu : u ∈ starRun * laterRun∗) :
    c :: u ∈ starRun * laterRun∗ := by
  obtain ⟨s, hs, v, hv, rfl⟩ := Language.mem_mul.mp hu
  obtain ⟨a, b, ha, hne, hb, rfl⟩ := mem_starRun.mp hs
  have hrun : c :: a ++ b ∈ starRun := by
    refine mem_starRun.mpr ⟨c :: a, b, ?_, hne, hb, rfl⟩
    simpa [hc] using ha
  exact Language.append_mem_mul hrun hv

theorem star_cons_mem_runs (hu : u ∈ starRun * laterRun∗) (hslash : u.head? ≠ some '/') :
    '*' :: u ∈ starRun * laterRun∗ := by
  obtain ⟨s, hs, v, hv, rfl⟩ := Language.mem_mul.mp hu
  obtain ⟨a, b, ha, hne, hb, rfl⟩ := mem_starRun.mp hs
  rcases a with _ | ⟨c, a⟩
  · -- one more star in the first run
    have hrun : '*' :: b ∈ starRun := by
      refine mem_starRun.mpr ⟨[], '*' :: b, nofun, nofun, ?_, rfl⟩
      simpa using hb
    exact Language.append_mem_mul hrun hv
  · -- the star is a run of its own, and the first run becomes a later one
    rw [List.forall_mem_cons] at ha
    have hstar : ['*'] ∈ starRun := mem_starRun.mpr ⟨[], ['*'], nofun, nofun, by simp, rfl⟩
    have hlater : c :: (a ++ b) ∈ laterRun := by
      refine mem_laterRun.mpr ⟨c, a ++ b, fun h => hslash (h ▸ rfl), ha.1, ?_, rfl⟩
      exact mem_starRun.mpr ⟨a, b, ha.2, hne, hb, rfl⟩
    have hle : laterRun * laterRun∗ ≤ laterRun∗ := mul_kstar_le_kstar
    have hruns : c :: (a ++ b) ++ v ∈ laterRun∗ := hle (Language.append_mem_mul hlater hv)
    exact Language.append_mem_mul hstar hruns

theorem mem_runs_of_open (h : commentEnd? (w ++ ['*']) = none) : w ++ ['*'] ∈ starRun * laterRun∗ := by
  induction w with
  | nil =>
    have hstar : ['*'] ∈ starRun := mem_starRun.mpr ⟨[], ['*'], nofun, nofun, by simp, rfl⟩
    have hruns := Language.append_mem_mul hstar (Language.nil_mem_kstar laterRun)
    rwa [List.append_nil] at hruns
  | cons c w ih =>
    rw [List.cons_append, commentEnd?_cons_eq_none] at h
    by_cases hc : c = '*'
    · subst hc
      exact star_cons_mem_runs (ih h.2) fun hhead => h.1 ⟨rfl, hhead⟩
    · exact cons_mem_runs hc (ih h.2)

/-- The runs of the pattern make up exactly the texts that a slash ends. -/
theorem runs_eq_openText : starRun * laterRun∗ = openText := by
  apply le_antisymm
  · exact mul_kstar_le (fun _ => mem_openText_of_starRun) fun _ => mem_openText_of_laterRun
  · rintro _ ⟨⟨w, rfl⟩, hend⟩
    exact mem_runs_of_open hend

theorem mem_commentTailShape :
    u ∈ commentTailShape ↔ ∃ w, u = w ++ ['*', '/'] ∧ commentEnd? (w ++ ['*']) = none := by
  rw [commentTailShape, runs_eq_openText, Language.mem_mul]
  constructor
  · rintro ⟨_, ⟨⟨w, rfl⟩, hend⟩, _, rfl, rfl⟩
    exact ⟨w, by simp, hend⟩
  · rintro ⟨w, rfl, hend⟩
    exact ⟨w ++ ['*'], ⟨⟨w, rfl⟩, hend⟩, ['/'], rfl, by simp⟩

theorem finds_commentTail : Finds commentTailShape commentEnd? where
  mem := by
    intro x n hn
    obtain ⟨w, r, rfl, rfl, hend⟩ := exists_of_commentEnd? hn
    refine ⟨by simp, mem_commentTailShape.mpr ⟨w, ?_, hend⟩⟩
    exact List.take_length_add_append 2
  max := by
    intro u r hu
    obtain ⟨w, rfl, hend⟩ := mem_commentTailShape.mp hu
    have hfound := commentEnd?_append_end hend r
    exact ⟨_, by simpa using hfound, by simp⟩

theorem finds_blockComment : Finds blockCommentShape blockComment? := by
  refine ((finds_word ['/', '*']).andThen finds_commentTail apart_word).congr fun x => ?_
  by_cases hopens : ['/', '*'] <+: x
  · obtain ⟨y, rfl⟩ := hopens
    refine (andThen_word ['/', '*'] y _).trans ?_
    exact congrArg (Option.map · _) (funext fun n => Nat.add_comm 2 n)
  · rw [andThen_word_eq_none hopens]
    unfold blockComment?
    split
    · exact absurd (List.prefix_append ['/', '*'] _) hopens
    · rfl

/-- No `*/` is found in a text that only lacks the slash if and only if each `*/` in the whole text is
the one at its end. -/
theorem commentEnd?_concat_star : commentEnd? (w ++ ['*']) = none ↔
    ∀ a b, w ++ ['*', '/'] = a ++ '*' :: '/' :: b → b = [] := by
  rw [commentEnd?_eq_none]
  constructor
  · intro hinfix a b hab
    rcases List.eq_nil_or_concat b with rfl | ⟨b, c, rfl⟩
    · rfl
    · refine absurd ⟨a, b, ?_⟩ hinfix
      have hconcat : (w ++ ['*']) ++ ['/'] = (a ++ ['*', '/'] ++ b) ++ [c] := by
        simpa using hab
      exact (List.append_inj_left' hconcat rfl).symm
  · rintro hend ⟨a, b, hab⟩
    have hrest := hend a (b ++ ['/']) (by
      rw [show w ++ ['*', '/'] = (w ++ ['*']) ++ ['/'] by simp, ← hab]
      simp)
    exact absurd hrest (by simp)

/-- The pattern of a comment has exactly the texts between `/*` and `*/` whose first `*/` behind the
opening mark is at the end. -/
theorem mem_blockCommentShape : u ∈ blockCommentShape ↔
    ∃ w, u = '/' :: '*' :: (w ++ ['*', '/']) ∧
      ∀ a b, w ++ ['*', '/'] = a ++ '*' :: '/' :: b → b = [] := by
  rw [blockCommentShape, Language.mem_mul]
  constructor
  · rintro ⟨_, rfl, v, hv, rfl⟩
    obtain ⟨w, rfl, hend⟩ := mem_commentTailShape.mp hv
    exact ⟨w, rfl, commentEnd?_concat_star.mp hend⟩
  · rintro ⟨w, rfl, hend⟩
    refine ⟨['/', '*'], rfl, w ++ ['*', '/'], ?_, rfl⟩
    exact mem_commentTailShape.mpr ⟨w, rfl, commentEnd?_concat_star.mpr hend⟩

end JavaTree.Pattern
