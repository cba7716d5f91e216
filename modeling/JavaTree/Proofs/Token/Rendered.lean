import JavaTree.Proofs.Token.Adjacent
import JavaTree.Proofs.Token.Recovered

/-!
A run of tokens is read back from its text.

Where no two dots have a third point right behind them, the text of a run spells the run. Where they
have, no space stands between the three, so the text has an ellipsis in their place: reading goes well
up to the first dot of the first such three, and there it goes another way.

    tokens    a  .  .  b        a  .  .  .  b        a  .  .  .5
    text      a..b              a...b                a...5
    read      a  .  .  b        a  ...  b            a  ...  5
-/

namespace JavaTree

open Pattern Lexer

/-- A token of the same kind and, unless it is a quoted literal, of the same spelling. The kind of a
quoted literal says what text it stands for. -/
def Token.Same (t u : Token) : Prop := t.kind = u.kind ∧ (t.kind.value? = none → t.lexeme = u.lexeme)

theorem Token.same_of_word {t u : Token} (h : u.word = t.written) : t.Same u := by
  obtain ⟨hkind, htext⟩ : u.kind = t.kind ∧ u.lexeme = t.text := by
    simpa [Token.word, Token.written] using h
  refine ⟨hkind.symm, fun hvalue => ?_⟩
  rw [htext, Token.text_plain hvalue]

/-! ### Reading on -/

namespace Lexer

/-- The words that a text is cut into, whatever lies between them. -/
def words (u : Cursor) (cs : List Char) : List Word := ((cut 0 u cs).filterMap Item.token?).map Token.word

/-- A token that is read as it is, and what is read behind it. -/
theorem words_token {t : Token} (ht : t.IsReadable) {r : List Char} (h : t.EndsBefore r) (u : Cursor) :
    ∃ v, words u (t.text.toList ++ r) = t.written :: words v r := by
  refine ⟨u.advanceAll t.text.toList, ?_⟩
  rw [words, cut_append ht.text_ne_nil h, List.filterMap_cons]
  simp only [Item.token?, ht.isTrivia_eq_false, Bool.false_eq_true, if_false, List.map_cons]
  simp [words, Token.word, Token.written]

/-- A space changes nothing. -/
theorem words_space (u : Cursor) (r : List Char) : ∃ v, words u (' ' :: r) = words v r := by
  refine ⟨u.advance ' ', ?_⟩
  simp only [words, cut, read_blank (c := ' ') rfl, Reading.item, Nat.add_sub_cancel, List.filterMap_cons,
    Item.token?, Kind.isTrivia, if_true]
  rw [← filterMap_cut_blank fun _ _ => rfl]

/-- Three points are an ellipsis. -/
theorem words_ellipsis (u : Cursor) (r : List Char) :
    ∃ ws, words u ('.' :: '.' :: '.' :: r) = .mark .ellipsis :: ws := by
  have hread : read (['.', '.', '.'] ++ r) = ⟨.ok (.mark .ellipsis), 3⟩ := read_points r
  refine ⟨words (u.advanceAll ['.', '.', '.']) r, ?_⟩
  have hcut := cut_append (List.cons_ne_nil _ _) hread u
  simp only [List.cons_append, List.nil_append] at hcut
  rw [words, hcut]
  rfl

end Lexer

/-! ### Three points -/

namespace Spacing

variable {l : Left} {t : Token}

/-- A point is written with one point, not more, at its start. -/
theorem text_point (ht : t.IsReadable) (h : t.IsPoint) :
    ∃ x, t.text.toList = '.' :: x ∧ x.head? ≠ some '.' := by
  obtain ⟨x, hx⟩ : ∃ x, t.text.toList = '.' :: x := by
    rcases h with hk | ⟨hk, hhead⟩
    · exact ⟨[], ht.text_dot hk⟩
    · rw [Token.text_number (.inr hk)]
      exact List.head?_eq_some_iff.mp hhead
  refine ⟨x, hx, ?_⟩
  rcases ht.of_point hx with ⟨-, rfl⟩ | ⟨hk, -⟩ | ⟨-, d, y, rfl, hd⟩
  · nofun
  · rcases h with hk' | ⟨hk', -⟩ <;> cases hk.symm.trans hk'
  · rintro hhead
    cases hhead
    exact absurd hd (by decide)

/-- Dots and points stand right behind a dot. -/
theorem Left.gap_eq_nil (hl : l.token.IsReadable) (hdot : l.token.kind = .mark .dot)
    (hwants : l.wantsSpace = false) (ht : t.IsReadable) (hpoint : t.IsPoint) (b : Bool) :
    l.gap t b = [] := by
  obtain ⟨x, hx, hhead⟩ := text_point ht hpoint
  have hmark : mark? (Mark.dot.chars ++ '.' :: x) = some .dot :=
    mark?_append_cons (by decide) fun _ _ => hhead
  have hread := read_of_mark? hmark (noComment_of_ne (by decide) _) rfl
  have hmerges : merges l.token.text.toList t.text.toList = false := by
    rw [merges, hl.text_dot hdot, hx]
    simp only [Mark.chars] at hread
    rw [hread]
    rfl
  have hpadded : isPadded t.kind (some l.token.kind) b = false := by
    rcases hpoint with hk | ⟨hk, -⟩ <;> rw [hk] <;> rfl
  rw [Left.gap, needsSpace, hpadded, hwants, hmerges, hdot]
  simp [isWordlike, Kind.isWord]

/-- Where dots are written behind each other, no space is asked for. -/
theorem Left.behind_wantsSpace {t : Token} (hdot : t.kind = .mark .dot) (k : Option Kind) (b : Bool) :
    (Left.behind k t b).wantsSpace = false := by
  rw [Left.behind, hdot]
  cases k <;> rfl

/-- Three tokens that fuse are written without spaces, and read as an ellipsis and what is left. -/
theorem words_pieces_ellipsis {l : Left} (hl : l.token.IsReadable) (hspace : l.endsInSpace = false)
    (hwants : l.token.kind = .mark .dot → l.wantsSpace = false) {v w : Token} (hv : v.IsReadable)
    (hw : w.IsReadable) (hfuses : Fuses l.token v w) (d e : Bool) (ts : List (Token × Bool)) (u : Cursor) :
    ∃ ws, words u (l.token.text.toList ++ (String.join (pieces (some l) ((v, d) :: (w, e) :: ts))).toList) =
      .mark .ellipsis :: ws := by
  obtain ⟨hdot, hdot', hpoint⟩ := hfuses
  obtain ⟨x, hx, -⟩ := text_point hw hpoint
  have hgap := Left.gap_eq_nil hl hdot (hwants hdot) hv (.inl hdot') d
  have hgap' := Left.gap_eq_nil (l := .behind (some l.token.kind) v d) hv hdot'
    (Left.behind_wantsSpace hdot' _ _) hw hpoint e
  rw [pieces_some hspace hv, hgap, pieces_some rfl hw, hgap', hl.text_dot hdot, hv.text_dot hdot', hx]
  exact words_ellipsis u _

/-- Where three tokens fuse, what is written is read up to the first dot of the first such three, and
goes on with an ellipsis. -/
theorem words_pieces_of_fuses {ts : List Token} (hts : ∀ t ∈ ts, t.IsReadable) {l : Left}
    (hl : l.token.IsReadable) (hspace : l.endsInSpace = false)
    (hwants : l.token.kind = .mark .dot → l.wantsSpace = false) {bs : List Bool}
    (hbs : bs.length = ts.length) (u : Cursor)
    (h : ∃ a b c, [a, b, c] <:+: l.token :: ts ∧ Fuses a b c) :
    ∃ front t back ws, l.token :: ts = front ++ t :: back ∧ t.kind = .mark .dot ∧
      words u (l.token.text.toList ++ (String.join (pieces (some l) (ts.zip bs))).toList) =
        front.map Token.written ++ .mark .ellipsis :: ws := by
  induction ts generalizing l bs u with
  | nil =>
    obtain ⟨a, b, c, hsub, -⟩ := h
    exact absurd hsub.length_le (by simp)
  | cons v vs ih =>
    obtain ⟨d, bs, rfl⟩ := List.exists_cons_of_length_eq_add_one hbs
    have hv := hts v List.mem_cons_self
    have hvs : ∀ t ∈ vs, t.IsReadable := fun t ht => hts t (List.mem_cons_of_mem _ ht)
    have hstep := pieces_some hspace hv d (vs.zip bs)
    by_cases hfuses : ∃ w ∈ vs.head?, Fuses l.token v w
    · -- the first three tokens fuse: there is no space between them
      obtain ⟨w, hw, hfuses⟩ := hfuses
      obtain ⟨ws, rfl⟩ := List.head?_eq_some_iff.mp hw
      obtain ⟨e, bs, rfl⟩ := List.exists_cons_of_length_eq_add_one (Nat.succ.inj hbs)
      obtain ⟨us, hus⟩ := words_pieces_ellipsis hl hspace hwants hv (hvs w List.mem_cons_self) hfuses d e
        (ws.zip bs) u
      exact ⟨[], l.token, _, us, rfl, hfuses.1, hus⟩
    · obtain ⟨a, b, c, hsub, habc⟩ := h
      have hlater : [a, b, c] <:+: v :: vs := by
        refine (List.infix_cons_iff.mp hsub).resolve_left ?_
        rintro ⟨us, hus⟩
        obtain ⟨rfl, rfl, rfl⟩ : a = l.token ∧ b = v ∧ c :: us = vs := by simpa using hus
        exact hfuses ⟨c, rfl, habc⟩
      have hbefore : l.token.EndsBefore (String.join (pieces (some l) ((v :: vs).zip (d :: bs)))).toList := by
        rw [← List.append_nil (String.toList _)]
        exact Left.endsBefore_pieces hl hspace hv hvs (Nat.succ.inj hbs)
          (fun w hw hfuse => hfuses ⟨w, hw, hfuse⟩) fun _ _ _ => nofun
      obtain ⟨u', hword⟩ := words_token hl hbefore u
      obtain ⟨u'', hgap⟩ : ∃ u'', words u' (String.join (pieces (some l) ((v :: vs).zip (d :: bs)))).toList =
          words u'' (v.text.toList ++
            (String.join (pieces (some (.behind (some l.token.kind) v d)) (vs.zip bs))).toList) := by
        rw [List.zip_cons_cons, hstep]
        obtain hgap | hgap := l.gap_cases v d <;> rw [hgap]
        · exact words_space u' _
        · exact ⟨u', rfl⟩
      obtain ⟨front, t, back, ws, hsplit, hdot, hwords⟩ := ih hvs (l := .behind (some l.token.kind) v d) hv rfl
        (fun hdot => Left.behind_wantsSpace hdot _ _) (Nat.succ.inj hbs) u'' ⟨a, b, c, hlater, habc⟩
      refine ⟨l.token :: front, t, back, ws, congrArg (l.token :: ·) hsplit, hdot, ?_⟩
      rw [hword, hgap]
      exact congrArg (l.token.written :: ·) hwords

theorem words_render_of_fuses {ts : List Token} (hts : ∀ t ∈ ts, t.IsReadable)
    (h : ∃ a b c, [a, b, c] <:+: ts ∧ Fuses a b c) :
    ∃ front t back ws, ts = front ++ t :: back ∧ t.kind = .mark .dot ∧
      words .start (render ts).toList = front.map Token.written ++ .mark .ellipsis :: ws := by
  rcases ts with _ | ⟨t, ts⟩
  · obtain ⟨a, b, c, hsub, -⟩ := h
    exact absurd hsub.length_le (by simp)
  · have ht := hts t List.mem_cons_self
    have hlength := Angle.length_marks (t :: ts) 0
    obtain ⟨b, bs, hmarks⟩ := List.exists_cons_of_length_eq_add_one hlength
    rw [hmarks] at hlength
    rw [render, hmarks, List.zip_cons_cons, pieces_none ht, String.join_cons, String.toList_append]
    exact words_pieces_of_fuses (fun u hu => hts u (List.mem_cons_of_mem _ hu)) (l := .behind none t b) ht rfl
      (fun hdot => Left.behind_wantsSpace hdot _ _) (Nat.succ.inj hlength) .start h

end Spacing

/-! ### Whole texts -/

namespace Lexer

theorem tokenize_eq_ok_append {source : String} {ts : List Token} :
    tokenize source = .ok (ts ++ [endToken source]) ↔
      faults source = [] ∧ (items source).filterMap Item.token? = ts := by
  rw [tokenize_eq_ok, List.append_cancel_right_eq]

theorem isReadable_of_tokenize {source : String} {ts : List Token}
    (h : tokenize source = .ok (ts ++ [endToken source])) : ∀ t ∈ ts, t.IsReadable := by
  intro t ht
  obtain ⟨hfaults, rfl⟩ := tokenize_eq_ok_append.mp h
  obtain ⟨i, hi, hit⟩ := List.mem_filterMap.mp ht
  cases i with
  | fault f =>
    have hmem : f ∈ faults source := List.mem_filterMap.mpr ⟨.fault f, hi, rfl⟩
    rw [hfaults] at hmem
    cases hmem
  | token v =>
    obtain ⟨-, rfl⟩ : ¬ v.kind.isTrivia = true ∧ v = t := by simpa [Item.token?] using hit
    exact (isSound_of_mem_cut hi hit).isReadable (kind_of_mem_cut hi).2

/-- Tokens that are read back have the kinds they had, at the same places. -/
theorem map_kind_of_same {ts us : List Token} (h : List.Forall₂ Token.Same ts us) :
    (ts.map Token.kind) = us.map Token.kind := by
  induction h with
  | nil => rfl
  | cons hsame _ ih => rw [List.map_cons, List.map_cons, hsame.1, ih]

theorem same_of_map_word {ts us : List Token} (h : us.map Token.word = ts.map Token.written) :
    List.Forall₂ Token.Same ts us := by
  rw [← List.forall₂_eq_eq_eq, List.forall₂_map_left_iff, List.forall₂_map_right_iff] at h
  exact (h.imp fun _ _ hword => Token.same_of_word hword).flip

/-- The tokens of a source text are read back from their text, each with its kind, and with its
spelling or the text that it stands for, exactly if no two dots have a third dot right behind them, or a
number that starts with a point. -/
theorem tokenize_render_iff {source : String} {ts : List Token}
    (h : tokenize source = .ok (ts ++ [endToken source])) :
    (∃ us, tokenize (Spacing.render ts) = .ok (us ++ [endToken (Spacing.render ts)]) ∧
        List.Forall₂ Token.Same ts us) ↔
      ¬ ∃ t u v, [t, u, v] <:+: ts ∧ t.kind = .mark .dot ∧ u.kind = .mark .dot ∧
        (v.kind = .mark .dot ∨ v.kind = .float ∧ v.lexeme.toList.head? = some '.') := by
  have hts := isReadable_of_tokenize h
  constructor
  · rintro ⟨us, hus, hsame⟩ ⟨t, u, v, hsub, hdot, hdot', hpoint⟩
    obtain ⟨front, t, back, ws, rfl, hk, hwords⟩ :=
      Spacing.words_render_of_fuses hts ⟨t, u, v, hsub, hdot, hdot', hpoint⟩
    obtain ⟨-, rfl⟩ := tokenize_eq_ok_append.mp hus
    -- the kinds that are read, up to the place of the first dot
    have hkinds : (front ++ t :: back).map Token.kind =
        (front.map Token.written ++ .mark .ellipsis :: ws).map Word.kind := by
      rw [map_kind_of_same hsame, ← hwords, words, List.map_map]
      rfl
    rw [List.map_append, List.map_append, List.map_map] at hkinds
    have hread : t.kind :: back.map Token.kind = .mark .ellipsis :: ws.map Word.kind :=
      (List.append_inj hkinds (by simp)).2
    cases hk.symm.trans (List.cons.inj hread).1
  · intro hfuses
    have hspells := Spacing.writes_unfused hts (fun t u v hsub hfuse =>
        hfuses ⟨t, u, v, hsub, hfuse.first, hfuse.second, hfuse.third⟩) [] []
      ⟨fun t ht => (hts t (List.mem_of_getLast? ht)).endsBefore_separated nofun, fun _ _ _ _ _ => nofun⟩
      .done
    rw [List.append_nil, List.append_nil] at hspells
    obtain ⟨hfaults, hwords⟩ := filterMap_cut hspells .start
    exact ⟨_, tokenize_eq_ok_append.mpr ⟨hfaults, rfl⟩, same_of_map_word hwords⟩

theorem tokenize_render_dots :
    ∃ ts, tokenize "a . . 'b' .5" = .ok (ts ++ [endToken "a . . 'b' .5"]) ∧
      ∃ us, tokenize (Spacing.render ts) = .ok (us ++ [endToken (Spacing.render ts)]) ∧
        List.Forall₂ Token.Same ts us := by
  have hts : tokenize "a . . 'b' .5" = .ok ([⟨.identifier, "a", ⟨1, 1, 0⟩⟩, ⟨.mark .dot, ".", ⟨1, 3, 2⟩⟩,
      ⟨.mark .dot, ".", ⟨1, 5, 4⟩⟩, ⟨.character 'b', "'b'", ⟨1, 7, 6⟩⟩, ⟨.float, ".5", ⟨1, 11, 10⟩⟩] ++
      [endToken "a . . 'b' .5"]) := by decide +kernel
  refine ⟨_, hts, (tokenize_render_iff hts).mpr ?_⟩
  rintro ⟨t, u, v, hsub, ht, hu, hv⟩
  simp only [List.infix_cons_iff, List.cons_prefix_cons] at hsub
  grind

end Lexer

end JavaTree
