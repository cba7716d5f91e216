import JavaTree.Proofs.Source.Lists
import JavaTree.Proofs.Token.Respaced

/-!
Lists that are read back from their texts.

A list of type arguments is captured up to the bracket that closes it, whatever stands in it. Its text
has spaces between names, behind commas and around ampersands, and no others, so words right behind each
other may be read as other ones. That does no harm if the words that are read have the same text, and if
the last one of them is the first one that closes the list. Words are read from their text as they are
exactly if no two of them run together, and no third point stands behind two of them.

    words                  text        read
    <  a  .  .  b  >       <a..b>      as they are
    <  a  <  b  >  >       <a<b>>      `<` `a` `<` `b` `>>`
    <  a  +  +  b  >       <a++b>      `<` `a` `++` `b` `>`
    <  a  /  /  b  >       <a//b>      `<` `a`, and a comment
    <  1  .  .  2  >       <1..2>      `<` `1.` `.2` `>`, with the text `<1. .2>`
    <  a  -  >             <a->        `<` `a` `->`, and nothing that closes the list
    <  a  <  b  >  >>>     <a<b>>>>    `<` `a` `<` `b` `>>>`, and `>` behind it
-/

namespace JavaTree

open Lexer

/-! ### Words of a text -/

/-- A word is read as it is in front of the given text. -/
def Word.ReadsBefore (w : Word) (r : List Char) : Prop :=
  read (w.text.toList ++ r) = ⟨.ok w.kind, w.text.toList.length⟩

/-- A word that stands in some text. -/
structure Word.Occurs (w : Word) : Prop where
  ne_nil : w.text.toList ≠ []
  isTrivia : w.kind.isTrivia = false
  reads : ∃ r, w.ReadsBefore r

namespace Word.Occurs

variable {w v : Word} {r : List Char}

theorem isReadable (h : w.Occurs) : w.token.IsReadable := by
  obtain ⟨r, hr⟩ := h.reads
  have hreadable := isReadable_of_read h.ne_nil hr h.isTrivia .start
  rwa [String.ofList_toList] at hreadable

theorem mark (m : Mark) : (Word.mark m).Occurs := by
  refine ⟨?_, rfl, [], ?_⟩
  · rw [Word.mark, String.toList_ofList]
    cases m <;> exact List.cons_ne_nil _ _
  · rw [Word.ReadsBefore, Word.mark, String.toList_ofList, List.append_nil]
    cases m <;> rfl

theorem eq_mark (h : w.Occurs) {m : Mark} (hk : w.kind = .mark m) : w = .mark m := by
  have hwritten := h.isReadable.written_of_mark hk
  rwa [Token.written, Token.text_plain (by rw [Word.token, hk]; rfl)] at hwritten

/-- A quoted literal is read in front of any text. -/
theorem quoted (h : w.Occurs) (hvalue : w.kind.value? ≠ none) :
    (∃ x, w.text.toList = '"' :: x ∨ w.text.toList = '\'' :: x) ∧ ∀ r, w.ReadsBefore r := by
  obtain ⟨r, hr⟩ := h.reads
  obtain ⟨q, x, hx⟩ := List.exists_cons_of_ne_nil h.ne_nil
  rw [Word.ReadsBefore, hx, List.cons_append] at hr
  by_cases hq : q = '"' ∨ q = '\''
  · refine ⟨⟨x, hq.imp (by rintro rfl; exact hx) (by rintro rfl; exact hx)⟩, fun r' => ?_⟩
    rw [Word.ReadsBefore, hx]
    exact read_quoted_same hq hr r'
  · exact absurd (offered_of_read (not_or.mp hq) hr).kind.2.2 hvalue

theorem readsBefore_of_endsBefore (h : w.Occurs) (hr : w.token.EndsBefore r) : w.ReadsBefore r := by
  by_cases hvalue : w.kind.value? = none
  · rwa [Token.EndsBefore, Token.text_plain hvalue] at hr
  · exact (h.quoted hvalue).2 r

theorem readsBefore_space (h : w.Occurs) (r : List Char) : w.ReadsBefore (' ' :: r) :=
  h.readsBefore_of_endsBefore (h.isReadable.endsBefore_separated fun c hc => by cases hc; rfl)

/-- What is no name and no number starts with no character of a name. -/
theorem nameEnds (h : v.Occurs) (hk : v.kind.isWord = false) : NameEnds v.text.toList := by
  by_cases hvalue : v.kind.value? = none
  · have hwordlike : Spacing.isWordlike v.kind = false := by
      revert hk hvalue
      cases v.kind <;> first | exact fun _ _ => rfl | simp [Kind.value?, Kind.isWord]
    obtain ⟨m, hm, -⟩ := h.isReadable.isWordlike_or_mark.resolve_left (by simp [Word.token, hwordlike])
    rw [h.eq_mark hm, Word.mark, String.toList_ofList, ← List.append_nil m.chars]
    exact Token.IsReadable.nameEnds_mark m []
  · obtain ⟨⟨x, hx | hx⟩, -⟩ := h.quoted hvalue <;> rw [hx] <;> rintro c hc <;> cases hc <;> decide

/-- A word that starts with a point is a point, an ellipsis or a number. -/
theorem of_point (h : v.Occurs) {x : List Char} (hx : v.text.toList = '.' :: x) :
    v.kind = .mark .dot ∨ v = .mark .ellipsis ∨ v.kind = .float ∧ x ≠ [] := by
  by_cases hvalue : v.kind.value? = none
  · have htext : v.token.text.toList = '.' :: x := by rwa [Token.text_plain hvalue]
    rcases h.isReadable.of_point htext with ⟨hk, -⟩ | ⟨hk, -⟩ | ⟨hk, d, y, rfl, -⟩
    · exact .inl hk
    · exact .inr (.inl (h.eq_mark hk))
    · exact .inr (.inr ⟨hk, List.cons_ne_nil _ _⟩)
  · obtain ⟨⟨y, hy | hy⟩, -⟩ := h.quoted hvalue <;> cases hy.symm.trans hx

/-- A word in front of two texts is read in front of the first one alone. -/
theorem readsBefore_of_append {x : List Char} (h : w.Occurs) (hr : w.ReadsBefore (x ++ r)) :
    w.ReadsBefore x := by
  obtain ⟨q, y, hy⟩ := List.exists_cons_of_ne_nil h.ne_nil
  rw [Word.ReadsBefore, hy] at hr ⊢
  by_cases hq : q = '"' ∨ q = '\''
  · exact read_quoted_same hq hr x
  · rw [← List.append_assoc] at hr
    exact read_cut (List.cons_ne_nil _ _) (by simpa using not_or.mp hq) hr (by simp)

theorem isBlank_head (h : w.Occurs) {c : Char} {x : List Char} (hx : w.text.toList = c :: x) :
    Pattern.isBlank c = false := by
  obtain ⟨r, hr⟩ := h.reads
  cases hc : Pattern.isBlank c with
  | false => rfl
  | true =>
    rw [Word.ReadsBefore, hx, List.cons_append, read_blank hc] at hr
    have hkind : Kind.blank = w.kind := by simpa using congrArg Reading.content hr
    exact absurd h.isTrivia (by rw [← hkind]; decide)

/-- A word is read in front of another one that does not go on with it. -/
theorem readsBefore_append (hw : w.Occurs) (hv : v.Occurs)
    (happart : Angle.isApart (some w.kind) v.kind = false)
    (hmerges : Spacing.merges w.text.toList v.text.toList = false)
    (hdots : w.kind = .mark .dot → v.kind = .mark .dot → r.head? ≠ some '.') :
    w.ReadsBefore (v.text.toList ++ r) := by
  by_cases hvalue : w.kind.value? = none
  · refine hw.readsBefore_of_endsBefore (hw.isReadable.endsBefore_append hv.ne_nil (fun hword => ?_) ?_
      fun hdot hx => hdots hdot ?_)
    · refine hv.nameEnds (Bool.eq_false_iff.mpr fun hk => ?_)
      simp only [Angle.isApart, hk, show w.kind.isWord = true from hword] at happart
      cases happart
    · rwa [Token.text_plain hvalue]
    · rcases hv.of_point hx with hk | rfl | ⟨-, hx⟩
      · exact hk
      · cases hx
      · exact absurd rfl hx
  · exact (hw.quoted hvalue).2 _

end Word.Occurs

namespace Angle

/-! ### Words that stand apart -/

/-- Two words have a space between them in the text of a list, or are read as two without one. -/
def standApart (w v : Word) : Bool :=
  hasSpace w.kind || isApart (some w.kind) v.kind || !Spacing.merges w.text.toList v.text.toList

/-- Words no two of which run together in a text, nor three points. -/
structure AreApart (ws : List Word) : Prop where
  occur : ∀ w ∈ ws, w.Occurs
  apart : ws.IsChain fun w v => standApart w v = true
  points : NoPoints ws

/-- Words that a capture takes as a list. -/
structure IsCaptured (ws : List Word) : Prop where
  opens : ws.head? = some (.mark .less)
  closes : upToClosing 0 ws = some ws
  passes : ∀ w ∈ ws, Parser.endsAngle w.kind = false

/-- A list whose text is read as its words, and that a capture takes as a whole. -/
structure IsLegible (ws : List Word) : Prop extends AreApart ws, IsCaptured ws

namespace AreApart

variable {w : Word} {ws vs : List Word}

theorem of_part (h : AreApart ws) (hvs : vs <:+: ws) : AreApart vs where
  occur := fun w hw => h.occur w (hvs.subset hw)
  apart := h.apart.infix hvs
  points := h.points.of_part hvs

theorem of_cons (h : AreApart (w :: ws)) : AreApart ws := h.of_part (List.suffix_cons w ws).isInfix

theorem eq_mark (h : AreApart ws) : ∀ w ∈ ws, ∀ m, w.kind = .mark m → w = .mark m :=
  fun w hw _ => (h.occur w hw).eq_mark

end AreApart

section Spelled

variable {ws : List Word} {r : List Char}

/-- What is written behind a dot starts with a point only if the next word is one. -/
theorem isPoint_of_text {v : Word} (hv : v.Occurs) (happart : standApart (.mark .dot) v = true)
    {x : List Char} (h : ((text (some (.mark .dot)) (v :: ws)).toList ++ x).head? = some '.') :
    v.token.IsPoint := by
  rw [text_cons] at h
  split at h
  · simp at h
  · next hspace =>
    obtain ⟨c, y, hy⟩ := List.exists_cons_of_ne_nil hv.ne_nil
    obtain rfl : c = '.' := by simpa [hy] using h
    rcases hv.of_point hy with hk | rfl | ⟨hk, -⟩
    · exact .inl hk
    · exact absurd happart (by decide +kernel)
    · exact .inr ⟨hk, by rw [Word.token, hy]; rfl⟩

/-- What stands behind a word in the text of a list. -/
def behind (w : Word) (ws : List Word) (r : List Char) : List Char :=
  (if hasSpace w.kind then [' '] else []) ++ ((text (some w.kind) ws).toList ++ r)

theorem toList_text_cons (previous : Option Kind) (w : Word) (ws : List Word) (r : List Char) :
    (text previous (w :: ws)).toList ++ r =
      (if isApart previous w.kind then [' '] else []) ++ (w.text.toList ++ behind w ws r) := by
  rw [text_cons, behind]
  split <;> split <;> simp

/-- A word is read in front of another one, and what stands behind that. -/
theorem readsBefore_behind {w v : Word} (hw : w.Occurs) (hv : v.Occurs) (happart : standApart w v = true)
    (hpoints : w.kind = .mark .dot → v.kind = .mark .dot → (behind v ws r).head? ≠ some '.') :
    w.ReadsBefore (behind w (v :: ws) r) := by
  rw [behind, toList_text_cons]
  split
  · exact hw.readsBefore_space _
  · next hspace =>
    rw [List.nil_append]
    split
    · exact hw.readsBefore_space _
    · next hgap =>
      have hmerges : Spacing.merges w.text.toList v.text.toList = false := by
        simpa [standApart, hspace, hgap] using happart
      exact hw.readsBefore_append hv (Bool.eq_false_iff.mpr hgap) hmerges hpoints

/-- Behind two points in a row there is no third one. -/
theorem head?_behind {w v : Word} (h : AreApart (w :: v :: ws))
    (hlast : ∀ u ∈ (v :: ws).getLast?, closing u.kind ≠ 0) (hw : w.kind = .mark .dot)
    (hv : v.kind = .mark .dot) : (behind v ws r).head? ≠ some '.' := by
  obtain rfl := h.eq_mark v (by simp) _ hv
  rcases ws with _ | ⟨u, ws⟩
  · exact absurd rfl (hlast _ rfl)
  · intro hhead
    have hchain := h.of_cons.apart
    have hu := isPoint_of_text (h.occur u (by simp)) (List.isChain_cons_cons.mp hchain).1 hhead
    exact h.points w _ u (List.prefix_append [w, .mark .dot, u] ws).isInfix ⟨hw, rfl, hu⟩

theorem readsBefore_closing {w : Word} (hw : w.Occurs) (hk : closing w.kind ≠ 0)
    (hr : ∀ c ∈ r.head?, c ≠ '>' ∧ c ≠ '=') : w.ReadsBefore r := by
  rcases eq_mark_of_closing (fun m => hw.eq_mark) hk with rfl | rfl | rfl
  · exact read_greater hr
  · exact read_rightShift hr
  · exact read_unsignedShift fun c hc => (hr c hc).2

/-- A word in front of others that are spelled. -/
theorem spells_word {w : Word} (hw : w.Occurs) (hread : w.ReadsBefore (behind w ws r)) {vs : List Word}
    (h : Spells ((text (some w.kind) ws).toList ++ r) vs) (previous : Option Kind) :
    Spells ((text previous (w :: ws)).toList ++ r) (w :: vs) := by
  have hbehind : Spells (behind w ws r) vs := by
    rw [behind]
    split
    · exact .blank rfl h
    · exact h
  have hword : Spells (w.text.toList ++ behind w ws r) (w :: vs) := by
    have hspells := Spells.word hw.ne_nil hw.isTrivia hread hbehind
    rwa [String.ofList_toList] at hspells
  rw [toList_text_cons]
  split
  · exact .blank rfl hword
  · exact hword

/-- The text of words that stand apart spells these words, if the last one closes a list. -/
theorem spells_apart (hws : AreApart ws) (hlast : ∀ w ∈ ws.getLast?, closing w.kind ≠ 0)
    (hr : ∀ c ∈ r.head?, c ≠ '>' ∧ c ≠ '=') {vs : List Word} (h : Spells r vs) (previous : Option Kind) :
    Spells ((text previous ws).toList ++ r) (ws ++ vs) := by
  induction ws generalizing previous with
  | nil => exact h
  | cons w ws ih =>
    have hw := hws.occur w List.mem_cons_self
    rcases ws with _ | ⟨v, ws⟩
    · have hclosing := hlast w rfl
      have hread : w.ReadsBefore (behind w [] r) := by
        rcases eq_mark_of_closing (fun m => hw.eq_mark) hclosing with rfl | rfl | rfl <;>
          exact readsBefore_closing hw hclosing hr
      exact spells_word hw hread h previous
    · have hlast' : ∀ u ∈ (v :: ws).getLast?, closing u.kind ≠ 0 := fun u hu =>
        hlast u (by rwa [List.getLast?_cons_cons])
      have hwv := (List.isChain_cons_cons.mp hws.apart).1
      refine spells_word hw ?_ (ih hws.of_cons hlast' (some w.kind)) previous
      exact readsBefore_behind hw (hws.occur v (by simp)) hwv (head?_behind hws hlast')

/-! ### Words that are read from their text -/

/-- How many characters of a text are no blanks. -/
def inked (cs : List Char) : Nat := cs.countP fun c => !Pattern.isBlank c

theorem inked_append (cs ds : List Char) : inked (cs ++ ds) = inked cs + inked ds := List.countP_append

theorem inked_blank {c : Char} (hc : Pattern.isBlank c = true) (cs : List Char) :
    inked (c :: cs) = inked cs :=
  List.countP_cons_of_neg (by simp [hc])

/-- The characters of words that are no blanks. -/
def inkedWords (ws : List Word) : Nat := (ws.map fun w => inked w.text.toList).sum

theorem inkedWords_cons (w : Word) (ws : List Word) :
    inkedWords (w :: ws) = inked w.text.toList + inkedWords ws := rfl

/-- The text of words has no further characters but blanks. -/
theorem inked_text (previous : Option Kind) (ws : List Word) :
    inked (text previous ws).toList = inkedWords ws := by
  induction ws generalizing previous with
  | nil => rfl
  | cons w ws ih =>
    have hgap (b : Bool) : inked (if b then [' '] else []) = 0 := by cases b <;> rfl
    rw [← List.append_nil (text previous (w :: ws)).toList, toList_text_cons, behind, List.append_nil,
      inked_append, inked_append, inked_append, hgap, hgap, ih, inkedWords_cons]
    omega

/-- The words that are read from a text have no characters that are not in it. -/
theorem inkedWords_le {passes : List Char → Prop} {cs : List Char} (h : Reads passes cs ws) :
    inkedWords ws ≤ inked cs := by
  induction h with
  | done => exact Nat.le_refl _
  | blank hc _ ih => rwa [inked_blank hc]
  | @piece k w cs ws _ _ _ _ _ ih =>
    rw [inked_append]
    split
    · exact Nat.le_trans ih (Nat.le_add_left _ _)
    · rw [inkedWords_cons, String.toList_ofList]
      exact Nat.add_le_add_left ih _

theorem occur_of_reads {passes : List Char → Prop} {cs : List Char} (h : Reads passes cs ws) :
    ∀ w ∈ ws, w.Occurs := by
  induction h with
  | done => nofun
  | blank _ _ ih => exact ih
  | @piece k w cs ws hw _ hread _ _ ih =>
    split
    · exact ih
    · next hk =>
      have hreads : (⟨k, String.ofList w⟩ : Word).ReadsBefore cs := by
        rwa [Word.ReadsBefore, String.toList_ofList]
      exact List.forall_mem_cons.mpr
        ⟨⟨by rwa [String.toList_ofList], Bool.eq_false_iff.mpr hk, cs, hreads⟩, ih⟩

/-- A blank at the start of a text is read on its own. -/
theorem reads_of_blank {passes : List Char → Prop} {c : Char} (hc : Pattern.isBlank c = true)
    {cs : List Char} (h : Reads passes (c :: cs) ws) : Reads passes cs ws := by
  generalize hd : c :: cs = ds at h
  cases h with
  | done => cases hd
  | blank _ h =>
    cases hd
    exact h
  | @piece k w cs' ws hw hblank _ _ _ =>
    obtain ⟨d, w, rfl⟩ := List.exists_cons_of_ne_nil hw
    obtain rfl : c = d := (List.cons.inj hd).1
    rw [hblank c rfl] at hc
    cases hc

/-- Where a text starts with the first word that is read from it, and has no more characters than all of
these words, that word is read at its start: a comment there would take characters of theirs. -/
theorem reads_first {passes : List Char → Prop} {w : Word} {cs : List Char}
    (h : Reads passes (w.text.toList ++ cs) (w :: ws)) (hcs : inked cs ≤ inkedWords ws) :
    w.ReadsBefore cs ∧ Reads passes cs ws := by
  have hw := occur_of_reads h w List.mem_cons_self
  generalize hd : w.text.toList ++ cs = ds at h
  generalize hv : w :: ws = vs at h
  cases h with
  | done => cases hv
  | @blank c ds vs hc h =>
    obtain ⟨d, x, hx⟩ := List.exists_cons_of_ne_nil hw.ne_nil
    rw [hx, List.cons_append] at hd
    obtain rfl : d = c := (List.cons.inj hd).1
    exact absurd hc (by simp [hw.isBlank_head hx])
  | @piece k u ds vs hu hblank hread _ h =>
    split at hv
    · -- a comment
      subst hv
      have hle := inkedWords_le h
      have hsame := congrArg inked hd
      have hpos : 0 < inked u := by
        obtain ⟨d, u, rfl⟩ := List.exists_cons_of_ne_nil hu
        exact List.countP_pos_iff.mpr ⟨d, List.mem_cons_self, by simp [hblank d rfl]⟩
      rw [inked_append, inked_append] at hsame
      rw [inkedWords_cons] at hle
      omega
    · obtain ⟨rfl, rfl⟩ := List.cons.inj hv
      rw [String.toList_ofList] at hd
      obtain rfl := List.append_cancel_left hd
      exact ⟨by rwa [Word.ReadsBefore, String.toList_ofList], h⟩

/-- A word that is read in front of another one does not run together with it. -/
theorem standApart_of_readsBefore {w v : Word} (hw : w.Occurs) (h : w.ReadsBefore (behind w (v :: ws) r)) :
    standApart w v = true := by
  by_contra happart
  simp only [standApart, Bool.or_eq_true, Bool.not_eq_true', not_or, Bool.not_eq_true,
    Bool.not_eq_false] at happart
  obtain ⟨⟨hspace, hgap⟩, hmerges⟩ := happart
  rw [behind, toList_text_cons, hspace, hgap] at h
  have hread := hw.readsBefore_of_append (x := v.text.toList) (r := behind v ws r) h
  rw [Word.ReadsBefore] at hread
  simp [Spacing.merges, hread] at hmerges

/-- A point that is read in front of another one does not fuse with it and the next word. -/
theorem not_fuses_of_readsBefore {u v w : Word} (hu : u.Occurs) (hv : v.Occurs) (hw : w.Occurs)
    (h : u.ReadsBefore (behind u (v :: w :: ws) r)) : ¬ Fuses u.token v.token w.token := by
  rintro ⟨hfirst, hsecond, hthird⟩
  obtain rfl := hu.eq_mark hfirst
  obtain rfl := hv.eq_mark hsecond
  obtain ⟨x, hx⟩ : ∃ x, w.text.toList = '.' :: x := by
    rcases hthird with hk | ⟨-, hhead⟩
    · rw [hw.eq_mark hk]
      exact ⟨[], rfl⟩
    · obtain ⟨x, hx⟩ := List.head?_eq_some_iff.mp hhead
      exact ⟨x, hx⟩
  have hgap : isApart (some (.mark .dot)) w.kind = false := by
    rcases hthird with hk | ⟨hk, -⟩ <;> rw [show w.kind = _ from hk] <;> rfl
  rw [Word.ReadsBefore, behind, text_unspaced rfl, String.toList_append, List.append_assoc,
    toList_text_cons, hgap, hx] at h
  have hpoints := (Lexer.read_points _).symm.trans h
  simp [Word.mark, Mark.chars] at hpoints

/-- Words that are read from their text stand apart. -/
theorem areApart_of_reads {passes : List Char → Prop} {previous : Option Kind}
    (h : Reads passes (text previous ws).toList ws) : AreApart ws := by
  have hoccur := occur_of_reads h
  induction ws generalizing previous with
  | nil => exact ⟨hoccur, .nil, fun u v w hsub => by simp at hsub⟩
  | cons w ws ih =>
    rw [← List.append_nil (text previous (w :: ws)).toList, toList_text_cons] at h
    have hword : Reads passes (w.text.toList ++ behind w ws []) (w :: ws) := by
      split at h
      · exact reads_of_blank rfl h
      · exact h
    have hink : inked (behind w ws []) ≤ inkedWords ws := by
      rw [behind, List.append_nil, inked_append, inked_text]
      split <;> simp [inked, Pattern.isBlank]
    obtain ⟨hread, hrest⟩ := reads_first hword hink
    have hws : AreApart ws := by
      rw [behind, List.append_nil] at hrest
      split at hrest
      · exact ih (reads_of_blank rfl hrest) fun v hv => hoccur v (List.mem_cons_of_mem _ hv)
      · exact ih hrest fun v hv => hoccur v (List.mem_cons_of_mem _ hv)
    refine ⟨hoccur, List.isChain_cons.mpr ⟨fun v hv => ?_, hws.apart⟩, fun u v x hsub => ?_⟩
    · obtain ⟨ws, rfl⟩ := List.head?_eq_some_iff.mp hv
      exact standApart_of_readsBefore (hoccur w List.mem_cons_self) hread
    · rcases List.infix_cons_iff.mp hsub with ⟨rest, hprefix⟩ | hsub
      · obtain ⟨rfl, rfl⟩ := List.cons.inj hprefix
        exact not_fuses_of_readsBefore (hoccur u (by simp)) (hoccur v (by simp)) (hoccur x (by simp)) hread
      · exact hws.points u v x hsub

end Spelled

/-! ### Lists that are legible -/

theorem closing_of_weight_neg {k : Kind} (h : weight k < 0) : closing k ≠ 0 := by
  obtain ⟨-, hnonneg⟩ | ⟨hclosing, -⟩ := closing_cases k
  · omega
  · exact hclosing

/-- The last word of a list that is closed by its last word closes a list. -/
theorem closing_getLast {ws : List Word} {depth : Int} (h : upToClosing depth ws = some ws)
    (hpos : 0 < depth) : ∀ w ∈ ws.getLast?, closing w.kind ≠ 0 := by
  induction ws generalizing depth with
  | nil => cases h
  | cons w ws ih =>
    rw [upToClosing] at h
    split at h
    · next hdepth =>
      obtain rfl : ws = [] := by simpa using h.symm
      rintro v hv
      obtain rfl : w = v := by simpa using hv
      exact closing_of_weight_neg (by omega)
    · next hdepth =>
      obtain ⟨l, hl, heq⟩ := Option.map_eq_some_iff.mp h
      obtain rfl := (List.cons.inj heq).2
      have hlast := ih hl (by omega)
      rcases l with _ | ⟨v, l⟩
      · cases hl
      · rintro u hu
        rw [List.getLast?_cons_cons] at hu
        exact hlast u hu

/-- The last word of a list that is captured closes it: the bracket at its start is another one. -/
theorem IsCaptured.closing_getLast {ws : List Word} (h : IsCaptured ws) :
    ∀ w ∈ ws.getLast?, closing w.kind ≠ 0 := by
  obtain ⟨vs, rfl⟩ := List.head?_eq_some_iff.mp h.opens
  have hcloses := h.closes
  rw [upToClosing] at hcloses
  obtain ⟨us, hus, heq⟩ := Option.map_eq_some_iff.mp hcloses
  obtain rfl := (List.cons.inj heq).2
  have hlast := Angle.closing_getLast hus (by decide)
  rcases us with _ | ⟨w, us⟩
  · cases hus
  · intro u hu
    rw [List.getLast?_cons_cons] at hu
    exact hlast u hu

/-! ### Closing brackets -/

theorem fuse_replicate (n k : Nat) (ws : List Word) :
    fuse n (List.replicate k (.mark .greater) ++ ws) = fuse (n + k) ws := by
  induction k generalizing n with
  | zero => rfl
  | succ k ih =>
    have hgreater : (Word.mark .greater).kind = .mark .greater := rfl
    rw [List.replicate_succ, List.cons_append, fuse, if_pos hgreater, ih, Nat.add_assoc, Nat.add_comm 1 k]

/-- A word that closes nothing stays as it is. -/
theorem fuse_split_cons {w : Word} (hw : closing w.kind = 0) (n : Nat) (ws : List Word) :
    fuse n (split (w :: ws)) = closers n ++ w :: fuse 0 (split ws) := by
  rw [split_cons, parts, if_pos hw, List.singleton_append, fuse, if_neg (ne_greater_of_closing hw)]

/-- A word that closes lists is put together with brackets before it. -/
theorem fuse_split_closing {w : Word} (hw : closing w.kind ≠ 0) (n : Nat) (ws : List Word) :
    fuse n (split (w :: ws)) = fuse (n + closing w.kind) (split ws) := by
  rw [split_cons, parts, if_neg hw, fuse_replicate]

theorem fuse_add_three (n : Nat) (ws : List Word) : fuse (n + 3) ws = .mark .unsignedShift :: fuse n ws := by
  induction ws generalizing n with
  | nil => rfl
  | cons w ws ih =>
    rw [fuse, fuse]
    split
    · rw [show n + 3 + 1 = n + 1 + 3 by omega, ih]
    · rfl

/-- Behind one or two closing brackets there is no further one, for it would be put together with them. -/
theorem closing_of_standApart {w v : Word} (hw : w = .mark .greater ∨ w = .mark .rightShift)
    (hmarks : ∀ m, v.kind = .mark m → v = .mark m) (h : standApart w v = true) : closing v.kind = 0 := by
  by_contra hclosing
  rcases hw with rfl | rfl <;> rcases eq_mark_of_closing hmarks hclosing with rfl | rfl | rfl <;>
    exact absurd h (by decide +kernel)

/-- Brackets behind which no further one stands are put together on their own. -/
theorem fuse_split_of_head {ws : List Word} (h : ∀ w ∈ ws.head?, closing w.kind = 0) (n : Nat) :
    fuse n (split ws) = closers n ++ fuse 0 (split ws) := by
  rcases ws with _ | ⟨w, ws⟩
  · rw [split, List.flatMap_nil, fuse, fuse, closers, List.append_nil]
  · have hw : closing w.kind = 0 := h w rfl
    rw [fuse_split_cons hw, fuse_split_cons hw, closers, List.nil_append]

/-- Words that stand apart are read again as they are when each closing bracket is on its own. -/
theorem fuse_split {ws : List Word} (hmarks : ∀ w ∈ ws, ∀ m, w.kind = .mark m → w = .mark m)
    (happart : ws.IsChain fun w v => standApart w v = true) : fuse 0 (split ws) = ws := by
  induction ws with
  | nil => rfl
  | cons w ws ih =>
    have ih := ih (fun v hv => hmarks v (List.mem_cons_of_mem _ hv)) happart.of_cons
    have hbehind (hw : w = .mark .greater ∨ w = .mark .rightShift) (n : Nat) :
        fuse n (split ws) = closers n ++ ws := by
      rw [fuse_split_of_head (fun v hv => ?_), ih]
      obtain ⟨vs, rfl⟩ := List.head?_eq_some_iff.mp hv
      exact closing_of_standApart hw (hmarks v (by simp)) (List.isChain_cons_cons.mp happart).1
    by_cases hclosing : closing w.kind = 0
    · rw [fuse_split_cons hclosing, ih, closers, List.nil_append]
    · rw [fuse_split_closing hclosing]
      rcases eq_mark_of_closing (hmarks w List.mem_cons_self) hclosing with rfl | rfl | rfl
      · exact hbehind (.inl rfl) 1
      · exact hbehind (.inr rfl) 2
      · rw [show 0 + closing (Word.mark .unsignedShift).kind = 0 + 3 from rfl, fuse_add_three, ih]

/-- A list is written if its words stand apart, with closing brackets put together, and the last one
closes a list. -/
theorem AreApart.isWritten {ws : List Word} (h : AreApart (fuse 0 ws))
    (hopens : ws.head? = some (.mark .less)) (hlast : ∀ w ∈ (fuse 0 ws).getLast?, closing w.kind ≠ 0)
    (hjoined : text none (fuse 0 ws) = text none ws) : IsWritten ws where
  opens := hopens
  writes := by
    intro r us hr hspells
    rw [← hjoined]
    exact spells_apart h hlast hr hspells none

/-- A legible list is read back from its text. -/
theorem IsLegible.isWhole {ws : List Word} (h : IsLegible ws) : IsWhole (split ws) := by
  have hfuse := fuse_split h.eq_mark h.apart
  have hjoined : text none (fuse 0 (split ws)) = text none (split ws) := by
    rw [hfuse, text_split h.eq_mark]
  have hopens : (split ws).head? = some (.mark .less) := by
    obtain ⟨vs, rfl⟩ := List.head?_eq_some_iff.mp h.opens
    rfl
  have happart : AreApart (fuse 0 (split ws)) := hfuse.symm ▸ h.toAreApart
  exact ⟨happart.isWritten hopens (hfuse.symm ▸ h.closing_getLast) hjoined, hjoined,
    by rw [hfuse]; exact h.closes, by rw [hfuse]; exact h.passes⟩

/-! ### Lists that start with a bracket -/

theorem mem_text {w : Word} {ws : List Word} (hw : w ∈ ws) {c : Char} (hc : c ∈ w.text.toList)
    (previous : Option Kind) : c ∈ (text previous ws).toList := by
  induction ws generalizing previous with
  | nil => cases hw
  | cons v ws ih =>
    rw [← List.append_nil (text previous (v :: ws)).toList, toList_text_cons, behind, List.append_nil]
    rcases List.mem_cons.mp hw with rfl | hw
    · simp [hc]
    · simp [ih hw (some v.kind)]

/-- The text of a list that is captured has a bracket at its start, and one that closes it. -/
theorem IsCaptured.brackets {ws : List Word} (h : IsCaptured ws) (hws : ∀ w ∈ ws, w.Occurs) :
    (text none ws).toList.head? = some '<' ∧ '>' ∈ (text none ws).toList := by
  constructor
  · obtain ⟨vs, rfl⟩ := List.head?_eq_some_iff.mp h.opens
    rw [text_unspaced rfl, String.toList_append]
    rfl
  · rcases hlast : ws.getLast? with _ | w
    · rw [List.getLast?_eq_none_iff.mp hlast] at h
      cases h.opens
    · have hw : w ∈ ws := List.mem_of_getLast? hlast
      refine mem_text hw ?_ none
      rcases eq_mark_of_closing (fun m => (hws w hw).eq_mark) (h.closing_getLast w hlast) with
        rfl | rfl | rfl <;> decide

/-- A word that starts with an opening bracket is a mark. -/
theorem eq_mark_of_less {w : Word} (hw : w.Occurs) {x : List Char} (hx : w.text.toList = '<' :: x) :
    ∃ m, w = .mark m := by
  obtain ⟨r, hr⟩ := hw.reads
  rw [Word.ReadsBefore, hx, List.cons_append] at hr
  have hsome : (Pattern.mark? ('<' :: (x ++ r))).isSome :=
    List.find?_isSome.mpr ⟨.less, Pattern.mem_all .less, rfl⟩
  obtain ⟨m, hm⟩ := Option.isSome_iff_exists.mp hsome
  rw [read_of_mark? hm (Pattern.noComment_of_ne (by decide) _) rfl] at hr
  have hkind : Kind.mark m = w.kind := by simpa using congrArg Reading.content hr
  exact ⟨m, hw.eq_mark hkind.symm⟩

/-- No mark starts with an opening bracket and holds a closing one. -/
theorem not_mem_of_less {m : Mark} {x : List Char} (hx : (Word.mark m).text.toList = '<' :: x) :
    '>' ∉ (Word.mark m).text.toList := by
  have hhead : (Word.mark m).text.toList.head? = some '<' := by rw [hx]; rfl
  clear hx
  cases m <;> first | decide | exact absurd hhead (by decide)

/-- Words that are closed by the last of them start with a bracket if their text has a bracket at its
start and one that closes it: no mark has both. -/
theorem head?_of_brackets {ws : List Word} (hws : ∀ w ∈ ws, w.Occurs) (hcloses : upToClosing 0 ws = some ws)
    (hopen : (text none ws).toList.head? = some '<') (hclose : '>' ∈ (text none ws).toList) :
    ws.head? = some (.mark .less) := by
  rcases ws with _ | ⟨w, ws⟩
  · cases hcloses
  have hw := hws w List.mem_cons_self
  obtain ⟨c, x, hx⟩ := List.exists_cons_of_ne_nil hw.ne_nil
  have htext := toList_text_cons none w ws []
  simp only [List.append_nil, isApart, Bool.false_eq_true, if_false, List.nil_append] at htext
  rw [htext, hx] at hopen
  rw [htext] at hclose
  obtain rfl : c = '<' := by simpa using hopen
  obtain ⟨m, rfl⟩ := eq_mark_of_less hw hx
  rw [upToClosing] at hcloses
  split at hcloses
  · next hdepth =>
    obtain rfl : ws = [] := by simpa using hcloses.symm
    have hlone : '>' ∈ (Word.mark m).text.toList := by
      rw [behind, show text (some (Word.mark m).kind) [] = "" from rfl] at hclose
      split at hclose <;> simpa using hclose
    exact absurd hlone (not_mem_of_less hx)
  · next hdepth => cases m <;> first | rfl | exact absurd (by decide) hdepth

end Angle

end JavaTree
