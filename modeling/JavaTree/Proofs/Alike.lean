import JavaTree.Token.Spacing
import JavaTree.Proofs.Parser.Capture
import JavaTree.Proofs.Token.Spelling

/-!
What depends on the kinds of tokens alone, or on their kinds and texts.

Brackets, captures and type arguments are followed by the kinds of tokens; the places of tokens and
the spelling of literals do not matter to them. The text of a run of tokens depends on kinds and on
the texts of single tokens, so it is the same for tokens that have been written and read again.
-/

namespace JavaTree

/-! ### Kinds -/

/-- Tokens of the same kinds. -/
def SameKinds (ts us : List Token) : Prop := ts.map Token.kind = us.map Token.kind

theorem SameKinds.length_eq {ts us : List Token} (h : SameKinds ts us) : ts.length = us.length := by
  simpa using congrArg List.length h

theorem sameKinds_cons {t : Token} {ts us : List Token} (h : SameKinds (t :: ts) us) :
    ∃ u us', us = u :: us' ∧ t.kind = u.kind ∧ SameKinds ts us' := by
  obtain ⟨u, us', rfl, hu, hus⟩ := List.map_eq_cons_iff.mp h.symm
  exact ⟨u, us', rfl, hu.symm, hus.symm⟩

theorem SameKinds.symm {ts us : List Token} (h : SameKinds ts us) : SameKinds us ts := Eq.symm h

theorem sameKinds_append {ts us vs : List Token} (h : SameKinds (ts ++ us) vs) :
    ∃ ts' us', vs = ts' ++ us' ∧ SameKinds ts ts' ∧ SameKinds us us' := by
  rw [SameKinds, List.map_append] at h
  obtain ⟨ts', us', rfl, hts, hus⟩ := List.map_eq_append_iff.mp h.symm
  exact ⟨ts', us', rfl, hts.symm, hus.symm⟩

namespace Excerpt

theorem openBrackets_congr {ts us : List Token} (h : SameKinds ts us) (closers : List Mark) :
    openBrackets closers ts = openBrackets closers us := by
  induction ts generalizing us closers with
  | nil =>
    rw [List.map_eq_nil_iff.mp h.symm]
  | cons t ts ih =>
    obtain ⟨u, us, rfl, hk, hts⟩ := sameKinds_cons h
    rw [openBrackets, openBrackets, hk]
    exact congrArg _ (funext fun inner => ih hts inner)

end Excerpt

namespace Parser

open Excerpt

theorem kindOf_congr {ts us : List Token} (h : SameKinds ts us) (after : List Token) :
    kindOf (ts ++ after) = kindOf (us ++ after) := by
  rcases ts with _ | ⟨t, ts⟩
  · rw [List.map_eq_nil_iff.mp h.symm]
  · obtain ⟨u, us, rfl, hk, -⟩ := sameKinds_cons h
    exact hk

theorem lastKind_congr {ts us : List Token} (h : SameKinds ts us) (previous : Option Kind) :
    lastKind previous ts = lastKind previous us := by
  induction ts generalizing us previous with
  | nil => rw [List.map_eq_nil_iff.mp h.symm]
  | cons t ts ih =>
    obtain ⟨u, us, rfl, hk, hts⟩ := sameKinds_cons h
    rw [lastKind_cons, lastKind_cons, hk]
    exact ih hts _

theorem PassesBy.congr {rule : CaptureRule} {closers : List Mark} {previous : Option Kind}
    {ts us after : List Token} (h : PassesBy rule closers previous ts after) (hus : SameKinds us ts) :
    PassesBy rule closers previous us after := by
  rintro front t back rfl hopen
  obtain ⟨front', rest', rfl, hfront, hrest⟩ := sameKinds_append hus
  obtain ⟨t', back', rfl, hk, hback⟩ := sameKinds_cons hrest
  have hpass := h front' t' back' rfl (by rw [← openBrackets_congr hfront]; exact hopen)
  rwa [← lastKind_congr hfront, ← hk, ← kindOf_congr hback] at hpass

end Parser

/-! ### Kinds and texts -/

/-- A token that is written as its text, and its text as its spelling. -/
def Token.written (t : Token) : Word := ⟨t.kind, t.text⟩

theorem Token.text_of_word {t u : Token} (h : t.word = u.written) : t.text = u.text := by
  obtain ⟨k, x, l⟩ := t
  obtain ⟨k', y, l'⟩ := u
  simp only [Token.word, Token.written, Word.mk.injEq] at h
  obtain ⟨rfl, rfl⟩ := h
  cases k <;> rfl

theorem Token.written_of_word {t u : Token} (h : t.word = u.written) : t.written = u.written := by
  rw [Token.written, Token.text_of_word h]
  exact congrArg (Word.mk · u.text) (congrArg Word.kind h)

/-- Tokens that have the same kinds and texts. -/
def Alike (ts us : List Token) : Prop := ts.map Token.written = us.map Token.written

theorem Alike.sameKinds {ts us : List Token} (h : Alike ts us) : SameKinds ts us := by
  have hmap := congrArg (List.map Word.kind) h
  rwa [List.map_map, List.map_map] at hmap

/-- Tokens that are read from the texts of others are like them. -/
theorem alike_of_word {ts us : List Token} (h : ts.map Token.word = us.map Token.written) :
    Alike ts us := by
  induction ts generalizing us with
  | nil => exact h
  | cons t ts ih =>
    obtain ⟨u, us, rfl, hu, hus⟩ := List.map_eq_cons_iff.mp h.symm
    rw [Alike, List.map_cons, List.map_cons, Token.written_of_word hu.symm, ih hus.symm]

theorem alike_cons {t : Token} {ts us : List Token} (h : Alike (t :: ts) us) :
    ∃ u us', us = u :: us' ∧ t.kind = u.kind ∧ t.text = u.text ∧ Alike ts us' := by
  obtain ⟨u, us', rfl, hu, hus⟩ := List.map_eq_cons_iff.mp h.symm
  exact ⟨u, us', rfl, (congrArg Word.kind hu).symm, (congrArg Word.text hu).symm, hus.symm⟩

namespace Angle

theorem close?_congr {ts us : List Token} (h : SameKinds ts us) (depth : Int) :
    close? depth ts = close? depth us := by
  induction ts generalizing us depth with
  | nil => rw [List.map_eq_nil_iff.mp h.symm]
  | cons t ts ih =>
    obtain ⟨u, us, rfl, hk, hts⟩ := sameKinds_cons h
    simp only [close?, hk, ih hts]

theorem marks_congr {ts us : List Token} (h : SameKinds ts us) (inside : Nat) :
    marks inside ts = marks inside us := by
  induction ts generalizing us inside with
  | nil => rw [List.map_eq_nil_iff.mp h.symm]
  | cons t ts ih =>
    obtain ⟨u, us, rfl, hk, hts⟩ := sameKinds_cons h
    cases inside with
    | zero =>
      simp only [marks, hk, close?_congr hts, ih hts]
    | succ n => simp only [marks, hk, ih hts]

end Angle

namespace Spacing

/-- What is to the left, as far as kinds and texts go. -/
def AlikeLeft : Option Left → Option Left → Prop
  | none, none => True
  | some l, some m => l.token.kind = m.token.kind ∧ l.token.text = m.token.text ∧
      l.wantsSpace = m.wantsSpace ∧ l.endsInSpace = m.endsInSpace
  | _, _ => False

theorem pieces_congr {ts us : List Token} (h : Alike ts us) {l m : Option Left} (hl : AlikeLeft l m)
    (bs : List Bool) : pieces l (ts.zip bs) = pieces m (us.zip bs) := by
  induction ts generalizing us l m bs with
  | nil =>
    rw [List.map_eq_nil_iff.mp h.symm]
    rfl
  | cons t ts ih =>
    obtain ⟨u, us, rfl, hk, htext, hts⟩ := alike_cons h
    rcases bs with _ | ⟨b, bs⟩
    · rfl
    · simp only [List.zip_cons_cons, pieces]
      rcases l with _ | l <;> rcases m with _ | m
      · simp only [Option.map_none, hk, htext]
        refine congrArg _ (ih hts ?_ bs)
        exact ⟨hk, htext, rfl, rfl⟩
      · cases hl
      · cases hl
      · obtain ⟨h1, h2, h3, h4⟩ := hl
        simp only [Option.map_some, Option.getD_some, needsSpace, hk, htext, h1, h2, h3, h4]
        refine congrArg _ (ih hts ?_ bs)
        exact ⟨hk, htext, rfl, rfl⟩

/-- Tokens of the same kinds and texts are written alike. -/
theorem render_congr {ts us : List Token} (h : Alike ts us) : render ts = render us := by
  rw [render, render, Angle.marks_congr h.sameKinds, pieces_congr (l := none) (m := none) h trivial]

end Spacing

end JavaTree
