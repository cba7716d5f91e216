import JavaTree.Proofs.Token.Reading

/-!
What a text spells.

A text spells a list of words when it is cut into these words, with blanks and comments between
them. `Spells` says so word by word, and `Writes` says it of a piece of text that other text may be
behind: what is behind must not go on with the last word of the piece.

    piece       words      may be behind it
    name        one        what starts with no letter, digit, `_` or `$`
    `(`         one        anything
    `a + b`     three      a separator
-/

namespace JavaTree

/-- A token without its place. -/
structure Word where
  kind : Kind
  text : String
  deriving DecidableEq

namespace Word

/-- The word of a mark. -/
def mark (m : Mark) : Word := ⟨.mark m, String.ofList m.chars⟩

/-- A reserved word. -/
def keyword (k : Keyword) : Word := ⟨.keyword k, k.text⟩

/-- A name. -/
def name (s : String) : Word := ⟨.identifier, s⟩

end Word

/-- What a token is, without its place. -/
def Token.word (t : Token) : Word := ⟨t.kind, t.lexeme⟩

/-- A text that is cut into words, blanks and comments. -/
inductive Spells : List Char → List Word → Prop
  | done : Spells [] []
  | blank {c : Char} {cs : List Char} {ws : List Word} (hc : Pattern.isBlank c = true)
      (h : Spells cs ws) : Spells (c :: cs) ws
  | comment {text cs : List Char} {ws : List Word} (htext : '\n' ∉ text)
      (h : Spells ('\n' :: cs) ws) : Spells ('/' :: '/' :: (text ++ '\n' :: cs)) ws
  | word {k : Kind} {w cs : List Char} {ws : List Word} (hw : w ≠ []) (hk : k.isTrivia = false)
      (hread : Lexer.read (w ++ cs) = ⟨.ok k, w.length⟩) (h : Spells cs ws) :
      Spells (w ++ cs) (⟨k, String.ofList w⟩ :: ws)

namespace Lexer

open Pattern

/-! ### Cutting -/

theorem cut_length (u : Cursor) (w cs : List Char) :
    cut w.length u (w ++ cs) = cut 0 (u.advanceAll w) cs := by
  induction w generalizing u with
  | nil => rfl
  | cons c w ih => exact ih (u.advance c)

/-- A text starts with the piece that is read there. -/
theorem cut_append {w cs : List Char} (hw : w ≠ []) {k : Kind}
    (hread : read (w ++ cs) = ⟨.ok k, w.length⟩) (u : Cursor) :
    cut 0 u (w ++ cs) =
      .token ⟨k, String.ofList w, u.location⟩ :: cut 0 (u.advanceAll w) cs := by
  obtain ⟨c, x, rfl⟩ := List.exists_cons_of_ne_nil hw
  have hcut : cut x.length (u.advance c) (x ++ cs) = cut 0 (u.advanceAll (c :: x)) cs :=
    cut_length (u.advance c) x cs
  simp only [List.cons_append] at hread
  simp only [List.cons_append, cut, hread, Reading.item, List.length_cons, Nat.add_sub_cancel, hcut]
  simp

theorem read_blank {c : Char} (h : isBlank c = true) (cs : List Char) :
    read (c :: cs) = ⟨.ok .blank, run isBlank cs + 1⟩ := by
  rcases isBlank_cases h with rfl | rfl | rfl | rfl | rfl <;> rfl

theorem read_lineComment {text cs : List Char} (h : '\n' ∉ text) :
    read ('/' :: '/' :: (text ++ '\n' :: cs)) = ⟨.ok .lineComment, text.length + 2⟩ := by
  have hrun : run (· != '\n') (text ++ '\n' :: cs) = text.length := by
    rw [run_append (by simp), run_eq_length]
    rw [List.all_eq_true]
    intro c hc
    rw [bne_iff_ne]
    rintro rfl
    exact h hc
  have hoffers : offers ('/' :: '/' :: (text ++ '\n' :: cs)) =
      [none, none] ++ some (.lineComment, 2 + run (· != '\n') (text ++ '\n' :: cs)) ::
        (none :: some (.mark .slash, 1) :: List.replicate 8 none) := rfl
  have hlongest : longest? ('/' :: '/' :: (text ++ '\n' :: cs)) =
      some (.lineComment, text.length + 2) := by
    rw [longest?, hoffers, hrun, Nat.add_comm 2]
    refine foldl_longer_eq (by simp) (fun p hp => ?_) (by simp)
    simp only [List.mem_cons, reduceCtorEq, Option.some.injEq, List.mem_replicate, false_or,
      and_false, or_false] at hp
    rw [hp]
    exact Nat.le_add_left 1 _
  rw [read_cons (by decide), hlongest]
  rfl

/-- All blanks at the start of a text are cut off as one piece, which leaves no token and is no
fault. -/
theorem filterMap_cut_blank {β : Type} {f : Item → Option β}
    (hf : ∀ text l, f (.token ⟨.blank, text, l⟩) = none) (u : Cursor) (cs : List Char) :
    (cut 0 u cs).filterMap f = (cut (run isBlank cs) u cs).filterMap f := by
  rcases cs with _ | ⟨c, cs⟩
  · rfl
  · cases hc : isBlank c with
    | false => simp [run, hc]
    | true =>
      have hrun : run isBlank (c :: cs) = run isBlank cs + 1 := by simp [run, hc]
      rw [hrun]
      simp only [cut, read_blank hc, Reading.item, Nat.add_sub_cancel, List.filterMap_cons, hf]

theorem cut_cons_blank {c : Char} (hc : isBlank c = true) (u : Cursor) (cs : List Char) :
    cut 0 u (c :: cs) = .token ⟨.blank, String.ofList ((c :: cs).take (run isBlank cs + 1)), u.location⟩ ::
      cut (run isBlank cs) (u.advance c) cs := by
  simp only [cut, read_blank hc, Reading.item, Nat.add_sub_cancel]

/-- Blanks count for nothing, one by one. -/
theorem filterMap_cut_cons {α : Type} {f : Item → Option α}
    (hf : ∀ text l, f (.token ⟨.blank, text, l⟩) = none) {c : Char} (hc : isBlank c = true) (u : Cursor)
    (cs : List Char) : (cut 0 u (c :: cs)).filterMap f = (cut 0 (u.advance c) cs).filterMap f := by
  rw [cut_cons_blank hc, List.filterMap_cons, hf, filterMap_cut_blank hf (u.advance c) cs]

/-- A text that spells words is cut into tokens for these words, and has no faults. -/
theorem filterMap_cut {cs : List Char} {ws : List Word} (h : Spells cs ws) (u : Cursor) :
    (cut 0 u cs).filterMap Item.fault? = [] ∧
      ((cut 0 u cs).filterMap Item.token?).map Token.word = ws := by
  induction h generalizing u with
  | done => exact ⟨rfl, rfl⟩
  | @blank c cs ws hc _ ih =>
    rw [filterMap_cut_cons (fun _ _ => rfl) hc, filterMap_cut_cons (fun _ _ => rfl) hc]
    exact ih _
  | @comment text cs ws htext _ ih =>
    have hcut := @cut_append ('/' :: '/' :: text) ('\n' :: cs) nofun .lineComment
      (read_lineComment htext) u
    simp only [List.cons_append] at hcut
    rw [hcut, List.filterMap_cons, List.filterMap_cons]
    exact ih _
  | @word k w cs ws hw hk hread _ ih =>
    rw [cut_append hw hread, List.filterMap_cons, List.filterMap_cons]
    simp only [Item.fault?, Item.token?, hk, Bool.false_eq_true, if_false, List.map_cons]
    exact ⟨(ih _).1, by rw [(ih _).2]; rfl⟩

/-- The tokens of a text that spells words. -/
theorem recover_eq {source : String} {ws : List Word} (h : Spells source.toList ws) :
    faults source = [] ∧ ∃ ts, recover source = ts ++ [endToken source] ∧ ts.map Token.word = ws :=
  ⟨(filterMap_cut h _).1, _, rfl, (filterMap_cut h _).2⟩

end Lexer

/-- The words of a text are neither the end of the input nor invalid. -/
theorem Spells.kind {cs : List Char} {ws : List Word} (h : Spells cs ws) :
    ∀ w ∈ ws, w.kind ≠ .endOfInput ∧ w.kind ≠ .invalid := by
  induction h with
  | done => nofun
  | blank _ _ ih => exact ih
  | comment _ _ ih => exact ih
  | word _ _ hread _ ih =>
    rintro w (_ | ⟨_, hw⟩)
    · exact Lexer.read_kind hread
    · exact ih w hw

/-- Nothing spells nothing. -/
theorem Spells.eq_nil {ws : List Word} (h : Spells [] ws) : ws = [] := by
  generalize hcs : ([] : List Char) = cs at h
  cases h with
  | done => rfl
  | blank _ _ => cases hcs
  | comment _ _ => cases hcs
  | word hw _ _ _ => exact absurd (List.append_eq_nil_iff.mp hcs.symm).1 hw

/-! ### Pieces of text -/

/-- A piece of text spells words, whatever is behind it, as long as that is of the given sort. -/
def Writes (s : String) (ws : List Word) (behind : List Char → Prop) : Prop :=
  ∀ r vs, behind r → Spells r vs → Spells (s.toList ++ r) (ws ++ vs)

/-- Nothing, or a character that is no part of a name. -/
def NameEnds (r : List Char) : Prop := ∀ c ∈ r.head?, Pattern.isNamePart c = false

/-- Nothing, or a separator. -/
def Separated (r : List Char) : Prop := ∀ c ∈ r.head?, Pattern.isSeparator c = true

/-- Anything. -/
def Anything (_ : List Char) : Prop := True

namespace Writes

open Pattern

theorem nil (behind : List Char → Prop) : Writes "" [] behind := fun _ _ _ h => h

theorem mono {s : String} {ws : List Word} {behind behind' : List Char → Prop}
    (h : Writes s ws behind) (hb : ∀ r, behind' r → behind r) : Writes s ws behind' :=
  fun r vs hr hs => h r vs (hb r hr) hs

/-- Two pieces, the second of which is of the sort that may be behind the first. -/
theorem append {s t : String} {ws vs : List Word} {behind behind' : List Char → Prop}
    (hs : Writes s ws behind) (ht : Writes t vs behind')
    (h : ∀ r, behind' r → behind (t.toList ++ r)) : Writes (s ++ t) (ws ++ vs) behind' := by
  intro r us hr hspells
  rw [String.toList_append, List.append_assoc, List.append_assoc]
  exact hs _ _ (h r hr) (ht r us hr hspells)

/-- Two pieces, the first of which may have anything behind it. -/
theorem append_anything {s t : String} {ws vs : List Word} {behind : List Char → Prop}
    (hs : Writes s ws Anything) (ht : Writes t vs behind) : Writes (s ++ t) (ws ++ vs) behind :=
  hs.append ht fun _ _ => trivial

/-- A piece of blanks spells nothing. -/
theorem blanks {s : String} (h : s.toList.all isBlank = true) (behind : List Char → Prop) :
    Writes s [] behind := by
  intro r vs _ hr
  have hspells (cs : List Char) (hcs : cs.all isBlank = true) : Spells (cs ++ r) vs := by
    induction cs with
    | nil => exact hr
    | cons c cs ih =>
      simp only [List.all_cons, Bool.and_eq_true] at hcs
      exact .blank hcs.1 (ih hcs.2)
  exact hspells _ h

theorem space (behind : List Char → Prop) : Writes " " [] behind := blanks rfl behind

/-- A piece that is read as one word. -/
theorem of_read {s : String} {k : Kind} {behind : List Char → Prop} (hs : s ≠ "")
    (hk : k.isTrivia = false)
    (h : ∀ r, behind r → Lexer.read (s.toList ++ r) = ⟨.ok k, s.toList.length⟩) :
    Writes s [⟨k, s⟩] behind := by
  intro r vs hr hspells
  have hne : s.toList ≠ [] := fun hnil => hs (String.toList_eq_nil_iff.mp hnil)
  have hword := Spells.word hne hk (h r hr) hspells
  rwa [String.ofList_toList] at hword

theorem nameKind_isTrivia (cs : List Char) : (nameKind cs).isTrivia = false := by
  rcases nameKind_cases cs with ⟨k, hname⟩ | hname <;> rw [hname] <;> rfl

/-- A name, or a reserved word. -/
theorem ofName {s : String} (h : isName s.toList = true) :
    Writes s [⟨nameKind s.toList, s⟩] NameEnds := by
  refine of_read ?_ (nameKind_isTrivia _) fun r hr => Lexer.read_name h hr
  rintro rfl
  cases h

theorem ofText?_text (k : Keyword) : Keyword.ofText? k.text = some k := by
  cases k with
  | modifier m => cases m <;> rfl
  | primitive p => cases p <;> rfl
  | _ => rfl

theorem isName_text (k : Keyword) : isName k.text.toList = true := by
  cases k with
  | modifier m => cases m <;> rfl
  | primitive p => cases p <;> rfl
  | _ => rfl

theorem keyword (k : Keyword) : Writes k.text [.keyword k] NameEnds := by
  have hkind : nameKind k.text.toList = .keyword k := by
    rw [nameKind, String.ofList_toList, ofText?_text]
  have h := ofName (isName_text k)
  rw [hkind] at h
  exact h

end Writes

/-- The spelling of a name that is no reserved word. -/
def IsIdentifier (s : String) : Prop :=
  Pattern.isName s.toList = true ∧ Keyword.ofText? s = none

instance (s : String) : Decidable (IsIdentifier s) :=
  inferInstanceAs (Decidable (_ ∧ _))

namespace Writes

open Pattern

theorem identifier {s : String} (h : IsIdentifier s) : Writes s [.name s] NameEnds := by
  have hkind : nameKind s.toList = .identifier := by
    rw [nameKind, String.ofList_toList, h.2]
  have hname := ofName h.1
  rw [hkind] at hname
  exact hname

/-- A mark that stands alone may have anything behind it. -/
theorem alone {m : Mark} (h : Lexer.standsAlone m = true) :
    Writes (String.ofList m.chars) [.mark m] Anything := by
  refine of_read (by cases m <;> decide) rfl fun r _ => ?_
  rw [String.toList_ofList]
  exact Lexer.read_standsAlone h r

/-- A word without quotes may have a separator behind it. -/
theorem unquoted {s : String} {k : Kind} (hk : k.isTrivia = false) (hs : s ≠ "")
    (hread : Lexer.read s.toList = ⟨.ok k, s.toList.length⟩)
    (hblank : ∀ c ∈ s.toList.head?, isBlank c = false)
    (hquote : ∀ c ∈ s.toList.head?, c ≠ '"' ∧ c ≠ '\'') (hcomment : NoComment s.toList) :
    Writes s [⟨k, s⟩] Separated := by
  refine of_read hs hk fun r hr => ?_
  rcases r with _ | ⟨c, cs⟩
  · rw [List.append_nil]
    exact hread
  · have hne : s.toList ≠ [] := fun hnil => hs (String.toList_eq_nil_iff.mp hnil)
    rw [Lexer.read_append_separator hne hblank hquote hcomment (hr c rfl), hread]

theorem noComment_mark (m : Mark) : NoComment m.chars := by
  cases m <;> rintro c d ds h rfl <;> cases h
  decide

/-- Any mark may have a separator behind it. -/
theorem mark (m : Mark) : Writes (String.ofList m.chars) [.mark m] Separated := by
  refine unquoted rfl (by cases m <;> decide) ?_ ?_ ?_ ?_ <;> rw [String.toList_ofList]
  · exact Lexer.read_mark m
  · intro c hc
    cases m <;> cases hc <;> rfl
  · intro c hc
    cases m <;> cases hc <;> decide
  · exact noComment_mark m

end Writes

end JavaTree
