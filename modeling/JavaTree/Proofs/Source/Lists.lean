import Mathlib.Algebra.GroupWithZero.Nat
import JavaTree.Proofs.Source.Passage
import JavaTree.Proofs.Token.Adjacent

/-!
Lists of type arguments in a text, and what is kept of words.

In a text, one word may close two or three lists at once. `Angle.split` puts each bracket on its own;
that changes neither the text of a list nor its depth at any word. What is kept of a text is counted
word by word: `tally` counts names and literals, and nothing else.

    in a text:    <  K  ,  List  <  V  >>
    on its own:   <  K  ,  List  <  V  >  >
-/

namespace JavaTree

open JavaTree.Parser

/-! ### Names and literals -/

/-- Names and literals. -/
def Kind.isContent (k : Kind) : Bool := k = .identifier || k.isLiteral

/-- One if a word is the given name or literal, and zero otherwise. -/
def single (w v : Word) : Nat := if w.kind.isContent && v == w then 1 else 0

/-- How often a name or literal is among words; zero for all other words. -/
def tally (w : Word) (ws : List Word) : Nat := (ws.map (single w)).sum

variable (w : Word)

@[simp] theorem tally_nil : tally w [] = 0 := rfl

@[simp] theorem tally_cons (v : Word) (ws : List Word) : tally w (v :: ws) = single w v + tally w ws := by
  simp [tally]

@[simp] theorem tally_append (ws vs : List Word) : tally w (ws ++ vs) = tally w ws + tally w vs := by
  simp [tally]

theorem single_eq_zero {v : Word} (hv : v.kind.isContent = false) : single w v = 0 := by
  rw [single, if_neg]
  simp only [Bool.and_eq_true, beq_iff_eq, not_and]
  rintro hw rfl
  rw [hw] at hv
  cases hv

@[simp] theorem single_mark (m : Mark) : single w (.mark m) = 0 := single_eq_zero w rfl

@[simp] theorem single_modifier (m : Modifier) : single w (.keyword (.modifier m)) = 0 :=
  single_eq_zero w rfl

theorem tally_eq_count {w : Word} (hw : w.kind.isContent = true) (ws : List Word) :
    tally w ws = ws.count w := by
  induction ws with
  | nil => rfl
  | cons v ws ih =>
    rw [tally_cons, ih, List.count_cons, single, hw, Bool.true_and, Nat.add_comm]

theorem tally_eq_zero {ws : List Word} (h : ∀ v ∈ ws, v.kind.isContent = false) : tally w ws = 0 := by
  induction ws with
  | nil => rfl
  | cons v ws ih =>
    rw [tally_cons, single_eq_zero w (h v List.mem_cons_self),
      ih fun u hu => h u (List.mem_cons_of_mem _ hu)]

@[simp] theorem tally_bracketWords (n : Nat) : tally w (bracketWords n) = 0 := by
  induction n with
  | zero => rfl
  | succ n ih => simp [bracketWords, ih]

@[simp] theorem tally_modifierWords (ms : List Modifier) : tally w (modifierWords ms) = 0 := by
  refine tally_eq_zero w fun v hv => ?_
  obtain ⟨m, -, rfl⟩ := List.mem_map.mp hv
  rfl

/-! ### Points in a row -/

/-- No two dots have a third point right behind them. -/
def NoPoints (ws : List Word) : Prop := ∀ u v w, [u, v, w] <:+: ws → ¬ Fuses u.token v.token w.token

namespace NoPoints

variable {ws vs : List Word}

theorem of_part (h : NoPoints ws) (hvs : vs <:+: ws) : NoPoints vs :=
  fun u v w hsub => h u v w (hsub.trans hvs)

theorem left (h : NoPoints (ws ++ vs)) : NoPoints ws := h.of_part (List.prefix_append ws vs).isInfix

theorem right (h : NoPoints (ws ++ vs)) : NoPoints vs := h.of_part (List.suffix_append ws vs).isInfix

theorem tail {v : Word} (h : NoPoints (v :: ws)) : NoPoints ws := h.of_part (List.suffix_cons v ws).isInfix

end NoPoints

/-- Words fuse exactly if the tokens that they are written from do. -/
theorem fuses_written {t u v : Token} :
    Fuses t.written.token u.written.token v.written.token ↔ Fuses t u v := by
  have hpoint : v.written.token.IsPoint ↔ v.IsPoint := by
    refine or_congr Iff.rfl (and_congr_right fun hk => ?_)
    rw [show v.written.token.lexeme = v.text from rfl, @Token.text_number v (.inr hk)]
  exact ⟨fun h => ⟨h.first, h.second, hpoint.mp h.third⟩, fun h => ⟨h.first, h.second, hpoint.mpr h.third⟩⟩

theorem noPoints_written {ts : List Token} :
    NoPoints (ts.map Token.written) ↔ ∀ t u v, [t, u, v] <:+: ts → ¬ Fuses t u v := by
  constructor
  · intro h t u v hsub hfuses
    exact h _ _ _ (hsub.map Token.written) (fuses_written.mpr hfuses)
  · intro h w w' w'' hsub
    obtain ⟨us, hus, heq⟩ := List.infix_map_iff.mp hsub
    obtain ⟨t, u, v, rfl⟩ : ∃ t u v, us = [t, u, v] :=
      List.length_eq_three.mp (by simpa using (congrArg List.length heq).symm)
    cases heq
    exact fun hfuses => h t u v hus (fuses_written.mp hfuses)

namespace Angle

theorem noClash_of_noPair {ws : List Word}
    (hdots : NoPair (.mark .dot) (.mark .dot) (ws.map Word.kind))
    (hless : NoPair (.mark .less) (.mark .less) (ws.map Word.kind)) : NoClash ws := by
  induction ws with
  | nil => trivial
  | cons a ws ih =>
    rcases ws with _ | ⟨b, ws⟩
    · trivial
    · obtain ⟨hdot, hdots⟩ := List.isChain_cons_cons.mp hdots
      obtain ⟨hopen, hless⟩ := List.isChain_cons_cons.mp hless
      exact ⟨fun h => h.elim hdot hopen, ih hdots hless⟩

/-! ### Brackets on their own -/

/-- How many lists a word closes. -/
def closing : Kind → Nat
  | .mark .greater => 1
  | .mark .rightShift => 2
  | .mark .unsignedShift => 3
  | _ => 0

/-- A word with each closing bracket on its own. -/
def parts (v : Word) : List Word :=
  if closing v.kind = 0 then [v] else List.replicate (closing v.kind) (.mark .greater)

/-- Words with each closing bracket on its own. -/
def split (ws : List Word) : List Word := ws.flatMap parts

@[simp] theorem split_cons (v : Word) (ws : List Word) : split (v :: ws) = parts v ++ split ws := rfl

/-- A word closes lists, or opens one, or does neither. -/
theorem closing_cases (k : Kind) : (closing k = 0 ∧ 0 ≤ weight k) ∨
    (closing k ≠ 0 ∧ weight k = -(closing k : Int)) := by
  unfold closing weight
  split <;> simp
  split <;> simp_all

theorem ne_greater_of_closing {k : Kind} (h : closing k = 0) : k ≠ .mark .greater := by
  rintro rfl
  cases h

theorem eq_mark_of_closing {v : Word} (hmarks : ∀ m, v.kind = .mark m → v = .mark m)
    (h : closing v.kind ≠ 0) : v = .mark .greater ∨ v = .mark .rightShift ∨ v = .mark .unsignedShift := by
  generalize hk : v.kind = k at h
  unfold closing at h
  split at h
  · exact .inl (hmarks _ hk)
  · exact .inr (.inl (hmarks _ hk))
  · exact .inr (.inr (hmarks _ hk))
  · exact absurd rfl h

theorem tally_parts (v : Word) : tally w (parts v) = single w v := by
  rw [parts]
  split
  · simp
  · next h =>
    have hv : v.kind.isContent = false := by
      generalize v.kind = k at h
      unfold closing at h
      split at h <;> first | rfl | exact absurd rfl h
    rw [single_eq_zero w hv]
    exact tally_eq_zero w fun u hu => by rw [List.eq_of_mem_replicate hu]; rfl

@[simp] theorem tally_split (ws : List Word) : tally w (split ws) = tally w ws := by
  induction ws with
  | nil => rfl
  | cons v ws ih => simp [tally_parts, ih]

theorem tally_closers (n : Nat) : tally w (closers n) = 0 := by
  fun_induction closers n <;> simp_all

@[simp] theorem tally_fuse (n : Nat) (ws : List Word) : tally w (fuse n ws) = tally w ws := by
  induction ws generalizing n with
  | nil => exact tally_closers w n
  | cons v ws ih =>
    rw [fuse]
    split
    · next hk =>
      have hv : v.kind.isContent = false := by rw [hk]; rfl
      rw [ih, tally_cons, single_eq_zero w hv, Nat.zero_add]
    · rw [tally_append, tally_cons, tally_closers, ih, tally_cons, Nat.zero_add]

/-! ### Depth, clashes and text -/

theorem closes_replicate (n : Nat) : Closes (n + 1 : Nat) (List.replicate (n + 1) (.mark .greater)) := by
  induction n with
  | zero => rfl
  | succ n ih =>
    refine ih.cons (by omega) ?_
    simp only [Word.mark, weight]
    omega

theorem Closes.behind_replicate {depth : Int} {ws : List Word} (h : Closes depth ws) (hpos : 0 < depth)
    (n : Nat) : Closes (depth + n) (List.replicate n (.mark .greater) ++ ws) := by
  induction n with
  | zero => simpa using h
  | succ n ih =>
    refine ih.cons (by omega) ?_
    simp only [Word.mark, weight]
    omega

theorem closes_split {ws : List Word} {depth : Int} (h : Closes depth ws) : Closes depth (split ws) := by
  induction ws generalizing depth with
  | nil => exact absurd h id
  | cons v ws ih =>
    rw [split_cons, parts]
    by_cases hws : ws = []
    · subst hws
      have hdepth : depth + weight v.kind = 0 := h
      split
      · exact hdepth
      · next hclosing =>
        obtain ⟨h0, -⟩ | ⟨-, hweight⟩ := closing_cases v.kind
        · exact absurd h0 hclosing
        · obtain ⟨n, hn⟩ := Nat.exists_eq_succ_of_ne_zero hclosing
          obtain rfl : depth = (n + 1 : Nat) := by omega
          rw [hn, split, List.flatMap_nil, List.append_nil]
          exact closes_replicate n
    · rw [closes_cons hws] at h
      have hrest := ih h.2
      split
      · exact hrest.cons h.1 rfl
      · next hclosing =>
        obtain ⟨h0, -⟩ | ⟨-, hweight⟩ := closing_cases v.kind
        · exact absurd h0 hclosing
        · have hall := hrest.behind_replicate h.1 (closing v.kind)
          rwa [hweight, Int.neg_add_cancel_right] at hall

theorem not_clash_greater (v : Word) : ¬ Clash (.mark .greater) v := by
  rintro (⟨h, -⟩ | ⟨h, -⟩) <;> cases h

theorem not_clash_of_greater (v : Word) : ¬ Clash v (.mark .greater) := by
  rintro (⟨-, h⟩ | ⟨-, h⟩) <;> cases h

theorem noClash_replicate {ws : List Word} (h : NoClash (.mark .greater :: ws)) (v : Word) (n : Nat) :
    NoClash (v :: (List.replicate (n + 1) (.mark .greater) ++ ws)) := by
  induction n generalizing v with
  | zero => exact ⟨not_clash_of_greater v, h⟩
  | succ n ih => exact ⟨not_clash_of_greater v, ih _⟩

theorem NoClash.greater_cons {ws : List Word} (h : NoClash ws) : NoClash (.mark .greater :: ws) := by
  cases ws with
  | nil => trivial
  | cons v ws => exact ⟨not_clash_greater v, h⟩

theorem noClash_split_cons {v : Word} {ws : List Word} (h : NoClash (v :: ws)) :
    NoClash (v :: split ws) := by
  induction ws generalizing v with
  | nil => exact trivial
  | cons u ws ih =>
    rw [split_cons, parts]
    split
    · exact ⟨h.1, ih h.2⟩
    · next hclosing =>
      obtain ⟨n, hn⟩ := Nat.exists_eq_succ_of_ne_zero hclosing
      rw [hn]
      exact noClash_replicate (ih h.2.tail.greater_cons) v n

theorem text_replicate (n : Nat) (previous : Option Kind) (ws : List Word) :
    text previous (List.replicate (n + 1) (.mark .greater) ++ ws) =
      String.ofList (List.replicate (n + 1) '>') ++ text (some (.mark .greater)) ws := by
  induction n generalizing previous with
  | zero =>
    rw [← String.toList_inj]
    simp [text_greater]
  | succ n ih =>
    rw [← String.toList_inj, List.replicate_succ, List.cons_append, text_greater, ih]
    simp [List.replicate_succ]

/-- With each closing bracket on its own, the text is the same. -/
theorem text_split {ws : List Word} (hmarks : ∀ v ∈ ws, ∀ m, v.kind = .mark m → v = .mark m)
    (previous : Option Kind) : text previous (split ws) = text previous ws := by
  induction ws generalizing previous with
  | nil => rfl
  | cons v ws ih =>
    have hrest := ih fun u hu => hmarks u (List.mem_cons_of_mem _ hu)
    by_cases hclosing : closing v.kind = 0
    · rw [split_cons, parts, if_pos hclosing, List.singleton_append, text_cons, text_cons, hrest]
    · have hshift (n : Nat) (hn : parts v = List.replicate (n + 1) (.mark .greater))
          (hv : [v] = closers (n + 1)) : text previous (split (v :: ws)) = text previous (v :: ws) := by
        rw [split_cons, hn, text_replicate, hrest, ← List.singleton_append, hv,
          text_closers n.succ_ne_zero]
      rcases eq_mark_of_closing (hmarks v List.mem_cons_self) hclosing with rfl | rfl | rfl
      · exact hshift 0 rfl rfl
      · exact hshift 1 rfl rfl
      · exact hshift 2 rfl rfl

/-! ### Lists of a text -/

/-- A list in a text that holds nothing but types, and is closed by its last word. -/
structure IsClosed (ws : List Word) : Prop where
  inType : ∀ v ∈ ws, isInType v.kind = true
  closes : Closes 0 ws

instance (ws : List Word) : Decidable (IsClosed ws) :=
  decidable_of_iff ((∀ v ∈ ws, isInType v.kind = true) ∧ Closes 0 ws)
    ⟨fun h => ⟨h.1, h.2⟩, fun h => ⟨h.inType, h.closes⟩⟩

theorem written_of_keyword {t : Token} (h : t.IsReadable) {k : Keyword} (hk : t.kind = .keyword k) :
    t.written = .keyword k := by
  rw [Token.written, Token.text_plain (by rw [hk]; rfl), h.lexeme_of_keyword hk, hk]
  rfl

theorem isPart_of_isReadable {t : Token} (h : t.IsReadable) (ht : isInType t.kind = true)
    (hclosing : closing t.kind = 0) : IsPart t.written := by
  generalize hk : t.kind = k at ht hclosing
  cases k with
  | identifier =>
    have hname := h.isIdentifier hk
    have hwritten : t.written = .name t.lexeme := by
      rw [Token.written, Token.text_plain (by rw [hk]; rfl), hk]
      rfl
    rw [hwritten]
    exact .name hname
  | keyword k =>
    rw [written_of_keyword h hk]
    cases k <;> first | exact .primitive _ | exact .extends_ | exact .super_ | cases ht
  | mark m =>
    rw [h.written_of_mark hk]
    refine .mark ?_
    cases m <;> first | rfl | (cases ht; done) | cases hclosing
  | _ => cases ht

theorem isPart_of_mem_split {ts : List Token} (hts : ∀ t ∈ ts, t.IsReadable)
    (htype : ∀ v ∈ ts.map Token.written, isInType v.kind = true) :
    ∀ v ∈ split (ts.map Token.written), IsPart v := by
  intro v hv
  obtain ⟨u, hu, hvu⟩ := List.mem_flatMap.mp hv
  obtain ⟨t, ht, rfl⟩ := List.mem_map.mp hu
  rw [parts] at hvu
  split at hvu
  · next hclosing =>
    rw [List.mem_singleton.mp hvu]
    exact isPart_of_isReadable (hts t ht) (htype _ hu) hclosing
  · rw [List.eq_of_mem_replicate hvu]
    exact .mark rfl

theorem kindOf_of_list? {ts : List Token} {l : List Word} (h : list? (ts.map Token.written) = some l) :
    kindOf ts = .mark .less := by
  rcases ts with _ | ⟨t, ts⟩
  · cases h
  · rw [List.map_cons, list?] at h
    split at h
    · assumption
    · cases h

/-- A closed list of a text, with each closing bracket on its own. -/
theorem IsClosed.isList {ts : List Token} (h : IsClosed (ts.map Token.written))
    (hts : ∀ t ∈ ts, t.IsReadable) (hopen : kindOf ts = .mark .less)
    (hclash : NoClash (ts.map Token.written)) : IsList (split (ts.map Token.written)) := by
  rcases ts with _ | ⟨t, ts⟩
  · cases hopen
  · have ht : t.kind = .mark .less := hopen
    have hparts : parts t.written = [t.written] := by
      rw [parts, show t.written.kind = t.kind from rfl, ht]
      rfl
    refine ⟨isPart_of_mem_split hts h.inType, ?_, ?_, closes_split h.closes⟩
    · rw [List.map_cons, split_cons, hparts]
      exact noClash_split_cons hclash
    · rw [List.map_cons, split_cons, hparts]
      rintro v hv
      cases hv
      exact ht

/-- The text of tokens in a list is that of their words, if none of them is a literal with quotes. -/
theorem typeText_eq {ts : List Token} (h : ∀ t ∈ ts, t.kind.value? = none) (previous : Option Kind) :
    typeText previous ts = text previous (ts.map Token.written) := by
  induction ts generalizing previous with
  | nil => rfl
  | cons t ts ih =>
    have hrest := ih fun u hu => h u (List.mem_cons_of_mem _ hu)
    have htext : t.text = t.lexeme := Token.text_plain (h t List.mem_cons_self)
    rw [List.map_cons, text_cons, ← hrest]
    simp only [Token.written, htext]
    rfl

end Angle

end JavaTree
