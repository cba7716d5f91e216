import JavaTree.Proofs.Token.Pieces

/-!
The places of the pieces and tokens of a source text.

Every character moves the walk over a text forward: to the next line, to the next column or, at the
`\n` of a pair `\r\n`, only to a later offset. A piece stands where the walk has come to, so the
pieces of a text stand in strict order, and its tokens with them.

    text:       int   \r \n   x
    location:   1:1+0         2:1+5
-/

namespace JavaTree

namespace Location

variable {a b d : Location}

theorem lt_iff : a < b ↔ a.line < b.line ∨
    (a.line = b.line ∧ (a.column < b.column ∨ (a.column = b.column ∧ a.offset < b.offset))) :=
  Iff.rfl

theorem le_iff : a ≤ b ↔ ¬ b < a := Iff.rfl

theorem le_refl (a : Location) : a ≤ a := by
  rw [le_iff, lt_iff]
  omega

theorem lt_irrefl (a : Location) : ¬ a < a := by
  rw [lt_iff]
  omega

theorem lt_of_lt_of_le (h : a < b) (h' : b ≤ d) : a < d := by
  rw [le_iff, lt_iff] at h'
  rw [lt_iff] at h ⊢
  omega

theorem le_trans (h : a ≤ b) (h' : b ≤ d) : a ≤ d := by
  rw [le_iff, lt_iff] at h h' ⊢
  omega

theorem le_of_lt (h : a < b) : a ≤ b := by
  rw [lt_iff] at h
  rw [le_iff, lt_iff]
  omega

end Location

namespace Cursor

/-- Every character moves the walk forward. -/
theorem lt_advance (u : Cursor) (c : Char) : u.location < (u.advance c).location := by
  have hsize := c.utf8Size_pos
  rw [Location.lt_iff, advance]
  dsimp only
  split
  · exact .inr ⟨rfl, .inr ⟨rfl, Nat.lt_add_of_pos_right hsize⟩⟩
  · split
    · exact .inl (Nat.lt_succ_self _)
    · exact .inr ⟨rfl, .inl (Nat.lt_succ_self _)⟩

/-- The walk over a text never goes back. -/
theorem le_advanceAll (u : Cursor) (x : List Char) : u.location ≤ (u.advanceAll x).location := by
  induction x generalizing u with
  | nil => exact Location.le_refl _
  | cons c cs ih => exact Location.le_of_lt (Location.lt_of_lt_of_le (u.lt_advance c) (ih _))

end Cursor

namespace Lexer

/-- The place where a piece starts. -/
def Item.location : Item → Location
  | token t => t.location
  | fault f => f.location

theorem item_location (r : Reading) (l : Location) (cs : List Char) : (r.item l cs).location = l := by
  unfold Reading.item
  split <;> rfl

/-- A token stands where its piece starts. -/
theorem Item.location_of_token? {i : Item} {t : Token} (h : i.token? = some t) :
    t.location = i.location := by
  cases i with
  | token =>
    rw [token?, Option.ite_none_left_eq_some, Option.some.injEq] at h
    rw [← h.2]
    rfl
  | fault =>
    cases h
    rfl

variable {x : List Char} {skip : Nat} {u : Cursor} {i : Item}

/-- A piece stands where the walk has come to, or later. -/
theorem le_of_mem_cut (hi : i ∈ cut skip u x) : u.location ≤ i.location := by
  induction x generalizing skip u with
  | nil => cases hi
  | cons c cs ih =>
    have hlater {n : Nat} (h : i ∈ cut n (u.advance c) cs) : u.location ≤ i.location :=
      Location.le_of_lt (Location.lt_of_lt_of_le (u.lt_advance c) (ih h))
    cases skip with
    | succ n => exact hlater hi
    | zero =>
      rcases List.mem_cons.mp hi with rfl | hi
      · rw [item_location]
        exact Location.le_refl _
      · exact hlater hi

/-- A piece stands before the end of the walk. -/
theorem lt_of_mem_cut (hi : i ∈ cut skip u x) : i.location < (u.advanceAll x).location := by
  induction x generalizing skip u with
  | nil => cases hi
  | cons c cs ih =>
    cases skip with
    | succ n => exact ih hi
    | zero =>
      rcases List.mem_cons.mp hi with rfl | hi
      · rw [item_location]
        exact Location.lt_of_lt_of_le (u.lt_advance c) (Cursor.le_advanceAll _ _)
      · exact ih hi

/-- Pieces stand in order. -/
theorem pairwise_cut (x : List Char) (skip : Nat) (u : Cursor) :
    (cut skip u x).Pairwise fun a b => a.location < b.location := by
  induction x generalizing skip u with
  | nil => exact .nil
  | cons c cs ih =>
    cases skip with
    | succ n => exact ih n _
    | zero =>
      refine .cons ?_ (ih _ _)
      intro b hb
      rw [item_location]
      exact Location.lt_of_lt_of_le (u.lt_advance c) (le_of_mem_cut hb)

/-- Faults stand in order. -/
theorem pairwise_faults (source : String) :
    (faults source).Pairwise fun a b => a.location < b.location := by
  refine (pairwise_cut _ _ _).filterMap _ ?_
  intro i j hij f hf g hg
  cases i <;> cases j <;> cases hf <;> cases hg
  exact hij

/-- The tokens of the recovering reading stand in order, the end token behind all others. -/
theorem pairwise_recover (source : String) :
    (recover source).Pairwise fun a b => a.location < b.location := by
  refine List.pairwise_append.mpr ⟨?_, List.pairwise_singleton _ _, ?_⟩
  · refine (pairwise_cut _ _ _).filterMap _ ?_
    intro i j hij t ht v hv
    rw [Item.location_of_token? ht, Item.location_of_token? hv]
    exact hij
  · intro t ht v hv
    obtain ⟨i, hi, hit⟩ := List.mem_filterMap.mp ht
    rw [List.mem_singleton.mp hv, Item.location_of_token? hit]
    exact lt_of_mem_cut hi

end Lexer

/-- The tokens that are read from a source text stand in order. -/
theorem Parser.Input.pairwise_tokens (source : String) :
    (ofSource source).tokens.Pairwise fun a b => a.location < b.location := by
  rw [tokens_ofSource]
  exact (List.pairwise_append.mp (Lexer.pairwise_recover source)).1

end JavaTree
