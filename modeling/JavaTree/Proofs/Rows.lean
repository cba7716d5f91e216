import Mathlib.Data.List.Chain
import JavaTree.Proofs.Grammar

/-!
Rows and chains of statements.

A tree grows in two directions. In a row stand the statements of a block or of a case, and the members
of a type. Variables that are declared together stand there as so many fields with one span, so a row
may hold more nodes than declarations. The span is all that tells them from fields of the next
declaration: where tokens have places of their own, as in every source text, it does so, and among tokens
that all stand at one place neighbouring fields are taken for one declaration. In a chain, each statement
lies somewhere inside of the one before. A tree that `Fits` has as many levels as its longest chain may
have statements, none of its rows has too many declarations, and each `else` in it belongs to the `if`
right before it.

    { final int x, y; if (a) { b(); } }      a row of two declarations, and of three statements
      └────────────┘  if ▷ { } ▷ b();        a chain of three statements
-/

namespace JavaTree

/-! ### Declarations in a row -/

section Declarations

variable {α : Type} {span? : α → Option Span} {row row' : List α}

/-- Two nodes are fields of one declaration: they are fields and have one span. -/
def Together (span? : α → Option Span) (a b : α) : Prop := (span? a).isSome = true ∧ span? a = span? b

instance (a b : α) : Decidable (Together span? a b) :=
  inferInstanceAs (Decidable ((span? a).isSome = true ∧ span? a = span? b))

/-- How many declarations there are in a row. Neighbours that are fields with one span count once. -/
def declarations (span? : α → Option Span) : List α → Nat
  | [] => 0
  | [_] => 1
  | a :: b :: row => declarations span? (b :: row) + if Together span? a b then 0 else 1

theorem declarations_append_le (span? : α → Option Span) (row row' : List α) :
    declarations span? (row ++ row') ≤ declarations span? row + declarations span? row' := by
  induction row with
  | nil => simp [declarations]
  | cons a row ih =>
    rcases row with _ | ⟨b, row⟩
    · rcases row' with _ | ⟨b, row'⟩
      · exact Nat.le_refl _
      · simp only [List.cons_append, List.nil_append, declarations]
        split <;> omega
    · simp only [List.cons_append, declarations] at ih ⊢
      omega

/-- The fields of one declaration are one declaration. -/
theorem declarations_le_one (span : Span) (h : ∀ a ∈ row, span? a = some span) :
    declarations span? row ≤ 1 := by
  induction row with
  | nil => exact Nat.zero_le 1
  | cons a row ih =>
    rcases row with _ | ⟨b, row⟩
    · exact Nat.le_refl 1
    · have ha := h a List.mem_cons_self
      have hb := h b (List.mem_cons_of_mem _ List.mem_cons_self)
      have htogether : Together span? a b := ⟨by rw [ha]; rfl, ha.trans hb.symm⟩
      rw [declarations, if_pos htogether]
      exact ih fun x hx => h x (List.mem_cons_of_mem _ hx)

/-- When each declaration has one variable, there are as many declarations as nodes. -/
theorem declarations_eq_length (h : row.IsChain fun a b => ¬ Together span? a b) :
    declarations span? row = row.length := by
  induction row with
  | nil => rfl
  | cons a row ih =>
    rcases row with _ | ⟨b, row⟩
    · rfl
    · obtain ⟨hapart, hrest⟩ := List.isChain_cons_cons.mp h
      rw [declarations, if_neg hapart, ih hrest]
      rfl

/-- A row is within its cap: there are no more declarations than it says, and no more nodes when each
declaration has one variable. -/
def WithinCap (span? : α → Option Span) (cap : Nat) (row : List α) : Prop :=
  declarations span? row ≤ cap ∧
    (row.IsChain (fun a b => ¬ Together span? a b) → row.length ≤ cap)

theorem withinCap_of_declarations {cap : Nat} (h : declarations span? row ≤ cap) :
    WithinCap span? cap row :=
  ⟨h, fun hapart => declarations_eq_length hapart ▸ h⟩

end Declarations

/-- The span of a field among statements. -/
def Statement.fieldSpan? : Statement → Option Span
  | field f => some f.span
  | _ => none

/-- The span of a field among members. -/
def Member.fieldSpan? : Member → Option Span
  | field f => some f.span
  | _ => none

/-! ### What lies in a statement -/

/-- The rows directly in a statement: of its blocks and of its cases. -/
def Statement.rows : Statement → List (List Statement)
  | .block b | .synchronized _ b _ => [b.statements]
  | .try_ body catches finallyBlock _ =>
    body.statements :: catches.map (·.body.statements) ++ finallyBlock.toList.map (·.statements)
  | .switch _ cases _ => cases.map (·.statements)
  | _ => []

/-- The statements that are parts of a statement and stand in no row. -/
def Statement.branches : Statement → List Statement
  | .if_ _ thenBranch elseBranch _ => thenBranch :: elseBranch.toList
  | .for_ _ body _ | .while_ _ body _ | .doWhile body _ _ | .labeled _ body _ => [body]
  | _ => []

/-- The statements directly in a statement. -/
def Statement.inner (s : Statement) : List Statement := s.branches ++ s.rows.flatten

/-- The first statement is directly in the second one. -/
def Statement.IsPartOf (s outer : Statement) : Prop := s ∈ outer.inner

/-- A statement lies somewhere inside of another one. -/
def Statement.Contains : Statement → Statement → Prop := Relation.TransGen fun outer s => s.IsPartOf outer

/-- A statement lies somewhere in a block. -/
def Block.Contains (b : Block) (s : Statement) : Prop :=
  ∃ t ∈ b.statements, Relation.ReflTransGen (fun outer s => s.IsPartOf outer) t s

/-- The body of a member, if it has one. -/
def Member.body? : Member → Option Block
  | field _ => none
  | method m => m.body
  | constructor c => some c.body
  | initializer i => some i.body

/-! ### Trees that fit -/

/-- The `else` of an `if`, if it has one, is not taken by a statement before it. -/
def Statement.IsAttached : Statement → Prop
  | .if_ _ thenBranch (some _) _ => ¬ thenBranch.EndsOpen
  | _ => True

/-- A statement without branches has no `else`, and takes none. -/
theorem Statement.isAttached_of_branches {s : Statement} (h : s.branches = []) :
    s.IsAttached ∧ ¬ s.EndsOpen := by
  cases s with
  | if_ | for_ | while_ | doWhile | labeled => cases h
  | declaration | expression | return_ | try_ | field | block | break_ | continue_ | throw_ | switch
  | synchronized | assert => exact ⟨trivial, nofun⟩

/-- There are at most so many levels in a statement, none of its rows has more declarations than the
cap allows, and no `else` in it is taken by another statement than its own. -/
inductive Statement.Fits (cap : Nat) : Nat → Statement → Prop
  | node {levels : Nat} {s : Statement} (attached : s.IsAttached)
      (rows : ∀ row ∈ s.rows, declarations Statement.fieldSpan? row ≤ cap)
      (inner : ∀ u ∈ s.inner, Fits cap levels u) : Fits cap (levels + 1) s

/-- A row with at most so many declarations, and with statements that fit. -/
structure RowFits (cap declared levels : Nat) (row : List Statement) : Prop where
  declared : declarations Statement.fieldSpan? row ≤ declared
  fits : ∀ s ∈ row, s.Fits cap levels

section Fits

variable {cap levels : Nat} {s u : Statement} {row row' : List Statement}

theorem Statement.Fits.succ (h : s.Fits cap levels) : s.Fits cap (levels + 1) := by
  induction h with
  | node attached rows _ ih => exact .node attached rows ih

theorem Statement.Fits.of_rows (hattached : s.IsAttached)
    (hrows : ∀ row ∈ s.rows, RowFits cap cap levels row)
    (hbranches : ∀ u ∈ s.branches, u.Fits cap levels) : s.Fits cap (levels + 1) := by
  refine .node hattached (fun row hrow => (hrows row hrow).declared) fun u hu => ?_
  rcases List.mem_append.mp hu with hu | hu
  · exact hbranches u hu
  · obtain ⟨row, hrow, hu⟩ := List.mem_flatten.mp hu
    exact (hrows row hrow).fits u hu

/-- A statement whose parts all stand in rows. -/
theorem Statement.fits_of_rows (hrows : ∀ row ∈ s.rows, RowFits cap cap levels row)
    (hbranches : s.branches = []) : s.Fits cap (levels + 1) ∧ ¬ s.EndsOpen := by
  obtain ⟨hattached, hopen⟩ := Statement.isAttached_of_branches hbranches
  exact ⟨.of_rows hattached hrows (by simp [hbranches]), hopen⟩

/-- A statement without others in it. -/
theorem Statement.fits_leaf (hrows : s.rows = []) (hbranches : s.branches = []) :
    s.Fits cap (levels + 1) ∧ ¬ s.EndsOpen :=
  Statement.fits_of_rows (by simp [hrows]) hbranches

theorem rowFits_nil {declared : Nat} : RowFits cap declared levels [] := ⟨Nat.zero_le _, nofun⟩

theorem rowFits_single (h : s.Fits cap levels) : RowFits cap 1 levels [s] :=
  ⟨Nat.le_refl 1, fun _ hu => List.mem_singleton.mp hu ▸ h⟩

theorem RowFits.mono {declared declared' : Nat} (h : RowFits cap declared levels row)
    (hle : declared ≤ declared') : RowFits cap declared' levels row :=
  ⟨h.declared.trans hle, h.fits⟩

theorem RowFits.append {m n : Nat} (h : RowFits cap m levels row) (h' : RowFits cap n levels row') :
    RowFits cap (m + n) levels (row ++ row') := by
  refine ⟨(declarations_append_le _ _ _).trans (Nat.add_le_add h.declared h'.declared), fun s hs => ?_⟩
  rcases List.mem_append.mp hs with hs | hs
  · exact h.fits s hs
  · exact h'.fits s hs

/-! ### Chains -/

/-- What lies directly in a statement has one level less. -/
theorem Statement.Fits.part (h : s.Fits cap levels) (hu : u.IsPartOf s) :
    ∃ m, levels = m + 1 ∧ u.Fits cap m := by
  cases h with
  | node attached rows inner => exact ⟨_, rfl, inner u hu⟩

/-- What lies in a statement has fewer levels. -/
theorem Statement.Fits.contained (h : s.Fits cap levels) (hu : s.Contains u) :
    ∃ m < levels, u.Fits cap m := by
  induction hu with
  | single hu =>
    obtain ⟨m, rfl, hm⟩ := h.part hu
    exact ⟨m, Nat.lt_succ_self m, hm⟩
  | tail _ hu ih =>
    obtain ⟨n, hn, ht⟩ := ih
    obtain ⟨m, rfl, hm⟩ := ht.part hu
    exact ⟨m, (Nat.lt_succ_self m).trans hn, hm⟩

/-- A chain has no more statements than its first one has levels. -/
theorem Statement.Fits.length_le {chain : List Statement} (h : s.Fits cap levels)
    (hchain : (s :: chain).IsChain Statement.Contains) : (s :: chain).length ≤ levels := by
  induction chain generalizing s levels with
  | nil =>
    cases h with
    | node attached rows inner => exact Nat.le_add_left _ _
  | cons u chain ih =>
    obtain ⟨hu, hrest⟩ := List.isChain_cons_cons.mp hchain
    obtain ⟨m, hm, hfits⟩ := h.contained hu
    exact Nat.lt_of_le_of_lt (ih hfits hrest) hm

/-- What lies in a block fits. -/
theorem fits_of_contains {b : Block} {declared : Nat} (h : RowFits cap declared levels b.statements)
    (hs : b.Contains s) : ∃ m ≤ levels, s.Fits cap m := by
  obtain ⟨t, ht, hreach⟩ := hs
  rcases Relation.reflTransGen_iff_eq_or_transGen.mp hreach with rfl | hcontains
  · exact ⟨levels, Nat.le_refl _, h.fits _ ht⟩
  · obtain ⟨m, hm, hfits⟩ := (h.fits t ht).contained hcontains
    exact ⟨m, hm.le, hfits⟩

/-- A chain of statements in a block has no more of them than there are levels. -/
theorem length_le_of_chain {b : Block} {declared : Nat} (h : RowFits cap declared levels b.statements)
    {chain : List Statement} (hin : ∀ s ∈ chain, b.Contains s)
    (hchain : chain.IsChain Statement.Contains) : chain.length ≤ levels := by
  rcases chain with _ | ⟨s, chain⟩
  · exact Nat.zero_le _
  · obtain ⟨m, hm, hfits⟩ := fits_of_contains h (hin s List.mem_cons_self)
    exact (hfits.length_le hchain).trans hm

/-- The rows in a block have no more declarations than the cap allows. -/
theorem declared_of_contains {b : Block} {declared : Nat} (h : RowFits cap declared levels b.statements)
    (hs : b.Contains s) (hrow : row ∈ s.rows) : declarations Statement.fieldSpan? row ≤ cap := by
  obtain ⟨m, -, hfits⟩ := fits_of_contains h hs
  cases hfits with
  | node attached rows inner => exact rows row hrow

/-- Each `else` in a block belongs to the `if` right before it. -/
theorem attached_of_contains {b : Block} {declared : Nat} (h : RowFits cap declared levels b.statements)
    (hs : b.Contains s) : s.IsAttached := by
  obtain ⟨m, -, hfits⟩ := fits_of_contains h hs
  cases hfits with
  | node attached rows inner => exact attached

end Fits

end JavaTree
