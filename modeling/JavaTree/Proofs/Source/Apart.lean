import JavaTree.Proofs.Source.Legible

/-!
Lists of a text whose words are told apart when the list is written.

A list of type arguments may hold other tokens than those of types, as in `List<@N String>`. What it
loses when it is written is what runs together there. Closing brackets do, and no name is lost with them;
no other words may. A literal with quotes is written there as it stands in the text, and not as elsewhere
in a tree, so lists with one are left out. Lists of types stay apart.

    in a text                written        spelled
    <  @  N  String  >       <@N String>    `<` `@` `N` `String` `>`
    <  A  <  B  >  >         <A<B>>         `<` `A` `<` `B` `>>`
    <  1  .  x  >            <1.x>          `<` `1.` `x` `>`, without the `1`
-/

namespace JavaTree

open JavaTree.Parser

/-- A token as it is written stands in some text. -/
theorem Token.IsReadable.occurs {t : Token} (h : t.IsReadable) : t.written.Occurs :=
  ⟨h.text_ne_nil, h.isTrivia_eq_false, [], h.endsBefore_separated (by simp [Separated])⟩

namespace Angle

variable {ws vs : List Word} {w : Word}

/-- A list of a text that holds no literal with quotes, and of which no words but closing brackets run
together when it is written. -/
structure StaysApart (ws : List Word) : Prop where
  unquoted : ∀ w ∈ ws, w.kind.value? = none
  apart : (fuse 0 (split ws)).IsChain fun w v => standApart w v = true

instance (ws : List Word) : Decidable (StaysApart ws) :=
  decidable_of_iff ((∀ w ∈ ws, w.kind.value? = none) ∧
      (fuse 0 (split ws)).IsChain fun w v => standApart w v = true)
    ⟨fun h => ⟨h.1, h.2⟩, fun h => ⟨h.unquoted, h.apart⟩⟩

/-! ### Closing brackets in a list -/

theorem closing_of_mem_closers {n : Nat} (h : w ∈ closers n) : closing w.kind ≠ 0 := by
  rcases mem_closers h with rfl | rfl | rfl <;> decide

theorem closers_eq_cons {n : Nat} (hn : n ≠ 0) : ∃ v vs, closers n = v :: vs ∧ closing v.kind ≠ 0 := by
  fun_cases closers n with
  | case1 => exact absurd rfl hn
  | case2 => exact ⟨_, _, rfl, by decide⟩
  | case3 => exact ⟨_, _, rfl, by decide⟩
  | case4 n => exact ⟨_, _, rfl, by decide⟩

/-- Brackets that are to be put together with others come first. -/
theorem fuse_eq_cons {n : Nat} (hn : n ≠ 0) (ws : List Word) :
    ∃ v vs, fuse n ws = v :: vs ∧ closing v.kind ≠ 0 := by
  induction ws generalizing n with
  | nil => exact closers_eq_cons hn
  | cons w ws ih =>
    rw [fuse]
    split
    · exact ih n.succ_ne_zero
    · obtain ⟨v, vs, hv, hclosing⟩ := closers_eq_cons hn
      exact ⟨v, vs ++ w :: fuse 0 ws, by rw [hv, List.cons_append], hclosing⟩

theorem fuse_split_ne_nil (w : Word) (ws : List Word) : fuse 0 (split (w :: ws)) ≠ [] := by
  by_cases hw : closing w.kind = 0
  · rw [fuse_split_cons hw]
    exact List.append_ne_nil_of_right_ne_nil _ (List.cons_ne_nil _ _)
  · obtain ⟨v, vs, hv, -⟩ := fuse_eq_cons hw (split ws)
    rw [fuse_split_closing hw, Nat.zero_add, hv]
    exact List.cons_ne_nil _ _

/-- Words at the start that close nothing are those of the list. -/
theorem prefix_of_fuse_split (hvs : ∀ v ∈ vs, closing v.kind = 0) (h : vs <+: fuse 0 (split ws)) :
    vs <+: ws := by
  induction ws generalizing vs with
  | nil => exact h
  | cons w ws ih =>
    rcases vs with _ | ⟨v, vs⟩
    · exact List.nil_prefix
    · by_cases hw : closing w.kind = 0
      · rw [fuse_split_cons hw] at h
        obtain ⟨rfl, hrest⟩ := List.cons_prefix_cons.mp h
        exact List.cons_prefix_cons.mpr ⟨rfl, ih (fun u hu => hvs u (List.mem_cons_of_mem _ hu)) hrest⟩
      · rw [fuse_split_closing hw, Nat.zero_add] at h
        obtain ⟨u, us, hu, hclosing⟩ := fuse_eq_cons hw (split ws)
        rw [hu] at h
        obtain ⟨rfl, -⟩ := List.cons_prefix_cons.mp h
        exact absurd (hvs v List.mem_cons_self) hclosing

/-- Words that close nothing do not reach into closing brackets before them. -/
theorem infix_of_closing {us : List Word} (hvs : ∀ v ∈ vs, closing v.kind = 0) (hne : vs ≠ [])
    (hus : ∀ u ∈ us, closing u.kind ≠ 0) (h : vs <:+: us ++ ws) : vs <:+: ws := by
  induction us with
  | nil => exact h
  | cons u us ih =>
    rcases List.infix_cons_iff.mp h with hstart | h
    · obtain ⟨v, vs, rfl⟩ := List.exists_cons_of_ne_nil hne
      obtain ⟨rfl, -⟩ := List.cons_prefix_cons.mp hstart
      exact absurd (hvs v List.mem_cons_self) (hus v List.mem_cons_self)
    · exact ih (fun u hu => hus u (List.mem_cons_of_mem _ hu)) h

/-- Words in a row that close nothing are in a row in the list. -/
theorem infix_of_fuse_split (hvs : ∀ v ∈ vs, closing v.kind = 0) (hne : vs ≠ []) {n : Nat}
    (h : vs <:+: fuse n (split ws)) : vs <:+: ws := by
  induction ws generalizing n with
  | nil =>
    rw [← List.append_nil (fuse n (split []))] at h
    exact infix_of_closing hvs hne (fun u hu => closing_of_mem_closers hu) h
  | cons w ws ih =>
    by_cases hw : closing w.kind = 0
    · rw [fuse_split_cons hw] at h
      have h := infix_of_closing hvs hne (fun u hu => closing_of_mem_closers hu) h
      rcases List.infix_cons_iff.mp h with hstart | h
      · obtain ⟨v, vs, rfl⟩ := List.exists_cons_of_ne_nil hne
        obtain ⟨rfl, hrest⟩ := List.cons_prefix_cons.mp hstart
        have hvs' := prefix_of_fuse_split (fun u hu => hvs u (List.mem_cons_of_mem _ hu)) hrest
        exact (List.cons_prefix_cons.mpr ⟨rfl, hvs'⟩).isInfix
      · exact (ih h).trans (List.suffix_cons w ws).isInfix
    · rw [fuse_split_closing hw] at h
      exact (ih h).trans (List.suffix_cons w ws).isInfix

/-- Three points do not come next to each other when closing brackets are put together. -/
theorem noPoints_fuse_split (h : NoPoints ws) : NoPoints (fuse 0 (split ws)) := by
  intro u v w hsub hfuses
  refine h u v w (infix_of_fuse_split ?_ (List.cons_ne_nil _ _) hsub) hfuses
  have hthird : w.kind = .mark .dot ∨ w.kind = .float := hfuses.third.imp_right And.left
  simp only [List.forall_mem_cons]
  rw [show u.kind = .mark .dot from hfuses.first, show v.kind = .mark .dot from hfuses.second]
  refine ⟨rfl, rfl, ?_, List.forall_mem_nil _⟩
  rcases hthird with hk | hk <;> rw [hk] <;> rfl

/-- The last word closes a list when closing brackets are put together, if it does so before. -/
theorem closing_getLast_fuse (h : ∀ w ∈ ws.getLast?, closing w.kind ≠ 0) (n : Nat) :
    ∀ w ∈ (fuse n (split ws)).getLast?, closing w.kind ≠ 0 := by
  induction ws generalizing n with
  | nil => exact fun w hw => closing_of_mem_closers (List.mem_of_getLast? hw)
  | cons w ws ih =>
    by_cases hw : closing w.kind = 0
    · rcases ws with _ | ⟨v, ws⟩
      · exact absurd hw (h w rfl)
      · -- the last word is behind this one
        have hlast := ih (fun u hu => h u (by rwa [List.getLast?_cons_cons])) 0
        obtain ⟨u, us, hus⟩ := List.exists_cons_of_ne_nil (fuse_split_ne_nil v ws)
        rw [hus] at hlast
        rw [fuse_split_cons hw, hus, List.getLast?_append, List.getLast?_cons_cons]
        simpa [List.getLast?_cons] using hlast
    · rw [fuse_split_closing hw]
      refine ih (fun v hv => h v ?_) _
      rcases ws with _ | ⟨u, ws⟩
      · cases hv
      · rwa [List.getLast?_cons_cons]

/-! ### Lists that are written -/

/-- All words of a list stand in some text, also with each closing bracket on its own. -/
theorem occur_split {ts : List Token} (hts : ∀ t ∈ ts, t.IsReadable) :
    ∀ w ∈ split (ts.map Token.written), w.Occurs := by
  intro w hw
  obtain ⟨u, hu, hwu⟩ := List.mem_flatMap.mp hw
  obtain ⟨t, ht, rfl⟩ := List.mem_map.mp hu
  rw [parts] at hwu
  split at hwu
  · rw [List.mem_singleton.mp hwu]
    exact (hts t ht).occurs
  · rw [List.eq_of_mem_replicate hwu]
    exact .mark _

theorem occur_closers {n : Nat} (h : w ∈ closers n) : w.Occurs := by
  rcases mem_closers h with rfl | rfl | rfl <;> exact .mark _

/-- A list of a text whose words stay apart is written, with each closing bracket on its own. -/
theorem StaysApart.isWritten {ts : List Token} (h : StaysApart (ts.map Token.written))
    (hts : ∀ t ∈ ts, t.IsReadable ∧ endsAngle t.kind = false)
    (hlist : list? (ts.map Token.written) = some (ts.map Token.written))
    (hpoints : NoPoints (ts.map Token.written)) : IsWritten (split (ts.map Token.written)) := by
  have hcaptured : IsCaptured (ts.map Token.written) := by
    rcases ts with _ | ⟨t, ts⟩
    · cases hlist
    have ht : t.written.kind = .mark .less := kindOf_of_list? hlist
    refine ⟨congrArg some ((hts t List.mem_cons_self).1.written_of_mark ht), ?_, ?_⟩
    · rwa [List.map_cons, list?, if_pos ht] at hlist
    · simpa [Token.written] using fun u hu => (hts u hu).2
  have hoccur := occur_split fun t ht => (hts t ht).1
  have hjoined : text none (fuse 0 (split (ts.map Token.written))) =
      text none (split (ts.map Token.written)) := by
    rw [text_fuse _ fun w hw => (hoccur w hw).eq_mark]
    simp
  have happart : AreApart (fuse 0 (split (ts.map Token.written))) :=
    ⟨forall_mem_fuse (fun n w hw => occur_closers hw) hoccur 0, h.apart, noPoints_fuse_split hpoints⟩
  refine happart.isWritten ?_ (closing_getLast_fuse hcaptured.closing_getLast 0) hjoined
  obtain ⟨vs, hvs⟩ := List.head?_eq_some_iff.mp hcaptured.opens
  rw [hvs]
  rfl

/-- The words of a list that is read back stand apart. -/
theorem IsWhole.areApart (h : IsWhole ws) : AreApart (fuse 0 ws) := by
  have hspells := h.writes [] [] (by simp) .done
  rw [List.append_nil, List.append_nil] at hspells
  have hreads := reads_of_spells hspells
  rw [← h.joined] at hreads
  exact areApart_of_reads hreads

/-- Lists of types whose words do not clash stay apart. -/
theorem IsClosed.staysApart {ts : List Token} (h : IsClosed (ts.map Token.written))
    (hts : ∀ t ∈ ts, t.IsReadable) (hopen : kindOf ts = .mark .less)
    (hclash : NoClash (ts.map Token.written)) : StaysApart (ts.map Token.written) where
  unquoted := by
    intro w hw
    have htype := h.inType w hw
    generalize w.kind = k at htype
    cases k <;> first | rfl | cases htype
  apart := (h.isList hts hopen hclash).isWhole.areApart.apart

end Angle

end JavaTree
