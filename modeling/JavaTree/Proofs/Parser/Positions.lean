import JavaTree.Proofs.Parser.Built
import JavaTree.Proofs.Parser.Loops
import JavaTree.Proofs.SpanTree
import JavaTree.Proofs.Token.Places

/-!
Positions among the tokens, and nodes between them.

Reading is at a position among the tokens and only moves forward, whatever faults it meets and passes
over. A node starts at the position where its reader does, and ends with the last token before the
position where that is done. So a node lies between two positions, a row of nodes is cut into stretches
that follow each other, and the node around them reaches over all of their stretches.

    position   k               m               k'
               ├─── first ───┤ ├─── second ──┤
               ├────────── the node ─────────┤
-/

namespace JavaTree.Parser

open SpanTree

variable {α β : Type} {ts : List Token} {c : Settings} {s : State} {k m k' : Nat}

/-! ### Positions -/

/-- A state in which some of the tokens have been passed over. -/
structure At (ts : List Token) (k : Nat) (s : State) : Prop where
  le : k ≤ ts.length
  rest : s.rest = ts.drop k
  last : s.last = (ts.take k).getLast?.map Token.location

theorem At.skip (h : At ts k s) (n : Nat) : At ts (min (k + n) ts.length) (s.skip n) := by
  have htake : ts.take (min (k + n) ts.length) = ts.take k ++ (ts.drop k).take n := by
    rw [← List.take_add]
    exact (List.take_eq_take_min).symm
  refine ⟨Nat.min_le_right _ _, ?_, ?_⟩
  · rw [skip_rest, h.rest, List.drop_drop]
    exact List.drop_eq_drop_min
  · rw [htake, List.getLast?_append, State.skip, h.rest, h.last]
    dsimp only
    cases ((ts.drop k).take n).getLast? <;> rfl

theorem At.skip_one (h : At ts k s) (hne : s.rest ≠ []) : At ts (k + 1) (s.skip 1) := by
  have hlt : k < ts.length := by
    rw [h.rest] at hne
    exact Nat.lt_of_not_le fun hle => hne (List.drop_eq_nil_of_le hle)
  have hskip := h.skip 1
  rwa [Nat.min_eq_left hlt] at hskip

theorem At.lt_of_length {s' : State} (hs : At ts k s) (hs' : At ts k' s')
    (h : s'.rest.length < s.rest.length) : k < k' := by
  rw [hs.rest, hs'.rest, List.length_drop, List.length_drop] at h
  omega

/-- A run that ends at a position no earlier than the given one. -/
def Reaches (ts : List Token) (k : Nat) (r : EStateM.Result Diagnostic State α) : Prop :=
  ∃ k', k ≤ k' ∧ At ts k' (final r)

theorem At.reaches (hs : At ts k s) (a : α) : Reaches ts k (.ok a s) := ⟨k, Nat.le_refl k, hs⟩

theorem reaches_bind {p : Parser α} {f : α → Parser β} (hp : Reaches ts k (p c s))
    (hf : ∀ a m s', At ts m s' → Reaches ts m (f a c s')) : Reaches ts k ((p >>= f) c s) := by
  obtain ⟨m, hm, hs'⟩ := hp
  rw [bind_run]
  cases hrun : p c s with
  | ok a s' =>
    rw [hrun] at hs'
    obtain ⟨k', hk', hs''⟩ := hf a m s' hs'
    exact ⟨k', hm.trans hk', hs''⟩
  | error d s' =>
    rw [hrun] at hs'
    exact ⟨m, hm, hs'⟩

theorem reaches_report (d : Diagnostic) (hs : At ts k s) : Reaches ts k (report d c s) := by
  have hnoted : At ts k (s.noted d) := ⟨hs.le, hs.rest, hs.last⟩
  rw [report_run]
  split
  · split <;> exact ⟨k, Nat.le_refl k, hnoted⟩
  · exact ⟨k, Nat.le_refl k, hs⟩

theorem reaches_recover {p resume : Parser α} (hp : Reaches ts k (p c s))
    (hresume : ∀ m s', At ts m s' → Reaches ts m (resume c s')) :
    Reaches ts k (recover p resume c s) := by
  obtain ⟨m, hm, hs'⟩ := hp
  rw [recover_run]
  cases hrun : p c s with
  | ok a s' =>
    rw [hrun] at hs'
    exact ⟨m, hm, hs'⟩
  | error d s' =>
    rw [hrun] at hs'
    obtain ⟨k', hk', hs''⟩ := reaches_bind (reaches_report d hs') fun _ => hresume
    exact ⟨k', hm.trans hk', hs''⟩

/-- Reading goes from a position to a later one. -/
theorem Built.reaches {p : Parser α} (h : Built (fun _ => True) p) (hs : At ts k s) :
    Reaches ts k (p c s) := by
  induction h generalizing k s with
  | pure a => exact hs.reaches a
  | look f hrun hbudget =>
    rw [hrun]
    exact hs.reaches _
  | read hbudget hf ih =>
    rw [bind_run_ok read_run]
    exact ih c hs
  | skip n hrun =>
    rw [hrun]
    exact ⟨_, Nat.le_min.mpr ⟨Nat.le_add_right _ _, hs.le⟩, hs.skip _⟩
  | note e => exact ⟨k, Nat.le_refl k, hs.le, hs.rest, hs.last⟩
  | stop f hrun hgoes hplace hbudget =>
    rw [hrun]
    exact ⟨k, Nat.le_refl k, hs⟩
  | report f n hrun hgoes hplace hbudget =>
    obtain ⟨m, hm, hs'⟩ := reaches_report (f c s) (hs.skip (n s))
    rw [hrun]
    exact ⟨m, (Nat.le_min.mpr ⟨Nat.le_add_right _ _, hs.le⟩).trans hm, hs'⟩
  | bind hp hf ihp ihf => exact reaches_bind (ihp hs) fun a _ _ hs' => ihf a hs'
  | recover hp hresume ihp ihresume => exact reaches_recover (ihp hs) fun _ _ hs' => ihresume hs'

/-! ### Nodes between two positions -/

/-- A span from one token to another. -/
structure Covers (ts : List Token) (i j : Nat) (span : Span) : Prop where
  first : ∃ t, ts[i]? = some t ∧ t.location = span.first
  last : ∃ t, ts[j]? = some t ∧ t.location = span.last

/-- A node with all that is in it nests, and its tokens lie between two positions. -/
def Lies (ts : List Token) (k k' : Nat) (t : SpanTree) : Prop :=
  t.Nests ts ∧ ∃ i j, k ≤ i ∧ i ≤ j ∧ j < k' ∧ Covers ts i j t.span

/-- Nodes between two positions that follow each other. -/
structure Row (ts : List Token) (k k' : Nat) (row : List SpanTree) : Prop where
  lies : ∀ t ∈ row, Lies ts k k' t
  inOrder : row.Pairwise Before

theorem Lies.mono {t : SpanTree} (h : Lies ts m k' t) {l l' : Nat} (hm : l ≤ m) (hk' : k' ≤ l') :
    Lies ts l l' t := by
  obtain ⟨hnests, i, j, hi, hij, hj, hcovers⟩ := h
  exact ⟨hnests, i, j, hm.trans hi, hij, hj.trans_le hk', hcovers⟩

theorem Lies.lt {t : SpanTree} (h : Lies ts k k' t) : k < k' := by
  obtain ⟨-, i, j, hi, hij, hj, -⟩ := h
  omega

theorem Row.mono {row : List SpanTree} (h : Row ts m k' row) {l l' : Nat} (hm : l ≤ m) (hk' : k' ≤ l') :
    Row ts l l' row :=
  ⟨fun t ht => (h.lies t ht).mono hm hk', h.inOrder⟩

theorem row_nil : Row ts k k' [] := ⟨nofun, .nil⟩

theorem row_single {t : SpanTree} (h : Lies ts k k' t) : Row ts k k' [t] :=
  ⟨fun _ hu => List.mem_singleton.mp hu ▸ h, List.pairwise_singleton _ _⟩

section Sorted

variable (hsorted : ts.Pairwise fun a b => a.location < b.location)

include hsorted

theorem lt_of_position {i j : Nat} {a b : Token} (hij : i < j) (ha : ts[i]? = some a)
    (hb : ts[j]? = some b) : a.location < b.location := by
  obtain ⟨hi, rfl⟩ := List.getElem?_eq_some_iff.mp ha
  obtain ⟨hj, rfl⟩ := List.getElem?_eq_some_iff.mp hb
  exact List.pairwise_iff_getElem.mp hsorted i j hi hj hij

theorem le_of_position {i j : Nat} {a b : Token} (hij : i ≤ j) (ha : ts[i]? = some a)
    (hb : ts[j]? = some b) : a.location ≤ b.location := by
  rcases Nat.lt_or_eq_of_le hij with hlt | rfl
  · exact Location.le_of_lt (lt_of_position hsorted hlt ha hb)
  · obtain rfl := Option.some.inj (ha.symm.trans hb)
    exact Location.le_refl _

/-- A stretch of a row, and the next one. -/
theorem row_append {row row' : List SpanTree} (h : Row ts k m row) (h' : Row ts m k' row')
    (hkm : k ≤ m) (hmk' : m ≤ k') : Row ts k k' (row ++ row') := by
  refine ⟨fun t ht => ?_, List.pairwise_append.mpr ⟨h.inOrder, h'.inOrder, fun a ha b hb => .inl ?_⟩⟩
  · rcases List.mem_append.mp ht with ht | ht
    · exact (h.lies t ht).mono (Nat.le_refl _) hmk'
    · exact (h'.lies t ht).mono hkm (Nat.le_refl _)
  · obtain ⟨-, -, j, -, -, hj, -, ⟨t, ht, hlast⟩⟩ := h.lies a ha
    obtain ⟨-, i, -, hi, -, -, ⟨u, hu, hfirst⟩, -⟩ := h'.lies b hb
    rw [← hlast, ← hfirst]
    exact lt_of_position hsorted (hj.trans_le hi) ht hu

theorem row_cons {t : SpanTree} {row : List SpanTree} (h : Lies ts k m t) (h' : Row ts m k' row)
    (hkm : k ≤ m) (hmk' : m ≤ k') : Row ts k k' (t :: row) :=
  row_append hsorted (row_single h) h' hkm hmk'

/-- A node that reaches over its rows. -/
theorem lies_node {span : Span} {isField : Bool} {rows : List (List SpanTree)}
    (hspan : Covers ts k (k' - 1) span) (hk : k < k') (hrows : ∀ row ∈ rows, Row ts k k' row) :
    Lies ts k k' (.node span isField rows) := by
  obtain ⟨⟨t, ht, hfirst⟩, ⟨u, hu, hlast⟩⟩ := id hspan
  refine ⟨.node ⟨t, List.mem_of_getElem? ht, hfirst⟩ ⟨u, List.mem_of_getElem? hu, hlast⟩ ?_ ?_
    (fun row hrow => (hrows row hrow).inOrder) (fun row hrow t ht => ((hrows row hrow).lies t ht).1),
    k, k' - 1, Nat.le_refl _, by omega, by omega, hspan⟩
  · rw [← hfirst, ← hlast]
    exact le_of_position hsorted (by omega) ht hu
  · intro row hrow x hx
    obtain ⟨-, i, j, hi, hij, hj, ⟨v, hv, hfirst'⟩, ⟨w, hw, hlast'⟩⟩ := (hrows row hrow).lies x hx
    rw [Span.IsInside, ← hfirst, ← hlast, ← hfirst', ← hlast']
    exact ⟨le_of_position hsorted hi ht hv, le_of_position hsorted (by omega) hw hu⟩

/-- A node that is nothing but another one. -/
theorem lies_wrap {t : SpanTree} (h : Lies ts k k' t) : Lies ts k k' (.node t.span false [[t]]) := by
  obtain ⟨hnests, i, j, hi, hij, hj, hspan⟩ := h
  have hrow : Row ts i (j + 1) [t] :=
    row_single ⟨hnests, i, j, Nat.le_refl _, hij, Nat.lt_succ_self _, hspan⟩
  have hnode : Lies ts i (j + 1) (.node t.span false [[t]]) :=
    lies_node hsorted hspan (Nat.lt_succ_of_le hij) fun row h => List.mem_singleton.mp h ▸ hrow
  exact hnode.mono hi hj

end Sorted

/-! ### Readers of nodes -/

/-- Results of a reader at a position have a property, which speaks of the position behind them. -/
def Lays (ts : List Token) (c : Settings) (k : Nat) (Q : Nat → α → Prop) (p : Parser α) : Prop :=
  ∀ ⦃s⦄, At ts k s → ∀ ⦃a s'⦄, p c s = .ok a s' → ∃ k', k ≤ k' ∧ At ts k' s' ∧ Q k' a

section Rules

variable {P : Nat → α → Prop} {Q : Nat → β → Prop}

theorem Lays.mono {P' : Nat → α → Prop} {p : Parser α} (h : Lays ts c k P p)
    (hP : ∀ k' a, k ≤ k' → P k' a → P' k' a) : Lays ts c k P' p := by
  intro s hs a s' hrun
  obtain ⟨k', hk', hs', hQ⟩ := h hs hrun
  exact ⟨k', hk', hs', hP k' a hk' hQ⟩

theorem lays_pure {a : α} (h : P k a) : Lays ts c k P (pure a) := by
  intro s hs b s' hrun
  cases hrun
  exact ⟨k, Nat.le_refl k, hs, h⟩

theorem lays_built {p : Parser α} (h : Built (fun _ => True) p) : Lays ts c k (fun _ _ => True) p := by
  intro s hs a s' hrun
  obtain ⟨k', hk', hs'⟩ := h.reaches (c := c) hs
  rw [hrun] at hs'
  exact ⟨k', hk', hs', trivial⟩

theorem lays_bind {p : Parser α} {f : α → Parser β} (hp : Lays ts c k P p)
    (hf : ∀ a m, k ≤ m → P m a → Lays ts c m Q (f a)) : Lays ts c k Q (p >>= f) := by
  intro s hs b s' hrun
  obtain ⟨a, t, hfirst, hsecond⟩ := bind_eq_ok.mp hrun
  obtain ⟨m, hm, ht, hP⟩ := hp hs hfirst
  obtain ⟨k', hk', hs', hQ⟩ := hf a m hm hP ht hsecond
  exact ⟨k', hm.trans hk', hs', hQ⟩

/-- A step that is no node. -/
theorem lays_step {p : Parser α} {f : α → Parser β} (hp : Built (fun _ => True) p)
    (hf : ∀ a m, k ≤ m → Lays ts c m Q (f a)) : Lays ts c k Q (p >>= f) :=
  lays_bind (lays_built hp) fun a m hm _ => hf a m hm

/-- A step that stays at its position. -/
theorem lays_look {p : Parser α} {g : State → α} {f : α → Parser β} (hrun : ∀ s, p c s = .ok (g s) s)
    (hf : ∀ a, Lays ts c k Q (f a)) : Lays ts c k Q (p >>= f) := by
  intro s hs b s' hrun'
  rw [bind_run_ok (hrun s)] at hrun'
  exact hf _ hs hrun'

theorem lays_map {p : Parser α} {f : α → β} (hp : Lays ts c k P p)
    (hf : ∀ k' a, k ≤ k' → P k' a → Q k' (f a)) : Lays ts c k Q (f <$> p) := by
  rw [← bind_pure_comp]
  exact lays_bind hp fun a m hm ha => lays_pure (hf m a hm ha)

theorem lays_ite {b : Prop} [Decidable b] {p q : Parser α} (hp : Lays ts c k P p)
    (hq : Lays ts c k P q) : Lays ts c k P (if b then p else q) := by
  split
  · exact hp
  · exact hq

/-- A choice between two readers with one continuation. -/
theorem lays_join {b : Prop} [Decidable b] {p q : Parser α} {f : α → Parser β}
    (hp : Lays ts c k P p) (hq : Lays ts c k P q) (hf : ∀ a m, k ≤ m → P m a → Lays ts c m Q (f a)) :
    Lays ts c k Q (if b then p >>= f else q >>= f) :=
  lays_ite (lays_bind hp hf) (lays_bind hq hf)

theorem lays_fail (expected : String) : Lays ts c k P (fail expected) := by
  intro s hs a s' hrun
  rw [fail_run] at hrun
  cases hrun

theorem lays_throw (d : Diagnostic) : Lays ts c k P (throw d) := fun _ _ _ _ hrun => by cases hrun

theorem lays_read {f : Settings → Parser α} (h : ∀ c', Lays ts c k P (f c')) :
    Lays ts c k P (read >>= f) := by
  intro s hs a s' hrun
  rw [bind_run_ok read_run] at hrun
  exact h c hs hrun

theorem lays_recover {p resume : Parser α} (hp : Lays ts c k P p) (hbuilt : Built (fun _ => True) p)
    (hresume : ∀ m, k ≤ m → Lays ts c m P resume) : Lays ts c k P (recover p resume) := by
  intro s hs a s' hrun
  rcases recover_eq_ok.mp hrun with hfirst | ⟨d, t, hstop, hlast⟩
  · exact hp hs hfirst
  · -- a reader that stops has moved on, too, and reading resumes from there
    have hreaches := hbuilt.reaches (c := c) hs
    rw [hstop] at hreaches
    obtain ⟨m, hm, ht : At ts m t⟩ := hreaches
    obtain ⟨_, u, hreport, hlast⟩ := bind_eq_ok.mp hlast
    obtain ⟨m', hm', hu⟩ := reaches_report (c := c) d ht
    rw [hreport] at hu
    obtain ⟨k', hk', hs', hP⟩ := hresume m' (hm.trans hm') hu hlast
    exact ⟨k', (hm.trans hm').trans hk', hs', hP⟩

/-- The place of the token at a position. -/
def StandsAt (ts : List Token) (k : Nat) (l : Location) : Prop := ∀ t, ts[k]? = some t → t.location = l

theorem At.standsAt (hs : At ts k s) : StandsAt ts k (s.next c).location := by
  intro t ht
  rw [State.next, hs.rest]
  obtain ⟨hk, rfl⟩ := List.getElem?_eq_some_iff.mp ht
  rw [List.drop_eq_getElem_cons hk]
  rfl

theorem lays_here {f : Location → Parser α} (h : ∀ l, StandsAt ts k l → Lays ts c k P (f l)) :
    Lays ts c k P (here >>= f) := by
  intro s hs a s' hrun
  rw [bind_run_ok here_run] at hrun
  exact h _ hs.standsAt hs hrun

/-- The place of the last token before a position. -/
theorem At.last_eq (hs : At ts k s) (hk : 0 < k) :
    ∃ t, ts[k - 1]? = some t ∧ s.last = some t.location := by
  have hlt : k - 1 < ts.length := Nat.lt_of_lt_of_le (Nat.sub_one_lt (Nat.ne_of_gt hk)) hs.le
  refine ⟨ts[k - 1], List.getElem?_eq_getElem hlt, ?_⟩
  rw [hs.last, List.getLast?_eq_getElem?, List.length_take_of_le hs.le,
    List.getElem?_take_of_lt (Nat.sub_one_lt (Nat.ne_of_gt hk)), List.getElem?_eq_getElem hlt]
  rfl

section Sorted

variable (hsorted : ts.Pairwise fun a b => a.location < b.location)

include hsorted

/-- The span from the token at a position to the last one that has been passed over. -/
theorem covers_spanFrom (hs : At ts k s) {start : Location} (hstart : StandsAt ts m start) (hm : m < k) :
    Covers ts m (k - 1) (s.spanFrom c start) := by
  obtain ⟨u, hu, hlast⟩ := hs.last_eq (Nat.zero_lt_of_lt hm)
  have hlt : m < ts.length := Nat.lt_of_lt_of_le hm hs.le
  have ht : ts[m]? = some ts[m] := List.getElem?_eq_getElem hlt
  have hfirst : ts[m].location = start := hstart _ ht
  -- the last token is not before the first one, so the span is no single place
  have hle : ¬ u.location < start := hfirst ▸ le_of_position hsorted (by omega) ht hu
  rw [State.spanFrom, hlast, Option.getD_some, Span.between, if_neg hle]
  exact ⟨⟨_, ht, hfirst⟩, u, hu, rfl⟩

/-- The step that gives a node its span. -/
theorem lays_spannedThen {start : Location} (hstart : StandsAt ts m start) {f : Span → Parser α}
    (h : ∀ span, (m < k → Covers ts m (k - 1) span) → Lays ts c k P (f span)) :
    Lays ts c k P (spanFrom start >>= f) := by
  intro s hs a s' hrun
  rw [bind_run_ok (spanFrom_run start)] at hrun
  exact h _ (fun hm => covers_spanFrom hsorted hs hstart hm) hs hrun

/-- A node that ends with its span. -/
theorem lays_spanned {start : Location} (hstart : StandsAt ts m start) {make : Span → α}
    (h : ∀ span, (m < k → Covers ts m (k - 1) span) → P k (make span)) :
    Lays ts c k P (do return make (← spanFrom start)) :=
  lays_spannedThen hsorted hstart fun span hspan => lays_pure (h span hspan)

end Sorted

/-- A token that should not stand there is reported. -/
theorem lays_reportUnexpected {expected : String} {f : Unit → Parser α}
    (hf : ∀ m, k ≤ m → Lays ts c m P (f ())) :
    Lays ts c k P (do f (← report (← unexpected expected))) := by
  intro s hs a s' hrun
  rw [bind_run_ok (unexpected_run expected)] at hrun
  obtain ⟨_, t, hreport, hlast⟩ := bind_eq_ok.mp hrun
  obtain ⟨m, hm, ht⟩ := reaches_report (c := c) (mismatch c.faults expected (s.next c)) hs
  rw [hreport] at ht
  obtain ⟨k', hk', hs', hP⟩ := hf m hm ht hlast
  exact ⟨k', hm.trans hk', hs', hP⟩

/-- A missing closing brace is reported. -/
theorem lays_close {expected : String} {p : Parser α} (hp : ∀ m, k ≤ m → Lays ts c m P p) :
    Lays ts c k P (do
      if !(← accept Mark.closeBrace) then
        report (← unexpected expected)
      p) := by
  refine lays_step (built_accept _) fun _ m hm => lays_ite ?_ (hp m hm)
  exact lays_reportUnexpected (f := fun _ => p) fun m' hm' => hp m' (hm.trans hm')

/-- An attempt that is given up has no result to speak of. -/
theorem lays_attempt {p : Parser α} (hp : Lays ts c k P p) (hbuilt : Built (fun _ => True) p) :
    Lays ts c k (fun k' r => ∀ a, r = .ok a → P k' a) (attempt p) := by
  intro s hs r s' hrun
  rcases attempt_eq_ok.mp hrun with ⟨a, rfl, hfirst⟩ | ⟨d, rfl, hstop⟩
  · obtain ⟨k', hk', hs', hP⟩ := hp hs hfirst
    exact ⟨k', hk', hs', fun _ h => Except.ok.inj h ▸ hP⟩
  · have hreaches := hbuilt.reaches (c := c) hs
    rw [hstop] at hreaches
    obtain ⟨k', hk', hs'⟩ := hreaches
    exact ⟨k', hk', hs', nofun⟩

/-- A token that is accepted is passed over. -/
theorem lays_accept {w : Kind} (hw : w ≠ .endOfInput) :
    Lays ts c k (fun m found => found = true → k < m) (accept w) := by
  intro s hs found s' hrun
  obtain ⟨m, hm, hs', -⟩ := lays_built (built_accept w) hs hrun
  refine ⟨m, hm, hs', ?_⟩
  rintro rfl
  exact hs.lt_of_length hs' (behind_of_accept hrun hw).2

/-- Positions lie among the tokens. -/
theorem lays_le {p : Parser α} (hp : Lays ts c k (fun k' a => k' ≤ ts.length → P k' a) p) :
    Lays ts c k P p := by
  intro s hs a s' hrun
  obtain ⟨k', hk', hs', hP⟩ := hp hs hrun
  exact ⟨k', hk', hs', hP hs'.le⟩

/-- A reader that leaves less than it was given ends at a later position. -/
theorem lays_shorter {p : Parser α} (hp : Lays ts c k (fun k' a => k < k' → P k' a) p)
    (hshorter : ∀ s a s', p c s = .ok a s' → s'.rest.length < s.rest.length) : Lays ts c k P p := by
  intro s hs a s' hrun
  obtain ⟨k', hk', hs', hP⟩ := hp hs hrun
  exact ⟨k', hk', hs', hP (hs.lt_of_length hs' (hshorter s a s' hrun))⟩

/-- A reader of a node passes over a token at least. -/
theorem lays_moved {p : Parser α} (hp : Lays ts c k (fun k' a => k < k' → P k' a) p)
    (hmoves : ∀ s, Moves s (p c s)) : Lays ts c k P p :=
  lays_shorter hp fun s a s' hrun => (hmoves s a s' hrun).2

theorem lays_identifier : Lays ts c k (fun k' _ => k < k') identifier :=
  lays_moved ((lays_built built_identifier).mono fun _ _ _ _ h => h) fun _ => moves_identifier

end Rules

/-- The tokens of an excerpt lie between the positions of its reader. -/
theorem covers_excerpt {e : Excerpt} (hne : e.tokens ≠ []) (hk : k ≤ ts.length) (hk' : k' ≤ ts.length)
    (htokens : ts.drop k = e.tokens ++ ts.drop k') : k < k' ∧ Covers ts k (k' - 1) e.span := by
  have hpos := List.length_pos_iff.mpr hne
  have hlength := congrArg List.length htokens
  rw [List.length_append, List.length_drop, List.length_drop] at hlength
  have hat (i : Nat) (hi : i < e.tokens.length) : ts[k + i]? = some e.tokens[i] := by
    rw [← List.getElem?_drop, htokens, List.getElem?_append_left hi, List.getElem?_eq_getElem hi]
  have hspan : e.span = ⟨(e.tokens.head hne).location, (e.tokens.getLast hne).location⟩ := by
    rw [Excerpt.span, List.head?_eq_some_head hne, List.getLast?_eq_some_getLast hne]
  have hlast : k' - 1 = k + (e.tokens.length - 1) := by omega
  refine ⟨by omega, ⟨e.tokens.head hne, ?_, by rw [hspan]⟩, e.tokens.getLast hne, ?_, by rw [hspan]⟩
  · rw [List.head_eq_getElem]
    exact hat 0 hpos
  · rw [hlast, List.getLast_eq_getElem]
    exact hat _ (Nat.sub_one_lt (Nat.ne_of_gt hpos))

end JavaTree.Parser
