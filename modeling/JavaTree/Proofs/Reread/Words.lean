import JavaTree.Proofs.Parser.Run
import JavaTree.Proofs.Token.Spelling

/-!
Reading words back.

A run `Yields` a result of some sort when it has one, passes over exactly the tokens before the ones
that are left, and records no finding. Each reader yields a part of the tree when the tokens ahead
begin with the words of that part, and what comes behind them does not go on with it. This is shown
here for the steps of the parser, and elsewhere for the readers that are made of them.
-/

namespace JavaTree.Parser

variable {α β : Type} {c : Settings} {s : State} {ts rest mid : List Token} {w : Word}
  {ws vs : List Word}

/-! ### Words ahead -/

/-- The tokens begin with the given words, and go on with the rest. -/
def Begins (ts : List Token) (ws : List Word) (rest : List Token) : Prop :=
  ∃ us, ts = us ++ rest ∧ us.map Token.word = ws

theorem begins_nil : Begins ts [] rest ↔ ts = rest := by
  constructor
  · rintro ⟨us, rfl, hus⟩
    rw [List.map_eq_nil_iff.mp hus]
    rfl
  · rintro rfl
    exact ⟨[], rfl, rfl⟩

theorem begins_cons :
    Begins ts (w :: ws) rest ↔ ∃ t us, ts = t :: us ∧ t.word = w ∧ Begins us ws rest := by
  constructor
  · rintro ⟨us, rfl, hus⟩
    obtain ⟨t, us, rfl, ht, hus⟩ := List.map_eq_cons_iff.mp hus
    exact ⟨t, us ++ rest, rfl, ht, us, rfl, hus⟩
  · rintro ⟨t, _, rfl, rfl, us, rfl, rfl⟩
    exact ⟨t :: us, rfl, rfl⟩

theorem begins_append :
    Begins ts (ws ++ vs) rest ↔ ∃ mid, Begins ts ws mid ∧ Begins mid vs rest := by
  constructor
  · rintro ⟨us, rfl, hus⟩
    obtain ⟨us, us', rfl, hus, hus'⟩ := List.map_eq_append_iff.mp hus
    exact ⟨us' ++ rest, ⟨us, by rw [List.append_assoc], hus⟩, us', rfl, hus'⟩
  · rintro ⟨_, ⟨us, rfl, rfl⟩, us', rfl, rfl⟩
    exact ⟨us ++ us', by rw [List.append_assoc], by rw [List.map_append]⟩

theorem Begins.kindOf (h : Begins ts (w :: ws) rest) : kindOf ts = w.kind := by
  obtain ⟨t, us, rfl, rfl, -⟩ := begins_cons.mp h
  rfl

theorem Begins.tail (h : Begins ts (w :: ws) rest) : Begins (ts.drop 1) ws rest := by
  obtain ⟨t, us, rfl, -, h⟩ := begins_cons.mp h
  exact h

theorem Begins.length_eq (h : Begins ts ws rest) : ts.length = ws.length + rest.length := by
  obtain ⟨us, rfl, rfl⟩ := h
  simp

theorem Begins.drop (h : Begins ts ws rest) : ts.drop ws.length = rest := by
  obtain ⟨us, rfl, rfl⟩ := h
  simp

theorem Begins.startsWith {w' : Word} (h : Begins ts (w :: w' :: ws) rest) (a b : Kind) :
    startsWith a b ts = (decide (w.kind = a) && decide (w'.kind = b)) := by
  obtain ⟨t, us, rfl, rfl, h'⟩ := begins_cons.mp h
  obtain ⟨t', us, rfl, rfl, -⟩ := begins_cons.mp h'
  rfl

theorem startsWith_eq_false {a b : Kind} (h : kindOf ts ≠ a) : startsWith a b ts = false := by
  rcases ts with _ | ⟨t, _ | ⟨u, us⟩⟩
  · rfl
  · rfl
  · have ht : t.kind ≠ a := h
    simp [startsWith, ht]

/-! ### Runs that yield a result -/

/-- All caps leave room for the tokens. -/
structure Roomy (c : Settings) (ts : List Token) : Prop where
  statements : ts.length ≤ c.limits.blockStatements
  tokens : ts.length ≤ c.limits.excerptTokens
  members : ts.length ≤ c.limits.typeMembers

theorem Roomy.of_le (h : Roomy c ts) (hle : rest.length ≤ ts.length) : Roomy c rest :=
  ⟨Nat.le_trans hle h.statements, Nat.le_trans hle h.tokens, Nat.le_trans hle h.members⟩

/-- Where all caps leave room, a run has a result of the given sort, leaves the given tokens, and
records no finding. -/
def Yields (c : Settings) (s : State) (p : Parser α) (rest : List Token) (R : α → Prop) : Prop :=
  Roomy c s.rest → ∃ a s', p c s = .ok a s' ∧ s'.rest = rest ∧ s'.diagnostics = s.diagnostics ∧
    Roomy c rest ∧ R a

variable {R Q : α → Prop}

theorem yields_pure {a : α} (hs : s.rest = rest) (ha : R a) : Yields c s (pure a) rest R :=
  fun hroom => ⟨a, s, rfl, hs, rfl, hs ▸ hroom, ha⟩

theorem Yields.mono {p : Parser α} (h : Yields c s p rest R) (hR : ∀ a, R a → Q a) :
    Yields c s p rest Q := by
  intro hroom
  obtain ⟨a, s', hp, hrest, hdiag, hroom', ha⟩ := h hroom
  exact ⟨a, s', hp, hrest, hdiag, hroom', hR a ha⟩

/-- That all caps leave room may be used to show what a run yields. -/
theorem yields_of_roomy {p : Parser α} (h : Roomy c s.rest → Yields c s p rest R) :
    Yields c s p rest R :=
  fun hroom => h hroom hroom

/-- A sequence yields what its last part yields. -/
theorem Yields.bind {p : Parser β} {f : β → Parser α} {P : β → Prop} (hp : Yields c s p mid P)
    (hf : ∀ b s', s'.rest = mid → P b → Yields c s' (f b) rest R) :
    Yields c s (p >>= f) rest R := by
  intro hroom
  obtain ⟨b, s', hb, hmid, hdiag, hroom', hP⟩ := hp hroom
  obtain ⟨a, s'', ha, hrest, hdiag', hroom'', hR⟩ := hf b s' hmid hP (hmid ▸ hroom')
  exact ⟨a, s'', by rw [bind_run_ok hb, ha], hrest, by rw [hdiag', hdiag], hroom'', hR⟩

theorem Yields.map {p : Parser β} {f : β → α} {P : β → Prop} (hp : Yields c s p rest P)
    (hf : ∀ b, P b → R (f b)) : Yields c s (f <$> p) rest R := by
  intro hroom
  obtain ⟨b, s', hb, hrest, hdiag, hroom', hP⟩ := hp hroom
  exact ⟨f b, s', by rw [map_run, hb], hrest, hdiag, hroom', hf b hP⟩

theorem Yields.recover {p : Parser α} (hp : Yields c s p rest R) (resume : Parser α) :
    Yields c s (recover p resume) rest R := by
  intro hroom
  obtain ⟨a, s', ha, h⟩ := hp hroom
  exact ⟨a, s', by rw [recover_run, ha], h⟩

/-- A reader that only looks at what is ahead. -/
theorem yields_look {p : Parser β} {b : β} (hp : p c s = .ok b s) (f : β → Parser α) :
    Yields c s (p >>= f) rest R ↔ Yields c s (f b) rest R := by
  unfold Yields
  rw [bind_run_ok hp]

@[simp] theorem yields_here (f : Location → Parser α) :
    Yields c s (here >>= f) rest R ↔ Yields c s (f (s.next c).location) rest R :=
  yields_look here_run f

@[simp] theorem yields_spanFrom (l : Location) (f : Span → Parser α) :
    Yields c s (Parser.spanFrom l >>= f) rest R ↔ Yields c s (f (s.spanFrom c l)) rest R :=
  yields_look (spanFrom_run l) f

@[simp] theorem yields_rest (f : List Token → Parser α) :
    Yields c s (Parser.rest >>= f) rest R ↔ Yields c s (f s.rest) rest R :=
  yields_look rest_run f

@[simp] theorem yields_steps (f : Nat → Parser α) :
    Yields c s (steps >>= f) rest R ↔ Yields c s (f (s.rest.length + 1)) rest R :=
  yields_look steps_run f

@[simp] theorem yields_kind (f : Kind → Parser α) :
    Yields c s (kind >>= f) rest R ↔ Yields c s (f (kindOf s.rest)) rest R :=
  yields_look kind_run f

@[simp] theorem yields_secondKind (f : Kind → Parser α) :
    Yields c s (secondKind >>= f) rest R ↔ Yields c s (f (kindOf (s.rest.drop 1))) rest R :=
  yields_look secondKind_run f

@[simp] theorem yields_check (k : Kind) (f : Bool → Parser α) :
    Yields c s (check k >>= f) rest R ↔ Yields c s (f (decide (kindOf s.rest = k))) rest R :=
  yields_look (check_run k) f

@[simp] theorem yields_peek (f : Token → Parser α) :
    Yields c s (peek >>= f) rest R ↔ Yields c s (f (s.next c)) rest R :=
  yields_look peek_run f

@[simp] theorem yields_read (f : Settings → Parser α) :
    Yields c s (read >>= f) rest R ↔ Yields c s (f c) rest R :=
  yields_look read_run f

/-- Passing over the tokens of some words. -/
theorem yields_skip {n : Nat} (hs : Begins s.rest ws mid) (hn : n = ws.length) {f : Unit → Parser α}
    (hf : ∀ s', s'.rest = mid → Yields c s' (f ()) rest R) : Yields c s (skip n >>= f) rest R := by
  intro hroom
  have hmid : (s.skip n).rest = mid := by
    rw [skip_rest, hn]
    exact hs.drop
  have hroom' : Roomy c (s.skip n).rest := hroom.of_le (by rw [hmid, hs.length_eq]; omega)
  obtain ⟨a, s', ha, hrest, hdiag, hroom'', hR⟩ := hf (s.skip n) hmid hroom'
  exact ⟨a, s', by rw [bind_run_ok (skip_run n), ha], hrest, by rw [hdiag, skip_diagnostics],
    hroom'', hR⟩

/-- Passing over one word. -/
theorem yields_skip_one (hs : Begins s.rest (w :: ws) rest) {f : Unit → Parser α}
    (hf : ∀ s', Begins s'.rest ws rest → Yields c s' (f ()) rest R) :
    Yields c s (skip 1 >>= f) rest R := by
  rw [← List.singleton_append, begins_append] at hs
  obtain ⟨mid, hw, hws⟩ := hs
  exact yields_skip hw rfl fun s' hs' => hf s' (hs' ▸ hws)

theorem yields_require {k : Kind} (hs : Begins s.rest (w :: ws) rest) (hk : w.kind = k)
    (expected : String) {f : Unit → Parser α}
    (hf : ∀ s', Begins s'.rest ws rest → Yields c s' (f ()) rest R) :
    Yields c s (require k expected >>= f) rest R := by
  have hrun : require k expected c s = skip 1 c s := by
    rw [require_run, if_pos (by rw [hs.kindOf, hk]), skip_run]
  have hskip := yields_skip_one hs (c := c) hf
  unfold Yields at hskip ⊢
  simpa only [bind_run, hrun] using hskip

theorem yields_accept {k : Kind} (hs : Begins s.rest (w :: ws) rest) (hk : w.kind = k)
    {f : Bool → Parser α} (hf : ∀ s', Begins s'.rest ws rest → Yields c s' (f true) rest R) :
    Yields c s (accept k >>= f) rest R := by
  have hskip := yields_skip_one hs (c := c) (f := fun _ => f true) hf
  unfold Yields at hskip ⊢
  simpa only [bind_run, accept_run, hs.kindOf, hk, if_true, skip_run] using hskip

theorem yields_accept_none {k : Kind} (hk : kindOf s.rest ≠ k) (f : Bool → Parser α) :
    Yields c s (accept k >>= f) rest R ↔ Yields c s (f false) rest R :=
  yields_look (by rw [accept_run, if_neg hk]) f

theorem yields_identifier {x : String} (hs : Begins s.rest (.name x :: ws) rest)
    {f : String → Parser α} (hf : ∀ s', Begins s'.rest ws rest → Yields c s' (f x) rest R) :
    Yields c s (identifier >>= f) rest R := by
  obtain ⟨t, us, hts, ht, -⟩ := begins_cons.mp hs
  have hnext : (s.next c).lexeme = x := by
    rw [State.next, hts]
    exact congrArg Word.text ht
  have hskip := yields_skip_one hs (c := c) (f := fun _ => f x) hf
  unfold Yields at hskip ⊢
  simpa only [bind_run, identifier_run, hs.kindOf, Word.name, if_true, skip_run, hnext] using hskip

/-- A reader for the words ahead, with more words behind them. -/
theorem Yields.then {p : Parser β} {f : β → Parser α} {P : β → Prop}
    (hs : Begins s.rest (ws ++ vs) rest)
    (hp : ∀ mid, Begins s.rest ws mid → Begins mid vs rest → Yields c s p mid P)
    (hf : ∀ b s', Begins s'.rest vs rest → P b → Yields c s' (f b) rest R) :
    Yields c s (p >>= f) rest R := by
  obtain ⟨mid, hws, hvs⟩ := begins_append.mp hs
  exact (hp mid hws hvs).bind fun b s' hs' hb => hf b s' (hs' ▸ hvs) hb

end JavaTree.Parser
