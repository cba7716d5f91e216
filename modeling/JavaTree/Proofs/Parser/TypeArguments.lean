import JavaTree.Proofs.Parser.Bodies
import JavaTree.Proofs.Parser.Initializer

/-!
Where a list of type arguments ends.

Three scans look for the end of a list: the parser when it looks ahead, the parser when it captures the
text of the list, and the writer of tokens, which marks the angle brackets around type arguments. Each
of them goes up to the first token behind which no list is open. They differ in the tokens that they
let pass, and in what they make of a bracket that closes more lists than are open.

    tokens           open behind each    look ahead   capture   marks
    <  A  <  B  >>   1  1  2  2  0       5 tokens     5 tokens  5 tokens
    <  A  >>         1  1  -1            3 tokens     3 tokens  no list
    <  A  -  B  >    1  1  1  1  0       no list      5 tokens  no list
    <  A  ;          1  1                no list      no list   no list
-/

namespace JavaTree

open JavaTree.Parser

namespace Angle

variable {ts more : List Token} {t : Token} {outer : Int} {cap m n i j k : Nat}

/-! ### Depth -/

/-- How many more lists are open behind some tokens than before them. -/
def depth : List Token → Int
  | [] => 0
  | t :: ts => weight t.kind + depth ts

@[simp] theorem depth_nil : depth [] = 0 := rfl

@[simp] theorem depth_cons (t : Token) (ts : List Token) :
    depth (t :: ts) = weight t.kind + depth ts := rfl

/-- The first `n` tokens are the fewest behind which no list is open, with `outer` lists open before
them. -/
structure EndsAt (outer : Int) (ts : List Token) (n : Nat) : Prop where
  pos : 0 < n
  le : n ≤ ts.length
  opened : ∀ m < n, 0 < m → 0 < outer + depth (ts.take m)
  ended : outer + depth (ts.take n) ≤ 0

theorem EndsAt.unique (h : EndsAt outer ts m) (h' : EndsAt outer ts n) : m = n := by
  rcases Nat.lt_trichotomy m n with hlt | heq | hlt
  · exact absurd (h'.opened m hlt h.pos) (Int.not_lt.mpr h.ended)
  · exact heq
  · exact absurd (h.opened n hlt h'.pos) (Int.not_lt.mpr h'.ended)

theorem EndsAt.exists_succ (h : EndsAt outer ts n) : ∃ m, n = m + 1 :=
  Nat.exists_eq_succ_of_ne_zero (Nat.ne_of_gt h.pos)

theorem not_endsAt_nil : ¬ EndsAt outer [] n := fun h => Nat.not_lt_zero _ (Nat.lt_of_lt_of_le h.pos h.le)

/-- A first token that leaves no list open is the end. -/
theorem endsAt_one (h : outer + weight t.kind ≤ 0) : EndsAt outer (t :: ts) 1 where
  pos := Nat.one_pos
  le := by simp
  opened := fun m hm hpos => by omega
  ended := by simpa using h

/-- Behind a first token that leaves a list open, the end is where it is for the other tokens. -/
theorem endsAt_succ (h : 0 < outer + weight t.kind) :
    EndsAt outer (t :: ts) (n + 1) ↔ EndsAt (outer + weight t.kind) ts n := by
  constructor
  · rintro ⟨-, hle, hopened, hended⟩
    rw [List.take_succ_cons, depth_cons, ← Int.add_assoc] at hended
    refine ⟨Nat.pos_of_ne_zero ?_, by simpa using hle, fun m hmn hm => ?_, hended⟩
    · rintro rfl
      rw [List.take_zero, depth_nil] at hended
      omega
    · have hm := hopened (m + 1) (by omega) (by omega)
      rwa [List.take_succ_cons, depth_cons, ← Int.add_assoc] at hm
  · rintro ⟨hpos, hle, hopened, hended⟩
    refine ⟨by omega, by simpa using hle, fun m hmn hm => ?_, ?_⟩
    · obtain ⟨m, rfl⟩ := Nat.exists_eq_succ_of_ne_zero (Nat.ne_of_gt hm)
      rw [List.take_succ_cons, depth_cons, ← Int.add_assoc]
      rcases Nat.eq_zero_or_pos m with rfl | hm
      · simpa using h
      · exact hopened m (by omega) hm
    · rwa [List.take_succ_cons, depth_cons, ← Int.add_assoc]

/-- The first `n` tokens can all stand in a type. -/
def InType (ts : List Token) (n : Nat) : Prop := ∀ t ∈ ts.take n, isInType t.kind = true

theorem inType_succ : InType (t :: ts) (n + 1) ↔ isInType t.kind = true ∧ InType ts n := by
  simp [InType]

theorem inType_one (h : isInType t.kind = true) : InType (t :: ts) 1 := by
  simpa [InType] using h

/-! ### The three scans -/

/-- A capture ends where no list is open any more. -/
theorem endsAt_angleExtent (h : (angleExtent cap outer ts).2 = .complete) :
    EndsAt outer ts (angleExtent cap outer ts).1 := by
  fun_induction angleExtent cap outer ts with
  | case1 | case2 | case3 => cases h
  | case4 outer t ts hends room d hclosed => exact endsAt_one hclosed
  | case5 outer t ts hends room d hopen n e hrest ih =>
    rw [hrest] at ih
    exact (endsAt_succ (Int.not_le.mp hopen)).mpr (ih h)

/-- The look ahead passes over a list of tokens of types. The last of them may be one behind the
cap. -/
theorem afterAngle?_eq_some_iff : afterAngle? cap outer ts = some more ↔
    ∃ n, EndsAt outer ts n ∧ InType ts n ∧ n ≤ cap + 1 ∧ ts.drop n = more := by
  fun_induction afterAngle? cap outer ts with
  | case1 => exact ⟨nofun, fun ⟨n, hn, _⟩ => absurd hn not_endsAt_nil⟩
  | case2 cap outer t ts hin d hclosed =>
    constructor
    · rintro ⟨⟩
      exact ⟨1, endsAt_one hclosed, inType_one hin, by omega, rfl⟩
    · rintro ⟨n, hn, -, -, hmore⟩
      obtain rfl := hn.unique (endsAt_one hclosed)
      exact congrArg some hmore
  | case3 outer t ts hin d hopen =>
    refine ⟨nofun, ?_⟩
    rintro ⟨n, hn, -, hle, -⟩
    obtain rfl : n = 1 := Nat.le_antisymm hle hn.pos
    exact absurd (by simpa using hn.ended) hopen
  | case4 outer t ts hin d hopen room ih =>
    have hpos : 0 < outer + weight t.kind := Int.not_le.mp hopen
    rw [ih]
    constructor
    · rintro ⟨n, hn, hall, hle, hmore⟩
      exact ⟨n + 1, (endsAt_succ hpos).mpr hn, inType_succ.mpr ⟨hin, hall⟩, by omega, hmore⟩
    · rintro ⟨n, hn, hall, hle, hmore⟩
      obtain ⟨n, rfl⟩ := hn.exists_succ
      exact ⟨n, (endsAt_succ hpos).mp hn, (inType_succ.mp hall).2, by omega, hmore⟩
  | case5 cap outer t ts hin =>
    refine ⟨nofun, ?_⟩
    rintro ⟨n, hn, hall, -, -⟩
    obtain ⟨n, rfl⟩ := hn.exists_succ
    exact absurd (inType_succ.mp hall).1 hin

/-- The writer of tokens passes over a list of tokens of types that closes as many lists as it
opens. -/
theorem close?_eq_some_iff : ∀ n, close? outer ts = some n ↔
    EndsAt outer ts n ∧ InType ts n ∧ outer + depth (ts.take n) = 0 := by
  fun_induction close? outer ts with
  | case1 => exact fun n => ⟨nofun, fun ⟨hn, _⟩ => absurd hn not_endsAt_nil⟩
  | case2 outer t ts hin d hbelow =>
    -- the list ends here, and more lists are closed than were open
    refine fun n => ⟨nofun, ?_⟩
    rintro ⟨hn, -, hzero⟩
    obtain rfl := hn.unique (endsAt_one (Int.le_of_lt hbelow))
    exact absurd (by simpa using hzero) (Int.ne_of_lt hbelow)
  | case3 outer t ts hin d hbelow hzero =>
    intro n
    constructor
    · rintro ⟨⟩
      exact ⟨endsAt_one (Int.le_of_eq hzero), inType_one hin, by simpa using hzero⟩
    · rintro ⟨hn, -, -⟩
      exact congrArg some (hn.unique (endsAt_one (Int.le_of_eq hzero))).symm
  | case4 outer t ts hin d hbelow hzero ih =>
    intro n
    have hpos : 0 < outer + weight t.kind := by omega
    rw [Option.map_eq_some_iff]
    constructor
    · rintro ⟨n, hn, rfl⟩
      obtain ⟨hends, hall, hsum⟩ := (ih n).mp hn
      refine ⟨(endsAt_succ hpos).mpr hends, inType_succ.mpr ⟨hin, hall⟩, ?_⟩
      rwa [List.take_succ_cons, depth_cons, ← Int.add_assoc]
    · rintro ⟨hn, hall, hsum⟩
      obtain ⟨n, rfl⟩ := hn.exists_succ
      rw [List.take_succ_cons, depth_cons, ← Int.add_assoc] at hsum
      exact ⟨n, (ih n).mpr ⟨(endsAt_succ hpos).mp hn, (inType_succ.mp hall).2, hsum⟩, rfl⟩
  | case5 outer t ts hin =>
    refine fun n => ⟨nofun, ?_⟩
    rintro ⟨hn, hall, -⟩
    obtain ⟨n, rfl⟩ := hn.exists_succ
    exact absurd (inType_succ.mp hall).1 hin

/-! ### Balanced lists -/

/-- Square brackets, which belong to the dimensions of arrays. -/
def isSquare (t : Token) : Bool := t.kind = .mark .openBracket || t.kind = .mark .closeBracket

/-- A list of type arguments as it should be: lists are open behind all of its tokens but the last,
behind that one none is open and none has been closed too often, and its square brackets are closed in
order. -/
structure IsBalanced (l : List Token) : Prop where
  nonempty : l ≠ []
  opened : ∀ m < l.length, 0 < m → 0 < depth (l.take m)
  closed : depth l = 0
  squares : (⟨l.filter isSquare⟩ : Excerpt).isBalanced = true

/-- A balanced list ends with its last token, whatever is behind it. -/
theorem IsBalanced.endsAt {l : List Token} (h : IsBalanced l) (more : List Token) :
    EndsAt 0 (l ++ more) l.length where
  pos := List.length_pos_iff.mpr h.nonempty
  le := by simp
  opened := fun m hm hpos => by
    rw [List.take_append_of_le_length (Nat.le_of_lt hm), Int.zero_add]
    exact h.opened m hm hpos
  ended := Int.le_of_eq (by rw [List.take_left, Int.zero_add, h.closed])

/-! ### Looking ahead and marking -/

/-- The place of the bracket that closes the list opened at a place, as the writer of tokens finds
it. -/
def closing? (ts : List Token) (i : Nat) : Option Nat := (close? 1 (ts.drop (i + 1))).map (i + ·)

/-- The place behind the list that starts at a place, as the parser finds it when it looks ahead. -/
def behind? (cap : Nat) (ts : List Token) (i : Nat) : Option Nat :=
  (afterAngle? cap 0 (ts.drop i)).map fun more => ts.length - more.length

/-- The first of some tokens, if it opens a list. -/
theorem drop_of_opens (h : kindOf (ts.drop i) = .mark .less) :
    ∃ t, ts.drop i = t :: ts.drop (i + 1) ∧ t.kind = .mark .less ∧ i < ts.length := by
  rcases Nat.lt_or_ge i ts.length with hi | hi
  · rw [List.drop_eq_getElem_cons hi] at h ⊢
    exact ⟨_, rfl, h, hi⟩
  · rw [List.drop_eq_nil_of_le hi] at h
    cases h

/-- The writer finds the bracket behind which no list is open, if the tokens up to it are those of types
and close as many lists as they open. -/
theorem closing?_iff_endsAt (h : kindOf (ts.drop i) = .mark .less) : closing? ts i = some j ↔
    ∃ n, (EndsAt 0 (ts.drop i) (n + 1) ∧ InType (ts.drop i) (n + 1) ∧
      depth ((ts.drop i).take (n + 1)) = 0) ∧ i + n = j := by
  obtain ⟨t, hdrop, hless, -⟩ := drop_of_opens h
  have hweight : weight t.kind = 1 := by rw [hless, weight]
  have hends (n : Nat) : EndsAt 0 (ts.drop i) (n + 1) ↔ EndsAt 1 (ts.drop (i + 1)) n := by
    rw [hdrop, endsAt_succ (by omega), hweight, Int.zero_add]
  have hin (n : Nat) : InType (ts.drop i) (n + 1) ↔ InType (ts.drop (i + 1)) n := by
    rw [hdrop, inType_succ, hless]
    exact and_iff_right rfl
  have hdepth (n : Nat) : depth ((ts.drop i).take (n + 1)) = 1 + depth ((ts.drop (i + 1)).take n) := by
    rw [hdrop, List.take_succ_cons, depth_cons, hweight]
  simp only [closing?, Option.map_eq_some_iff, close?_eq_some_iff, hends, hin, hdepth]

theorem behind?_iff_endsAt : behind? cap ts i = some k ↔
    ∃ n, EndsAt 0 (ts.drop i) n ∧ InType (ts.drop i) n ∧ n ≤ cap + 1 ∧ i + n = k := by
  have hplace (n : Nat) (hn : EndsAt 0 (ts.drop i) n) :
      ts.length - ((ts.drop i).drop n).length = i + n := by
    have hle := hn.le
    have hpos := hn.pos
    simp only [List.length_drop] at hle ⊢
    omega
  rw [behind?, Option.map_eq_some_iff]
  constructor
  · rintro ⟨more, hafter, rfl⟩
    obtain ⟨n, hn, hall, hcap, rfl⟩ := afterAngle?_eq_some_iff.mp hafter
    exact ⟨n, hn, hall, hcap, (hplace n hn).symm⟩
  · rintro ⟨n, hn, hall, hcap, rfl⟩
    exact ⟨_, afterAngle?_eq_some_iff.mpr ⟨n, hn, hall, hcap, rfl⟩, hplace n hn⟩

/-- With room for all tokens, the writer finds the bracket that closes a list where the parser does
when it looks ahead, unless this bracket closes more lists than are open. -/
theorem closing?_eq_some_iff (hcap : ts.length ≤ cap) (h : kindOf (ts.drop i) = .mark .less) :
    closing? ts i = some j ↔
      behind? cap ts i = some (j + 1) ∧ depth ((ts.drop i).take (j + 1 - i)) = 0 := by
  have hlength (n : Nat) : i + n + 1 - i = n + 1 := by omega
  rw [closing?_iff_endsAt h, behind?_iff_endsAt]
  constructor
  · rintro ⟨n, ⟨hends, hall, hzero⟩, rfl⟩
    have hle := hends.le
    rw [List.length_drop] at hle
    rw [hlength]
    exact ⟨⟨n + 1, hends, hall, by omega, rfl⟩, hzero⟩
  · rintro ⟨⟨n, hends, hall, -, hj⟩, hzero⟩
    obtain ⟨n, rfl⟩ := hends.exists_succ
    obtain rfl : i + n = j := Nat.succ.inj hj
    rw [hlength] at hzero
    exact ⟨n, ⟨hends, hall, hzero⟩, rfl⟩

/-- A list that the parser finds from one place to another when it looks ahead, and that closes as many
lists as it opens. -/
structure IsRegion (cap : Nat) (ts : List Token) (i j : Nat) : Prop where
  opens : kindOf (ts.drop i) = .mark .less
  ends : behind? cap ts i = some (j + 1)
  closed : depth ((ts.drop i).take (j + 1 - i)) = 0

/-- The lists found one after the other from a place on. Behind a list the search goes on with the
token after it, and where no list starts, with the next token. -/
inductive Regions (cap : Nat) (ts : List Token) : Nat → List (Nat × Nat) → Prop
  | done {i : Nat} (hi : ts.length ≤ i) : Regions cap ts i []
  | found {i j : Nat} {regions : List (Nat × Nat)} (h : IsRegion cap ts i j)
      (more : Regions cap ts (j + 1) regions) : Regions cap ts i ((i, j) :: regions)
  | none {i : Nat} {regions : List (Nat × Nat)} (hi : i < ts.length) (h : ∀ j, ¬ IsRegion cap ts i j)
      (more : Regions cap ts (i + 1) regions) : Regions cap ts i regions

theorem IsRegion.bounds (h : IsRegion cap ts i j) : i < j ∧ j < ts.length := by
  obtain ⟨n, hends, -, -, hj⟩ := behind?_iff_endsAt.mp h.ends
  obtain ⟨t, hdrop, hless, hi⟩ := drop_of_opens h.opens
  have hle := hends.le
  rw [List.length_drop] at hle
  have hne : j ≠ i := by
    -- the first token opens a list and closes none
    rintro rfl
    have hzero := h.closed
    rw [Nat.add_sub_cancel_left, hdrop, List.take_succ_cons, depth_cons, hless] at hzero
    cases hzero
  have hpos := hends.pos
  omega

theorem exists_regions (i : Nat) : ∃ regions, Regions cap ts i regions := by
  rcases Nat.lt_or_ge i ts.length with hi | hi
  · by_cases hregion : ∃ j, IsRegion cap ts i j
    · obtain ⟨j, hj⟩ := hregion
      have hbounds := hj.bounds
      obtain ⟨regions, hmore⟩ := exists_regions (j + 1)
      exact ⟨_, .found hj hmore⟩
    · obtain ⟨regions, hmore⟩ := exists_regions (i + 1)
      exact ⟨_, .none hi (fun j hj => hregion ⟨j, hj⟩) hmore⟩
  · exact ⟨[], .done hi⟩
termination_by ts.length - i

theorem Regions.bounds {regions : List (Nat × Nat)} (h : Regions cap ts i regions) :
    ∀ r ∈ regions, i ≤ r.1 := by
  induction h with
  | done => nofun
  | found h more ih =>
    have hbounds := h.bounds
    intro r hr
    rcases List.mem_cons.mp hr with rfl | hr
    · exact Nat.le_refl _
    · have hle := ih r hr
      omega
  | none hi h more ih => exact fun r hr => Nat.le_of_succ_le (ih r hr)

theorem Regions.disjoint {regions : List (Nat × Nat)} (h : Regions cap ts i regions) :
    regions.Pairwise fun a b => a.2 < b.1 := by
  induction h with
  | done => exact .nil
  | found h more ih => exact List.pairwise_cons.mpr ⟨more.bounds, ih⟩
  | none hi h more ih => exact ih

/-- The tokens of a list that is open are in it, and the search goes on behind them. -/
theorem covers_inside {n : Nat} (h : n ≤ ts.length) :
    covers n ts = List.replicate n true ++ covers 0 (ts.drop n) := by
  induction n generalizing ts with
  | zero => rfl
  | succ n ih =>
    rcases ts with _ | ⟨t, ts⟩
    · cases h
    · rw [covers, ih (Nat.le_of_succ_le_succ h)]
      rfl

/-- From a place where a list starts, the writer passes over the list. -/
theorem covers_region (hopens : kindOf (ts.drop i) = .mark .less) (hclosing : closing? ts i = some j) :
    covers 0 (ts.drop i) = List.replicate (j + 1 - i) true ++ covers 0 (ts.drop (j + 1)) := by
  obtain ⟨t, hdrop, hless, -⟩ := drop_of_opens hopens
  obtain ⟨n, hn, rfl⟩ := Option.map_eq_some_iff.mp hclosing
  have hle := ((close?_eq_some_iff n).mp hn).1.le
  have hend : i + n + 1 - i = n + 1 := by omega
  have hbehind : i + 1 + n = i + n + 1 := by omega
  rw [hdrop, covers, if_pos hless, hn, hend, List.replicate_succ, List.cons_append]
  simp only
  rw [covers_inside hle, List.drop_drop, hbehind]

/-- From a place where no list starts, the writer goes on with the next token. -/
theorem covers_none (hi : i < ts.length)
    (h : ∀ j, ¬ (kindOf (ts.drop i) = .mark .less ∧ closing? ts i = some j)) :
    covers 0 (ts.drop i) = false :: covers 0 (ts.drop (i + 1)) := by
  rw [List.drop_eq_getElem_cons hi] at h ⊢
  have hnone : (if ts[i].kind = .mark .less then close? 1 (ts.drop (i + 1)) else none) = none := by
    split
    · next hless =>
      cases hclose : close? 1 (ts.drop (i + 1)) with
      | none => rfl
      | some n => exact absurd ⟨hless, by rw [closing?, hclose, Option.map_some]⟩ (h (i + n))
    · rfl
  rw [covers, hnone]

section Regions

variable {regions : List (Nat × Nat)} (hcap : ts.length ≤ cap)

include hcap

theorem isRegion_iff :
    IsRegion cap ts i j ↔ kindOf (ts.drop i) = .mark .less ∧ closing? ts i = some j := by
  constructor
  · rintro ⟨hopens, hends, hclosed⟩
    exact ⟨hopens, (closing?_eq_some_iff hcap hopens).mpr ⟨hends, hclosed⟩⟩
  · rintro ⟨hopens, hclosing⟩
    obtain ⟨hends, hclosed⟩ := (closing?_eq_some_iff hcap hopens).mp hclosing
    exact ⟨hopens, hends, hclosed⟩

/-- The tokens in the lists that are found one after the other are those that the writer sees in a
list. -/
theorem Regions.covers_iff (h : Regions cap ts i regions) {k : Nat} (hk : i ≤ k) :
    (covers 0 (ts.drop i))[k - i]? = some true ↔ ∃ r ∈ regions, r.1 ≤ k ∧ k ≤ r.2 := by
  induction h with
  | done hi =>
    rw [List.drop_eq_nil_of_le hi, covers]
    simp
  | @found i j regions h more ih =>
    have hbounds := h.bounds
    obtain ⟨hopens, hclosing⟩ := (isRegion_iff hcap).mp h
    rw [covers_region hopens hclosing]
    rcases Nat.lt_or_ge j k with hj | hj
    · have hshift : k - i - (j + 1 - i) = k - (j + 1) := by omega
      rw [List.getElem?_append_right (by rw [List.length_replicate]; omega), List.length_replicate,
        hshift, ih hj]
      simp only [List.mem_cons, exists_eq_or_imp]
      exact (or_iff_right fun hin => Nat.not_le.mpr hj hin.2).symm
    · rw [List.getElem?_append_left (by rw [List.length_replicate]; omega),
        List.getElem?_replicate_of_lt (by omega)]
      exact iff_of_true rfl ⟨(i, j), List.mem_cons_self, hk, hj⟩
  | @none i regions hi h more ih =>
    rw [covers_none hi fun j hj => h j ((isRegion_iff hcap).mpr hj)]
    rcases Nat.lt_or_eq_of_le hk with hlt | rfl
    · have hshift : k - i = k - (i + 1) + 1 := by omega
      rw [hshift, List.getElem?_cons_succ, ih hlt]
    · rw [Nat.sub_self, List.getElem?_cons_zero]
      refine iff_of_false (by simp) ?_
      rintro ⟨r, hr, hle, -⟩
      exact Nat.not_le.mpr (Nat.lt_of_succ_le (more.bounds r hr)) hle

end Regions

/-- Looking ahead and marking find the same lists, with room for all tokens. From a `<`, the writer
finds the bracket that closes a list exactly when the parser passes over tokens up to this bracket and
these close as many lists as they open. The lists that are found in this way from left to right are
disjoint, and the brackets that are marked are the angle brackets in them. -/
theorem scans_agree (ts : List Token) {cap : Nat} (hcap : ts.length ≤ cap) :
    (∀ i j, kindOf (ts.drop i) = .mark .less → (closing? ts i = some j ↔
      behind? cap ts i = some (j + 1) ∧ depth ((ts.drop i).take (j + 1 - i)) = 0)) ∧
    (∃ regions, Regions cap ts 0 regions) ∧
    ∀ regions, Regions cap ts 0 regions → regions.Pairwise (fun a b => a.2 < b.1) ∧
      ∀ k, (marks 0 ts)[k]? = some true ↔
        ∃ t, ts[k]? = some t ∧ isAngle t.kind = true ∧ ∃ r ∈ regions, r.1 ≤ k ∧ k ≤ r.2 := by
  refine ⟨fun i j h => closing?_eq_some_iff hcap h, exists_regions 0, fun regions h => ?_⟩
  refine ⟨h.disjoint, fun k => ?_⟩
  have hcovers := h.covers_iff hcap (Nat.zero_le k)
  rw [List.drop_zero, Nat.sub_zero] at hcovers
  rw [marks_eq_covers, List.getElem?_map, Option.map_eq_some_iff]
  constructor
  · rintro ⟨⟨t, inside⟩, hzip, hmark⟩
    obtain ⟨ht, hinside⟩ := List.getElem?_zip_eq_some.mp hzip
    obtain ⟨rfl, hangle⟩ := Bool.and_eq_true_iff.mp hmark
    exact ⟨t, ht, hangle, hcovers.mp hinside⟩
  · rintro ⟨t, ht, hangle, hin⟩
    exact ⟨(t, true), List.getElem?_zip_eq_some.mpr ⟨ht, hcovers.mpr hin⟩, hangle⟩

/-- `a < b - C < D < E >>`: no list starts at the first `<`, and one at the second. -/
theorem scans_agree_retried :
    let ts := tokensOf [.identifier, .mark .less, .identifier, .mark .minus, .identifier, .mark .less,
      .identifier, .mark .less, .identifier, .mark .rightShift]
    ts.length ≤ 10 ∧ closing? ts 1 = none ∧ closing? ts 5 = some 9 ∧ behind? 10 ts 5 = some 10 ∧
      ∃ regions, Regions 10 ts 0 regions ∧ regions.Pairwise (fun a b => a.2 < b.1) ∧
        (∃ r ∈ regions, r.1 ≤ 7 ∧ 7 ≤ r.2) ∧ ¬ ∃ r ∈ regions, r.1 ≤ 1 ∧ 1 ≤ r.2 := by
  intro ts
  have hcap : ts.length ≤ 10 := by decide
  obtain ⟨hclosing, ⟨regions, hregions⟩, hmarks⟩ := scans_agree ts hcap
  obtain ⟨hdisjoint, hiff⟩ := hmarks regions hregions
  refine ⟨hcap, by decide, by decide, ((hclosing 5 9 rfl).mp (by decide)).1, regions, hregions,
    hdisjoint, ?_, fun hin => ?_⟩
  · obtain ⟨-, -, -, hin⟩ := (hiff 7).mp (by decide)
    exact hin
  · exact absurd ((hiff 1).mpr ⟨_, rfl, rfl, hin⟩) (by decide)

end Angle

namespace Parser

/-! ### Lists that are captured -/

/-- A capture takes tokens up to the first one behind which no list is open. What it takes is balanced
exactly when a balanced list stands there. Otherwise, the last bracket closes more lists than are open,
or square brackets are left open or closed out of order. -/
theorem angleText_balanced_iff {c : Settings} {s s' : State} {x : String}
    (hok : angleText c s = .ok x s') :
    ∃ l, s.rest = l ++ s'.rest ∧ x = typeText none l ∧
      (∀ m < l.length, 0 < m → 0 < Angle.depth (l.take m)) ∧ Angle.depth l ≤ 0 ∧
      (Angle.IsBalanced l ↔ ∃ front more, s.rest = front ++ more ∧ Angle.IsBalanced front) := by
  obtain ⟨n, hx, rfl, rfl⟩ := angleText_eq_ok hok
  have hends : Angle.EndsAt 0 s.rest n := by
    have h := Angle.endsAt_angleExtent (congrArg Prod.snd hx)
    rwa [hx] at h
  have hsplit : s.rest = s.rest.take n ++ (s.skip n).rest := (List.take_append_drop n s.rest).symm
  refine ⟨s.rest.take n, hsplit, rfl, fun m hm hpos => ?_, ?_, fun h => ⟨_, _, hsplit, h⟩, ?_⟩
  · rw [List.length_take_of_le hends.le] at hm
    have h := hends.opened m hm hpos
    rwa [Int.zero_add, ← Nat.min_eq_left (Nat.le_of_lt hm), ← List.take_take] at h
  · have h := hends.ended
    rwa [Int.zero_add] at h
  · -- two lists that start at one place and end where none is open are one
    rintro ⟨front, more, hfront, hbalanced⟩
    have hn : front.length = n := (hfront ▸ hbalanced.endsAt more).unique hends
    rwa [← hn, hfront, List.take_left]

/-- The list in `< A [ ] , B < C >> x` is captured, and balanced. -/
theorem angleText_balanced_arrays :
    let s := onTokens [.mark .less, .identifier, .mark .openBracket, .mark .closeBracket, .mark .comma,
      .identifier, .mark .less, .identifier, .mark .rightShift, .identifier]
    ∃ x s' l, angleText plainSettings s = .ok x s' ∧ s.rest = l ++ s'.rest ∧ l.length = 9 ∧
      Angle.IsBalanced l := by
  intro s
  have hbalanced : Angle.IsBalanced (s.rest.take 9) := ⟨by decide, by decide, by decide, by decide⟩
  obtain ⟨x, s', hok, hlength⟩ : ∃ x s', angleText plainSettings s = .ok x s' ∧ s'.rest.length = 1 :=
    ⟨_, _, rfl, rfl⟩
  obtain ⟨l, hl, -, -, -, hiff⟩ := angleText_balanced_iff hok
  refine ⟨x, s', l, hok, hl, ?_, hiff.mpr ⟨_, _, (List.take_append_drop 9 s.rest).symm, hbalanced⟩⟩
  have h := congrArg List.length hl
  rw [List.length_append, hlength] at h
  exact Nat.succ.inj h.symm

/-- The lists in `< A >>` and in `< [ >` are captured. The first one closes two lists where one is
open, the second one leaves a square bracket open. -/
theorem angleText_unbalanced :
    (∃ x s', angleText plainSettings (onTokens [.mark .less, .identifier, .mark .rightShift]) = .ok x s' ∧
      s'.rest = [] ∧ Angle.depth (tokensOf [.mark .less, .identifier, .mark .rightShift]) ≠ 0) ∧
    ∃ x s', angleText plainSettings (onTokens [.mark .less, .mark .openBracket, .mark .greater]) = .ok x s' ∧
      s'.rest = [] ∧ ¬ Angle.IsBalanced (tokensOf [.mark .less, .mark .openBracket, .mark .greater]) :=
  ⟨⟨_, _, rfl, rfl, by decide⟩, _, _, rfl, rfl, fun h => absurd h.squares (by decide)⟩

end Parser

end JavaTree
