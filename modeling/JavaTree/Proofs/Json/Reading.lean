import JavaTree.Json.Reader
import JavaTree.Json.Record
import JavaTree.Json.Writer
import JavaTree.Proofs.Token.Quoting
import Mathlib.Data.List.Forall2

/-!
Values are read back from their text.

A text in quotes may hold any character: what would end it, or may not stand in it, is written as an
escape. Between the parts of an array or object there are blanks, which a reader passes over, and each
part takes as many steps of the search as its text allows: two for each character.
-/

namespace JavaTree.Json

/-! ### Blanks -/

theorem isBlank_of_mem_newLine {level : Nat} : ∀ c ∈ (newLine level).toList, isBlank c = true := by
  intro c hc
  rw [newLine, String.toList_append, List.mem_append] at hc
  rcases hc with hc | hc
  · rw [List.mem_singleton.mp hc]
    rfl
  · rw [String.toList_join, List.mem_flatMap] at hc
    obtain ⟨s, hs, hc⟩ := hc
    rw [List.eq_of_mem_replicate hs] at hc
    obtain rfl : c = ' ' := by simpa using hc
    rfl

theorem skipBlanks_append {gap : List Char} (hgap : ∀ c ∈ gap, isBlank c = true) (cs : List Char) :
    skipBlanks (gap ++ cs) = skipBlanks cs := by
  rw [skipBlanks, skipBlanks, List.dropWhile_append_of_pos hgap]

theorem skipBlanks_cons {c : Char} (hc : isBlank c = false) (cs : List Char) :
    skipBlanks (c :: cs) = c :: cs := by
  rw [skipBlanks, List.dropWhile_cons_of_neg (by simp [hc])]

theorem space_blank : ∀ c ∈ [' '], isBlank c = true := by
  intro c hc
  rw [List.mem_singleton.mp hc]
  rfl

theorem value?_skipBlanks {n : Nat} {cs ds : List Char} (h : skipBlanks cs = skipBlanks ds) :
    value? n cs = value? n ds := by
  cases n with
  | zero => rfl
  | succ n => rw [value?, value?, h]

/-! ### Texts -/

/-- A character is read back from its part of a text. -/
theorem exists_part (c : Char) : ∃ p, (∀ rest, parts? (textChar c ++ rest) = consPart p (parts? rest)) ∧
    ∀ ps, assemble? (p :: ps) = (assemble? ps).map (c :: ·) := by
  unfold textChar
  split
  case h_8 hquote hslash _ _ _ _ _ =>
    split
    · next hcontrol =>
      obtain ⟨w, x, y, z, hfour, hunit⟩ := Literal.unit?_four (n := c.toNat) (by omega)
      have hhigh : isHigh c.toNat = false := by simp only [isHigh, decide_eq_false_iff_not]; omega
      have hlow : isLow c.toNat = false := by simp only [isLow, decide_eq_false_iff_not]; omega
      refine ⟨.unit c.toNat, fun rest => ?_, fun ps => ?_⟩
      · rw [hfour, List.cons_append, List.cons_append, parts?.eq_def]
        simp [hunit]
      · rw [assemble?.eq_def]
        simp [hhigh, hlow, Char.ofNat_toNat]
    · next hcontrol =>
      refine ⟨.char c, fun rest => ?_, fun ps => rfl⟩
      rw [List.singleton_append, parts?.eq_def]
      simp only [if_neg (show ¬ c = '"' from hquote), if_pos (show c ≠ '\\' from hslash), if_neg hcontrol]
  all_goals exact ⟨.char _, fun _ => rfl, fun _ => rfl⟩

/-- A text is read back from what is written between its quotes. -/
theorem text?_textChars (s : String) (rest : List Char) :
    text? (s.toList.flatMap textChar ++ '"' :: rest) = some (some s, rest) := by
  have hparts (cs : List Char) : ∃ ps, parts? (cs.flatMap textChar ++ '"' :: rest) = some (ps, rest) ∧
      assemble? ps = some cs := by
    induction cs with
    | nil => exact ⟨[], by rw [List.flatMap_nil, List.nil_append, parts?.eq_def]; rfl, rfl⟩
    | cons c cs ih =>
      obtain ⟨ps, hps, hcs⟩ := ih
      obtain ⟨p, hpart, hchar⟩ := exists_part c
      refine ⟨p :: ps, ?_, by rw [hchar, hcs]; rfl⟩
      rw [List.flatMap_cons, List.append_assoc, hpart, hps]
      rfl
  obtain ⟨ps, hps, hs⟩ := hparts s.toList
  rw [text?, hps, Option.map_some, hs, Option.map_some, String.ofList_toList]

theorem toList_quote (s : String) : (quote s).toList = '"' :: (s.toList.flatMap textChar ++ ['"']) := by
  simp [quote]

/-! ### Values -/

/-- A text from which a value is read back, whatever stands behind it. -/
def ReadsBack (v : Value) (cs : List Char) : Prop :=
  ∀ n rest, 2 * cs.length ≤ n → value? n (cs ++ rest) = some (v, rest)

variable {v : Value} {vs : List Value} {p : List Char} {ps : List (List Char)}

theorem ReadsBack.length_pos (h : ReadsBack v p) : 0 < p.length := by
  refine Nat.pos_of_ne_zero fun hp => ?_
  cases h 0 [] (by omega)

theorem ReadsBack.behind (h : ReadsBack v p) {gap : List Char} (hgap : ∀ c ∈ gap, isBlank c = true) {n : Nat}
    (hn : 2 * p.length ≤ n) (rest : List Char) : value? n (gap ++ (p ++ rest)) = some (v, rest) := by
  rw [value?_skipBlanks (skipBlanks_append hgap _)]
  exact h n rest hn

/-- Words and texts. -/
theorem readsBack_scalar {c : Char} {cs : List Char} (hblank : isBlank c = false)
    (harray : c ≠ '[') (hobject : c ≠ '\x7b') (h : ∀ rest, scalar? (c :: cs ++ rest) = some (v, rest)) :
    ReadsBack v (c :: cs) := by
  rintro (_ | n) rest hn
  · simp at hn
  · rw [value?, List.cons_append, skipBlanks_cons hblank]
    exact (by simpa [harray, hobject] using h rest)

theorem readsBack_text (s : String) : ReadsBack (.ofText s) (quote s).toList := by
  rw [toList_quote]
  refine readsBack_scalar rfl (by decide) (by decide) fun rest => ?_
  simp only [List.cons_append, List.append_assoc, List.nil_append, scalar?, text?_textChars]
  rfl

/-! ### Arrays and objects -/

/-- Parts behind the first one, each on a new line. -/
def further (gap : List Char) (ps : List (List Char)) : List Char := ps.flatMap fun q => ',' :: (gap ++ q)

theorem toList_enclose (level : Nat) (opening closing part : String) (parts : List String) :
    (enclose level opening closing (part :: parts)).toList =
      opening.toList ++ ((newLine (level + 1)).toList ++ part.toList ++
        further (newLine (level + 1)).toList (parts.map String.toList) ++
          ((newLine level).toList ++ closing.toList)) := by
  have hparts (part : String) : (("," ++ newLine (level + 1)).intercalate (part :: parts)).toList =
      part.toList ++ further (newLine (level + 1)).toList (parts.map String.toList) := by
    induction parts generalizing part with
    | nil => simp [further]
    | cons next parts ih =>
      rw [String.intercalate_cons_cons, String.toList_append, String.toList_append, ih]
      simp [further]
  rw [enclose, if_neg (by simp)]
  simp only [String.toList_append, hparts, List.append_assoc]

/-- The items of an array are read back from their texts. -/
theorem items?_texts {gap last : List Char} (hgap : ∀ c ∈ gap, isBlank c = true)
    (hlast : ∀ c ∈ last, isBlank c = true) (hv : ReadsBack v p) (hvs : List.Forall₂ ReadsBack vs ps)
    {n : Nat} (hn : 2 * (gap ++ p ++ further gap ps).length < n) (rest : List Char) :
    items? n (gap ++ p ++ further gap ps ++ (last ++ ']' :: rest)) = some (v :: vs, rest) := by
  induction hvs generalizing v p n with
  | nil =>
    obtain ⟨n, rfl⟩ := Nat.exists_eq_add_one_of_ne_zero (Nat.ne_zero_of_lt hn)
    simp only [further, List.flatMap_nil, List.append_nil, List.length_append] at hn ⊢
    rw [List.append_assoc, items?, hv.behind hgap (by omega)]
    simp only [skipBlanks_append hlast, skipBlanks_cons (c := ']') rfl]
  | @cons w q ws qs hw _ ih =>
    obtain ⟨n, rfl⟩ := Nat.exists_eq_add_one_of_ne_zero (Nat.ne_zero_of_lt hn)
    have hpos := hv.length_pos
    have htext : gap ++ p ++ further gap (q :: qs) ++ (last ++ ']' :: rest) =
        gap ++ (p ++ ',' :: (gap ++ q ++ further gap qs ++ (last ++ ']' :: rest))) := by
      simp [further]
    have hlength : (gap ++ p ++ further gap (q :: qs)).length =
        gap.length + p.length + 1 + (gap ++ q ++ further gap qs).length := by
      simp [further]
      omega
    rw [htext, items?, hv.behind hgap (by omega)]
    simp only [skipBlanks_cons (c := ',') rfl, ih hw (n := n) (by omega), Option.map_some]

/-- The text of a field: its name in quotes, and its value. -/
def fieldText (name : String) (p : List Char) : List Char := (quote name).toList ++ ':' :: ' ' :: p

theorem fieldName?_fieldText {gap : List Char} (hgap : ∀ c ∈ gap, isBlank c = true) (name : String)
    (rest : List Char) : fieldName? (gap ++ fieldText name rest) = some (some name, ' ' :: rest) := by
  rw [fieldName?, skipBlanks_append hgap, fieldText, toList_quote, List.cons_append,
    skipBlanks_cons (c := '"') rfl]
  simp only [List.append_assoc, List.singleton_append, text?_textChars, Option.bind_some,
    skipBlanks_cons (c := ':') rfl]

/-- A field is read back from its text. -/
def FieldReadsBack (f : Option String × Value) (cs : List Char) : Prop :=
  ∃ name p, f.1 = some name ∧ cs = fieldText name p ∧ ReadsBack f.2 p

/-- The fields of an object are read back from their texts. -/
theorem fields?_texts {gap last : List Char} (hgap : ∀ c ∈ gap, isBlank c = true)
    (hlast : ∀ c ∈ last, isBlank c = true) {f : Option String × Value} {fs : List (Option String × Value)}
    (hf : FieldReadsBack f p) (hfs : List.Forall₂ FieldReadsBack fs ps)
    {n : Nat} (hn : 2 * (gap ++ p ++ further gap ps).length < n) (rest : List Char) :
    fields? n (gap ++ p ++ further gap ps ++ (last ++ '\x7d' :: rest)) = some (f :: fs, rest) := by
  induction hfs generalizing f p n with
  | nil =>
    obtain ⟨n, rfl⟩ := Nat.exists_eq_add_one_of_ne_zero (Nat.ne_zero_of_lt hn)
    obtain ⟨name, q, hname, rfl, hv⟩ := hf
    obtain ⟨_, v⟩ := f
    cases hname
    simp only [further, fieldText, List.flatMap_nil, List.append_nil, List.length_append,
      List.length_cons] at hn
    have hfield : fieldName? (gap ++ fieldText name q ++ further gap [] ++ (last ++ '\x7d' :: rest)) =
        some (some name, ' ' :: (q ++ (last ++ '\x7d' :: rest))) := by
      rw [← fieldName?_fieldText hgap]
      simp [fieldText, further]
    have hvalue := hv.behind space_blank (n := n) (by omega) (last ++ '\x7d' :: rest)
    rw [List.singleton_append] at hvalue
    rw [fields?, hfield]
    simp only [hvalue, skipBlanks_append hlast, skipBlanks_cons (c := '\x7d') rfl]
  | @cons g q' gs qs hg _ ih =>
    obtain ⟨n, rfl⟩ := Nat.exists_eq_add_one_of_ne_zero (Nat.ne_zero_of_lt hn)
    obtain ⟨name, q, hname, rfl, hv⟩ := hf
    obtain ⟨_, v⟩ := f
    cases hname
    have hlength : (gap ++ fieldText name q ++ further gap (q' :: qs)).length =
        gap.length + (quote name).toList.length + q.length + 3 + (gap ++ q' ++ further gap qs).length := by
      simp [further, fieldText]
      omega
    have hfield : fieldName? (gap ++ fieldText name q ++ further gap (q' :: qs) ++ (last ++ '\x7d' :: rest)) =
        some (some name, ' ' :: (q ++ ',' :: (gap ++ q' ++ further gap qs ++ (last ++ '\x7d' :: rest)))) := by
      rw [← fieldName?_fieldText hgap]
      simp [fieldText, further]
    have hvalue := hv.behind space_blank (n := n) (by omega)
      (',' :: (gap ++ q' ++ further gap qs ++ (last ++ '\x7d' :: rest)))
    rw [List.singleton_append] at hvalue
    rw [fields?, hfield]
    simp only [hvalue, skipBlanks_cons (c := ',') rfl, ih hg (n := n) (by omega), Option.map_some]

/-- A value in which nothing is left open, and which has no numbers. -/
inductive Value.IsClosed : Value → Prop where
  | null : IsClosed .null
  | bool (b : Bool) : IsClosed (.bool b)
  | text (s : String) : IsClosed (.ofText s)
  | array {vs : List Value} (h : ∀ v ∈ vs, v.IsClosed) : IsClosed (.array vs)
  | object {fs : Record} (h : ∀ f ∈ fs, f.2.IsClosed) : IsClosed (.ofFields fs)

theorem renderItems_eq (level : Nat) (vs : List Value) :
    Value.renderItems level vs = vs.map (Value.render level) := by
  induction vs with
  | nil => rfl
  | cons v vs ih => rw [Value.renderItems, ih, List.map_cons]

theorem renderFields_eq (level : Nat) (fs : Record) :
    Value.renderFields level (fs.map fun f => (some f.1, f.2)) =
      fs.map fun f => quote f.1 ++ ": " ++ f.2.render level := by
  induction fs with
  | nil => rfl
  | cons f fs ih => rw [List.map_cons, Value.renderFields, ih, List.map_cons, Option.getD_some]

/-- No item starts with a closing bracket. -/
theorem items?_closing {n : Nat} {cs more : List Char} (h : skipBlanks cs = ']' :: more) :
    items? n cs = none := by
  rcases n with _ | _ | n
  · rfl
  · rfl
  · rw [items?, value?, h]
    rfl

/-- No field starts with a closing brace. -/
theorem fields?_closing {n : Nat} {cs more : List Char} (h : skipBlanks cs = '\x7d' :: more) :
    fields? n cs = none := by
  rcases n with _ | n
  · rfl
  · rw [fields?, fieldName?, h]
    rfl

theorem value?_array {n : Nat} {cs more : List Char} {vs : List Value} (h : items? n cs = some (vs, more)) :
    value? (n + 1) ('[' :: cs) = some (.array vs, more) := by
  rw [value?, skipBlanks_cons (c := '[') rfl]
  simp only
  split
  · next hcs => cases h.symm.trans (items?_closing hcs)
  · rw [h, Option.map_some]

theorem value?_object {n : Nat} {cs more : List Char} {fs : List (Option String × Value)}
    (h : fields? n cs = some (fs, more)) : value? (n + 1) ('\x7b' :: cs) = some (.object fs, more) := by
  rw [value?, skipBlanks_cons (c := '\x7b') rfl]
  simp only
  split
  · next hcs => cases h.symm.trans (fields?_closing hcs)
  · rw [h, Option.map_some]

/-- An array is read back if its items are. -/
theorem readsBack_array {level : Nat} {vs : List Value}
    (h : ∀ v ∈ vs, ReadsBack v (v.render (level + 1)).toList) :
    ReadsBack (.array vs) ((Value.array vs).render level).toList := by
  rw [Value.render, renderItems_eq]
  rcases vs with _ | ⟨v, vs⟩
  · rw [List.map_nil, enclose, if_pos List.isEmpty_nil]
    rintro (_ | n) rest hn
    · simp at hn
    · rfl
  · rw [List.map_cons, toList_enclose, List.map_map]
    rintro (_ | n) rest hn
    · simp at hn
    · have hvs : List.Forall₂ ReadsBack vs (vs.map (String.toList ∘ Value.render (level + 1))) :=
        List.forall₂_map_right_iff.mpr (List.forall₂_same.mpr fun w hw => h w (List.mem_cons_of_mem _ hw))
      have hitems := items?_texts (n := n) (@isBlank_of_mem_newLine (level + 1)) (@isBlank_of_mem_newLine level)
        (h v List.mem_cons_self) hvs (by simp at hn ⊢; omega) rest
      have hvalue := value?_array hitems
      simpa using hvalue

/-- An object is read back if the values of its fields are. -/
theorem readsBack_object {level : Nat} {fs : Record}
    (h : ∀ f ∈ fs, ReadsBack f.2 (f.2.render (level + 1)).toList) :
    ReadsBack (.ofFields fs) ((Value.ofFields fs).render level).toList := by
  rw [Value.ofFields, Value.render, renderFields_eq]
  rcases fs with _ | ⟨f, fs⟩
  · rw [List.map_nil, List.map_nil, enclose, if_pos List.isEmpty_nil]
    rintro (_ | n) rest hn
    · simp at hn
    · rfl
  · rw [List.map_cons, List.map_cons, toList_enclose, List.map_map]
    have hfield (g : String × Value) (hg : g ∈ f :: fs) : FieldReadsBack (some g.1, g.2)
        (quote g.1 ++ ": " ++ g.2.render (level + 1)).toList :=
      ⟨g.1, _, rfl, by simp [fieldText], h g hg⟩
    rintro (_ | n) rest hn
    · simp at hn
    · have hfs : List.Forall₂ FieldReadsBack (fs.map fun g => (some g.1, g.2))
          (fs.map (String.toList ∘ fun g => quote g.1 ++ ": " ++ g.2.render (level + 1))) :=
        List.forall₂_map_left_iff.mpr (List.forall₂_map_right_iff.mpr
          (List.forall₂_same.mpr fun g hg => hfield g (List.mem_cons_of_mem _ hg)))
      have hfields := fields?_texts (n := n) (@isBlank_of_mem_newLine (level + 1))
        (@isBlank_of_mem_newLine level) (hfield f List.mem_cons_self) hfs (by simp at hn ⊢; omega) rest
      have hvalue := value?_object hfields
      simpa using hvalue

/-- A closed value is read back from its text, at any level. -/
theorem Value.IsClosed.readsBack {v : Value} (h : v.IsClosed) (level : Nat) :
    ReadsBack v (v.render level).toList := by
  induction h generalizing level with
  | null =>
    rw [Value.render]
    exact @readsBack_scalar _ 'n' ['u', 'l', 'l'] rfl (by decide) (by decide) fun _ => rfl
  | bool b =>
    rw [Value.render]
    cases b
    · exact @readsBack_scalar _ 'f' ['a', 'l', 's', 'e'] rfl (by decide) (by decide) fun _ => rfl
    · exact @readsBack_scalar _ 't' ['r', 'u', 'e'] rfl (by decide) (by decide) fun _ => rfl
  | text s =>
    rw [Value.ofText, Value.render]
    exact readsBack_text s
  | array _ ih => exact readsBack_array fun v hv => ih v hv (level + 1)
  | object _ ih => exact readsBack_object fun f hf => ih f hf (level + 1)

/-- A closed value is the one that its document holds. -/
theorem Value.IsClosed.document? {v : Value} (h : v.IsClosed) : document? (v.render 0) = some v := by
  have hread := h.readsBack 0 (2 * (v.render 0).toList.length + 2) [] (by omega)
  rw [List.append_nil] at hread
  rw [Json.document?, hread]
  rfl

end JavaTree.Json
