import JavaTree.Proofs.Json.Reading
import JavaTree.Summary.Document

/-!
Summaries are read back from their documents.

Each sort of summary is read back from its value: a record is written with all its fields, and each of
them is read back by the reader of that field. The words for kinds and modifiers are told apart, and
the word for an unknown kind stands for no known one.
-/

namespace JavaTree

open Json

/-! ### Fields -/

namespace Json

/-- A record that is written with the names it is read with is read back. -/
theorem record?_ofFields {names : List String} {fields : Record} (hnames : fields.map Prod.fst = names)
    (hnodup : names.Nodup) : record? names (.ofFields fields) = some fields := by
  have hreadable (r : Record) : readableFields? (r.map fun f => (some f.1, f.2)) = some r := by
    induction r with
    | nil => rfl
    | cons f r ih => rw [List.map_cons, readableFields?, ih, Option.map_some]
  have hknown : fields.filter (fun f => names.contains f.1) = fields := by
    rw [List.filter_eq_self]
    intro f hf
    rw [List.contains_iff_mem, ← hnames]
    exact List.mem_map_of_mem hf
  rw [Value.ofFields, record?, hreadable, Option.bind_some]
  simp only [hknown]
  rw [if_pos (hnames ▸ hnodup)]

namespace Value

@[simp] theorem text?_ofText (s : String) : (ofText s).text? = some s := rfl

@[simp] theorem name?_ofText (s : String) : (ofText s).name? = some s := rfl

@[simp] theorem bool?_bool (b : Bool) : (Value.bool b).bool? = some b := rfl

@[simp] theorem nullableText?_ofNullableText (s : Option String) :
    (ofNullableText s).nullableText? = some s := by
  cases s <;> rfl

/-- A list is read back if its items are. -/
theorem list?_map {α : Type} {read : Value → Option α} {write : α → Value}
    (h : ∀ a, read (write a) = some a) (as : List α) : list? read (.array (as.map write)) = some as := by
  rw [list?, List.mapM_map]
  induction as with
  | nil => rfl
  | cons a as ih => simp [List.mapM_cons, h, ih]

theorem isClosed_ofNullableText (s : Option String) : (ofNullableText s).IsClosed := by
  cases s
  · exact .null
  · exact .text _

theorem isClosed_map {α : Type} {write : α → Value} (h : ∀ a, (write a).IsClosed) (as : List α) :
    (Value.array (as.map write)).IsClosed := by
  refine .array fun v hv => ?_
  obtain ⟨a, -, rfl⟩ := List.mem_map.mp hv
  exact h a

end Value

end Json

/-! ### Names -/

@[simp] theorem TypeKind.ofName_name (k : TypeKind) : ofName k.name = k := by
  cases k <;> decide

@[simp] theorem MemberKind.ofName_name (k : MemberKind) : ofName k.name = k := by
  cases k <;> decide

@[simp] theorem Modifier.ofValue?_toValue (ms : List Modifier) : ofValue? (toValue ms) = some ms :=
  Value.list?_map (fun m => by cases m <;> decide) ms

@[simp] theorem textsOfValue?_textsToValue (texts : List String) :
    textsOfValue? (textsToValue texts) = some texts :=
  Value.list?_map Value.text?_ofText texts

theorem Modifier.isClosed_toValue (ms : List Modifier) : (toValue ms).IsClosed :=
  Value.isClosed_map (fun m : Modifier => .text m.text) ms

theorem isClosed_textsToValue (texts : List String) : (textsToValue texts).IsClosed :=
  Value.isClosed_map .text texts

/-! ### Records -/

theorem ImportSummary.ofValue?_toValue (i : ImportSummary) : ofValue? i.toValue = some i := by
  rw [ofValue?, toValue, record?_ofFields]
  · simp [Record.optional?, List.lookup_cons]
  · rfl
  · decide

theorem ParameterSummary.ofValue?_toValue (p : ParameterSummary) : ofValue? p.toValue = some p := by
  rw [ofValue?, toValue, record?_ofFields]
  · simp [Record.optional?, Record.required?, List.lookup_cons]
  · rfl
  · decide

theorem MemberSummary.ofValue?_toValue (m : MemberSummary) : ofValue? m.toValue = some m := by
  rw [ofValue?, toValue, record?_ofFields]
  · simp [Record.optional?, Record.required?, List.lookup_cons,
      Value.list?_map ParameterSummary.ofValue?_toValue]
  · rfl
  · decide

theorem TypeSummary.ofValue?_toValue (t : TypeSummary) : ofValue? t.toValue = some t := by
  rw [ofValue?, toValue, record?_ofFields]
  · simp [Record.optional?, Record.required?, List.lookup_cons, Value.list?_map MemberSummary.ofValue?_toValue]
  · rfl
  · decide

theorem UnitSummary.ofValue?_toValue (u : UnitSummary) : ofValue? u.toValue = some u := by
  rw [ofValue?, toValue, record?_ofFields]
  · simp [Record.optional?, List.lookup_cons, Value.list?_map ImportSummary.ofValue?_toValue,
      Value.list?_map TypeSummary.ofValue?_toValue]
  · rfl
  · decide

/-! ### Documents -/

theorem ImportSummary.isClosed (i : ImportSummary) : i.toValue.IsClosed :=
  .object <| by simp [Value.IsClosed.text, Value.IsClosed.bool]

theorem ParameterSummary.isClosed (p : ParameterSummary) : p.toValue.IsClosed :=
  .object <| by simp [Value.IsClosed.text, Value.IsClosed.bool]

theorem MemberSummary.isClosed (m : MemberSummary) : m.toValue.IsClosed :=
  .object <| by
    simp [Value.IsClosed.text, Value.isClosed_ofNullableText, Modifier.isClosed_toValue,
      isClosed_textsToValue, Value.isClosed_map ParameterSummary.isClosed]

theorem TypeSummary.isClosed (t : TypeSummary) : t.toValue.IsClosed :=
  .object <| by
    simp [Value.IsClosed.text, Value.isClosed_ofNullableText, Modifier.isClosed_toValue,
      isClosed_textsToValue, Value.isClosed_map MemberSummary.isClosed]

theorem UnitSummary.isClosed (u : UnitSummary) : u.toValue.IsClosed :=
  .object <| by
    simp [Value.isClosed_ofNullableText, Value.isClosed_map ImportSummary.isClosed,
      Value.isClosed_map TypeSummary.isClosed]

/-- Every summary is read back from its document. -/
theorem UnitSummary.ofDocument_toDocument (u : UnitSummary) : ofDocument u.toDocument = .ok u := by
  rw [ofDocument, fromDocument, toDocument, u.isClosed.document?, Option.bind_some, u.ofValue?_toValue]

end JavaTree
