import JavaTree.Json.Value

/-!
Records in JSON documents.

A record is an object whose fields have known names, in any order. Other fields are passed over, but
a known one must not be repeated. A record may also be an array that holds the fields in the order
of their declaration; the last ones may be missing.
-/

namespace JavaTree.Json

/-- The fields of a record that are present, by name. -/
abbrev Record := List (String × Value)

/-- The names of fields, unless one of them is no text. -/
def readableFields? : List (Option String × Value) → Option Record
  | [] => some []
  | (some name, v) :: fs => (readableFields? fs).map ((name, v) :: ·)
  | (none, _) :: _ => none

/-- The fields of a record with the given names. -/
def record? (names : List String) : Value → Option Record
  | .object fields =>
    (readableFields? fields).bind fun r =>
      let known := r.filter fun f => names.contains f.1
      if (known.map (·.1)).Nodup then some known else none
  | .array items => if items.length ≤ names.length then some (names.zip items) else none
  | _ => none

namespace Record

/-- A field that must be present. -/
def required? (r : Record) (name : String) (read : Value → Option α) : Option α :=
  (r.lookup name).bind read

/-- A field that has a value even if it is absent. -/
def optional? (r : Record) (name : String) (absent : α) (read : Value → Option α) : Option α :=
  match r.lookup name with
  | some v => read v
  | none => some absent

end Record

/-! ### Fields -/

namespace Value

/-- A text. -/
def text? : Value → Option String
  | .text s => s
  | _ => none

/-- A text or `null`. -/
def nullableText? : Value → Option (Option String)
  | .null => some none
  | v => v.text?.map some

/-- A truth value. -/
def bool? : Value → Option Bool
  | .bool b => some b
  | _ => none

/-- A natural number of machine size. -/
def natural? : Value → Option Nat
  | .number n => n
  | _ => none

/-- A list of values of one sort. -/
def list? (read : Value → Option α) : Value → Option (List α)
  | .array items => items.mapM read
  | _ => none

/-- A name from a closed set, alone or as the only field of an object, with `null` behind it. -/
def name? : Value → Option String
  | .text s => s
  | .object [(s, .null)] => s
  | _ => none

/-- A text as a value. -/
def ofText (s : String) : Value := .text (some s)

/-- A text or `null` as a value. -/
def ofNullableText : Option String → Value
  | some s => ofText s
  | none => .null

/-- An object as a value. -/
def ofFields (fields : Record) : Value := .object (fields.map fun f => (some f.1, f.2))

end Value

end JavaTree.Json
