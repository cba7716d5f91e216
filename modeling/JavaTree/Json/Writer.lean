import JavaTree.Json.Value
import JavaTree.Text.Hex

/-!
Writing JSON documents: one item or field on a line, two spaces for each level.
-/

namespace JavaTree.Json

/-- One character of a text. -/
def textChar (c : Char) : List Char :=
  match c with
  | '"' => ['\\', '"']
  | '\\' => ['\\', '\\']
  | '\x08' => ['\\', 'b']
  | '\x0c' => ['\\', 'f']
  | '\n' => ['\\', 'n']
  | '\r' => ['\\', 'r']
  | '\t' => ['\\', 't']
  | c => if c.toNat < 0x20 then '\\' :: 'u' :: Text.Hex.four c.toNat else [c]

/-- A text in quotes. -/
def quote (s : String) : String := "\"" ++ String.ofList (s.toList.flatMap textChar) ++ "\""

/-- A new line at a level. -/
def newLine (level : Nat) : String := "\n" ++ String.join (List.replicate level "  ")

/-- Parts between brackets, each on a line of its own one level further in. -/
def enclose (level : Nat) (opening closing : String) (parts : List String) : String :=
  if parts.isEmpty then opening ++ closing
  else
    opening ++ newLine (level + 1) ++ ("," ++ newLine (level + 1)).intercalate parts ++
      newLine level ++ closing

mutual

/-- A value at a level. What was left open when it was read is written as `null`. -/
def Value.render (level : Nat) : Value → String
  | .null => "null"
  | .bool b => if b then "true" else "false"
  | .number n =>
    match n with
    | some n => toString n
    | none => "null"
  | .text s =>
    match s with
    | some s => quote s
    | none => "null"
  | .array items => enclose level "[" "]" (Value.renderItems (level + 1) items)
  | .object fields => enclose level "\x7b" "\x7d" (Value.renderFields (level + 1) fields)

/-- The items of an array at a level. -/
def Value.renderItems (level : Nat) : List Value → List String
  | [] => []
  | v :: vs => v.render level :: Value.renderItems level vs

/-- The fields of an object at a level. -/
def Value.renderFields (level : Nat) : List (Option String × Value) → List String
  | [] => []
  | (name, v) :: fs => (quote (name.getD "") ++ ": " ++ v.render level) ::
      Value.renderFields level fs

end

end JavaTree.Json
