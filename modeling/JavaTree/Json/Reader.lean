import JavaTree.Json.Value
import JavaTree.Text.Hex
import JavaTree.Text.Numeral

/-!
Reading JSON documents.

Each reader takes the characters that are left, and gives what it has read and what is left after
it, or nothing if the text does not start with what it reads. `document?` demands that nothing but
blanks is left at the end.
-/

namespace JavaTree.Json

/-- Blanks between the parts of a document. -/
def isBlank (c : Char) : Bool := c == ' ' || c == '\n' || c == '\t' || c == '\r'

/-- What is left after blanks. -/
def skipBlanks (cs : List Char) : List Char := cs.dropWhile isBlank

/-! ### Texts -/

/-- A part of a text: a character, or a code unit written as an escape. -/
inductive Part where
  | char (c : Char)
  | unit (n : Nat)

/-- The character that a short escape stands for. -/
def shortEscape? : Char → Option Char
  | '"' => some '"'
  | '\\' => some '\\'
  | '/' => some '/'
  | 'b' => some '\x08'
  | 'f' => some '\x0c'
  | 'n' => some '\n'
  | 'r' => some '\r'
  | 't' => some '\t'
  | _ => none

/-- Puts a part in front of those read after it. -/
def consPart (p : Part) : Option (List Part × List Char) → Option (List Part × List Char) :=
  Option.map fun r => (p :: r.1, r.2)

/-- The parts of a text behind its opening quote. Control codes must be escaped. -/
def parts? : List Char → Option (List Part × List Char)
  | [] => none
  | c :: rest =>
    if c = '"' then some ([], rest)
    else if c ≠ '\\' then (if c.toNat < 0x20 then none else consPart (.char c) (parts? rest))
    else match rest with
      | 'u' :: w :: x :: y :: z :: more =>
        match Text.Hex.unit? w x y z with
        | some n => consPart (.unit n) (parts? more)
        | none => none
      | e :: more =>
        match shortEscape? e with
        | some d => consPart (.char d) (parts? more)
        | none => none
      | [] => none

/-- The first half of a surrogate pair. -/
def isHigh (n : Nat) : Bool := 0xd800 ≤ n ∧ n < 0xdc00

/-- The second half of a surrogate pair. -/
def isLow (n : Nat) : Bool := 0xdc00 ≤ n ∧ n < 0xe000

/-- The character of a surrogate pair. -/
def pairChar (high low : Nat) : Char :=
  Char.ofNat (0x10000 + (high - 0xd800) * 0x400 + (low - 0xdc00))

/-- The characters of a text: code units count one by one or in surrogate pairs. -/
def assemble? : List Part → Option (List Char)
  | [] => some []
  | .char c :: ps => (assemble? ps).map (c :: ·)
  | .unit n :: ps =>
    if isHigh n then
      match ps with
      | .unit m :: more =>
        if isLow m then (assemble? more).map (pairChar n m :: ·) else none
      | _ => none
    else if isLow n then none
    else (assemble? ps).map (Char.ofNat n :: ·)

/-- A text behind its opening quote. -/
def text? (cs : List Char) : Option (Option String × List Char) :=
  (parts? cs).map fun r => ((assemble? r.1).map String.ofList, r.2)

/-! ### Numbers -/

/-- Decimal digits. -/
def isDigit (c : Char) : Bool := '0' ≤ c ∧ c ≤ '9'

/-- The digits before the point: a zero alone, or digits that do not start with zero. -/
def whole? : List Char → Option (List Char × List Char)
  | '0' :: rest => some (['0'], rest)
  | cs =>
    let digits := cs.takeWhile isDigit
    if digits.isEmpty then none else some (digits, cs.dropWhile isDigit)

/-- What is left after at least one digit. -/
def afterDigits? (cs : List Char) : Option (List Char) :=
  if (cs.takeWhile isDigit).isEmpty then none else some (cs.dropWhile isDigit)

/-- What is left after the digits behind the point, if there is a point. -/
def afterFraction? : List Char → Option (List Char)
  | '.' :: rest => afterDigits? rest
  | cs => some cs

/-- What is left after the exponent, if there is one. -/
def afterExponent? : List Char → Option (List Char)
  | [] => some []
  | c :: rest =>
    if c = 'e' ∨ c = 'E' then
      match rest with
      | '+' :: more => afterDigits? more
      | '-' :: more => afterDigits? more
      | more => afterDigits? more
    else some (c :: rest)

/-- A number. It has a value if it is written without sign, point and exponent and is of machine
size. -/
def number? (cs : List Char) : Option (Option Nat × List Char) :=
  let (negative, unsigned) := match cs with
    | '-' :: rest => (true, rest)
    | cs => (false, cs)
  (whole? unsigned).bind fun (digits, rest) =>
    (afterFraction? rest).bind fun rest' =>
      (afterExponent? rest').map fun rest'' =>
        let isPlain := !negative && rest''.length = rest.length
        let value := (Text.Numeral.value? 0 digits).filter (· < Text.Numeral.wordLimit)
        (if isPlain then value else none, rest'')

/-! ### Values -/

/-- What is left after a word. -/
def afterWord? (word cs : List Char) : Option (List Char) :=
  if word.isPrefixOf cs then some (cs.drop word.length) else none

/-- A value that holds no other values. -/
def scalar? (cs : List Char) : Option (Value × List Char) :=
  match cs with
  | '"' :: rest => (text? rest).map fun r => (.text r.1, r.2)
  | 'n' :: _ => (afterWord? ['n', 'u', 'l', 'l'] cs).map fun r => (.null, r)
  | 't' :: _ => (afterWord? ['t', 'r', 'u', 'e'] cs).map fun r => (.bool true, r)
  | 'f' :: _ => (afterWord? ['f', 'a', 'l', 's', 'e'] cs).map fun r => (.bool false, r)
  | _ => (number? cs).map fun r => (.number r.1, r.2)

/-- The name of a field and the colon behind it. -/
def fieldName? (cs : List Char) : Option (Option String × List Char) :=
  match skipBlanks cs with
  | '"' :: rest =>
    (text? rest).bind fun r =>
      match skipBlanks r.2 with
      | ':' :: more => some (r.1, more)
      | _ => none
  | _ => none

mutual

/-- A value, with blanks before it. The first argument bounds the depth of the search. -/
def value? : Nat → List Char → Option (Value × List Char)
  | 0, _ => none
  | n + 1, cs =>
    match skipBlanks cs with
    | '[' :: rest =>
      match skipBlanks rest with
      | ']' :: more => some (.array [], more)
      | _ => (items? n rest).map fun r => (.array r.1, r.2)
    | '{' :: rest =>
      match skipBlanks rest with
      | '}' :: more => some (.object [], more)
      | _ => (fields? n rest).map fun r => (.object r.1, r.2)
    | cs => scalar? cs

/-- The items of an array and its closing bracket. -/
def items? : Nat → List Char → Option (List Value × List Char)
  | 0, _ => none
  | n + 1, cs =>
    match value? n cs with
    | none => none
    | some (v, rest) =>
      match skipBlanks rest with
      | ',' :: more => (items? n more).map fun r => (v :: r.1, r.2)
      | ']' :: more => some ([v], more)
      | _ => none

/-- The fields of an object and its closing brace. -/
def fields? : Nat → List Char → Option (List (Option String × Value) × List Char)
  | 0, _ => none
  | n + 1, cs =>
    match fieldName? cs with
    | none => none
    | some (name, rest) =>
      match value? n rest with
      | none => none
      | some (v, rest') =>
        match skipBlanks rest' with
        | ',' :: more => (fields? n more).map fun r => ((name, v) :: r.1, r.2)
        | '}' :: more => some ([(name, v)], more)
        | _ => none

end

/-- The value that a document holds. Each value takes at least one character and at most two steps
of the search. -/
def document? (s : String) : Option Value :=
  match value? (2 * s.toList.length + 2) s.toList with
  | some (v, rest) => if (skipBlanks rest).isEmpty then some v else none
  | none => none

end JavaTree.Json
