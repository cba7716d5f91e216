import JavaTree.Token

/-!
The shapes of tokens other than quoted literals.

A shape is given by how far it reaches: a function from the remaining text to the number of
characters of the longest piece of that shape at its start, or `none` if there is no such piece.
`table` lists all shapes together with the kind of token that each makes. The reader of tokens
takes, at every place, the longest piece that any shape offers.

    1_000L   decimal        0x1F   hexadecimal        1.5e-3f   1.   pointed
    017      decimal        0b01   binary             .5d            leading point
                                                      1e9  1f        exponent, suffixed
-/

namespace JavaTree.Pattern

/-- How many characters at the start of a text belong to a class. -/
def run (p : Char → Bool) (cs : List Char) : Nat := (cs.takeWhile p).length

/-- One if the text starts with a character of a class, and zero otherwise. -/
def one (p : Char → Bool) : List Char → Nat
  | c :: _ => if p c then 1 else 0
  | [] => 0

/-- Decimal digits. -/
def isDigit (c : Char) : Bool := '0' ≤ c ∧ c ≤ '9'

/-- Decimal digits and the underscore that groups them. -/
def isDigitOrGap (c : Char) : Bool := isDigit c || c == '_'

/-- Hexadecimal digits and the underscore that groups them. -/
def isHexOrGap (c : Char) : Bool :=
  isDigitOrGap c || ('a' ≤ c ∧ c ≤ 'f') || ('A' ≤ c ∧ c ≤ 'F')

/-- Binary digits and the underscore that groups them. -/
def isBitOrGap (c : Char) : Bool := c == '0' || c == '1' || c == '_'

/-- The mark of a long integer. -/
def isLongMark (c : Char) : Bool := c == 'l' || c == 'L'

/-- The marks of a number with single or double precision. -/
def isPrecisionMark (c : Char) : Bool := c == 'f' || c == 'F' || c == 'd' || c == 'D'

/-- Letters that may start a name. -/
def isNameStart (c : Char) : Bool :=
  ('a' ≤ c ∧ c ≤ 'z') || ('A' ≤ c ∧ c ≤ 'Z') || c == '_' || c == '$'

/-- Characters that may go on with a name. -/
def isNamePart (c : Char) : Bool := isNameStart c || isDigit c

/-- Blank characters. -/
def isBlank (c : Char) : Bool :=
  c == ' ' || c == '\t' || c == '\n' || c == '\r' || c == '\x0c'

/-- The length of a run of digits that starts with a digit, zero if there is none. -/
def digits : List Char → Nat
  | c :: cs => if isDigit c then 1 + run isDigitOrGap cs else 0
  | [] => 0

/-- The length of a complete exponent, zero if there is none. -/
def exponent : List Char → Nat
  | c :: cs =>
    if c == 'e' || c == 'E' then
      let sign := one (fun d => d == '+' || d == '-') cs
      let power := run isDigit (cs.drop sign)
      if power = 0 then 0 else 1 + sign + power
    else 0
  | [] => 0

/-- The length of an optional exponent with an optional precision mark after it. -/
def floatTail (cs : List Char) : Nat :=
  let e := exponent cs
  e + one isPrecisionMark (cs.drop e)

/-- A length that counts only if something was found. -/
def found (n : Nat) : Option Nat := if n = 0 then none else some n

/-- Decimal and octal integers. -/
def decimal? (cs : List Char) : Option Nat :=
  (found (digits cs)).map fun n => n + one isLongMark (cs.drop n)

/-- Integers with a base letter after a zero. -/
def based? (isBase isDigitOfBase : Char → Bool) : List Char → Option Nat
  | '0' :: b :: cs =>
    if isBase b then
      (found (run isDigitOfBase cs)).map fun n => 2 + n + one isLongMark (cs.drop n)
    else none
  | _ => none

/-- Hexadecimal integers. -/
def hexadecimal? : List Char → Option Nat := based? (fun b => b == 'x' || b == 'X') isHexOrGap

/-- Binary integers. -/
def binary? : List Char → Option Nat := based? (fun b => b == 'b' || b == 'B') isBitOrGap

/-- Numbers with digits before a point. -/
def pointed? (cs : List Char) : Option Nat :=
  (found (digits cs)).bind fun n =>
    match cs.drop n with
    | '.' :: rest =>
      let m := run isDigitOrGap rest
      some (n + 1 + m + floatTail (rest.drop m))
    | _ => none

/-- Numbers that start with a point. -/
def leadingPoint? : List Char → Option Nat
  | '.' :: rest => (found (digits rest)).map fun n => 1 + n + floatTail (rest.drop n)
  | _ => none

/-- Numbers without a point and with an exponent. -/
def exponential? (cs : List Char) : Option Nat :=
  (found (digits cs)).bind fun n =>
    (found (exponent (cs.drop n))).map fun e => n + e + one isPrecisionMark (cs.drop (n + e))

/-- Numbers without a point and exponent, and with a precision mark. -/
def suffixed? (cs : List Char) : Option Nat :=
  (found (digits cs)).bind fun n =>
    (found (one isPrecisionMark (cs.drop n))).map fun s => n + s

/-- Names, reserved words among them. -/
def name? : List Char → Option Nat
  | c :: cs => if isNameStart c then some (1 + run isNamePart cs) else none
  | [] => none

/-- Runs of blanks. -/
def blank? (cs : List Char) : Option Nat := found (run isBlank cs)

/-- Comments that reach to the end of their line. -/
def lineComment? : List Char → Option Nat
  | '/' :: '/' :: cs => some (2 + run (· != '\n') cs)
  | _ => none

/-- How far it is to the end of the first `*/`. -/
def commentEnd? : List Char → Option Nat
  | [] => none
  | c :: cs =>
    if c = '*' ∧ cs.head? = some '/' then some 2 else (commentEnd? cs).map (· + 1)

/-- Comments between `/*` and the first `*/` after it. -/
def blockComment? : List Char → Option Nat
  | '/' :: '*' :: cs => (commentEnd? cs).map (· + 2)
  | _ => none

/-- The mark at the start of a text that has the longest spelling. -/
def mark? (cs : List Char) : Option Mark := Mark.all.find? fun m => m.chars.isPrefixOf cs

/-- The invisible mark that some writers put at the start of a file. -/
def byteOrderMark? (cs : List Char) : Option Nat := found (one (· == '\ufeff') cs)

/-- The kind of a name: the reserved word that it spells, or an identifier. -/
def nameKind (cs : List Char) : Kind :=
  match Keyword.ofText? (String.ofList cs) with
  | some k => .keyword k
  | none => .identifier

/-- What every shape offers at the start of a text. -/
def offers (cs : List Char) : List (Option (Kind × Nat)) :=
  [ (name? cs).map fun n => (nameKind (cs.take n), n)
  , (blank? cs).map fun n => (.blank, n)
  , (lineComment? cs).map fun n => (.lineComment, n)
  , (blockComment? cs).map fun n => (.blockComment, n)
  , (mark? cs).map fun m => (.mark m, m.chars.length)
  , (decimal? cs).map fun n => (.integer, n)
  , (hexadecimal? cs).map fun n => (.integer, n)
  , (binary? cs).map fun n => (.integer, n)
  , (pointed? cs).map fun n => (.float, n)
  , (leadingPoint? cs).map fun n => (.float, n)
  , (exponential? cs).map fun n => (.float, n)
  , (suffixed? cs).map fun n => (.float, n)
  , (byteOrderMark? cs).map fun n => (.byteOrderMark, n) ]

/-- The longer of two offers, the first one if they are equally long. -/
def longer : Option (Kind × Nat) → Option (Kind × Nat) → Option (Kind × Nat)
  | some a, some b => if a.2 < b.2 then some b else some a
  | some a, none => some a
  | none, b => b

/-- The longest piece that any shape offers. -/
def longest? (cs : List Char) : Option (Kind × Nat) := (offers cs).foldl longer none

end JavaTree.Pattern
