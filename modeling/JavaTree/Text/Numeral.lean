/-!
Numbers written in decimal digits.
-/

namespace JavaTree.Text.Numeral

/-- The least number that does not fit a machine word. -/
def wordLimit : Nat := 0x1_0000_0000_0000_0000

/-- The number that a run of decimal digits spells, after those already read. -/
def value? (read : Nat) : List Char → Option Nat
  | [] => some read
  | c :: cs =>
    if '0' ≤ c ∧ c ≤ '9' then value? (read * 10 + (c.toNat - '0'.toNat)) cs else none

/-- The number that a text spells: decimal digits, perhaps after a plus sign, and small enough for
a machine word. -/
def word? (s : String) : Option Nat :=
  let digits := match s.toList with
    | '+' :: rest => rest
    | cs => cs
  if digits.isEmpty then none
  else (value? 0 digits).filter (· < wordLimit)

end JavaTree.Text.Numeral
