import JavaTree.Fault
import JavaTree.Text.Hex

/-!
Quoted literals: how a text is written between quotes, and how it is read back.

`escape` writes the body of a literal, `scan` reads one that follows an opening quote. A literal
ends on its own line: a line break before the closing quote leaves it unterminated, even after a
backslash. A literal that is closed but holds an unknown escape is read through its closing quote
all the same, so that reading goes on behind it.

    text:    a  "  newline  bell      \      é
    written: a \"  \n       \u0007    \\     é
-/

namespace JavaTree.Literal

/-- Characters without a shape of their own: the two blocks of control codes. -/
def isControl (c : Char) : Bool :=
  c.toNat < 0x20 ∨ (0x7f ≤ c.toNat ∧ c.toNat < 0xa0)

/-- The letter that stands for a character after a backslash. -/
def shortEscape? : Char → Option Char
  | '\\' => some '\\'
  | '\n' => some 'n'
  | '\t' => some 't'
  | '\r' => some 'r'
  | '\x08' => some 'b'
  | '\x0c' => some 'f'
  | '\x00' => some '0'
  | _ => none

/-- One character as it is written between the given quotes. -/
def escapeChar (quote c : Char) : List Char :=
  match shortEscape? c with
  | some letter => ['\\', letter]
  | none =>
    if c = quote then ['\\', c]
    else if isControl c then '\\' :: 'u' :: Text.Hex.four c.toNat
    else [c]

/-- The body of a literal with the given quote. -/
def escapeChars (quote : Char) (cs : List Char) : List Char := cs.flatMap (escapeChar quote)

/-- The body of a literal with the given quote, as text. -/
def escape (value : String) (quote : Char) : String :=
  String.ofList (escapeChars quote value.toList)

/-- The character that a one-letter escape stands for. -/
def unescape? : Char → Option Char
  | 'n' => some '\n'
  | 't' => some '\t'
  | 'r' => some '\r'
  | 'b' => some '\x08'
  | 'f' => some '\x0c'
  | '0' => some '\x00'
  | '\\' => some '\\'
  | '\'' => some '\''
  | '"' => some '"'
  | _ => none

/-- The character of a code unit; half of a surrogate pair has none and becomes U+FFFD. -/
def ofUnit (n : Nat) : Char :=
  if n.isValidChar then Char.ofNat n else '\ufffd'

/-- How the reading of a literal's body ended. -/
inductive Body where
  /-- The closing quote was found, and the body stands for this text. -/
  | closed (value : List Char)
  /-- The closing quote was found, but the body holds this fault, the first of them. -/
  | faulty (kind : FaultKind)
  /-- A line or the input ended before the closing quote. -/
  | unclosed
  deriving DecidableEq

namespace Body

/-- Puts a character in front of what a body stands for. -/
def prepend (c : Char) : Body → Body
  | closed value => closed (c :: value)
  | faulty kind => faulty kind
  | unclosed => unclosed

/-- Puts a fault in front of a body: it hides later faults, and an unclosed body stays unclosed. -/
def blame (kind : FaultKind) : Body → Body
  | unclosed => unclosed
  | _ => faulty kind

end Body

/-- A literal's body as it was read, and how many characters that took, closing quote included. -/
structure Scan where
  width : Nat
  body : Body
  deriving DecidableEq

/-- Widens a scan by the characters read before it, and adjusts its body. -/
def Scan.after (s : Scan) (n : Nat) (f : Body → Body) : Scan := ⟨s.width + n, f s.body⟩

/-- Reads the body of a literal whose opening quote has been passed. -/
def scan (quote : Char) : List Char → Scan
  | [] => ⟨0, .unclosed⟩
  | c :: rest =>
    if c = quote then ⟨1, .closed []⟩
    else if c = '\n' ∨ c = '\r' then ⟨0, .unclosed⟩
    else if c ≠ '\\' then (scan quote rest).after 1 (.prepend c)
    else match rest with
      | [] => ⟨1, .unclosed⟩
      | e :: more =>
        if e = '\n' ∨ e = '\r' then ⟨1, .unclosed⟩
        else if e = 'u' then
          match more with
          | w :: x :: y :: z :: tail =>
            match Text.Hex.unit? w x y z with
            | some n => (scan quote tail).after 6 (.prepend (ofUnit n))
            | none => (scan quote (w :: x :: y :: z :: tail)).after 2 (.blame .invalidUnicodeEscape)
          | short => (scan quote short).after 2 (.blame .invalidUnicodeEscape)
        else match unescape? e with
          | some d => (scan quote more).after 2 (.prepend d)
          | none => (scan quote more).after 2 (.blame (.invalidEscape e))

end JavaTree.Literal
