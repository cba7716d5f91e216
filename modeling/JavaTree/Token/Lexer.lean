import JavaTree.Token.Literal
import JavaTree.Token.Pattern

/-!
From characters to tokens.

`read` decides what stands at the start of a text and how wide it is. `items` cuts a whole text into
such pieces, so nothing is lost: every character belongs to exactly one piece. Two views drop the
text between tokens: `tokenize` stops at the first fault, `recover` puts an invalid token in the
place of each fault and goes on.
-/

namespace JavaTree.Lexer

/-- What was read at the start of a text: a kind of token or a fault, and its width in
characters. -/
structure Reading where
  content : Except FaultKind Kind
  width : Nat

/-- Reads a string literal behind its opening quote. -/
def readString (cs : List Char) : Reading :=
  let s := Literal.scan '"' cs
  let content := match s.body with
    | .closed value => .ok (.string (String.ofList value))
    | .faulty kind => .error kind
    | .unclosed => .error .unterminatedString
  ⟨content, s.width + 1⟩

/-- Reads a character literal behind its opening quote. It must stand for one character. -/
def readCharacter (cs : List Char) : Reading :=
  let s := Literal.scan '\'' cs
  let content := match s.body with
    | .closed [c] => .ok (.character c)
    | .closed _ => .error .wrongCharacterLength
    | .faulty kind => .error kind
    | .unclosed => .error .unterminatedCharacter
  ⟨content, s.width + 1⟩

/-- True when a text starts with a block comment that is never closed. -/
def opensEndlessComment : List Char → Bool
  | '/' :: '*' :: cs => (Pattern.commentEnd? cs).isNone
  | _ => false

/-- Reads what stands at the start of a text: a quoted literal, else the longest piece that any
shape offers, else one unrecognized character. A comment that is never closed is one fault that
takes all the rest. -/
def read (cs : List Char) : Reading :=
  match cs with
  | '"' :: rest => readString rest
  | '\'' :: rest => readCharacter rest
  | cs =>
    if opensEndlessComment cs then ⟨.error .unrecognized, cs.length⟩
    else match Pattern.longest? cs with
      | some (kind, width) => ⟨.ok kind, width⟩
      | none => ⟨.error .unrecognized, 1⟩

/-- One piece of a source text. -/
inductive Item where
  | token (t : Token)
  | fault (f : Fault)
  deriving DecidableEq

/-- The piece that a reading cuts from the start of a text. -/
def Reading.item (r : Reading) (l : Location) (cs : List Char) : Item :=
  let text := String.ofList (cs.take r.width)
  match r.content with
  | .ok kind => .token ⟨kind, text, l⟩
  | .error kind => .fault ⟨kind, l, text⟩

/-- Cuts a text into pieces; `skip` characters at its start belong to a piece already cut. -/
def cut (skip : Nat) (u : Cursor) : List Char → List Item
  | [] => []
  | c :: cs =>
    match skip with
    | n + 1 => cut n (u.advance c) cs
    | 0 =>
      let r := read (c :: cs)
      r.item u.location (c :: cs) :: cut (r.width - 1) (u.advance c) cs

/-- Every piece of a source text, in order. -/
def items (source : String) : List Item := cut 0 .start source.toList

/-- The token that stands after the last piece of a source text. -/
def endToken (source : String) : Token := .endAt (.endOf source.toList)

/-- The tokens up to the end of the text, or its first fault. -/
def strict : List Item → Except Fault (List Token)
  | [] => .ok []
  | .fault f :: _ => .error f
  | .token t :: rest =>
    if t.kind.isTrivia then strict rest else (strict rest).map (t :: ·)

/-- The tokens of a source text and the end token, unless there is a fault. -/
def tokenize (source : String) : Except Fault (List Token) :=
  (strict (items source)).map (· ++ [endToken source])

/-- The token that a piece leaves in the stream: trivia leave none, a fault leaves an invalid
one. -/
def Item.token? : Item → Option Token
  | .token t => if t.kind.isTrivia then none else some t
  | .fault f => some ⟨.invalid, f.text, f.location⟩

/-- The fault that a piece is, if it is one. -/
def Item.fault? : Item → Option Fault
  | .token _ => none
  | .fault f => some f

/-- The tokens of a source text with invalid ones in the place of faults, and the end token. -/
def recover (source : String) : List Token :=
  (items source).filterMap Item.token? ++ [endToken source]

/-- The faults of a source text. -/
def faults (source : String) : List Fault := (items source).filterMap Item.fault?

end JavaTree.Lexer
