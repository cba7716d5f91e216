import JavaTree.Location
import JavaTree.Modifier

/-!
The words and marks of a source text.

A `Kind` says what a token is, a `Token` adds its text and its place. The classes of kinds that the
rest of the library asks about (words, literals, operators, trivia) are predicates on `Kind`.
-/

namespace JavaTree

/-- The names of the built-in types; `void` is not one of them. -/
inductive Primitive where
  | boolean | byte | short | int | long | char | float | double
  deriving DecidableEq, Repr

namespace Primitive

/-- Every built-in type. -/
def all : List Primitive := [boolean, byte, short, int, long, char, float, double]

/-- The word a built-in type is written as. -/
def text : Primitive → String
  | boolean => "boolean"
  | byte => "byte"
  | short => "short"
  | int => "int"
  | long => "long"
  | char => "char"
  | float => "float"
  | double => "double"

end Primitive

/-- The reserved words. -/
inductive Keyword where
  | modifier (m : Modifier)
  | primitive (p : Primitive)
  | package_ | import_ | class_ | interface_ | enum_ | extends_ | implements_
  | new_ | this_ | super_ | instanceof_ | void_
  | if_ | else_ | for_ | while_ | do_ | switch_ | case_ | assert_
  | break_ | continue_ | return_ | throw_ | throws_ | try_ | catch_ | finally_
  | const_ | goto_ | true_ | false_ | null_
  deriving DecidableEq, Repr

namespace Keyword

/-- Every reserved word. -/
def all : List Keyword :=
  Modifier.all.map modifier ++ Primitive.all.map primitive ++
  [package_, import_, class_, interface_, enum_, extends_, implements_,
   new_, this_, super_, instanceof_, void_,
   if_, else_, for_, while_, do_, switch_, case_, assert_,
   break_, continue_, return_, throw_, throws_, try_, catch_, finally_,
   const_, goto_, true_, false_, null_]

/-- The spelling of a reserved word. -/
def text : Keyword → String
  | modifier m => m.text
  | primitive p => p.text
  | package_ => "package"
  | import_ => "import"
  | class_ => "class"
  | interface_ => "interface"
  | enum_ => "enum"
  | extends_ => "extends"
  | implements_ => "implements"
  | new_ => "new"
  | this_ => "this"
  | super_ => "super"
  | instanceof_ => "instanceof"
  | void_ => "void"
  | if_ => "if"
  | else_ => "else"
  | for_ => "for"
  | while_ => "while"
  | do_ => "do"
  | switch_ => "switch"
  | case_ => "case"
  | assert_ => "assert"
  | break_ => "break"
  | continue_ => "continue"
  | return_ => "return"
  | throw_ => "throw"
  | throws_ => "throws"
  | try_ => "try"
  | catch_ => "catch"
  | finally_ => "finally"
  | const_ => "const"
  | goto_ => "goto"
  | true_ => "true"
  | false_ => "false"
  | null_ => "null"

/-- The reserved word that a text spells, if any. -/
def ofText? (s : String) : Option Keyword := all.find? (·.text = s)

end Keyword

/-- Operators, separators and brackets. -/
inductive Mark where
  | assign | addAssign | subAssign | mulAssign | divAssign | modAssign
  | andAssign | orAssign | xorAssign | leftShiftAssign | rightShiftAssign | unsignedShiftAssign
  | plus | minus | star | slash | percent | increment | decrement
  | bang | tilde | ampersand | pipe | caret
  | leftShift | rightShift | unsignedShift | logicalAnd | logicalOr
  | equal | notEqual | less | lessEqual | greater | greaterEqual
  | question | colon | arrow
  | doubleColon
  | openParen | closeParen | openBracket | closeBracket | openBrace | closeBrace
  | semicolon | comma | dot | atSign | ellipsis
  deriving DecidableEq, Repr

namespace Mark

/-- Every mark, the longer spellings before the shorter ones. -/
def all : List Mark :=
  [unsignedShiftAssign,
   leftShiftAssign, rightShiftAssign, unsignedShift, ellipsis,
   addAssign, subAssign, mulAssign, divAssign, modAssign, andAssign, orAssign, xorAssign,
   increment, decrement, leftShift, rightShift, logicalAnd, logicalOr,
   equal, notEqual, lessEqual, greaterEqual, doubleColon, arrow,
   assign, plus, minus, star, slash, percent, bang, tilde, ampersand, pipe, caret,
   less, greater, question, colon,
   openParen, closeParen, openBracket, closeBracket, openBrace, closeBrace,
   semicolon, comma, dot, atSign]

/-- The characters a mark is written with. -/
def chars : Mark → List Char
  | assign => ['=']
  | addAssign => ['+', '=']
  | subAssign => ['-', '=']
  | mulAssign => ['*', '=']
  | divAssign => ['/', '=']
  | modAssign => ['%', '=']
  | andAssign => ['&', '=']
  | orAssign => ['|', '=']
  | xorAssign => ['^', '=']
  | leftShiftAssign => ['<', '<', '=']
  | rightShiftAssign => ['>', '>', '=']
  | unsignedShiftAssign => ['>', '>', '>', '=']
  | plus => ['+']
  | minus => ['-']
  | star => ['*']
  | slash => ['/']
  | percent => ['%']
  | increment => ['+', '+']
  | decrement => ['-', '-']
  | bang => ['!']
  | tilde => ['~']
  | ampersand => ['&']
  | pipe => ['|']
  | caret => ['^']
  | leftShift => ['<', '<']
  | rightShift => ['>', '>']
  | unsignedShift => ['>', '>', '>']
  | logicalAnd => ['&', '&']
  | logicalOr => ['|', '|']
  | equal => ['=', '=']
  | notEqual => ['!', '=']
  | less => ['<']
  | lessEqual => ['<', '=']
  | greater => ['>']
  | greaterEqual => ['>', '=']
  | question => ['?']
  | colon => [':']
  | arrow => ['-', '>']
  | doubleColon => [':', ':']
  | openParen => ['(']
  | closeParen => [')']
  | openBracket => ['[']
  | closeBracket => [']']
  | openBrace => ['{']
  | closeBrace => ['}']
  | semicolon => [';']
  | comma => [',']
  | dot => ['.']
  | atSign => ['@']
  | ellipsis => ['.', '.', '.']

/-- The name under which listings show a mark. -/
def name : Mark → String
  | assign => "Assign"
  | addAssign => "AddAssign"
  | subAssign => "SubAssign"
  | mulAssign => "MulAssign"
  | divAssign => "DivAssign"
  | modAssign => "ModAssign"
  | andAssign => "AndAssign"
  | orAssign => "OrAssign"
  | xorAssign => "XorAssign"
  | leftShiftAssign => "LShiftAssign"
  | rightShiftAssign => "RShiftAssign"
  | unsignedShiftAssign => "URShiftAssign"
  | plus => "Plus"
  | minus => "Minus"
  | star => "Star"
  | slash => "Slash"
  | percent => "Percent"
  | increment => "Inc"
  | decrement => "Dec"
  | bang => "Bang"
  | tilde => "Tilde"
  | ampersand => "Amp"
  | pipe => "Pipe"
  | caret => "Caret"
  | leftShift => "LShift"
  | rightShift => "RShift"
  | unsignedShift => "URShift"
  | logicalAnd => "AndAnd"
  | logicalOr => "PipePipe"
  | equal => "Eq"
  | notEqual => "Ne"
  | less => "Lt"
  | lessEqual => "Le"
  | greater => "Gt"
  | greaterEqual => "Ge"
  | question => "Question"
  | colon => "Colon"
  | arrow => "Arrow"
  | doubleColon => "DoubleColon"
  | openParen => "LParen"
  | closeParen => "RParen"
  | openBracket => "LBracket"
  | closeBracket => "RBracket"
  | openBrace => "LBrace"
  | closeBrace => "RBrace"
  | semicolon => "Semicolon"
  | comma => "Comma"
  | dot => "Dot"
  | atSign => "At"
  | ellipsis => "Ellipsis"

/-- Marks that compute, as opposed to those that separate or bracket. -/
def isOperator : Mark → Bool
  | doubleColon | openParen | closeParen | openBracket | closeBracket | openBrace | closeBrace
  | semicolon | comma | dot | atSign | ellipsis => false
  | _ => true

/-- The bracket that closes an opening bracket. -/
def closer? : Mark → Option Mark
  | openParen => some closeParen
  | openBracket => some closeBracket
  | openBrace => some closeBrace
  | _ => none

/-- Brackets that close. -/
def isCloser : Mark → Bool
  | closeParen | closeBracket | closeBrace => true
  | _ => false

end Mark

/-- What a token is. Quoted literals carry the text they stand for. -/
inductive Kind where
  | keyword (word : Keyword)
  | mark (mark : Mark)
  | identifier
  | integer
  | float
  | string (value : String)
  | character (value : Char)
  | lineComment
  | blockComment
  | blank
  | byteOrderMark
  | invalid
  | endOfInput
  deriving DecidableEq, Repr

instance : Coe Keyword Kind := ⟨Kind.keyword⟩
instance : Coe Mark Kind := ⟨Kind.mark⟩

namespace Kind

/-- Reserved words. -/
def isKeyword : Kind → Bool
  | keyword _ => true
  | _ => false

/-- The modifier that a token spells, if any. -/
def modifier? : Kind → Option Modifier
  | keyword (.modifier m) => some m
  | _ => none

/-- Words that qualify a declaration. -/
def isModifier (k : Kind) : Bool := k.modifier?.isSome

/-- Names of built-in types, `void` apart. -/
def isPrimitive : Kind → Bool
  | keyword (.primitive _) => true
  | _ => false

/-- Literal values, the words `true`, `false` and `null` among them. -/
def isLiteral : Kind → Bool
  | string _ | character _ | integer | float => true
  | keyword .true_ | keyword .false_ | keyword .null_ => true
  | _ => false

/-- Tokens that run together when they are written without a separator. -/
def isWord : Kind → Bool
  | identifier | integer | float | keyword _ => true
  | _ => false

/-- Marks that compute. -/
def isOperator : Kind → Bool
  | mark m => m.isOperator
  | _ => false

/-- Text between tokens: blanks, comments and byte order marks. -/
def isTrivia : Kind → Bool
  | blank | byteOrderMark | lineComment | blockComment => true
  | _ => false

/-- The literal text behind a quoted literal. -/
def value? : Kind → Option String
  | string v => some v
  | character c => some (String.singleton c)
  | _ => none

end Kind

/-- The words under which listings show reserved words: capitalised. -/
def Keyword.name (k : Keyword) : String :=
  if k = .instanceof_ then "InstanceOf" else k.text.capitalize

/-- The word under which listings show a kind of token, without the value of a literal. -/
def Kind.name : Kind → String
  | .keyword k => k.name
  | .mark m => m.name
  | .identifier => "Identifier"
  | .integer => "IntegerLiteral"
  | .float => "FloatLiteral"
  | .string _ => "StringLiteral"
  | .character _ => "CharLiteral"
  | .lineComment => "LineComment"
  | .blockComment => "BlockComment"
  | .blank => "Whitespace"
  | .byteOrderMark => "Bom"
  | .invalid => "Invalid"
  | .endOfInput => "Eof"

/-- A token: what it is, the text it was read from, and where that text starts. -/
structure Token where
  kind : Kind
  lexeme : String
  location : Location
  deriving DecidableEq

/-- The token that stands after the last one of a text. -/
def Token.endAt (l : Location) : Token := ⟨.endOfInput, "", l⟩

end JavaTree
