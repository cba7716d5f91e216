/-!
The words that qualify a declaration.
-/

namespace JavaTree

/-- A modifier of a type, a member or a variable. A trailing underscore marks a word that would
otherwise be read as a keyword of the surrounding text. -/
inductive Modifier where
  | public_ | protected_ | private_ | abstract_ | static_ | final_
  | native_ | synchronized_ | transient_ | volatile_ | strictfp_ | default_
  deriving DecidableEq, Repr

namespace Modifier

/-- Every modifier, in the order in which they are declared. -/
def all : List Modifier :=
  [public_, protected_, private_, abstract_, static_, final_,
   native_, synchronized_, transient_, volatile_, strictfp_, default_]

/-- The word a modifier is written as. -/
def text : Modifier → String
  | public_ => "public"
  | protected_ => "protected"
  | private_ => "private"
  | abstract_ => "abstract"
  | static_ => "static"
  | final_ => "final"
  | native_ => "native"
  | synchronized_ => "synchronized"
  | transient_ => "transient"
  | volatile_ => "volatile"
  | strictfp_ => "strictfp"
  | default_ => "default"

/-- The modifier that a word spells. -/
def ofText? (s : String) : Option Modifier := all.find? (·.text = s)

/-- What is said of a word that spells no modifier. -/
def unknownMessage (s : String) : String := "unknown modifier '" ++ s ++ "'"

/-- The words of a list of modifiers, each followed by a space. -/
def lead (ms : List Modifier) : String :=
  String.join (ms.map fun m => m.text ++ " ")

end Modifier

end JavaTree
