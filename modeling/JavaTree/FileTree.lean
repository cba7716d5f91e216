import JavaTree.Failure

/-!
Files and folders, as they were at one moment.

A path is a text whose parts are divided by `/`. Empty parts and `.` name the folder they stand in,
and `..` the one around it.
-/

namespace JavaTree

/-- Why a file could not be read. -/
inductive ReadFailure where
  | missing
  | isFolder
  | notFolder
  | longName
  | notText
  deriving DecidableEq

/-- What is said about a file that could not be read. -/
def ReadFailure.message : ReadFailure → String
  | missing => "No such file or directory (os error 2)"
  | isFolder => "Is a directory (os error 21)"
  | notFolder => "Not a directory (os error 20)"
  | longName => "File name too long (os error 36)"
  | notText => "stream did not contain valid UTF-8"

/-- Files with their contents, and folders that hold none, by path. -/
structure FileTree where
  files : List (String × ByteArray)
  folders : List String

namespace FileTree

/-- The characters between the given ones, cut at each slash. -/
def splitSlash (part : List Char) : List Char → List String
  | [] => [String.ofList part.reverse]
  | c :: cs =>
    if c = '/' then String.ofList part.reverse :: splitSlash [] cs else splitSlash (c :: part) cs

/-- Where a file or folder is: its name and the names of the folders around it, innermost first. -/
abbrev Address := List String

/-- The address at which a path starts: the outermost folder of all, or the folder at hand. -/
def origin (path : String) : Address :=
  if path.toList.head? = some '/' then ["/"] else []

/-- The address that one part of a path leads to. The folders around the one at hand have no names
of their own, and there is none around the outermost. -/
def step (a : Address) (part : String) : Address :=
  if part = "" ∨ part = "." then a
  else if part = ".." then
    match a with
    | [] => [".."]
    | name :: outer =>
      if name = ".." then ".." :: a
      else if name = "/" then a
      else outer
  else part :: a

/-- The address that a path names. -/
def address (path : String) : Address := (splitSlash [] path.toList).foldl step (origin path)

/-- True for the address of what lies in a folder, at any depth. -/
def isInside (folder a : Address) : Bool :=
  folder.isSuffixOf a && folder.length < a.length

/-- True for the folder at hand and those around it. -/
def isAround (a : Address) : Bool := a = ["/"] || a.all (· = "..")

/-- The file at an address. -/
def file? (t : FileTree) (a : Address) : Option (String × ByteArray) :=
  t.files.find? fun f => address f.1 = a

/-- True when there is a folder at an address. -/
def hasFolder (t : FileTree) (a : Address) : Bool :=
  isAround a || t.files.any (fun f => isInside a (address f.1)) ||
    t.folders.any (fun f => a.isSuffixOf (address f))

/-- The most bytes that a name may have. -/
def nameLimit : Nat := 255

/-- The most bytes that a path may have. -/
def pathLimit : Nat := 4095

/-- Goes from an address along the parts of a path, each of which must be found in a folder. -/
def follow (t : FileTree) (a : Address) : List String → Except ReadFailure Address
  | [] => .ok a
  | part :: parts =>
    if t.hasFolder a then
      if nameLimit < part.utf8ByteSize then .error .longName else t.follow (step a part) parts
    else if (t.file? a).isSome then .error .notFolder
    else .error .missing

/-- The address that a path leads to, if all folders on the way exist. -/
def locate (t : FileTree) (path : String) : Except ReadFailure Address :=
  if path = "" then .error .missing
  else if pathLimit < path.utf8ByteSize then .error .longName
  else t.follow (origin path) (splitSlash [] path.toList)

/-- The content of a file. -/
def read (t : FileTree) (path : String) : Except ReadFailure ByteArray :=
  (t.locate path).bind fun a =>
    match t.file? a with
    | some f => .ok f.2
    | none => if t.hasFolder a then .error .isFolder else .error .missing

/-- The content of a file as text. -/
def readText (t : FileTree) (path : String) : Except ReadFailure String :=
  (t.read path).bind fun bytes =>
    match String.fromUTF8? bytes with
    | some s => .ok s
    | none => .error .notText

/-- The content of a file as text, for an operation that fails without it. -/
def source (t : FileTree) (path : String) : Except Failure String :=
  (t.readText path).mapError fun e => .io e.message

/-- A path and what lies behind it. -/
def joinPath (folder rest : String) : String :=
  if folder.toList.getLast? = some '/' then folder ++ rest else folder ++ "/" ++ rest

/-- The path of a file at or below the address that a given path leads to, as it is reached from
there. -/
def pathFrom? (path : String) (a : Address) (file : String) : Option String :=
  let found := address file
  if found = a then some path
  else if isInside a found then
    some (joinPath path ("/".intercalate (found.take (found.length - a.length)).reverse))
  else none

/-- The paths of all files at or below a path, as they are reached from there. -/
def filesBelow (t : FileTree) (path : String) : List String :=
  match t.locate path with
  | .ok a => t.files.filterMap fun f => pathFrom? path a f.1
  | .error _ => []

/-- The text behind the last dot of a file's name, unless the name starts with that dot. -/
def extension? (path : String) : Option String :=
  match (address path).head? with
  | none => none
  | some name =>
    let reversed := name.toList.reverse
    let behind := reversed.takeWhile (· ≠ '.')
    match reversed.drop behind.length with
    | _ :: _ :: _ => some (String.ofList behind.reverse)
    | _ => none

end FileTree

end JavaTree
