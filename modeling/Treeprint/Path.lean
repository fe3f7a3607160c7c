import Treeprint.Text.Utf8

/-!
# Paths

A path is given as bytes.  Three readings of it are used, and they differ in what they keep:

* `Path.steps` is what the disk follows: `.` and `..` are steps, and a slash at the end is one more
  `.`, so that it can only follow a directory;
* `Path.absolute` is the location that a path spells: relative paths stand behind the current
  directory, empty components and `.` vanish, `..` is kept;
* `Path.parts` is what two path texts are compared by: the root and a leading `.` are parts of
  their own.

A location is written back by `Path.render`, with one slash before each name.
-/

namespace Treeprint

/-- The name of a file in its directory, or `.` or `..` as a step of a path. -/
abbrev Name := Bytes

namespace Path

def slash : UInt8 := 0x2F

/-- The step that stays where it is. -/
def here : Name := [0x2E]

/-- The step to the directory above. -/
def above : Name := [0x2E, 0x2E]

/-- The stretches between slashes: one more than there are slashes. -/
def pieces : Bytes → List Bytes
  | [] => [[]]
  | b :: rest =>
    if b = slash then [] :: pieces rest
    else match pieces rest with
      | [] => [[b]]
      | piece :: others => (b :: piece) :: others

def isAbsolute : Bytes → Bool
  | b :: _ => b = slash
  | [] => false

/-- The steps that the disk takes along a path. -/
def steps (path : Bytes) : List Name :=
  let named := (pieces path).filter (fun piece => piece ≠ [])
  if path.getLast? = some slash ∧ named ≠ [] then named ++ [here] else named

/-- The names of a path that are neither empty nor `.`. -/
def names (path : Bytes) : List Name :=
  (pieces path).filter (fun piece => piece ≠ [] ∧ piece ≠ here)

/-- The location that a path spells, seen from a current directory; the empty path spells none. -/
def absolute (current : List Name) (path : Bytes) : Option (List Name) :=
  if path = [] then none
  else if isAbsolute path then some (names path)
  else some (current ++ names path)

def render : List Name → Bytes
  | [] => [slash]
  | names => names.flatMap (slash :: ·)

def text (location : List Name) : String := Utf8.decode (render location)

/-- The name a location ends in; a location that ends in `..`, and the root, have none. -/
def lastName (location : List Name) : String :=
  match location.getLast? with
  | some name => if name = above then "" else Utf8.decode name
  | none => ""

/-! ### Comparing path texts -/

inductive Part
  /-- the root directory -/
  | root
  /-- a `.` that a relative path begins with -/
  | current
  | name (name : Name)
  deriving DecidableEq, Repr

/-- The parts of a path: a first part for where it starts, then its names. -/
def parts (path : Bytes) : List Part :=
  let start :=
    if isAbsolute path then [Part.root]
    else if (pieces path).head? = some here then [Part.current]
    else []
  start ++ (names path).map Part.name

/-- Whether the path text `text` lies at or below the path text `top`. -/
def isUnder (top text : String) : Bool :=
  (parts (Utf8.encode top)).isPrefixOf (parts (Utf8.encode text))

end Path

end Treeprint
