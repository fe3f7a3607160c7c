import Treeprint.Disk.Forest
import Treeprint.IoKind

/-!
# Disks, and how a path is followed

A disk is a well-formed forest.  `Disk.follow` takes the steps of a path one by one and always
stands at a *location*: a list of names that leads from the root to a directory through directories
alone. So `..` is the location above, and two directories are the same exactly when their locations
are.

A link is replaced by the steps of its target.  At most forty links are followed on one way; the
recursion is on that number outside and on the list of steps inside.

The disk is idealized in two ways.  Of the limits of a real one it has those on the links of a way
and on the length of a name, and none on the length of a whole path.  And it has no permissions:
whatever is there can be entered, listed and read.
-/

namespace Treeprint

structure Disk where
  root : Forest
  wellFormed : root.WellFormed

/-- What keeps a path from being followed or a file from being read. -/
inductive Trouble
  | missing
  | notDirectory
  | linkLoop
  | nameTooLong
  | nulByte
  | isDirectory
  | noDevice
  deriving DecidableEq, Repr

namespace Trouble

def kind : Trouble → IoKind
  | missing => .notFound
  | notDirectory => .notADirectory
  | linkLoop => .filesystemLoop
  | nameTooLong => .invalidFilename
  | nulByte => .invalidInput
  | isDirectory => .isADirectory
  | noDevice => .uncategorized

/-- The wording of a trouble, with its number where the system has one. -/
def message : Trouble → String
  | missing => "No such file or directory (os error 2)"
  | notDirectory => "Not a directory (os error 20)"
  | linkLoop => "Too many levels of symbolic links (os error 40)"
  | nameTooLong => "File name too long (os error 36)"
  | nulByte => "file name contained an unexpected NUL byte"
  | isDirectory => "Is a directory (os error 21)"
  | noDevice => "No such device or address (os error 6)"

end Trouble

inductive Place
  | directory (location : List Name) (inside : Forest)
  /-- What is no directory, and no link that leads on. -/
  | leaf (location : List Name) (leaf : Leaf)
  /-- A directory is reached that has no entry of the last name. -/
  | vacant (location : List Name)
  deriving DecidableEq, Repr

namespace Disk

def longestName : Nat := 255

/-- How many links are followed on one way. -/
def linkLimit : Nat := 40

/-- Take the steps from a location on; a link hands the way that remains to `expand`. -/
def followWith (root : Forest) (expand : List Name → List Name → Except Trouble Place) :
    List Name → List Name → Except Trouble Place
  | location, [] =>
    match root.directory? location with
    | some inside => .ok (.directory location inside)
    | none => .error .missing
  | location, step :: rest =>
    if step = Path.here then followWith root expand location rest
    else if step = Path.above then followWith root expand location.dropLast rest
    else if longestName < step.length then .error .nameTooLong
    else match root.descend? (location ++ [step]) with
      | some (.directory _) => followWith root expand (location ++ [step]) rest
      | some (.leaf (.link target)) =>
        if target = [] then .error .missing
        else expand (if Path.isAbsolute target then [] else location) (Path.steps target ++ rest)
      | some (.leaf leaf) =>
        if rest = [] then .ok (.leaf (location ++ [step]) leaf) else .error .notDirectory
      | none => if rest = [] then .ok (.vacant (location ++ [step])) else .error .missing

/-- Take the steps from a location on and follow up to `links` links. -/
def followUpTo (root : Forest) : Nat → List Name → List Name → Except Trouble Place
  | 0 => followWith root (fun _ _ => .error .linkLoop)
  | links + 1 => followWith root (followUpTo root links)

/-- Take the steps from a location on.  A zero byte anywhere spoils the whole way. -/
def follow (disk : Disk) (location steps : List Name) : Except Trouble Place :=
  if steps.any (fun step => (0 : UInt8) ∈ step) then .error .nulByte
  else followUpTo disk.root linkLimit location steps

/-- Follow a path, a relative one from the location `current`. -/
def resolve (disk : Disk) (current : List Name) (path : Bytes) : Except Trouble Place :=
  if path = [] then .error .missing
  else disk.follow (if Path.isAbsolute path then [] else current) (Path.steps path)

/-! ### Reading files -/

/-- The bytes of a file, or what a device gives. -/
def read (disk : Disk) (current : List Name) (path : Bytes) : Except Trouble Bytes := do
  match ← disk.resolve current path with
  | .leaf _ (.file data _) => return data
  | .leaf _ (.device _ data) => return data
  | .leaf .. => throw .noDevice
  | .directory .. => throw .isDirectory
  | .vacant _ => throw .missing

end Disk

end Treeprint
