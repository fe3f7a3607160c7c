import Treeprint.Disk.Basic

/-!
# Surveying a directory

A survey lists what is below a directory in walk order: a directory before what it holds, and the
entries of one directory by the bytes of their names.  Links are followed.  A filter may pass over
entries; what lies below a directory that it passes over is passed over too.  The survey ends at the
first thing that cannot be observed.

The survey reads the disk and nothing else.  It is a recursion on the forest inside, and outside on
the number of links to directories that are still followed: each of them makes the path longer by a
link, and a path with too many links is not followed by the disk either.

A link to a directory that is being walked would never end.  The directories on the way are known by
their locations, and such a link is an obstacle.
-/

namespace Treeprint

/-- What is seen below the surveyed directory. -/
inductive Sight
  | directory
  | file (data : Bytes) (modified : Int)
  deriving DecidableEq, Repr

/-- Something that was seen, with the names that lead to it. -/
structure Sighting where
  names : List Name
  sight : Sight
  deriving DecidableEq, Repr

inductive Obstacle
  /-- The way there cannot be followed. -/
  | lost (names : List Name) (trouble : Trouble)
  /-- A link leads to a directory that is being walked. -/
  | loop (names : List Name)
  /-- Neither a file nor a directory. -/
  | unrecognized (names : List Name) (description : String)
  deriving DecidableEq, Repr

structure Survey where
  seen : List Sighting
  obstacle : Option Obstacle
  deriving DecidableEq, Repr

namespace Survey

def nothing : Survey := ⟨[], none⟩

def one (names : List Name) (sight : Sight) : Survey := ⟨[⟨names, sight⟩], none⟩

def stop (obstacle : Obstacle) : Survey := ⟨[], some obstacle⟩

/-- One survey after another; after an obstacle nothing follows. -/
def andThen (first : Survey) (second : Unit → Survey) : Survey :=
  match first.obstacle with
  | some _ => first
  | none => let rest := second (); ⟨first.seen ++ rest.seen, rest.obstacle⟩

/-- A filter: whether an entry passes, given its names and whether it is a directory. -/
abbrev Filter := List Name → Bool → Bool

def Filter.all : Filter := fun _ _ => true

/-- The directory at `location` is entered under `names`; `passed` are the locations of the
    directories on the way. -/
abbrev Entering := (passed : List (List Name)) → (location names : List Name) → Forest → Survey

/-- What a leaf shows.  `top` is the location that the survey starts at, as it was spelled; the
    whole path is followed anew for a link, and before the filter is asked. -/
def ofLeaf (disk : Disk) (top : List Name) (filter : Filter) (enter : Entering)
    (passed : List (List Name)) (names : List Name) : Leaf → Survey
  | .file data modified => if filter names false then one names (.file data modified) else nothing
  | .link _ =>
    match disk.follow [] (top ++ names) with
    | .error trouble => stop (.lost names trouble)
    | .ok (.vacant _) => stop (.lost names .missing)
    | .ok (.directory location inside) =>
      if location ∈ passed then stop (.loop names)
      else if filter names true then
        (one names .directory).andThen fun _ => enter (location :: passed) location names inside
      else nothing
    | .ok (.leaf _ (.file data modified)) =>
      if filter names false then one names (.file data modified) else nothing
    | .ok (.leaf _ _) =>
      if filter names false then stop (.unrecognized names "symlink") else nothing
  | object =>
    if filter names false then stop (.unrecognized names object.description) else nothing

/-- Survey the entries of the directory at `location`, which is entered under `names`. -/
def ofForest (disk : Disk) (top : List Name) (filter : Filter) (enter : Entering) :
    (passed : List (List Name)) → (location names : List Name) → Forest → Survey
  | _, _, _, .nil => nothing
  | passed, location, names, .leaf name leaf rest =>
    (ofLeaf disk top filter enter passed (names ++ [name]) leaf).andThen fun _ =>
      ofForest disk top filter enter passed location names rest
  | passed, location, names, .directory name inside rest =>
    (if filter (names ++ [name]) true then
      (one (names ++ [name]) .directory).andThen fun _ =>
        ofForest disk top filter enter ((location ++ [name]) :: passed) (location ++ [name])
          (names ++ [name]) inside
    else nothing).andThen fun _ =>
      ofForest disk top filter enter passed location names rest

/-- Survey a directory and follow up to `links` links to directories on one way. -/
def upTo (disk : Disk) (top : List Name) (filter : Filter) : Nat → Entering
  | 0 => fun _ _ names _ => stop (.lost names .linkLoop)
  | links + 1 => ofForest disk top filter (upTo disk top filter links)

/-- Everything below a location, as it is spelled.  What is no directory has nothing below it. -/
def below (disk : Disk) (top : List Name) (filter : Filter) : Survey :=
  match disk.follow [] top with
  | .error trouble => stop (.lost [] trouble)
  | .ok (.vacant _) => stop (.lost [] .missing)
  | .ok (.leaf ..) => nothing
  | .ok (.directory location inside) =>
    upTo disk top filter (Disk.linkLimit + 1) [location] location [] inside

end Survey

end Treeprint
