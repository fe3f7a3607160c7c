import Treeprint.Disk.Basic

/-!
# Changing a disk

Making directories, putting leaves in place and removing entries.  A change that the disk refuses
leaves it as it was.  Parent directories that are missing are made on the way.
-/

namespace Treeprint.Disk

def empty : Disk := ⟨.nil, trivial⟩

/-- Change the directory at a location in a way that keeps forests well formed. -/
def changeAt (disk : Disk) (location : List Name) (change : Forest → Forest)
    (hchange : ∀ inside : Forest, inside.WellFormed → (change inside).WellFormed) : Disk :=
  ⟨disk.root.changeAt change location, Forest.wellFormed_changeAt hchange location disk.wellFormed⟩

def putLeafAt (disk : Disk) (location : List Name) (name : Name) (leaf : Leaf) : Disk :=
  if h : name.Valid then
    disk.changeAt location (·.put name (.leaf leaf))
      (fun _ => Forest.wellFormed_put h (fun _ heq => nomatch heq))
  else disk

def putDirectoryAt (disk : Disk) (location : List Name) (name : Name) : Disk :=
  if h : name.Valid then
    disk.changeAt location (·.put name (.directory .nil))
      (fun _ => Forest.wellFormed_put h (fun _ heq => by cases heq; trivial))
  else disk

/-- Remove an entry, with all that is below it. -/
def removeAt (disk : Disk) (location : List Name) (name : Name) : Disk :=
  disk.changeAt location (·.remove name) (fun _ => Forest.wellFormed_remove)

/-! ### By path -/

def route (current : List Name) (path : Bytes) : List Name × List Name :=
  (if Path.isAbsolute path then [] else current, Path.steps path)

/-- Make the directory that the steps lead to, when only the last step is missing. -/
def makeLast (disk : Disk) (start steps : List Name) : Disk :=
  match disk.follow start steps with
  | .ok (.vacant location) =>
    match location.getLast? with
    | some name => disk.putDirectoryAt location.dropLast name
    | none => disk
  | _ => disk

def makeAll (disk : Disk) (start steps : List Name) : Disk :=
  (List.range steps.length).foldl (fun disk n => disk.makeLast start (steps.take (n + 1))) disk

def makeDirectory (disk : Disk) (current : List Name) (path : Bytes) : Disk :=
  let (start, steps) := route current path
  disk.makeAll start steps

/-- Write a file, following links; parents are made. -/
def writeFile (disk : Disk) (current : List Name) (path data : Bytes) (modified : Int) : Disk :=
  let (start, steps) := route current path
  let disk := disk.makeAll start steps.dropLast
  match disk.follow start steps with
  | .ok (.vacant location) | .ok (.leaf location (.file ..)) =>
    match location.getLast? with
    | some name => disk.putLeafAt location.dropLast name (.file data modified)
    | none => disk
  | _ => disk

/-- Put a leaf that is no file where nothing is yet; parents are made and a link is not followed. -/
def makeLeaf (disk : Disk) (current : List Name) (path : Bytes) (leaf : Leaf) : Disk :=
  let (start, steps) := route current path
  let disk := disk.makeAll start steps.dropLast
  match steps.getLast?, disk.follow start steps.dropLast with
  | some name, .ok (.directory location inside) =>
    match inside.find? name with
    | none => disk.putLeafAt location name leaf
    | some _ => disk
  | _, _ => disk

/-- Remove what a path names; a link is removed itself and not what it leads to. -/
def removePath (disk : Disk) (current : List Name) (path : Bytes) : Disk :=
  let (start, steps) := route current path
  match steps.getLast?, disk.follow start steps.dropLast with
  | some name, .ok (.directory location _) => disk.removeAt location name
  | _, _ => disk

end Treeprint.Disk
