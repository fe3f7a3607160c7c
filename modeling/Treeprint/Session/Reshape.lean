import Treeprint.Recipe

/-!
# Named ways to reshape observations

A vocabulary of steps and hooks that a recipe can be put together from by name.  A name that is not
known changes nothing.
-/

namespace Treeprint.Session

/-- What a step does to one entry. -/
inductive Action
  /-- Put a segment in front. -/
  | prepend (segment : String)
  /-- Keep the last name only, with a text behind it. -/
  | extend (text : String)
  /-- Take a name for a file's path. -/
  | rename (segment : String)
  | clear
  | mark (isRoot : Bool)
  | move (path : String)
  /-- Take the entry for missing. -/
  | forget
  | keep
  deriving DecidableEq, Repr

namespace Action

/-- The action of a name, with the text that goes with it. -/
def ofName (name text : String) : Action :=
  match name with
  | "prefix" => prepend text
  | "suffix" => extend text
  | "rename" => rename text
  | "clear" => clear
  | "root" => mark true
  | "unroot" => mark false
  | "repath" => move text
  | "missing" => forget
  | _ => keep

def apply (entry : Observation) : Action → Observation
  | prepend segment =>
    entry.withRelative ⟨segment :: entry.relative.segments, entry.relative.endsWithFile⟩
  | extend text =>
    entry.withRelative (.ofName entry.relative.endsWithFile (entry.relative.lastName ++ text))
  | rename segment => entry.withRelative (.ofName true segment)
  | clear => entry.withRelative ⟨[], entry.relative.endsWithFile⟩
  | mark isRoot => entry.withRoot isRoot
  | move path => { entry with path }
  | forget => { entry with content := .missing }
  | keep => entry

end Action

/-- An action that may be confined to entries of one kind, given by its name. -/
structure Step where
  action : Action
  only : Option String
  deriving DecidableEq, Repr

def Step.apply (step : Step) (entry : Observation) : Observation :=
  match step.only with
  | none => step.action.apply entry
  | some kind => if entry.kind.name = kind then step.action.apply entry else entry

/-- What a hook does to the contents of a directory. -/
inductive Arrangement
  | reverse
  | drop (kind : Kind)
  | clear
  | mark
  /-- Put a copy of each entry behind, under one name. -/
  | duplicate
  | keep
  deriving DecidableEq, Repr

namespace Arrangement

def ofName (name : String) : Arrangement :=
  match name with
  | "reverse" => reverse
  | "drop_dirs" => drop .directory
  | "drop_files" => drop .regularFile
  | "empty" => clear
  | "mark" => mark
  | "dup" => duplicate
  | _ => keep

def apply (entries : List Observation) : Arrangement → List Observation
  | reverse => entries.reverse
  | drop kind => entries.filter (fun entry => entry.kind ≠ kind)
  | clear => []
  | mark => entries.map (Observation.withRoot true)
  | duplicate =>
    entries ++ entries.map (fun entry =>
      entry.withRelative (.ofName entry.relative.endsWithFile "dup"))
  | keep => entries

end Arrangement

/-- The recipe of a list of steps and two hooks. -/
def recipe (steps : List Step) (rootFile : Option Step) (tree : Option Arrangement) : Recipe where
  rootFile := rootFile.map (fun step => step.apply)
  tree := tree.map (fun arrangement entries => arrangement.apply entries)
  steps := steps.map (fun step => step.apply)

end Treeprint.Session
