import Treeprint.Root
import Treeprint.Work

/-!
# Expanding roots

A root is expanded into observations.  The cache is asked before the observer, and is filled
afterwards: members are kept one by one under their absolute path, and the contents of a directory
as one listing, but only when no patterns were applied, since listings are told apart by path alone.

Below a directory nothing is asked of the observer but hashes: the survey reads the disk.
-/

namespace Treeprint

/-- The failure that an obstacle below `top` stands for. -/
def Obstacle.failure (top : List Name) : Obstacle → Failure
  | lost names trouble =>
    .walk (Path.render (top ++ names))
      ("IO error for operation on " ++ Path.text (top ++ names) ++ ": " ++ trouble.message)
  | loop names => .linkLoop (Path.render (top ++ names))
  | unrecognized names description => .unrecognized (Path.render (top ++ names)) description

namespace Vantage

/-! ### Below a directory -/

/-- The observation of something that was seen below `top`.  A file is hashed first, and only then
    is its path stored. -/
def observe (vantage : Vantage) (top : List Name) (sighting : Sighting) : Work Observation := do
  let location := top ++ sighting.names
  let segments := sighting.names.map Utf8.decode
  match sighting.sight with
  | .directory =>
    let path ← Work.intern (Path.text location)
    return ⟨path, ⟨segments, false⟩, false, .directory⟩
  | .file data modified =>
    let content ← vantage.content location (Leaf.metadata (.file data modified))
    let path ← Work.intern (Path.text location)
    return ⟨path, ⟨segments, true⟩, false, content⟩

def observeAll (vantage : Vantage) (top : List Name) : List Sighting → Work (List Observation)
  | [] => return []
  | sighting :: rest => do
    let entry ← vantage.observe top sighting
    let entries ← vantage.observeAll top rest
    return entry :: entries

def scan (vantage : Vantage) (top : List Name) (filter : Survey.Filter) :
    Work (List Observation) := do
  let survey := Survey.below vantage.disk top filter
  let entries ← vantage.observeAll top survey.seen
  match survey.obstacle with
  | some obstacle => throw (obstacle.failure top)
  | none => return entries

/-- Everything below a directory, from the cache when it is there. -/
def contents (vantage : Vantage) (top : List Name) (key : String) : Work (List Observation) := do
  match (← get).cache.listing? key with
  | some listing => return listing.entries
  | none =>
    let entries ← vantage.scan top .all
    Work.changeCache (·.putListing ⟨key, entries⟩)
    return entries

/-! ### Members -/

/-- Look at a path that was named directly. -/
def probe (vantage : Vantage) (location : List Name) (key : String) : Work Observation := do
  let name := Path.lastName location
  let metadata ← vantage.stat location
  match metadata.type with
  | .missing => return ⟨key, .ofName true name, true, .missing⟩
  | .directory => return ⟨key, .ofName false name, true, .directory⟩
  | .regularFile =>
    let content ← vantage.content location metadata
    return ⟨key, .ofName true name, true, content⟩
  | .unrecognized description => throw (.unrecognized (Path.render location) description)

/-- The observation of a member, from the cache when it is there. -/
def member (vantage : Vantage) (location : List Name) (key : String) : Work Observation := do
  match (← get).cache.path? key with
  | some observation => return observation
  | none =>
    let observation ← vantage.probe location key
    Work.changeCache (·.putPath observation)
    return observation

def expandMember (vantage : Vantage) (path : Bytes) : Work Expansion := do
  let location ← vantage.absolute path
  let key ← Work.intern (Path.text location)
  let observation ← vantage.member location key
  match observation.kind with
  | .missing | .regularFile => return .member observation
  | .directory => return .directory observation (← vantage.contents location key)

def expandMembers (vantage : Vantage) : List Bytes → Work (List Expansion)
  | [] => return []
  | path :: paths => do
    let expansion ← vantage.expandMember path
    let expansions ← vantage.expandMembers paths
    return expansion :: expansions

/-! ### Trees -/

/-- A tree whose top is no directory: nothing when it is missing, and a file stands for itself. -/
def withoutDirectory (vantage : Vantage) (location : List Name) (metadata : Metadata) :
    Work (List Observation) := do
  match metadata.type with
  | .missing => return []
  | .directory => vantage.scan location .all
  | .regularFile =>
    let content ← vantage.content location metadata
    let key ← Work.intern (Path.text location)
    return [⟨key, .ofName true (Path.lastName location), false, content⟩]
  | .unrecognized description => throw (.unrecognized (Path.render location) description)

def expandTree (vantage : Vantage) (location : List Name) : Work (List Observation) := do
  let key ← Work.intern (Path.text location)
  match (← get).cache.listing? key with
  | some listing => return listing.entries
  | none =>
    let metadata ← vantage.stat location
    match metadata.type with
    | .directory => vantage.contents location key
    | _ => vantage.withoutDirectory location metadata

def expandFiltered (vantage : Vantage) (location : List Name) (restriction : Restriction) :
    Work (List Observation) := do
  let metadata ← vantage.stat location
  match metadata.type with
  | .directory =>
    match restriction.filter with
    | .ok filter => vantage.scan location filter
    | .error failure => throw failure
  | _ => vantage.withoutDirectory location metadata

/-- The sequences of observations that a root gives rise to. -/
def expand (vantage : Vantage) : Root → Work (List Expansion)
  | .members paths => vantage.expandMembers paths
  | .filtered directory restriction => do
    let location ← vantage.absolute directory
    return [.tree (← vantage.expandFiltered location restriction)]
  | .tree directory => do
    let location ← vantage.absolute directory
    return [.tree (← vantage.expandTree location)]

end Vantage

end Treeprint
