import Treeprint.Taking
import Treeprint.Proofs.Location
import Treeprint.Proofs.Store
import Treeprint.Proofs.Working

/-!
# What a fresh look at a disk shows

The reference for calls that share a cache.  `Disk.probe`, `Disk.scan`, `Disk.expand` and
`Disk.snapshot` say what a look at the disk gives when nothing has been remembered and every
question is answered.  They have no ledger at all: a look is a function of the disk and of what is
asked, and so is the failure that it ends in.
-/

namespace Treeprint

/-! ### The reference -/

namespace Disk

variable (disk : Disk)

def metadata (location : List Name) : Except Failure Metadata :=
  match disk.stat [] (Path.render location) with
  | .ok metadata => .ok metadata
  | .error kind => .error (.io (Path.render location) kind)

def content (location : List Name) (metadata : Metadata) : Except Failure Content :=
  match disk.hash [] (Path.render location) with
  | .ok hash => .ok (.regularFile hash metadata.modified)
  | .error kind => .error (.io (Path.render location) kind)

/-- The observation of something below `top`. -/
def observe (top : List Name) (sighting : Sighting) : Except Failure Observation :=
  let path := Path.text (top ++ sighting.names)
  let segments := sighting.names.map Utf8.decode
  match sighting.sight with
  | .directory => .ok ⟨path, ⟨segments, false⟩, false, .directory⟩
  | .file data modified => do
    let content ← disk.content (top ++ sighting.names) (Leaf.metadata (.file data modified))
    return ⟨path, ⟨segments, true⟩, false, content⟩

def observeAll (top : List Name) : List Sighting → Except Failure (List Observation)
  | [] => .ok []
  | sighting :: rest => do
    let entry ← disk.observe top sighting
    let entries ← observeAll top rest
    return entry :: entries

/-- Everything below a location that passes a filter. -/
def scan (top : List Name) (filter : Survey.Filter) : Except Failure (List Observation) := do
  let entries ← disk.observeAll top (Survey.below disk top filter).seen
  match (Survey.below disk top filter).obstacle with
  | some obstacle => throw (obstacle.failure top)
  | none => return entries

/-- The observation of a path that is named directly. -/
def probe (location : List Name) : Except Failure Observation := do
  let key := Path.text location
  let name := Path.lastName location
  let metadata ← disk.metadata location
  match metadata.type with
  | .missing => return ⟨key, .ofName true name, true, .missing⟩
  | .directory => return ⟨key, .ofName false name, true, .directory⟩
  | .regularFile =>
    let content ← disk.content location metadata
    return ⟨key, .ofName true name, true, content⟩
  | .unrecognized description => throw (.unrecognized (Path.render location) description)

/-- A look says that there is a directory. -/
def IsDirectory (location : List Name) : Prop :=
  ∃ metadata, disk.metadata location = .ok metadata ∧ metadata.type = .directory

def locate (current : List Name) (path : Bytes) : Except Failure (List Name) :=
  match Path.absolute current path with
  | some location => .ok location
  | none => .error (.io path .invalidInput)

def expandMember (current : List Name) (path : Bytes) : Except Failure Expansion := do
  let location ← locate current path
  let observation ← disk.probe location
  match observation.kind with
  | .missing | .regularFile => return .member observation
  | .directory => return .directory observation (← disk.scan location .all)

def expandMembers (current : List Name) : List Bytes → Except Failure (List Expansion)
  | [] => .ok []
  | path :: paths => do
    let expansion ← disk.expandMember current path
    let expansions ← expandMembers current paths
    return expansion :: expansions

def withoutDirectory (location : List Name) (metadata : Metadata) :
    Except Failure (List Observation) := do
  match metadata.type with
  | .missing => return []
  | .directory => disk.scan location .all
  | .regularFile =>
    let content ← disk.content location metadata
    return [⟨Path.text location, .ofName true (Path.lastName location), false, content⟩]
  | .unrecognized description => throw (.unrecognized (Path.render location) description)

def expandTree (location : List Name) : Except Failure (List Observation) := do
  let metadata ← disk.metadata location
  disk.withoutDirectory location metadata

def expandFiltered (location : List Name) (restriction : Restriction) :
    Except Failure (List Observation) := do
  let metadata ← disk.metadata location
  match metadata.type with
  | .directory =>
    match restriction.filter with
    | .ok filter => disk.scan location filter
    | .error failure => throw failure
  | _ => disk.withoutDirectory location metadata

def expand (current : List Name) : Root → Except Failure (List Expansion)
  | .members paths => disk.expandMembers current paths
  | .filtered directory restriction => do
    let location ← locate current directory
    return [.tree (← disk.expandFiltered location restriction)]
  | .tree directory => do
    let location ← locate current directory
    return [.tree (← disk.expandTree location)]

def gather (current : List Name) (recipe : Recipe) : List Root → Except Failure (List Observation)
  | [] => .ok []
  | root :: roots => do
    let expansions ← disk.expand current root
    let entries ← gather current recipe roots
    return expansions.flatMap recipe.reshape ++ entries

end Disk

/-- The accepted entries; paths in `taken` are passed over. -/
def Strategy.choose (strategy : Strategy) (taken : List String) :
    List Observation → Except Failure (List (String × Fingerprint))
  | [] => .ok []
  | entry :: rest =>
    if entry.path ∈ taken then strategy.choose taken rest
    else match strategy.judge entry with
      | .error failure => .error failure
      | .ok none => strategy.choose taken rest
      | .ok (some fingerprint) => do
        let entries ← strategy.choose (entry.path :: taken) rest
        return (entry.path, fingerprint) :: entries

/-- The snapshot of accepted entries. -/
def Snapshot.ofAccepted (entries : List (String × Fingerprint)) (compareStrategy : CompareStrategy)
    (isAbsolute : Bool) : Snapshot :=
  if entries.isEmpty then .empty else .ofEntries entries compareStrategy isAbsolute

/-- The snapshot that a call gives that has nothing to remember. -/
def Disk.snapshot (disk : Disk) (current : List Name) (recipe : Recipe) (roots : List Root)
    (compareStrategy : CompareStrategy) (strategy : Strategy) : Except Failure Snapshot := do
  let entries ← disk.gather current recipe roots
  let fingerprints ← strategy.choose [] entries
  return .ofAccepted fingerprints compareStrategy strategy.isAbsolute

/-- A snapshot that is given is the fold over what was gathered. -/
theorem Disk.snapshot_eq_ok {disk : Disk} {current : List Name} {recipe : Recipe}
    {roots : List Root} {compareStrategy : CompareStrategy} {strategy : Strategy}
    {snapshot : Snapshot}
    (h : disk.snapshot current recipe roots compareStrategy strategy = .ok snapshot) :
    ∃ entries chosen, disk.gather current recipe roots = .ok entries ∧
      strategy.choose [] entries = .ok chosen ∧
      snapshot = .ofAccepted chosen compareStrategy strategy.isAbsolute := by
  unfold Disk.snapshot at h
  rcases hgather : disk.gather current recipe roots with failure | entries
  · rw [hgather] at h
    cases h
  rw [hgather] at h
  rcases hchoose : strategy.choose [] entries with failure | chosen
  · simp [hchoose, bind, Except.bind] at h
  · simp only [hchoose, bind, Except.bind, pure, Except.pure, Except.ok.injEq] at h
    exact ⟨entries, chosen, rfl, hchoose, h.symm⟩

end Treeprint
