import Treeprint.Disk.Edit
import Treeprint.Persistence.Reading
import Treeprint.Persistence.Writing
import Treeprint.Taking

/-!
# Sessions

A session is a disk, a cache and a pool of texts that several snapshotters share, and the snapshots
that were taken.  It is a state machine: each command gives a reply, the questions that were asked,
and the session afterwards.

The disk is set up by fixtures, which are things that are made at a path.  A fresh disk holds one
empty directory, which is the current one.
-/

namespace Treeprint.Session

/-! ### Setting up a disk -/

def workspace : List Name := [Utf8.encode "ws"]

/-- What can be made besides files and directories. -/
inductive Special
  | link (target : Bytes)
  | fifo
  | socket
  /-- A link to a character device that stands outside of the workspace. -/
  | device
  deriving DecidableEq, Repr

inductive Fixture
  | file (path data : Bytes) (modified : Int)
  | directory (path : Bytes)
  | leaf (path : Bytes) (special : Special)
  deriving DecidableEq, Repr

/-- Where the device stands that links are made to: next to the workspace and behind it, under a
    name that is no text.  It gives nothing to a reader. -/
def devicePath : Bytes := [Path.slash, 0xFF]

def Special.make (disk : Disk) (path : Bytes) : Special → Disk
  | link target => disk.makeLeaf workspace path (.link target)
  | fifo => disk.makeLeaf workspace path .fifo
  | socket => disk.makeLeaf workspace path .socket
  | device =>
    (disk.makeLeaf workspace devicePath (.device .character [])).makeLeaf workspace path
      (.link devicePath)

def Fixture.make (disk : Disk) : Fixture → Disk
  | file path data modified => disk.writeFile workspace path data modified
  | directory path => disk.makeDirectory workspace path
  | .leaf path special => special.make disk path

def makeAll (disk : Disk) (fixtures : List Fixture) : Disk := fixtures.foldl Fixture.make disk

/-- A disk with nothing but the current directory. -/
def freshDisk : Disk := Disk.empty.makeDirectory [] (Path.render workspace)

/-! ### States and commands -/

structure Snapshotter where
  recipe : Recipe
  script : Observer.Script
  /-- Observes the disk without a script, and keeps no record of the questions. -/
  isPlain : Bool
  /-- A pool of its own, used for its snapshots. -/
  ownPool : Option TextPool

structure State where
  disk : Disk
  cache : Cache
  pool : TextPool
  snapshotters : List Snapshotter
  /-- The snapshots so far, the latest first. -/
  taken : List Snapshot

def State.start (disk : Disk) (snapshotters : List Snapshotter) : State :=
  ⟨disk, .empty, .empty, snapshotters, []⟩

inductive Command
  | snapshot (roots : List Root) (compareStrategy : CompareStrategy) (strategy : Strategy)
  | walk (root : Root)
  | getPath (path : String)
  | getListing (path : String)
  | putPath (observation : Observation)
  | putListing (listing : Listing)
  | removePath (path : String)
  | removeListing (path : String)
  | invalidate (path : String)
  | clear
  /-- What of some paths is in the cache. -/
  | cached (paths : List String)
  /-- Fingerprints of the latest snapshot. -/
  | lookup (paths : List String)
  /-- Whether the two latest snapshots agree. -/
  | same
  /-- Store the latest snapshot and read it back. -/
  | reload
  | edit (removed : List Bytes) (made : List Fixture)
  | script (script : Observer.Script)

inductive Reply
  | nothing
  | failure (failure : Failure)
  | snapshot (snapshot : Snapshot)
  | expansions (expansions : List Expansion)
  | path (observation : Option Observation)
  | listing (listing : Option Listing)
  | removed (wasThere : Bool)
  | cached (answers : List (Bool × Option Nat))
  | fingerprints (fingerprints : List (Option Fingerprint))
  | agree (answer : Option Bool)
  | reloaded (text : String) (agrees : Bool)

namespace State

def snapshotter (state : State) (number : Nat) : Snapshotter :=
  state.snapshotters.getD number ⟨.identity, .none, true, none⟩

def vantage (state : State) (snapshotter : Snapshotter) : Vantage where
  disk := state.disk
  current := workspace
  observer :=
    if snapshotter.isPlain then .ofDisk state.disk
    else .scripted snapshotter.script (.ofDisk state.disk)

/-- The questions that are on record. -/
def recorded (snapshotter : Snapshotter) (questions : List Question) : List Question :=
  if snapshotter.isPlain then [] else questions

/-- Put back a pool that a snapshotter used for a snapshot. -/
def returnPool (state : State) (number : Nat) (snapshotter : Snapshotter) (pool : TextPool) :
    State :=
  match snapshotter.ownPool with
  | none => { state with pool }
  | some _ =>
    { state with
      snapshotters := state.snapshotters.set number { snapshotter with ownPool := some pool } }

def takeSnapshot (state : State) (number : Nat) (roots : List Root)
    (compareStrategy : CompareStrategy) (strategy : Strategy) : Reply × List Question × State :=
  let snapshotter := state.snapshotter number
  let ledger : Ledger := ⟨state.cache, snapshotter.ownPool.getD state.pool, []⟩
  let work := (state.vantage snapshotter).snapshot snapshotter.recipe roots compareStrategy strategy
  let (outcome, ledger) := work.on ledger
  let state := { state.returnPool number snapshotter ledger.pool with cache := ledger.cache }
  match outcome with
  | .ok snapshot =>
    (.snapshot snapshot, recorded snapshotter ledger.asked,
      { state with taken := snapshot :: state.taken })
  | .error failure => (.failure failure, recorded snapshotter ledger.asked, state)

/-- Walks are made with the shared pool and without the recipe. -/
def walk (state : State) (number : Nat) (root : Root) : Reply × List Question × State :=
  let snapshotter := state.snapshotter number
  let work := (state.vantage snapshotter).expand root
  let (outcome, ledger) := work.on ⟨state.cache, state.pool, []⟩
  let reply := match outcome with
    | .ok expansions => Reply.expansions expansions
    | .error failure => Reply.failure failure
  (reply, recorded snapshotter ledger.asked,
    { state with cache := ledger.cache, pool := ledger.pool })

def latest (state : State) : Snapshot := state.taken.headD .empty

def reload (state : State) : Reply × List Question × State :=
  let snapshot := state.latest
  let text := String.ofList (Persistence.writeSnapshot snapshot)
  match Json.readAll Persistence.readSnapshot text with
  | .ok again =>
    (.reloaded text (again == snapshot), [], { state with taken := again :: state.taken })
  | .error _ => (.nothing, [], state)

/-- One command, given to the snapshotter of a number. -/
def run (state : State) (number : Nat) : Command → Reply × List Question × State
  | .snapshot roots compareStrategy strategy =>
    state.takeSnapshot number roots compareStrategy strategy
  | .walk root => state.walk number root
  | .getPath path => (.path (state.cache.path? path), [], state)
  | .getListing path => (.listing (state.cache.listing? path), [], state)
  | .putPath observation =>
    (.nothing, [], { state with cache := state.cache.putPath observation })
  | .putListing listing => (.nothing, [], { state with cache := state.cache.putListing listing })
  | .removePath path =>
    let (wasThere, cache) := state.cache.removePath path
    (.removed wasThere, [], { state with cache })
  | .removeListing path =>
    let (wasThere, cache) := state.cache.removeListing path
    (.removed wasThere, [], { state with cache })
  | .invalidate path => (.nothing, [], { state with cache := state.cache.invalidate path })
  | .clear => (.nothing, [], { state with cache := .empty })
  | .cached paths =>
    (.cached (paths.map (fun path =>
      ((state.cache.path? path).isSome,
        (state.cache.listing? path).map (fun listing => listing.entries.length)))), [], state)
  | .lookup paths => (.fingerprints (paths.map state.latest.get?), [], state)
  | .same =>
    match state.taken with
    | latest :: previous :: _ => (.agree (some (latest == previous)), [], state)
    | _ => (.agree none, [], state)
  | .reload => state.reload
  | .edit removed made =>
    let disk := removed.foldl (fun disk path => disk.removePath workspace path) state.disk
    (.nothing, [], { state with disk := makeAll disk made })
  | .script script =>
    let snapshotter := state.snapshotter number
    (.nothing, [],
      { state with snapshotters := state.snapshotters.set number { snapshotter with script } })

end State

end Treeprint.Session
