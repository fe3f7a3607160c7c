import Treeprint.Fingerprint
import Treeprint.Table

/-!
# Snapshots

The fingerprint of a whole collection: absolute paths with their fingerprints, in walk order, with a
word on how to compare it later and on whether the fingerprints carry absolute paths.

Beside the entries stands an index from paths to places.  It is determined by the entries, and the
type says so; where a path occurs twice it leads to the last place.
-/

namespace Treeprint

/-- How a snapshot is compared with another later on.  It is carried along and not looked at. -/
inductive CompareStrategy
  | ordered
  | unordered
  /-- Entries that were added are no change. -/
  | output
  deriving DecidableEq, Repr

namespace CompareStrategy

def name : CompareStrategy → String
  | ordered => "Ordered"
  | unordered => "Unordered"
  | output => "Output"

/-- The strategies, in the order in which they are listed to a reader. -/
def all : List CompareStrategy := [ordered, unordered, output]

end CompareStrategy

/-- Each path with the last of its places, counting from `start`. -/
def indexFrom {α : Type} (start : Nat) (index : Table Nat) : List (String × α) → Table Nat
  | [] => index
  | (path, _) :: rest => indexFrom (start + 1) (index.insert path start) rest

structure Snapshot where
  entries : List (String × Fingerprint)
  compareStrategy : CompareStrategy
  isAbsolute : Bool
  index : Table Nat
  index_eq : index = indexFrom 0 ∅ entries

namespace Snapshot

def ofEntries (entries : List (String × Fingerprint)) (compareStrategy : CompareStrategy)
    (isAbsolute : Bool) : Snapshot :=
  ⟨entries, compareStrategy, isAbsolute, indexFrom 0 ∅ entries, rfl⟩

def empty : Snapshot := ofEntries [] .unordered false

instance : Inhabited Snapshot := ⟨empty⟩

def get? (snapshot : Snapshot) (path : String) : Option Fingerprint :=
  match snapshot.index.get? path with
  | none => none
  | some place => (snapshot.entries[place]?).map Prod.snd

def size (snapshot : Snapshot) : Nat := snapshot.entries.length

def isEmpty (snapshot : Snapshot) : Bool := snapshot.entries.isEmpty

def paths (snapshot : Snapshot) : List String := snapshot.entries.map Prod.fst

/-- Snapshots agree when all fields do, fingerprints without regard to modification times. -/
instance : BEq Snapshot where
  beq x y := x.entries == y.entries && x.compareStrategy = y.compareStrategy
    && x.isAbsolute == y.isAbsolute && x.index.items == y.index.items

end Snapshot

end Treeprint
