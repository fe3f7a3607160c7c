import Treeprint.Observation
import Treeprint.Path
import Treeprint.Table

/-!
# What has been observed already

Two tables that do not touch each other: observations of single paths, and listings of whole
directories.  Nothing is dropped by itself.  Whoever changes the disk says what changed, and
`Cache.invalidate` drops what the change may have made stale: the paths at or below it, the listings
at or below it, and the listings of the directories above it, since those list what changed.
-/

namespace Treeprint

structure Cache where
  paths : Table Observation
  listings : Table Listing

namespace Cache

def empty : Cache := ⟨∅, ∅⟩

instance : Inhabited Cache := ⟨empty⟩

def path? (cache : Cache) (path : String) : Option Observation := cache.paths.get? path

def listing? (cache : Cache) (path : String) : Option Listing := cache.listings.get? path

/-- Keep an observation under its own path. -/
def putPath (observation : Observation) (cache : Cache) : Cache :=
  { cache with paths := cache.paths.insert observation.path observation }

/-- Keep a listing under its own path. -/
def putListing (listing : Listing) (cache : Cache) : Cache :=
  { cache with listings := cache.listings.insert listing.path listing }

/-- Drop one path.  The answer says whether it was there. -/
def removePath (path : String) (cache : Cache) : Bool × Cache :=
  (cache.paths.contains path, { cache with paths := cache.paths.erase path })

/-- Drop one listing.  The answer says whether it was there. -/
def removeListing (path : String) (cache : Cache) : Bool × Cache :=
  (cache.listings.contains path, { cache with listings := cache.listings.erase path })

/-- Drop what a change at or below `path` may have made stale. -/
def invalidate (path : String) (cache : Cache) : Cache where
  paths := cache.paths.filterKeys (fun key => !Path.isUnder path key)
  listings := cache.listings.filterKeys
    (fun key => !Path.isUnder path key && !Path.isUnder key path)

def pathCount (cache : Cache) : Nat := cache.paths.size

def listingCount (cache : Cache) : Nat := cache.listings.size

def isEmpty (cache : Cache) : Bool := cache.pathCount = 0 && cache.listingCount = 0

end Cache

end Treeprint
