import Treeprint.Json.Shape
import Treeprint.Snapshot

/-!
# Snapshots from JSON text

The stored forms read back.  Reading is tolerant: records may be sequences of their fields, fields
may stand in any order and among others that are not known, and a variant that holds nothing may be
a map from its name to `null`.  The index is built anew.
-/

namespace Treeprint.Persistence

open Json

/-! ### The parts of a fingerprint -/

def readHashCode : Reader HashCode := fun text =>
  (sequence byte text).map (fun result => (⟨result.1⟩, result.2))

def readKind : Reader Kind := variant (Kind.all.map (fun kind => (kind.name, .unit kind)))

/-- The two fields of a regular file, as far as they are read. -/
structure FileFields where
  hash : Option HashCode
  modified : Option UInt64

def FileFields.field? (name : String) : Option (FieldReader FileFields) :=
  if name = "hash" then
    some ⟨(·.hash.isSome), fun fields text =>
      (readHashCode text).map (fun result => ({ fields with hash := some result.1 }, result.2))⟩
  else if name = "last_modified" then
    some ⟨(·.modified.isSome), fun fields text =>
      (word64 text).map (fun result => ({ fields with modified := some result.1 }, result.2))⟩
  else none

def FileFields.finish (fields : FileFields) : Except Fault Content := do
  return .regularFile (← require "hash" fields.hash) (← require "last_modified" fields.modified)

def readFile : Reader Content :=
  let wanted := "struct variant ContentSnapshot::RegularFile"
  let inOrder : Reader Content := fun text => do
    let (hash, text) ← expectElement readHashCode 0 (wanted ++ " with 2 elements") text
    let (modified, text) ← expectElement word64 1 (wanted ++ " with 2 elements") text
    return (.regularFile hash modified, text)
  record wanted inOrder FileFields.field? ⟨none, none⟩ FileFields.finish

def readContent : Reader Content :=
  variant [("Missing", .unit .missing), ("Directory", .unit .directory),
    ("RegularFile", .holding "struct variant" readFile)]

def readNormalizedPath : Reader NormalizedPath :=
  let path : Reader NormalizedPath := fun text =>
    (string "a string" text).map (fun result => (.path result.1, result.2))
  variant [("Ignored", .unit .ignored), ("Path", .holding "newtype variant" path)]

/-! ### Fingerprints -/

/-- The two fields of a fingerprint, as far as they are read. -/
structure FingerprintFields where
  path : Option NormalizedPath
  content : Option Content

def FingerprintFields.field? (name : String) : Option (FieldReader FingerprintFields) :=
  if name = "path" then
    some ⟨(·.path.isSome), fun fields text =>
      (readNormalizedPath text).map
        (fun result => ({ fields with path := some result.1 }, result.2))⟩
  else if name = "content" then
    some ⟨(·.content.isSome), fun fields text =>
      (readContent text).map (fun result => ({ fields with content := some result.1 }, result.2))⟩
  else none

def FingerprintFields.finish (fields : FingerprintFields) : Except Fault Fingerprint := do
  return ⟨← require "path" fields.path, ← require "content" fields.content⟩

def readFingerprint : Reader Fingerprint :=
  let wanted := "struct Fingerprint"
  let inOrder : Reader Fingerprint := fun text => do
    let (path, text) ← expectElement readNormalizedPath 0 (wanted ++ " with 2 elements") text
    let (content, text) ← expectElement readContent 1 (wanted ++ " with 2 elements") text
    return (⟨path, content⟩, text)
  record wanted inOrder FingerprintFields.field? ⟨none, none⟩ FingerprintFields.finish

/-! ### Snapshots -/

def readCompareStrategy : Reader CompareStrategy :=
  variant (CompareStrategy.all.map (fun strategy => (strategy.name, .unit strategy)))

/-- The three fields of a snapshot, as far as they are read. -/
structure SnapshotFields where
  entries : Option (List (String × Fingerprint))
  compareStrategy : Option CompareStrategy
  isAbsolute : Option Bool

def readEntries : Reader (List (String × Fingerprint)) :=
  sequence (pair (string "a string") readFingerprint)

def SnapshotFields.field? (name : String) : Option (FieldReader SnapshotFields) :=
  if name = "entries" then
    some ⟨(·.entries.isSome), fun fields text =>
      (readEntries text).map (fun result => ({ fields with entries := some result.1 }, result.2))⟩
  else if name = "compare_strategy" then
    some ⟨(·.compareStrategy.isSome), fun fields text =>
      (readCompareStrategy text).map
        (fun result => ({ fields with compareStrategy := some result.1 }, result.2))⟩
  else if name = "path_absolute" then
    some ⟨(·.isAbsolute.isSome), fun fields text =>
      (boolean text).map (fun result => ({ fields with isAbsolute := some result.1 }, result.2))⟩
  else none

def SnapshotFields.finish (fields : SnapshotFields) : Except Fault Snapshot := do
  return .ofEntries (← require "entries" fields.entries)
    (← require "compare_strategy" fields.compareStrategy)
    (← require "path_absolute" fields.isAbsolute)

def readSnapshot : Reader Snapshot :=
  let wanted := "struct SnapshotData"
  let inOrder : Reader Snapshot := fun text => do
    let (entries, text) ← expectElement readEntries 0 (wanted ++ " with 3 elements") text
    let (strategy, text) ← expectElement readCompareStrategy 1 (wanted ++ " with 3 elements") text
    let (isAbsolute, text) ← expectElement boolean 2 (wanted ++ " with 3 elements") text
    return (.ofEntries entries strategy isAbsolute, text)
  record wanted inOrder SnapshotFields.field? ⟨none, none, none⟩ SnapshotFields.finish

end Treeprint.Persistence
