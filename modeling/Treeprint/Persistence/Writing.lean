import Treeprint.Json.Quoted
import Treeprint.Snapshot

/-!
# Snapshots as JSON text

The stored form of a snapshot and of its parts, without blanks.  A variant that holds nothing is its
name, one that holds something is a map from its name to what it holds; a hash is the sequence of
its bytes.  The modification time is stored although no comparison looks at it.  The index is not
stored.
-/

namespace Treeprint.Persistence

open Json

/-! ### Building blocks -/

def commas : List (List Char) → List Char := List.intercalate [',']

def writeSequence (elements : List (List Char)) : List Char := '[' :: commas elements ++ [']']

def writeField (field : String × List Char) : List Char := Quoted.write field.1 ++ ':' :: field.2

def writeMap (fields : List (String × List Char)) : List Char :=
  '\x7b' :: commas (fields.map writeField) ++ ['\x7d']

def writeNatural (n : Nat) : List Char := Nat.toDigits 10 n

def writeBoolean (value : Bool) : List Char :=
  if value then ['t', 'r', 'u', 'e'] else ['f', 'a', 'l', 's', 'e']

/-! ### The stored forms -/

def writeHashCode (hash : HashCode) : List Char :=
  writeSequence (hash.bytes.map (fun b => writeNatural b.toNat))

def writeKind (kind : Kind) : List Char := Quoted.write kind.name

def writeContent : Content → List Char
  | .missing => Quoted.write "Missing"
  | .directory => Quoted.write "Directory"
  | .regularFile hash modified =>
    writeMap [("RegularFile", writeMap
      [("hash", writeHashCode hash), ("last_modified", writeNatural modified.toNat)])]

def writeNormalizedPath : NormalizedPath → List Char
  | .ignored => Quoted.write "Ignored"
  | .path text => writeMap [("Path", Quoted.write text)]

def writeFingerprint (fingerprint : Fingerprint) : List Char :=
  writeMap [("path", writeNormalizedPath fingerprint.path),
    ("content", writeContent fingerprint.content)]

def writeCompareStrategy (strategy : CompareStrategy) : List Char := Quoted.write strategy.name

def writeEntry (entry : String × Fingerprint) : List Char :=
  writeSequence [Quoted.write entry.1, writeFingerprint entry.2]

def writeSnapshot (snapshot : Snapshot) : List Char :=
  writeMap [("entries", writeSequence (snapshot.entries.map writeEntry)),
    ("compare_strategy", writeCompareStrategy snapshot.compareStrategy),
    ("path_absolute", writeBoolean snapshot.isAbsolute)]

end Treeprint.Persistence
