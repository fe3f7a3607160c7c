import Treeprint.Content
import Treeprint.Digest.Sha256
import Treeprint.Disk.Basic

/-!
# Observers

An observer answers two questions about a path: what is there (`stat`), and what is the hash of the
file there (`hash`).  An answer may depend on how many questions were answered before it, so that a
passing trouble is an observer too.

The plain observer of a disk follows links, counts a path that does not exist as missing rather than
as an error, and hashes with SHA-256.  A script puts its own answers in front of it.
-/

namespace Treeprint

inductive FileType
  | missing
  | regularFile
  | directory
  /-- Neither a file nor a directory. -/
  | unrecognized (description : String)
  deriving DecidableEq, Repr

/-- What is known of a path without reading it. -/
structure Metadata where
  type : FileType
  /-- Milliseconds since the epoch. -/
  modified : UInt64
  length : UInt64
  deriving DecidableEq, Repr

/-- Nanoseconds since the epoch in whole milliseconds; times before the epoch count as the epoch. -/
def milliseconds (nanoseconds : Int) : UInt64 := UInt64.ofNat (nanoseconds.toNat / 1000000)

def Leaf.metadata : Leaf → Metadata
  | file data modified => ⟨.regularFile, milliseconds modified, UInt64.ofNat data.length⟩
  | leaf => ⟨.unrecognized leaf.description, 0, 0⟩

namespace Metadata

def missing : Metadata := ⟨.missing, 0, 0⟩

def directory : Metadata := ⟨.directory, 0, 0⟩

end Metadata

/-- What is at a path of a disk, links followed. -/
def Disk.stat (disk : Disk) (current : List Name) (path : Bytes) : Except IoKind Metadata :=
  match disk.resolve current path with
  | .ok (.directory ..) => .ok .directory
  | .ok (.leaf _ leaf) => .ok leaf.metadata
  | .ok (.vacant _) | .error .missing => .ok .missing
  | .error trouble => .error trouble.kind

def Disk.hash (disk : Disk) (current : List Name) (path : Bytes) : Except IoKind HashCode :=
  match disk.read current path with
  | .ok data => .ok ⟨Sha256.digest data⟩
  | .error trouble => .error trouble.kind

/-- The two questions, each with the number of questions before it. -/
structure Observer where
  stat : Nat → Bytes → Except IoKind Metadata
  hash : Nat → Bytes → Metadata → Except IoKind HashCode

namespace Observer

def ofDisk (disk : Disk) : Observer where
  stat _ path := disk.stat [] path
  hash _ path _ := disk.hash [] path

/-! ### Scripts -/

/-- Answers that are fixed beforehand; of two answers for one path the first counts. -/
structure Script where
  stats : List (Bytes × Except IoKind Metadata)
  hashes : List (Bytes × Except IoKind HashCode)
  /-- Hash the metadata in place of the file. -/
  hashMetadata : Bool

def Script.none : Script := ⟨[], [], false⟩

/-- The metadata of a file as a hash. -/
def metadataHash (metadata : Metadata) : HashCode :=
  let type := match metadata.type with
    | .missing => "Missing"
    | .regularFile => "RegularFile"
    | .directory => "Directory"
    | .unrecognized description => "Unrecognized(" ++ description ++ ")"
  ⟨Utf8.encode (type ++ " " ++ toString metadata.modified.toNat ++ " "
    ++ toString metadata.length.toNat)⟩

/-- Ask the script first and another observer where it is silent. -/
def scripted (script : Script) (observer : Observer) : Observer where
  stat count path := (script.stats.lookup path).getD (observer.stat count path)
  hash count path metadata :=
    match script.hashes.lookup path with
    | some answer => answer
    | none =>
      if script.hashMetadata then .ok (metadataHash metadata) else observer.hash count path metadata

end Observer

end Treeprint
